import Multistage.Proofs.HeldReferences
import Multistage.Proofs.LooseNames
import Multistage.Proofs.Scopes

/-!
# Typing of code

The checker types a whole program. Evaluation takes the program apart: code is built, moved and run on
its own. `HasType` types a term by what evaluation knows of it: the names that its own quote binds, for
each quote around it the names bound there, and the types of the values that the term holds. A name in
code that is not known, or is in doubt, must be loose, and has the one type that the program gives it.

If the code is meant for the checker, each name must also be such that the checker, with one scope for
the names of all quotes, does not find it in a quote further in (`Ledger.Sees`).

Main statements:

* `HasType.transport`: typing survives a move to a larger place, with moved held references;
* `HasType.parts`: a node over rebuilt parts has the type of the node, even if code has been spliced into
  the parts and binds more names than before.
-/

namespace Multistage

/-! ## Contexts -/

/-- Names with their types, newest first. A name without a type is in doubt: something may have bound it
again. -/
abbrev Typing := List (String × Option Ty)

namespace Typing

/-- Put names in doubt. -/
def doubt (names : List String) : Typing := names.map (·, none)

/-- The parameters of a function, of which the last comes first. -/
def params (bound : List (String × Ty)) : Typing := (bound.map fun b => (b.1, some b.2)).reverse

/-- What is known of the names, without the types. -/
def known (Γ : Typing) : Known := Γ.map fun b => (b.1, b.2.isSome)

/-- What the bindings of a value do to the names known after it, for a reader of the code. -/
def spill (B : Typing) : Reader → Typing
  | .evaluator => []
  | .checker => doubt (B.map (·.1))

/-- The last binding of a name has a type, and the name is not in doubt. -/
def Knows (Γ : Typing) (name : String) (τ : Ty) : Prop := Scope.newest? name Γ = some (some τ)

/-- A name is bound, whether or not it is in doubt. -/
def Binds (Γ : Typing) (name : String) : Prop := ∃ τ, (name, some τ) ∈ Γ

/-- The second context knows and binds all that the first one does. -/
structure Sub (Γ Γ' : Typing) : Prop where
  knows {name : String} {τ : Ty} : Γ.Knows name τ → Γ'.Knows name τ
  binds {name : String} : Γ.Binds name → Γ'.Binds name

end Typing

/-- A place where a term is typed. -/
structure Place where
  /-- whether the place belongs to the program itself, and not to code on its own -/
  home : Bool
  /-- the scope of the checker -/
  sight : Sight
  /-- what the innermost quote binds before the place -/
  here : Typing
  /-- what the quotes further out bind -/
  outer : List Typing

namespace Place

/-- The place of code on its own. -/
def alone : Place := ⟨false, [], [], []⟩

/-- The number of quotes around a place. -/
def level (P : Place) : Nat := P.outer.length

/-- The place is outside all quotes of the program. -/
def atHome (P : Place) : Bool := P.home && P.outer.isEmpty

/-- The place after bindings `B`: `seen` are those that the checker adds to its scope. -/
def bind (P : Place) (seen : Known) (B : Typing) : Place :=
  ⟨P.home, seen.seenAt P.level ++ P.sight, B ++ P.here, P.outer⟩

/-- Inside a function its parameters are bound. -/
def called (P : Place) (bound : List (String × Ty)) : Place :=
  P.bind (Typing.params bound).known (.params bound)

/-- Inside a quote nothing is bound yet. -/
def quoted (P : Place) : Place := ⟨P.home, P.sight, [], P.here :: P.outer⟩

/-- The place that an escape leads back to. -/
def back (P : Place) (Δ : Typing) (outer : List Typing) : Place := ⟨P.home, P.sight, Δ, outer⟩

/-- A place of code, seen from where the code is quoted: `Δ` is bound there, and the checker has `sight`
in scope. -/
def under (P : Place) (home : Bool) (Δ : Typing) (sight : Sight) : Place :=
  ⟨home, P.sight.map (fun e => (e.1, ⟨e.2.level + 1, e.2.kept⟩)) ++ sight, P.here, P.outer ++ [Δ]⟩

end Place

/-- What a program says of its names: which are loose and the type of each of these, which may turn out
not to be bound or are assigned as loose names, and what can happen to names in its quotes. -/
structure Ledger where
  loose : String → Prop
  stray : String → Prop
  target : String → Prop
  type : String → Ty
  leaks : Leaks
  intrinsic : ∀ name type', Prelude.general.intrinsics.get? name = some type' → loose name →
    type name = type'

namespace Ledger

variable (S : Ledger)

/-- The reader of a place: what stands outside all quotes of the program is only evaluated. -/
def readerAt (P : Place) : Reader := if P.atHome then .evaluator else S.leaks.reader

/-- Loose names are bound at their type. -/
def Obeys (bound : List (String × Ty)) : Prop := ∀ b ∈ bound, S.loose b.1 → b.2 = S.type b.1

/-- If the checker reads the place, it does not find the name in a quote further in. -/
def Sees (P : Place) (name : String) : Prop :=
  S.readerAt P = .checker → ∀ seen, Scope.newest? name P.sight = some seen → seen.level ≤ P.level

/-- A name can be assigned values of a type. -/
inductive Writes (P : Place) (name : String) (τ : Ty) : Prop where
  | known : P.here.Knows name τ → S.Sees P name → Writes P name τ
  | loose : P.atHome = false → S.loose name → τ = S.type name → S.target name →
    P.here.Binds name ∨ S.stray name → S.Sees P name → Writes P name τ

/-- A use of a name has a type. -/
inductive Reads (P : Place) (name : String) (τ : Ty) : Prop where
  | known : P.here.Knows name τ → S.Sees P name → Reads P name τ
  | intrinsic : P.atHome = true → Scope.newest? name P.here = none →
    Prelude.general.intrinsics.get? name = some τ → Reads P name τ
  | loose : P.atHome = false → S.loose name → τ = S.type name →
    P.here.Binds name ∨ S.stray name ∨ (HostFunction.intrinsic? name).isSome → S.Sees P name →
    Reads P name τ

/-- What an escape does to the names known before it: a splice puts those in doubt that code may bind. -/
def escaping : EscapeKind → Typing
  | .persist => []
  | .splice | .snippet => Typing.doubt S.leaks.names

end Ledger

/-- The second list of bindings can take the place of the first: no context knows less after it, and it
binds no other names. -/
structure Widens (B B' : Typing) : Prop where
  sub (Γ : Typing) : Typing.Sub (B ++ Γ) (B' ++ Γ)
  names : B'.map (·.1) ⊆ B.map (·.1)

/-- The checker goes on with more names than before; under quotes with the same. -/
structure Known.Grows (level : Nat) (seen seen' : Known) : Prop where
  names : seen.map (·.1) ⊆ seen'.map (·.1)
  same : level ≠ 0 → seen' = seen

namespace Typing

variable {Γ Γ' Γ'' B B' : Typing} {name : String} {names names' : List String} {τ : Ty}

theorem Knows.binds (h : Γ.Knows name τ) : Γ.Binds name := ⟨τ, Scope.mem_of_newest? h⟩

theorem newest?_doubt (hname : name ∉ names) : Scope.newest? name (doubt names) = none := by
  induction names with
  | nil => rfl
  | cons first rest ih =>
    rw [List.mem_cons, not_or] at hname
    show (if first = name then _ else Scope.newest? name (doubt rest)) = none
    rw [if_neg (Ne.symm hname.1)]
    exact ih hname.2

/-- A name that is known behind names in doubt is none of these. -/
theorem Knows.of_doubt (h : (doubt names ++ Γ).Knows name τ) : name ∉ names ∧ Γ.Knows name τ := by
  have hnotin : name ∉ names := by
    intro hmem
    induction names with
    | nil => cases hmem
    | cons first rest ih =>
      have hcons : (if first = name then some none else Scope.newest? name (doubt rest ++ Γ)) =
          some (some τ) := h
      split at hcons
      · cases hcons
      · next hne => exact ih hcons ((List.mem_cons.1 hmem).resolve_left (Ne.symm hne))
  refine ⟨hnotin, ?_⟩
  unfold Knows at h
  rw [Scope.newest?_append, newest?_doubt hnotin] at h
  exact h

theorem Binds.of_doubt (h : (doubt names ++ Γ).Binds name) : Γ.Binds name := by
  rcases h with ⟨τ, hname⟩
  rcases List.mem_append.1 hname with hname | hname
  · rcases List.mem_map.1 hname with ⟨_, -, heq⟩
    cases heq
  · exact ⟨τ, hname⟩

theorem newest?_params (bound : List (String × Ty)) (name : String) :
    Scope.newest? name (params bound) = (Scope.newest? name bound.reverse).map some := by
  rw [params, ← List.map_reverse]
  exact Scope.newest?_map some name bound.reverse

theorem mem_known_of_binds (h : Γ.Binds name) : (name, true) ∈ Γ.known := by
  rcases h with ⟨τ, hmem⟩
  exact List.mem_map.2 ⟨_, hmem, rfl⟩

theorem map_fst_known (Γ : Typing) : Γ.known.map (·.1) = Γ.map (·.1) := by
  simp [known]

theorem map_fst_doubt (names : List String) : (doubt names).map (·.1) = names := by
  simp [doubt, Function.comp_def]

theorem known_doubt (names : List String) : (doubt names).known = names.map (·, false) := by
  simp [known, doubt]

theorem known_append (Γ Γ' : Typing) : (Γ ++ Γ').known = Γ.known ++ Γ'.known := by
  simp [known]

theorem known_spill (B : Typing) (names : List String) (reader : Reader) :
    (B.spill reader).known = (⟨names, reader⟩ : Leaks).spill B.known := by
  cases reader with
  | evaluator => rfl
  | checker => simp [spill, Leaks.spill, known, doubt, Function.comp_def]

namespace Sub

theorem refl (Γ : Typing) : Sub Γ Γ := ⟨id, id⟩

theorem nil (Γ : Typing) : Sub [] Γ := by
  constructor
  · intro name τ hname
    cases hname
  · rintro name ⟨τ, hname⟩
    cases hname

theorem trans (h : Sub Γ Γ') (h' : Sub Γ' Γ'') : Sub Γ Γ'' :=
  ⟨fun hknows => h'.knows (h.knows hknows), fun hbinds => h'.binds (h.binds hbinds)⟩

/-- More bindings in front keep one typing below another. -/
theorem append (h : Sub Γ Γ') (B : Typing) : Sub (B ++ Γ) (B ++ Γ') := by
  constructor
  · intro name τ hname
    unfold Knows at hname ⊢
    rw [Scope.newest?_append] at hname ⊢
    cases hB : Scope.newest? name B with
    | some known => simpa [hB] using hname
    | none =>
      rw [hB] at hname
      exact h.knows hname
  · rintro name ⟨τ, hname⟩
    rcases List.mem_append.1 hname with hname | hname
    · exact ⟨τ, List.mem_append_left _ hname⟩
    · rcases h.binds ⟨τ, hname⟩ with ⟨τ', hname'⟩
      exact ⟨τ', List.mem_append_right _ hname'⟩

/-- In the place of doubts about names, bindings of these names take no knowledge away. -/
theorem of_doubt (hB : B.map (·.1) ⊆ names) (Γ : Typing) : Sub (doubt names ++ Γ) (B ++ Γ) := by
  constructor
  · intro name τ hname
    rcases hname.of_doubt with ⟨hnotin, hknows⟩
    have hnone : Scope.newest? name B = none := by
      cases hsome : Scope.newest? name B with
      | none => rfl
      | some value => exact absurd (hB (List.mem_map_of_mem (Scope.mem_of_newest? hsome))) hnotin
    unfold Knows
    rw [Scope.newest?_append, hnone]
    exact hknows
  · intro name hname
    rcases hname.of_doubt with ⟨τ, hmem⟩
    exact ⟨τ, List.mem_append_right _ hmem⟩

/-- What a value binds for the checker takes no more than knowledge away. -/
theorem of_spill (B : Typing) (reader : Reader) (Γ : Typing) : Sub (B.spill reader ++ Γ) Γ := by
  cases reader with
  | evaluator => exact .refl Γ
  | checker => exact of_doubt (B := []) (List.nil_subset _) Γ

end Sub

end Typing

namespace Widens

variable {B B' C C' : Typing}

theorem refl (B : Typing) : Widens B B := ⟨fun _ => .refl _, List.Subset.refl _⟩

theorem append (hB : Widens B B') (hC : Widens C C') : Widens (C ++ B) (C' ++ B') := by
  constructor
  · intro Γ
    rw [List.append_assoc, List.append_assoc]
    exact (hC.sub (B ++ Γ)).trans ((hB.sub Γ).append C')
  · rw [List.map_append, List.map_append]
    exact List.append_subset.2 ⟨List.subset_append_of_subset_left _ hC.names,
      List.subset_append_of_subset_right _ hB.names⟩

theorem forall_names (hB : Widens B B') {names : List String} (h : ∀ b ∈ B, b.1 ∈ names) :
    ∀ b ∈ B', b.1 ∈ names := by
  intro b hb
  rcases List.mem_map.1 (hB.names (List.mem_map_of_mem hb)) with ⟨b', hb', hname⟩
  rw [← hname]
  exact h b' hb'

/-- Bindings of some names can take the place of doubts about them. -/
theorem of_doubt {names : List String} (hB : B.map (·.1) ⊆ names) : Widens (Typing.doubt names) B where
  sub Γ := .of_doubt hB Γ
  names := by rwa [Typing.map_fst_doubt]

theorem spill (hB : Widens B B') (reader : Reader) : Widens (B.spill reader) (B'.spill reader) := by
  cases reader with
  | evaluator => exact .refl _
  | checker =>
    refine .of_doubt ?_
    rw [Typing.spill, Typing.map_fst_doubt]
    exact hB.names

theorem bind (hB : Widens B B') (name : String) (τ : Ty) :
    Widens ((name, some τ) :: B) ((name, some τ) :: B') :=
  hB.append (.refl [(name, some τ)])

/-- Code that binds what code may bind can take the place of a splice. -/
theorem splice {S : Ledger} {kind : EscapeKind} (hkind : kind ≠ .persist)
    (hB : ∀ b ∈ B, b.1 ∈ S.leaks.names) : Widens (S.escaping kind) B := by
  have hescaping : S.escaping kind = Typing.doubt S.leaks.names := by
    cases kind with
    | persist => exact absurd rfl hkind
    | splice | snippet => rfl
  rw [hescaping]
  refine .of_doubt ?_
  intro name hname
  rcases List.mem_map.1 hname with ⟨b, hb, rfl⟩
  exact hB b hb

end Widens

namespace Known.Grows

variable {level : Nat} {seen seen' more more' : Known}

theorem refl (level : Nat) (seen : Known) : Known.Grows level seen seen :=
  ⟨List.Subset.refl _, fun _ => rfl⟩

theorem append (h : Known.Grows level seen seen') (h' : Known.Grows level more more') :
    Known.Grows level (more ++ seen) (more' ++ seen') where
  names := by
    rw [List.map_append, List.map_append]
    exact List.append_subset.2 ⟨List.subset_append_of_subset_left _ h'.names,
      List.subset_append_of_subset_right _ h.names⟩
  same hlevel := by rw [h.same hlevel, h'.same hlevel]

theorem spill (h : Known.Grows level seen seen') :
    Known.Grows level (Leaks.asWritten.spill seen) (Leaks.asWritten.spill seen') where
  names := by simpa [Leaks.asWritten, Term.map_fst_spill] using h.names
  same hlevel := by rw [h.same hlevel]

end Known.Grows

/-! ## Places -/

namespace Place

variable {P : Place} {home : Bool} {Δ : Typing} {sight : Sight} {name : String} {S : Ledger}

theorem bind_bind (P : Place) (seen seen' : Known) (B B' : Typing) :
    (P.bind seen B).bind seen' B' = P.bind (seen' ++ seen) (B' ++ B) := by
  simp [bind, level, Known.seenAt]

theorem under_bind (P : Place) (seen : Known) (B : Typing) (home : Bool) (Δ : Typing) (sight : Sight) :
    (P.bind seen B).under home Δ sight = (P.under home Δ sight).bind seen B := by
  simp [under, bind, level, Known.seenAt]

@[simp] theorem atHome_under : (P.under home Δ sight).atHome = false := by
  simp [atHome, under]

theorem level_under : (P.under home Δ sight).level = P.level + 1 := by
  simp [level, under]

theorem atHome_of_away (hP : P.home = false) : P.atHome = false := by
  rw [atHome, hP, Bool.false_and]

theorem atHome_of_outer (P : Place) (houter : P.outer = []) : P.atHome = P.home := by
  rw [atHome, houter, List.isEmpty_nil, Bool.and_true]

theorem readerAt_of_away (hP : P.home = false) : S.readerAt P = S.leaks.reader := by
  rw [Ledger.readerAt, atHome_of_away hP]
  rfl

theorem readerAt_under : S.readerAt (P.under home Δ sight) = S.leaks.reader := by
  rw [Ledger.readerAt, atHome_under]
  rfl

end Place

theorem Place.readerAt_quoted (S : Ledger) (P : Place) : S.readerAt P.quoted = S.leaks.reader := by
  rw [Ledger.readerAt, atHome, quoted, List.isEmpty_cons, Bool.and_false]
  rfl

/-- What the checker does not find further in from around the quote, it does not find so in the code. -/
theorem Ledger.Sees.of_under {S : Ledger} {P : Place} {home : Bool} {Δ : Typing} {sight : Sight}
    {name : String} (h : S.Sees (P.under home Δ sight) name)
    (hP : P.home = false) : S.Sees P name := by
  intro hreader seen hseen
  have hfound : Scope.newest? name (P.under home Δ sight).sight = some ⟨seen.level + 1, seen.kept⟩ := by
    have hmap := Scope.newest?_map (fun e : Seen => (⟨e.level + 1, e.kept⟩ : Seen)) name P.sight
    rw [hseen] at hmap
    rw [Place.under, Scope.newest?_append]
    simp only [hmap, Option.map_some, Option.some_or]
  rw [Place.readerAt_of_away hP] at hreader
  have hlevel := h (Place.readerAt_under.trans hreader) _ hfound
  rw [Place.level_under] at hlevel
  exact Nat.le_of_succ_le_succ hlevel

/-! ## Typing -/

mutual
/-- `HasType S P Φ t τ B`: at the place `P` the term `t` has the type `τ` and leaves the bindings `B`, where
`Φ` has the types of the held values. -/
inductive HasType (S : Ledger) : Place → List Ty → Term → Ty → Typing → Prop where
  | literal {P : Place} {Φ : List Ty} {s : Site} {value : Literal} :
    HasType S P Φ (.literal s value) value.type []
  | seq {P : Place} {Φ : List Ty} {s : Site} {l r : Term} {α β : Ty} {B C : Typing} :
    HasType S P Φ l α B → HasType S (P.bind l.inScope B) Φ r β C →
    HasType S P Φ (.seq s l r) β (C ++ B)
  | define {P : Place} {Φ : List Ty} {s : Site} {name : String} {t : Term} {τ : Ty} {B : Typing} :
    HasType S P Φ t τ B → (P.atHome = false → S.loose name → τ = S.type name) →
    HasType S P Φ (.define s name t) τ ((name, some τ) :: B.spill (S.readerAt P))
  | assign {P : Place} {Φ : List Ty} {s : Site} {name : String} {t : Term} {τ : Ty} {B : Typing} :
    HasType S P Φ t τ B → S.Writes P name τ →
    HasType S P Φ (.assign s name t) τ (B.spill (S.readerAt P))
  | lookup {P : Place} {Φ : List Ty} {s : Site} {name : String} {τ : Ty} :
    S.Reads P name τ → HasType S P Φ (.lookup s name) τ []
  | unary {P : Place} {Φ : List Ty} {s : Site} {op : UnaryOp} {t : Term} {α τ : Ty} {B : Typing} :
    HasType S P Φ t α B → unaryRule s.id α = .ok τ → HasType S P Φ (.unary s op t) τ []
  | binary {P : Place} {Φ : List Ty} {s : Site} {op : BinaryOp} {l r : Term} {α β τ : Ty}
      {B C : Typing} :
    HasType S P Φ l α B → HasType S (P.bind l.inScope B) Φ r β C → numericRule s.id α β = .ok τ →
    HasType S P Φ (.binary s op l r) τ []
  | quote {P : Place} {Φ : List Ty} {s : Site} {label : Option String} {snippet : Bool} {t : Term}
      {τ : Ty} {B : Typing} :
    HasType S P.quoted Φ t τ B → 0 ≤ τ.stage → (∀ b ∈ B, b.1 ∈ S.leaks.names) →
    HasType S P Φ (.quote s label snippet t) (τ.shift 1) []
  | escape {P : Place} {Δ : Typing} {outer : List Typing} {Φ : List Ty} {s : Site} {kind : EscapeKind}
      {t : Term} {α τ : Ty} {B : Typing} :
    P.outer = Δ :: outer → HasType S (P.back Δ outer) Φ t α B → escapeRule s.id kind α = .ok τ →
    (kind ≠ .persist → ∀ name, S.loose name → S.Sees P name) →
    HasType S P Φ (.escape s kind t) τ (S.escaping kind)
  | run {P : Place} {Φ : List Ty} {s : Site} {t : Term} {α τ : Ty} {B : Typing} :
    HasType S P Φ t α B → runRule s.id α = .ok τ →
    HasType S P Φ (.run s t) τ (B.spill (S.readerAt P))
  | lambda {P : Place} {Φ : List Ty} {s : Site} {params : List Param} {t : Term}
      {bound : List (String × Ty)} {τ : Ty} {B : Typing} :
    Prelude.general.paramRule s.id params = .ok bound → (P.atHome = false → S.Obeys bound) →
    HasType S (P.called bound) Φ t τ B →
    HasType S P Φ (.lambda s params t) (.function (bound.map (·.2)) τ) []
  | call {P : Place} {Φ : List Ty} {s : Site} {f : Term} {args : List Term} {α τ : Ty} {B : Typing}
      {types : List Ty} :
    HasType S P Φ f α B → HasTypes S P Φ args types → callRule s.id α types = .ok τ →
    HasType S P Φ (.call s f args) τ []
  | held {P : Place} {Φ : List Ty} {s : Site} {index : Nat} {τ : Ty} :
    P.outer = [] → Φ[index]? = some τ → HasType S P Φ (.held s index) τ []

/-- Arguments have types, all at the same place. -/
inductive HasTypes (S : Ledger) : Place → List Ty → List Term → List Ty → Prop where
  | nil {P : Place} {Φ : List Ty} : HasTypes S P Φ [] []
  | cons {P : Place} {Φ : List Ty} {t : Term} {ts : List Term} {τ : Ty} {types : List Ty} {B : Typing} :
    HasType S P Φ t τ B → HasTypes S P Φ ts types → HasTypes S P Φ (t :: ts) (τ :: types)
end

variable {S : Ledger} {P P' : Place} {B : Typing} {Φ Φ' : List Ty} {t : Term} {τ : Ty}

/-- What a typed term leaves bound is what it does to the names known before it. -/
theorem HasType.known_eq (h : HasType S P Φ t τ B) :
    B.known = t.effect ⟨S.leaks.names, S.readerAt P⟩ := by
  induction t generalizing P τ B with
  | seq s l r ihl ihr =>
    cases h with
    | seq hl hr =>
      -- bindings before a term do not change where the term stands
      have hr' := ihr hr
      rw [Typing.known_append, ihl hl, hr']
      rfl
  | define s name t ih =>
    cases h with
    | define ht _ =>
      -- what the value binds is spilled, and the new name is known for certain
      have hspill := Typing.known_spill ‹Typing› S.leaks.names (S.readerAt P)
      rw [ih ht] at hspill
      exact congrArg ((name, true) :: ·) hspill
  | assign s name t ih =>
    cases h with
    | assign ht _ =>
      rw [Typing.known_spill _ S.leaks.names, ih ht]
      rfl
  | run s t ih =>
    cases h with
    | run ht _ =>
      rw [Typing.known_spill _ S.leaks.names, ih ht]
      rfl
  | escape s kind t ih =>
    cases h
    -- spliced code may bind each leaked name, a persisted value binds none
    cases kind with
    | persist => rfl
    | splice | snippet => exact Typing.known_doubt S.leaks.names
  | host => cases h
  | _ =>
    cases h
    rfl

/-- The names that a typed term binds are in the scope of the checker after it. -/
theorem HasType.seen (h : HasType S P Φ t τ B) {name : String} (hname : B.Binds name) :
    name ∈ t.inScope.map (·.1) := by
  have hmem := Typing.mem_known_of_binds hname
  rw [h.known_eq] at hmem
  exact List.mem_map_of_mem (Term.mem_inScope_of_effect hmem)

/-! ## Larger places and moved references -/

/-- Code at the first place can be moved to the second one: no quote there knows less, and the checker
finds each name where it found it before or outside all quotes of the code, unless the code does not use
the name. -/
structure Place.Sub (S : Ledger) (P P' : Place) : Prop where
  away : P.home = false
  away' : P'.home = false
  here : Typing.Sub P.here P'.here
  outer : List.Forall₂ Typing.Sub P.outer P'.outer
  sight : S.leaks.reader = .checker → ∀ name,
    (∀ seen, Scope.newest? name P'.sight = some seen →
      seen.level = 0 ∨ Scope.newest? name P.sight = some seen) ∨
    (¬ S.loose name ∧ ∀ Δ ∈ P.here :: P.outer, ¬ Δ.Binds name)

namespace Place.Sub

theorem level_eq (h : P.Sub S P') : P.level = P'.level := h.outer.length_eq

/-- Neither place is at home, so that both have the same reader. -/
theorem readerAt_eq (h : P.Sub S P') : S.readerAt P = S.readerAt P' := by
  rw [readerAt_of_away h.away, readerAt_of_away h.away']

theorem refl (hP : P.home = false) : P.Sub S P where
  away := hP
  away' := hP
  here := .refl _
  outer := List.forall₂_same.2 fun Δ _ => .refl Δ
  sight := fun _ _ => .inl fun _ hseen => .inr hseen

/-- The same bindings at both places keep them in relation, if the checker sees what they bind. -/
theorem bind (h : P.Sub S P') {seen : Known} (hseen : ∀ name, B.Binds name → name ∈ seen.map (·.1)) :
    (P.bind seen B).Sub S (P'.bind seen B) where
  away := h.away
  away' := h.away'
  here := h.here.append B
  outer := h.outer
  sight hreader name := by
    simp only [Place.bind, ← h.level_eq, Scope.newest?_append]
    cases hnew : Scope.newest? name (seen.seenAt P.level) with
    | some found => exact .inl fun _ hfound => .inr (by simpa using hfound)
    | none =>
      -- the name is not new for the checker, so that the bindings do not have it
      have hnotin : ¬ B.Binds name := by
        intro hbinds
        rcases List.mem_map.1 (hseen name hbinds) with ⟨b, hb, rfl⟩
        exact Scope.newest?_ne_none (List.mem_map_of_mem (f := fun b => (b.1, (⟨P.level, b.2⟩ : Seen))) hb) hnew
      rcases h.sight hreader name with hshown | ⟨hloose, hunused⟩
      · exact .inl (by simpa using hshown)
      · refine .inr ⟨hloose, ?_⟩
        rw [List.forall_mem_cons] at hunused ⊢
        refine ⟨?_, hunused.2⟩
        rintro ⟨τ, hmem⟩
        rcases List.mem_append.1 hmem with hmem | hmem
        · exact hnotin ⟨τ, hmem⟩
        · exact hunused.1 ⟨τ, hmem⟩

theorem called (h : P.Sub S P') (bound : List (String × Ty)) :
    (P.called bound).Sub S (P'.called bound) :=
  h.bind fun _ hname => List.mem_map_of_mem (Typing.mem_known_of_binds hname)

/-- Places in this relation are so under one more quote. -/
theorem quoted (h : P.Sub S P') : P.quoted.Sub S P'.quoted where
  away := h.away
  away' := h.away'
  here := .nil _
  outer := .cons h.here h.outer
  sight hreader name := by
    refine (h.sight hreader name).imp_right fun ⟨hloose, hunused⟩ => ⟨hloose, ?_⟩
    refine List.forall_mem_cons.2 ⟨?_, hunused⟩
    rintro ⟨τ, hmem⟩
    cases hmem

/-- Places in this relation are so in an escape. -/
theorem back {Δ Δ' : Typing} {outer outer' : List Typing} (h : P.Sub S P') (houter : P.outer = Δ :: outer)
    (houter' : P'.outer = Δ' :: outer') : (P.back Δ outer).Sub S (P'.back Δ' outer') := by
  have hboth := h.outer
  rw [houter, houter'] at hboth
  cases hboth with
  | cons hhere hrest =>
    refine ⟨h.away, h.away', hhere, hrest, fun hreader name => ?_⟩
    refine (h.sight hreader name).imp_right fun ⟨hloose, hunused⟩ => ⟨hloose, ?_⟩
    rw [houter] at hunused
    exact (List.forall_mem_cons.1 hunused).2

/-- Code can be moved behind more bindings. -/
theorem of_widens {B' : Typing} {seen seen' : Known} (hP : P.home = false) (hB : Widens B B')
    (hseen : Known.Grows P.level seen seen') : (P.bind seen B).Sub S (P.bind seen' B') where
  away := hP
  away' := hP
  here := hB.sub P.here
  outer := List.forall₂_same.2 fun Δ _ => .refl Δ
  sight _ name := by
    left
    intro found hfound
    by_cases hlevel : P.level = 0
    · simp only [Place.bind, Scope.newest?_append, hlevel] at hfound ⊢
      -- what is new stands at level 0, and what is not new was not new before
      cases hnew : Scope.newest? name (seen'.seenAt 0) with
      | some found' =>
        rw [hnew] at hfound
        cases hfound
        rcases List.mem_map.1 (Scope.mem_of_newest? hnew) with ⟨b, -, heq⟩
        cases heq
        exact .inl rfl
      | none =>
        have hold : Scope.newest? name (seen.seenAt 0) = none := by
          cases hsome : Scope.newest? name (seen.seenAt 0) with
          | none => rfl
          | some found' =>
            rcases List.mem_map.1 (Scope.mem_of_newest? hsome) with ⟨b, hb, heq⟩
            cases heq
            rcases List.mem_map.1 (hseen.names (List.mem_map_of_mem hb)) with ⟨b', hb', hname⟩
            rw [← hname] at hnew
            exact absurd hnew (Scope.newest?_ne_none (List.mem_map_of_mem hb'))
        rw [hnew] at hfound
        rw [hold]
        exact .inr hfound
    · rw [hseen.same hlevel] at hfound
      exact .inr hfound

/-- Code on its own can be moved to any place outside quotes where the checker finds no loose name
further in. -/
theorem of_alone (hP : P.home = false) (houter : P.outer = [])
    (hsees : ∀ name, S.loose name → S.Sees P name) : Place.alone.Sub S P where
  away := rfl
  away' := hP
  here := .nil _
  outer := by
    rw [houter]
    exact .nil
  sight hreader name := by
    by_cases hloose : S.loose name
    · left
      intro seen hseen
      have hlevel := hsees name hloose ((readerAt_of_away hP).trans hreader) seen hseen
      rw [level, houter] at hlevel
      exact .inl (Nat.le_zero.1 hlevel)
    · refine .inr ⟨hloose, List.forall_mem_singleton.2 ?_⟩
      rintro ⟨τ, hmem⟩
      cases hmem

end Place.Sub

/-- A used name is found further in at the larger place only if it was so before. -/
theorem Ledger.Sees.mono {name : String} (h : S.Sees P name) (hP : P.Sub S P')
    (hused : S.loose name ∨ P.here.Binds name) : S.Sees P' name := by
  intro hreader seen hseen
  rw [Place.readerAt_of_away hP.away'] at hreader
  rw [← hP.level_eq]
  rcases hP.sight hreader name with hshown | ⟨hloose, hunused⟩
  · rcases hshown seen hseen with hzero | hsame
    · exact hzero ▸ Nat.zero_le _
    · exact h ((Place.readerAt_of_away hP.away).trans hreader) seen hsame
  · exact absurd hused (not_or.2 ⟨hloose, hunused _ List.mem_cons_self⟩)

/-- A name can be written at a larger place, at the same type. -/
theorem Ledger.Writes.mono {name : String} (h : S.Writes P name τ) (hP : P.Sub S P') :
    S.Writes P' name τ := by
  cases h with
  | known hknows hsees => exact .known (hP.here.knows hknows) (hsees.mono hP (.inr hknows.binds))
  | loose _ hloose htype htarget hbound hsees =>
    exact .loose (Place.atHome_of_away hP.away') hloose htype htarget (hbound.imp_left hP.here.binds)
      (hsees.mono hP (.inl hloose))

/-- A name can be read at a larger place, at the same type. -/
theorem Ledger.Reads.mono {name : String} (h : S.Reads P name τ) (hP : P.Sub S P') :
    S.Reads P' name τ := by
  cases h with
  | known hknows hsees => exact .known (hP.here.knows hknows) (hsees.mono hP (.inr hknows.binds))
  | intrinsic hhome _ _ =>
    rw [Place.atHome_of_away hP.away] at hhome
    cases hhome
  | loose _ hloose htype hbound hsees =>
    exact .loose (Place.atHome_of_away hP.away') hloose htype (hbound.imp_left hP.here.binds)
      (hsees.mono hP (.inl hloose))

/-- Moving held references changes nothing in what a term binds. -/
theorem Term.effect_shiftHeld (t : Term) (offset : Nat) (k : Leaks) :
    (t.shiftHeld offset).effect k = t.effect k := by
  induction t with
  | seq s l r ihl ihr => exact congrArg₂ (· ++ ·) ihr ihl
  | define s name t ih => exact congrArg (fun known => (name, true) :: k.spill known) ih
  | assign s name t ih | run s t ih => exact congrArg k.spill ih
  | escape s kind t ih => cases kind <;> rfl
  | _ => rfl

theorem Term.inScope_shiftHeld (t : Term) (offset : Nat) : (t.shiftHeld offset).inScope = t.inScope :=
  t.effect_shiftHeld offset .asWritten

/-- Arguments keep their types at a larger place. -/
theorem HasTypes.transport {ts : List Term} {types : List Ty} {offset : Nat}
    (h : HasTypes S P Φ ts types)
    (ih : ∀ t ∈ ts, ∀ {τ B}, HasType S P Φ t τ B → HasType S P' Φ' (t.shiftHeld offset) τ B) :
    HasTypes S P' Φ' (ts.map (Term.shiftHeld offset)) types := by
  induction ts generalizing types with
  | nil =>
    cases h
    exact .nil
  | cons t rest ihrest =>
    cases h with
    | cons ht hrest =>
      exact .cons (ih t (by simp) ht) (ihrest hrest fun t ht => ih t (by simp [ht]))

/-- A term keeps its type at a larger place, and with its held references moved to where their types are. -/
theorem HasType.transport {offset : Nat} (h : HasType S P Φ t τ B) (hP : P.Sub S P')
    (hΦ : ∀ i τ, Φ[i]? = some τ → Φ'[i + offset]? = some τ) :
    HasType S P' Φ' (t.shiftHeld offset) τ B := by
  -- the places of the parts are in the same relation, so each rule applies again
  induction t generalizing P P' τ B with
  | literal s value =>
    cases h
    exact .literal
  | lookup s name =>
    cases h with
    | lookup hreads => exact .lookup (hreads.mono hP)
  | held s index =>
    cases h with
    | held houter hindex =>
      -- held references stand outside all quotes, before and after
      have hsame := hP.outer
      rw [houter, List.forall₂_nil_left_iff] at hsame
      exact .held hsame (hΦ _ _ hindex)
  | host => cases h
  | seq s l r ihl ihr =>
    cases h with
    | seq hl hr =>
      have hl' := ihl hl hP
      -- the names that the first part binds are in scope at both places
      have hr' := ihr hr (hP.bind fun _ => hl.seen)
      rw [← l.inScope_shiftHeld offset] at hr'
      exact .seq hl' hr'
  | binary s op l r ihl ihr =>
    cases h with
    | binary hl hr hrule =>
      have hl' := ihl hl hP
      have hr' := ihr hr (hP.bind fun _ => hl.seen)
      rw [← l.inScope_shiftHeld offset] at hr'
      exact .binary hl' hr' hrule
  | define s name t ih =>
    cases h with
    | define ht hloose =>
      rw [hP.readerAt_eq]
      -- code is at home at neither place, so that a loose name has its one type
      have hloose' := hloose (Place.atHome_of_away hP.away)
      exact .define (ih ht hP) fun _ => hloose'
  | assign s name t ih =>
    cases h with
    | assign ht hwrites =>
      rw [hP.readerAt_eq]
      exact .assign (ih ht hP) (hwrites.mono hP)
  | unary s op t ih =>
    cases h with
    | unary ht hrule => exact .unary (ih ht hP) hrule
  | quote s label snippet t ih =>
    cases h with
    -- a quote starts with no names, whatever is known around it
    | quote ht hstage hleaky => exact .quote (ih ht hP.quoted) hstage hleaky
  | escape s kind t ih =>
    cases h with
    | escape houter ht hrule hsees =>
      -- the quote that is left has its counterpart at the larger place
      have hboth := hP.outer
      rw [houter] at hboth
      rcases List.forall₂_cons_left_iff.1 hboth with ⟨Δ', outer', -, -, houter'⟩
      refine .escape houter' (ih ht (hP.back houter houter')) hrule ?_
      intro hkind name hloose
      exact (hsees hkind name hloose).mono hP (.inl hloose)
  | run s t ih =>
    cases h with
    | run ht hrule =>
      rw [hP.readerAt_eq]
      exact .run (ih ht hP) hrule
  | lambda s params t ih =>
    cases h with
    | lambda hparams hobeys ht =>
      have hobeys' := hobeys (Place.atHome_of_away hP.away)
      exact .lambda hparams (fun _ => hobeys') (ih ht (hP.called _))
  | call s f args ihf iha =>
    cases h with
    | call hf ha hrule =>
      -- the callee and all arguments are typed at the place of the call
      have hargs := ha.transport fun t ht _ _ h => iha t ht h hP
      have hcall := HasType.call (s := s) (ihf hf hP) hargs hrule
      rwa [Term.shiftHeld_eq (by simp [Term.tag])]

theorem HasType.weaken (h : HasType S P Φ t τ B) (hP : P.Sub S P') : HasType S P' Φ t τ B := by
  have hget : ∀ i τ, Φ[i]? = some τ → Φ[i + 0]? = some τ := fun _ _ hi => hi
  simpa [Term.shiftHeld_zero] using h.transport hP hget

/-- More values may be held behind those that a term refers to. -/
theorem HasType.holdMore (h : HasType S P Φ t τ B) (hP : P.home = false) (hΦ : Φ <+: Φ') :
    HasType S P Φ' t τ B := by
  rcases hΦ with ⟨Ψ, rfl⟩
  have hget : ∀ i τ, Φ[i]? = some τ → (Φ ++ Ψ)[i + 0]? = some τ := by
    intro i τ hi
    rw [Nat.add_zero, List.getElem?_append_left (List.getElem?_eq_some_iff.1 hi).1]
    exact hi
  simpa [Term.shiftHeld_zero] using h.transport (.refl hP) hget

/-- Code on its own can be spliced, behind values held before. -/
theorem HasType.splice (h : HasType S .alone Φ t τ B) (hP : Place.alone.Sub S P) (Ψ : List Ty) :
    HasType S P (Ψ ++ Φ) (t.shiftHeld Ψ.length) τ B := by
  refine h.transport hP fun i τ hi => ?_
  rw [List.getElem?_append_right (Nat.le_add_left _ _), Nat.add_sub_cancel]
  exact hi

/-! ## Rebuilding a node -/

/-- A rebuilt term takes the place of one of type `τ` that leaves the bindings `B` and adds `seen` to the
scope of the checker: it may bind what code may bind. -/
def Takes (S : Ledger) (P : Place) (Φ : List Ty) (t : Term) (τ : Ty) (seen : Known) (B : Typing) : Prop :=
  ∃ B', Widens B B' ∧ Known.Grows P.level seen t.inScope ∧ HasType S P Φ t τ B'

/-- What is bound in a node before one of its parts, for the checker and for typing; the type of the part,
what it adds to the scope of the checker, and what it leaves bound. -/
structure Part where
  seen : Known
  bound : Typing
  type : Ty
  adds : Known
  left : Typing

/-- A term is a part of a node, as typed. -/
def Part.Has (S : Ledger) (P : Place) (Φ : List Ty) (t : Term) (p : Part) : Prop :=
  t.inScope = p.adds ∧ HasType S (P.bind p.seen p.bound) Φ t p.type p.left

/-- A term takes the place of a part of a node. -/
def Part.Takes (S : Ledger) (P : Place) (Φ : List Ty) (t : Term) (p : Part) : Prop :=
  Multistage.Takes S (P.bind p.seen p.bound) Φ t p.type p.adds p.left

/-- Typed arguments are parts at the place of the call. -/
theorem HasTypes.parts {ts : List Term} {types : List Ty} (h : HasTypes S P Φ ts types) :
    ∃ parts, List.Forall₂ (Part.Has S P Φ) ts parts ∧ (∀ p ∈ parts, p.seen = [] ∧ p.bound = []) ∧
      parts.map (·.type) = types := by
  induction ts generalizing types with
  | nil =>
    cases h
    exact ⟨[], .nil, by simp, rfl⟩
  | cons t rest ih =>
    cases h with
    | @cons _ _ _ _ τ _ B ht hrest =>
      rcases ih hrest with ⟨parts, hparts, hplaces, htypes⟩
      refine ⟨⟨[], [], τ, t.inScope, B⟩ :: parts, .cons ⟨rfl, ht⟩ hparts, ?_, by simp [htypes]⟩
      exact List.forall_mem_cons.2 ⟨⟨rfl, rfl⟩, hplaces⟩

/-- What takes the places of arguments is typed as they were. -/
theorem HasTypes.of_takes {ts : List Term} {parts : List Part}
    (h : List.Forall₂ (Part.Takes S P Φ) ts parts) (hplaces : ∀ p ∈ parts, p.seen = [] ∧ p.bound = []) :
    HasTypes S P Φ ts (parts.map (·.type)) := by
  induction h with
  | nil => exact .nil
  | cons hhead _ ih =>
    rcases List.forall_mem_cons.1 hplaces with ⟨⟨hseen, hbound⟩, hrest⟩
    rcases hhead with ⟨B, -, -, ht⟩
    rw [hseen, hbound] at ht
    exact .cons ht (ih hrest)

/-- What takes the place of one part. -/
theorem Part.takes_one {ts : List Term} {p : Part} (h : List.Forall₂ (Part.Takes S P Φ) ts [p]) :
    ∃ t B, ts = [t] ∧ Widens p.left B ∧ Known.Grows P.level p.adds t.inScope ∧
      HasType S (P.bind p.seen p.bound) Φ t p.type B := by
  rcases List.forall₂_cons_right_iff.1 h with ⟨t, rest, ⟨B, hB, hseen, ht⟩, hrest, rfl⟩
  cases hrest
  exact ⟨t, B, rfl, hB, hseen, ht⟩

/-- What takes the places of two parts. -/
theorem Part.takes_two {ts : List Term} {p q : Part} (h : List.Forall₂ (Part.Takes S P Φ) ts [p, q]) :
    ∃ l r B C, ts = [l, r] ∧ Widens p.left B ∧ Known.Grows P.level p.adds l.inScope ∧
      HasType S (P.bind p.seen p.bound) Φ l p.type B ∧ Widens q.left C ∧
      Known.Grows P.level q.adds r.inScope ∧ HasType S (P.bind q.seen q.bound) Φ r q.type C := by
  rcases List.forall₂_cons_right_iff.1 h with ⟨l, rest, ⟨B, hB, hl, hl'⟩, hrest, rfl⟩
  rcases takes_one hrest with ⟨r, C, rfl, hC, hr, hr'⟩
  exact ⟨l, r, B, C, rfl, hB, hl, hl', hC, hr, hr'⟩

section Parts

variable {home : Bool} {Δ : Typing} {sight : Sight}

/-- What can be written in a quote can be written in the code on its own. -/
theorem Ledger.Writes.of_under {name : String} (h : S.Writes (P.under home Δ sight) name τ)
    (hP : P.home = false) : S.Writes P name τ := by
  cases h with
  | known hknows hsees => exact .known hknows (hsees.of_under hP)
  | loose _ hloose htype htarget hbound hsees =>
    exact .loose (Place.atHome_of_away hP) hloose htype htarget hbound (hsees.of_under hP)

/-- What can be read in a quote can be read in the code on its own. -/
theorem Ledger.Reads.of_under {name : String} (h : S.Reads (P.under home Δ sight) name τ)
    (hP : P.home = false) : S.Reads P name τ := by
  cases h with
  | known hknows hsees => exact .known hknows (hsees.of_under hP)
  | intrinsic hhome _ _ =>
    rw [Place.atHome_under] at hhome
    cases hhome
  | loose _ hloose htype hbound hsees =>
    exact .loose (Place.atHome_of_away hP) hloose htype hbound (hsees.of_under hP)

/-- A typed node of code that is no quote and no escape has typed parts, and over terms that take their
places it has its type again, in code on its own. -/
theorem HasType.parts (h : HasType S (P.under home Δ sight) Φ t τ B) (hP : P.home = false)
    (hquote : t.tag ≠ .quote) (hescape : t.tag ≠ .escape) (hheld : t.tag ≠ .held) :
    ∃ parts, List.Forall₂ (Part.Has S (P.under home Δ sight) Φ) t.children parts ∧
      ∀ Φ' ts, List.Forall₂ (Part.Takes S P Φ') ts parts →
        Takes S P Φ' (t.withChildren ts) τ t.inScope B := by
  have hreader : S.readerAt (P.under home Δ sight) = S.readerAt P := by
    rw [Place.readerAt_under, Place.readerAt_of_away hP]
  -- for each rule: where its parts stand, and the same rule over what takes their places
  cases h with
  | literal =>
    refine ⟨[], .nil, fun Φ' ts hts => ?_⟩
    cases hts
    exact ⟨[], .refl _, .refl _ _, .literal⟩
  | lookup hreads =>
    refine ⟨[], .nil, fun Φ' ts hts => ?_⟩
    cases hts
    exact ⟨[], .refl _, .refl _ _, .lookup (hreads.of_under hP)⟩
  | @seq _ _ _ l r α β B C hl hr =>
    refine ⟨[⟨[], [], α, l.inScope, B⟩, ⟨l.inScope, B, τ, r.inScope, C⟩],
      .cons ⟨rfl, hl⟩ (.cons ⟨rfl, hr⟩ .nil), fun Φ' ts hts => ?_⟩
    rcases Part.takes_two hts with ⟨l', r', B', C', rfl, hB, hseen, hl', hC, hseen', hr'⟩
    -- the right part is typed after what the new left part binds
    have hr'' := hr'.weaken (.of_widens hP hB hseen)
    exact ⟨C' ++ B', hB.append hC, hseen.append hseen', .seq hl' hr''⟩
  | @binary _ _ _ op l r α β _ B C hl hr hrule =>
    refine ⟨[⟨[], [], α, l.inScope, B⟩, ⟨l.inScope, B, β, r.inScope, C⟩],
      .cons ⟨rfl, hl⟩ (.cons ⟨rfl, hr⟩ .nil), fun Φ' ts hts => ?_⟩
    rcases Part.takes_two hts with ⟨l', r', B', C', rfl, hB, hseen, hl', hC, hseen', hr'⟩
    have hr'' := hr'.weaken (.of_widens hP hB hseen)
    -- an operation hands on none of the bindings
    exact ⟨[], .refl _, .refl _ _, .binary hl' hr'' hrule⟩
  | @define _ _ _ name t _ B ht hloose =>
    -- what the value leaves bound reaches beyond the definition only for the checker
    refine ⟨[⟨[], [], τ, t.inScope, B⟩], .cons ⟨rfl, ht⟩ .nil, fun Φ' ts hts => ?_⟩
    rcases Part.takes_one hts with ⟨t', B', rfl, hB, hseen, ht'⟩
    have hloose' := hloose Place.atHome_under
    rw [hreader]
    exact ⟨_, (hB.spill _).bind name τ, hseen.spill.append (.refl _ [(name, true)]),
      .define ht' fun _ => hloose'⟩
  | @assign _ _ _ name t _ B ht hwrites =>
    refine ⟨[⟨[], [], τ, t.inScope, B⟩], .cons ⟨rfl, ht⟩ .nil, fun Φ' ts hts => ?_⟩
    rcases Part.takes_one hts with ⟨t', B', rfl, hB, hseen, ht'⟩
    rw [hreader]
    exact ⟨_, hB.spill _, hseen.spill, .assign ht' (hwrites.of_under hP)⟩
  | @unary _ _ _ op t α _ B ht hrule =>
    refine ⟨[⟨[], [], α, t.inScope, B⟩], .cons ⟨rfl, ht⟩ .nil, fun Φ' ts hts => ?_⟩
    rcases Part.takes_one hts with ⟨t', B', rfl, -, -, ht'⟩
    exact ⟨[], .refl _, .refl _ _, .unary ht' hrule⟩
  | quote => exact absurd rfl hquote
  | escape => exact absurd rfl hescape
  | @run _ _ _ t α _ B ht hrule =>
    refine ⟨[⟨[], [], α, t.inScope, B⟩], .cons ⟨rfl, ht⟩ .nil, fun Φ' ts hts => ?_⟩
    rcases Part.takes_one hts with ⟨t', B', rfl, hB, hseen, ht'⟩
    rw [hreader]
    exact ⟨_, hB.spill _, hseen.spill, .run ht' hrule⟩
  | @lambda _ _ _ params t bound α B hparams hobeys ht =>
    refine ⟨[⟨(Typing.params bound).known, .params bound, α, t.inScope, B⟩], .cons ⟨rfl, ht⟩ .nil,
      fun Φ' ts hts => ?_⟩
    rcases Part.takes_one hts with ⟨t', B', rfl, -, -, ht'⟩
    have hobeys' := hobeys Place.atHome_under
    exact ⟨[], .refl _, .refl _ _, .lambda hparams (fun _ => hobeys') ht'⟩
  | @call _ _ _ f args α _ B types hf ha hrule =>
    -- the arguments are parts at the place of the call, as many as there are types
    rcases ha.parts with ⟨parts, hparts, hplaces, rfl⟩
    refine ⟨⟨[], [], α, f.inScope, B⟩ :: parts, .cons ⟨rfl, hf⟩ hparts, fun Φ' ts hts => ?_⟩
    rcases List.forall₂_cons_right_iff.1 hts with ⟨f', args', ⟨B', -, -, hf'⟩, hargs, rfl⟩
    exact ⟨[], .refl _, .refl _ _, .call hf' (.of_takes hargs hplaces) hrule⟩
  | held => exact absurd rfl hheld

end Parts

end Multistage
