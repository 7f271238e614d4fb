import Multistage.Proofs.ExplicitReferences
import Multistage.Proofs.TypedEvaluation

/-!
# Checked programs are typed

The checker has one scope for names of all levels, and keeps some bindings longer than evaluation does.
`Agrees` relates its context to the place where a term of the program is typed: a name that a quote knows
has the same type in both, a loose name has one type anyway, and outside all quotes the two know the same
names. This is said of a name only as long as evaluation has the binding that the checker has.

Main statement: `checks`, by induction over the term, takes a judged program with explicit references to
a typing of it.
-/

namespace Multistage

open Term

/-! ## The scope of the checker at a place -/

/-- The checker is at a place: it has the names in scope that are seen there, at their levels, and among
them those that the quotes around the place bind. -/
structure Situated (c : Context) (P : Place) : Prop where
  height : P.level = c.level
  sight : ∀ name, (Scope.newest? name P.sight).map (·.level) = (c.scope.lookup? name).map (·.level)
  covered : ∀ Δ ∈ P.here :: P.outer, ∀ name, Δ.Binds name → c.scope.lookup? name ≠ none
  proper : ∀ name b, c.scope.lookup? name = some b → (b.own c.level).Proper

namespace Situated

variable {c : Context} {P : Place} {Δ B : Typing} {outer : List Typing} {name : String} {seen : Known}
  {scope : Scope Binding} {bound : List (String × Ty)}

/-- At the start neither the checker nor the place knows a name. -/
theorem start (home : Bool) : Situated {} ⟨home, [], [], []⟩ where
  height := rfl
  sight _ := rfl
  covered := by
    refine List.forall_mem_singleton.2 ?_
    rintro name ⟨τ, hmem⟩
    cases hmem
  proper := by
    intro name b hb
    cases hb

/-- Names are bound for the checker where they are seen. -/
theorem seen_of_lookup? (h : Situated c P) {b : Binding} (hb : c.scope.lookup? name = some b) :
    ∃ seen, Scope.newest? name P.sight = some seen ∧ seen.level = b.level := by
  have hsight := h.sight name
  rw [hb] at hsight
  exact Option.map_eq_some_iff.1 hsight

theorem lookup?_eq_none_iff (h : Situated c P) :
    c.scope.lookup? name = none ↔ Scope.newest? name P.sight = none := by
  have hsight := h.sight name
  rw [← Option.map_eq_none_iff (f := fun b : Binding => b.level), ← hsight, Option.map_eq_none_iff]

/-- Under a quote the checker and the place know the same names, one level further up. -/
theorem quoted (h : Situated c P) : Situated c.quoted P.quoted := by
  have hlevel : ((c.level + 1 : Nat) : Int) = c.level - -1 := by omega
  refine ⟨congrArg (· + 1) h.height, fun name => ?_, ?_, fun name b hb => ?_⟩
  · rw [Place.quoted, h.sight name, Context.quoted, Scope.lookup?_shift, Option.map_map]
    rfl
  · refine List.forall_mem_cons.2 ⟨?_, fun Δ hΔ name hname => ?_⟩
    · rintro name ⟨τ, hmem⟩
      cases hmem
    · rw [Context.quoted, Scope.lookup?_shift, Ne, Option.map_eq_none_iff]
      exact h.covered Δ hΔ name hname
  · rcases Scope.lookup?_moved hlevel hb with ⟨b', hb', -, hown⟩
    exact hown ▸ h.proper name b' hb'

/-- Where an escape leads back to, there is one quote less. -/
theorem level_eq (h : Situated c P) (houter : P.outer = Δ :: outer) : c.level = outer.length + 1 := by
  rw [← h.height, Place.level, houter]
  rfl

/-- In an escape both are back outside the quote. -/
theorem escaped (h : Situated c P) (houter : P.outer = Δ :: outer) :
    Situated c.escaped (P.back Δ outer) := by
  have hheight := h.level_eq houter
  have hlevel : ((c.level - 1 : Nat) : Int) = c.level - 1 := by omega
  have hcovered := h.covered
  rw [houter] at hcovered
  refine ⟨?_, fun name => ?_, fun Δ' hΔ' name hname => ?_, fun name b hb => ?_⟩
  · show outer.length = c.level - 1
    omega
  · rw [Place.back, h.sight name, Context.escaped, Scope.lookup?_shift, Option.map_map]
    rfl
  · rw [Context.escaped, Scope.lookup?_shift, Ne, Option.map_eq_none_iff]
    exact hcovered Δ' (List.mem_cons_of_mem _ hΔ') name hname
  · rcases Scope.lookup?_moved hlevel hb with ⟨b', hb', -, hown⟩
    exact hown ▸ h.proper name b' hb'

/-- The checker need not be told of doubts. -/
theorem doubt (h : Situated c P) (names : List String) : Situated c (P.bind [] (.doubt names)) where
  height := h.height
  sight := h.sight
  covered := by
    rcases List.forall_mem_cons.1 h.covered with ⟨hhere, houter⟩
    exact List.forall_mem_cons.2 ⟨fun name hname => hhere name hname.of_doubt, houter⟩
  proper := h.proper

/-- After a value a name is new and evaluation forgets it, or is seen as before. -/
theorem spill_cases (P : Place) (seen : Known) (B B' : Typing) (name : String) :
    ((∃ kept, Scope.newest? name (P.bind seen B).sight = some ⟨P.level, kept⟩) ∧
      Scope.newest? name (P.bind (Leaks.asWritten.spill seen) B').sight = some ⟨P.level, false⟩) ∨
    (name ∉ seen.map (·.1) ∧ Scope.newest? name (P.bind seen B).sight = Scope.newest? name P.sight ∧
      Scope.newest? name (P.bind (Leaks.asWritten.spill seen) B').sight = Scope.newest? name P.sight) := by
  simp only [Place.bind]
  rw [Scope.newest?_append, Scope.newest?_append, Known.newest?_seenAt, Known.newest?_seenAt,
    Leaks.newest?_spill]
  cases hnew : Scope.newest? name seen with
  | some kept => exact .inl ⟨⟨kept, rfl⟩, rfl⟩
  | none =>
    refine .inr ⟨fun hmem => ?_, rfl, rfl⟩
    rcases List.mem_map.1 hmem with ⟨b, hb, rfl⟩
    exact Scope.newest?_ne_none hb hnew

/-- What is bound before a value is bound after it. -/
theorem found_after (h : Situated c P) (h' : Situated (c.withScope scope) (P.bind seen B))
    (hname : c.scope.lookup? name ≠ none) : scope.lookup? name ≠ none := by
  intro hnone
  have hunseen := h'.lookup?_eq_none_iff.1 hnone
  rw [Place.bind, Scope.newest?_append, Option.or_eq_none_iff] at hunseen
  exact hname (h.lookup?_eq_none_iff.2 hunseen.2)

/-- After a value the checker goes on with the scope of the value; the context is the one from before. -/
theorem spill (h : Situated c P) (h' : Situated (c.withScope scope) (P.bind seen B)) (reader : Reader) :
    Situated (c.withScope scope) (P.bind (Leaks.asWritten.spill seen) (B.spill reader)) := by
  refine ⟨h.height, fun name => ?_, ?_, h'.proper⟩
  · rw [← h'.sight name]
    rcases spill_cases P seen B (B.spill reader) name with ⟨⟨kept, hnew⟩, hspilled⟩ | ⟨-, hold, hspilled⟩
    · rw [hspilled, hnew]
      rfl
    · rw [hspilled, hold]
  · rcases List.forall_mem_cons.1 h.covered with ⟨hhere, houter⟩
    refine List.forall_mem_cons.2 ⟨fun name hname => ?_, fun Δ hΔ name hname => ?_⟩
    · exact h.found_after h' (hhere name ((Typing.Sub.of_spill B reader P.here).binds hname))
    · exact h.found_after h' (houter Δ hΔ name hname)

/-- In a function a name is a parameter, bound at the level of the function, or is bound as before. -/
theorem called_cases (h : Situated c P) (bound : List (String × Ty)) (name : String) :
    (∃ τ, (name, τ) ∈ bound ∧ Scope.newest? name (P.called bound).here = some (some τ) ∧
      (c.bindAll bound).lookup? name = some ⟨τ, c.level⟩ ∧
      Scope.newest? name (P.called bound).sight = some ⟨c.level, true⟩) ∨
    ((∀ τ, (name, some τ) ∉ Typing.params bound) ∧
      Scope.newest? name (P.called bound).here = Scope.newest? name P.here ∧
      (c.bindAll bound).lookup? name = c.scope.lookup? name ∧
      Scope.newest? name (P.called bound).sight = Scope.newest? name P.sight) := by
  have hknown : Scope.newest? name (Typing.params bound).known =
      (Scope.newest? name bound.reverse).map fun _ => true := by
    rw [Typing.known, Scope.newest?_map Option.isSome, Typing.newest?_params, Option.map_map]
    rfl
  simp only [Place.called, Place.bind]
  rw [c.lookup?_bindAll, Scope.newest?_append, Scope.newest?_append, Known.newest?_seenAt, hknown,
    Typing.newest?_params, h.height]
  cases hnew : Scope.newest? name bound.reverse with
  | some τ => exact .inl ⟨τ, List.mem_reverse.1 (Scope.mem_of_newest? hnew), rfl, rfl, rfl⟩
  | none =>
    refine .inr ⟨fun τ hmem => ?_, rfl, rfl, rfl⟩
    have hnone := Typing.newest?_params bound name
    rw [hnew] at hnone
    exact Scope.newest?_ne_none hmem hnone

/-- Parameters are bound for the checker and at the place alike. -/
theorem bindAll (h : Situated c P) (hproper : ∀ b ∈ bound, b.2.Proper) :
    Situated (c.withScope (c.bindAll bound)) (P.called bound) := by
  rcases List.forall_mem_cons.1 h.covered with ⟨hhere, houter⟩
  refine ⟨h.height, fun name => ?_, List.forall_mem_cons.2 ⟨fun name hname => ?_, fun Δ hΔ name hname => ?_⟩,
    fun name b hb => ?_⟩
  · show _ = ((c.bindAll bound).lookup? name).map _
    rcases h.called_cases bound name with ⟨τ, -, -, hnew, hseen⟩ | ⟨-, -, hsame, hseen⟩
    · rw [hnew, hseen]
      rfl
    · rw [hsame, hseen]
      exact h.sight name
  · show (c.bindAll bound).lookup? name ≠ none
    rcases h.called_cases bound name with ⟨τ, -, -, hnew, -⟩ | ⟨hnotin, -, hsame, -⟩
    · rw [hnew]
      exact Option.some_ne_none _
    · rcases hname with ⟨τ, hmem⟩
      rw [hsame]
      exact hhere name ⟨τ, (List.mem_append.1 hmem).resolve_left (hnotin τ)⟩
  · show (c.bindAll bound).lookup? name ≠ none
    rcases h.called_cases bound name with ⟨τ, -, -, hnew, -⟩ | ⟨-, -, hsame, -⟩
    · rw [hnew]
      exact Option.some_ne_none _
    · rw [hsame]
      exact houter Δ hΔ name hname
  · have hb' : (c.bindAll bound).lookup? name = some b := hb
    rcases h.called_cases bound name with ⟨τ, hmem, -, hnew, -⟩ | ⟨-, -, hsame, -⟩
    · rw [hnew] at hb'
      cases hb'
      exact (Binding.own_self τ c.level).symm ▸ hproper _ hmem
    · exact h.proper name b (hsame.symm.trans hb')

end Situated

/-! ## Places of a program -/

/-- The scope of the checker agrees with a place of the program, where `kept` bindings are concerned. -/
structure Agrees (S : Ledger) (c : Context) (P : Place) : Prop extends Situated c P where
  home : P.home = true
  /-- loose names have their type inside quotes -/
  loose : ∀ name b, c.scope.lookup? name = some b → b.level ≠ 0 → S.loose name →
    b.own c.level = S.type name
  /-- the quote that binds a name knows no other type of it, and outside quotes the name is known -/
  known : ∀ name b seen, c.scope.lookup? name = some b → Scope.newest? name P.sight = some seen →
    seen.kept = true → ∀ (k : Nat) Δ, (P.here :: P.outer)[k]? = some Δ → b.level + k = c.level →
    (∀ τ, Δ.Knows name τ → τ = b.own c.level) ∧ (b.level = 0 → Δ.Knows name (b.own c.level))
  /-- outside quotes no other names are known -/
  base : ∀ Δ, (P.here :: P.outer)[c.level]? = some Δ → ∀ name, c.scope.lookup? name = none →
    Scope.newest? name Δ = none

/-- The place where a program starts. -/
def Place.start : Place := ⟨true, [], [], []⟩

namespace Agrees

variable {S : Ledger} {c : Context} {P : Place} {Δ : Typing} {outer : List Typing}

/-- The start of a program agrees with every ledger. -/
theorem start : Agrees S {} .start where
  toSituated := .start true
  home := rfl
  loose := by
    intro name b hb
    cases hb
  known := by
    intro name b seen hb
    cases hb
  base := by
    intro Δ hΔ name _
    cases hΔ
    rfl

/-- A place outside quotes is at home. -/
theorem atHome_iff (h : Agrees S c P) : P.atHome = true ↔ c.level = 0 := by
  rw [← h.height, Place.atHome, h.home, Bool.true_and, Place.level, List.isEmpty_iff, List.length_eq_zero_iff]

theorem atHome_eq_false_iff (h : Agrees S c P) : P.atHome = false ↔ c.level ≠ 0 := by
  rw [← Bool.not_eq_true, h.atHome_iff]

/-- Inside a quote no name is known yet. -/
theorem quoted (h : Agrees S c P) : Agrees S c.quoted P.quoted := by
  have hlevel : ((c.level + 1 : Nat) : Int) = c.level - -1 := by omega
  refine ⟨h.toSituated.quoted, h.home, ?_, ?_, ?_⟩
  · intro name b hb hne hloose
    rcases Scope.lookup?_moved hlevel hb with ⟨b', hb', hlevels, hown⟩
    exact hown.trans (h.loose name b' hb' (hlevels ▸ hne) hloose)
  · intro name b seen hb hseen hkept k Δ hΔ hk
    rcases Scope.lookup?_moved hlevel hb with ⟨b', hb', hlevels, hown⟩
    -- the innermost context is empty, and the others are one further out than before
    cases k with
    | zero =>
      cases hΔ
      refine ⟨?_, fun hzero => ?_⟩
      · intro τ hname
        cases hname
      · have : b.level + 0 = c.level + 1 := hk
        omega
    | succ k =>
      have hk' : b'.level + k = c.level := by
        have : b.level + (k + 1) = c.level + 1 := hk
        omega
      rw [hlevels, show b.own c.quoted.level = b'.own c.level from hown]
      exact h.known name b' seen hb' hseen hkept k Δ hΔ hk'
  · intro Δ hΔ name hname
    rw [Context.quoted, Scope.lookup?_shift, Option.map_eq_none_iff] at hname
    exact h.base Δ hΔ name hname

/-- Inside an escape the names of the next quote further out are known again. -/
theorem escaped (h : Agrees S c P) (houter : P.outer = Δ :: outer) :
    Agrees S c.escaped (P.back Δ outer) := by
  have hheight := h.level_eq houter
  have hlevel : ((c.level - 1 : Nat) : Int) = c.level - 1 := by omega
  have hknown := h.known
  have hbase := h.base
  rw [houter] at hknown hbase
  refine ⟨h.toSituated.escaped houter, h.home, ?_, ?_, ?_⟩
  · intro name b hb hne hloose
    rcases Scope.lookup?_moved hlevel hb with ⟨b', hb', hlevels, hown⟩
    exact hown.trans (h.loose name b' hb' (hlevels ▸ hne) hloose)
  · intro name b seen hb hseen hkept k Δ' hΔ' hk
    rcases Scope.lookup?_moved hlevel hb with ⟨b', hb', hlevels, hown⟩
    have hk' : b'.level + (k + 1) = c.level := by
      have : b.level + k = c.level - 1 := hk
      omega
    rw [hlevels, show b.own c.escaped.level = b'.own c.level from hown]
    exact hknown name b' seen hb' hseen hkept (k + 1) Δ' hΔ' hk'
  · intro Δ' hΔ' name hname
    rw [Context.escaped, Scope.lookup?_shift, Option.map_eq_none_iff] at hname
    have hindex : c.escaped.level = outer.length := by
      show c.level - 1 = outer.length
      omega
    rw [hindex] at hΔ'
    refine hbase Δ' ?_ name hname
    rw [hheight]
    exact hΔ'

/-- In a quote a splice puts names in doubt. -/
theorem splice (h : Agrees S c P) (hlevel : c.level ≠ 0) (names : List String) :
    Agrees S c (P.bind [] (.doubt names)) := by
  refine ⟨h.toSituated.doubt names, h.home, h.loose, ?_, ?_⟩
  · intro name b seen hb hseen hkept k Δ hΔ hk
    have hknown := h.known name b seen hb hseen hkept
    cases k with
    | zero =>
      cases hΔ
      have hhere := hknown 0 P.here rfl hk
      refine ⟨fun τ hname => hhere.1 τ hname.of_doubt.2, fun hzero => ?_⟩
      exact absurd (hk.symm.trans hzero) hlevel
    | succ k => exact hknown (k + 1) Δ hΔ hk
  · intro Δ hΔ name hname
    refine h.base Δ ?_ name hname
    cases hc : c.level with
    | zero => exact absurd hc hlevel
    | succ level =>
      rw [hc] at hΔ
      exact hΔ

/-- After a value the checker goes on with a scope in which evaluation has forgotten the new names; the
context is the one from before the value. -/
theorem spill {scope : Scope Binding} {seen : Known} {B : Typing} (h : Agrees S c P)
    (h' : Agrees S (c.withScope scope) (P.bind seen B))
    (hframe : ∀ name, name ∉ seen.map (·.1) → scope.lookup? name = c.scope.lookup? name) :
    Agrees S (c.withScope scope) (P.bind (Leaks.asWritten.spill seen) (B.spill (S.readerAt P))) := by
  -- at home nothing is in doubt
  have hhome : c.level = 0 → B.spill (S.readerAt P) = [] := by
    intro hlevel
    rw [Ledger.readerAt, h.atHome_iff.2 hlevel]
    rfl
  refine ⟨h.toSituated.spill h'.toSituated _, h.home, h'.loose, ?_, ?_⟩
  · intro name b seen' hb hseen hkept k Δ hΔ hk
    rcases Situated.spill_cases P seen B (B.spill (S.readerAt P)) name with
      ⟨-, hspilled⟩ | ⟨hnotin, -, hspilled⟩
    · -- evaluation has not kept a new name
      rw [hspilled] at hseen
      cases hseen
      cases hkept
    · rw [hspilled] at hseen
      have hknown := h.known name b seen' ((hframe name hnotin).symm.trans hb) hseen hkept
      cases k with
      | zero =>
        cases hΔ
        have hhere := hknown 0 P.here rfl hk
        refine ⟨fun τ hname => hhere.1 τ ((Typing.Sub.of_spill B _ P.here).knows hname), fun hzero => ?_⟩
        have hlevel : c.level = 0 := hk.symm.trans hzero
        rw [Place.bind, hhome hlevel]
        exact hhere.2 hzero
      | succ k => exact hknown (k + 1) Δ hΔ hk
  · intro Δ hΔ name hname
    have hnone : c.scope.lookup? name = none := by
      by_contra hsome
      exact h.found_after h'.toSituated hsome hname
    have hbase := h.base
    cases hc : c.level with
    | zero =>
      rw [Place.bind, hhome hc] at hΔ
      exact hbase Δ hΔ name hnone
    | succ level =>
      rw [Context.withScope, hc] at hΔ
      rw [hc] at hbase
      exact hbase Δ hΔ name hnone

/-- New names are known with their types. -/
theorem bindAll (h : Agrees S c P) {bound : List (String × Ty)} (hobeys : P.atHome = false → S.Obeys bound)
    (hproper : ∀ b ∈ bound, b.2.Proper) :
    Agrees S (c.withScope (c.bindAll bound)) (P.called bound) := by
  refine ⟨h.toSituated.bindAll hproper, h.home, ?_, ?_, ?_⟩
  · intro name b (hb : (c.bindAll bound).lookup? name = some b) hne hloose
    rcases h.called_cases bound name with ⟨τ, hmem, -, hnew, -⟩ | ⟨-, -, hsame, -⟩
    · rw [hnew] at hb
      cases hb
      exact (Binding.own_self τ c.level).trans (hobeys (h.atHome_eq_false_iff.2 hne) _ hmem hloose)
    · exact h.loose name b (hsame.symm.trans hb) hne hloose
  · intro name b seen (hb : (c.bindAll bound).lookup? name = some b) hseen hkept k Δ hΔ hk
    rcases h.called_cases bound name with ⟨α, -, hnewest, hnew, -⟩ | ⟨-, hold, hsame, hseen'⟩
    · rw [hnew] at hb
      cases hb
      -- a new name is bound at the level of the context
      have hzero : k = 0 := Nat.add_left_cancel hk
      subst hzero
      cases hΔ
      rw [show (⟨α, c.level⟩ : Binding).own (c.withScope (c.bindAll bound)).level = α from Binding.own_self α c.level]
      refine ⟨fun τ hname => ?_, fun _ => hnewest⟩
      have hsome := hnewest.symm.trans hname
      cases hsome
      rfl
    · rw [hseen'] at hseen
      have hknown := h.known name b seen (hsame.symm.trans hb) hseen hkept
      cases k with
      | zero =>
        cases hΔ
        have hhere := hknown 0 P.here rfl hk
        unfold Typing.Knows at hhere ⊢
        rwa [← hold] at hhere
      | succ k => exact hknown (k + 1) Δ hΔ hk
  · intro Δ hΔ name hname
    rcases h.called_cases bound name with ⟨α, -, -, hnew, -⟩ | ⟨-, hold, hsame, -⟩
    · cases hnew.symm.trans hname
    · have hbase := h.base
      have hnone : c.scope.lookup? name = none := hsame.symm.trans hname
      cases hc : c.level with
      | zero =>
        rw [Context.withScope, hc] at hΔ
        rw [hc] at hbase
        cases hΔ
        exact hold.trans (hbase P.here rfl name hnone)
      | succ level =>
        rw [Context.withScope, hc] at hΔ
        rw [hc] at hbase
        exact hbase Δ hΔ name hnone

end Agrees

/-! ## What a ledger has to know of a program -/

/-- Evaluation has the binding that the checker has for a use, the name of an open use is loose, and stray
if it may not be bound. -/
structure Ledger.Resolves (S : Ledger) (u : Use) : Prop where
  steady : u.misled = false
  loose : u.isOpen = true → S.loose u.name
  target : u.isOpen = true → u.assigned = true → S.target u.name
  stray : u.stray = true → S.stray u.name

/-- What a node may do at a place: code leaves only leaky names bound, in quotes loose names are bound at
their types, uses of names are resolved, and code meant for the checker is spliced where no loose name is
bound further in. -/
structure Ledger.Admits (S : Ledger) (types : TypeTable) (place : Spot) (node : Term) : Prop where
  leaves : ∀ s label snippet t, node = .quote s label snippet t →
    ∀ name ∈ t.bindsFor S.leaks.reader, name ∈ S.leaks.names
  defines : ∀ s name t j, node = .define s name t → types.get? s.id = some j → place.level ≠ 0 →
    S.loose name → j.type = S.type name
  takes : ∀ s params t bound, node = .lambda s params t →
    Prelude.general.paramRule s.id params = .ok bound → place.level ≠ 0 → S.Obeys bound
  uses : ∀ name assigned, node.use? = some (name, assigned) → S.Resolves ⟨name, assigned, place⟩
  splices : ∀ s kind t, node = .escape s kind t → kind ≠ .persist → S.leaks.reader = .checker →
    ∀ name, S.loose name → place.hides name = false

/-- A place without the types of its names. -/
def Place.spot (P : Place) : Spot := ⟨P.sight, P.here.known, P.outer.map Typing.known⟩

theorem Place.level_spot (P : Place) : P.spot.level = P.level := List.length_map _

/-- The parameters of a function are known in its body. -/
theorem paramRule_known {node : NodeId} {params : List Param} {bound : List (String × Ty)}
    (h : Prelude.general.paramRule node params = .ok bound) :
    (Typing.params bound).known = (params.map fun param => (param.name, true)).reverse := by
  have hnames := congrArg (List.map (·, true)) (Eval.paramRule_names h)
  rw [List.map_map, List.map_map] at hnames
  rw [Typing.params, Typing.known, List.map_reverse, List.map_map]
  exact congrArg List.reverse hnames

theorem Place.spot_called {node : NodeId} {params : List Param} {bound : List (String × Ty)} (P : Place)
    (h : Prelude.general.paramRule node params = .ok bound) :
    P.spot.called params = (P.called bound).spot := by
  rw [Spot.called, ← paramRule_known h, Spot.bind, level_spot]
  simp only [spot, called, bind, Typing.known_append]

variable {S : Ledger} {types : TypeTable} {c : Context} {t t' : Term} {j : Judgement} {log : Log}
  {u u' : Supply} {P : Place} {Δ B : Typing} {rest : List Typing} {Φ : List Ty} {τ : Ty}

/-- In the program, what is known after a typed term is what its typing knows. -/
theorem HasType.spot_after (h : HasType S P Φ t τ B) (hP : P.home = true) :
    P.spot.after S.leaks t = (P.bind t.inScope B).spot := by
  have hleaks : S.leaks.atLevel P.level = ⟨S.leaks.names, S.readerAt P⟩ := by
    rw [Leaks.atLevel, Ledger.readerAt, Place.atHome, hP, Bool.true_and, Place.level]
    cases P.outer <;> rfl
  rw [Spot.after, Spot.bind, Place.level_spot, hleaks, ← h.known_eq]
  simp only [Place.spot, Place.bind, Typing.known_append]

section Resolves

variable {name : String} {assigned : Bool}

/-- Evaluation has the binding that the checker has. -/
theorem Ledger.Resolves.kept (h : S.Resolves ⟨name, assigned, P.spot⟩) {seen : Seen}
    (hseen : Scope.newest? name P.sight = some seen) : seen.kept = true := by
  have hsteady := h.steady
  rw [Use.misled, show Scope.newest? name P.spot.sight = _ from hseen] at hsteady
  simpa using hsteady

/-- In a quote, a use of a name is known, or its name is loose. -/
theorem Ledger.Resolves.cases (h : S.Resolves ⟨name, assigned, P.spot⟩) (hlevel : P.level ≠ 0) :
    (∃ τ, P.here.Knows name τ) ∨
      S.loose name ∧ (assigned = true → S.target name) ∧
        (P.here.Binds name ∨ S.stray name ∨
          assigned = false ∧ (HostFunction.intrinsic? name).isSome = true) := by
  by_cases hknown : Scope.newest? name P.here.known = some true
  · have hmap := Scope.newest?_map Option.isSome name P.here
    rcases Option.map_eq_some_iff.1 (hmap.symm.trans hknown) with ⟨type, htype, hsome⟩
    rcases Option.isSome_iff_exists.1 hsome with ⟨τ, rfl⟩
    exact .inl ⟨τ, htype⟩
  · have hopen : (⟨name, assigned, P.spot⟩ : Use).isOpen = true := by
      rw [Use.isOpen, Place.level_spot]
      simp only [Bool.and_eq_true, decide_eq_true_eq, bne_iff_ne]
      exact ⟨Nat.pos_of_ne_zero hlevel, hknown⟩
    refine .inr ⟨h.loose hopen, h.target hopen, ?_⟩
    by_cases hbinds : (name, true) ∈ P.here.known
    · rcases List.mem_map.1 hbinds with ⟨⟨_, type⟩, hmem, heq⟩
      cases type with
      | none => cases heq
      | some τ =>
        cases heq
        exact .inl ⟨τ, hmem⟩
    · right
      by_cases hintrinsic : assigned = false ∧ (HostFunction.intrinsic? name).isSome = true
      · exact .inr hintrinsic
      · refine .inl (h.stray ?_)
        rw [Use.stray, hopen]
        cases assigned <;> simp_all [Place.spot]

end Resolves

/-! ## Wrapped uses -/

/-- Inside persist escapes a term is at the place that they lead back to. -/
theorem forall_spots_persistTimes {k : Leaks} {count : Nat} {p : Spot × Term → Prop}
    (hrun : (t.persistTimes count).run u = .ok (t', u'))
    (hstack : (P.here :: P.outer).drop count = Δ :: rest) (h : ∀ e ∈ t'.spots k P.spot, p e) :
    ∀ e ∈ t.spots k (P.back Δ rest).spot, p e := by
  induction count generalizing P t' u' with
  | zero =>
    cases hrun
    cases hstack
    exact h
  | succ count ih =>
    rw [persistTimes] at hrun
    rcases run_bind_eq_ok.1 hrun with ⟨inner, u₁, hinner, h₁⟩
    rcases run_bind_eq_ok.1 h₁ with ⟨id, u₂, -, h₂⟩
    cases h₂
    cases houter : P.outer with
    | nil => simp [houter] at hstack
    | cons Γ outer =>
      rw [houter, List.drop_succ_cons] at hstack
      have hinside : (inner, (P.back Γ outer).spot) ∈
          (Term.escape ⟨id, t.span⟩ .persist inner).children.zip
            ((Term.escape ⟨id, t.span⟩ .persist inner).inside k P.spot) := by
        simp only [inside, Place.spot, houter]
        exact List.mem_singleton.2 rfl
      exact ih (P := P.back Γ outer) hinner hstack ((forall_spots.1 h).2 _ hinside)

/-- A term under escapes has its type at every place inside the quotes that they leave. -/
theorem hasType_persistTimes {count : Nat} (hrun : (t.persistTimes count).run u = .ok (t', u'))
    (hstack : (P.here :: P.outer).drop count = Δ :: rest) (h : HasType S (P.back Δ rest) Φ t τ []) :
    HasType S P Φ t' τ [] := by
  induction count generalizing P t' u' with
  | zero =>
    cases hrun
    cases hstack
    exact h
  | succ count ih =>
    rw [persistTimes] at hrun
    rcases run_bind_eq_ok.1 hrun with ⟨inner, u₁, hinner, h₁⟩
    rcases run_bind_eq_ok.1 h₁ with ⟨id, u₂, -, h₂⟩
    cases h₂
    cases houter : P.outer with
    | nil => simp [houter] at hstack
    | cons Γ outer =>
      rw [houter, List.drop_succ_cons] at hstack
      exact .escape houter (ih (P := P.back Γ outer) hinner hstack h) rfl fun hkind => absurd rfl hkind

/-- A name that the checker accepts is typed after its stage crossings have been made explicit. -/
theorem hasType_lookup {s : Site} {name : String}
    (hrule : Prelude.general.lookupRule c s.id name = .ok τ)
    (hrun : (explicitLookup s name c.scope c.level).run u = .ok (t', u')) (hagrees : Agrees S c P)
    (hadmits : ∀ e ∈ t'.spots S.leaks P.spot, S.Admits types e.1 e.2) :
    HasType S P Φ t' τ [] ∧ τ.Proper := by
  rcases explicitLookup_cases hrun with ⟨hnone, rfl, -⟩ | ⟨b, hbound, hle, hpersist⟩
  · -- not bound anywhere: an intrinsic, which stays as it is
    have hintrinsic := lookupRule_of_none hnone hrule
    have hunseen := hagrees.lookup?_eq_none_iff.1 hnone
    refine ⟨.lookup ?_, Prelude.general_proper.intrinsic hintrinsic⟩
    by_cases hlevel : c.level = 0
    · have hbase := hagrees.base P.here (by rw [hlevel]; rfl) name hnone
      exact .intrinsic (hagrees.atHome_iff.2 hlevel) hbase hintrinsic
    · have hresolves := (forall_spots.1 hadmits).1.uses name false rfl
      rcases hresolves.cases (hagrees.height ▸ hlevel) with ⟨α, hknows⟩ | ⟨hloose, -, hbinds⟩
      · exact absurd hnone (hagrees.covered _ List.mem_cons_self name hknows.binds)
      · have hsees : S.Sees P name := by
          intro _ seen hseen
          rw [hunseen] at hseen
          cases hseen
        exact .loose (hagrees.atHome_eq_false_iff.2 hlevel) hloose
          (S.intrinsic name τ hintrinsic hloose).symm (hbinds.imp_right fun h => h.imp_right And.right) hsees
  · rw [lookupRule_eq_shift s.id hbound hle] at hrule
    cases hrule
    have hown : b.type.shift ((c.level - b.level : Nat) : Int) = b.own c.level := by
      rw [Binding.own]
      congr 1
      omega
    rw [hown]
    have hheight : P.outer.length = c.level := hagrees.height
    have hlt : c.level - b.level < (P.here :: P.outer).length := by
      rw [List.length_cons]
      omega
    -- the escapes lead to the place in the quote that the name is bound in
    have hstack := List.drop_eq_getElem_cons hlt
    have hΔ := List.getElem?_eq_getElem hlt
    have hrest : ((P.here :: P.outer).drop (c.level - b.level + 1)).length = b.level := by
      rw [List.length_drop, List.length_cons]
      omega
    generalize (P.here :: P.outer)[c.level - b.level] = Δ at hstack hΔ
    generalize (P.here :: P.outer).drop (c.level - b.level + 1) = rest at hstack hrest
    refine ⟨hasType_persistTimes hpersist hstack (.lookup ?_), hagrees.proper name b hbound⟩
    have hresolves := (forall_spots.1 (forall_spots_persistTimes hpersist hstack hadmits)).1.uses name false rfl
    rcases hagrees.seen_of_lookup? hbound with ⟨seen, hseen, hseenLevel⟩
    have hknown := hagrees.known name b seen hbound hseen (hresolves.kept hseen) _ Δ hΔ (by omega)
    have hsees : S.Sees (P.back Δ rest) name := by
      intro _ seen' hseen'
      cases hseen.symm.trans hseen'
      exact Nat.le_of_eq (hseenLevel.trans hrest.symm)
    by_cases hzero : b.level = 0
    · exact .known (hknown.2 hzero) hsees
    · rcases hresolves.cases (hrest.trans_ne hzero) with ⟨α, hknows⟩ | ⟨hloose, -, hbinds⟩
      · exact .known (hknown.1 α hknows ▸ hknows) hsees
      · have haway : (P.back Δ rest).atHome = false := by
          rw [Place.atHome, Place.back, List.isEmpty_eq_false_iff.2, Bool.and_false]
          rintro rfl
          exact hzero hrest.symm
        exact .loose haway hloose (hagrees.loose name b hbound hzero hloose)
          (hbinds.imp_right fun h => h.imp_right And.right) hsees

/-! ## Assignments -/

/-- An assignment that the checker accepts writes a value of the type of its target. -/
theorem writes_of_assignRule {s : Site} {name : String}
    (hrule : Prelude.general.assignRule c s.id name τ = .ok ()) (hagrees : Agrees S c P)
    (hresolves : S.Resolves ⟨name, true, P.spot⟩) : S.Writes P name τ := by
  rcases Except.bind_eq_ok.1 hrule with ⟨target, htarget, hsame⟩
  have hτ : target = τ := by
    split at hsame
    · next heq => exact heq
    · cases hsame
  subst hτ
  rw [Prelude.targetRule] at htarget
  split at htarget
  · next b hbound =>
    split at htarget
    · next hlevel =>
      cases htarget
      -- the name is bound at the level of the assignment
      have hown : b.own c.level = b.type := by simp [Binding.own, hlevel]
      rcases hagrees.seen_of_lookup? hbound with ⟨seen, hseen, hseenLevel⟩
      have hknown := hagrees.known name b seen hbound hseen (hresolves.kept hseen) 0 P.here rfl hlevel
      rw [hown] at hknown
      have hsees : S.Sees P name := by
        intro _ seen' hseen'
        cases hseen.symm.trans hseen'
        exact Nat.le_of_eq (hseenLevel.trans (hlevel.trans hagrees.height.symm))
      by_cases hzero : b.level = 0
      · exact .known (hknown.2 hzero) hsees
      · have hinside : c.level ≠ 0 := hlevel ▸ hzero
        rcases hresolves.cases (hagrees.height ▸ hinside) with ⟨α, hknows⟩ | ⟨hloose, htarget, hbinds⟩
        · exact .known (hknown.1 α hknows ▸ hknows) hsees
        · refine .loose (hagrees.atHome_eq_false_iff.2 hinside) hloose ?_ (htarget rfl) ?_ hsees
          · exact hown.symm.trans (hagrees.loose name b hbound hzero hloose)
          · exact hbinds.imp_right fun h => h.resolve_right fun hfalse => by cases hfalse.1
    · cases htarget
  · -- a name that nothing binds is not assigned
    next hnone =>
    have hsteady := hresolves.steady
    rw [Use.misled, show Scope.newest? name P.spot.sight = none from hagrees.lookup?_eq_none_iff.1 hnone]
      at hsteady
    cases hsteady

/-! ## Names that the checker binds -/

/-- A name that a term does not rebind is looked up after it as before. -/
theorem Judged.lookup?_eq {p : Prelude} (h : Judged p c t j log) {name : String}
    (hname : name ∉ t.rebinds) : j.scope.lookup? name = c.scope.lookup? name := by
  induction t generalizing c j log with
  | seq s l r ihl ihr =>
    cases h with
    | seq hl hr =>
      rw [rebinds, List.mem_append, not_or] at hname
      exact (ihr hr hname.1).trans (ihl hl hname.2)
  | define s bound t ih =>
    cases h with
    | define h =>
      rw [rebinds, List.mem_cons, not_or] at hname
      rw [Context.bind, Scope.lookup?_extend, if_neg (Ne.symm hname.1)]
      exact ih h hname.2
  | host s bound type =>
    cases h
    rw [rebinds, List.mem_singleton] at hname
    rw [Context.bind, Scope.lookup?_extend, if_neg (Ne.symm hname)]
  | assign s bound t ih =>
    cases h with
    | assign h _ => exact ih h hname
  | run s t ih =>
    cases h with
    | run h _ =>
      have hbody := ih h hname
      exact hbody
  | _ =>
    cases h
    all_goals rfl

/-- Wrapping a use of a name in escapes binds nothing. -/
theorem explicitLookup_effect {s : Site} {name : String} {scope : Scope Binding} {level : Nat}
    (hrun : (explicitLookup s name scope level).run u = .ok (t', u')) (k : Leaks) : t'.effect k = [] := by
  rcases explicitLookup_cases hrun with ⟨-, rfl, -⟩ | ⟨b, -, -, hpersist⟩
  · rfl
  · cases hcount : level - b.level with
    | zero =>
      rw [hcount] at hpersist
      cases hpersist
      rfl
    | succ count =>
      rw [hcount, persistTimes] at hpersist
      rcases run_bind_eq_ok.1 hpersist with ⟨inner, u₁, -, h₁⟩
      rcases run_bind_eq_ok.1 h₁ with ⟨id, u₂, -, h₂⟩
      cases h₂
      rfl

/-- Explicit references change nothing about what a term binds. -/
theorem Explicit.effect_eq {level : Nat} (h : Explicit types level t u t' u') (k : Leaks) :
    t'.effect k = t.effect k := by
  induction t generalizing level t' u u' with
  | lookup s name =>
    cases h with
    | lookup _ hrun => exact explicitLookup_effect hrun k
  | seq s l r ihl ihr =>
    cases h with
    | seq hl hr => rw [effect, effect, ihl hl, ihr hr]
  | define s name t ih =>
    cases h with
    | define h => rw [effect, effect, ih h]
  | assign s name t ih =>
    cases h with
    | assign h => rw [effect, effect, ih h]
  | run s t ih =>
    cases h with
    | run h => rw [effect, effect, ih h]
  | escape s kind t ih =>
    cases h
    cases kind <;> rfl
  | _ =>
    cases h
    all_goals rfl

/-! ## Programs -/

/-- What is shown of a judged term: it is typed, and the place after it agrees with the scope that the
checker goes on with. -/
structure Checked (S : Ledger) (c : Context) (P : Place) (Φ : List Ty) (t : Term) (j : Judgement)
    (B : Typing) : Prop where
  typed : HasType S P Φ t j.type B
  proper : j.type.Proper
  agrees : Agrees S (c.withScope j.scope) (P.bind t.inScope B)

/-- Many constructs leave the scope as it was. -/
theorem Checked.same (htyped : HasType S P Φ t τ []) (hproper : τ.Proper) (hagrees : Agrees S c P)
    (hseen : t.inScope = []) : Checked S c P Φ t ⟨τ, c.scope⟩ [] := by
  refine ⟨htyped, hproper, ?_⟩
  rw [hseen]
  exact hagrees

/-- What a judged term and the term with explicit references need for this. -/
structure Ready (S : Ledger) (types : TypeTable) (c : Context) (P : Place) (t : Term) (log : Log)
    (t' : Term) : Prop where
  table : ∀ e ∈ log, types.get? e.1 = some e.2
  host : ∀ node ∈ t.nodes, node.tag ≠ .host
  agrees : Agrees S c P
  admits : ∀ e ∈ t'.spots S.leaks P.spot, S.Admits types e.1 e.2

/-- Making the references of a judged term explicit leads to a typed term. -/
def Checks (S : Ledger) (types : TypeTable) (Φ : List Ty) (t : Term) : Prop :=
  ∀ ⦃c j log t' u u' P⦄, Judged .general c t j log → Explicit types c.level t u t' u' →
    Ready S types c P t log t' → ∃ B, Checked S c P Φ t' j B

theorem Ready.node (h : Ready S types c P t log t') : S.Admits types P.spot t' :=
  (forall_spots.1 h.admits).1

/-- The only child of a node is ready at its place. -/
theorem Ready.only {c' : Context} {P' : Place} {l l' : Term} {a : Log} {e : NodeId × Judgement}
    (h : Ready S types c P t (a ++ [e]) t') (ht : t.children = [l]) (hagrees : Agrees S c' P')
    (hchild : (l', P'.spot) ∈ t'.children.zip (t'.inside S.leaks P.spot)) :
    Ready S types c' P' l a l' where
  table := (List.forall_mem_append.1 h.table).1
  host := forall_nodes_child h.host (by simp [ht])
  agrees := hagrees
  admits := (forall_spots.1 h.admits).2 _ hchild

/-- After a value the checker goes on with the names that the value binds, and evaluation does not. -/
theorem Ready.afterValue (h : Ready S types c P t log t') {l l' : Term} {a : Log} {u₁ u₂ : Supply}
    (hl : Judged .general c l j a) (hx : Explicit types c.level l u₁ l' u₂)
    (hchecked : Checked S c P Φ l' j B) :
    Agrees S (c.withScope j.scope)
      (P.bind (Leaks.asWritten.spill l'.inScope) (B.spill (S.readerAt P))) := by
  refine h.agrees.spill hchecked.agrees fun name hname => hl.lookup?_eq ?_
  rwa [inScope, hx.effect_eq, ← inScope, map_fst_inScope] at hname

/-- Two terms one after the other are typed, the second with the bindings of the first. -/
theorem Ready.both {l r l' r' : Term} {first second : Judgement} {a b : Log} {e : NodeId × Judgement}
    {u₁ : Supply} (h : Ready S types c P t (a ++ b ++ [e]) t') (ht : t.children = [l, r])
    (ht' : t'.children = [l', r']) (hinside : t'.inside S.leaks P.spot = [P.spot, P.spot.after S.leaks l'])
    (hl : Judged .general c l first a) (hr : Judged .general (c.withScope first.scope) r second b)
    (hxl : Explicit types c.level l u l' u₁) (hxr : Explicit types c.level r u₁ r' u')
    (ihl : Checks S types Φ l) (ihr : Checks S types Φ r) :
    ∃ B C, Checked S c P Φ l' first B ∧
      Checked S (c.withScope first.scope) (P.bind l'.inScope B) Φ r' second C := by
  have htable := h.table
  rw [List.forall_mem_append, List.forall_mem_append] at htable
  have hadmits := (forall_spots.1 h.admits).2
  rw [ht', hinside] at hadmits
  obtain ⟨B, hB⟩ := ihl hl hxl ⟨htable.1.1, forall_nodes_child h.host (by simp [ht]), h.agrees,
    hadmits (l', P.spot) (List.mem_pair.2 (.inl rfl))⟩
  -- the second one is ready where the first one has left the names
  have hadmits' := hadmits (r', P.spot.after S.leaks l') (List.mem_pair.2 (.inr rfl))
  rw [hB.typed.spot_after h.agrees.home] at hadmits'
  obtain ⟨C, hC⟩ := ihr hr hxr ⟨htable.1.2, forall_nodes_child h.host (by simp [ht]), hB.agrees, hadmits'⟩
  exact ⟨B, C, hB, hC⟩

/-- Arguments that the checker accepts are typed one by one. -/
theorem JudgedAll.hasTypes {ts ts' : List Term} {tys : List Ty}
    (h : JudgedAll .general c ts tys log) (hx : ExplicitAll types c.level ts u ts' u')
    (htable : ∀ e ∈ log, types.get? e.1 = some e.2)
    (hhost : ∀ t ∈ ts, ∀ node ∈ t.nodes, node.tag ≠ .host) (hagrees : Agrees S c P)
    (hadmits : ∀ t' ∈ ts', ∀ e ∈ t'.spots S.leaks P.spot, S.Admits types e.1 e.2)
    (ih : ∀ t ∈ ts, Checks S types Φ t) : HasTypes S P Φ ts' tys := by
  induction ts generalizing ts' tys log u with
  | nil =>
    cases hx
    cases h
    exact .nil
  | cons t rest ihrest =>
    cases hx with
    | cons hx hxs =>
      cases h with
      | cons h hs =>
        rcases List.forall_mem_append.1 htable with ⟨ha, hb⟩
        rcases List.forall_mem_cons.1 hhost with ⟨hhead, htail⟩
        rcases List.forall_mem_cons.1 hadmits with ⟨hchild, hchildren⟩
        obtain ⟨B, hchecked⟩ := ih t List.mem_cons_self h hx ⟨ha, hhead, hagrees, hchild⟩
        exact .cons hchecked.typed (ihrest hs hxs hb htail hchildren
          fun t ht => ih t (List.mem_cons_of_mem _ ht))

/-- **A judged term with explicit references is typed.** -/
theorem checks (t : Term) : Checks S types Φ t := by
  induction t with
  | literal s value =>
    intro c j log t' u u' P h hx hready
    cases hx
    cases h
    -- a literal binds nothing, and its type is at stage zero
    refine ⟨[], .same .literal ?_ hready.agrees rfl⟩
    cases value <;> exact Int.le_refl 0
  | lookup s name =>
    intro c j log t' u u' P h hx hready
    cases hx with
    | lookup hj hrun =>
      -- the scope in the table is the one that the use was judged in
      have hmem : types.get? s.id = some j := hready.table _ h.mem_log
      rw [hj] at hmem
      cases hmem
      cases h with
      | lookup hrule =>
        rcases hasType_lookup hrule hrun hready.agrees hready.admits with ⟨htyped, hproper⟩
        exact ⟨[], .same htyped hproper hready.agrees (explicitLookup_effect hrun .asWritten)⟩
  | seq s l r ihl ihr =>
    intro c j log t' u u' P h hx hready
    cases hx with
    | seq hxl hxr =>
      cases h with
      | seq hl hr =>
        rcases hready.both rfl rfl rfl hl hr hxl hxr ihl ihr with ⟨B, C, hB, hC⟩
        refine ⟨C ++ B, .seq hB.typed hC.typed, hC.proper, ?_⟩
        -- the bindings of both, one after the other
        have hagrees := hC.agrees
        rwa [Place.bind_bind] at hagrees
  | binary s op l r ihl ihr =>
    intro c j log t' u u' P h hx hready
    cases hx with
    | binary hxl hxr =>
      cases h with
      | binary hl hr hrule =>
        rcases hready.both rfl rfl rfl hl hr hxl hxr ihl ihr with ⟨B, C, hB, hC⟩
        -- what the operands bind ends with the operation
        exact ⟨[], .same (.binary hB.typed hC.typed hrule) (Ty.proper_kept.numericRule hrule)
          hready.agrees rfl⟩
  | define s name t ih =>
    intro c j log t' u u' P h hx hready
    cases hx with
    | @define _ _ _ _ t' _ _ hx =>
      have hnode := hready.node
      have htable := hready.table _ h.mem_log
      cases h with
      | @define _ _ _ _ j _ h =>
        rcases ih h hx (hready.only rfl hready.agrees (List.mem_singleton.2 rfl)) with ⟨B, hB⟩
        -- under quotes the defined name is loose, and has the type agreed on for it
        have hobeys : P.atHome = false → S.Obeys [(name, j.type)] := by
          intro haway
          have hlevel : P.spot.level ≠ 0 := by
            rw [P.level_spot, hready.agrees.height]
            exact hready.agrees.atHome_eq_false_iff.1 haway
          exact List.forall_mem_singleton.2 (hnode.defines s name t' ⟨j.type, _⟩ rfl htable hlevel)
        refine ⟨(name, some j.type) :: B.spill (S.readerAt P), ?_, hB.proper, ?_⟩
        · exact .define hB.typed fun haway => List.forall_mem_singleton.1 (hobeys haway)
        -- first the names that only the checker keeps, then the defined one
        · have hbound := (hready.afterValue h hx hB).bindAll hobeys (List.forall_mem_singleton.2 hB.proper)
          rwa [Place.called, Place.bind_bind] at hbound
  | assign s name t ih =>
    intro c j log t' u u' P h hx hready
    cases hx with
    | @assign _ _ _ _ t' _ _ hx =>
      have hresolves := hready.node.uses name true rfl
      cases h with
      | assign h hrule =>
        rcases ih h hx (hready.only rfl hready.agrees (List.mem_singleton.2 rfl)) with ⟨B, hB⟩
        -- nothing new is bound, but what the value binds may spill
        exact ⟨B.spill (S.readerAt P), .assign hB.typed (writes_of_assignRule hrule hready.agrees hresolves),
          hB.proper, hready.afterValue h hx hB⟩
  | unary s op t ih =>
    intro c j log t' u u' P h hx hready
    cases hx with
    | unary hx =>
      cases h with
      | unary h hrule =>
        rcases ih h hx (hready.only rfl hready.agrees (List.mem_singleton.2 rfl)) with ⟨B, hB⟩
        exact ⟨[], .same (.unary hB.typed hrule) (unaryRule_eq_ok hrule ▸ hB.proper) hready.agrees rfl⟩
  | quote s label snippet t ih =>
    intro c j log t' u u' P h hx hready
    cases hx with
    | quote hx =>
      have hnode := hready.node
      cases h with
      | quote h =>
        rcases ih h hx (hready.only rfl hready.agrees.quoted (List.mem_singleton.2 rfl)) with ⟨B, hB⟩
        have hstage := hB.proper.stage_nonneg
        -- what the body leaves bound, it binds itself or may have from spliced code
        have hleaky : ∀ b ∈ B, b.1 ∈ S.leaks.names := by
          intro b hb
          have hmem : (b.1, b.2.isSome) ∈ B.known := List.mem_map_of_mem hb
          rw [hB.typed.known_eq, Place.readerAt_quoted] at hmem
          rcases effect_names hmem with hbinds | hleaky
          · exact hnode.leaves _ _ _ _ rfl _ hbinds
          · exact hleaky
        exact ⟨[], .same (.quote hB.typed hstage hleaky) (hB.proper.shift (by omega)) hready.agrees rfl⟩
  | escape s kind t ih =>
    intro c j log t' u u' P h hx hready
    cases hx with
    | @escape _ _ _ _ t' _ _ hx =>
      have hnode := hready.node
      cases h with
      | escape hlevel h hrule =>
        -- an escape stands in a quote, so there is a place to go back to
        have hheight : P.outer.length = c.level := hready.agrees.height
        cases houter : P.outer with
        | nil =>
          rw [houter] at hheight
          exact absurd hheight.symm hlevel
        | cons Δ outer =>
          have hchild : (t', (P.back Δ outer).spot) ∈
              (Term.escape s kind t').children.zip ((Term.escape s kind t').inside S.leaks P.spot) := by
            simp only [inside, Place.spot, houter]
            exact List.mem_singleton.2 rfl
          rcases ih h hx (hready.only rfl (hready.agrees.escaped houter) hchild) with ⟨B, hB⟩
          -- spliced code reads loose names, so none of them may be hidden here
          have hsees : kind ≠ .persist → ∀ name, S.loose name → S.Sees P name := by
            intro hkind name hloose hreader seen hseen
            have haway := hready.agrees.atHome_eq_false_iff.2 hlevel
            rw [Ledger.readerAt, haway] at hreader
            have hclear := hnode.splices s kind t' rfl hkind hreader name hloose
            rw [Spot.hides, show Scope.newest? name P.spot.sight = _ from hseen, P.level_spot] at hclear
            simpa using hclear
          refine ⟨S.escaping kind, .escape houter hB.typed hrule hsees,
            Ty.proper_kept.escapeRule hrule hB.proper, ?_⟩
          rw [inScope_escape]
          cases kind with
          | persist => exact hready.agrees
          | splice | snippet => exact hready.agrees.splice hlevel S.leaks.names
  | run s t ih =>
    intro c j log t' u u' P h hx hready
    cases hx with
    | @run _ _ _ t' _ _ hx =>
      cases h with
      | run h hrule =>
        rcases ih h hx (hready.only rfl hready.agrees (List.mem_singleton.2 rfl)) with ⟨B, hB⟩
        have hafter := hready.afterValue h hx hB
        -- as for the value of an assignment, names may spill from what is run
        exact ⟨B.spill (S.readerAt P), .run hB.typed hrule, Ty.proper_kept.runRule hrule hB.proper, hafter⟩
  | lambda s params t ih =>
    intro c j log t' u u' P h hx hready
    cases hx with
    | @lambda _ _ _ _ t' _ _ hx =>
      have hnode := hready.node
      cases h with
      | @lambda _ _ _ _ bound _ _ hparams h =>
        -- under quotes the parameters are loose names, too
        have hobeys : P.atHome = false → S.Obeys bound := by
          intro haway
          refine hnode.takes s params t' bound rfl hparams ?_
          rw [P.level_spot, hready.agrees.height]
          exact hready.agrees.atHome_eq_false_iff.1 haway
        have hbound := hready.agrees.bindAll hobeys (Ty.proper_kept.paramRule Prelude.general_proper.type hparams)
        have hchild : (t', (P.called bound).spot) ∈
            (Term.lambda s params t').children.zip ((Term.lambda s params t').inside S.leaks P.spot) := by
          rw [← P.spot_called hparams]
          exact List.mem_singleton.2 rfl
        rcases ih h hx (hready.only rfl hbound hchild) with ⟨B, hB⟩
        have hproper : (Ty.function (bound.map (·.2)) _).Proper := ⟨Int.le_refl 0, hB.proper⟩
        exact ⟨[], .same (.lambda hparams hobeys hB.typed) hproper hready.agrees rfl⟩
  | call s f args ihf iha =>
    intro c j log t' u u' P h hx hready
    cases hx with
    | @call _ _ _ f' _ args' _ _ _ hxf hxs =>
      cases h with
      | call hf hargs hrule =>
        rcases hready with ⟨htable, hhost, hagrees, hadmits⟩
        rw [List.forall_mem_append, List.forall_mem_append] at htable
        -- the callee and all arguments are at the same place
        have hchildren : ∀ child ∈ f' :: args', ∀ e ∈ child.spots S.leaks P.spot, S.Admits types e.1 e.2 := by
          intro child hchild
          refine (forall_spots.1 hadmits).2 (child, P.spot) ?_
          exact mem_zip_map_const hchild
        rcases List.forall_mem_cons.1 hchildren with ⟨hcallee, harguments⟩
        obtain ⟨B, hB⟩ := ihf hf hxf
          ⟨htable.1.1, forall_nodes_child hhost (by simp [children]), hagrees, hcallee⟩
        have hargs' := hargs.hasTypes hxs htable.1.2
          (fun t ht => forall_nodes_child hhost (by simp [children, ht])) hagrees harguments iha
        exact ⟨[], .same (.call hB.typed hargs' hrule) (Ty.proper_kept.callRule hrule hB.proper) hagrees rfl⟩
  | host =>
    intro c j log t' u u' P h hx hready
    -- programs without host definitions only
    exact absurd rfl (hready.host _ (mem_nodes_self _))
  | held s index =>
    intro c j log t' u u' P h
    cases h

end Multistage
