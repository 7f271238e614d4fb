import Multistage.Proofs.CheckedPrograms

/-!
# Checking code

Code that evaluation has built is a term on its own, and the checker can be run on it. In code all names
stand in quotes of the program, so that nothing is at home; `Follows` relates the scope of the checker to
a place in code, as `Agrees` does for a place of the program.

Main statement: `HasType.accepted`, by induction over the term. The checker gives typed code its type, or
finds a stray name that is not bound, or an assignment of a loose name whose binding is in a quote further
out.
-/

namespace Multistage

open Term

/-! ## The scope of the checker in code -/

/-- The scope of the checker follows a place in code: loose names have their types at every level, and a
name that a quote knows is bound there, with the type that the quote knows, or in a quote further in. -/
structure Follows (S : Ledger) (c : Context) (P : Place) : Prop extends Situated c P where
  away : P.home = false
  loose : ∀ name b, c.scope.lookup? name = some b → S.loose name → b.own c.level = S.type name
  known : ∀ name b, c.scope.lookup? name = some b → ∀ (k : Nat) Δ τ, (P.here :: P.outer)[k]? = some Δ →
    Δ.Knows name τ → c.level ≤ b.level + k ∧ (b.level + k = c.level → τ = b.own c.level)

namespace Follows

variable {S : Ledger} {c : Context} {P : Place} {Δ : Typing} {outer : List Typing}

/-- Code on its own starts with no names on either side. -/
theorem start : Follows S {} .alone where
  toSituated := .start false
  away := rfl
  loose := by
    intro name b hb
    cases hb
  known := by
    intro name b hb
    cases hb

/-- Going under a quote, the checker's context still follows the place. -/
theorem quoted (h : Follows S c P) : Follows S c.quoted P.quoted := by
  have hlevel : ((c.level + 1 : Nat) : Int) = c.level - -1 := by omega
  refine ⟨h.toSituated.quoted, h.away, ?_, ?_⟩
  · intro name b hb hloose
    rcases Scope.lookup?_moved hlevel hb with ⟨b', hb', -, hown⟩
    exact hown.trans (h.loose name b' hb' hloose)
  · intro name b hb k Δ τ hΔ hname
    rcases Scope.lookup?_moved hlevel hb with ⟨b', hb', hlevels, hown⟩
    -- the new quote knows no name, and the others are one further out than before
    cases k with
    | zero =>
      cases hΔ
      cases hname
    | succ k =>
      rcases h.known name b' hb' k Δ τ hΔ hname with ⟨hle, htype⟩
      refine ⟨?_, fun hk => ?_⟩
      · show c.level + 1 ≤ b.level + (k + 1)
        omega
      · have hk' : b.level + (k + 1) = c.level + 1 := hk
        rw [show b.own c.quoted.level = b'.own c.level from hown]
        exact htype (by omega)

/-- Going out of a quote again, the context still follows the place. -/
theorem escaped (h : Follows S c P) (houter : P.outer = Δ :: outer) :
    Follows S c.escaped (P.back Δ outer) := by
  have hheight := h.level_eq houter
  have hlevel : ((c.level - 1 : Nat) : Int) = c.level - 1 := by omega
  have hknown := h.known
  rw [houter] at hknown
  refine ⟨h.toSituated.escaped houter, h.away, ?_, ?_⟩
  · intro name b hb hloose
    rcases Scope.lookup?_moved hlevel hb with ⟨b', hb', -, hown⟩
    exact hown.trans (h.loose name b' hb' hloose)
  · intro name b hb k Δ' τ hΔ' hname
    rcases Scope.lookup?_moved hlevel hb with ⟨b', hb', hlevels, hown⟩
    rcases hknown name b' hb' (k + 1) Δ' τ hΔ' hname with ⟨hle, htype⟩
    refine ⟨?_, fun hk => ?_⟩
    · show c.level - 1 ≤ b.level + k
      omega
    · have hk' : b.level + k = c.level - 1 := hk
      rw [show b.own c.escaped.level = b'.own c.level from hown]
      exact htype (by omega)

/-- A splice puts names in doubt, of which the checker need not be told. -/
theorem splice (h : Follows S c P) (names : List String) : Follows S c (P.bind [] (.doubt names)) := by
  refine ⟨h.toSituated.doubt names, h.away, h.loose, ?_⟩
  intro name b hb k Δ τ hΔ hname
  cases k with
  | zero =>
    cases hΔ
    exact h.known name b hb 0 P.here τ rfl hname.of_doubt.2
  | succ k => exact h.known name b hb (k + 1) Δ τ hΔ hname

/-- After a value the checker goes on with the scope of the value, in which only names that are now in
doubt have changed. -/
theorem spill {scope : Scope Binding} {seen : Known} {B : Typing} (h : Follows S c P)
    (h' : Follows S (c.withScope scope) (P.bind seen B))
    (hframe : ∀ name, name ∉ B.map (·.1) → scope.lookup? name = c.scope.lookup? name) :
    Follows S (c.withScope scope) (P.bind (Leaks.asWritten.spill seen) (B.spill .checker)) := by
  refine ⟨h.toSituated.spill h'.toSituated .checker, h.away, h'.loose, ?_⟩
  intro name b hb k Δ τ hΔ hname
  cases k with
  | zero =>
    cases hΔ
    rcases hname.of_doubt with ⟨hnotin, hknows⟩
    exact h.known name b ((hframe name hnotin).symm.trans hb) 0 P.here τ rfl hknows
  | succ k => exact h'.known name b hb (k + 1) Δ τ hΔ hname

/-- Parameters that obey the ledger can be bound on both sides. -/
theorem bindAll (h : Follows S c P) {bound : List (String × Ty)} (hobeys : S.Obeys bound)
    (hproper : ∀ b ∈ bound, b.2.Proper) : Follows S (c.withScope (c.bindAll bound)) (P.called bound) := by
  refine ⟨h.toSituated.bindAll hproper, h.away, ?_, ?_⟩
  · intro name b (hb : (c.bindAll bound).lookup? name = some b) hloose
    rcases h.called_cases bound name with ⟨τ, hmem, -, hnew, -⟩ | ⟨-, -, hsame, -⟩
    · rw [hnew] at hb
      cases hb
      exact (Binding.own_self τ c.level).trans (hobeys _ hmem hloose)
    · exact h.loose name b (hsame.symm.trans hb) hloose
  · intro name b (hb : (c.bindAll bound).lookup? name = some b) k Δ τ hΔ hname
    rcases h.called_cases bound name with ⟨α, -, hnewest, hnew, -⟩ | ⟨-, hold, hsame, -⟩
    · -- a parameter is bound at the level of the function, and only the innermost quote is there
      rw [hnew] at hb
      cases hb
      refine ⟨Nat.le_add_right c.level k, fun hk => ?_⟩
      have hzero : k = 0 := Nat.add_left_cancel hk
      subst hzero
      cases hΔ
      cases hnewest.symm.trans hname
      exact (Binding.own_self τ c.level).symm
    · have hknown := h.known name b (hsame.symm.trans hb)
      cases k with
      | zero =>
        cases hΔ
        exact hknown 0 P.here τ rfl (hold.symm.trans hname)
      | succ k => exact hknown (k + 1) Δ τ hΔ hname

end Follows

/-! ## Checks that succeed up to open names -/

/-- A check succeeds with a good result, or finds a stray name that is not bound or a loose name that is
assigned in a quote further in than its binding. -/
inductive Ledger.Accepts (S : Ledger) {α : Type} (good : α → Prop) : Except Fault α → Prop where
  | ok {a : α} : good a → S.Accepts good (.ok a)
  | unbound {node : NodeId} {name : String} :
    S.stray name → S.Accepts good (.error (.undefinedVariable node name))
  | misplaced {node : NodeId} {name : String} :
    S.target name → S.Accepts good (.error (.stageMismatch node (.assignment name)))

theorem Ledger.Accepts.imp {S : Ledger} {α : Type} {good good' : α → Prop} {x : Except Fault α}
    (h : S.Accepts good x) (hgood : ∀ a, good a → good' a) : S.Accepts good' x := by
  cases h with
  | ok h => exact .ok (hgood _ h)
  | unbound hstray => exact .unbound hstray
  | misplaced htarget => exact .misplaced htarget

/-- What is accepted can be followed by what is accepted. -/
theorem Ledger.Accepts.bind {S : Ledger} {α β : Type} {good : α → Prop} {good' : β → Prop}
    {x : Except Fault α} {f : α → Except Fault β} (h : S.Accepts good x)
    (hnext : ∀ a, good a → S.Accepts good' (f a)) : S.Accepts good' (x >>= f) := by
  cases h with
  | ok hgood => exact hnext _ hgood
  | unbound hstray => exact .unbound hstray
  | misplaced htarget => exact .misplaced htarget

variable {S : Ledger} {c : Context} {P : Place} {B : Typing} {name : String} {node : NodeId} {t : Term}
  {τ : Ty}

/-- What can be assigned can be used. -/
theorem Ledger.Writes.reads (h : S.Writes P name τ) : S.Reads P name τ := by
  cases h with
  | known hknows hsees => exact .known hknows hsees
  | loose haway hloose htype _ hbound hsees => exact .loose haway hloose htype (hbound.imp_right .inl) hsees

theorem Ledger.Reads.sees (h : S.Reads P name τ) (haway : P.home = false) : S.Sees P name := by
  cases h with
  | known _ hsees => exact hsees
  | intrinsic hhome => cases (Place.atHome_of_away haway).symm.trans hhome
  | loose _ _ _ _ hsees => exact hsees

namespace Follows

/-- The checker finds the names of code not further in than they are used. -/
theorem level_le (h : Follows S c P) (hreader : S.leaks.reader = .checker) (hreads : S.Reads P name τ)
    {b : Binding} (hb : c.scope.lookup? name = some b) : b.level ≤ c.level := by
  rcases h.seen_of_lookup? hb with ⟨seen, hseen, hlevel⟩
  have hle := hreads.sees h.away ((Place.readerAt_of_away h.away).trans hreader) seen hseen
  rwa [hlevel, h.height] at hle

/-- A name that the checker finds has the type of the use. -/
theorem found (h : Follows S c P) (hreads : S.Reads P name τ) {b : Binding}
    (hb : c.scope.lookup? name = some b) (hle : b.level ≤ c.level) : b.own c.level = τ := by
  cases hreads with
  | known hknows _ =>
    -- the quote that knows the name is the innermost one, and the binding is not outside it
    rcases h.known name b hb 0 P.here τ rfl hknows with ⟨hinside, htype⟩
    exact (htype (Nat.le_antisymm hle hinside)).symm
  | intrinsic hhome => cases (Place.atHome_of_away h.away).symm.trans hhome
  | loose _ hloose htype => exact (h.loose name b hb hloose).trans htype.symm

/-- A name that the checker does not find is an intrinsic with the type of the use, or stray. -/
theorem unfound (h : Follows S c P) (hreads : S.Reads P name τ) (hnone : c.scope.lookup? name = none) :
    Prelude.general.intrinsics.get? name = some τ ∨
      Prelude.general.intrinsics.get? name = none ∧ S.stray name := by
  cases hreads with
  | known hknows _ => exact absurd hnone (h.covered P.here List.mem_cons_self name hknows.binds)
  | intrinsic hhome => cases (Place.atHome_of_away h.away).symm.trans hhome
  | loose _ hloose htype hbound _ =>
    cases hintrinsic : Prelude.general.intrinsics.get? name with
    | some type =>
      rw [htype, S.intrinsic name type hintrinsic hloose]
      exact .inl rfl
    | none =>
      refine .inr ⟨rfl, ?_⟩
      rcases hbound with hbinds | hstray | hhost
      · exact absurd hnone (h.covered P.here List.mem_cons_self name hbinds)
      · exact hstray
      · rcases Option.isSome_iff_exists.1 hhost with ⟨f, hf⟩
        rcases Eval.intrinsic_inhabits (S := S) (σ := []) hf with ⟨type, htype', -⟩
        cases hintrinsic.symm.trans htype'

/-- Where a name can be read, the checker finds it at its type, or stops for a reason that the ledger
excuses. -/
theorem lookup (h : Follows S c P) (hreader : S.leaks.reader = .checker) (hreads : S.Reads P name τ) :
    S.Accepts (fun type => type = τ ∧ type.Proper) (Prelude.general.lookupRule c node name) := by
  cases hb : c.scope.lookup? name with
  | some b =>
    have hle := h.level_le hreader hreads hb
    rw [lookupRule_eq_shift node hb hle]
    have hown : b.type.shift ((c.level - b.level : Nat) : Int) = b.own c.level := by
      rw [Binding.own]
      congr 1
      omega
    rw [hown]
    exact .ok ⟨h.found hreads hb hle, h.proper name b hb⟩
  | none =>
    rw [Prelude.lookupRule_unbound hb]
    rcases h.unfound hreads hb with hintrinsic | ⟨hintrinsic, hstray⟩
    · simp only [hintrinsic]
      exact .ok ⟨rfl, Prelude.general_proper.intrinsic hintrinsic⟩
    · simp only [hintrinsic]
      exact .unbound hstray

/-- Where a name can be written, the checker accepts the assignment, or stops for an excused reason. -/
theorem assign (h : Follows S c P) (hreader : S.leaks.reader = .checker) (hwrites : S.Writes P name τ) :
    S.Accepts (fun _ => True) (Prelude.general.assignRule c node name τ) := by
  have htarget : S.Accepts (· = τ) (Prelude.general.targetRule c node name) := by
    rw [Prelude.targetRule]
    cases hb : c.scope.lookup? name with
    | some b =>
      have hle := h.level_le hreader hwrites.reads hb
      have hown := h.found hwrites.reads hb hle
      by_cases hlevel : b.level = c.level
      · simp only [hlevel, if_true]
        rw [Binding.own, hlevel, Int.sub_self, Ty.shift_zero] at hown
        exact .ok hown
      · simp only [if_neg hlevel]
        -- a name that is known here is bound at this level, so this one is loose
        cases hwrites with
        | known hknows =>
          exact absurd (Nat.le_antisymm hle (h.known name b hb 0 P.here τ rfl hknows).1) hlevel
        | loose _ _ _ htarget => exact .misplaced htarget
    | none =>
      rcases h.unfound hwrites.reads hb with hintrinsic | ⟨hintrinsic, hstray⟩
      · simp only [hintrinsic]
        exact .ok rfl
      · simp only [hintrinsic]
        exact .unbound hstray
  rw [Prelude.assignRule]
  refine htarget.bind fun target hsame => ?_
  rw [if_pos hsame]
  exact .ok trivial

end Follows

/-! ## Typed code -/

/-- What is shown of a judgement of typed code: its type is that of the code, and the scope after the code
follows the place after the code. -/
structure Judges (S : Ledger) (c : Context) (P : Place) (t : Term) (τ : Ty) (B : Typing) (j : Judgement) :
    Prop where
  type : j.type = τ
  proper : j.type.Proper
  follows : Follows S (c.withScope j.scope) (P.bind t.inScope B)
  frame : ∀ name, name ∉ t.rebinds → j.scope.lookup? name = c.scope.lookup? name

/-- Many constructs leave the scope as it was. -/
theorem Judges.same (hproper : τ.Proper) (hfollows : Follows S c P) (hseen : t.inScope = []) :
    Judges S c P t τ [] ⟨τ, c.scope⟩ := by
  refine ⟨rfl, hproper, ?_, fun _ _ => rfl⟩
  rw [hseen]
  exact hfollows

/-- After a value whose bindings are not kept, what the checker has bound in the value is in doubt. -/
theorem Judges.spill {Φ : List Ty} {j : Judgement} (h : Judges S c P t τ B j) (ht : HasType S P Φ t τ B)
    (hreader : S.leaks.reader = .checker) (hfollows : Follows S c P) :
    Follows S (c.withScope j.scope)
      (P.bind (Leaks.asWritten.spill t.inScope) (B.spill (S.readerAt P))) := by
  have hreaderAt : S.readerAt P = .checker := (Place.readerAt_of_away hfollows.away).trans hreader
  have hbound : t.rebinds ⊆ B.map (·.1) := by
    rw [← map_fst_inScope, ← B.map_fst_known, ht.known_eq, hreaderAt]
    exact List.map_subset _ (t.inScope_subset_effect S.leaks.names)
  rw [hreaderAt]
  exact hfollows.spill h.follows fun name hname => h.frame name fun hmem => hname (hbound hmem)

/-- The checker gives a term every type that it has as code. -/
def CodeAccepted (S : Ledger) (t : Term) : Prop :=
  ∀ ⦃c P τ B⦄, HasType S P [] t τ B → Follows S c P →
    S.Accepts (Judges S c P t τ B) (Prelude.general.checkIn c t)

/-- Typed arguments are accepted one after another. -/
theorem HasTypes.accepted {ts : List Term} {types : List Ty} (h : HasTypes S P [] ts types)
    (hfollows : Follows S c P) (ih : ∀ t ∈ ts, CodeAccepted S t) :
    S.Accepts (· = types)
      (Prelude.general.judgeAll .unbounded (fun _ _ judgement => judgement) ts c : Except Fault _) := by
  induction ts generalizing types with
  | nil =>
    cases h
    exact .ok rfl
  | cons t rest ihrest =>
    cases h with
    | cons ht hrest =>
      rw [List.forall_mem_cons] at ih
      rw [Prelude.judgeAll_cons]
      refine (ih.1 ht hfollows).bind fun j hj => ?_
      refine (ihrest hrest ih.2).bind fun types' htypes => ?_
      subst htypes
      exact .ok (congrArg (· :: _) hj.type)

/-- **The checker accepts typed code**, if the code has been built for it. -/
theorem HasType.accepted (hreader : S.leaks.reader = .checker) (t : Term) : CodeAccepted S t := by
  -- by induction on the term: the checker visits the parts in the order in which typing binds names, and
  -- the scope that it comes back with follows the place after each part
  induction t with
  | literal s value =>
    intro c P τ B h hfollows
    cases h
    refine .ok (.same ?_ hfollows rfl)
    cases value <;> exact Int.le_refl 0
  | lookup s name =>
    intro c P τ B h hfollows
    cases h with
    | lookup hreads =>
      rw [Prelude.checkIn, Prelude.checkWith, Prelude.judge_lookup_unbounded]
      refine (hfollows.lookup hreader hreads).bind fun type htype => ?_
      rcases htype with ⟨rfl, hproper⟩
      exact .ok (.same hproper hfollows rfl)
  | seq s l r ihl ihr =>
    intro c P τ B h hfollows
    cases h with
    | seq hl hr =>
      rw [Prelude.checkIn, Prelude.checkWith, Prelude.judge_seq]
      refine (ihl hl hfollows).bind fun first hfirst => ?_
      -- the second term is checked in the scope after the first one
      refine (ihr hr hfirst.follows).imp fun second hsecond => ?_
      refine ⟨hsecond.type, hsecond.proper, ?_, ?_⟩
      · have hafter := hsecond.follows
        rwa [Place.bind_bind] at hafter
      · intro name hname
        rw [rebinds, List.mem_append, not_or] at hname
        exact (hsecond.frame name hname.1).trans (hfirst.frame name hname.2)
  | binary s op l r ihl ihr =>
    intro c P τ B h hfollows
    cases h with
    | binary hl hr hrule =>
      rw [Prelude.checkIn, Prelude.checkWith, Prelude.judge_binary]
      refine (ihl hl hfollows).bind fun first hfirst => ?_
      refine (ihr hr hfirst.follows).bind fun second hsecond => ?_
      have hbinary : binaryRule .general s.id op first.type second.type = .ok τ := by
        rw [hfirst.type, hsecond.type]
        exact hrule
      show S.Accepts _ (binaryRule .general s.id op first.type second.type >>= _)
      rw [hbinary]
      -- what the operands bind ends with the operation
      exact .ok (.same (Ty.proper_kept.numericRule hrule) hfollows rfl)
  | define s name t ih =>
    intro c P τ B h hfollows
    cases h with
    | define ht hloose =>
      rw [Prelude.checkIn, Prelude.checkWith, Prelude.judge_define]
      refine (ih ht hfollows).bind fun j hj => ?_
      rcases hj.type with rfl
      have hobeys : S.Obeys [(name, j.type)] :=
        List.forall_mem_singleton.2 (hloose (Place.atHome_of_away hfollows.away))
      refine .ok ⟨rfl, hj.proper, ?_, ?_⟩
      · -- first the names that only the checker keeps, then the defined one
        have hafter := (hj.spill ht hreader hfollows).bindAll hobeys (List.forall_mem_singleton.2 hj.proper)
        rwa [Place.called, Place.bind_bind] at hafter
      · intro other hother
        rw [rebinds, List.mem_cons, not_or] at hother
        rw [Context.bind, Scope.lookup?_extend, if_neg (Ne.symm hother.1)]
        exact hj.frame other hother.2
  | assign s name t ih =>
    intro c P τ B h hfollows
    cases h with
    | assign ht hwrites =>
      rw [Prelude.checkIn, Prelude.checkWith, Prelude.judge_assign]
      refine (ih ht hfollows).bind fun j hj => ?_
      rcases hj.type with rfl
      -- the target is looked up in the scope from before the value
      refine (hfollows.assign hreader hwrites).bind fun _ _ => ?_
      exact .ok ⟨rfl, hj.proper, hj.spill ht hreader hfollows, hj.frame⟩
  | unary s op t ih =>
    intro c P τ B h hfollows
    cases h with
    | unary ht hrule =>
      rw [Prelude.checkIn, Prelude.checkWith, Prelude.judge_unary]
      refine (ih ht hfollows).bind fun j hj => ?_
      rcases hj.type with rfl
      show S.Accepts _ (unaryRule s.id j.type >>= _)
      rw [hrule]
      exact .ok (.same (unaryRule_eq_ok hrule ▸ hj.proper) hfollows rfl)
  | quote s label snippet t ih =>
    intro c P τ B h hfollows
    cases h with
    | quote ht hstage hleaky =>
      rw [Prelude.checkIn, Prelude.checkWith, Prelude.judge_quote_unbounded]
      refine (ih ht hfollows.quoted).bind fun j hj => ?_
      rcases hj.type with rfl
      -- the scope of the body is dropped
      exact .ok (.same (hj.proper.shift (by omega)) hfollows rfl)
  | escape s kind t ih =>
    intro c P τ B h hfollows
    cases h with
    | escape houter ht hrule _ =>
      -- code that is escaped stands in a quote of the code, so the checker is not at level 0
      have hlevel : c.level ≠ 0 := by
        rw [hfollows.level_eq houter]
        exact Nat.succ_ne_zero _
      rw [Prelude.checkIn, Prelude.checkWith, Prelude.judge_escape_unbounded, if_neg hlevel]
      refine (ih ht (hfollows.escaped houter)).bind fun j hj => ?_
      rcases hj.type with rfl
      show S.Accepts _ (escapeRule s.id kind j.type >>= _)
      rw [hrule]
      refine .ok ⟨rfl, Ty.proper_kept.escapeRule hrule hj.proper, ?_, fun _ _ => rfl⟩
      rw [inScope_escape]
      cases kind with
      | persist => exact hfollows
      | splice | snippet => exact hfollows.splice S.leaks.names
  | run s t ih =>
    intro c P τ B h hfollows
    cases h with
    | run ht hrule =>
      rw [Prelude.checkIn, Prelude.checkWith, Prelude.judge_run]
      refine (ih ht hfollows).bind fun j hj => ?_
      rcases hj.type with rfl
      show S.Accepts _ (runRule s.id j.type >>= _)
      rw [hrule]
      -- the checker goes on with the scope of the body, as after a value
      have hafter := hj.spill ht hreader hfollows
      exact .ok ⟨rfl, Ty.proper_kept.runRule hrule hj.proper, hafter, hj.frame⟩
  | lambda s params t ih =>
    intro c P τ B h hfollows
    cases h with
    | @lambda _ _ _ _ _ bound _ _ hparams hobeys ht =>
      rw [Prelude.checkIn, Prelude.checkWith, Prelude.judge_lambda_unbounded]
      show S.Accepts _ (Prelude.general.paramRule s.id params >>= _)
      rw [hparams]
      have hproper := Ty.proper_kept.paramRule Prelude.general_proper.type hparams
      have hinside := hfollows.bindAll (hobeys (Place.atHome_of_away hfollows.away)) hproper
      refine (ih ht hinside).bind fun j hj => ?_
      rcases hj.type with rfl
      have hfunction : (Ty.function (bound.map (·.2)) j.type).Proper := ⟨Int.le_refl 0, hj.proper⟩
      exact .ok (.same hfunction hfollows rfl)
  | call s f args ihf iha =>
    intro c P τ B h hfollows
    cases h with
    | call hf hargs hrule =>
      rw [Prelude.checkIn, Prelude.checkWith, Prelude.judge_call]
      refine (ihf hf hfollows).bind fun j hj => ?_
      rcases hj.type with rfl
      -- callee and arguments are all checked in the same scope
      refine (hargs.accepted hfollows iha).bind fun types htypes => ?_
      subst htypes
      show S.Accepts _ (callRule s.id j.type types >>= _)
      rw [hrule]
      exact .ok (.same (Ty.proper_kept.callRule hrule hj.proper) hfollows rfl)
  | host s name type =>
    intro c P τ B h
    cases h
  | held s index =>
    -- code that holds no values has no held references
    intro c P τ B h
    cases h with
    | held _ hindex => cases hindex

end Multistage
