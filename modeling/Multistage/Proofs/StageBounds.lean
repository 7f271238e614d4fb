import Multistage.Proofs.Stages
import Multistage.Proofs.TypeTables

/-!
# No stage below zero

The types that the checker gives to nodes have no stage below zero, at their root or inside function types, if
the types of the prelude have none. The types of names do go below zero, one stage for each quote that a name is
seen through. What bounds them is the level: a name of stage `s` that is bound under `b` quotes and seen under `l`
of them has `s + l - b ≥ 0`, since that is the stage it has where it is bound (`Binding.own`).

This is about the checker that counts in words. Where a name is used so far above its binding that the levels
between them do not fit into a signed word, their number wraps around. Then the stage of the name is too far down
for a word, and the checker gives up. So it either gives up or does what it does without a bound on the numbers:
`Narrows` relates the two walks, step by step, and says of every node on the way that its types are in order.

Main statements: `elaborate32_eq`, the checker in words gives up or agrees with the unbounded one, and
`stages_nonnegative`.
-/

namespace Multistage

/-! ## Types -/

/-- Neither a type nor a parameter or the result of a function in it has a stage below zero. -/
inductive Ty.NonNegative : Ty → Prop where
  | base {kind : Base} {stage : Int} : 0 ≤ stage → NonNegative (.base kind stage)
  | arrow {params : List Ty} {result : Ty} {stage : Int} : 0 ≤ stage →
    (∀ param ∈ params, NonNegative param) → NonNegative result → NonNegative (.arrow params result stage)

@[simp] theorem Ty.nonNegative_base {kind : Base} {stage : Int} :
    (Ty.base kind stage).NonNegative ↔ 0 ≤ stage := by
  constructor
  · intro h
    cases h
    assumption
  · exact .base

@[simp] theorem Ty.nonNegative_arrow {params : List Ty} {result : Ty} {stage : Int} :
    (Ty.arrow params result stage).NonNegative ↔
      0 ≤ stage ∧ (∀ param ∈ params, param.NonNegative) ∧ result.NonNegative := by
  constructor
  · intro h
    cases h with
    | arrow hstage hparams hresult => exact ⟨hstage, hparams, hresult⟩
  · rintro ⟨hstage, hparams, hresult⟩
    exact .arrow hstage hparams hresult

/-- No rule gives a type below stage zero if it is given none. -/
theorem Ty.nonNegative_kept : Ty.Kept Ty.NonNegative where
  base kind := .base (Int.le_refl 0)
  nonneg := by
    intro τ h
    cases h with
    | base hstage => exact hstage
    | arrow hstage _ _ => exact hstage
  shift := by
    intro τ amount h hstage
    cases h with
    | base _ => exact .base hstage
    | arrow _ hparams hresult => exact .arrow hstage hparams hresult
  function hparams hresult := .arrow (Int.le_refl 0) hparams hresult
  result h := (Ty.nonNegative_arrow.1 h).2.2

/-- The types and intrinsics of a prelude have no stage below zero. -/
structure Prelude.NonNegative (p : Prelude) : Prop where
  types : ∀ {name τ}, p.types.get? name = some τ → τ.NonNegative
  intrinsics : ∀ {name τ}, p.intrinsics.get? name = some τ → τ.NonNegative

/-- The preludes of both modes are made of base types of stage 0. -/
theorem Prelude.ofMode_nonNegative (mode : Mode) : (ofMode mode).NonNegative := by
  have htypes : ∀ entry ∈ (ofMode mode).types, entry.2.NonNegative := by
    cases mode <;> simp [ofMode, general, shader, Ty.int, Ty.float, Ty.string, Ty.void, Ty.prim]
  have hintrinsics : ∀ entry ∈ (ofMode mode).intrinsics, entry.2.NonNegative := by
    cases mode <;> simp [ofMode, general, shader, Ty.function, Ty.int, Ty.float, Ty.prim]
  constructor
  · intro name τ h
    exact htypes _ (Scope.mem_of_newest? h)
  · intro name τ h
    exact hintrinsics _ (Scope.mem_of_newest? h)

/-- A type that the checker can give to a node: no stage in it is below zero or too large for a word. -/
def Ty.Sound (τ : Ty) : Prop := τ.NonNegative ∧ τ.fits = true

theorem Ty.fitsAll_iff {types : List Ty} : fitsAll types = true ↔ ∀ τ ∈ types, τ.fits = true := by
  induction types with
  | nil => simp [fitsAll]
  | cons τ rest ih => simp [fitsAll, ih]

theorem Ty.stageFits_iff {stage : Int} : stageFits stage = true ↔ -2147483648 ≤ stage ∧ stage < 2147483648 := by
  simp [stageFits]

theorem Ty.fits_stage {τ : Ty} (h : τ.fits = true) : -2147483648 ≤ τ.stage ∧ τ.stage < 2147483648 := by
  cases τ with
  | base kind stage => exact stageFits_iff.1 h
  | arrow params result stage =>
    rw [fits, Bool.and_eq_true, Bool.and_eq_true] at h
    exact stageFits_iff.1 h.1.1

/-- A type that fits still does at another stage that fits. -/
theorem Ty.fits_shift {τ : Ty} {amount : Int} (h : τ.fits = true) (hlow : -2147483648 ≤ τ.stage + amount)
    (hhigh : τ.stage + amount < 2147483648) : (τ.shift amount).fits = true := by
  cases τ with
  | base kind stage => exact stageFits_iff.2 ⟨hlow, hhigh⟩
  | arrow params result stage =>
    rw [fits, Bool.and_eq_true, Bool.and_eq_true] at h
    rw [shift, fits, Bool.and_eq_true, Bool.and_eq_true]
    exact ⟨⟨stageFits_iff.2 ⟨hlow, hhigh⟩, h.1.2⟩, h.2⟩

/-- Fitting into words is closed under the rules. -/
theorem Ty.fits_closed : Ty.Closed fun τ => τ.fits = true where
  base kind := rfl
  lower := by
    intro τ h hcode
    have hstage := Ty.fits_stage h
    exact Ty.fits_shift h (by omega) (by omega)
  function := by
    intro params result hparams hresult
    rw [Ty.function, Ty.fits, Bool.and_eq_true, Bool.and_eq_true]
    exact ⟨⟨rfl, Ty.fitsAll_iff.2 hparams⟩, hresult⟩
  result := by
    intro params result h
    rw [Ty.function, Ty.fits, Bool.and_eq_true] at h
    exact h.2

theorem Ty.sound_closed : Ty.Closed Ty.Sound := Ty.nonNegative_kept.toClosed.and Ty.fits_closed

/-! ## Scopes -/

/-- Every name in scope, hidden ones included, has a property at the level where it is bound. -/
def Scope.Owns (P : Ty → Prop) (scope : Scope Binding) (level : Nat) : Prop :=
  ∀ frame ∈ scope.frames, ∀ entry ∈ frame, P (entry.2.own level)

namespace Scope.Owns

variable {P : Ty → Prop} {scope : Scope Binding} {level : Nat}

theorem lookup (h : scope.Owns P level) {name : String} {b : Binding} (hb : scope.lookup? name = some b) :
    P (b.own level) := by
  rcases List.exists_of_findSome?_eq_some hb with ⟨frame, hframe, hnewest⟩
  have hmem := List.mem_reverse.1 (Scope.mem_of_newest? hnewest)
  exact h frame hframe _ hmem

/-- Stages and levels move in opposite directions inside quotes and escapes. -/
theorem shift {amount : Int} {level' : Nat} (h : scope.Owns P level) (hlevel : (level' : Int) = level - amount) :
    (scope.shift amount).Owns P level' := by
  intro frame hframe entry hentry
  rcases List.mem_map.1 hframe with ⟨frame', hframe', rfl⟩
  rcases List.mem_map.1 hentry with ⟨⟨name, b⟩, hb, rfl⟩
  have hown : (b.shift amount).own level' = b.own level := by
    simp only [Binding.own, Binding.shift, Ty.shift_shift, hlevel]
    congr 1
    omega
  have := h frame' hframe' _ hb
  rw [← hown] at this
  exact this

/-- New names have the property at the level where they are bound. -/
theorem extendAll (h : scope.Owns P level) {bound : List (String × Ty)} (hbound : ∀ b ∈ bound, P b.2) :
    (scope.extendAll (bound.map fun b => (b.1, ⟨b.2, level⟩))).Owns P level := by
  refine List.forall_mem_cons.2 ⟨List.forall_mem_map.2 fun b hb => ?_, h⟩
  rw [Binding.own_self]
  exact hbound b hb

/-- What the invariant says in numbers. -/
theorem stage (h : scope.Owns Ty.Sound level) :
    ∀ frame ∈ scope.frames, ∀ entry ∈ frame, 0 ≤ entry.2.type.stage + level - entry.2.level := by
  intro frame hframe entry hentry
  have hown := Ty.nonNegative_kept.nonneg (h frame hframe entry hentry).1
  rw [Binding.own, Ty.stage_shift] at hown
  omega

end Scope.Owns

/-- A property of scopes at a level under which every name has a sound type where it is bound, and which is kept
inside quotes and escapes and by new names. -/
structure Scope.Kept (I : Scope Binding → Nat → Prop) : Prop where
  lookup : ∀ {scope level name b}, I scope level → scope.lookup? name = some b → (b.own level).Sound
  shift : ∀ {scope : Scope Binding} {level level' : Nat} {amount : Int}, I scope level →
    (level' : Int) = level - amount → I (scope.shift amount) level'
  extendAll : ∀ {scope : Scope Binding} {level : Nat} {bound : List (String × Ty)}, I scope level →
    (∀ b ∈ bound, b.2.Sound) → I (scope.extendAll (bound.map fun b => (b.1, ⟨b.2, level⟩))) level

theorem Scope.Kept.extend {I : Scope Binding → Nat → Prop} (hI : Scope.Kept I) {scope : Scope Binding} {level : Nat}
    {τ : Ty} (h : I scope level) (hτ : τ.Sound) (name : String) : I (scope.extend name ⟨τ, level⟩) level := by
  have hbound : ∀ b ∈ [(name, τ)], b.2.Sound := List.forall_mem_singleton.2 hτ
  exact hI.extendAll h hbound

theorem Scope.owns_kept : Scope.Kept (Scope.Owns Ty.Sound) where
  lookup h hb := h.lookup hb
  shift h hlevel := h.shift hlevel
  extendAll h hbound := h.extendAll hbound

theorem Scope.ownTypes_kept : Scope.Kept (Scope.OwnTypes Ty.Sound) where
  lookup h hb := h _ _ hb
  shift h hlevel := h.shift hlevel
  extendAll h hbound := h.extendAll hbound

/-! ## Giving up or agreeing -/

section Narrow

variable {α β : Type} {P : α → Prop} {R : β → Prop}

/-- `x` gives up, or it ends as `y` does, and what `y` gives has a property. -/
def Narrow (P : α → Prop) (x : Except Obstacle α) (y : Except Fault α) : Prop :=
  x = .error .exhausted ∨ x = y.mapError .fault ∧ ∀ a, y = .ok a → P a

theorem narrow_ok {a : α} (h : P a) : Narrow P (.ok a) (.ok a) :=
  .inr ⟨rfl, fun _ heq => Except.ok.inj heq ▸ h⟩

theorem narrow_error (fault : Fault) : Narrow P (.error (.fault fault)) (.error fault) := by
  refine .inr ⟨rfl, ?_⟩
  intro a ha
  cases ha

/-- A rule that moves no stages. -/
theorem narrow_rule {y : Except Fault α} (h : ∀ a, y = .ok a → P a) : Narrow P (liftM y : Except Obstacle α) y :=
  .inr ⟨rfl, h⟩

/-- Two steps in words are steps without bounds, or give up. -/
theorem Narrow.bind {x : Except Obstacle α} {y : Except Fault α} {g : α → Except Obstacle β}
    {h : α → Except Fault β} (hx : Narrow P x y) (hg : ∀ a, P a → Narrow R (g a) (h a)) :
    Narrow R (x >>= g) (y >>= h) := by
  rcases hx with rfl | ⟨rfl, hP⟩
  · exact .inl rfl
  · cases y with
    | error fault => exact narrow_error fault
    | ok a => exact hg a (hP a rfl)

/-- What `x` gives has the property. -/
theorem Narrow.of_ok {x : Except Obstacle α} {y : Except Fault α} {a : α} (h : Narrow P x y) (hx : x = .ok a) :
    P a := by
  rcases h with rfl | ⟨rfl, hP⟩
  · cases hx
  · cases y with
    | error fault => cases hx
    | ok b =>
      cases hx
      exact hP a rfl

/-- A type that is admitted fits. -/
theorem narrow_type {τ : Ty} (h : τ.NonNegative) : Narrow Ty.Sound (Counting.word.type τ) (.ok τ) := by
  by_cases hfits : τ.fits = true
  · rw [Counting.word_type, if_pos hfits]
    exact narrow_ok ⟨h, hfits⟩
  · rw [Counting.word_type, if_neg hfits]
    exact .inl rfl

/-- A context is admitted or it is not. -/
theorem narrow_context (c : Context) : Narrow (· = c) (Counting.word.context c) (.ok c) := by
  by_cases hfits : c.fits = true
  · rw [Counting.word_context, if_pos hfits]
    exact narrow_ok rfl
  · rw [Counting.word_context, if_neg hfits]
    exact .inl rfl

end Narrow

/-! ## The rules that move stages -/

section Rules

variable {p : Prelude} {node : NodeId}

/-- The levels between a name and its binding wrap around only where the type that results has no place in a
word. -/
theorem Binding.gap_eq_or {b : Binding} {level : Nat} (h : (b.own level).Sound) (hlevel : b.level < level) :
    Counting.word.gap b.level level = level - b.level ∨
      ¬ (b.type.shift (Counting.word.gap b.level level)).fits = true := by
  have hnonneg := Ty.nonNegative_kept.nonneg h.1
  have hfits := (Ty.fits_stage h.2).2
  rw [Binding.own, Ty.stage_shift] at hnonneg hfits
  rw [or_iff_not_imp_right, Decidable.not_not]
  intro hshift
  have hstage := (Ty.fits_stage hshift).1
  rw [Ty.stage_shift] at hstage
  -- the two numbers differ by a multiple of the size of a word, and both lead to a stage in one
  rw [Counting.word_gap, Int.bmod_def, UInt32.size] at hstage ⊢
  split at hstage
  · rename_i hsmall
    rw [if_pos hsmall]
    omega
  · rename_i hlarge
    rw [if_neg hlarge]
    omega

/-- A name has the type that it was bound with, or the checker gives up. -/
theorem narrow_lookup {c : Context} (hp : p.NonNegative) {name : String}
    (hc : ∀ b, c.scope.lookup? name = some b → (b.own c.level).Sound) :
    Narrow Ty.Sound (p.lookupWith .word c node name) (p.lookupRule c node name) := by
  cases hbound : c.scope.lookup? name with
  | none =>
    -- an intrinsic, or no such name
    rw [Prelude.lookupRule_unbound hbound, Prelude.lookupWith, hbound]
    dsimp only
    split
    · exact narrow_type (hp.intrinsics ‹_›)
    · exact narrow_error _
  | some b =>
    have hown := hc b hbound
    rw [Prelude.lookupRule_bound hbound, Prelude.lookupWith, hbound]
    dsimp only
    by_cases hlevel : b.level < c.level
    · rw [if_pos hlevel, if_pos hlevel]
      -- bound under fewer quotes, so the type moves further down and may be lost
      rcases Binding.gap_eq_or hown hlevel with hgap | hlost
      · rw [hgap]
        exact narrow_type hown.1
      · rw [Counting.word_type, if_neg hlost]
        exact .inl rfl
    · -- bound under no fewer quotes, so the stage of the name is no further down than where it is bound
      rw [if_neg hlevel, if_neg hlevel]
      have hback : b.type = (b.own c.level).shift (b.level - c.level) := by
        rw [Binding.own, Ty.shift_shift]
        have hzero : (c.level : Int) - b.level + (b.level - c.level) = 0 := by omega
        rw [hzero, Ty.shift_zero]
      have hnonneg := Ty.nonNegative_kept.nonneg hown.1
      refine narrow_type ?_
      rw [hback]
      exact Ty.nonNegative_kept.shift hown.1 (by omega)

mutual
/-- An annotation stands for the type that it stands for without a bound, or the checker gives up. -/
theorem narrow_resolve (hp : p.NonNegative) (written : TypeExpr) :
    Narrow Ty.Sound (p.resolveWith Counting.word.type node written) (p.resolve node written) := by
  match written with
  | .named name =>
    rw [Prelude.resolveWith, Prelude.resolve_named]
    split
    · exact narrow_type (hp.types ‹_›)
    · exact narrow_error _
  | .code inner =>
    rw [Prelude.resolveWith, Prelude.resolve_code]
    exact (narrow_resolve hp inner).bind fun τ hτ => narrow_type (Ty.nonNegative_kept.quote hτ.1)
  | .arrow params result =>
    rw [Prelude.resolveWith, Prelude.resolve_arrow]
    exact (narrow_resolveAll hp params).bind fun types htypes =>
      (narrow_resolve hp result).bind fun τ hτ => narrow_ok (Ty.sound_closed.function htypes hτ)

/-- Written types are resolved in words as without bounds, or words are too small. -/
theorem narrow_resolveAll (hp : p.NonNegative) (written : List TypeExpr) :
    Narrow (fun types => ∀ τ ∈ types, τ.Sound) (p.resolveAllWith Counting.word.type node written)
      (p.resolveAll node written) := by
  match written with
  | [] =>
    rw [Prelude.resolveAllWith, Prelude.resolveAll_nil]
    exact narrow_ok (by simp)
  | first :: rest =>
    rw [Prelude.resolveAllWith, Prelude.resolveAll_cons]
    exact (narrow_resolve hp first).bind fun τ hτ => (narrow_resolveAll hp rest).bind fun types htypes =>
      narrow_ok (List.forall_mem_cons.2 ⟨hτ, htypes⟩)
end

/-- So are the types of parameters. -/
theorem narrow_params (hp : p.NonNegative) (params : List Param) :
    Narrow (fun bound => ∀ b ∈ bound, b.2.Sound) (p.paramsWith .word node params) (p.paramRule node params) := by
  rw [Prelude.paramRule, Prelude.paramsWith, Prelude.paramsWith]
  induction params with
  | nil => exact narrow_ok (by simp)
  | cons param rest ih =>
    rw [List.mapM_cons, List.mapM_cons]
    refine Narrow.bind (P := fun b => b.2.Sound) ?_ fun b hb => ih.bind fun bound hbound =>
      narrow_ok (List.forall_mem_cons.2 ⟨hb, hbound⟩)
    cases param.type with
    | none => exact narrow_ok (Ty.sound_closed.base .int)
    | some written => exact (narrow_resolve hp written).bind fun τ hτ => narrow_ok hτ

end Rules

/-! ## The walk of the checker -/

/-- A node that the checker has judged, with the context that it has come to it in. -/
structure Visited where
  context : Context
  term : Term
  judgement : Judgement

namespace Visited

/-- At a node the types are in order: that of the node itself, and those of the names in scope before and after
it. -/
structure Sound (I : Scope Binding → Nat → Prop) (v : Visited) : Prop where
  before : I v.context.scope v.context.level
  type : v.judgement.type.Sound
  after : I v.judgement.scope v.context.level

/-- The nodes that have been visited, with their levels. -/
def levels (visits : List Visited) : List (Int × Term) := visits.map fun v => (v.context.level, v.term)

/-- The state that visits lead to, one after another. -/
def replay {σ : Type} (f : Term → Context → Judgement → σ → σ) (visits : List Visited) (s : σ) : σ :=
  visits.foldl (fun s v => f v.term v.context v.judgement s) s

end Visited

section Walk

variable {I : Scope Binding → Nat → Prop} {σ α β : Type} {f : Term → Context → Judgement → σ → σ}
variable {P : α → Prop} {R : β → Prop} {nodes more : List (Int × Term)}

/-- Visits to `nodes`, in some order, lead from one state to another, and the types are in order at all of them. -/
def Passes (I : Scope Binding → Nat → Prop) (f : Term → Context → Judgement → σ → σ) (nodes : List (Int × Term))
    (s s' : σ) : Prop :=
  ∃ visits, s' = Visited.replay f visits s ∧ (Visited.levels visits).Perm nodes ∧ ∀ v ∈ visits, v.Sound I

theorem passes_nil (s : σ) : Passes I f [] s s := ⟨[], rfl, .nil, by simp⟩

/-- Two runs through nodes are one run. -/
theorem Passes.append {s s₁ s₂ : σ} (h : Passes I f nodes s s₁) (h' : Passes I f more s₁ s₂) :
    Passes I f (nodes ++ more) s s₂ := by
  rcases h with ⟨visits, rfl, hnodes, hsound⟩
  rcases h' with ⟨visits', rfl, hmore, hsound'⟩
  refine ⟨visits ++ visits', ?_, ?_, List.forall_mem_append.2 ⟨hsound, hsound'⟩⟩
  · rw [Visited.replay, Visited.replay, Visited.replay, List.foldl_append]
  · rw [Visited.levels, List.map_append]
    exact hnodes.append hmore

/-- A node is judged after the nodes below it. -/
theorem Passes.visit {s s' : σ} (h : Passes I f nodes s s') {v : Visited} (hv : v.Sound I) :
    Passes I f ((v.context.level, v.term) :: nodes) s (f v.term v.context v.judgement s') := by
  rcases h with ⟨visits, rfl, hnodes, hsound⟩
  refine ⟨visits ++ [v], ?_, ?_, List.forall_mem_append.2 ⟨hsound, List.forall_mem_singleton.2 hv⟩⟩
  · rw [Visited.replay, Visited.replay, List.foldl_append]
    rfl
  · rw [Visited.levels, List.map_append]
    exact (List.perm_append_singleton _ _).trans (hnodes.cons _)

/-- From every state, `x` gives up, or it ends as `y` does and what it gives has a property. On the way it has
visited `nodes`, and the types at them are in order. -/
def Narrows (I : Scope Binding → Nat → Prop) (f : Term → Context → Judgement → σ → σ) (P : α → Prop)
    (nodes : List (Int × Term)) (x : StateT σ (Except Obstacle) α) (y : StateT σ (Except Fault) α) : Prop :=
  ∀ s, Narrow (fun r => P r.1 ∧ Passes I f nodes s r.2) (x.run s) (y.run s)

theorem narrows_pure {a : α} (h : P a) : Narrows I f P [] (pure a) (pure a) :=
  fun s => narrow_ok ⟨h, passes_nil s⟩

/-- A rule visits no node. -/
theorem narrows_rule {x : Except Obstacle α} {y : Except Fault α} (h : Narrow P x y) :
    Narrows I f P [] (liftM x) (liftM y) :=
  fun s => h.bind fun _ ha => narrow_ok ⟨ha, passes_nil s⟩

/-- Two recorded steps in words are steps without bounds, or give up after some of the nodes. -/
theorem Narrows.bind {x : StateT σ (Except Obstacle) α} {y : StateT σ (Except Fault) α}
    {g : α → StateT σ (Except Obstacle) β} {h : α → StateT σ (Except Fault) β} (hx : Narrows I f P nodes x y)
    (hg : ∀ a, P a → Narrows I f R more (g a) (h a)) : Narrows I f R (nodes ++ more) (x >>= g) (y >>= h) := by
  intro s
  rw [StateT.run_bind, StateT.run_bind]
  refine (hx s).bind fun r hr => ?_
  rcases hg r.1 hr.1 r.2 with hexhausted | ⟨hagrees, hafter⟩
  · exact .inl hexhausted
  · refine .inr ⟨hagrees, fun r' hr' => ?_⟩
    exact ⟨(hafter r' hr').1, hr.2.append (hafter r' hr').2⟩

theorem Narrows.of_eq {nodes' : List (Int × Term)} {x : StateT σ (Except Obstacle) α}
    {y : StateT σ (Except Fault) α} (h : Narrows I f P nodes x y) (heq : nodes = nodes') : Narrows I f P nodes' x y :=
  heq ▸ h

/-- The judgement of a node and the scope after it are in order. -/
def Judgement.Sound (I : Scope Binding → Nat → Prop) (level : Nat) (j : Judgement) : Prop :=
  j.type.Sound ∧ I j.scope level

/-- Recording a node whose judgement is in order. -/
theorem Narrows.recording {c : Context} {x : StateT σ (Except Obstacle) Judgement}
    {y : StateT σ (Except Fault) Judgement} (h : Narrows I f (Judgement.Sound I c.level) nodes x y)
    (hc : I c.scope c.level) (t : Term) :
    Narrows I f (Judgement.Sound I c.level) ((c.level, t) :: nodes) (recording f t c x) (recording f t c y) := by
  intro s
  rw [Multistage.recording, Multistage.recording, StateT.run_bind, StateT.run_bind]
  refine (h s).bind fun r hr => narrow_ok ⟨hr.1, ?_⟩
  exact hr.2.visit (v := ⟨c, t, r.1⟩) ⟨hc, hr.1.1, hr.1.2⟩

variable {p : Prelude}

/-- Arguments are judged in words as without bounds, or words are too small. -/
theorem narrows_judgeAll {ts : List Term} {c : Context}
    (ih : ∀ t ∈ ts, Narrows I f (Judgement.Sound I c.level) (t.nodesAt c.level) (p.judge .word (recording f) t c)
      (p.judge .unbounded (recording f) t c)) :
    Narrows I f (fun _ => True) (ts.flatMap fun t => t.nodesAt c.level)
      (p.judgeAll .word (recording f) ts c : StateT σ (Except Obstacle) (List Ty))
      (p.judgeAll .unbounded (recording f) ts c : StateT σ (Except Fault) (List Ty)) := by
  induction ts with
  | nil => exact narrows_pure trivial
  | cons t rest ihrest =>
    have hhead := ih t List.mem_cons_self
    have htail := ihrest fun u hu => ih u (List.mem_cons_of_mem _ hu)
    refine (hhead.bind fun j _ => htail.bind fun types _ => narrows_pure trivial).of_eq ?_
    rw [List.append_nil, List.flatMap_cons]

/-- **The walk in words gives up or is the unbounded one**, rule by rule, and the types on the way are in order. -/
theorem narrows_judge (hI : Scope.Kept I) (hp : p.NonNegative) (t : Term) {c : Context}
    (hc : I c.scope c.level) :
    Narrows I f (Judgement.Sound I c.level) (t.nodesAt c.level) (p.judge .word (recording f) t c)
      (p.judge .unbounded (recording f) t c) := by
  have closed := Ty.sound_closed
  induction t generalizing c with
  | literal site value =>
    rw [Prelude.judge_literal, Prelude.judge_literal, Term.nodesAt_eq]
    exact (narrows_pure ⟨closed.literal value, hc⟩).recording hc _
  | seq site lhs rhs ihl ihr =>
    rw [Prelude.judge_seq, Prelude.judge_seq, Term.nodesAt_eq]
    -- the second part is judged in the scope after the first one
    have hr : ∀ first : Judgement, first.Sound I c.level →
        Narrows I f (Judgement.Sound I c.level) (rhs.nodesAt c.level)
          (p.judge .word (recording f) rhs (c.withScope first.scope))
          (p.judge .unbounded (recording f) rhs (c.withScope first.scope)) :=
      fun first hfirst => ihr (c := c.withScope first.scope) hfirst.2
    refine (((ihl hc).bind hr).recording hc _).of_eq ?_
    simp [Term.children, Term.levelBelow]
  | define site name value ih =>
    rw [Prelude.judge_define, Prelude.judge_define, Term.nodesAt_eq]
    -- the definition extends the scope after its value
    refine (((ih hc).bind fun j hj => narrows_pure ⟨hj.1, hI.extend hj.2 hj.1 name⟩).recording hc _).of_eq ?_
    simp [Term.children, Term.levelBelow]
  | assign site name value ih =>
    rw [Prelude.judge_assign, Prelude.judge_assign, Term.nodesAt_eq]
    refine (((ih hc).bind fun j hj => (narrows_rule (narrow_rule fun _ _ => trivial)).bind fun _ _ =>
      narrows_pure hj).recording hc _).of_eq ?_
    simp [Term.children, Term.levelBelow]
  | lookup site name =>
    rw [Prelude.judge_lookup, Prelude.judge_lookup_unbounded, Term.nodesAt_eq]
    -- the checker may give up on the type of the name
    exact ((narrows_rule (narrow_lookup hp fun b hb => hI.lookup hc hb)).bind fun τ hτ =>
      narrows_pure ⟨hτ, hc⟩).recording hc _
  | unary site op operand ih =>
    rw [Prelude.judge_unary, Prelude.judge_unary, Term.nodesAt_eq]
    refine (((ih hc).bind fun j hj =>
      (narrows_rule (narrow_rule fun τ hτ => unaryRule_eq_ok hτ ▸ hj.1)).bind fun τ hτ =>
        narrows_pure ⟨hτ, hc⟩).recording hc _).of_eq ?_
    simp [Term.children, Term.levelBelow]
  | binary site op lhs rhs ihl ihr =>
    rw [Prelude.judge_binary, Prelude.judge_binary, Term.nodesAt_eq]
    have hr : ∀ first : Judgement, first.Sound I c.level →
        Narrows I f (Judgement.Sound I c.level) (rhs.nodesAt c.level)
          (p.judge .word (recording f) rhs (c.withScope first.scope))
          (p.judge .unbounded (recording f) rhs (c.withScope first.scope)) :=
      fun first hfirst => ihr (c := c.withScope first.scope) hfirst.2
    refine (((ihl hc).bind fun first hfirst => (hr first hfirst).bind fun second hsecond =>
      (narrows_rule (narrow_rule fun τ hτ => closed.binaryRule hτ hfirst.1 hsecond.1)).bind fun τ hτ =>
        narrows_pure ⟨hτ, hc⟩).recording hc _).of_eq ?_
    simp [Term.children, Term.levelBelow]
  | quote site label snippet body ih =>
    -- the context inside and the type of the quote may be too much for words
    rw [Prelude.judge_quote, Prelude.judge_quote, Term.nodesAt_eq]
    have hlevel : (c.quoted.level : Int) = c.level - (-1) := by
      simp [Context.quoted]
    have hbody : ∀ inside, inside = c.quoted → Narrows I f (Judgement.Sound I c.quoted.level)
        (body.nodesAt c.quoted.level) (p.judge .word (recording f) body inside)
        (p.judge .unbounded (recording f) body inside) := by
      rintro _ rfl
      exact ih (hI.shift hc hlevel)
    refine (((narrows_rule (narrow_context c.quoted)).bind fun inside hinside =>
      (hbody inside hinside).bind fun j hj =>
        (narrows_rule (narrow_type (Ty.nonNegative_kept.quote hj.1.1))).bind fun τ hτ =>
          narrows_pure ⟨hτ, hc⟩).recording hc _).of_eq ?_
    simp [Term.children, Term.levelBelow, Context.quoted]
  | escape site kind body ih =>
    rw [Prelude.judge_escape, Prelude.judge_escape]
    by_cases htop : c.level = 0
    · -- there is no node to visit below an escape that fails
      rw [if_pos htop, if_pos htop]
      intro s
      exact narrow_error _
    · -- only the context outside may be too much for words: the escape has a type further down
      rw [if_neg htop, if_neg htop, Term.nodesAt_eq]
      have hlevel : (c.escaped.level : Int) = c.level - 1 := by
        simp only [Context.escaped]
        omega
      have hbody : ∀ outside, outside = c.escaped → Narrows I f (Judgement.Sound I c.escaped.level)
          (body.nodesAt c.escaped.level) (p.judge .word (recording f) body outside)
          (p.judge .unbounded (recording f) body outside) := by
        rintro _ rfl
        exact ih (hI.shift hc hlevel)
      refine (((narrows_rule (narrow_context c.escaped)).bind fun outside houtside =>
        (hbody outside houtside).bind fun j hj =>
          (narrows_rule (narrow_rule fun τ hτ => closed.escapeRule hτ hj.1)).bind fun τ hτ =>
            narrows_pure ⟨hτ, hc⟩).recording hc _).of_eq ?_
      simp [Term.children, Term.levelBelow, hlevel]
  | run site body ih =>
    rw [Prelude.judge_run, Prelude.judge_run, Term.nodesAt_eq]
    refine (((ih hc).bind fun j hj =>
      (narrows_rule (narrow_rule fun τ hτ => closed.runRule hτ hj.1)).bind fun τ hτ =>
        narrows_pure ⟨hτ, hj.2⟩).recording hc _).of_eq ?_
    simp [Term.children, Term.levelBelow]
  | lambda site params body ih =>
    rw [Prelude.judge_lambda, Prelude.judge_lambda_unbounded, Term.nodesAt_eq]
    -- the checker may give up on the annotations of parameters, before the body
    have hbody : ∀ types : List (String × Ty), (∀ b ∈ types, b.2.Sound) →
        Narrows I f (Judgement.Sound I c.level) (body.nodesAt c.level)
          (p.judge .word (recording f) body (c.withScope (c.bindAll types)))
          (p.judge .unbounded (recording f) body (c.withScope (c.bindAll types))) :=
      fun types htypes => ih (c := c.withScope (c.bindAll types)) (hI.extendAll hc htypes)
    refine (((narrows_rule (narrow_params hp params)).bind fun types htypes =>
      (hbody types htypes).bind fun j hj =>
        narrows_pure ⟨closed.function (List.forall_mem_map.2 htypes) hj.1, hc⟩).recording hc _).of_eq ?_
    simp [Term.children, Term.levelBelow]
  | call site callee args ihf iha =>
    rw [Prelude.judge_call, Prelude.judge_call, Term.nodesAt_eq]
    refine (((ihf hc).bind fun j hj => (narrows_judgeAll fun t ht => iha t ht hc).bind fun types _ =>
      (narrows_rule (narrow_rule fun τ hτ => closed.callRule hτ hj.1)).bind fun τ hτ =>
        narrows_pure ⟨hτ, hc⟩).recording hc _).of_eq ?_
    simp [Term.children, Term.levelBelow]
  | host site name written =>
    rw [Prelude.judge_host, Prelude.judge_host_unbounded, Term.nodesAt_eq]
    -- likewise on the annotation of a host definition
    exact ((narrows_rule (narrow_resolve hp written)).bind fun τ hτ =>
      narrows_pure ⟨hτ, hI.extend hc hτ name⟩).recording hc _
  | held site index =>
    rw [Prelude.judge_held, Prelude.judge_held, Term.nodesAt_eq]
    exact (narrows_rule (narrow_error _)).recording hc _

/-! ## Whole programs -/

/-- The walk through a whole program. -/
theorem narrows_program (hp : p.NonNegative) (t : Term) :
    Narrows (Scope.Owns Ty.Sound) f (Judgement.Sound (Scope.Owns Ty.Sound) 0) (t.nodesAt 0)
      (p.judge .word (recording f) t {}) (p.judge .unbounded (recording f) t {}) := by
  refine narrows_judge Scope.owns_kept hp t ?_
  intro frame hframe
  cases hframe

/-- Where the walk in words succeeds, it visits all nodes, and the types are in order there. -/
theorem passes_of_run (hp : p.NonNegative) {t : Term} {j : Judgement} {s s' : σ}
    (h : (p.judge .word (recording f) t {} : StateT σ (Except Obstacle) Judgement).run s = .ok (j, s')) :
    Passes (Scope.Owns Ty.Sound) f (t.nodesAt 0) s s' :=
  ((narrows_program hp t s).of_ok h).2

end Walk

/-- **In words the elaborator gives up or is the unbounded one**, with the same table or the same fault, if the
prelude has no stage below zero. -/
theorem elaborate32_eq {p : Prelude} (hp : p.NonNegative) (t : Term) :
    p.elaborate32 t = .error .exhausted ∨ p.elaborate32 t = (p.elaborate t).mapError .fault := by
  rw [Prelude.elaborate32, Prelude.elaborate, elaborateWith_eq, elaborateWith_eq]
  have hwalk := narrows_program (f := fun t _ j (table : TypeTable) => table.insert t.id j) hp t {}
  have hboth := hwalk.bind (R := fun _ => True) fun r _ => narrow_ok (a := (⟨t, r.2⟩ : Elaboration)) trivial
  exact hboth.imp_right And.left

/-- The walk of the checker in words, which lists the nodes that it has judged. -/
def Prelude.observe32 (p : Prelude) (t : Term) (c : Context) : StateT (List Visited) (Except Obstacle) Judgement :=
  p.judge .word (recording fun t c j visits => visits ++ [⟨c, t, j⟩]) t c

theorem Visited.replay_list (visits before : List Visited) :
    replay (fun t c j visits => visits ++ [⟨c, t, j⟩]) visits before = before ++ visits := by
  induction visits generalizing before with
  | nil => simp [replay]
  | cons v rest ih =>
    have hrest := ih (before ++ [v])
    rw [List.append_assoc] at hrest
    exact hrest

theorem Visited.replay_table (visits : List Visited) :
    replay (fun t _ j (table : TypeTable) => table.insert t.id j) visits {} =
      Table.ofList (visits.map fun v => (v.term.id, v.judgement)) := by
  rw [replay, Table.ofList, Table.insertAll, List.foldl_map]
  rfl

/-- **No node has a stage below zero.** Let the types and intrinsics of a prelude have no stage below zero, and let
a program elaborate. Then every type in the table has no stage below zero, at its root, in its parameters and in its
results. The checker comes to every node once, at the level where it stands. Neither has the type that it gives to a
node a stage below zero, and a name of stage `s` and binding level `b` in the scope before or after the node has
`s + l - b ≥ 0` at the level `l` of the node. -/
theorem stages_nonnegative (p : Prelude) (t : Term) (e : Elaboration) (hp : p.NonNegative)
    (he : p.elaborate32 t = .ok e) :
    (∀ id k, e.table.get? id = some k → k.type.NonNegative) ∧
    ∃ j visits, (p.observe32 t {}).run [] = .ok (j, visits) ∧ (Visited.levels visits).Perm (t.nodesAt 0) ∧
      ∀ v ∈ visits, v.judgement.type.NonNegative ∧
        (∀ frame ∈ v.context.scope.frames, ∀ entry ∈ frame,
          0 ≤ entry.2.type.stage + v.context.level - entry.2.level) ∧
        ∀ frame ∈ v.judgement.scope.frames, ∀ entry ∈ frame,
          0 ≤ entry.2.type.stage + v.context.level - entry.2.level := by
  rw [Prelude.elaborate32, elaborateWith_eq] at he
  rcases Except.bind_eq_ok.1 he with ⟨⟨j, table⟩, hrun, htable⟩
  cases htable
  refine ⟨?_, ?_⟩
  · -- an entry of the table is the judgement of a node that was visited
    intro id k hk
    rcases passes_of_run hp hrun with ⟨visits, rfl, -, hsound⟩
    rw [Visited.replay_table] at hk
    rcases List.mem_map.1 (Table.mem_of_get?_ofList hk) with ⟨v, hv, heq⟩
    cases heq
    exact (hsound v hv).type.1
  · -- the walk is the same whatever it records
    have hcheck := (judge_forgets _ .word p t {}).of_ok hrun
    obtain ⟨visits, hvisits⟩ : ∃ visits, (p.observe32 t {}).run [] = .ok (j, visits) :=
      (judge_forgets _ .word p t {}).exists_run hcheck []
    rcases passes_of_run hp hvisits with ⟨visits', heq, hlevels, hsound⟩
    rw [Visited.replay_list, List.nil_append] at heq
    subst heq
    refine ⟨j, visits, hvisits, hlevels, fun v hv => ?_⟩
    exact ⟨(hsound v hv).type.1, (hsound v hv).before.stage, (hsound v hv).after.stage⟩

/-- In `let x = 2; < let y = x; < x + y > >` the stage of `x` goes down to -2 inside the inner quote, and all nodes
have types of stage 0 or above. -/
theorem stages_nonnegative_crossing : ∃ e j visits,
    Prelude.general.elaborate32 crossingTerm = .ok e ∧
      (Prelude.general.observe32 crossingTerm {}).run [] = .ok (j, visits) ∧
      (visits.filterMap fun v => (v.context.scope.lookup? "x").map fun b =>
        (v.term.id, v.context.level, b.type.stage)) =
        [(6, 1, -1), (5, 1, -1), (9, 2, -2), (10, 2, -2), (8, 2, -2), (7, 1, -1), (4, 1, -1), (3, 0, 0)] ∧
      (∀ id k, e.table.get? id = some k → k.type.NonNegative) ∧
      ∀ v ∈ visits, ∀ frame ∈ v.context.scope.frames, ∀ entry ∈ frame,
        0 ≤ entry.2.type.stage + v.context.level - entry.2.level := by
  obtain ⟨e, he⟩ : ∃ e, Prelude.general.elaborate32 crossingTerm = .ok e := ⟨_, rfl⟩
  obtain ⟨j, visits, hrun, hstages⟩ : ∃ j visits,
      (Prelude.general.observe32 crossingTerm {}).run [] = .ok (j, visits) ∧
        (visits.filterMap fun v => (v.context.scope.lookup? "x").map fun b =>
          (v.term.id, v.context.level, b.type.stage)) =
          [(6, 1, -1), (5, 1, -1), (9, 2, -2), (10, 2, -2), (8, 2, -2), (7, 1, -1), (4, 1, -1), (3, 0, 0)] :=
    ⟨_, _, rfl, by decide +kernel⟩
  obtain ⟨htypes, j', visits', hrun', -, hnodes⟩ :=
    stages_nonnegative Prelude.general crossingTerm e (Prelude.ofMode_nonNegative .general) he
  cases hrun.symm.trans hrun'
  exact ⟨e, j, visits, he, hrun, hstages, htypes, fun v hv => (hnodes v hv).2.1⟩

end Multistage
