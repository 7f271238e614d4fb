import Multistage.Proofs.UnitRecords

/-!
# What can fail when a program is split into units

The walk stops only at an escape outside all quotes, and after the walk only a misuse of snippets is found: the
record of the main procedure is never lost.

Main statement: `Blueprint.ofTerm_cases`, a program whose escapes are all inside quotes is split or misuses
a snippet.
-/

namespace Multistage

/-! ## The walk -/

namespace Surveying

section Succeeds

variable {α β : Type} {x : Surveying α}

/-- A walk that does not fail, whatever has been found before. -/
def Succeeds (x : Surveying α) : Prop := ∀ s, ∃ r, x.run s = .ok r

theorem succeeds_pure (a : α) : Succeeds (pure a) := by
  intro s
  exact ⟨(a, s), rfl⟩

theorem succeeds_modify (change : Survey → Survey) : Succeeds (modify change) := by
  intro s
  exact ⟨(PUnit.unit, change s), rfl⟩

theorem Succeeds.bind {g : α → Surveying β} (hx : Succeeds x) (hg : ∀ a, Succeeds (g a)) :
    Succeeds (x >>= g) := by
  intro s
  rcases hx s with ⟨⟨a, s₁⟩, hrun⟩
  rcases hg a s₁ with ⟨r, hnext⟩
  exact ⟨r, by rw [StateT.run_bind, hrun]; exact hnext⟩

end Succeeds

variable {t : Term} {position : Position}

theorem succeeds_resolve (position : Position) (user : NodeId) (name : String) (scope : Scope NodeId) :
    Succeeds (resolve position user name scope) := by
  unfold resolve
  cases scope.lookup? name with
  | none => exact succeeds_pure none
  | some definition => exact (succeeds_modify _).bind fun _ => succeeds_pure _

theorem succeeds_defineAll (home : Home) (params : List Param) :
    Succeeds (forIn params PUnit.unit fun param _ => do
      modify (Survey.define home param.id)
      pure (ForInStep.yield PUnit.unit)) := by
  induction params with
  | nil => exact succeeds_pure _
  | cons param rest ih =>
    rw [List.forIn_cons, bind_assoc]
    exact (succeeds_modify _).bind fun _ => ih

theorem succeeds_walkAll {ts : List Term} (h : ∀ t ∈ ts, ∀ scope, Succeeds (walk t position scope))
    (scope : Scope NodeId) : Succeeds (walkAll ts position scope) := by
  induction ts with
  | nil => exact succeeds_pure ()
  | cons t rest ih =>
    rcases List.forall_mem_cons.1 h with ⟨hhead, htail⟩
    rw [walkAll]
    exact (hhead scope).bind fun _ => ih htail

/-- The walk succeeds where escapes are inside quotes. By induction over the term, with as many open fragments as
quotes are counted. -/
theorem succeeds_walk (h : t.EscapesInside position.fragments.length) (scope : Scope NodeId) :
    Succeeds (walk t position scope) := by
  induction t generalizing position scope with
  | literal | held =>
    rw [walk]
    exact succeeds_pure scope
  | seq site lhs rhs ihl ihr =>
    -- both parts stand under as many quotes as the whole
    have hl : lhs.EscapesInside position.fragments.length := h.child List.mem_cons_self
    have hr : rhs.EscapesInside position.fragments.length := h.child (List.mem_cons_of_mem _ List.mem_cons_self)
    rw [walk]
    exact (ihl hl scope).bind fun inner => ihr hr inner
  | define site name value ih =>
    have hvalue : value.EscapesInside position.fragments.length := h.child List.mem_cons_self
    rw [walk]
    refine (ih hvalue scope).bind fun _ => (succeeds_modify _).bind fun _ => ?_
    cases value.snippet? with
    | none => exact succeeds_pure _
    | some snippet => exact (succeeds_modify _).bind fun _ => succeeds_pure _
  | assign site name value ih =>
    have hvalue : value.EscapesInside position.fragments.length := h.child List.mem_cons_self
    rw [walk]
    refine (ih hvalue scope).bind fun _ => (succeeds_resolve _ _ _ _).bind fun definition => ?_
    cases definition with
    | none => exact succeeds_pure _
    | some definition =>
      cases value.snippet? with
      | none => exact succeeds_pure _
      | some snippet => exact (succeeds_modify _).bind fun _ => succeeds_pure _
  | lookup site name =>
    rw [walk]
    exact (succeeds_resolve _ _ _ _).bind fun _ => succeeds_pure _
  | unary site op operand ih =>
    have hoperand : operand.EscapesInside position.fragments.length := h.child List.mem_cons_self
    rw [walk]
    exact (ih hoperand scope).bind fun _ => succeeds_pure _
  | run site body ih =>
    have hbody : body.EscapesInside position.fragments.length := h.child List.mem_cons_self
    rw [walk]
    exact ih hbody scope
  | binary site op lhs rhs ihl ihr =>
    have hl : lhs.EscapesInside position.fragments.length := h.child List.mem_cons_self
    have hr : rhs.EscapesInside position.fragments.length := h.child (List.mem_cons_of_mem _ List.mem_cons_self)
    rw [walk]
    exact (ihl hl scope).bind fun inner => (ihr hr inner).bind fun _ => succeeds_pure _
  | call site callee args ihf iha =>
    have hf : callee.EscapesInside position.fragments.length := h.child List.mem_cons_self
    have hargs : ∀ t ∈ args, ∀ scope, Succeeds (walk t position scope) := by
      intro t ht
      exact iha t ht (h.child (List.mem_cons_of_mem _ ht))
    rw [walk]
    exact (ihf hf scope).bind fun _ => (succeeds_walkAll hargs scope).bind fun _ => succeeds_pure _
  | host site name type =>
    rw [walk]
    exact (succeeds_modify _).bind fun _ => succeeds_pure _
  | quote site label snippet body ih =>
    -- one more quote, and one more open fragment
    have hbody : body.EscapesInside (site.id :: position.fragments).length := h.child List.mem_cons_self
    rw [walk]
    exact (succeeds_modify _).bind fun _ => (ih hbody scope).bind fun _ => succeeds_pure _
  | escape site kind body ih =>
    -- the only node where the walk can stop
    have hopen := (Term.escapesInside_iff.1 h).1 rfl
    have hbody : body.EscapesInside (position.fragments.length - 1) := h.child List.mem_cons_self
    rw [walk]
    cases hfragments : position.fragments with
    | nil =>
      -- no fragment is open, but an escape stands under a quote
      rw [hfragments] at hopen
      simp at hopen
    | cons owner outer =>
      have hlevel : ((owner :: outer).length - 1 : Int) = outer.length := by simp
      rw [hfragments, hlevel] at hbody
      exact (succeeds_modify _).bind fun _ => (ih hbody scope).bind fun _ => succeeds_pure _
  | lambda site params body ih =>
    have hbody : body.EscapesInside position.fragments.length := h.child List.mem_cons_self
    rw [walk]
    cases hfragments : position.fragments with
    | nil =>
      rw [hfragments] at hbody
      -- outside quotes a procedure is opened first
      refine (succeeds_modify _).bind fun _ => ?_
      rw [pure_bind]
      exact (succeeds_defineAll _ params).bind fun _ => (ih hbody _).bind fun _ => succeeds_pure _
    | cons owner outer =>
      exact (succeeds_defineAll _ params).bind fun _ => (ih hbody _).bind fun _ => succeeds_pure _

end Surveying

/-! ## Snippets -/

namespace Survey

variable {s linked : Survey} {fault : Fault}

/-- A hole without a definition is reported as a misused snippet. -/
theorem holeDefinition_eq_error {uses : Table NodeId} {hole : EscapeRecord}
    (h : holeDefinition uses hole = .error fault) : ∃ misuse, fault = .invalidSnippet hole.id misuse := by
  unfold holeDefinition at h
  split at h
  · split at h
    · cases h
    · cases h
      exact ⟨_, rfl⟩
  · cases h
    exact ⟨_, rfl⟩

/-- So is a snippet that cannot be assigned. -/
theorem assignHole_eq_error {hole snippet : NodeId} {fragments : Table Fragment}
    (h : assignHole hole fragments snippet = .error fault) : ∃ misuse, fault = .invalidSnippet snippet misuse := by
  unfold assignHole at h
  split at h
  · cases h
  · split at h
    · cases h
      exact ⟨_, rfl⟩
    · cases h

/-- Where no filling of the holes is found, a snippet is misused. -/
theorem link_eq_error (h : s.link = .error fault) : ∃ node misuse, fault = .invalidSnippet node misuse := by
  rw [link] at h
  rcases Except.bind_eq_error.1 h with hfold | ⟨fragments, -, hpure⟩
  · rcases foldlM_eq_error hfold with ⟨hole, -, fragments, hhole⟩
    rcases Except.bind_eq_error.1 hhole with hdefinition | ⟨definition, -, hassign⟩
    · exact ⟨hole.id, holeDefinition_eq_error hdefinition⟩
    · rcases foldlM_eq_error hassign with ⟨snippet, -, fragments, hsnippet⟩
      exact ⟨snippet, assignHole_eq_error hsnippet⟩
  · cases hpure

/-! ## The main procedure -/

/-- A procedure that has a record keeps one. -/
theorem get?_procedures_noteAll_ne_none {id : NodeId} (h : s.procedures.get? id ≠ none) (xs : List Finding) :
    (s.noteAll xs).procedures.get? id ≠ none := by
  induction xs generalizing s with
  | nil => exact h
  | cons x rest ih =>
    rw [noteAll_cons]
    apply ih
    rw [ne_eq, get?_procedures_note_eq_none_iff]
    exact fun hnone => h hnone.1

end Survey

theorem Term.main_survey (t : Term) : t.survey.procedures.get? t.id ≠ none := by
  rw [survey_eq]
  apply Survey.get?_procedures_noteAll_ne_none
  simp [start]

/-- A program whose escapes are inside quotes is not split only if its snippets cannot be linked. -/
theorem Blueprint.link_of_ofTerm_eq_error {t : Term} (h : t.EscapesInside 0) {types : TypeTable} {fault : Fault}
    (hsplit : Blueprint.ofTerm t types = .error fault) : t.survey.link = .error fault := by
  rw [Blueprint.ofTerm] at hsplit
  rcases Except.bind_eq_error.1 hsplit with hwalk | ⟨⟨scope, survey⟩, hwalk, h₁⟩
  · have hinside : t.EscapesInside (Position.mk t.id []).fragments.length := h
    rcases Surveying.succeeds_walk hinside {} t.start with ⟨r, hok⟩
    cases hwalk.symm.trans hok
  have hsurvey : survey = t.survey := (Surveying.walk_run_eq_ok hwalk).2
  subst hsurvey
  rcases Except.bind_eq_error.1 h₁ with hlink | ⟨linked, hlink, h₂⟩
  · exact hlink
  -- neither the linking nor the collecting of escapes touches the procedures
  have hmain : linked.collect.procedures.get? t.id ≠ none := by
    rw [Survey.collect, Survey.link_eq_ok hlink]
    exact t.main_survey
  dsimp only at h₂
  split at h₂
  · next hnone => exact absurd hnone hmain
  · cases h₂

/-- A program whose escapes are inside quotes is split, or misuses a snippet. -/
theorem Blueprint.ofTerm_cases {t : Term} (h : t.EscapesInside 0) (types : TypeTable) :
    (∃ b, Blueprint.ofTerm t types = .ok b) ∨
      ∃ node misuse, Blueprint.ofTerm t types = .error (.invalidSnippet node misuse) := by
  cases hsplit : Blueprint.ofTerm t types with
  | ok b => exact .inl ⟨b, rfl⟩
  | error fault =>
    rcases Survey.link_eq_error (link_of_ofTerm_eq_error h hsplit) with ⟨node, misuse, rfl⟩
    exact .inr ⟨node, misuse, rfl⟩

end Multistage
