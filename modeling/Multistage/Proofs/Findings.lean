import Multistage.Fragment.Survey
import Multistage.Proofs.Judgements
import Multistage.Proofs.Pointwise

/-!
# What the walk through a program finds

The walk that splits a program into units changes its records node by node. `Term.findings` lists all
these changes in order, as data, and `Term.scopeAfter` is the scope that the walk goes on with. Neither
reads the records, so facts about them are by induction over the term alone.

Main statement: `Surveying.walk_run_eq_ok`, where the walk succeeds it writes down the findings.
-/

namespace Multistage

/-! ## Findings -/

/-- What the walk can find at a node. -/
inductive Finding where
  /-- a definition is made in a unit -/
  | definition (home : Home) (id : NodeId)
  /-- a name is used in a unit; an intrinsic has no definition -/
  | use (home : Home) (user : NodeId) (definition : Option NodeId)
  /-- a snippet is the value of a definition -/
  | snippet (definition snippet : NodeId)
  /-- a fragment starts -/
  | fragment (position : Position) (fragment : Fragment)
  /-- a procedure starts inside another one -/
  | procedure (parent : NodeId) (procedure : Procedure)
  | escape (kind : EscapeKind) (record : EscapeRecord)

namespace Survey

/-- Write a finding down. -/
def note (s : Survey) : Finding → Survey
  | .definition home id => s.define home id
  | .use home user (some definition) => s.use home user definition
  | .use _ _ none => s
  | .snippet definition snippet => s.addSnippet definition snippet
  | .fragment position fragment => s.openFragment position.home fragment
  | .procedure parent procedure => s.openProcedure parent procedure
  | .escape kind record => s.addEscape kind record

/-- Write findings down, one after another. -/
def noteAll (s : Survey) (findings : List Finding) : Survey := findings.foldl note s

@[simp] theorem noteAll_nil (s : Survey) : s.noteAll [] = s := rfl

@[simp] theorem noteAll_cons (s : Survey) (x : Finding) (xs : List Finding) :
    s.noteAll (x :: xs) = (s.note x).noteAll xs := rfl

@[simp] theorem noteAll_append (s : Survey) (xs ys : List Finding) :
    s.noteAll (xs ++ ys) = (s.noteAll xs).noteAll ys := List.foldl_append

end Survey

/-- The position inside a quote. -/
def Position.quoted (position : Position) (id : NodeId) : Position :=
  { position with fragments := id :: position.fragments }

/-- The position in the body of a function, which is a unit of its own outside quotes. -/
def Position.called (position : Position) (id : NodeId) : Position :=
  match position.fragments with
  | [] => { position with procedure := id }
  | _ :: _ => position

theorem Position.fragments_called (position : Position) (id : NodeId) :
    (position.called id).fragments = position.fragments := by
  unfold Position.called
  split
  · next hfragments => exact hfragments.symm ▸ rfl
  · rfl

namespace Term

/-- The definitions in scope after a term. -/
def scopeAfter : Term → Scope NodeId → Scope NodeId
  | .seq _ lhs rhs, scope => rhs.scopeAfter (lhs.scopeAfter scope)
  | .define site name _, scope | .host site name _, scope => scope.extend name site.id
  | .run _ body, scope => body.scopeAfter scope
  | _, scope => scope

/-- A snippet that becomes the value of a definition. -/
def givenTo (definition : Option NodeId) (value : Term) : List Finding :=
  match definition, value.snippet? with
  | some definition, some snippet => [.snippet definition snippet]
  | _, _ => []

/-- A function outside quotes starts a procedure. -/
def procedureAt (site : Site) (params : List Param) (body : Term) (position : Position) : List Finding :=
  match position.fragments with
  | [] => [.procedure position.procedure
      { id := site.id, body, params := params.map (·.id), parent := some position.procedure }]
  | _ :: _ => []

mutual
/-- What there is to be found in a term, in the order of the walk. -/
def findings : Term → Position → Scope NodeId → List Finding
  | .literal .., _, _ | .held .., _, _ => []
  | .seq _ lhs rhs, position, scope | .binary _ _ lhs rhs, position, scope =>
    findings lhs position scope ++ findings rhs position (lhs.scopeAfter scope)
  | .define site _ value, position, scope =>
    findings value position scope ++ .definition position.home site.id :: value.givenTo (some site.id)
  | .assign site name value, position, scope =>
    findings value position scope ++
      .use position.home site.id (scope.lookup? name) :: value.givenTo (scope.lookup? name)
  | .lookup site name, position, scope => [.use position.home site.id (scope.lookup? name)]
  | .unary _ _ t, position, scope | .run _ t, position, scope => findings t position scope
  | .call _ callee args, position, scope =>
    findings callee position scope ++ findingsAll args position scope
  | .host site _ _, position, _ => [.definition position.home site.id]
  | .quote site label snippet body, position, scope =>
    .fragment position { id := site.id, body, label, snippet, parent := position.fragments.head? } ::
      findings body (position.quoted site.id) scope
  | .escape site kind body, position, scope =>
    match position.fragments with
    | [] => []
    | owner :: outer =>
      .escape kind ⟨site.id, body, owner⟩ :: findings body { position with fragments := outer } scope
  | .lambda site params body, position, scope =>
    procedureAt site params body position ++
      params.map (fun param => .definition (position.called site.id).home param.id) ++
      findings body (position.called site.id)
        (scope.extendAll (params.map fun param => (param.name, param.id)))

/-- What there is to be found in arguments. -/
def findingsAll : List Term → Position → Scope NodeId → List Finding
  | [], _, _ => []
  | t :: rest, position, scope => findings t position scope ++ findingsAll rest position scope
end

end Term

/-! ## The walk writes down the findings -/

namespace Surveying

variable {t : Term} {position : Position} {scope scope' : Scope NodeId} {s s' : Survey}

/-- Parameters are noted as definitions, one after the other. -/
theorem defineAll_run_eq_ok {home : Home} {params : List Param} {r : PUnit}
    (h : (forIn params PUnit.unit fun param _ => do
        modify (Survey.define home param.id)
        pure (ForInStep.yield PUnit.unit) : Surveying PUnit).run s = .ok (r, s')) :
    s' = s.noteAll (params.map fun param => .definition home param.id) := by
  induction params generalizing s with
  | nil =>
    cases h
    rfl
  | cons param rest ih =>
    rw [List.forIn_cons] at h
    rcases run_bind_eq_ok.1 h with ⟨step, s₁, hstep, hrest⟩
    cases hstep
    exact ih hrest

/-- A walk through several terms notes what is found in each of them. -/
theorem walkAll_run_eq_ok {ts : List Term} (h : (walkAll ts position scope).run s = .ok ((), s'))
    (ih : ∀ t ∈ ts, ∀ {position scope scope' s s'}, (walk t position scope).run s = .ok (scope', s') →
      scope' = t.scopeAfter scope ∧ s' = s.noteAll (t.findings position scope)) :
    s' = s.noteAll (Term.findingsAll ts position scope) := by
  induction ts generalizing s with
  | nil =>
    cases h
    rfl
  | cons t rest ihrest =>
    rw [walkAll] at h
    rcases run_bind_eq_ok.1 h with ⟨_, s₁, hhead, htail⟩
    have hfirst := (ih t List.mem_cons_self hhead).2
    have hothers := ihrest htail fun u hu => ih u (List.mem_cons_of_mem _ hu)
    rw [Term.findingsAll, Survey.noteAll_append, ← hfirst]
    exact hothers

/-- Where the walk succeeds, it has written down the findings and goes on with the scope after the term. -/
theorem walk_run_eq_ok (h : (walk t position scope).run s = .ok (scope', s')) :
    scope' = t.scopeAfter scope ∧ s' = s.noteAll (t.findings position scope) := by
  induction t generalizing position scope scope' s s' with
  | literal | held =>
    cases h
    exact ⟨rfl, rfl⟩
  | seq site lhs rhs ihl ihr =>
    rw [walk] at h
    rcases run_bind_eq_ok.1 h with ⟨middle, s₁, hl, hr⟩
    obtain ⟨rfl, rfl⟩ := ihl hl
    obtain ⟨rfl, rfl⟩ := ihr hr
    rw [Term.findings, Survey.noteAll_append]
    exact ⟨rfl, rfl⟩
  | define site name value ih =>
    rw [walk] at h
    rcases run_bind_eq_ok.1 h with ⟨_, s₁, hv, h₁⟩
    obtain ⟨-, rfl⟩ := ih hv
    rw [Term.findings, Survey.noteAll_append, Survey.noteAll_cons]
    -- a snippet is noted for the definition if the value is one
    unfold Term.givenTo
    cases hsnippet : value.snippet? <;> rw [hsnippet] at h₁ <;> cases h₁ <;> exact ⟨rfl, rfl⟩
  | assign site name value ih =>
    rw [walk] at h
    rcases run_bind_eq_ok.1 h with ⟨_, s₁, hv, h₁⟩
    obtain ⟨-, rfl⟩ := ih hv
    rw [Term.findings, Survey.noteAll_append, Survey.noteAll_cons]
    unfold Term.givenTo
    -- a snippet is noted only if the assigned name has a definition
    rw [resolve] at h₁
    cases hlookup : scope.lookup? name <;> cases hsnippet : value.snippet? <;>
      rw [hlookup, hsnippet] at h₁ <;> cases h₁ <;> exact ⟨rfl, rfl⟩
  | lookup site name =>
    rw [walk, resolve] at h
    rw [Term.findings, Survey.noteAll_cons]
    cases hlookup : scope.lookup? name <;> rw [hlookup] at h <;> cases h <;> exact ⟨rfl, rfl⟩
  | unary site op operand ih =>
    -- the scope after an operand is dropped
    rw [walk] at h
    rcases run_bind_eq_ok.1 h with ⟨_, s₁, hv, h₁⟩
    cases h₁
    exact ⟨rfl, (ih hv).2⟩
  | binary site op lhs rhs ihl ihr =>
    rw [walk] at h
    rcases run_bind_eq_ok.1 h with ⟨middle, s₁, hl, h₁⟩
    rcases run_bind_eq_ok.1 h₁ with ⟨_, s₂, hr, h₂⟩
    cases h₂
    obtain ⟨rfl, rfl⟩ := ihl hl
    obtain ⟨-, rfl⟩ := ihr hr
    rw [Term.findings, Survey.noteAll_append]
    exact ⟨rfl, rfl⟩
  | quote site label snippet body ih =>
    rw [walk] at h
    rcases run_bind_eq_ok.1 h with ⟨_, s₁, hopen, h₁⟩
    -- the fragment is opened before its body is walked
    cases hopen
    rcases run_bind_eq_ok.1 h₁ with ⟨_, s₂, hb, h₂⟩
    cases h₂
    exact ⟨rfl, (ih hb).2⟩
  | escape site kind body ih =>
    rw [walk] at h
    rw [Term.findings]
    cases hfragments : position.fragments with
    | nil =>
      rw [hfragments] at h
      -- the walk fails at an escape outside all quotes
      cases h
    | cons owner outer =>
      rw [hfragments] at h
      rcases run_bind_eq_ok.1 h with ⟨_, s₁, hadd, h₁⟩
      cases hadd
      rcases run_bind_eq_ok.1 h₁ with ⟨_, s₂, hb, h₂⟩
      cases h₂
      exact ⟨rfl, (ih hb).2⟩
  | run site body ih =>
    rw [walk] at h
    exact ih h
  | lambda site params body ih =>
    -- both kinds of function go on alike once it is known which unit their body is in
    have hbody : ∀ {inner : Position} {s₁ : Survey}, (do
          forIn params PUnit.unit fun param _ => do
            modify (Survey.define inner.home param.id)
            pure (ForInStep.yield PUnit.unit)
          let _ ← walk body inner (scope.extendAll (params.map fun param => (param.name, param.id)))
          pure scope : Surveying (Scope NodeId)).run s₁ = .ok (scope', s') →
        scope' = scope ∧ s' = (s₁.noteAll (params.map fun param => .definition inner.home param.id)).noteAll
          (body.findings inner (scope.extendAll (params.map fun param => (param.name, param.id)))) := by
      intro inner s₁ h₁
      rcases run_bind_eq_ok.1 h₁ with ⟨_, s₂, hparams, h₂⟩
      rcases run_bind_eq_ok.1 h₂ with ⟨_, s₃, hb, h₃⟩
      cases h₃
      obtain rfl := defineAll_run_eq_ok hparams
      exact ⟨rfl, (ih hb).2⟩
    rw [walk] at h
    rw [Term.findings, Survey.noteAll_append, Survey.noteAll_append, Term.procedureAt, Position.called]
    cases hfragments : position.fragments <;> rw [hfragments] at h <;> exact hbody h
  | call site callee args ihf iha =>
    rw [walk] at h
    rcases run_bind_eq_ok.1 h with ⟨_, s₁, hf, h₁⟩
    rcases run_bind_eq_ok.1 h₁ with ⟨_, s₂, ha, h₂⟩
    cases h₂
    obtain ⟨-, rfl⟩ := ihf hf
    rw [Term.findings, Survey.noteAll_append]
    exact ⟨rfl, walkAll_run_eq_ok ha iha⟩
  | host site name type =>
    cases h
    exact ⟨rfl, rfl⟩

end Surveying

/-! ## Findings and identities -/

/-- The identity that a finding is made under. -/
def Finding.key? : Finding → Option NodeId
  | .definition _ id => some id
  | .use _ user _ => some user
  | .fragment _ f => some f.id
  | .escape _ record => some record.id
  | .snippet .. | .procedure .. => none

namespace Term

variable {t : Term} {position : Position} {scope : Scope NodeId}

theorem findingsAll_eq (ts : List Term) :
    findingsAll ts position scope = ts.flatMap fun t => t.findings position scope := by
  induction ts with
  | nil => rfl
  | cons t rest ih => rw [findingsAll, ih, List.flatMap_cons]

theorem findings_subset_findingsAll {ts : List Term} (h : t ∈ ts) :
    t.findings position scope ⊆ findingsAll ts position scope := by
  intro x hx
  rw [findingsAll_eq]
  exact List.mem_flatMap.2 ⟨t, h, hx⟩

section FilterMap

variable {β : Type} {f : Finding → Option β}

theorem filterMap_givenTo (hf : ∀ d snippet, f (.snippet d snippet) = none) (definition : Option NodeId) :
    (t.givenTo definition).filterMap f = [] := by
  unfold givenTo
  split
  · exact List.filterMap_cons_none (hf _ _)
  · rfl

theorem filterMap_procedureAt (hf : ∀ parent procedure, f (.procedure parent procedure) = none)
    (site : Site) (params : List Param) : (procedureAt site params t position).filterMap f = [] := by
  unfold procedureAt
  split
  · exact List.filterMap_cons_none (hf _ _)
  · rfl

end FilterMap

theorem count_keysAll_le {ts : List Term} (a : NodeId)
    (ih : ∀ t ∈ ts, ∀ {position scope},
      ((t.findings position scope).filterMap Finding.key?).count a ≤ t.allIds.count a) :
    ((findingsAll ts position scope).filterMap Finding.key?).count a ≤ (ts.flatMap allIds).count a := by
  induction ts with
  | nil => exact Nat.le_refl _
  | cons t rest ihrest =>
    rw [findingsAll, List.filterMap_append, List.flatMap_cons, List.count_append, List.count_append]
    exact Nat.add_le_add (ih t List.mem_cons_self)
      (ihrest fun u hu => ih u (List.mem_cons_of_mem _ hu))

/-- No more findings are made under an identity than there are nodes and parameters with it. -/
theorem count_keys_le (a : NodeId) :
    ((t.findings position scope).filterMap Finding.key?).count a ≤ t.allIds.count a := by
  induction t generalizing position scope with
  | literal | held => exact Nat.zero_le _
  | lookup | host => exact Nat.le_refl _
  | seq s l r ihl ihr | binary s op l r ihl ihr =>
    -- the node itself makes no finding
    have hl := @ihl position scope
    have hr := @ihr position (l.scopeAfter scope)
    rw [findings, List.filterMap_append, List.count_append, allIds_of_two (l := l) (r := r) rfl rfl,
      List.count_cons, List.count_append]
    omega
  | define s name value ih | assign s name value ih =>
    have hv := @ih position scope
    rw [findings, List.filterMap_append, List.count_append, allIds_of_one (u := value) rfl]
    show _ + (s.id :: (value.givenTo _).filterMap Finding.key?).count a ≤ (s.id :: value.allIds).count a
    -- snippets are not keyed: only the definition or the use counts for the node
    rw [filterMap_givenTo (fun _ _ => rfl), List.count_cons, List.count_cons, List.count_nil]
    omega
  | unary s op t ih | run s t ih =>
    have ht := @ih position scope
    rw [findings, allIds_of_one (u := t) rfl, List.count_cons, List.count_append]
    omega
  | quote s label snippet body ih =>
    have hb := @ih (position.quoted s.id) scope
    rw [findings, allIds_of_one (u := body) rfl]
    show (s.id :: (body.findings _ _).filterMap Finding.key?).count a ≤ (s.id :: body.allIds).count a
    rw [List.count_cons, List.count_cons]
    omega
  | escape s kind body ih =>
    rw [findings]
    split
    · exact Nat.zero_le _
    · next owner outer hfragments =>
      have hb := @ih { position with fragments := outer } scope
      rw [allIds_of_one (u := body) rfl]
      show (s.id :: (body.findings _ _).filterMap Finding.key?).count a ≤ (s.id :: body.allIds).count a
      rw [List.count_cons, List.count_cons]
      omega
  | lambda s params body ih =>
    have hb := @ih (position.called s.id)
      (scope.extendAll (params.map fun param => (param.name, param.id)))
    have hparams : (params.map fun param => Finding.definition (position.called s.id).home param.id).filterMap
        Finding.key? = params.map (·.id) := by
      rw [List.filterMap_map, ← List.filterMap_eq_map]
      rfl
    rw [findings, List.filterMap_append, List.filterMap_append, filterMap_procedureAt (fun _ _ => rfl), hparams,
      allIds_of_one (u := body) rfl, List.nil_append]
    show (params.map (·.id) ++ _).count a ≤ (s.id :: (params.map (·.id) ++ body.allIds)).count a
    rw [List.count_cons, List.count_append, List.count_append]
    omega
  | call s callee args ihf iha =>
    have hf := @ihf position scope
    have ha := @count_keysAll_le position scope args a iha
    have hids : (Term.call s callee args).allIds = s.id :: (callee.allIds ++ args.flatMap allIds) := by
      rw [allIds_eq]
      rfl
    rw [findings, List.filterMap_append, List.count_append, hids, List.count_cons, List.count_append]
    omega

/-- In a term with different identities no two findings are made under the same one. -/
theorem nodup_keys (hids : t.allIds.Nodup) (position : Position) (scope : Scope NodeId) :
    ((t.findings position scope).filterMap Finding.key?).Nodup :=
  List.nodup_iff_count_le_one.2 fun a =>
    Nat.le_trans (count_keys_le a) (List.nodup_iff_count_le_one.1 hids a)

/-! ## Findings of snippets -/

/-- A snippet becomes the value of a definition in the definition itself, or in an assignment that is a use
of it. -/
def GivenIn (t : Term) (findings : List Finding) (definition snippet : NodeId) : Prop :=
  (∃ s name value, .define s name value ∈ t.nodes ∧ s.id = definition ∧ value.snippet? = some snippet) ∨
    ∃ s name value home, .assign s name value ∈ t.nodes ∧ value.snippet? = some snippet ∧
      .use home s.id (some definition) ∈ findings

theorem GivenIn.of_child {u : Term} {findings below : List Finding} {definition snippet : NodeId}
    (h : u.GivenIn below definition snippet) (hu : u ∈ t.children) (hbelow : below ⊆ findings) :
    t.GivenIn findings definition snippet := by
  have hnodes := nodes_child hu
  rcases h with ⟨s, name, value, hnode, h⟩ | ⟨s, name, value, home, hnode, hvalue, huse⟩
  · exact .inl ⟨s, name, value, hnodes hnode, h⟩
  · exact .inr ⟨s, name, value, home, hnodes hnode, hvalue, hbelow huse⟩

theorem mem_givenTo {given : Option NodeId} {definition snippet : NodeId}
    (h : .snippet definition snippet ∈ t.givenTo given) :
    given = some definition ∧ t.snippet? = some snippet := by
  unfold givenTo at h
  split at h
  · next hvalue =>
    cases List.mem_singleton.1 h
    exact ⟨rfl, hvalue⟩
  · cases h

/-- A snippet is found where a definition or an assignment has it as its value. -/
theorem givenIn_of_finding {definition snippet : NodeId}
    (h : .snippet definition snippet ∈ t.findings position scope) :
    t.GivenIn (t.findings position scope) definition snippet := by
  induction t generalizing position scope with
  | literal | held => cases h
  | lookup | host => cases List.mem_singleton.1 h
  | seq s l r ihl ihr | binary s op l r ihl ihr =>
    rcases List.mem_append.1 h with h | h
    · exact (ihl h).of_child (List.mem_pair.2 (.inl rfl)) (List.subset_append_left _ _)
    · exact (ihr h).of_child (List.mem_pair.2 (.inr rfl)) (List.subset_append_right _ _)
  | define s name value ih =>
    rcases List.mem_append.1 h with h | h
    · exact (ih h).of_child (List.mem_singleton.2 rfl) (List.subset_append_left _ _)
    · rcases List.mem_cons.1 h with h | h
      · cases h
      · rcases mem_givenTo h with ⟨hsame, hvalue⟩
        -- a definition whose value is the snippet
        exact .inl ⟨s, name, value, mem_nodes_self _, Option.some.inj hsame, hvalue⟩
  | assign s name value ih =>
    rcases List.mem_append.1 h with h | h
    · exact (ih h).of_child (List.mem_singleton.2 rfl) (List.subset_append_left _ _)
    · rcases List.mem_cons.1 h with h | h
      · cases h
      · rcases mem_givenTo h with ⟨hsame, hvalue⟩
        -- an assignment of the snippet, with the use of the name among the findings
        refine .inr ⟨s, name, value, position.home, mem_nodes_self _, hvalue, ?_⟩
        rw [← hsame]
        exact List.mem_append_right _ List.mem_cons_self
  | unary s op u ih | run s u ih =>
    exact (ih h).of_child (List.mem_singleton.2 rfl) (List.Subset.refl _)
  | quote s label snippet body ih =>
    rcases List.mem_cons.1 h with h | h
    · cases h
    · exact (ih h).of_child (List.mem_singleton.2 rfl) (List.subset_cons_self _ _)
  | escape s kind body ih =>
    rw [findings] at h ⊢
    split at h
    · cases h
    · rcases List.mem_cons.1 h with h | h
      · cases h
      · exact (ih h).of_child (List.mem_singleton.2 rfl) (List.subset_cons_self _ _)
  | lambda s params body ih =>
    rcases List.mem_append.1 h with h | h
    · -- neither the procedure nor the parameters are snippets
      exfalso
      rcases List.mem_append.1 h with h | h
      · unfold procedureAt at h
        split at h
        · cases List.mem_singleton.1 h
        · cases h
      · rcases List.mem_map.1 h with ⟨param, -, h⟩
        cases h
    · exact (ih h).of_child (List.mem_singleton.2 rfl) (List.subset_append_right _ _)
  | call s callee args ihf iha =>
    rcases List.mem_append.1 h with h | h
    · exact (ihf h).of_child List.mem_cons_self (List.subset_append_left _ _)
    · rw [findingsAll_eq] at h
      rcases List.mem_flatMap.1 h with ⟨u, hu, h⟩
      refine (iha u hu h).of_child (List.mem_cons_of_mem _ hu) ?_
      exact List.Subset.trans (findings_subset_findingsAll hu) (List.subset_append_right _ _)

end Term

/-! ## The survey of a program -/

def Finding.onUses : Finding → Table NodeId → Table NodeId
  | .use _ user (some d), uses => uses.insert user d
  | _, uses => uses

def Finding.onSnippets : Finding → List (NodeId × NodeId) → List (NodeId × NodeId)
  | .snippet d value, snippets => snippets ++ [(d, value)]
  | _, snippets => snippets

/-- What is written down about a program. -/
def Term.survey (t : Term) : Survey :=
  let main : Procedure := { id := t.id, body := t, params := [], parent := none }
  let start : Survey :=
    { uses := .empty, homes := .empty, fragments := .empty, procedures := Table.empty.insert t.id main }
  start.noteAll (t.findings ⟨t.id, []⟩ {})

/-- A blueprint comes from a survey that could be linked, from which the main procedure is taken out. -/
theorem Blueprint.ofTerm_eq_ok {t : Term} {types : TypeTable} {b : Blueprint}
    (h : Blueprint.ofTerm t types = .ok b) :
    ∃ linked, t.survey.link = .ok linked ∧ b.uses = linked.uses ∧ b.fragments = linked.collect.fragments ∧
      linked.procedures.get? t.id = some b.main ∧ b.procedures = linked.procedures.erase t.id := by
  rw [Blueprint.ofTerm] at h
  rcases Except.bind_eq_ok.1 h with ⟨⟨scope, survey⟩, hwalk, h₁⟩
  rcases Except.bind_eq_ok.1 h₁ with ⟨linked, hlink, h₂⟩
  have hsurvey : survey = t.survey := (Surveying.walk_run_eq_ok hwalk).2
  subst hsurvey
  refine ⟨linked, hlink, ?_⟩
  dsimp only at h₂
  split at h₂
  · cases h₂
  · next hmain =>
    cases h₂
    exact ⟨rfl, rfl, hmain, rfl⟩

namespace Survey

variable {s linked : Survey} {id : NodeId}

/-- Only the fragments can change. -/
theorem link_eq_ok (h : s.link = .ok linked) : linked = { s with fragments := linked.fragments } := by
  rw [link] at h
  rcases Except.bind_eq_ok.1 h with ⟨fragments, -, hpure⟩
  cases hpure
  rfl

theorem link_uses (h : s.link = .ok linked) : linked.uses = s.uses := by
  rw [link_eq_ok h]

/-- A snippet comes to fill a hole, if there is such a snippet. -/
theorem assignHole_eq_ok {hole snippet : NodeId} {fragments fragments' : Table Fragment}
    (h : assignHole hole fragments snippet = .ok fragments') :
    fragments' = fragments ∨ fragments' = fragments.modify snippet fun f => { f with fills := some hole } := by
  unfold assignHole at h
  split at h
  · cases h
    exact .inl rfl
  · split at h
    · cases h
    · cases h
      exact .inr rfl

section Views

variable {β : Type} (view : NodeId → Fragment → β)

/-- Adding up escapes cannot be seen where the lists of all escapes are not seen. -/
theorem map_collect (hlists : ∀ id f persist splice, view id { f with persist, splice } = view id f)
    (s : Survey) : s.collect.fragments.map view = s.fragments.map view := by
  rw [collect]
  dsimp only
  generalize s.order = order
  generalize s.fragments = fragments
  induction order generalizing fragments with
  | nil => rfl
  | cons key rest ih =>
    rw [List.foldl_cons, ih]
    exact Table.map_modify key fun id f => hlists id f _ _

/-- Finding out what fills the holes cannot be seen where this is not seen. -/
theorem map_link (hfills : ∀ id f hole, view id { f with fills := some hole } = view id f)
    (h : s.link = .ok linked) : linked.fragments.map view = s.fragments.map view := by
  rw [link] at h
  rcases Except.bind_eq_ok.1 h with ⟨fragments, hfold, hpure⟩
  cases hpure
  let Same (fragments : Table Fragment) : Prop := fragments.map view = s.fragments.map view
  refine foldlM_induction (P := Same) ?_ hfold rfl
  intro record _ first last hfirst hlink
  rcases Except.bind_eq_ok.1 hlink with ⟨definition, -, hassign⟩
  refine foldlM_induction (P := Same) ?_ hassign hfirst
  intro snippet _ before after hbefore hstep
  rcases assignHole_eq_ok hstep with rfl | rfl
  · exact hbefore
  · exact (Table.map_modify snippet fun id f => hfills id f record.id).trans hbefore

theorem map_collect_link (hfills : ∀ id f hole, view id { f with fills := some hole } = view id f)
    (hlists : ∀ id f persist splice, view id { f with persist, splice } = view id f)
    (h : s.link = .ok linked) : linked.collect.fragments.map view = s.fragments.map view :=
  (map_collect view hlists linked).trans (map_link view hfills h)

end Views

/-- What a finding changes of the uses of names and of the list of snippets. -/
theorem uses_snippets_note (s : Survey) (x : Finding) :
    (s.note x).uses = x.onUses s.uses ∧ (s.note x).snippets = x.onSnippets s.snippets := by
  cases x with
  | definition home id => cases home <;> exact ⟨rfl, rfl⟩
  | use home user definition =>
    cases definition with
    | none => exact ⟨rfl, rfl⟩
    | some definition =>
      simp only [note, use]
      split
      · exact ⟨rfl, rfl⟩
      · cases home <;> exact ⟨rfl, rfl⟩
  | fragment position fragment =>
    simp only [note, openFragment]
    cases position.home <;> exact ⟨rfl, rfl⟩
  | snippet | procedure | escape => exact ⟨rfl, rfl⟩

/-- Only findings put snippets into the list. -/
theorem mem_snippets_noteAll {xs : List Finding} {definition snippet : NodeId}
    (h : (definition, snippet) ∈ (s.noteAll xs).snippets) :
    (definition, snippet) ∈ s.snippets ∨ .snippet definition snippet ∈ xs := by
  induction xs generalizing s with
  | nil => exact .inl h
  | cons x rest ih =>
    rcases ih h with h | h
    · rw [(uses_snippets_note s x).2] at h
      unfold Finding.onSnippets at h
      split at h
      · rcases List.mem_append.1 h with h | h
        · exact .inl h
        · cases List.mem_singleton.1 h
          exact .inr List.mem_cons_self
      · exact .inl h
    · exact .inr (List.mem_cons_of_mem _ h)

/-- Nothing changes the use of a name but a finding for it. -/
theorem get?_uses_noteAll {xs : List Finding} (h : ∀ x ∈ xs, x.key? ≠ some id) :
    (s.noteAll xs).uses.get? id = s.uses.get? id := by
  induction xs generalizing s with
  | nil => rfl
  | cons x rest ih =>
    rcases List.forall_mem_cons.1 h with ⟨hhead, hrest⟩
    rw [noteAll_cons, ih hrest, (uses_snippets_note s x).1]
    unfold Finding.onUses
    split
    · next user definition =>
      have hne : user ≠ id := fun heq => hhead (congrArg some heq)
      simp [hne]
    · rfl

end Survey

/-- Findings around one of them are made under other identities. -/
theorem key?_ne_of_split {pre post : List Finding} {x : Finding} {id : NodeId} (hid : x.key? = some id)
    (hnodup : ((pre ++ x :: post).filterMap Finding.key?).Nodup) :
    (∀ y ∈ pre, y.key? ≠ some id) ∧ ∀ y ∈ post, y.key? ≠ some id := by
  rw [List.filterMap_append, List.filterMap_cons_some hid] at hnodup
  have hnotin := (List.nodup_middle.1 hnodup).notMem
  rw [List.mem_append, not_or] at hnotin
  constructor
  · intro y hy hkey
    exact hnotin.1 (List.mem_filterMap.2 ⟨y, hy, hkey⟩)
  · intro y hy hkey
    exact hnotin.2 (List.mem_filterMap.2 ⟨y, hy, hkey⟩)

/-- A use of a name is written down with its definition. -/
theorem Term.get?_uses_survey {t : Term} (hids : t.allIds.Nodup) {home : Home} {user : NodeId}
    {definition : Option NodeId} (h : Finding.use home user definition ∈ t.findings ⟨t.id, []⟩ {}) :
    t.survey.uses.get? user = definition := by
  have hnodup := nodup_keys hids ⟨t.id, []⟩ {}
  rw [survey]
  rcases List.append_of_mem h with ⟨pre, post, heq⟩
  rw [heq] at hnodup ⊢
  rcases key?_ne_of_split rfl hnodup with ⟨hpre, hpost⟩
  rw [Survey.noteAll_append, Survey.noteAll_cons, Survey.get?_uses_noteAll hpost,
    (Survey.uses_snippets_note _ _).1]
  cases definition with
  | none => exact Survey.get?_uses_noteAll hpre
  | some definition => simp [Finding.onUses]

end Multistage
