import Multistage.Proofs.CheckerTraces
import Multistage.Proofs.SplitFaults
import Multistage.Proofs.TypeTables

/-!
# The stack of open units

`Touring.walk` goes through a program with a stack of units, from the main procedure to the unit that it is in:
a quote pushes its fragment, a function outside quotes pushes its procedure, and an escape takes off the stack
from the innermost fragment on, until its body is done. It lists all nodes that it comes to, each with the stack
there. The walk that splits programs into units keeps only the end of the stack, from the innermost procedure on;
`Mirrors` says that this makes no difference.

Main statement: `checked_programs_split`, in a checked program the stack is a run of procedures followed by as
many fragments as the checker counts quotes, so that only the rules for snippets can fail.
-/

namespace Multistage

/-! ## The walk with a stack -/

/-- The unit on top of a stack, whose last one is the main procedure. -/
def current (frames : List Home) : Home := frames.getLastD (.procedure 0)

/-- The fragment nearest to the top of a stack, with its place. -/
def innermost? (frames : List Home) : Option (Nat × NodeId) :=
  frames.zipIdx.reverse.findSome? fun
    | (.fragment id, index) => some (index, id)
    | (.procedure _, _) => none

/-- A walk through a program: what it has found, the open units, outermost first, and the nodes that it has come
to, each with the units that were open there. -/
structure Tour where
  survey : Survey
  frames : List Home
  visits : List (List Home × Term)

/-- A walk that keeps a stack. -/
abbrev Touring := StateT Tour (Except Fault)

namespace Touring

/-- Come to a node. -/
def arrive (t : Term) : Touring Unit :=
  modify fun tour => { tour with visits := tour.visits ++ [(tour.frames, t)] }

/-- Change what has been found, given the unit on top of the stack. -/
def record (change : Home → Survey → Survey) : Touring Unit :=
  modify fun tour => { tour with survey := change (current tour.frames) tour.survey }

def push (unit : Home) : Touring Unit :=
  modify fun tour => { tour with frames := tour.frames ++ [unit] }

def pop : Touring Unit :=
  modify fun tour => { tour with frames := tour.frames.dropLast }

/-- The stack. -/
def frames : Touring (List Home) := return (← get).frames

/-- Take the units from a place on off the stack. -/
def splitOff (index : Nat) : Touring (List Home) := do
  let units ← frames
  modify ({ · with frames := units.take index })
  return units.drop index

def putBack (units : List Home) : Touring Unit :=
  modify fun tour => { tour with frames := tour.frames ++ units }

/-- Resolve a name in the unit on top of the stack, if it is not an intrinsic. -/
def resolve (user : NodeId) (name : String) (scope : Scope NodeId) : Touring (Option NodeId) :=
  match scope.lookup? name with
  | none => return none
  | some definition => do
    record fun home => Survey.use home user definition
    return some definition

/-- Define parameters in the unit on top of the stack. -/
def defineAll : List Param → Touring PUnit
  | [] => return PUnit.unit
  | param :: rest => do
    record fun home => Survey.define home param.id
    defineAll rest

mutual
/-- Walk through a term, given the definitions in scope; the result is the scope after it. -/
def walk (t : Term) (scope : Scope NodeId) : Touring (Scope NodeId) := do
  arrive t
  match t with
  | .literal .. | .held .. => return scope
  | .seq _ lhs rhs => do
    let scope ← walk lhs scope
    walk rhs scope
  | .define site name value => do
    let _ ← walk value scope
    record fun home => Survey.define home site.id
    if let some snippet := value.snippet? then
      record fun _ => Survey.addSnippet site.id snippet
    return scope.extend name site.id
  | .assign site name value => do
    let _ ← walk value scope
    match ← resolve site.id name scope, value.snippet? with
    | some definition, some snippet => record fun _ => Survey.addSnippet definition snippet
    | _, _ => pure ()
    return scope
  | .lookup site name => do
    let _ ← resolve site.id name scope
    return scope
  | .unary _ _ operand => do
    let _ ← walk operand scope
    return scope
  | .binary _ _ lhs rhs => do
    let inner ← walk lhs scope
    let _ ← walk rhs inner
    return scope
  | .call _ callee args => do
    let _ ← walk callee scope
    walkAll args scope
    return scope
  | .run _ body => walk body scope
  | .host site name _ => do
    record fun home => Survey.define home site.id
    return scope.extend name site.id
  | .quote site label snippet body => do
    let units ← frames
    record fun home => Survey.openFragment home
      { id := site.id, body, label, snippet, parent := (innermost? units).map (·.2) }
    push (.fragment site.id)
    let _ ← walk body scope
    pop
    return scope
  | .escape site kind body => do
    let units ← frames
    match innermost? units with
    | none => throw (.topLevelEscape site.id)
    | some (index, owner) =>
      record fun _ => Survey.addEscape kind ⟨site.id, body, owner⟩
      let above ← splitOff index
      let _ ← walk body scope
      putBack above
      return scope
  | .lambda site params body => do
    let units ← frames
    match current units with
    | .procedure parent =>
      record fun _ => Survey.openProcedure parent
        { id := site.id, body, params := params.map (·.id), parent := some parent }
      push (.procedure site.id)
      defineAll params
      let _ ← walk body (scope.extendAll (params.map fun param => (param.name, param.id)))
      pop
      return scope
    -- inside a quote a function is part of the fragment
    | .fragment _ =>
      defineAll params
      let _ ← walk body (scope.extendAll (params.map fun param => (param.name, param.id)))
      return scope

/-- Walk through arguments, all with the same scope. -/
def walkAll : List Term → Scope NodeId → Touring Unit
  | [], _ => return ()
  | t :: rest, scope => do
    let _ ← walk t scope
    walkAll rest scope
end

end Touring

/-! ## Stacks of positions -/

theorem current_concat (frames : List Home) (unit : Home) : current (frames ++ [unit]) = unit := by
  rw [current, List.getLastD_concat]

theorem innermost?_concat (frames : List Home) (id : NodeId) :
    innermost? (frames ++ [.fragment id]) = some (frames.length, id) := by
  simp [innermost?, List.zipIdx_append]

theorem innermost?_procedures (ids : List NodeId) : innermost? (ids.map .procedure) = none := by
  unfold innermost?
  rw [List.findSome?_eq_none_iff]
  rintro ⟨unit, index⟩ hmem
  have hunit : unit ∈ ids.map .procedure := List.fst_mem_of_mem_zipIdx (List.mem_reverse.1 hmem)
  rcases List.mem_map.1 hunit with ⟨id, -, rfl⟩
  rfl

namespace Position

/-- The stack at a position, with the procedures around the innermost one. -/
def stack (outer : List NodeId) (position : Position) : List Home :=
  (outer ++ [position.procedure]).map .procedure ++ position.fragments.reverse.map .fragment

variable (outer : List NodeId) (position : Position)

/-- A quote is pushed onto the stack. -/
theorem stack_quoted (id : NodeId) : (position.quoted id).stack outer = position.stack outer ++ [.fragment id] := by
  simp [stack, quoted]

/-- A function outside quotes is pushed onto the stack. -/
theorem stack_called {position : Position} (h : position.fragments = []) (id : NodeId) :
    (position.called id).stack (outer ++ [position.procedure]) = position.stack outer ++ [.procedure id] := by
  simp [stack, called, h]

/-- Below an open quote is the stack outside of it. -/
theorem stack_of_cons {position : Position} {owner : NodeId} {rest : List NodeId}
    (h : position.fragments = owner :: rest) :
    position.stack outer = Position.stack outer { position with fragments := rest } ++ [.fragment owner] := by
  simp [stack, h]

theorem stack_of_nil {position : Position} (h : position.fragments = []) :
    position.stack outer = outer.map .procedure ++ [.procedure position.procedure] := by
  simp [stack, h]

theorem current_stack : current (position.stack outer) = position.home := by
  rw [home]
  cases hfragments : position.fragments with
  | nil => rw [stack_of_nil outer hfragments, current_concat]
  | cons id rest => rw [stack_of_cons outer hfragments, current_concat]

/-- The innermost fragment on the stack is that of the position. -/
theorem innermost?_stack : (innermost? (position.stack outer)).map (·.2) = position.fragments.head? := by
  cases hfragments : position.fragments with
  | nil =>
    have hprocedures : position.stack outer = (outer ++ [position.procedure]).map .procedure := by
      simp [stack, hfragments]
    rw [hprocedures, innermost?_procedures]
    rfl
  | cons id rest =>
    rw [stack_of_cons outer hfragments, innermost?_concat]
    rfl

end Position

/-! ## The two walks agree -/

section Mirrors

variable {α β : Type} {frames : List Home} {seen more : List (List Home × Term)} {x : Touring α} {y : Surveying α}

/-- From a stack, `x` finds what `y` finds, has come to the listed nodes, and leaves the stack as it was. -/
def Mirrors (frames : List Home) (seen : List (List Home × Term)) (x : Touring α) (y : Surveying α) : Prop :=
  ∀ s visits, x.run ⟨s, frames, visits⟩ = (y.run s).map fun r => (r.1, ⟨r.2, frames, visits ++ seen⟩)

theorem mirrors_pure (a : α) : Mirrors frames [] (pure a) (pure a) := by
  intro s visits
  rw [List.append_nil]
  rfl

theorem mirrors_record {change : Home → Survey → Survey} {change' : Survey → Survey}
    (h : change (current frames) = change') : Mirrors frames [] (Touring.record change) (modify change') := by
  intro s visits
  rw [List.append_nil, ← h]
  rfl

/-- Two steps mirror two steps, and see what both see. -/
theorem Mirrors.bind {g : α → Touring β} {h : α → Surveying β} (hx : Mirrors frames seen x y)
    (hg : ∀ a, Mirrors frames more (g a) (h a)) : Mirrors frames (seen ++ more) (x >>= g) (y >>= h) := by
  intro s visits
  rw [StateT.run_bind, StateT.run_bind, hx s visits]
  rcases y.run s with e | ⟨a, s₁⟩
  · rfl
  · have hnext := hg a s₁ (visits ++ seen)
    rw [List.append_assoc] at hnext
    exact hnext

theorem Mirrors.of_eq {seen' : List (List Home × Term)} (h : Mirrors frames seen x y) (heq : seen = seen') :
    Mirrors frames seen' x y := heq ▸ h

/-- Going on without coming to more nodes. -/
theorem Mirrors.andThen {g : α → Touring β} {h : α → Surveying β} (hx : Mirrors frames seen x y)
    (hg : ∀ a, Mirrors frames [] (g a) (h a)) : Mirrors frames seen (x >>= g) (y >>= h) :=
  (hx.bind hg).of_eq (List.append_nil seen)

/-- Coming to a node first. -/
theorem Mirrors.arrive (t : Term) (h : Mirrors frames seen x y) :
    Mirrors frames ((frames, t) :: seen) (Touring.arrive t >>= fun _ => x) y := by
  intro s visits
  have hnext := h s (visits ++ [(frames, t)])
  rw [List.append_assoc] at hnext
  exact hnext

/-- A unit is on the stack for a while. -/
theorem Mirrors.pushed {unit : Home} (h : Mirrors (frames ++ [unit]) seen x y) (b : β) :
    Mirrors frames seen (do Touring.push unit; let _ ← x; Touring.pop; return b) (do let _ ← y; return b) := by
  intro s visits
  show (do let _ ← x; Touring.pop; return b : Touring β).run ⟨s, frames ++ [unit], visits⟩ = _
  rw [StateT.run_bind, StateT.run_bind, h s visits]
  rcases y.run s with e | ⟨a, s₁⟩
  · rfl
  · have hframes : (frames ++ [unit]).dropLast = frames := List.dropLast_concat
    show Except.ok (b, Tour.mk s₁ (frames ++ [unit]).dropLast (visits ++ seen)) = _
    rw [hframes]
    rfl

/-- The units above a place are off the stack for a while. -/
theorem Mirrors.splitOff {units : List Home} (h : Mirrors frames seen x y) (b : β) :
    Mirrors (frames ++ units) seen
      (do let above ← Touring.splitOff frames.length; let _ ← x; Touring.putBack above; return b)
      (do let _ ← y; return b) := by
  intro s visits
  have hsplit : (Touring.splitOff frames.length).run ⟨s, frames ++ units, visits⟩ =
      .ok (units, ⟨s, frames, visits⟩) := by
    have htake : (frames ++ units).take frames.length = frames := List.take_left
    have hdrop : (frames ++ units).drop frames.length = units := List.drop_left
    show Except.ok ((frames ++ units).drop frames.length, Tour.mk s ((frames ++ units).take frames.length) visits) = _
    rw [htake, hdrop]
  rw [StateT.run_bind, hsplit]
  show (do let _ ← x; Touring.putBack units; return b : Touring β).run ⟨s, frames, visits⟩ = _
  rw [StateT.run_bind, StateT.run_bind, h s visits]
  rcases y.run s with e | ⟨a, s₁⟩ <;> rfl

/-- The stack can be looked at. -/
theorem Mirrors.look {g : List Home → Touring α} (h : Mirrors frames seen (g frames) y) :
    Mirrors frames seen (Touring.frames >>= g) y := h

end Mirrors

/-- The stack inside a node. -/
def Term.framesInside (frames : List Home) : Term → List Home
  | .quote site .. => frames ++ [.fragment site.id]
  | .escape .. => frames.dropLast
  | .lambda site .. =>
    match current frames with
    | .procedure _ => frames ++ [.procedure site.id]
    | .fragment _ => frames
  | _ => frames

/-- All nodes of a term, each with the stack there. -/
def Term.framedNodes : Term → (frames : List Home) → List (List Home × Term) :=
  fold fun t below frames => (frames, t) :: below.flatMap fun nodes => nodes (t.framesInside frames)

theorem Term.framedNodes_eq (t : Term) (frames : List Home) : t.framedNodes frames =
    (frames, t) :: t.children.flatMap fun child => child.framedNodes (t.framesInside frames) := by
  rw [framedNodes, fold_eq, List.flatMap_map]

section Walk

variable {t : Term} {outer : List NodeId} {position : Position} {scope : Scope NodeId}

/-- A name is used in the unit on top of the stack, which is that of the position. -/
theorem mirrors_resolve (user : NodeId) (name : String) : Mirrors (position.stack outer) []
    (Touring.resolve user name scope) (Surveying.resolve position user name scope) := by
  unfold Touring.resolve Surveying.resolve
  cases scope.lookup? name with
  | none => exact mirrors_pure none
  | some definition =>
    refine (mirrors_record ?_).bind fun _ => mirrors_pure _
    rw [Position.current_stack]

theorem mirrors_defineAll (params : List Param) : Mirrors (position.stack outer) [] (Touring.defineAll params)
    (forIn params PUnit.unit fun param _ => do
      modify (Survey.define position.home param.id)
      pure (ForInStep.yield PUnit.unit)) := by
  induction params with
  | nil => exact mirrors_pure _
  | cons param rest ih =>
    rw [Touring.defineAll, List.forIn_cons, bind_assoc]
    refine (mirrors_record ?_).bind fun _ => ih
    rw [Position.current_stack]

/-- Walking through several terms is mirrored if walking through each is. -/
theorem mirrors_walkAll {ts : List Term} (ih : ∀ t ∈ ts, ∀ outer position scope, Mirrors (position.stack outer)
      (t.framedNodes (position.stack outer)) (Touring.walk t scope) (Surveying.walk t position scope)) :
    Mirrors (position.stack outer) (ts.flatMap fun t => t.framedNodes (position.stack outer))
      (Touring.walkAll ts scope) (Surveying.walkAll ts position scope) := by
  induction ts with
  | nil => exact mirrors_pure ()
  | cons t rest ihrest =>
    have hhead := ih t List.mem_cons_self outer position scope
    have htail := ihrest fun u hu => ih u (List.mem_cons_of_mem _ hu)
    rw [Touring.walkAll, Surveying.walkAll, List.flatMap_cons]
    exact hhead.bind fun _ => htail

/-- The walk with a stack finds what the walk without one finds. -/
theorem mirrors_walk (t : Term) (outer : List NodeId) (position : Position) (scope : Scope NodeId) :
    Mirrors (position.stack outer) (t.framedNodes (position.stack outer)) (Touring.walk t scope)
      (Surveying.walk t position scope) := by
  induction t generalizing outer position scope with
  | literal | held =>
    rw [Touring.walk, Surveying.walk, Term.framedNodes_eq]
    exact (mirrors_pure scope).arrive _
  | seq site lhs rhs ihl ihr =>
    rw [Touring.walk, Surveying.walk, Term.framedNodes_eq, Term.children, List.flatMap_cons, List.flatMap_singleton]
    apply Mirrors.arrive
    exact (ihl outer position scope).bind fun inner => ihr outer position inner
  | define site name value ih =>
    rw [Touring.walk, Surveying.walk, Term.framedNodes_eq, Term.children, List.flatMap_singleton]
    apply Mirrors.arrive
    -- the unit on top of the stack is the unit of the position
    refine (ih outer position scope).andThen fun _ => Mirrors.andThen (mirrors_record ?_) fun _ => ?_
    · rw [Position.current_stack]
    · cases value.snippet? with
      | none => exact mirrors_pure _
      | some snippet => exact (mirrors_record rfl).andThen fun _ => mirrors_pure _
  | assign site name value ih =>
    rw [Touring.walk, Surveying.walk, Term.framedNodes_eq, Term.children, List.flatMap_singleton]
    apply Mirrors.arrive
    refine (ih outer position scope).andThen fun _ => (mirrors_resolve site.id name).andThen fun definition => ?_
    cases definition with
    | none => exact mirrors_pure _
    | some definition =>
      cases value.snippet? with
      | none => exact mirrors_pure _
      | some snippet => exact (mirrors_record rfl).andThen fun _ => mirrors_pure _
  | lookup site name =>
    rw [Touring.walk, Surveying.walk, Term.framedNodes_eq]
    apply Mirrors.arrive
    exact (mirrors_resolve site.id name).andThen fun _ => mirrors_pure _
  | unary site op operand ih =>
    rw [Touring.walk, Surveying.walk, Term.framedNodes_eq, Term.children, List.flatMap_singleton]
    apply Mirrors.arrive
    exact (ih outer position scope).andThen fun _ => mirrors_pure _
  | run site body ih =>
    rw [Touring.walk, Surveying.walk, Term.framedNodes_eq, Term.children, List.flatMap_singleton]
    apply Mirrors.arrive
    exact ih outer position scope
  | binary site op lhs rhs ihl ihr =>
    rw [Touring.walk, Surveying.walk, Term.framedNodes_eq, Term.children, List.flatMap_cons, List.flatMap_singleton]
    apply Mirrors.arrive
    exact (ihl outer position scope).bind fun inner => (ihr outer position inner).andThen fun _ => mirrors_pure _
  | call site callee args ihf iha =>
    -- callee and arguments are walked with the same stack
    rw [Touring.walk, Surveying.walk, Term.framedNodes_eq, Term.children, List.flatMap_cons]
    apply Mirrors.arrive
    exact (ihf outer position scope).bind fun _ => (mirrors_walkAll iha).andThen fun _ => mirrors_pure _
  | host site name type =>
    rw [Touring.walk, Surveying.walk, Term.framedNodes_eq]
    apply Mirrors.arrive
    refine Mirrors.andThen (mirrors_record ?_) fun _ => mirrors_pure _
    rw [Position.current_stack]
  | quote site label snippet body ih =>
    rw [Touring.walk, Surveying.walk, Term.framedNodes_eq, Term.children, List.flatMap_singleton]
    apply Mirrors.arrive
    apply Mirrors.look
    have hbody := ih outer (position.quoted site.id) scope
    rw [Position.stack_quoted] at hbody
    -- both walks record the same fragment around the new one
    refine Mirrors.bind (mirrors_record ?_) fun _ => hbody.pushed scope
    rw [Position.current_stack, Position.innermost?_stack]
  | escape site kind body ih =>
    rw [Touring.walk, Surveying.walk, Term.framedNodes_eq, Term.children, List.flatMap_singleton]
    apply Mirrors.arrive
    apply Mirrors.look
    cases hfragments : position.fragments with
    | nil =>
      -- no fragment is on the stack either, so both walks fail
      have hnone := position.innermost?_stack outer
      rw [hfragments, List.head?_nil, Option.map_eq_none_iff] at hnone
      rw [hnone]
      intro s visits
      rfl
    | cons owner rest =>
      -- nothing is above the innermost fragment, so only this one is taken off
      have hbody := ih outer { position with fragments := rest } scope
      rw [Position.stack_of_cons outer hfragments, innermost?_concat, Term.framesInside, List.dropLast_concat]
      exact Mirrors.bind (mirrors_record rfl) fun _ => hbody.splitOff scope
  | lambda site params body ih =>
    rw [Touring.walk, Surveying.walk, Term.framedNodes_eq, Term.children, List.flatMap_singleton, Term.framesInside]
    apply Mirrors.arrive
    apply Mirrors.look
    rw [Position.current_stack, Position.home]
    cases hfragments : position.fragments with
    | nil =>
      have hbody := ih (outer ++ [position.procedure]) (position.called site.id)
        (scope.extendAll (params.map fun param => (param.name, param.id)))
      -- the parameters are defined in the new procedure
      have hunit := (mirrors_defineAll params).bind fun _ => hbody
      rw [Position.stack_called outer hfragments, List.nil_append] at hunit
      have hpushed := hunit.pushed scope
      simp only [bind_assoc, Position.called, hfragments] at hpushed
      exact Mirrors.bind (mirrors_record rfl) fun _ => hpushed
    | cons owner rest =>
      -- a function in quoted code is part of the fragment, and nothing is pushed
      have hbody := ih outer position (scope.extendAll (params.map fun param => (param.name, param.id)))
      exact (mirrors_defineAll params).bind fun _ => hbody.andThen fun _ => mirrors_pure _

end Walk

/-! ## The shape of stacks -/

/-- Procedures, at least one, and then as many fragments as the level says. -/
def StackAt (level : Int) (frames : List Home) : Prop :=
  ∃ procedures fragments : List NodeId, procedures ≠ [] ∧
    frames = procedures.map .procedure ++ fragments.map .fragment ∧ (fragments.length : Int) = level

theorem Position.stackAt (outer : List NodeId) (position : Position) :
    StackAt position.fragments.length (position.stack outer) := by
  refine ⟨outer ++ [position.procedure], position.fragments.reverse, ?_, rfl, ?_⟩
  · exact List.concat_ne_nil _ _
  · rw [List.length_reverse]

namespace Term

variable {t : Term} {position : Position}

theorem map_snd_framedNodes (t : Term) (frames : List Home) : (t.framedNodes frames).map (·.2) = t.nodes := by
  induction t using induct_children generalizing frames with
  | step t ih =>
    rw [framedNodes_eq, nodes_eq, List.map_cons, List.map_flatMap]
    rw [List.flatMap_def, List.flatMap_def]
    exact congrArg (t :: List.flatten ·) (List.map_congr_left fun child hchild => ih child hchild _)

/-- What is done to the stack at a node takes it from one position to the other. -/
theorem framesInside_stack (h : t.EscapesInside position.fragments.length) (outer : List NodeId) :
    ∃ outer', t.framesInside (position.stack outer) = (t.positionInside position).stack outer' := by
  cases t with
  | quote site label snippet body => exact ⟨outer, (position.stack_quoted outer site.id).symm⟩
  | escape site kind body =>
    cases hfragments : position.fragments with
    | nil =>
      have hopen := (escapesInside_iff.1 h).1 rfl
      rw [hfragments] at hopen
      simp at hopen
    | cons owner rest =>
      refine ⟨outer, ?_⟩
      rw [Position.stack_of_cons outer hfragments, framesInside, List.dropLast_concat, positionInside, hfragments]
      rfl
  | lambda site params body =>
    rw [framesInside, Position.current_stack, Position.home]
    cases hfragments : position.fragments with
    | nil => exact ⟨outer ++ [position.procedure], (Position.stack_called outer hfragments site.id).symm⟩
    | cons owner rest =>
      refine ⟨outer, ?_⟩
      rw [positionInside, Position.called, hfragments]
  | _ => exact ⟨outer, rfl⟩

/-- Where escapes are inside quotes, the stacks at all nodes have the shape that the levels say. -/
theorem forall₂_framedNodes (h : t.EscapesInside position.fragments.length) (outer : List NodeId) :
    List.Forall₂ (fun here there => here.2 = there.2 ∧ StackAt there.1 here.1)
      (t.framedNodes (position.stack outer)) (t.nodesAt position.fragments.length) := by
  induction t using induct_children generalizing position outer with
  | step t ih =>
    have hlength := (openBelow_eq h).2
    rw [← fragments_positionInside] at hlength
    rcases framesInside_stack h outer with ⟨outer', hinside⟩
    rw [framedNodes_eq, nodesAt_eq, hinside, ← hlength]
    refine .cons ⟨rfl, position.stackAt outer⟩ (forall₂_flatMap fun child hchild => ih child hchild ?_ outer')
    rw [hlength]
    exact h.child hchild

end Term

/-- **Checked programs split up to the rules for snippets.** For every prelude and every program that it
elaborates, splitting gives units or the fault that a snippet is misused: no escape is found at the top level, and
the main procedure is not lost. The walk finds what the walk with a stack finds, and at every node, in the order in
which the checker comes to them, the stack is a run of procedures, at least one, and then a run of as many fragments
as the checker's level says. -/
theorem checked_programs_split (p : Prelude) (t : Term) (e : Elaboration) (types : TypeTable)
    (he : p.elaborate t = .ok e) :
    ((∃ b, Blueprint.ofTerm t types = .ok b) ∨
      ∃ node misuse, Blueprint.ofTerm t types = .error (.invalidSnippet node misuse)) ∧
    ∃ j visits scope tour,
      p.checkIn {} t = .ok j ∧ (p.trace t {}).run [] = .ok (j, visits) ∧
      (Surveying.walk t ⟨t.id, []⟩ {}).run t.start = .ok (scope, tour.survey) ∧
      (Touring.walk t {}).run ⟨t.start, [.procedure t.id], []⟩ = .ok (scope, tour) ∧
      tour.frames = [.procedure t.id] ∧ tour.visits.map (·.2) = t.nodes ∧
      List.Forall₂ (fun here there => here.2 = there.2 ∧
        ∃ procedures fragments : List NodeId, procedures ≠ [] ∧
          here.1 = procedures.map .procedure ++ fragments.map .fragment ∧
          fragments.length = there.1.level) tour.visits visits := by
  rcases elaborate_eq_ok_iff.1 he with ⟨j, log, hj, -⟩
  have hinside : t.EscapesInside (Position.mk t.id []).fragments.length := hj.escapesInside
  rcases Surveying.succeeds_walk hinside {} t.start with ⟨⟨scope, survey⟩, hwalk⟩
  -- the walk with a stack does what the walk does, and the trace what the checker does
  have htour := mirrors_walk t [] ⟨t.id, []⟩ {} t.start []
  rw [hwalk] at htour
  rcases (tracks_trace p t {}).run_eq_ok hj.checkIn_eq with ⟨visits, htrace, hvisits⟩
  -- of the checker's contexts only the levels matter
  have hshape : List.Forall₂ (fun here there => here.2 = there.2 ∧ StackAt there.1 here.1)
      (t.framedNodes [.procedure t.id]) visits.levels := by
    rw [hvisits]
    exact t.forall₂_framedNodes hinside []
  refine ⟨Blueprint.ofTerm_cases hinside types, j, visits, scope, _, hj.checkIn_eq, htrace, hwalk, htour, rfl,
    ?_, ?_⟩
  · exact t.map_snd_framedNodes _
  · refine (List.forall₂_map_right_iff.1 hshape).imp ?_
    rintro here there ⟨hnode, procedures, fragments, hmain, hframes, hlevel⟩
    exact ⟨hnode, procedures, fragments, hmain, hframes, Int.ofNat.inj hlevel⟩

/-- `< [ let f = fun k:Int -> < 2 >; < 1 > ] >`: the escape takes the outer quote off the stack, and the function
in it is pushed in its place. -/
def splicedFunction : Term :=
  .quote ⟨0, {}⟩ none false (.escape ⟨1, {}⟩ .splice (.seq ⟨2, {}⟩
    (.define ⟨3, {}⟩ "f" (.lambda ⟨4, {}⟩ [⟨5, "k", some (.named "Int")⟩]
      (.quote ⟨6, {}⟩ none false (.literal ⟨7, {}⟩ (.int 2)))))
    (.quote ⟨8, {}⟩ none false (.literal ⟨9, {}⟩ (.int 1)))))

/-- The stack at every node of a program whose escape takes a quote off it and puts a procedure in its place. -/
theorem checked_programs_split_splicedFunction : ∃ e b j visits scope tour,
    Prelude.general.elaborate splicedFunction = .ok e ∧ Blueprint.ofTerm splicedFunction e.table = .ok b ∧
      (Prelude.general.trace splicedFunction {}).run [] = .ok (j, visits) ∧
      visits.map (fun v => (v.2.id, v.1.level)) =
        [(0, 0), (1, 1), (2, 0), (3, 0), (4, 0), (6, 0), (7, 1), (8, 0), (9, 1)] ∧
      (Touring.walk splicedFunction {}).run ⟨splicedFunction.start, [.procedure 0], []⟩ = .ok (scope, tour) ∧
      tour.visits.map (fun v => (v.2.id, v.1)) =
        [(0, [.procedure 0]), (1, [.procedure 0, .fragment 0]), (2, [.procedure 0]), (3, [.procedure 0]),
          (4, [.procedure 0]), (6, [.procedure 0, .procedure 4]), (7, [.procedure 0, .procedure 4, .fragment 6]),
          (8, [.procedure 0]), (9, [.procedure 0, .fragment 8])] ∧
      tour.frames = [.procedure 0] ∧
      List.Forall₂ (fun here there => here.2 = there.2 ∧ ∃ procedures fragments : List NodeId,
        procedures ≠ [] ∧ here.1 = procedures.map .procedure ++ fragments.map .fragment ∧
          fragments.length = there.1.level) tour.visits visits := by
  obtain ⟨e, b, he, hb⟩ : ∃ e b, Prelude.general.elaborate splicedFunction = .ok e ∧
      Blueprint.ofTerm splicedFunction e.table = .ok b := ⟨_, _, rfl, rfl⟩
  obtain ⟨j, visits, htrace, hlevels⟩ : ∃ j visits,
      (Prelude.general.trace splicedFunction {}).run [] = .ok (j, visits) ∧
        visits.map (fun v => (v.2.id, v.1.level)) = _ := ⟨_, _, rfl, rfl⟩
  obtain ⟨scope, tour, htour, hstacks⟩ : ∃ scope tour,
      (Touring.walk splicedFunction {}).run ⟨splicedFunction.start, [.procedure 0], []⟩ = .ok (scope, tour) ∧
        tour.visits.map (fun v => (v.2.id, v.1)) = _ := ⟨_, _, rfl, rfl⟩
  obtain ⟨-, j', visits', scope', tour', -, htrace', -, htour', hframes, -, hshape⟩ :=
    checked_programs_split Prelude.general splicedFunction e e.table he
  cases htrace.symm.trans htrace'
  cases htour.symm.trans htour'
  exact ⟨e, b, j, visits, scope, tour, he, hb, htrace, hlevels, htour, hstacks, hframes, hshape⟩

end Multistage
