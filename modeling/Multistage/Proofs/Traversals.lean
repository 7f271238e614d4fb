import Multistage.Proofs.Terms

/-!
# Traversals

A term can be walked through, searched, taken apart into its children and rebuilt from others. The functions
for it agree on what the children of a node are and on their order.

* `Term.find?_eq_find?_nodes`: the search finds what comes first on the walk;
* `Term.mapChildrenM_eq`: a node is rebuilt from its children, one after another;
* `Term.answers_or_fails` and the lemmas after it: what a function that may fail is called on;
* `Term.traversals_agree` puts it all together.

The function that rebuilds the children may also keep a state, so an answer may depend on the calls before it.
-/

namespace Multistage

/-! ## Computations that may fail and keep a state -/

section Run

variable {σ ε α β : Type} {x : ExceptT ε (StateM σ) α} {s s' : σ}

theorem run_bind_of_ok {g : α → ExceptT ε (StateM σ) β} {a : α} (h : (x.run.run s).run = (.ok a, s')) :
    ((x >>= g).run.run s).run = ((g a).run.run s').run := by
  rw [ExceptT.run_bind, StateT.run_bind, Id.run_bind, h]

theorem run_bind_of_error {g : α → ExceptT ε (StateM σ) β} {e : ε} (h : (x.run.run s).run = (.error e, s')) :
    ((x >>= g).run.run s).run = (.error e, s') := by
  rw [ExceptT.run_bind, StateT.run_bind, Id.run_bind, h]
  rfl

theorem run_map_of_ok (g : α → β) {a : α} (h : (x.run.run s).run = (.ok a, s')) :
    ((g <$> x).run.run s).run = (.ok (g a), s') := by
  rw [map_eq_pure_bind, run_bind_of_ok h]
  rfl

theorem run_map_of_error (g : α → β) {e : ε} (h : (x.run.run s).run = (.error e, s')) :
    ((g <$> x).run.run s).run = (.error e, s') := by
  rw [map_eq_pure_bind, run_bind_of_error h]

end Run

namespace Term

/-! ## The content of a node -/

/-- What a node holds beside its site and its children. -/
inductive Content where
  | literal (value : Literal)
  | seq
  | define (name : String)
  | assign (name : String)
  | lookup (name : String)
  | unary (op : UnaryOp)
  | binary (op : BinaryOp)
  | quote (label : Option String) (snippet : Bool)
  | escape (kind : EscapeKind)
  | run
  | lambda (params : List Param)
  | call
  | host (name : String) (type : TypeExpr)
  | held (index : Nat)
  deriving DecidableEq

/-- The content of the topmost node. -/
def content : Term → Content
  | .literal _ value => .literal value
  | .seq .. => .seq
  | .define _ name _ => .define name
  | .assign _ name _ => .assign name
  | .lookup _ name => .lookup name
  | .unary _ op _ => .unary op
  | .binary _ op _ _ => .binary op
  | .quote _ label snippet _ => .quote label snippet
  | .escape _ kind _ => .escape kind
  | .run .. => .run
  | .lambda _ params _ => .lambda params
  | .call .. => .call
  | .host _ name type => .host name type
  | .held _ index => .held index

theorem content_withChildren (t : Term) (ts : List Term) : (t.withChildren ts).content = t.content := by
  unfold withChildren
  split <;> rfl

/-- A term is its site, its content and its children. -/
theorem eq_of_content {t u : Term} (hsite : t.site = u.site) (hcontent : t.content = u.content)
    (hchildren : t.children = u.children) : t = u := by
  -- the contents tell the constructs apart, which leaves one case for each of them
  cases t <;> cases u <;> cases hcontent <;> cases hsite <;> cases hchildren <;> rfl

theorem mapChildren_eq (f : Term → Term) (t : Term) :
    t.mapChildren f = t.withChildren (t.children.map f) := by
  rw [mapChildren, mapChildrenM_eq]
  simp

/-- Children that are replaced by themselves leave the term as it is. -/
theorem mapChildren_id (t : Term) : t.mapChildren (fun child => child) = t := by
  rw [mapChildren_eq]
  have hchildren := children_withChildren (t := t) (List.length_map fun child => child)
  rw [List.map_id'] at hchildren ⊢
  exact eq_of_content (site_withChildren t _) (content_withChildren t _) hchildren

/-! ## Searching -/

theorem find?_eq (wanted : NodeId) (t : Term) :
    t.find? wanted =
      if t.id = wanted then some t else (t.children.map (find? wanted)).findSome? fun found => found := by
  rw [find?, fold_eq]

/-- The search finds the first node with the identity among the nodes in their order. -/
theorem find?_eq_find?_nodes (wanted : NodeId) (t : Term) :
    t.find? wanted = t.nodes.find? fun node => node.id = wanted := by
  induction t using induct_children with
  | step t ih =>
    rw [find?_eq, nodes_eq, List.map_congr_left ih, List.findSome?_map]
    by_cases hroot : t.id = wanted
    · rw [if_pos hroot, List.find?_cons_of_pos (by simpa using hroot)]
    · rw [if_neg hroot, List.find?_cons_of_neg (by simpa using hroot), List.find?_flatMap]
      rfl

/-! ## Calls on children -/

section Calls

variable {σ ε : Type} {f : Term → σ → Except ε Term × σ} {s s' : σ} {ts us : List Term}

/-- Called on `ts` one after another from the state `s`, the function `f` answers with `us` and leaves the
state `s'`. -/
inductive Answers (f : Term → σ → Except ε Term × σ) : (s : σ) → (ts us : List Term) → (s' : σ) → Prop where
  | nil {s : σ} : Answers f s [] [] s
  | cons {s s₁ s' : σ} {t u : Term} {ts us : List Term} :
    f t s = (.ok u, s₁) → Answers f s₁ ts us s' → Answers f s (t :: ts) (u :: us) s'

theorem Answers.length_eq (h : Answers f s ts us s') : us.length = ts.length := by
  induction h with
  | nil => rfl
  | cons _ _ ih => rw [List.length_cons, List.length_cons, ih]

/-- Either there is an answer for all terms, or there is a first one for which there is an error. -/
theorem answers_or_fails (f : Term → σ → Except ε Term × σ) (s : σ) (ts : List Term) :
    (∃ us s', Answers f s ts us s') ∨
      ∃ before child after us s₁ e s', ts = before ++ child :: after ∧ Answers f s before us s₁ ∧
        f child s₁ = (.error e, s') := by
  induction ts generalizing s with
  | nil => exact .inl ⟨[], s, .nil⟩
  | cons t rest ih =>
    rcases hanswer : f t s with ⟨answer, s₁⟩
    cases answer with
    | error e => exact .inr ⟨[], t, rest, [], s, e, s₁, rfl, .nil, hanswer⟩
    | ok u =>
      rcases ih s₁ with ⟨us, s', hrest⟩ | ⟨before, child, after, us, s₂, e, s', rfl, hbefore, hfails⟩
      · exact .inl ⟨u :: us, s', .cons hanswer hrest⟩
      · exact .inr ⟨t :: before, child, after, u :: us, s₂, e, s', rfl, .cons hanswer hbefore, hfails⟩

/-- The function `f`, which also notes what it is called on. -/
def noting (f : Term → σ → Except ε Term × σ) (t : Term) : ExceptT ε (StateM (List Term × σ)) Term :=
  fun state => ((f t state.2).1, state.1 ++ [t], (f t state.2).2)

theorem run_noting {t : Term} {answer : Except ε Term} (h : f t s = (answer, s')) (calls : List Term) :
    ((noting f t).run.run (calls, s)).run = (answer, calls ++ [t], s') := by
  show ((f t s).1, calls ++ [t], (f t s).2) = _
  rw [h]

/-- Where there is an answer for all terms, all of them are noted. -/
theorem Answers.run_mapM (h : Answers f s ts us s') (calls : List Term) :
    ((ts.mapM (noting f)).run.run (calls, s)).run = (.ok us, calls ++ ts, s') := by
  induction h generalizing calls with
  | nil => simp
  | cons hanswer _ ih =>
    rw [List.mapM_cons, run_bind_of_ok (run_noting hanswer calls), run_bind_of_ok (ih _), List.append_assoc]
    rfl

/-- After an error there are no more calls. -/
theorem Answers.run_mapM_fails {before : List Term} {child : Term} {e : ε} {s₁ : σ}
    (h : Answers f s before us s₁) (hfails : f child s₁ = (.error e, s')) (after calls : List Term) :
    (((before ++ child :: after).mapM (noting f)).run.run (calls, s)).run =
      (.error e, calls ++ before ++ [child], s') := by
  rw [List.mapM_append, run_bind_of_ok (h.run_mapM calls), List.mapM_cons]
  exact run_bind_of_error (run_bind_of_error (run_noting hfails _))

/-- **All traversals of a term agree.** The walk comes to the term itself and then to the nodes of its
children, and a search gives the first node with the identity in that order; identities may be repeated.
Rebuilding a node calls a function that may fail on the children in their order. Either all calls succeed, all
of them are made, and the node has the same site, construct and content over the answers; or some call is the
first to fail, no other is made after it, and its error is the result. Rebuilding with the children themselves
changes nothing. -/
theorem traversals_agree (t : Term) (wanted : NodeId) (f : Term → σ → Except ε Term × σ) (s : σ) :
    t.nodes = t :: t.children.flatMap nodes ∧
    t.find? wanted = t.nodes.find? (fun node => node.id = wanted) ∧
    ((∃ us s' t', Answers f s t.children us s' ∧
        ((t.mapChildrenM (noting f)).run.run ([], s)).run = (.ok t', t.children, s') ∧
        t'.id = t.id ∧ t'.span = t.span ∧ t'.tag = t.tag ∧ t'.content = t.content ∧ t'.children = us) ∨
      (∃ before child after us s₁ e s', t.children = before ++ child :: after ∧
        Answers f s before us s₁ ∧ f child s₁ = (.error e, s') ∧
        ((t.mapChildrenM (noting f)).run.run ([], s)).run = (.error e, before ++ [child], s'))) ∧
    t.mapChildren (fun child => child) = t := by
  refine ⟨nodes_eq t, find?_eq_find?_nodes wanted t, ?_, mapChildren_id t⟩
  rw [mapChildrenM_eq]
  rcases answers_or_fails f s t.children with
    ⟨us, s', hus⟩ | ⟨before, child, after, us, s₁, e, s', hsplit, hbefore, hfails⟩
  · have hrun := run_map_of_ok t.withChildren (hus.run_mapM [])
    have hsite := site_withChildren t us
    exact .inl ⟨us, s', t.withChildren us, hus, hrun, congrArg Site.id hsite, congrArg Site.span hsite,
      tag_withChildren t us, content_withChildren t us, children_withChildren hus.length_eq⟩
  · refine .inr ⟨before, child, after, us, s₁, e, s', hsplit, hbefore, hfails, ?_⟩
    rw [hsplit]
    exact run_map_of_error t.withChildren (hbefore.run_mapM_fails hfails after [])

/-- The second argument of three cannot be rebuilt, and the third is not looked at. -/
example :
    let call := Term.call ⟨0, {}⟩ (.lookup ⟨1, {}⟩ "f")
      [.lookup ⟨2, {}⟩ "x", .lookup ⟨3, {}⟩ "y", .lookup ⟨4, {}⟩ "z"]
    let f : Term → Nat → Except String Term × Nat := fun t count =>
      if t.id = 3 then (.error "y", count) else (.ok t, count + 1)
    ((call.mapChildrenM (noting f)).run.run ([], 0)).run = (.error "y", call.children.take 3, 2) :=
  rfl

end Calls

end Term

end Multistage
