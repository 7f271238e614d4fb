import Mathlib.Data.List.Nodup
import Mathlib.Data.List.Pairwise
import Multistage.Program

/-!
# Induction over terms

A call holds a list of arguments, so the recursor of `Term` speaks of lists of terms as well.
`Term.induct` is the principle that proofs use: one case a construct, and for a call a hypothesis for
each argument. The other lemmas say what the nodes and identities of a term are, one level at a time.
-/

namespace Multistage.Term

/-- Induction over terms. -/
@[induction_eliminator, elab_as_elim]
theorem induct {motive : Term → Prop}
    (literal : ∀ site value, motive (.literal site value))
    (seq : ∀ site lhs rhs, motive lhs → motive rhs → motive (.seq site lhs rhs))
    (define : ∀ site name value, motive value → motive (.define site name value))
    (assign : ∀ site name value, motive value → motive (.assign site name value))
    (lookup : ∀ site name, motive (.lookup site name))
    (unary : ∀ site op operand, motive operand → motive (.unary site op operand))
    (binary : ∀ site op lhs rhs, motive lhs → motive rhs → motive (.binary site op lhs rhs))
    (quote : ∀ site label snippet body, motive body → motive (.quote site label snippet body))
    (escape : ∀ site kind body, motive body → motive (.escape site kind body))
    (run : ∀ site body, motive body → motive (.run site body))
    (lambda : ∀ site params body, motive body → motive (.lambda site params body))
    (call : ∀ site callee args, motive callee → (∀ arg ∈ args, motive arg) →
      motive (.call site callee args))
    (host : ∀ site name type, motive (.host site name type))
    (held : ∀ site index, motive (.held site index)) (t : Term) : motive t :=
  Term.rec (motive_2 := fun ts => ∀ t ∈ ts, motive t) literal seq define assign lookup unary binary
    quote escape run lambda call host held (by simp) (by simp +contextual) t

/-- Induction over terms, alike for every construct. -/
theorem induct_children {motive : Term → Prop}
    (step : ∀ t : Term, (∀ child ∈ t.children, motive child) → motive t) (t : Term) : motive t := by
  induction t with
  | literal | lookup | host | held => exact step _ (List.forall_mem_nil _)
  | define _ _ u ih | assign _ _ u ih | unary _ _ u ih | quote _ _ _ u ih | escape _ _ u ih
  | run _ u ih | lambda _ _ u ih => exact step _ (List.forall_mem_singleton.2 ih)
  | seq _ l r ihl ihr | binary _ _ l r ihl ihr =>
    exact step _ (List.forall_mem_cons.2 ⟨ihl, List.forall_mem_singleton.2 ihr⟩)
  | call _ f args ihf iha => exact step _ (List.forall_mem_cons.2 ⟨ihf, iha⟩)

/-! ## Replacing children -/

theorem tag_withChildren (t : Term) (ts : List Term) : (t.withChildren ts).tag = t.tag := by
  unfold withChildren
  split <;> rfl

theorem site_withChildren (t : Term) (ts : List Term) : (t.withChildren ts).site = t.site := by
  unfold withChildren
  split <;> rfl

theorem id_withChildren (t : Term) (ts : List Term) : (t.withChildren ts).id = t.id :=
  congrArg Site.id (t.site_withChildren ts)

theorem params_withChildren (t : Term) (ts : List Term) : (t.withChildren ts).params = t.params := by
  unfold withChildren
  split <;> rfl

/-- A node that gets as many parts as it has takes them all. -/
theorem children_withChildren {t : Term} {ts : List Term} (h : ts.length = t.children.length) :
    (t.withChildren ts).children = ts := by
  -- no construct but a call has more than two children
  cases t with
  | literal | lookup | host | held =>
    cases List.length_eq_zero_iff.1 h
    rfl
  | define | assign | unary | quote | escape | run | lambda =>
    rcases List.length_eq_one_iff.1 h with ⟨u, rfl⟩
    rfl
  | seq | binary =>
    match ts, h with
    | [u, v], _ => rfl
  | call =>
    cases ts with
    | nil => cases h
    | cons u rest => rfl

theorem withChildren_children (t : Term) : t.withChildren t.children = t := by
  cases t <;> rfl

/-- Children that are replaced again leave no trace. -/
theorem withChildren_withChildren {t : Term} {ts us : List Term} (hts : ts.length = t.children.length)
    (hus : us.length = t.children.length) : (t.withChildren ts).withChildren us = t.withChildren us := by
  cases t with
  | literal | lookup | host | held => rfl
  | define | assign | unary | quote | escape | run | lambda =>
    rcases List.length_eq_one_iff.1 hts with ⟨t, rfl⟩
    rcases List.length_eq_one_iff.1 hus with ⟨u, rfl⟩
    rfl
  | seq | binary =>
    match ts, us, hts, hus with
    | [_, _], [_, _], _, _ => rfl
  | call =>
    match ts, us, hts, hus with
    | _ :: _, _ :: _, _, _ => rfl

/-- To rebuild a node is to rebuild its children, one after another, and to put them in their place. -/
theorem mapChildrenM_eq {m : Type → Type} [Monad m] [LawfulMonad m] (f : Term → m Term) (t : Term) :
    t.mapChildrenM f = t.withChildren <$> t.children.mapM f := by
  cases t <;> simp [mapChildrenM, children, withChildren]

/-! ## Nodes -/

theorem nodes_eq (t : Term) : t.nodes = t :: t.children.flatMap nodes := by
  rw [nodes, fold_eq, List.flatMap_def]

theorem mem_nodes_self (t : Term) : t ∈ t.nodes := by
  rw [nodes_eq]
  exact List.mem_cons_self

theorem nodes_child {t child : Term} (h : child ∈ t.children) : child.nodes ⊆ t.nodes := by
  intro node hnode
  rw [nodes_eq t]
  exact List.mem_cons_of_mem _ (List.mem_flatMap.2 ⟨child, h, hnode⟩)

/-- The nodes below a node of a term are nodes of the term. -/
theorem nodes_subset {t node : Term} (h : node ∈ t.nodes) : node.nodes ⊆ t.nodes := by
  induction t using induct_children with
  | step t ih =>
    rw [nodes_eq t] at h
    rcases List.mem_cons.1 h with rfl | h
    · exact List.Subset.refl _
    · rcases List.mem_flatMap.1 h with ⟨child, hchild, h⟩
      exact List.Subset.trans (ih child hchild h) (nodes_child hchild)

/-- In a term whose nodes have different identities, an identity is that of one node. -/
theorem eq_of_id {t node other : Term} (hids : t.ids.Nodup) (hnode : node ∈ t.nodes) (hother : other ∈ t.nodes)
    (h : node.id = other.id) : node = other :=
  List.inj_on_of_nodup_map hids hnode hother h

theorem forall_nodes_child {t child : Term} {p : Term → Prop} (h : ∀ node ∈ t.nodes, p node)
    (hchild : child ∈ t.children) : ∀ node ∈ child.nodes, p node :=
  fun node hnode => h node (nodes_child hchild hnode)

/-- The nodes of a term are among its identities. -/
theorem ids_sublist_allIds (t : Term) : t.ids.Sublist t.allIds := by
  rw [ids, allIds]
  induction t.nodes with
  | nil => exact .slnil
  | cons node rest ih => exact (ih.trans (List.sublist_append_right _ _)).cons_cons node.id

theorem ids_eq (t : Term) : t.ids = t.id :: t.children.flatMap ids := by
  rw [ids, nodes_eq, List.map_cons, List.map_flatMap]
  rfl

theorem ids_child {t child : Term} (h : child ∈ t.children) : child.ids ⊆ t.ids := by
  rw [t.ids_eq]
  exact fun id hid => List.mem_cons_of_mem _ (List.mem_flatMap.2 ⟨child, h, hid⟩)

theorem allIds_eq (t : Term) : t.allIds = t.id :: (t.params.map (·.id) ++ t.children.flatMap allIds) := by
  rw [allIds, nodes_eq, List.flatMap_cons, List.flatMap_assoc]
  rfl

theorem allIds_of_one {t u : Term} (h : t.children = [u]) :
    t.allIds = t.id :: (t.params.map (·.id) ++ u.allIds) := by
  rw [allIds_eq, h, List.flatMap_singleton]

theorem allIds_of_two {t l r : Term} (h : t.children = [l, r]) (hparams : t.params = []) :
    t.allIds = t.id :: (l.allIds ++ r.allIds) := by
  rw [allIds_eq, h, hparams, List.flatMap_cons, List.flatMap_singleton]
  rfl

/-- In a term with different identities no two nodes share one, be it of the node or of a parameter. -/
theorem eq_of_shared_id {t node other : Term} (hids : t.allIds.Nodup) (hnode : node ∈ t.nodes)
    (hother : other ∈ t.nodes) {id : NodeId} (h : id ∈ node.id :: node.params.map (·.id))
    (h' : id ∈ other.id :: other.params.map (·.id)) : node = other := by
  by_contra hne
  let own (node : Term) : List NodeId := node.id :: node.params.map (·.id)
  have hdisjoint : t.nodes.Pairwise (Function.onFun List.Disjoint own) := (List.nodup_flatMap.1 hids).2
  have : Std.Symm (Function.onFun List.Disjoint own) := ⟨fun _ _ hd _ h h' => hd h' h⟩
  exact hdisjoint.forall hnode hother hne h h'

/-- In a term with different identities no parameter shares one with a node. -/
theorem id_ne_of_mem_params {t node other : Term} (hids : t.allIds.Nodup) (hnode : node ∈ t.nodes)
    (hother : other ∈ t.nodes) {param : Param} (hparam : param ∈ node.params) : param.id ≠ other.id := by
  intro heq
  have hmem : param.id ∈ node.params.map (·.id) := List.mem_map_of_mem hparam
  have hsame : node = other :=
    eq_of_shared_id hids hnode hother (List.mem_cons_of_mem _ hmem) (heq ▸ List.mem_cons_self)
  have hown : (node.id :: node.params.map (·.id)).Nodup := (List.nodup_flatMap.1 hids).1 node hnode
  rw [heq, ← hsame] at hmem
  exact (List.nodup_cons.1 hown).1 hmem

/-- A bound on identities that can be checked one by one. -/
theorem ids_lt_of_all {t : Term} {bound : NodeId} (h : t.ids.all (· < bound) = true) :
    ∀ id ∈ t.ids, id < bound := by
  simpa using h

theorem allIds_lt_of_all {t : Term} {bound : NodeId} (h : t.allIds.all (· < bound) = true) :
    ∀ id ∈ t.allIds, id < bound := by
  simpa using h

/-! ## Levels -/

/-- The level at which the children of a node at `level` stand. -/
def levelBelow (level : Int) : Term → Int
  | .quote .. => level + 1
  | .escape .. => level - 1
  | _ => level

theorem levelBelow_withChildren (t : Term) (ts : List Term) (level : Int) :
    (t.withChildren ts).levelBelow level = t.levelBelow level := by
  unfold withChildren
  split <;> rfl

/-- All nodes of a term at `level`, each with the level that it stands at: one more for each quote around
it, and one less for each escape. -/
def nodesAt : Term → (level : Int) → List (Int × Term) :=
  fold fun t below level => (level, t) :: below.flatMap fun nodes => nodes (t.levelBelow level)

theorem nodesAt_eq (t : Term) (level : Int) :
    t.nodesAt level =
      (level, t) :: t.children.flatMap fun child => child.nodesAt (t.levelBelow level) := by
  rw [nodesAt, fold_eq, List.flatMap_map]

/-- Levels are listed for all nodes, in order. -/
theorem map_snd_nodesAt (t : Term) (level : Int) : (t.nodesAt level).map (·.2) = t.nodes := by
  induction t using induct_children generalizing level with
  | step t ih =>
    rw [nodesAt_eq, nodes_eq, List.map_cons, List.map_flatMap]
    rw [List.flatMap_def, List.flatMap_def]
    exact congrArg (t :: List.flatten ·) (List.map_congr_left fun child hchild => ih child hchild _)

/-- The nodes of a node are nodes of the term, at the same levels. -/
theorem nodesAt_subset {t node : Term} {level level' : Int} (h : (level', node) ∈ t.nodesAt level) :
    node.nodesAt level' ⊆ t.nodesAt level := by
  induction t using induct_children generalizing level with
  | step t ih =>
    rw [nodesAt_eq] at h
    rcases List.mem_cons.1 h with heq | h
    · cases heq
      exact List.Subset.refl _
    · rcases List.mem_flatMap.1 h with ⟨child, hchild, h⟩
      intro entry hentry
      rw [nodesAt_eq]
      exact List.mem_cons_of_mem _ (List.mem_flatMap.2 ⟨child, hchild, ih child hchild h hentry⟩)

/-- What holds of all nodes of a term holds of the term and of all nodes of its children. -/
theorem forall_nodesAt {t : Term} {level : Int} {p : Int × Term → Prop} :
    (∀ entry ∈ t.nodesAt level, p entry) ↔
      p (level, t) ∧ ∀ child ∈ t.children, ∀ entry ∈ child.nodesAt (t.levelBelow level), p entry := by
  rw [nodesAt_eq, List.forall_mem_cons]
  simp only [List.mem_flatMap, forall_exists_index, and_imp]
  exact and_congr_right fun _ => ⟨fun h child hchild entry => h entry child hchild,
    fun h entry child hchild => h child hchild entry⟩

theorem nodesAt_child {t child : Term} (h : child ∈ t.children) (level : Int) :
    child.nodesAt (t.levelBelow level) ⊆ t.nodesAt level := by
  intro entry hentry
  rw [nodesAt_eq]
  exact List.mem_cons_of_mem _ (List.mem_flatMap.2 ⟨child, h, hentry⟩)

/-- What stands below a node of the term stands in the term. -/
theorem nodesAt_below {t node child : Term} {start level : Int} (h : (level, node) ∈ t.nodesAt start)
    (hchild : child ∈ node.children) : child.nodesAt (node.levelBelow level) ⊆ t.nodesAt start :=
  List.Subset.trans (nodesAt_child hchild level) (nodesAt_subset h)

/-- In a term with different identities an identity stands at one level only. -/
theorem level_unique {t node node' : Term} {start level level' : Int} (hids : t.ids.Nodup)
    (h : (level, node) ∈ t.nodesAt start) (h' : (level', node') ∈ t.nodesAt start) (hid : node.id = node'.id) :
    level = level' := by
  rw [ids, ← t.map_snd_nodesAt start, List.map_map] at hids
  exact congrArg Prod.fst (List.inj_on_of_nodup_map hids h h' hid)

theorem exists_nodesAt {t node : Term} (h : node ∈ t.nodes) (level : Int) :
    ∃ level', (level', node) ∈ t.nodesAt level := by
  rw [← t.map_snd_nodesAt level] at h
  rcases List.mem_map.1 h with ⟨⟨level', node⟩, hmem, rfl⟩
  exact ⟨level', hmem⟩

theorem mem_nodes_of_nodesAt {t node : Term} {level level' : Int} (h : (level', node) ∈ t.nodesAt level) :
    node ∈ t.nodes := by
  rw [← t.map_snd_nodesAt level]
  exact List.mem_map_of_mem h

end Multistage.Term
