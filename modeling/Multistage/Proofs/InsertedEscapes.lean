import Multistage.Proofs.DownwardReferences
import Multistage.Proofs.Pointwise

/-!
# What making references explicit adds

Later passes keep what they know of a program in tables by node identity. So it matters that making
references explicit changes nothing but what it is for: around lookups it puts persist escapes, with
identities that no node had, and every other node stays what it was.

`Inserts bound ts ts' count` says this of lists of terms: the nodes of `ts'` from the identity `bound` on are
escapes around lookups, they are `count` in number, and without them `ts'` is `ts`. Each construct keeps it
(`Inserts.node`), and so does each identity that is taken from the supply (`inserts_persistTimes`).

Main statement: `only_escapes_inserted`.
-/

namespace Multistage

open Term

/-! ## Removing nodes -/

/-- The term without the nodes from the identity `bound` on. Each of them gives way to its first child. -/
def Term.unwrapFrom (bound : NodeId) : Term → Term :=
  fold fun t children => if t.id < bound then t.withChildren children else children.headD t

theorem Term.unwrapFrom_eq (bound : NodeId) (t : Term) :
    t.unwrapFrom bound = if t.id < bound then t.withChildren (t.children.map (unwrapFrom bound))
      else (t.children.map (unwrapFrom bound)).headD t := by
  rw [unwrapFrom, fold_eq]

/-- The node is a persist escape around a lookup, or around another node from the identity `bound` on. -/
def Term.Wraps (bound : NodeId) (node : Term) : Prop :=
  ∃ site body, node = .escape site .persist body ∧ (body.tag = .lookup ∨ bound ≤ body.id)

/-- The terms `ts'` are `ts` with a number of persist escapes around lookups, which have the identities from
`bound` on. -/
structure Inserts (bound : NodeId) (ts ts' : List Term) (count : Nat) : Prop where
  removed : ts'.map (unwrapFrom bound) = ts
  escapes : ∀ node ∈ ts'.flatMap nodes, bound ≤ node.id → node.Wraps bound
  number : ((ts'.flatMap nodes).filter fun node => bound ≤ node.id).length = count

namespace Inserts

variable {bound : NodeId} {t t' : Term} {ts ts' us us' : List Term} {a b : Nat}

theorem nil : Inserts bound [] [] 0 := ⟨rfl, List.forall_mem_nil _, rfl⟩

theorem append (h : Inserts bound ts ts' a) (h' : Inserts bound us us' b) :
    Inserts bound (ts ++ us) (ts' ++ us') (a + b) := by
  constructor
  · rw [List.map_append, h.removed, h'.removed]
  · rw [List.flatMap_append]
    exact List.forall_mem_append.2 ⟨h.escapes, h'.escapes⟩
  · rw [List.flatMap_append, List.filter_append, List.length_append, h.number, h'.number]

/-- A node is kept if its children are. -/
theorem node (ht : t.id < bound) (h : Inserts bound t.children ts' a) :
    Inserts bound [t] [t.withChildren ts'] a := by
  have hlength : ts'.length = t.children.length := by
    rw [← h.removed, List.length_map]
  have hold : ¬ bound ≤ (t.withChildren ts').id := by
    rw [id_withChildren]
    exact UInt32.not_le.2 ht
  constructor
  · rw [List.map_singleton, unwrapFrom_eq, id_withChildren, if_pos ht, children_withChildren hlength, h.removed,
      withChildren_withChildren hlength rfl, withChildren_children]
  · rw [List.flatMap_singleton, nodes_eq, children_withChildren hlength]
    exact List.forall_mem_cons.2 ⟨fun hnew => absurd hnew hold, h.escapes⟩
  · rw [List.flatMap_singleton, nodes_eq, children_withChildren hlength,
      List.filter_cons_of_neg (by simpa using hold)]
    exact h.number

/-- One more escape. -/
theorem escape {id : NodeId} {span : Span} (hid : bound ≤ id) (h : Inserts bound [t] [t'] a)
    (ht' : t'.tag = .lookup ∨ bound ≤ t'.id) :
    Inserts bound [t] [.escape ⟨id, span⟩ .persist t'] (a + 1) := by
  have hremoved : t'.unwrapFrom bound = t := List.singleton_inj.1 h.removed
  have hescapes := h.escapes
  have hnumber := h.number
  rw [List.flatMap_singleton] at hescapes hnumber
  have hnew : bound ≤ (Term.escape ⟨id, span⟩ .persist t').id := hid
  have hnodes : [Term.escape ⟨id, span⟩ .persist t'].flatMap nodes =
      .escape ⟨id, span⟩ .persist t' :: t'.nodes := by
    rw [List.flatMap_singleton, nodes_eq]
    simp only [children, List.flatMap_singleton]
  constructor
  · rw [List.map_singleton, unwrapFrom_eq, if_neg (UInt32.not_lt.2 hnew)]
    exact congrArg ([·]) hremoved
  · rw [hnodes]
    exact List.forall_mem_cons.2 ⟨fun _ => ⟨_, t', rfl, ht'⟩, hescapes⟩
  · rw [hnodes, List.filter_cons_of_pos (by simpa using hnew), List.length_cons, hnumber]

end Inserts

/-! ## The pass -/

variable {types : TypeTable} {t t' : Term} {u u' : Supply} {bound : NodeId}

/-- Each escape around a lookup takes an identity that is new. -/
theorem inserts_persistTimes {s : Site} {name : String} {count : Nat} (hs : s.id < bound) (hbound : bound ≤ u.next)
    (h : ((Term.lookup s name).persistTimes count).run u = .ok (t', u')) :
    Inserts bound [.lookup s name] [t'] count ∧ (t'.tag = .lookup ∨ bound ≤ t'.id) := by
  induction count generalizing t' u' with
  | zero =>
    cases h
    exact ⟨.node hs .nil, .inl rfl⟩
  | succ count ih =>
    rw [persistTimes] at h
    rcases run_bind_eq_ok.1 h with ⟨inner, u₁, hinner, h₁⟩
    rcases run_bind_eq_ok.1 h₁ with ⟨id, u₂, hfresh, h₂⟩
    cases h₂
    rcases ih hinner with ⟨hinserts, hwraps⟩
    -- the supply has only moved on since the first escape
    have hid : bound ≤ id := by
      have hnext := persistTimes_next hinner
      rw [(Staging.fresh_run_eq_ok hfresh).1, UInt32.le_iff_toNat_le]
      rw [UInt32.le_iff_toNat_le] at hbound
      omega
    exact ⟨hinserts.escape hid hwraps, .inr hid⟩

/-- What the pass does to a term, from a supply that lies above `bound`. -/
def InsertsFresh (bound : NodeId) (ts ts' : List Term) (u u' : Supply) : Prop :=
  ∃ count, Inserts bound ts ts' count ∧ u'.next.toNat = u.next.toNat + count

/-- If the pass inserts escapes with fresh identities only into each term, it does so into a list of them. -/
theorem insertsFresh_mapM {f : Term → Staging Term} {ts ts' : List Term}
    (hf : ∀ t ∈ ts, ∀ {u u' t'}, bound ≤ u.next → (f t).run u = .ok (t', u') →
      InsertsFresh bound [t] [t'] u u')
    (hbound : bound ≤ u.next) (h : (ts.mapM f).run u = .ok (ts', u')) : InsertsFresh bound ts ts' u u' := by
  induction ts generalizing ts' u with
  | nil =>
    cases h
    exact ⟨0, .nil, rfl⟩
  | cons t rest ih =>
    rw [List.mapM_cons] at h
    rcases run_bind_eq_ok.1 h with ⟨t', u₁, hhead, h₁⟩
    rcases run_bind_eq_ok.1 h₁ with ⟨rest', u₂, htail, h₂⟩
    cases h₂
    rcases List.forall_mem_cons.1 hf with ⟨hfirst, hothers⟩
    rcases hfirst hbound hhead with ⟨a, ha, hnext⟩
    have hbound₁ : bound ≤ u₁.next := by
      rw [UInt32.le_iff_toNat_le] at hbound ⊢
      omega
    rcases ih hothers hbound₁ htail with ⟨b, hb, hnext'⟩
    refine ⟨a + b, ha.append hb, ?_⟩
    omega

/-- Making references explicit inserts escapes around lookups and does nothing else. -/
theorem insertsFresh_explicitAt {level : Nat} (ht : ∀ id ∈ t.ids, id < bound) (hbound : bound ≤ u.next)
    (h : (t.explicitAt types level).run u = .ok (t', u')) : InsertsFresh bound [t] [t'] u u' := by
  induction t using induct_children generalizing level t' u u' with
  | step t ih =>
    have hself : t.id < bound := by
      refine ht t.id ?_
      rw [ids_eq]
      exact List.mem_cons_self
    by_cases htag : t.tag = .lookup
    · cases t <;> cases htag
      cases explicit_of_run h with
      | lookup _ hlookup =>
        rcases explicitLookup_cases hlookup with ⟨-, rfl, rfl⟩ | ⟨binding, -, -, hpersist⟩
        · exact ⟨0, .node hself .nil, rfl⟩
        · exact ⟨_, (inserts_persistTimes hself hbound hpersist).1, persistTimes_next hpersist⟩
    · rw [explicitAt_of_not_lookup htag] at h
      rcases run_bind_eq_ok.1 h with ⟨children', u₁, hchildren, hpure⟩
      cases hpure
      have hbelow : InsertsFresh bound t.children children' u u' := by
        refine insertsFresh_mapM (fun child hchild => ?_) hbound hchildren
        intro u u' child' hbound hrun
        exact ih child hchild (fun id hid => ht id (ids_child hchild hid)) hbound hrun
      rcases hbelow with ⟨count, hinserts, hnext⟩
      exact ⟨count, hinserts.node hself, hnext⟩

/-- The identities of the new term come from the old one or from the supply. -/
theorem allIds_lt_of_run {level : Nat} (h : (t.explicitAt types level).run u = .ok (t', u'))
    (hbound : ∀ id ∈ t.allIds, id < u.next) : ∀ id ∈ t'.allIds, id < u'.next := by
  intro id hid
  have hcount := count_allIds_of_run h id.toNat
  have hpos : 0 < (t'.allIds.map UInt32.toNat).count id.toNat :=
    List.count_pos_iff.2 (List.mem_map_of_mem hid)
  rw [UInt32.lt_iff_toNat_lt]
  by_cases hold : id.toNat ∈ t.allIds.map UInt32.toNat
  · rcases List.mem_map.1 hold with ⟨id', hid', heq⟩
    have hlt := UInt32.lt_iff_toNat_lt.1 (hbound id' hid')
    have hnext := (explicit_of_run h).next_le
    omega
  · rw [hcount, List.count_eq_zero_of_not_mem hold, Supply.taken] at hpos
    split at hpos
    · next htaken => exact htaken.2
    · omega

/-! ## The levels that are crossed -/

/-- The levels between the lookups among some nodes and the bindings that they refer to, taken together. -/
def levelsCrossed (types : TypeTable) : List (Int × Term) → Int
  | [] => 0
  | entry :: rest => (entry.2.referent? types).elim 0 (fun b => entry.1 - b.level) + levelsCrossed types rest

/-- A lookup takes one identity for each level between it and its binding. -/
theorem Supply.next_of_passNode {entry : Int × Term} (hlevel : 0 ≤ entry.1)
    (h : u.passNode types entry = .ok u') :
    (u'.next.toNat : Int) = u.next.toNat + (entry.2.referent? types).elim 0 fun b => entry.1 - b.level := by
  rcases entry with ⟨level, node⟩
  cases node with
  | lookup s name =>
    rw [passNode] at h
    rcases hrun : ((Term.lookup s name).explicitAt types level.toNat).run u with obstacle | ⟨t', u₁⟩
    · rw [hrun] at h
      cases h
    · rw [hrun] at h
      cases h
      cases explicit_of_run hrun with
      | lookup hj hlookup =>
        rcases explicitLookup_cases hlookup with ⟨hnone, -, rfl⟩ | ⟨binding, hbinding, hle, hpersist⟩
        · simp [referent?, hj, hnone]
        · have hnext := persistTimes_next hpersist
          simp only [referent?, hj, Option.bind_some, hbinding, Option.elim_some]
          omega
  | _ =>
    cases h
    exact (Int.add_zero _).symm

/-- The supply goes up by the number of levels that lookups cross. -/
theorem next_of_foldlM_passNode {entries : List (Int × Term)} (hlevels : ∀ entry ∈ entries, 0 ≤ entry.1)
    (h : entries.foldlM (Supply.passNode types) u = .ok u') :
    (u'.next.toNat : Int) = u.next.toNat + levelsCrossed types entries := by
  induction entries generalizing u with
  | nil =>
    cases h
    exact (Int.add_zero _).symm
  | cons entry rest ih =>
    rcases List.forall_mem_cons.1 hlevels with ⟨hlevel, hlevels⟩
    rw [List.foldlM_cons] at h
    rcases Except.bind_eq_ok.1 h with ⟨u₁, hhead, htail⟩
    have hfirst := Supply.next_of_passNode hlevel hhead
    have hothers := ih hlevels htail
    rw [levelsCrossed]
    omega

/-- **Making references explicit only inserts fresh persist escapes around lookups.** Let a program with
different identities below the supply elaborate, and let its references be made explicit. In the result, each
node from the old supply on is a persist escape around a lookup or around another such node, and without
these nodes it is the program as it was. All identities of the result are different and below the new supply.
The supply has moved on by the number of the new nodes, which is that of the levels between all lookups and
the bindings that they refer to. -/
theorem only_escapes_inserted (p : Prelude) (t : Term) (supply : Supply) (e : Elaboration) (q : Program)
    (hids : t.allIds.Nodup) (hsupply : ∀ id ∈ t.allIds, id < supply.next) (he : p.elaborate t = .ok e)
    (hq : Program.makeExplicit ⟨t, supply⟩ e.table = .ok q) :
    (∀ node ∈ q.root.nodes, supply.next ≤ node.id → node.Wraps supply.next) ∧
    q.root.unwrapFrom supply.next = t ∧
    q.root.allIds.Nodup ∧ (∀ id ∈ q.root.allIds, id < q.supply.next) ∧
    q.supply.next.toNat = supply.next.toNat + (q.root.nodes.filter fun node => supply.next ≤ node.id).length ∧
    ((q.root.nodes.filter fun node => supply.next ≤ node.id).length : Int) =
      levelsCrossed e.table (t.nodesAt 0) := by
  have hrun := run_of_makeExplicit hq
  have hold : ∀ id ∈ t.ids, id < supply.next := fun id hid => hsupply id (t.ids_sublist_allIds.subset hid)
  obtain ⟨count, hinserts, hnext⟩ := insertsFresh_explicitAt hold (UInt32.le_refl _) hrun
  have hescapes := hinserts.escapes
  have hnumber := hinserts.number
  rw [List.flatMap_singleton] at hescapes hnumber
  -- the same identities, counted along the nodes of the program
  have hcrossed : (q.supply.next.toNat : Int) = supply.next.toNat + levelsCrossed e.table (t.nodesAt 0) := by
    have hinside := escapesInside_of_elaborate he
    refine next_of_foldlM_passNode (hinside.level_nonneg (Int.le_refl 0)) ?_
    rw [← makeExplicit_supply hinside, hq]
    rfl
  refine ⟨hescapes, List.singleton_inj.1 hinserts.removed, nodup_allIds_of_run hrun hids hsupply,
    allIds_lt_of_run hrun hsupply, ?_, ?_⟩
  · rw [hnumber]
    exact hnext
  · rw [hnumber]
    omega

/-- Four escapes are inserted: one around the first use of `x`, two around the second, and one around the
use of `y`. -/
theorem only_escapes_inserted_crossing : ∃ e q,
    crossingTerm.allIds.Nodup ∧ (∀ id ∈ crossingTerm.allIds, id < 11) ∧
    Prelude.general.elaborate crossingTerm = .ok e ∧
    Program.makeExplicit ⟨crossingTerm, ⟨11⟩⟩ e.table = .ok q ∧
    (∀ node ∈ q.root.nodes, 11 ≤ node.id → node.Wraps 11) ∧ q.root.unwrapFrom 11 = crossingTerm ∧
    q.root.ids = [0, 1, 2, 3, 4, 5, 11, 6, 7, 8, 13, 12, 9, 14, 10] ∧ q.root.allIds.Nodup ∧
    q.supply.next.toNat = 15 ∧ levelsCrossed e.table (crossingTerm.nodesAt 0) = 4 := by
  have hids : crossingTerm.allIds.Nodup := by decide
  have hbound : ∀ id ∈ crossingTerm.allIds, id < 11 := allIds_lt_of_all rfl
  obtain ⟨e, q, he, hq, hroot⟩ : ∃ e q, Prelude.general.elaborate crossingTerm = .ok e ∧
      Program.makeExplicit ⟨crossingTerm, ⟨11⟩⟩ e.table = .ok q ∧
      q.root.ids = [0, 1, 2, 3, 4, 5, 11, 6, 7, 8, 13, 12, 9, 14, 10] := ⟨_, _, rfl, rfl, rfl⟩
  obtain ⟨hescapes, hremoved, hnodup, -, hnext, hcrossed⟩ :=
    only_escapes_inserted Prelude.general crossingTerm ⟨11⟩ e q hids hbound he hq
  have hnumber : (q.root.nodes.filter fun node => (11 : NodeId) ≤ node.id).length = 4 := by
    have hcount : (q.root.ids.filter fun id => (11 : NodeId) ≤ id).length = 4 := by
      rw [hroot]
      rfl
    rwa [ids, List.filter_map, List.length_map] at hcount
  refine ⟨e, q, hids, hbound, he, hq, hescapes, hremoved, hroot, hnodup, ?_, ?_⟩
  · rw [hnext, hnumber]
    rfl
  · rw [← hcrossed, hnumber]
    rfl

end Multistage
