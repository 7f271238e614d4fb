import Multistage.Proofs.Escapes

/-!
# References down to a later stage

A name can be used under more quotes than it is bound under, but not under fewer: such a use would need a
value before there is one. The pass that makes references explicit is where these uses are found.

As far as faults and fresh identities go, the pass is a fold over the nodes of the program in pre-order
(`explicitAt_supply`), and only lookups do anything in it (`Supply.passNode`). In a program that elaborates,
every lookup has a scope in the table, and the quotes around a node that are not escaped from are as many
for the pass as for the checker.

Main statement: `downward_references_rejected`.
-/

namespace Multistage

open Term

/-! ## The binding that a lookup refers to -/

/-- The binding of a name that is looked up, in the scope that the table has for the lookup. -/
def Term.referent? (types : TypeTable) : Term → Option Binding
  | .lookup s name => (types.get? s.id).bind fun j => j.scope.lookup? name
  | _ => none

/-- A name is looked up at a lower level than it is bound at. -/
def Downward (types : TypeTable) (entry : Int × Term) : Prop :=
  ∃ b, entry.2.referent? types = some b ∧ entry.1 < b.level

/-- How many identities the pass takes for nodes: one for each level between a lookup and its binding, up
to the first downward reference. -/
def identitiesNeeded (types : TypeTable) : List (Int × Term) → Nat
  | [] => 0
  | entry :: rest =>
    match entry.2.referent? types with
    | none => identitiesNeeded types rest
    | some b => if entry.1 < b.level then 0 else (entry.1 - b.level).toNat + identitiesNeeded types rest

/-! ## The pass as a fold -/

/-- What the pass does at a node, apart from its children: it takes identities, or it fails. -/
def Supply.passNode (types : TypeTable) (u : Supply) (entry : Int × Term) : Except Obstacle Supply :=
  match entry.2 with
  | .lookup .. => ((entry.2.explicitAt types entry.1.toNat).run u).map (·.2)
  | _ => .ok u

variable {types : TypeTable} {t : Term} {u : Supply}

theorem Supply.passNode_of_not_lookup {level : Int} (ht : t.tag ≠ .lookup) :
    u.passNode types (level, t) = .ok u := by
  cases t with
  | lookup => exact absurd rfl ht
  | _ => rfl

/-- The supply after a list of computations is that after the first one, and then after the others. -/
theorem map_run_mapM_cons {α : Type} {f : α → Staging Term} (a : α) (rest : List α) :
    (((a :: rest).mapM f).run u).map (·.2) =
      ((f a).run u).map (·.2) >>= fun u' => ((rest.mapM f).run u').map (·.2) := by
  rw [List.mapM_cons, StateT.run_bind]
  cases (f a).run u with
  | error e => rfl
  | ok r =>
    show ((rest.mapM f >>= fun bs => pure (r.1 :: bs)).run r.2).map (·.2) = ((rest.mapM f).run r.2).map (·.2)
    rw [StateT.run_bind]
    cases (rest.mapM f).run r.2 <;> rfl

/-- Putting the children back takes no identities. -/
theorem map_run_rebuild {children : Staging (List Term)} (rebuild : List Term → Term) :
    ((children >>= fun ts => pure (rebuild ts)).run u).map (·.2) = (children.run u).map (·.2) := by
  rw [StateT.run_bind]
  cases children.run u <;> rfl

/-- As far as faults and identities go, the pass is a fold over the nodes in pre-order. -/
theorem explicitAt_supply {level : Nat} (h : t.EscapesInside level) (u : Supply) :
    ((t.explicitAt types level).run u).map (·.2) = (t.nodesAt level).foldlM (Supply.passNode types) u := by
  induction t using induct_children generalizing level u with
  | step t ih =>
    by_cases htag : t.tag = .lookup
    · cases t <;> cases htag
      exact (bind_pure _).symm
    · have hchildren : ∀ ts ⊆ t.children, ∀ u : Supply,
          ((ts.mapM fun child : Term => child.explicitAt types (t.innerLevel level)).run u).map (·.2) =
            (ts.flatMap fun child => child.nodesAt (t.levelBelow level)).foldlM (Supply.passNode types) u := by
        intro ts hts
        induction ts with
        | nil => exact fun _ => rfl
        | cons child rest ihrest =>
          rcases List.cons_subset.1 hts with ⟨hchild, hrest⟩
          intro u
          have hinside := h.child hchild
          rw [← h.innerLevel] at hinside ihrest ⊢
          rw [map_run_mapM_cons, ih child hchild hinside, List.flatMap_cons, List.foldlM_append]
          exact congrArg _ (funext (ihrest hrest))
      rw [explicitAt_of_not_lookup htag, map_run_rebuild, hchildren _ (List.Subset.refl _), nodesAt_eq,
        List.foldlM_cons, Supply.passNode_of_not_lookup htag]
      rfl

/-! ## One node -/

theorem Staging.fresh_run {u : Supply} (h : u.next.toNat < NodeId.last.toNat) :
    Staging.fresh.run u = .ok (u.next, ⟨u.next + 1⟩) := by
  have hne : u.next ≠ NodeId.last := fun heq => absurd (congrArg UInt32.toNat heq) (Nat.ne_of_lt h)
  simp only [Staging.fresh, StateT.run, Supply.fresh?, if_neg hne]

/-- A term can be wrapped in as many escapes as there are identities. -/
theorem exists_persistTimes {count : Nat} (hroom : u.next.toNat + count ≤ NodeId.last.toNat) (t : Term) :
    ∃ t' u', (t.persistTimes count).run u = .ok (t', u') ∧ u'.next.toNat = u.next.toNat + count := by
  induction count with
  | zero => exact ⟨t, u, rfl, rfl⟩
  | succ count ih =>
    rcases ih (by omega) with ⟨inner, u₁, hinner, hnext⟩
    have hfresh := Staging.fresh_run (u := u₁) (by omega)
    have hrun : (t.persistTimes (count + 1)).run u =
        .ok (.escape ⟨u₁.next, t.span⟩ .persist inner, ⟨u₁.next + 1⟩) := by
      rw [persistTimes]
      exact run_bind_eq_ok.2 ⟨_, _, hinner, run_bind_eq_ok.2 ⟨_, _, hfresh, rfl⟩⟩
    exact ⟨_, _, hrun, persistTimes_next hrun⟩

theorem Supply.passNode_lookup {level : Int} {s : Site} {name : String} {j : Judgement}
    (hj : types.get? s.id = some j) : u.passNode types (level, .lookup s name) =
      ((explicitLookup s name j.scope level.toNat).run u).map (·.2) := by
  simp only [passNode, explicitAt, fold, hj]

/-- Only lookups refer to a binding. -/
theorem Term.referent?_eq_some {node : Term} {b : Binding} (h : node.referent? types = some b) :
    ∃ s name j, node = .lookup s name ∧ types.get? s.id = some j ∧ j.scope.lookup? name = some b := by
  cases node with
  | lookup s name =>
    rcases Option.bind_eq_some_iff.1 h with ⟨j, hj, hb⟩
    exact ⟨s, name, j, rfl, hj, hb⟩
  | _ => cases h

/-- A lookup of a name that is not bound is left alone. -/
theorem Supply.passNode_of_unbound {level : Int} (hget : (types.get? t.id).isSome)
    (h : t.referent? types = none) : u.passNode types (level, t) = .ok u := by
  cases t with
  | lookup s name =>
    obtain ⟨j, hj⟩ : ∃ j, types.get? s.id = some j := Option.isSome_iff_exists.1 hget
    have hnone : j.scope.lookup? name = none := Option.bind_eq_none_iff.1 h j hj
    rw [passNode_lookup hj, explicitLookup, hnone]
    rfl
  | _ => rfl

/-- At a downward reference the pass fails. -/
theorem Supply.passNode_of_downward {level : Int} {s : Site} {name : String} {j : Judgement} {b : Binding}
    (hj : types.get? s.id = some j) (hb : j.scope.lookup? name = some b) (hlevel : 0 ≤ level)
    (h : level < b.level) :
    u.passNode types (level, .lookup s name) = .error (.fault (.downwardReference s.id name)) := by
  have hlt : b.level > level.toNat := by omega
  rw [passNode_lookup hj, explicitLookup, hb]
  simp only [if_pos hlt]
  rfl

/-- A lookup at or above the level of its binding takes one identity for each level in between. -/
theorem Supply.passNode_of_upward {level : Int} {s : Site} {name : String} {j : Judgement} {b : Binding}
    (hj : types.get? s.id = some j) (hb : j.scope.lookup? name = some b) (h : b.level ≤ level)
    (hroom : u.next.toNat + (level - b.level).toNat ≤ NodeId.last.toNat) :
    ∃ u', u.passNode types (level, .lookup s name) = .ok u' ∧
      u'.next.toNat = u.next.toNat + (level - b.level).toNat := by
  have hgap : (level - b.level).toNat = level.toNat - b.level := by omega
  have hle : ¬ b.level > level.toNat := by omega
  rw [hgap] at hroom ⊢
  rcases exists_persistTimes hroom (.lookup s name) with ⟨t', u', hrun, hnext⟩
  refine ⟨u', ?_, hnext⟩
  rw [passNode_lookup hj, explicitLookup, hb]
  simp only [if_neg hle, hrun]
  rfl

/-! ## All nodes -/

/-- No node stands at a negative level if each escape is under a quote. -/
theorem Term.EscapesInside.level_nonneg {level : Int} (h : t.EscapesInside level) (hlevel : 0 ≤ level) :
    ∀ entry ∈ t.nodesAt level, 0 ≤ entry.1 := by
  induction t using induct_children generalizing level with
  | step t ih =>
    rw [forall_nodesAt]
    refine ⟨hlevel, fun child hchild => ih child hchild (h.child hchild) ?_⟩
    have hescape := (escapesInside_iff.1 h).1
    cases t with
    | escape site kind body =>
      have := hescape rfl
      simp only [levelBelow]
      omega
    | quote site label snippet body =>
      simp only [levelBelow]
      omega
    | _ => exact hlevel

/-- How the pass through nodes ends, if it does not run out of identities. -/
inductive PassEnds (types : TypeTable) (entries : List (Int × Term)) : Except Obstacle Supply → Prop where
  /-- there is no downward reference -/
  | through {u : Supply} : (∀ entry ∈ entries, ¬ Downward types entry) → PassEnds types entries (.ok u)
  /-- there is a first one -/
  | rejected {before after : List (Int × Term)} {level : Int} {s : Site} {name : String} :
    entries = before ++ (level, .lookup s name) :: after → (∀ entry ∈ before, ¬ Downward types entry) →
    Downward types (level, .lookup s name) → PassEnds types entries (.error (.fault (.downwardReference s.id name)))

theorem PassEnds.cons {entry : Int × Term} {rest : List (Int × Term)} {result : Except Obstacle Supply}
    (hentry : ¬ Downward types entry) (h : PassEnds types rest result) :
    PassEnds types (entry :: rest) result := by
  cases h with
  | through hnone => exact .through (List.forall_mem_cons.2 ⟨hentry, hnone⟩)
  | rejected hsplit hbefore hdown =>
    exact .rejected (congrArg (entry :: ·) hsplit) (List.forall_mem_cons.2 ⟨hentry, hbefore⟩) hdown

/-- Through nodes that the table knows, the pass fails at the first downward reference, and nowhere else if
there are identities enough. -/
theorem passEnds_foldlM {entries : List (Int × Term)} (hget : ∀ entry ∈ entries, (types.get? entry.2.id).isSome)
    (hlevels : ∀ entry ∈ entries, 0 ≤ entry.1)
    (hroom : u.next.toNat + identitiesNeeded types entries ≤ NodeId.last.toNat) :
    PassEnds types entries (entries.foldlM (Supply.passNode types) u) := by
  induction entries generalizing u with
  | nil => exact .through (List.forall_mem_nil _)
  | cons entry rest ih =>
    rcases entry with ⟨level, node⟩
    rcases List.forall_mem_cons.1 hget with ⟨hhead, htail⟩
    rcases List.forall_mem_cons.1 hlevels with ⟨hlevel, habove⟩
    rw [List.foldlM_cons]
    cases href : node.referent? types with
    | none =>
      -- no lookup of a bound name: the node takes no identity
      have hnot : ¬ Downward types (level, node) := by
        rintro ⟨b, hb, -⟩
        cases href.symm.trans hb
      simp only [identitiesNeeded, href] at hroom
      rw [Supply.passNode_of_unbound hhead href]
      exact (ih htail habove hroom).cons hnot
    | some b =>
      obtain ⟨s, name, j, rfl, hj, hb⟩ := referent?_eq_some href
      by_cases hdown : level < b.level
      · -- the first downward reference, where the pass ends
        rw [Supply.passNode_of_downward hj hb hlevel hdown]
        exact .rejected (List.nil_append _).symm (List.forall_mem_nil _) ⟨b, href, hdown⟩
      · -- an upward one takes an identity for each stage that it crosses, and there are enough for the rest
        have hnot : ¬ Downward types (level, .lookup s name) := by
          rintro ⟨b', hb', hdown'⟩
          cases href.symm.trans hb'
          exact hdown hdown'
        simp only [identitiesNeeded, href, if_neg hdown] at hroom
        have hfirst : u.next.toNat + (level - b.level).toNat ≤ NodeId.last.toNat := by omega
        rcases Supply.passNode_of_upward hj hb (Int.not_lt.1 hdown) hfirst with ⟨u', hok, hnext⟩
        rw [hok]
        exact (ih htail habove (by omega)).cons hnot

/-! ## Programs that elaborate -/

variable {p : Prelude} {e : Elaboration}

/-- The table of a program that elaborates knows all its nodes. -/
theorem isSome_get?_of_elaborate (he : p.elaborate t = .ok e) {node : Term} (hnode : node ∈ t.nodes) :
    (e.table.get? node.id).isSome := by
  rcases elaborate_eq_ok_iff.1 he with ⟨j, log, hj, rfl⟩
  have hid : node.id ∈ log.map (·.1) := hj.perm_ids.mem_iff.2 (List.mem_map_of_mem hnode)
  rcases List.mem_map.1 hid with ⟨entry, hentry, heq⟩
  rcases Table.get?_ofList_of_mem hentry with ⟨j', hj'⟩
  rw [heq] at hj'
  exact Option.isSome_of_eq_some hj'

theorem escapesInside_of_elaborate (he : p.elaborate t = .ok e) : t.EscapesInside (0 : Nat) := by
  rcases elaborate_eq_ok_iff.1 he with ⟨j, log, hj, rfl⟩
  exact hj.escapesInside

/-- The pass through a program, as far as faults and identities go. -/
theorem makeExplicit_supply (h : t.EscapesInside (0 : Nat)) (u : Supply) :
    (Program.makeExplicit ⟨t, u⟩ types).map (·.supply) = (t.nodesAt 0).foldlM (Supply.passNode types) u := by
  refine Eq.trans ?_ (explicitAt_supply h u)
  rw [Program.makeExplicit]
  cases (t.explicitAt types 0).run u <;> rfl

/-- **Exactly the downward references are rejected.** Let a program elaborate, and let there be identities
enough for the references before the first downward one. References across stages cannot be made explicit
if and only if a name is looked up at a lower level than it is bound at in the scope recorded for the
lookup, where the level of a node is the number of quotes around it less that of escapes. The fault is then
a downward reference at the first such lookup in pre-order, and nothing else. -/
theorem downward_references_rejected (p : Prelude) (t : Term) (supply : Supply) (e : Elaboration)
    (he : p.elaborate t = .ok e)
    (hroom : supply.next.toNat + identitiesNeeded e.table (t.nodesAt 0) ≤ NodeId.last.toNat) :
    ((∃ obstacle, Program.makeExplicit ⟨t, supply⟩ e.table = .error obstacle) ↔
      ∃ entry ∈ t.nodesAt 0, Downward e.table entry) ∧
    ∀ obstacle, Program.makeExplicit ⟨t, supply⟩ e.table = .error obstacle →
      ∃ before level s name after, t.nodesAt 0 = before ++ (level, .lookup s name) :: after ∧
        (∀ entry ∈ before, ¬ Downward e.table entry) ∧ Downward e.table (level, .lookup s name) ∧
        obstacle = .fault (.downwardReference s.id name) := by
  have hinside := escapesInside_of_elaborate he
  have hget : ∀ entry ∈ t.nodesAt 0, (e.table.get? entry.2.id).isSome := fun entry hentry =>
    isSome_get?_of_elaborate he (mem_nodes_of_nodesAt hentry)
  -- the pass is a fold over the nodes in pre-order, which goes through or stops at the first downward one
  have hends := passEnds_foldlM hget (hinside.level_nonneg (Int.le_refl 0)) hroom
  rw [← makeExplicit_supply hinside] at hends
  cases hresult : Program.makeExplicit ⟨t, supply⟩ e.table with
  | ok q =>
    rw [hresult] at hends
    cases hends with
    | through hnone =>
      refine ⟨⟨?_, ?_⟩, ?_⟩
      · rintro ⟨obstacle, hfail⟩
        cases hfail
      · rintro ⟨entry, hentry, hdown⟩
        exact absurd hdown (hnone entry hentry)
      · intro obstacle hfail
        cases hfail
  | error obstacle =>
    rw [hresult] at hends
    cases hends with
    | @rejected before after level s name hsplit hbefore hdown =>
      refine ⟨⟨fun _ => ⟨_, ?_, hdown⟩, fun _ => ⟨_, rfl⟩⟩, ?_⟩
      · rw [hsplit]
        exact List.mem_append_right _ List.mem_cons_self
      · intro obstacle hfail
        cases hfail
        exact ⟨before, level, s, name, after, hsplit, hbefore, hdown, rfl⟩

/-- `let y = 2; <let x = y; [x] + [x]>`: `y` comes from outside the quote, and `x` is used outside it
before there is an `x`. -/
def earlyUse : Term :=
  .seq ⟨0, {}⟩ (.define ⟨1, {}⟩ "y" (.literal ⟨2, {}⟩ (.int 2)))
    (.quote ⟨3, {}⟩ none false
      (.seq ⟨4, {}⟩ (.define ⟨5, {}⟩ "x" (.lookup ⟨6, {}⟩ "y"))
        (.binary ⟨7, {}⟩ .add (.escape ⟨8, {}⟩ .splice (.lookup ⟨9, {}⟩ "x"))
          (.escape ⟨10, {}⟩ .splice (.lookup ⟨11, {}⟩ "x")))))

/-- Of the two downward references the first one is reported, after an identity has been taken for `y`. -/
theorem downward_references_rejected_earlyUse : ∃ e, Prelude.general.elaborate earlyUse = .ok e ∧
    12 + identitiesNeeded e.table (earlyUse.nodesAt 0) ≤ NodeId.last.toNat ∧
    identitiesNeeded e.table (earlyUse.nodesAt 0) = 1 ∧
    Program.makeExplicit ⟨earlyUse, ⟨12⟩⟩ e.table = .error (.fault (.downwardReference 9 "x")) ∧
    (∃ entry ∈ earlyUse.nodesAt 0, Downward e.table entry) ∧
    ∃ before level s name after, earlyUse.nodesAt 0 = before ++ (level, .lookup s name) :: after ∧
      (∀ entry ∈ before, ¬ Downward e.table entry) ∧ Downward e.table (level, .lookup s name) ∧ s.id = 9 := by
  obtain ⟨e, he, hneeded, hfail⟩ : ∃ e, Prelude.general.elaborate earlyUse = .ok e ∧
      identitiesNeeded e.table (earlyUse.nodesAt 0) = 1 ∧
      Program.makeExplicit ⟨earlyUse, ⟨12⟩⟩ e.table = .error (.fault (.downwardReference 9 "x")) :=
    ⟨_, rfl, rfl, rfl⟩
  have hroom : 12 + identitiesNeeded e.table (earlyUse.nodesAt 0) ≤ NodeId.last.toNat := by
    rw [hneeded]
    decide
  obtain ⟨hiff, hfirst⟩ := downward_references_rejected Prelude.general earlyUse ⟨12⟩ e he hroom
  rcases hfirst _ hfail with ⟨before, level, s, name, after, hsplit, hbefore, hdown, hsame⟩
  have hid : 9 = s.id := (Fault.downwardReference.inj (Obstacle.fault.inj hsame)).1
  refine ⟨e, he, hroom, hneeded, hfail, hiff.1 ⟨_, hfail⟩, before, level, s, name, after, hsplit, hbefore, hdown, ?_⟩
  exact hid.symm

end Multistage
