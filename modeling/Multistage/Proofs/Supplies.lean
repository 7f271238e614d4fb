import Multistage.Proofs.Terms

/-!
# Supplies never hand out an identity twice

All that a supply knows is the identity that it hands out next. Every request moves it up or leaves it
where it is, and whatever has been handed out or reserved lies below it.

* `fresh?_eq_some` and `reserve?_eq_some` say what the two operations do to the next identity;
* `Supply.serve_cases` says once what a request can do, and `Supply.serveAll_pairwise` what follows for
  any number of them;
* `identities_never_collide` adds that the supply of a program keeps clear of its term.
-/

namespace Multistage

/-! ## Taking and reserving -/

/-- A fresh identity is the next one, and the supply is one further. -/
theorem fresh?_eq_some {s s' : Supply} {id : NodeId} (h : s.fresh? = some (id, s')) :
    id = s.next ∧ s'.next.toNat = s.next.toNat + 1 := by
  rw [Supply.fresh?] at h
  split at h
  · cases h
  next hroom =>
    cases h
    refine ⟨rfl, ?_⟩
    -- the supply is not at its last identity, so the next one is one more
    have hlast : NodeId.last.toNat = 4294967295 := rfl
    have hlt := s.next.toNat_lt
    have hne : s.next.toNat ≠ NodeId.last.toNat := fun heq => hroom (UInt32.toNat_inj.mp heq)
    rw [UInt32.toNat_add, UInt32.toNat_one, Nat.mod_eq_of_lt (by omega)]

/-- Reserving an identity puts the supply behind it, and can be done for all but the last one. -/
theorem reserve?_eq_some {s s' : Supply} {id : NodeId} (h : s.reserve? id = some s') :
    id < NodeId.last ∧ s'.next.toNat = max s.next.toNat (id.toNat + 1) := by
  rw [Supply.reserve?] at h
  split at h
  · cases h
  next hid =>
    cases h
    have hlast : NodeId.last.toNat = 4294967295 := rfl
    have hlt := id.toNat_lt
    have hne : id.toNat ≠ NodeId.last.toNat := fun heq => hid (UInt32.toNat_inj.mp heq)
    have hnext : (id + 1).toNat = id.toNat + 1 := by
      rw [UInt32.toNat_add, UInt32.toNat_one, Nat.mod_eq_of_lt (by omega)]
    refine ⟨UInt32.lt_iff_toNat_lt.mpr (by omega), ?_⟩
    change (if s.next ≤ id + 1 then id + 1 else s.next).toNat = _
    rw [← hnext]
    split
    next hle => exact (Nat.max_eq_right (UInt32.le_iff_toNat_le.mp hle)).symm
    next hle =>
      rw [UInt32.le_iff_toNat_le] at hle
      omega

/-- There is room above every identity but the last. -/
theorem exists_reserve? {id : NodeId} (h : id < NodeId.last) (s : Supply) :
    ∃ s', s.reserve? id = some s' :=
  ⟨_, if_neg (UInt32.ne_of_lt h)⟩

/-- The last identity cannot be reserved. -/
theorem lt_last_of_foldlM {ids : List NodeId} {s s' : Supply}
    (h : ids.foldlM Supply.reserve? s = some s') : ∀ id ∈ ids, id < NodeId.last := by
  induction ids generalizing s with
  | nil => simp
  | cons id ids ih =>
    rw [List.foldlM_cons, Option.bind_eq_bind, Option.bind_eq_some_iff] at h
    obtain ⟨s₁, hs₁, h⟩ := h
    exact List.forall_mem_cons.mpr ⟨(reserve?_eq_some hs₁).1, ih h⟩

/-- Reserving steps over every identity, and no further than needed. -/
theorem foldlM_reserve? {ids : List NodeId} (h : ∀ id ∈ ids, id < NodeId.last) (s : Supply) :
    ∃ s', ids.foldlM Supply.reserve? s = some s' ∧ s.next.toNat ≤ s'.next.toNat ∧
      (∀ id ∈ ids, id.toNat + 1 ≤ s'.next.toNat) ∧
      (s'.next.toNat = s.next.toNat ∨ ∃ id ∈ ids, s'.next.toNat = id.toNat + 1) := by
  induction ids generalizing s with
  | nil => exact ⟨s, rfl, Nat.le_refl _, by simp, .inl rfl⟩
  | cons id ids ih =>
    obtain ⟨hid, hids⟩ := List.forall_mem_cons.mp h
    obtain ⟨s₁, hs₁⟩ := exists_reserve? hid s
    obtain ⟨s', hs', hle, habove, hreached⟩ := ih hids s₁
    have hnext := (reserve?_eq_some hs₁).2
    refine ⟨s', ?_, by omega, List.forall_mem_cons.mpr ⟨by omega, habove⟩, ?_⟩
    · rw [List.foldlM_cons, hs₁]
      exact hs'
    · rcases hreached with heq | ⟨id', hmem, heq⟩
      · by_cases hs : id.toNat + 1 ≤ s.next.toNat
        · exact .inl (by omega)
        · exact .inr ⟨id, List.mem_cons_self, by omega⟩
      · exact .inr ⟨id', List.mem_cons_of_mem _ hmem, heq⟩

/-- The supply of a program lies above the identities of its term. -/
theorem allIds_lt_supply {t : Term} {p : Program} (h : Program.ofTerm? t = some p) :
    ∀ id ∈ t.allIds, id.toNat < p.supply.next.toNat := by
  rw [Program.ofTerm?, Option.map_eq_some_iff] at h
  obtain ⟨supply, hsupply, rfl⟩ := h
  obtain ⟨supply', hsupply', -, habove, -⟩ := foldlM_reserve? (lt_last_of_foldlM hsupply) {}
  cases hsupply.symm.trans hsupply'
  exact habove

/-! ## Requests in any order -/

namespace Supply

/-- The identities that a reply keeps from being handed out again. -/
def Reply.uses : Reply → List NodeId
  | .handed id | .reserved id => [id]
  | .failed => []

/-- What a request can do: an identity is handed out and the supply moves on, an identity is reserved and
the supply moves past it, or there is no room and nothing changes. -/
theorem serve_cases (s : Supply) (request : Request) :
    (request = .fresh ∧ (s.serve request).1 = .handed s.next ∧
      (s.serve request).2.next.toNat = s.next.toNat + 1) ∨
    (∃ id, request = .reserve id ∧ id ≠ NodeId.last ∧ (s.serve request).1 = .reserved id ∧
      (s.serve request).2.next.toNat = max s.next.toNat (id.toNat + 1)) ∨
    ((request = .fresh ∧ s.next = NodeId.last ∨ request = .reserve NodeId.last) ∧
      s.serve request = (.failed, s)) := by
  cases request with
  | fresh =>
    by_cases hlast : s.next = NodeId.last
    · refine .inr (.inr ⟨.inl ⟨rfl, hlast⟩, ?_⟩)
      rw [serve, fresh?, if_pos hlast]
    · have hsome : s.fresh? = some (s.next, ⟨s.next + 1⟩) := if_neg hlast
      refine .inl ⟨rfl, ?_, ?_⟩
      · rw [serve, hsome]
      · rw [serve, hsome]
        exact (fresh?_eq_some hsome).2
  | reserve id =>
    by_cases hlast : id = NodeId.last
    · subst hlast
      refine .inr (.inr ⟨.inr rfl, ?_⟩)
      rw [serve, reserve?, if_pos rfl]
    · have hsome : s.reserve? id = some ⟨max s.next (id + 1)⟩ := if_neg hlast
      refine .inr (.inl ⟨id, rfl, hlast, ?_, ?_⟩)
      · rw [serve, hsome]
      · rw [serve, hsome]
        exact (reserve?_eq_some hsome).2

/-- The next identity only moves up. -/
theorem next_le_serve (s : Supply) (request : Request) :
    s.next.toNat ≤ (s.serve request).2.next.toNat := by
  rcases s.serve_cases request with ⟨-, -, hnext⟩ | ⟨id, -, -, -, hnext⟩ | ⟨-, hfailed⟩
  · omega
  · omega
  · exact Nat.le_of_eq (by rw [hfailed])

/-- What a reply uses lies below the next identity. -/
theorem uses_lt_serve {s : Supply} {request : Request} {id : NodeId}
    (h : id ∈ (s.serve request).1.uses) : id.toNat < (s.serve request).2.next.toNat := by
  rcases s.serve_cases request with ⟨-, hreply, hnext⟩ | ⟨reserved, -, -, hreply, hnext⟩ | ⟨-, hfailed⟩
  · rw [hreply] at h
    cases List.mem_singleton.1 h
    omega
  · rw [hreply] at h
    cases List.mem_singleton.1 h
    omega
  · rw [hfailed] at h
    cases h

/-- What is handed out is the next identity. -/
theorem serve_eq_handed {s : Supply} {request : Request} {id : NodeId}
    (h : (s.serve request).1 = .handed id) : id = s.next := by
  rcases s.serve_cases request with ⟨-, hreply, -⟩ | ⟨reserved, -, -, hreply, -⟩ | ⟨-, hfailed⟩
  · exact Reply.handed.inj (h.symm.trans hreply)
  · cases h.symm.trans hreply
  · rw [hfailed] at h
    cases h

/-- Whatever is handed out later is not below the next identity. -/
theorem next_le_of_handed {s : Supply} {requests : List Request} {id : NodeId}
    (h : .handed id ∈ (s.serveAll requests).1) : s.next.toNat ≤ id.toNat := by
  induction requests generalizing s with
  | nil => cases h
  | cons request requests ih =>
    rcases List.mem_cons.1 h with hreply | hlater
    · exact Nat.le_of_eq (by rw [serve_eq_handed hreply.symm])
    · exact Nat.le_trans (s.next_le_serve request) (ih hlater)

/-- Each identity that is handed out lies above all that were handed out or reserved before. -/
theorem serveAll_pairwise (s : Supply) (requests : List Request) :
    (s.serveAll requests).1.Pairwise fun earlier later =>
      ∀ id, later = .handed id → ∀ used ∈ earlier.uses, used < id := by
  induction requests generalizing s with
  | nil => exact .nil
  | cons request requests ih =>
    refine .cons ?_ (ih (s.serve request).2)
    -- the first reply lies below the supply that answers the others
    intro later hlater id hid used hused
    rw [hid] at hlater
    exact UInt32.lt_iff_toNat_lt.2 (Nat.lt_of_lt_of_le (uses_lt_serve hused) (next_le_of_handed hlater))

/-- A request fails if the supply has come to the last identity, or if it asks for that one. -/
theorem serve_failed_iff {s : Supply} {request : Request} :
    (s.serve request).1 = .failed ↔
      request = .fresh ∧ s.next = NodeId.last ∨ request = .reserve NodeId.last := by
  rcases s.serve_cases request with ⟨rfl, hreply, hnext⟩ | ⟨id, rfl, hid, hreply, -⟩ | ⟨hwhy, hfailed⟩
  · have hroom : s.next ≠ NodeId.last := by
      intro hlast
      have hlt := (s.serve .fresh).2.next.toNat_lt
      rw [hnext, hlast] at hlt
      exact absurd hlt (by decide)
    simp [hreply, hroom]
  · simp [hreply, hid]
  · simp [hfailed, hwhy]

/-- A request that fails leaves the supply as it is. -/
theorem eq_of_serve_failed {s : Supply} {request : Request} (h : (s.serve request).1 = .failed) :
    (s.serve request).2 = s := by
  rcases s.serve_cases request with ⟨-, hreply, -⟩ | ⟨id, -, -, hreply, -⟩ | ⟨-, hfailed⟩
  · cases h.symm.trans hreply
  · cases h.symm.trans hreply
  · rw [hfailed]

end Supply

/-- A supply above the identities of a term never hands one of them out. -/
theorem not_mem_allIds_of_handed {t : Term} {s : Supply} (habove : ∀ id ∈ t.allIds, id.toNat < s.next.toNat)
    {requests : List Supply.Request} {id : NodeId} (h : .handed id ∈ (s.serveAll requests).1) :
    id ∉ t.allIds := by
  intro hmem
  exact Nat.not_lt.2 (Supply.next_le_of_handed h) (habove id hmem)

/-! ## The main result -/

/-- Identities never collide. Whatever is asked of a supply, in any order and also close to the last
identity, each identity that is handed out lies above all that were handed out or reserved before. Only the
last identity cannot be reserved, and nothing can be handed out only where the last identity would be next;
a request that fails leaves the supply as it is. The supply of a program never hands out the identity of a
node or of a parameter of its term. -/
theorem identities_never_collide (s : Supply) (requests : List Supply.Request) :
    ((s.serveAll requests).1.Pairwise fun earlier later =>
      ∀ id, later = .handed id → ∀ used ∈ earlier.uses, used < id) ∧
    (∀ id, (s.serve (.reserve id)).1 = .failed ↔ id = NodeId.last) ∧
    ((s.serve .fresh).1 = .failed ↔ s.next = NodeId.last) ∧
    (∀ request, (s.serve request).1 = .failed → (s.serve request).2 = s) ∧
    ∀ t p, Program.ofTerm? t = some p → ∀ id, .handed id ∈ (p.supply.serveAll requests).1 →
      ∀ node ∈ t.nodes, id ≠ node.id ∧ ∀ param ∈ node.params, id ≠ param.id := by
  refine ⟨s.serveAll_pairwise requests, ?_, ?_, ?_, ?_⟩
  · intro id
    simp [Supply.serve_failed_iff]
  · simp [Supply.serve_failed_iff]
  · intro request hfailed
    exact Supply.eq_of_serve_failed hfailed
  · intro t p hp id hid node hnode
    have hfresh : id ∉ t.allIds := not_mem_allIds_of_handed (allIds_lt_supply hp) hid
    have hown : ∀ used ∈ node.id :: node.params.map (·.id), id ≠ used := by
      rintro used hused rfl
      exact hfresh (List.mem_flatMap.2 ⟨node, hnode, hused⟩)
    constructor
    · exact hown node.id List.mem_cons_self
    · intro param hparam
      exact hown param.id (List.mem_cons_of_mem _ (List.mem_map_of_mem hparam))

/-- A function whose parameter has the largest identity of the term. -/
def paramAbove : Term := .lambda ⟨2, {}⟩ [⟨7, "x", none⟩] (.lookup ⟨3, {}⟩ "x")

theorem identities_never_collide_paramAbove :
    let requests : List Supply.Request :=
      [.reserve 3, .fresh, .reserve 4294967293, .fresh, .fresh, .reserve NodeId.last]
    let replies : List Supply.Reply :=
      [.reserved 3, .handed 8, .reserved 4294967293, .handed 4294967294, .failed, .failed]
    Program.ofTerm? paramAbove = some ⟨paramAbove, ⟨8⟩⟩ ∧
    (Supply.serveAll ⟨8⟩ requests).1 = replies ∧
    (replies.Pairwise fun earlier later =>
      ∀ id, later = .handed id → ∀ used ∈ earlier.uses, used < id) ∧
    ∀ id, .handed id ∈ replies →
      ∀ node ∈ paramAbove.nodes, id ≠ node.id ∧ ∀ param ∈ node.params, id ≠ param.id := by
  intro requests replies
  have hp : Program.ofTerm? paramAbove = some ⟨paramAbove, ⟨8⟩⟩ := rfl
  have hreplies : (Supply.serveAll ⟨8⟩ requests).1 = replies := rfl
  obtain ⟨hpairwise, -, -, -, hclear⟩ := identities_never_collide ⟨8⟩ requests
  exact ⟨hp, hreplies, hreplies ▸ hpairwise, hreplies ▸ hclear paramAbove _ hp⟩

end Multistage
