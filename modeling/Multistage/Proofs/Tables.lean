import Mathlib.Data.List.Induction
import Mathlib.Data.List.Nodup
import Multistage.Table

/-!
# Contents of tables

What `Table.get?` finds is what stands in the table, and what stands in a table of given entries is the
last entry for each key.
-/

namespace Multistage.Table

variable {α : Type} {k : NodeId} {v : α}

theorem mem_of_find? {es : List (NodeId × α)} (h : find? k es = some v) : (k, v) ∈ es := by
  induction es with
  | nil => cases h
  | cons head rest ih =>
    rcases head with ⟨k', v'⟩
    rw [find?] at h
    split at h
    · next heq =>
      cases h
      exact heq ▸ List.mem_cons_self
    · exact List.mem_cons_of_mem _ (ih h)

/-- In ascending order an entry is found by its key. -/
theorem find?_of_mem {es : List (NodeId × α)} (hasc : es.Pairwise fun a b => a.1 < b.1)
    (h : (k, v) ∈ es) : find? k es = some v := by
  induction es with
  | nil => cases h
  | cons head rest ih =>
    rcases head with ⟨k', v'⟩
    rcases List.pairwise_cons.1 hasc with ⟨hhead, hrest⟩
    rcases List.mem_cons.1 h with heq | h
    · cases heq
      simp [find?]
    · have hlt : k' < k := hhead _ h
      have hne : k' ≠ k := UInt32.ne_of_lt hlt
      simp [find?, hne, ih hrest h]

/-- Looking a key up finds its entry. -/
theorem get?_eq_some_iff {t : Table α} : t.get? k = some v ↔ (k, v) ∈ t.entries :=
  ⟨mem_of_find?, find?_of_mem t.ascending⟩

/-! ## Tables of given entries -/

theorem find?_eq_none_iff {es : List (NodeId × α)} : find? k es = none ↔ k ∉ es.map (·.1) := by
  induction es with
  | nil => simp [find?]
  | cons head rest ih =>
    rcases head with ⟨k', v'⟩
    rw [find?]
    by_cases h : k' = k
    · simp [h]
    · simp [h, Ne.symm h, ih]

theorem nodup_keys (t : Table α) : t.keys.Nodup := by
  rw [keys, List.Nodup, List.pairwise_map]
  exact t.ascending.imp fun h => UInt32.ne_of_lt h

theorem mem_keys {t : Table α} : k ∈ t.keys ↔ ∃ v, t.get? k = some v := by
  rw [← Option.isSome_iff_exists, ← Option.ne_none_iff_isSome, get?, ne_eq, find?_eq_none_iff, Decidable.not_not]
  rfl

theorem ofList_concat (es : List (NodeId × α)) (k : NodeId) (v : α) :
    ofList (es ++ [(k, v)]) = (ofList es).insert k v := by
  simp [ofList, insertAll]

theorem get?_ofList_concat (es : List (NodeId × α)) (k : NodeId) (v : α) :
    (ofList (es ++ [(k, v)])).get? k = some v := by
  simp [ofList_concat]

/-- Changing all given values changes those of the table. -/
theorem get?_ofList_map {β : Type} (f : α → β) (es : List (NodeId × α)) (k : NodeId) :
    (ofList (es.map fun e => (e.1, f e.2))).get? k = ((ofList es).get? k).map f := by
  induction es using List.reverseRecOn with
  | nil => rfl
  | append_singleton es e ih =>
    rw [List.map_append, List.map_singleton, ofList_concat, ofList_concat, get?_insert, get?_insert, ih]
    split <;> rfl

/-- Every entry of the table is one of the given ones. -/
theorem mem_of_get?_ofList {es : List (NodeId × α)} (h : (ofList es).get? k = some v) :
    (k, v) ∈ es := by
  induction es using List.reverseRecOn with
  | nil => cases h
  | append_singleton es e ih =>
    rcases e with ⟨k', v'⟩
    rw [ofList_concat, get?_insert] at h
    split at h
    · next heq =>
      cases h
      simp [heq]
    · exact List.mem_append_left _ (ih h)

/-- Every key of the given entries is a key of the table. -/
theorem get?_ofList_of_mem {es : List (NodeId × α)} (h : (k, v) ∈ es) :
    ∃ v', (ofList es).get? k = some v' := by
  induction es using List.reverseRecOn with
  | nil => cases h
  | append_singleton es e ih =>
    rcases e with ⟨k', v'⟩
    rw [ofList_concat]
    by_cases heq : k' = k
    · exact ⟨v', by simp [heq]⟩
    · have hmem : (k, v) ∈ es := by
        rcases List.mem_append.1 h with h | h
        · exact h
        · simp only [List.mem_singleton, Prod.mk.injEq] at h
          exact absurd h.1.symm heq
      rcases ih hmem with ⟨w, hw⟩
      exact ⟨w, by simp [heq, hw]⟩

/-- Entries with different keys all stand in the table. -/
theorem get?_ofList_of_nodup {es : List (NodeId × α)} (hnd : (es.map (·.1)).Nodup)
    (h : (k, v) ∈ es) : (ofList es).get? k = some v := by
  rcases get?_ofList_of_mem h with ⟨w, hw⟩
  have hmem : (k, w) ∈ es := mem_of_get?_ofList hw
  have heq : (k, w) = (k, v) := List.inj_on_of_nodup_map hnd hmem h rfl
  rw [hw, (Prod.mk.inj heq).2]

/-- The first entry stands in the table if there is no other for its key. -/
theorem get?_ofList_cons (e : NodeId × α) (es : List (NodeId × α)) (k : NodeId) :
    (ofList (e :: es)).get? k = ((ofList es).get? k).or (if e.1 = k then some e.2 else none) := by
  induction es using List.reverseRecOn with
  | nil => exact get?_insert _ _ _ _
  | append_singleton es last ih =>
    rw [← List.cons_append, ofList_concat, ofList_concat, get?_insert, get?_insert, ih]
    split <;> rfl

/-- Entries that are inserted go before those of the table. -/
theorem get?_insertAll {es : List (NodeId × α)} (hasc : es.Pairwise fun a b => a.1 < b.1) (t : Table α)
    (k : NodeId) : (t.insertAll es).get? k = (find? k es).or (t.get? k) := by
  induction es generalizing t with
  | nil => rfl
  | cons head rest ih =>
    rcases head with ⟨k', v'⟩
    rcases List.pairwise_cons.1 hasc with ⟨hhead, hrest⟩
    rw [insertAll, List.foldl_cons, ← insertAll, ih hrest, get?_insert, find?]
    by_cases heq : k' = k
    · -- no later entry has the key of this one
      have hnone : find? k rest = none := by
        rw [find?_eq_none_iff]
        intro hmem
        rcases List.mem_map.1 hmem with ⟨e, he, hkey⟩
        exact UInt32.ne_of_lt (hhead e he) (heq.trans hkey.symm)
      rw [if_pos heq, if_pos heq, hnone]
      rfl
    · rw [if_neg heq, if_neg heq]

/-- Two tables are joined entry by entry, and the second one wins. -/
theorem get?_insertAll_entries (t u : Table α) (k : NodeId) :
    (t.insertAll u.entries).get? k = (u.get? k).or (t.get? k) :=
  get?_insertAll u.ascending t k

/-- A change that cannot be seen through a view of the values. -/
theorem map_modify {β : Type} {h : NodeId → α → β} {t : Table α} (key : NodeId) {g : α → α}
    (hg : ∀ k v, h k (g v) = h k v) : (t.modify key g).map h = t.map h := by
  simp only [modify, map, List.map_map, Table.mk.injEq]
  refine List.map_congr_left fun e _ => ?_
  simp only [Function.comp]
  split
  · rw [hg]
  · rfl

/-! ## What all entries hold -/

section Contents

variable {β : Type} (list : NodeId → α → List β) {t : Table α}

/-- What the entries of a table hold, one entry after another. -/
def contents (t : Table α) : List β := t.entries.flatMap fun e => list e.1 e.2

variable {list} in
theorem mem_contents {b : β} : b ∈ t.contents list ↔ ∃ k v, t.get? k = some v ∧ b ∈ list k v := by
  rw [contents, List.mem_flatMap]
  constructor
  · rintro ⟨⟨k, v⟩, hmem, hb⟩
    exact ⟨k, v, get?_eq_some_iff.2 hmem, hb⟩
  · rintro ⟨k, v, hget, hb⟩
    exact ⟨(k, v), get?_eq_some_iff.1 hget, hb⟩

theorem contents_map {γ : Type} (list : NodeId → γ → List β) (h : NodeId → α → γ) :
    (t.map h).contents list = t.contents fun k v => list k (h k v) := by
  simp only [contents, map, List.flatMap_map]

/-- A change that leaves alone what entries hold. -/
theorem contents_modify (key : NodeId) {g : α → α} (hg : ∀ k v, list k (g v) = list k v) :
    (t.modify key g).contents list = t.contents list := by
  simp only [contents, modify, map, List.flatMap_map]
  refine List.flatMap_congr fun e _ => ?_
  split
  · exact hg e.1 e.2
  · rfl

/-- A new entry adds what it holds. It may take the place of one that holds nothing. -/
theorem perm_contents_insert (hold : ∀ old, t.get? k = some old → list k old = []) :
    ((t.insert k v).contents list).Perm (list k v ++ t.contents list) := by
  have hentries : ∀ e ∈ t.entries, e.1 = k → list k e.2 = [] := by
    rintro ⟨k', old⟩ hmem rfl
    exact hold old (get?_eq_some_iff.2 hmem)
  simp only [contents, insert]
  generalize t.entries = es at hentries
  induction es with
  | nil => exact .refl _
  | cons head rest ih =>
    rcases head with ⟨k', v'⟩
    rcases List.forall_mem_cons.1 hentries with ⟨hhead, hrest⟩
    rw [place]
    split
    · exact .refl _
    · split
      · next heq =>
        have hblank : list k' v' = [] := heq ▸ hhead heq
        rw [List.flatMap_cons, List.flatMap_cons, hblank]
        exact .refl _
      · rw [List.flatMap_cons, List.flatMap_cons]
        exact ((ih hrest).append_left _).trans (List.perm_append_comm_assoc _ _ _)

/-- What is added to one of the entries is added to all that they hold. -/
theorem perm_contents_modify (new : List β) (hkey : t.get? k ≠ none) {g : α → α}
    (hg : ∀ v, (list k (g v)).Perm (new ++ list k v)) :
    ((t.modify k g).contents list).Perm (new ++ t.contents list) := by
  have hmem : k ∈ t.entries.map (·.1) := by
    by_contra hnotin
    exact hkey (find?_eq_none_iff.2 hnotin)
  have hnodup : (t.entries.map (·.1)).Nodup := t.nodup_keys
  simp only [contents, modify, map, List.flatMap_map]
  generalize t.entries = es at hmem hnodup
  induction es with
  | nil => cases hmem
  | cons e rest ih =>
    rw [List.map_cons, List.nodup_cons] at hnodup
    rw [List.flatMap_cons, List.flatMap_cons]
    by_cases hfirst : e.1 = k
    · -- no other entry has the key
      have hrest : (rest.flatMap fun e => list e.1 (if e.1 = k then g e.2 else e.2)) =
          rest.flatMap fun e => list e.1 e.2 := by
        refine List.flatMap_congr fun e' he' => ?_
        have hne : e'.1 ≠ k := by
          intro heq
          rw [← hfirst] at heq
          exact hnodup.1 (heq ▸ List.mem_map_of_mem he')
        rw [if_neg hne]
      rw [if_pos hfirst, hrest, hfirst, ← List.append_assoc]
      exact (hg e.2).append_right _
    · rw [if_neg hfirst]
      have hothers := ih ((List.mem_cons.1 hmem).resolve_left (Ne.symm hfirst)) hnodup.2
      exact (hothers.append_left _).trans (List.perm_append_comm_assoc _ _ _)

/-- What all entries hold is what one of them holds and what the others do. -/
theorem perm_contents_erase (h : t.get? k = some v) :
    (t.contents list).Perm (list k v ++ (t.erase k).contents list) := by
  have hmem : (k, v) ∈ t.entries := get?_eq_some_iff.1 h
  have hnodup : (t.entries.map (·.1)).Nodup := t.nodup_keys
  simp only [contents, erase]
  generalize t.entries = es at hmem hnodup
  induction es with
  | nil => cases hmem
  | cons e rest ih =>
    rw [List.map_cons, List.nodup_cons] at hnodup
    rcases List.mem_cons.1 hmem with rfl | hmem
    · have hothers : rest.filter (fun e => decide (e.1 ≠ k)) = rest := by
        refine List.filter_eq_self.2 fun e he => ?_
        simp only [decide_eq_true_eq]
        intro heq
        have hin : e.1 ∈ rest.map (·.1) := List.mem_map_of_mem he
        exact hnodup.1 (heq ▸ hin)
      rw [List.filter_cons_of_neg (by simp), hothers, List.flatMap_cons]
    · have hne : e.1 ≠ k := by
        intro heq
        exact hnodup.1 (heq ▸ List.mem_map_of_mem hmem)
      rw [List.filter_cons_of_pos (by simpa using hne), List.flatMap_cons, List.flatMap_cons]
      exact ((ih hmem hnodup.2).append_left _).trans (List.perm_append_comm_assoc _ _ _)

end Contents

end Multistage.Table
