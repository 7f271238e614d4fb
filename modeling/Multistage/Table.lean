import Multistage.Node

/-!
# Tables by node identity

A finite map from identities to values, kept as a list of entries in ascending order. The order is part
of the type, so two tables with the same contents are equal.

Main definitions: `Table.get?`, `Table.insert`, `Table.modify`, `Table.erase`; the small lemmas beside
them say what each does to `get?`.
-/

namespace Multistage

/-- A finite map from identities to values. -/
structure Table (α : Type) where
  entries : List (NodeId × α) := []
  ascending : entries.Pairwise (fun a b => a.1 < b.1) := by simp
  deriving Repr

namespace Table

variable {α β : Type}

instance : Inhabited (Table α) := ⟨{}⟩

/-- The table without entries. -/
def empty : Table α := {}

/-! ## Looking up -/

/-- The value under a key in a list of entries. -/
def find? (key : NodeId) : List (NodeId × α) → Option α
  | [] => none
  | (k, v) :: rest => if k = key then some v else find? key rest

/-- The value under a key. -/
def get? (t : Table α) (key : NodeId) : Option α := find? key t.entries

/-- Whether a key has a value. -/
def contains (t : Table α) (key : NodeId) : Bool := (t.get? key).isSome

/-- The keys, in ascending order. -/
def keys (t : Table α) : List NodeId := t.entries.map (·.1)

/-- The values, in the order of their keys. -/
def values (t : Table α) : List α := t.entries.map (·.2)

/-- The number of entries. -/
def size (t : Table α) : Nat := t.entries.length

/-! ## Changing entries -/

/-- Put an entry at its place, or in the place of the one with the same key. -/
def place (key : NodeId) (value : α) : List (NodeId × α) → List (NodeId × α)
  | [] => [(key, value)]
  | (k, v) :: rest =>
    if key < k then (key, value) :: (k, v) :: rest
    else if k = key then (key, value) :: rest
    else (k, v) :: place key value rest

theorem mem_place {key : NodeId} {value : α} {es : List (NodeId × α)} {e : NodeId × α}
    (h : e ∈ place key value es) : e = (key, value) ∨ e ∈ es := by
  induction es with
  | nil => simpa [place] using h
  | cons head rest ih =>
    obtain ⟨k, v⟩ := head
    rw [place] at h
    split at h
    · simpa using h
    · split at h
      · rcases List.mem_cons.1 h with h | h
        · exact .inl h
        · exact .inr (List.mem_cons_of_mem _ h)
      · rcases List.mem_cons.1 h with h | h
        · exact .inr (h ▸ List.mem_cons_self)
        · exact (ih h).imp_right (List.mem_cons_of_mem _)

/-- Placing an entry keeps the order. -/
theorem pairwise_place {key : NodeId} {value : α} {es : List (NodeId × α)}
    (h : es.Pairwise fun a b => a.1 < b.1) :
    (place key value es).Pairwise fun a b => a.1 < b.1 := by
  induction es with
  | nil => simp [place]
  | cons head rest ih =>
    obtain ⟨k, v⟩ := head
    obtain ⟨hhead, hrest⟩ := List.pairwise_cons.1 h
    rw [place]
    split
    · next hlt =>
      refine List.pairwise_cons.2 ⟨fun e he => ?_, h⟩
      rcases List.mem_cons.1 he with rfl | he
      · exact hlt
      · exact UInt32.lt_trans hlt (hhead e he)
    · next hge =>
      split
      · next heq =>
        subst heq
        exact List.pairwise_cons.2 ⟨hhead, hrest⟩
      · next hne =>
        refine List.pairwise_cons.2 ⟨fun e he => ?_, ih hrest⟩
        rcases mem_place he with rfl | he
        · exact UInt32.lt_of_le_of_ne (UInt32.not_lt.1 hge) hne
        · exact hhead e he

/-- Add an entry or replace the one with its key. -/
def insert (t : Table α) (key : NodeId) (value : α) : Table α :=
  ⟨place key value t.entries, pairwise_place t.ascending⟩

/-- Apply `f` to each key and value. -/
def map (f : NodeId → α → β) (t : Table α) : Table β :=
  ⟨t.entries.map fun (k, v) => (k, f k v), List.pairwise_map.2 (t.ascending.imp fun h => h)⟩

/-- Apply `f` to the value under a key, if there is one. -/
def modify (t : Table α) (key : NodeId) (f : α → α) : Table α :=
  t.map fun k v => if k = key then f v else v

/-- Remove the entry of a key. -/
def erase (t : Table α) (key : NodeId) : Table α :=
  ⟨t.entries.filter (·.1 ≠ key), t.ascending.filter _⟩

/-- Add entries one after another; later ones replace earlier ones with the same key. -/
def insertAll (t : Table α) (entries : List (NodeId × α)) : Table α :=
  entries.foldl (fun t (k, v) => t.insert k v) t

/-- A table of the given entries. -/
def ofList (entries : List (NodeId × α)) : Table α := insertAll empty entries

/-! ## Laws -/

@[simp] theorem get?_empty (key : NodeId) : (empty : Table α).get? key = none := rfl

/-- An entry that is placed is found, and the others are found as before. -/
theorem find?_place (key k : NodeId) (value : α) (es : List (NodeId × α)) :
    find? k (place key value es) = if key = k then some value else find? k es := by
  induction es with
  | nil => simp [place, find?]
  | cons head rest ih =>
    obtain ⟨k', v⟩ := head
    rw [place]
    split
    · simp [find?]
    · split
      · next heq => subst heq; by_cases h : k' = k <;> simp [find?, h]
      · next hne =>
        by_cases h : k' = k
        · subst h; simp [find?, Ne.symm hne]
        · simp [find?, h, ih]

@[simp] theorem get?_insert (t : Table α) (key k : NodeId) (value : α) :
    (t.insert key value).get? k = if key = k then some value else t.get? k :=
  find?_place key k value t.entries

theorem find?_map (f : NodeId → α → β) (k : NodeId) (es : List (NodeId × α)) :
    find? k (es.map fun (k, v) => (k, f k v)) = (find? k es).map (f k) := by
  induction es with
  | nil => rfl
  | cons head rest ih =>
    obtain ⟨k', v⟩ := head
    by_cases h : k' = k
    · subst h; simp [find?]
    · simp [find?, h, ih]

@[simp] theorem get?_map (f : NodeId → α → β) (t : Table α) (k : NodeId) :
    (t.map f).get? k = (t.get? k).map (f k) := find?_map f k t.entries

@[simp] theorem get?_modify (t : Table α) (key k : NodeId) (f : α → α) :
    (t.modify key f).get? k = if k = key then (t.get? k).map f else t.get? k := by
  rw [modify, get?_map]
  split <;> simp

/-- A key that is removed is not found, and the others are found as before. -/
theorem find?_filter_ne (key k : NodeId) (es : List (NodeId × α)) :
    find? k (es.filter (·.1 ≠ key)) = if k = key then none else find? k es := by
  induction es with
  | nil => simp [find?]
  | cons head rest ih =>
    obtain ⟨k', v⟩ := head
    by_cases hk : k' = key
    · subst hk
      rw [List.filter_cons_of_neg (by simp), ih]
      by_cases h : k = k'
      · simp [h]
      · simp [find?, h, Ne.symm h]
    · rw [List.filter_cons_of_pos (by simpa using hk)]
      by_cases h : k' = k
      · subst h; simp [find?, hk]
      · simp only [find?, if_neg h, ih]

@[simp] theorem get?_erase (t : Table α) (key k : NodeId) :
    (t.erase key).get? k = if k = key then none else t.get? k :=
  find?_filter_ne key k t.entries

end Table

end Multistage
