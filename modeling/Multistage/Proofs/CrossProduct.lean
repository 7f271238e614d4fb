import Multistage.Proofs.Variants

/-!
# The order of combinations

All ways of taking one element from each of some lists are numbered like the numbers with one digit for
each list, where a digit is a position in its list and the first one counts most. `MixedRadix` has these
numbers: the radices are the lengths of the lists.

`crossProduct` treats the last list apart, since it knows no combinations of no lists at all.
`combinations` is the product without this exception, and the two are the same for one list or more.

Main statement: `crossProduct_lexicographic`.
-/

namespace Multistage

/-! ## Digits -/

namespace MixedRadix

/-- How many numbers have one digit below each radix. -/
def size : List Nat → Nat
  | [] => 1
  | radix :: rest => radix * size rest

/-- The digits of a number, the most significant one first. -/
def digits : List Nat → Nat → List Nat
  | [], _ => []
  | _ :: rest, n => n / size rest :: digits rest (n % size rest)

/-- The number with the given digits. -/
def value : List Nat → List Nat → Nat
  | _ :: rest, digit :: digits => digit * size rest + value rest digits
  | _, _ => 0

theorem size_pos {radices : List Nat} (h : ∀ radix ∈ radices, 0 < radix) : 0 < size radices := by
  induction radices with
  | nil => exact Nat.one_pos
  | cons radix rest ih =>
    rcases List.forall_mem_cons.1 h with ⟨hradix, hrest⟩
    exact Nat.mul_pos hradix (ih hrest)

variable {radices rest : List Nat} {radix n : Nat}

/-- There is a number below a product only if its factors are not zero. -/
theorem size_pos_of_lt (h : n < size (radix :: rest)) : 0 < size rest := by
  refine Nat.pos_of_ne_zero fun hzero => ?_
  rw [size, hzero, Nat.mul_zero] at h
  exact Nat.not_lt_zero n h

/-- The first digit is below its radix. -/
theorem div_size_lt (h : n < size (radix :: rest)) : n / size rest < radix :=
  (Nat.div_lt_iff_lt_mul (size_pos_of_lt h)).2 h

/-- The other digits are those of a number that is small enough. -/
theorem mod_size_lt (h : n < size (radix :: rest)) : n % size rest < size rest :=
  Nat.mod_lt n (size_pos_of_lt h)

theorem digits_lt (h : n < size radices) : List.Forall₂ (· < ·) (digits radices n) radices := by
  induction radices generalizing n with
  | nil => exact .nil
  | cons radix rest ih => exact .cons (div_size_lt h) (ih (mod_size_lt h))

/-- A number is read back from its digits in mixed radix. -/
theorem value_digits (h : n < size radices) : value radices (digits radices n) = n := by
  induction radices generalizing n with
  | nil =>
    rw [size, Nat.lt_one_iff] at h
    rw [h]
    rfl
  | cons radix rest ih =>
    rw [digits, value, ih (mod_size_lt h), Nat.mul_comm]
    exact Nat.div_add_mod n (size rest)

end MixedRadix

/-! ## Combinations -/

variable {α β : Type}

/-- All ways of taking one element from each list, the first one varying slowest. From no lists at all there
is one: to take nothing. -/
def combinations : List (List α) → List (List α)
  | [] => [[]]
  | set :: rest => set.flatMap fun a => (combinations rest).map (a :: ·)

/-- The product of one or more sets takes the tuples in the order of their digits. -/
theorem crossProduct_eq_combinations {sets : List (List α)} (h : sets ≠ []) :
    crossProduct sets = combinations sets := by
  induction sets with
  | nil => exact absurd rfl h
  | cons set rest ih =>
    by_cases hrest : rest = []
    · -- the last list gives combinations of one element each
      subst hrest
      exact List.map_eq_flatMap
    · rw [crossProduct_cons hrest, combinations, ih hrest]

/-- There are as many tuples as numbers in the mixed radix of the sizes. -/
theorem length_combinations (sets : List (List α)) :
    (combinations sets).length = MixedRadix.size (sets.map List.length) := by
  induction sets with
  | nil => rfl
  | cons set rest ih =>
    have hblock : ∀ a : α, ((combinations rest).map (a :: ·)).length = MixedRadix.size (rest.map List.length) := by
      intro a
      rw [List.length_map, ih]
    simp only [combinations, List.length_flatMap, hblock, List.map_const', List.sum_replicate_nat, List.map_cons,
      MixedRadix.size]

/-- In a list made of blocks of one length, the quotient by this length counts the blocks and the remainder
is the place in the block. -/
theorem getElem?_flatMap_blocks {f : α → List β} {length : Nat} (hlength : ∀ a, (f a).length = length)
    (hpos : 0 < length) (l : List α) (i : Nat) :
    (l.flatMap f)[i]? = l[i / length]?.bind fun a => (f a)[i % length]? := by
  induction l generalizing i with
  | nil => simp
  | cons a rest ih =>
    rw [List.flatMap_cons]
    by_cases hi : i < length
    · rw [List.getElem?_append_left (by rw [hlength]; exact hi), Nat.div_eq_of_lt hi, Nat.mod_eq_of_lt hi]
      rfl
    · -- one block less, and one less to count
      have hle : length ≤ i := Nat.le_of_not_lt hi
      rw [List.getElem?_append_right (by rw [hlength]; exact hle), hlength, ih, Nat.div_eq_sub_div hpos hle,
        Nat.mod_eq_sub_mod hle]
      rfl

/-- The elements of `tuple` stand in the lists at the places that the digits say. -/
def TakenAt (sets : List (List α)) (digits : List Nat) (tuple : List α) : Prop :=
  tuple.length = sets.length ∧ ∀ (j : Nat) set, sets[j]? = some set →
    ∃ digit a, digits[j]? = some digit ∧ set[digit]? = some a ∧ tuple[j]? = some a

theorem TakenAt.cons {set : List α} {rest : List (List α)} {digit : Nat} {digits : List Nat} {a : α}
    {tuple : List α} (ha : set[digit]? = some a) (h : TakenAt rest digits tuple) :
    TakenAt (set :: rest) (digit :: digits) (a :: tuple) := by
  refine ⟨congrArg (· + 1) h.1, fun j other hother => ?_⟩
  cases j with
  | zero =>
    cases hother
    exact ⟨digit, a, rfl, ha, rfl⟩
  | succ j => exact h.2 j other hother

/-- A combination is found under the number whose digits are the places of its elements. -/
theorem getElem?_combinations {sets : List (List α)} {i : Nat} (h : i < MixedRadix.size (sets.map List.length)) :
    ∃ tuple, (combinations sets)[i]? = some tuple ∧
      TakenAt sets (MixedRadix.digits (sets.map List.length) i) tuple := by
  induction sets generalizing i with
  | nil =>
    rw [List.map_nil, MixedRadix.size, Nat.lt_one_iff] at h
    subst h
    exact ⟨[], rfl, rfl, fun j set hset => by cases hset⟩
  | cons set rest ih =>
    rw [List.map_cons] at h ⊢
    rcases ih (MixedRadix.mod_size_lt h) with ⟨tuple, htuple, htaken⟩
    have hblock : ∀ a : α, ((combinations rest).map (a :: ·)).length = MixedRadix.size (rest.map List.length) := by
      intro a
      rw [List.length_map, length_combinations]
    have hdigit := List.getElem?_eq_getElem (MixedRadix.div_size_lt h)
    refine ⟨_, ?_, htaken.cons hdigit⟩
    rw [combinations, getElem?_flatMap_blocks hblock (MixedRadix.size_pos_of_lt h), hdigit, Option.bind_some,
      List.getElem?_map, htuple]
    rfl

/-- **The cross product is lexicographic.** From one list or more there are as many combinations as the
product of their lengths. The one with the number `i` has as its elements those at the digits of `i`, where
there is one digit for each list, below its length, and the first digit counts most. From no lists at all
there is no combination. -/
theorem crossProduct_lexicographic (sets : List (List α)) :
    (sets = [] → crossProduct sets = []) ∧
    (sets ≠ [] →
      (crossProduct sets).length = MixedRadix.size (sets.map List.length) ∧
      ∀ i < MixedRadix.size (sets.map List.length),
        List.Forall₂ (· < ·) (MixedRadix.digits (sets.map List.length) i) (sets.map List.length) ∧
        MixedRadix.value (sets.map List.length) (MixedRadix.digits (sets.map List.length) i) = i ∧
        ∃ tuple, (crossProduct sets)[i]? = some tuple ∧
          TakenAt sets (MixedRadix.digits (sets.map List.length) i) tuple) := by
  constructor
  · intro hnone
    rw [hnone]
    rfl
  · intro hsome
    rw [crossProduct_eq_combinations hsome]
    refine ⟨length_combinations sets, fun i hi => ?_⟩
    exact ⟨MixedRadix.digits_lt hi, MixedRadix.value_digits hi, getElem?_combinations hi⟩

/-- Equal elements count as often as they stand in a list. -/
theorem crossProduct_lexicographic_repeated :
    (crossProduct [[7, 7], [8], [1, 2, 3]]).length = 6 ∧ MixedRadix.value [2, 1, 3] [1, 0, 1] = 4 ∧
    ∃ tuple, (crossProduct [[7, 7], [8], [1, 2, 3]])[4]? = some tuple ∧
      TakenAt [[7, 7], [8], [1, 2, 3]] [1, 0, 1] tuple ∧ tuple = [7, 8, 2] := by
  obtain ⟨hlength, hall⟩ := (crossProduct_lexicographic [[7, 7], [8], [1, 2, 3]]).2 (List.cons_ne_nil _ _)
  obtain ⟨-, hvalue, tuple, htuple, htaken⟩ := hall 4 (by decide)
  refine ⟨hlength, hvalue, tuple, htuple, htaken, ?_⟩
  cases htuple
  rfl

end Multistage
