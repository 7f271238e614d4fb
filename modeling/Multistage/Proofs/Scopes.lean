import Multistage.Typing.Rules

/-!
# Looking names up

What `Scope.lookup?` finds after a scope has been extended or its values have been changed, and how the
contexts inside functions, quotes and escapes look names up.
-/

namespace Multistage

namespace Scope

variable {α β : Type}

/-- Changing values changes the newest one. -/
theorem newest?_map (f : α → β) (name : String) (bs : List (String × α)) :
    newest? name (bs.map fun (n, v) => (n, f v)) = (newest? name bs).map f := by
  induction bs with
  | nil => rfl
  | cons b rest ih =>
    rcases b with ⟨n, v⟩
    by_cases h : n = name
    · simp [newest?, h]
    · simp [newest?, h, ih]

theorem newest?_append (name : String) (as bs : List (String × α)) :
    newest? name (as ++ bs) = (newest? name as).or (newest? name bs) := by
  induction as with
  | nil => rfl
  | cons a as ih =>
    rcases a with ⟨bound, value⟩
    by_cases h : bound = name <;> simp [newest?, h, ih]

/-- The newest binding of a name is one of the bindings. -/
theorem mem_of_newest? {name : String} {bs : List (String × α)} {value : α}
    (h : newest? name bs = some value) : (name, value) ∈ bs := by
  induction bs with
  | nil => cases h
  | cons b bs ih =>
    rcases b with ⟨bound, value'⟩
    rw [newest?] at h
    split at h
    · next heq =>
      cases h
      exact heq ▸ List.mem_cons_self
    · exact List.mem_cons_of_mem _ (ih h)

/-- A name with a binding has a newest one. -/
theorem newest?_ne_none {name : String} {bs : List (String × α)} {value : α}
    (h : (name, value) ∈ bs) : newest? name bs ≠ none := by
  induction bs with
  | nil => cases h
  | cons b bs ih =>
    rw [newest?]
    split
    · exact Option.some_ne_none _
    · next hne =>
      refine ih ((List.mem_cons.1 h).resolve_left ?_)
      rintro rfl
      exact hne rfl

/-- Changing the values of a scope changes the value that a name has. -/
theorem lookup?_map (f : α → β) (s : Scope α) (name : String) :
    (s.map f).lookup? name = (s.lookup? name).map f := by
  rcases s with ⟨frames⟩
  induction frames with
  | nil => rfl
  | cons frame rest ih =>
    have hframe := newest?_map f name frame.reverse
    simp only [lookup?, map, List.map_cons, List.findSome?_cons, ← List.map_reverse] at ih ⊢
    rw [hframe]
    cases newest? name frame.reverse with
    | some v => rfl
    | none => exact ih

/-- A new frame is searched first. -/
theorem lookup?_extendAll (s : Scope α) (frame : List (String × α)) (name : String) :
    (s.extendAll frame).lookup? name = (newest? name frame.reverse).or (s.lookup? name) := by
  simp only [lookup?, extendAll, List.findSome?_cons]
  cases newest? name frame.reverse <;> rfl

/-- The new name hides an older one, and nothing else changes. -/
theorem lookup?_extend (s : Scope α) (bound : String) (value : α) (name : String) :
    (s.extend bound value).lookup? name = if bound = name then some value else s.lookup? name := by
  rw [extend, lookup?_extendAll]
  by_cases h : bound = name <;> simp [newest?, h]

end Scope

/-! ## Shifts of types -/

namespace Ty

@[simp] theorem shift_shift (a b : Int) (t : Ty) : (t.shift a).shift b = t.shift (a + b) := by
  cases t <;> simp [shift, Int.add_assoc]

@[simp] theorem shift_zero (t : Ty) : t.shift 0 = t := by
  cases t <;> simp [shift]

@[simp] theorem stage_shift (a : Int) (t : Ty) : (t.shift a).stage = t.stage + a := by
  cases t <;> rfl

end Ty

namespace Binding

/-- The same binding with its type moved by a number of stages. -/
def shift (amount : Int) (b : Binding) : Binding := { b with type := b.type.shift amount }

end Binding

namespace Scope

theorem lookup?_shift (amount : Int) (s : Scope Binding) (name : String) :
    (s.shift amount).lookup? name = (s.lookup? name).map (Binding.shift amount) :=
  lookup?_map _ s name

@[simp] theorem shift_shift (a b : Int) (s : Scope Binding) : (s.shift a).shift b = s.shift (a + b) := by
  simp [shift, map]

@[simp] theorem shift_zero (s : Scope Binding) : s.shift 0 = s := by
  simp [shift, map]

end Scope

/-! ## Contexts -/

namespace Context

/-- The parameters of a function are bound at the level of the context. -/
theorem lookup?_bindAll (c : Context) (bound : List (String × Ty)) (name : String) :
    (c.bindAll bound).lookup? name =
      ((Scope.newest? name bound.reverse).map fun τ => ⟨τ, c.level⟩).or (c.scope.lookup? name) := by
  rw [bindAll, Scope.lookup?_extendAll, ← List.map_reverse]
  exact congrArg (Option.or · _) (Scope.newest?_map (Binding.mk · c.level) name bound.reverse)

/-- The context inside `count` nested escapes. -/
def escapedTimes (c : Context) : Nat → Context
  | 0 => c
  | count + 1 => c.escaped.escapedTimes count

theorem escapedTimes_scope (c : Context) (count : Nat) :
    (c.escapedTimes count).scope = c.scope.shift count := by
  induction count generalizing c with
  | zero => simp [escapedTimes]
  | succ count ih =>
    rw [escapedTimes, ih, escaped, Scope.shift_shift]
    congr 1
    omega

theorem escapedTimes_level (c : Context) (count : Nat) :
    (c.escapedTimes count).level = c.level - count := by
  induction count generalizing c with
  | zero => rfl
  | succ count ih =>
    rw [escapedTimes, ih]
    show c.level - 1 - count = c.level - (count + 1)
    omega

end Context

end Multistage
