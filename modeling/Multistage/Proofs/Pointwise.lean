import Mathlib.Data.List.Forall2

/-!
# Lists related element by element

What a computation that may fail does to a list, two ways of reading `List.Forall₂`, and members with
different keys.
-/

namespace Multistage

variable {ε α β : Type}

theorem Except.bind_eq_ok {x : Except ε α} {g : α → Except ε β} {b : β} :
    (x >>= g) = .ok b ↔ ∃ a, x = .ok a ∧ g a = .ok b := by
  cases x with
  | error e => simp [bind, Except.bind]
  | ok a => simp [bind, Except.bind]

theorem Except.bind_eq_error {x : Except ε α} {g : α → Except ε β} {e : ε} :
    (x >>= g) = .error e ↔ x = .error e ∨ ∃ a, x = .ok a ∧ g a = .error e := by
  cases x with
  | error e' => simp [bind, Except.bind]
  | ok a => simp [bind, Except.bind]

theorem mapM_congr {m : Type → Type} [Monad m] [LawfulMonad m] {f g : α → m β} {l : List α}
    (h : ∀ a ∈ l, f a = g a) : l.mapM f = l.mapM g := by
  induction l with
  | nil => rfl
  | cons a rest ih =>
    rcases List.forall_mem_cons.1 h with ⟨ha, hrest⟩
    rw [List.mapM_cons, List.mapM_cons, ha, ih hrest]

/-- A traversal that succeeds does so at each member. -/
theorem mapM_eq_ok {f : α → Except ε β} {l : List α} {r : List β} :
    l.mapM f = .ok r ↔ List.Forall₂ (fun a b => f a = .ok b) l r := by
  induction l generalizing r with
  | nil => cases r <;> simp [pure, Except.pure]
  | cons a l ih =>
    rw [List.mapM_cons, Except.bind_eq_ok]
    constructor
    · rintro ⟨b, hb, hrest⟩
      rcases Except.bind_eq_ok.1 hrest with ⟨bs, hbs, hr⟩
      cases hr
      exact .cons hb (ih.1 hbs)
    · intro h
      cases h with
      | cons hb hbs => exact ⟨_, hb, Except.bind_eq_ok.2 ⟨_, ih.2 hbs, rfl⟩⟩

/-- A list that cannot be mapped has an element at which that fails. -/
theorem mapM_eq_error {f : α → Except ε β} {l : List α} {e : ε} (h : l.mapM f = .error e) :
    ∃ a ∈ l, f a = .error e := by
  induction l with
  | nil => cases h
  | cons a l ih =>
    rw [List.mapM_cons] at h
    rcases Except.bind_eq_error.1 h with hhead | ⟨b, -, hrest⟩
    · exact ⟨a, List.mem_cons_self, hhead⟩
    · rcases Except.bind_eq_error.1 hrest with htail | ⟨bs, -, hpure⟩
      · rcases ih htail with ⟨a', hmem, hfail⟩
        exact ⟨a', List.mem_cons_of_mem _ hmem, hfail⟩
      · cases hpure

/-- What every step keeps holds after all of them. -/
theorem foldlM_induction {f : β → α → Except ε β} {l : List α} {b b' : β} {P : β → Prop}
    (hstep : ∀ a ∈ l, ∀ b b', P b → f b a = .ok b' → P b') (h : l.foldlM f b = .ok b') (hb : P b) : P b' := by
  induction l generalizing b with
  | nil =>
    cases h
    exact hb
  | cons a l ih =>
    rw [List.foldlM_cons] at h
    rcases Except.bind_eq_ok.1 h with ⟨b₁, hhead, htail⟩
    rcases List.forall_mem_cons.1 hstep with ⟨hfirst, hrest⟩
    exact ih hrest htail (hfirst b b₁ hb hhead)

/-- Where a fold succeeds, all of its steps do. -/
theorem foldlM_eq_ok {f : β → α → Except ε β} {l : List α} {b b' : β} (h : l.foldlM f b = .ok b') :
    ∀ a ∈ l, ∃ first last, f first a = .ok last := by
  induction l generalizing b with
  | nil => exact List.forall_mem_nil _
  | cons a l ih =>
    rw [List.foldlM_cons] at h
    rcases Except.bind_eq_ok.1 h with ⟨b₁, hhead, htail⟩
    exact List.forall_mem_cons.2 ⟨⟨b, b₁, hhead⟩, ih htail⟩

/-- Where a fold fails, one of its steps does. -/
theorem foldlM_eq_error {f : β → α → Except ε β} {l : List α} {b : β} {e : ε} (h : l.foldlM f b = .error e) :
    ∃ a ∈ l, ∃ b', f b' a = .error e := by
  induction l generalizing b with
  | nil => cases h
  | cons a l ih =>
    rw [List.foldlM_cons] at h
    rcases Except.bind_eq_error.1 h with hhead | ⟨b₁, -, htail⟩
    · exact ⟨a, List.mem_cons_self, b, hhead⟩
    · rcases ih htail with ⟨a', hmem, hfail⟩
      exact ⟨a', List.mem_cons_of_mem _ hmem, hfail⟩

/-- Related lists have related members. -/
theorem exists_of_forall₂ {R : α → β → Prop} {l : List α} {r : List β} (h : List.Forall₂ R l r)
    {a : α} (ha : a ∈ l) : ∃ b ∈ r, R a b := by
  induction h with
  | nil => cases ha
  | cons hhead _ ih =>
    rcases List.mem_cons.1 ha with rfl | ha
    · exact ⟨_, List.mem_cons_self, hhead⟩
    · rcases ih ha with ⟨b, hb, hab⟩
      exact ⟨b, List.mem_cons_of_mem _ hb, hab⟩

theorem forall₂_flatMap {γ : Type} {R : β → γ → Prop} {f : α → List β} {g : α → List γ} {l : List α}
    (h : ∀ a ∈ l, List.Forall₂ R (f a) (g a)) : List.Forall₂ R (l.flatMap f) (l.flatMap g) := by
  induction l with
  | nil => exact .nil
  | cons a rest ih =>
    rcases List.forall_mem_cons.1 h with ⟨hhead, htail⟩
    rw [List.flatMap_cons, List.flatMap_cons]
    exact List.rel_append hhead (ih htail)

theorem forall₂_iff_getElem? {R : α → β → Prop} {as : List α} {bs : List β} :
    List.Forall₂ R as bs ↔
      as.length = bs.length ∧ ∀ (i : Nat) a b, as[i]? = some a → bs[i]? = some b → R a b := by
  rw [List.forall₂_iff_get]
  refine and_congr_right fun hlen => ?_
  constructor
  · intro h i a b ha hb
    rcases List.getElem?_eq_some_iff.1 ha with ⟨hi, rfl⟩
    rcases List.getElem?_eq_some_iff.1 hb with ⟨hi', rfl⟩
    exact h i hi hi'
  · intro h i hi hi'
    exact h i _ _ (List.getElem?_eq_getElem hi) (List.getElem?_eq_getElem hi')

theorem rel_getElem? {R : α → β → Prop} {as : List α} {bs : List β} (h : List.Forall₂ R as bs) (i : Nat) :
    Option.Rel R as[i]? bs[i]? := by
  induction h generalizing i with
  | nil => exact .none
  | cons hhead _ ih =>
    cases i with
    | zero => exact .some hhead
    | succ i => exact ih i

theorem forall₂_set {R : α → β → Prop} {as : List α} {bs : List β} (h : List.Forall₂ R as bs) {a : α} {b : β}
    (hab : R a b) (i : Nat) : List.Forall₂ R (as.set i a) (bs.set i b) := by
  induction h generalizing i with
  | nil => exact .nil
  | cons hhead htail ih =>
    cases i with
    | zero => exact .cons hab htail
    | succ i => exact .cons hhead (ih i)

theorem getElem?_of_prefix {as bs : List α} (h : as <+: bs) {i : Nat} {a : α}
    (ha : as[i]? = some a) : bs[i]? = some a := by
  rcases h with ⟨cs, rfl⟩
  rw [List.getElem?_append_left (List.getElem?_eq_some_iff.1 ha).1]
  exact ha

/-- In a list whose members have different keys, a key is that of one member. -/
theorem filter_eq_singleton [DecidableEq β] {key : α → β} {l : List α} {a : α}
    (hkeys : l.Pairwise fun a b => key a ≠ key b) (ha : a ∈ l) : l.filter (fun b => key b = key a) = [a] := by
  rcases List.append_of_mem ha with ⟨before, after, rfl⟩
  rcases List.pairwise_append.1 hkeys with ⟨-, hafter, hacross⟩
  have hbefore : before.filter (fun b => key b = key a) = [] := by
    simpa using fun b hb => hacross b hb a List.mem_cons_self
  have hrest : after.filter (fun b => key b = key a) = [] := by
    simpa using fun b hb => Ne.symm ((List.pairwise_cons.1 hafter).1 b hb)
  simp [hbefore, hrest]

theorem filterMap_cons_toList (g : α → Option β) (a : α) (l : List α) :
    (a :: l).filterMap g = (g a).toList ++ l.filterMap g := by
  rw [List.filterMap_cons]
  cases g a <;> rfl

end Multistage
