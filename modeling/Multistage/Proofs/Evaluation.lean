import Multistage.Eval.Interpreter
import Multistage.Proofs.Terms

/-!
# Reasoning about evaluation

`Eval.Yields x m good bad` says how a computation ends that starts in the machine `m`: with a value and a
machine that are `good`, or with a stop and a machine that are `bad`. There is one rule for each
operation of the evaluator, so proofs about `Eval.eval` never look into its monad.

The evaluator is recursive, and what happens on the way to its result is what its inner calls do. `Call`
names a call of one of its five functions, `Makes` says which calls a call makes, and `Reached` which
calls the evaluation of a program makes in all. `Arises` then collects the values that occur.
-/

namespace Multistage

namespace Eval

/-! ## How computations end -/

/-- From `m` the computation ends with a `good` value or a `bad` stop. -/
def Yields {α : Type} (x : Eval α) (m : Machine) (good : α → Machine → Prop)
    (bad : Stop → Machine → Prop) : Prop :=
  match x m with
  | .ok a m => good a m
  | .error stop m => bad stop m

section Rules

variable {α β : Type} {x : Eval α} {f : α → Eval β} {a : α} {m m' : Machine}
  {good good' : α → Machine → Prop} {goal : β → Machine → Prop} {bad : Stop → Machine → Prop}

theorem Yields.ok (h : Yields x m good bad) (hx : x m = .ok a m') : good a m' := by
  simpa [Yields, hx] using h

theorem Yields.error {stop : Stop} (h : Yields x m good bad) (hx : x m = .error stop m') :
    bad stop m' := by
  simpa [Yields, hx] using h

theorem yields_pure (h : good a m) : Yields (pure a) m good bad := h

theorem yields_fail {failure : Failure} (h : bad (.failure failure) m) :
    Yields (fail failure : Eval α) m good bad := h

theorem yields_outOfFuel (h : bad .outOfFuel m) :
    Yields (throw .outOfFuel : Eval α) m good bad := h

/-- What follows a computation starts where the computation ends. -/
theorem Yields.bind (hx : Yields x m good bad)
    (hf : ∀ a m', good a m' → Yields (f a) m' goal bad) : Yields (x >>= f) m goal bad := by
  change Yields (EStateM.bind x f) m goal bad
  unfold Yields at hx ⊢
  unfold EStateM.bind
  rcases hrun : x m with ⟨a, m'⟩ | ⟨stop, m'⟩
  · rw [hrun] at hx
    exact hf a m' hx
  · rw [hrun] at hx
    exact hx

theorem Yields.imp (hx : Yields x m good bad) (h : ∀ a m', good a m' → good' a m') :
    Yields x m good' bad := by
  unfold Yields at hx ⊢
  split at hx
  · exact h _ _ hx
  · exact hx

end Rules

/-! ## Operations on the machine

Each rule is about an operation and what follows it. -/

section Operations

variable {β : Type} {m : Machine} {goal : β → Machine → Prop} {bad : Stop → Machine → Prop}

theorem yields_allocate {v : Value} {f : Slot → Eval β}
    (h : Yields (f m.slots.size) { m with slots := m.slots.push v } goal bad) :
    Yields (allocate v >>= f) m goal bad := h

theorem yields_write {slot : Slot} {v : Value} {f : Unit → Eval β}
    (h : Yields (f ()) { m with slots := m.slots.setIfInBounds slot v } goal bad) :
    Yields (write slot v >>= f) m goal bad := h

theorem yields_read {slot : Slot} {f : Value → Eval β}
    (h : Yields (f (m.slots.getD slot .void)) m goal bad) : Yields (read slot >>= f) m goal bad := h

theorem yields_nextSerial {f : Nat → Eval β}
    (h : Yields (f m.closures) { m with closures := m.closures + 1 } goal bad) :
    Yields (nextSerial >>= f) m goal bad := h

theorem yields_print {vs : List Value} {f : Unit → Eval β}
    (h : ∀ printed, Yields (f ()) { m with printed := printed } goal bad) :
    Yields (print vs >>= f) m goal bad := h _

/-- Several values go to consecutive new slots. -/
theorem allocateAll_eq (vs : List Value) (m : Machine) :
    allocateAll vs m =
      .ok (List.range' m.slots.size vs.length) { m with slots := m.slots ++ vs.toArray } := by
  induction vs generalizing m with
  | nil => simp [allocateAll, pure, EStateM.pure]
  | cons v rest ih =>
    change EStateM.bind (allocateAll rest) _ { m with slots := m.slots.push v } = _
    unfold EStateM.bind
    rw [ih]
    simp [pure, EStateM.pure, List.range'_succ]

theorem yields_allocateAll {vs : List Value} {f : List Slot → Eval β}
    (h : Yields (f (List.range' m.slots.size vs.length)) { m with slots := m.slots ++ vs.toArray } goal bad) :
    Yields (allocateAll vs >>= f) m goal bad := by
  change Yields (EStateM.bind (allocateAll vs) f) m goal bad
  unfold Yields EStateM.bind
  rw [allocateAll_eq]
  exact h

end Operations

/-- What is neither a quote nor an escape is built from its parts. -/
theorem build_parts {t : Term} (hquote : t.tag ≠ .quote) (hescape : t.tag ≠ .escape) (fuel depth : Nat)
    (scope : Scope Slot) (held kept : List Value) :
    build (fuel + 1) t depth scope held kept =
      buildAll fuel t.children depth scope held kept >>= fun r => pure (t.withChildren r.1, r.2) := by
  rw [build.eq_def]
  cases t <;> first | rfl | exact absurd rfl hquote | exact absurd rfl hescape

/-! ## Calls

A call stands for one use of a function of the evaluator. With fuel `fuel + 1` it makes its inner calls
with fuel `fuel`; those after the first start in the machine that the ones before have left. -/

/-- A use of one of the functions that evaluate terms. -/
inductive Call where
  | eval (t : Term) (scope : Scope Slot) (held : List Value)
  | evalAll (ts : List Term) (scope : Scope Slot) (held : List Value)
  | apply (f : Value) (args : List Value)
  | build (t : Term) (depth : Nat) (scope : Scope Slot) (held kept : List Value)
  | buildAll (ts : List Term) (depth : Nat) (scope : Scope Slot) (held kept : List Value)

/-- The values that a call works with. -/
def Call.given : Call → List Value
  | .eval _ _ held | .evalAll _ _ held => held
  | .apply f args => f :: args
  | .build _ _ _ held kept | .buildAll _ _ _ held kept => held ++ kept

/-- `Makes fuel c m c' m'`: the call `c` in the machine `m`, with fuel `fuel + 1`, makes the call `c'`
in the machine `m'`. -/
inductive Makes (fuel : Nat) : Call → Machine → Call → Machine → Prop
  | seqLeft {site l r scope held m} :
      Makes fuel (.eval (.seq site l r) scope held) m (.eval l scope held) m
  | seqRight {site l r scope held m v scope₁ m₁} : eval fuel l scope held m = .ok (v, scope₁) m₁ →
      Makes fuel (.eval (.seq site l r) scope held) m (.eval r scope₁ held) m₁
  | define {site name t scope held m} :
      Makes fuel (.eval (.define site name t) scope held) m (.eval t scope held) m
  | assign {site name t scope held m} :
      Makes fuel (.eval (.assign site name t) scope held) m (.eval t scope held) m
  | unary {site op t scope held m} :
      Makes fuel (.eval (.unary site op t) scope held) m (.eval t scope held) m
  | binaryLeft {site op l r scope held m} :
      Makes fuel (.eval (.binary site op l r) scope held) m (.eval l scope held) m
  | binaryRight {site op l r scope held m v scope₁ m₁} :
      eval fuel l scope held m = .ok (v, scope₁) m₁ →
      Makes fuel (.eval (.binary site op l r) scope held) m (.eval r scope₁ held) m₁
  | quote {site label snippet t scope held m} :
      Makes fuel (.eval (.quote site label snippet t) scope held) m (.build t 0 scope held []) m
  | runBody {site t scope held m} :
      Makes fuel (.eval (.run site t) scope held) m (.eval t scope held) m
  | runCode {site t scope held m body kept scope₁ m₁} :
      eval fuel t scope held m = .ok (.code body kept, scope₁) m₁ →
      Makes fuel (.eval (.run site t) scope held) m (.eval body {} kept) m₁
  | callee {site t args scope held m} :
      Makes fuel (.eval (.call site t args) scope held) m (.eval t scope held) m
  | args {site t args scope held m f scope₁ m₁} : eval fuel t scope held m = .ok (f, scope₁) m₁ →
      Makes fuel (.eval (.call site t args) scope held) m (.evalAll args scope held) m₁
  | apply {site t args scope held m f scope₁ m₁ vs m₂} :
      eval fuel t scope held m = .ok (f, scope₁) m₁ → evalAll fuel args scope held m₁ = .ok vs m₂ →
      Makes fuel (.eval (.call site t args) scope held) m (.apply f vs) m₂
  | first {t ts scope held m} :
      Makes fuel (.evalAll (t :: ts) scope held) m (.eval t scope held) m
  | others {t ts scope held m v scope₁ m₁} : eval fuel t scope held m = .ok (v, scope₁) m₁ →
      Makes fuel (.evalAll (t :: ts) scope held) m (.evalAll ts scope held) m₁
  | body {serial params t scope held vs m slots m₁} :
      params.length = vs.length → allocateAll vs m = .ok slots m₁ →
      Makes fuel (.apply (.closure serial params t scope held) vs) m
        (.eval t (scope.extendAll (params.zip slots)) held) m₁
  | buildQuote {site label snippet t depth scope held kept m} :
      Makes fuel (.build (.quote site label snippet t) depth scope held kept) m
        (.build t (depth + 1) scope held kept) m
  | buildEscape {site kind t depth scope held kept m} :
      Makes fuel (.build (.escape site kind t) (depth + 1) scope held kept) m
        (.build t depth scope held kept) m
  | evalEscape {site kind t scope held kept m} :
      Makes fuel (.build (.escape site kind t) 0 scope held kept) m (.eval t scope held) m
  | buildParts {t depth scope held kept m} : t.tag ≠ .quote → t.tag ≠ .escape →
      Makes fuel (.build t depth scope held kept) m (.buildAll t.children depth scope held kept) m
  | buildFirst {t ts depth scope held kept m} :
      Makes fuel (.buildAll (t :: ts) depth scope held kept) m (.build t depth scope held kept) m
  | buildOthers {t ts depth scope held kept m t' kept' m₁} :
      build fuel t depth scope held kept m = .ok (t', kept') m₁ →
      Makes fuel (.buildAll (t :: ts) depth scope held kept) m (.buildAll ts depth scope held kept') m₁

/-- `Ends fuel c m vs m'`: the call `c` in the machine `m` ends in `m'`, with `vs` among its results. A
call that fails has no results. -/
inductive Ends (fuel : Nat) : Call → Machine → List Value → Machine → Prop
  | eval {t scope held v scope' m m'} : eval fuel t scope held m = .ok (v, scope') m' →
      Ends fuel (.eval t scope held) m [v] m'
  | evalAll {ts scope held vs m m'} : evalAll fuel ts scope held m = .ok vs m' →
      Ends fuel (.evalAll ts scope held) m vs m'
  | apply {f args v m m'} : apply fuel f args m = .ok v m' → Ends fuel (.apply f args) m [v] m'
  | build {t depth scope held kept t' kept' m m'} :
      build fuel t depth scope held kept m = .ok (t', kept') m' →
      Ends fuel (.build t depth scope held kept) m kept' m'
  | buildAll {ts depth scope held kept ts' kept' m m'} :
      buildAll fuel ts depth scope held kept m = .ok (ts', kept') m' →
      Ends fuel (.buildAll ts depth scope held kept) m kept' m'
  | failure {t scope held stop m m'} : eval fuel t scope held m = .error stop m' →
      Ends fuel (.eval t scope held) m [] m'

/-- `Reached fuel t n c m`: evaluating the program `t` with fuel `fuel` makes the call `c` in the
machine `m`, with fuel `n` left for it. -/
inductive Reached (fuel : Nat) (t : Term) : Nat → Call → Machine → Prop
  | start : Reached fuel t fuel (.eval t {} []) {}
  | step {n c m c' m'} : Reached fuel t (n + 1) c m → Makes n c m c' m' → Reached fuel t n c' m'

/-- The values that arise when the program `t` is evaluated with fuel `fuel`: what calls are given and
what they return, the contents of slots, and the values held by code and functions among them. -/
inductive Arises (fuel : Nat) (t : Term) : Value → Prop
  | given {n c m v} : Reached fuel t n c m → v ∈ c.given → Arises fuel t v
  | stored {n c m v} : Reached fuel t n c m → v ∈ m.slots → Arises fuel t v
  | result {n c m vs m' v} : Reached fuel t n c m → Ends n c m vs m' → v ∈ vs → Arises fuel t v
  | left {n c m vs m' v} : Reached fuel t n c m → Ends n c m vs m' → v ∈ m'.slots → Arises fuel t v
  | inCode {body held v} : Arises fuel t (.code body held) → v ∈ held → Arises fuel t v
  | inClosure {serial params body scope held v} :
      Arises fuel t (.closure serial params body scope held) → v ∈ held → Arises fuel t v

end Eval

end Multistage
