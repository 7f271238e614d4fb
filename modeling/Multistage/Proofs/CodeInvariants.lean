import Multistage.Proofs.Evaluation

/-!
# Invariants of evaluation

Evaluation takes terms apart, builds code from them, and evaluates code again. A `CodeInvariant` is a
property of terms that survives this. It speaks of a term at a level, which counts quotes, together with
the number of values that the term holds, and its rules are about one node at a time: the children of a
node have the property, a node that is rebuilt as part of code has it one level further down, and so have
the terms that an escape leaves behind.

A value meets the invariant if all code and all functions in it do. One call preserves that
(`Eval.preserved`), so it holds of every call that an evaluation makes (`Eval.Reached.meets`) and of every
value that arises (`Eval.Arises.meets`).
-/

namespace Multistage

/-- Failures that do not depend on escapes and held references. -/
def Failure.Ordinary : Failure → Prop
  | .escapeOutsideQuote | .missingHeld _ => False
  | _ => True

/-- A property of terms that evaluation keeps, and the stops that it leaves possible. -/
structure CodeInvariant where
  /-- a term at a level has the property, if so many values are held -/
  holds : (count : Nat) → (level : Int) → Term → Prop
  stops : Stop → Prop
  child {count : Nat} {level : Int} {t child : Term} : holds count level t → child ∈ t.children →
    holds count (t.levelBelow level) child
  /-- the escapes of the quote that is built do not stay, so no escape gets to level 0 -/
  rebuilt {count count' depth : Nat} {t : Term} {ts : List Term} : holds count (depth + 1) t →
    (t.tag = .escape → depth ≠ 0) → ts.length = t.children.length →
    (∀ child ∈ ts, holds count' (t.levelBelow depth) child) → holds count' depth (t.withChildren ts)
  more {count count' : Nat} {level : Int} {t : Term} : holds count level t → count ≤ count' →
    holds count' level t
  spliced {count : Nat} {t : Term} (offset : Nat) : holds count 0 t →
    holds (offset + count) 0 (t.shiftHeld offset)
  kept (site : Site) (count : Nat) : holds (count + 1) 0 (.held site count)
  outOfFuel : stops .outOfFuel
  ordinary {failure : Failure} : failure.Ordinary → stops (.failure failure)
  escape {count : Nat} {site : Site} {kind : EscapeKind} {body : Term} :
    holds count 0 (.escape site kind body) → stops (.failure .escapeOutsideQuote)
  missing {count index : Nat} {site : Site} : holds count 0 (.held site index) → count ≤ index →
    stops (.failure (.missingHeld index))

variable {I : CodeInvariant}

/-! ## Values and machines -/

/-- The code and the functions that occur in a value have the property, at level 0 and with the values
that they hold. -/
inductive Value.Meets (I : CodeInvariant) : Value → Prop
  | int {n} : Meets I (.int n)
  | float {x} : Meets I (.float x)
  | string {s} : Meets I (.string s)
  | void : Meets I .void
  | host {f} : Meets I (.host f)
  | closure {serial params body scope held} : I.holds held.length 0 body → (∀ v ∈ held, Meets I v) →
      Meets I (.closure serial params body scope held)
  | code {body held} : I.holds held.length 0 body → (∀ v ∈ held, Meets I v) →
      Meets I (.code body held)

/-- Every slot holds a value that meets the invariant. -/
def Machine.Meets (I : CodeInvariant) (m : Machine) : Prop := ∀ v ∈ m.slots, v.Meets I

theorem Machine.Meets.push {m : Machine} (hm : m.Meets I) {v : Value} (hv : v.Meets I) :
    Machine.Meets I { m with slots := m.slots.push v } := by
  intro w hw
  rcases Array.mem_push.1 hw with hw | rfl
  · exact hm w hw
  · exact hv

theorem Machine.Meets.append {m : Machine} (hm : m.Meets I) {vs : List Value}
    (hvs : ∀ v ∈ vs, v.Meets I) : Machine.Meets I { m with slots := m.slots ++ vs.toArray } := by
  intro w hw
  rcases Array.mem_append.1 hw with hw | hw
  · exact hm w hw
  · exact hvs w (by simpa using hw)

theorem Machine.Meets.set {m : Machine} (hm : m.Meets I) {v : Value} (hv : v.Meets I) (slot : Slot) :
    Machine.Meets I { m with slots := m.slots.setIfInBounds slot v } := by
  intro w hw
  rcases Array.mem_or_eq_of_mem_setIfInBounds hw with hw | rfl
  · exact hm w hw
  · exact hv

theorem Machine.Meets.getD {m : Machine} (hm : m.Meets I) (slot : Slot) :
    (m.slots.getD slot .void).Meets I := by
  unfold Array.getD
  split
  · exact hm _ (Array.getElem_mem _)
  · exact .void

namespace Eval

/-- A stop that the invariant leaves possible, in a machine that meets it. -/
def Stopped (I : CodeInvariant) (stop : Stop) (m : Machine) : Prop := m.Meets I ∧ I.stops stop

/-- What a call may be given. The body of a quote stands one level up, and its parts under further quotes
above that. -/
def Call.Meets (I : CodeInvariant) : Call → Prop
  | .eval t _ held => I.holds held.length 0 t ∧ ∀ v ∈ held, v.Meets I
  | .evalAll ts _ held => (∀ t ∈ ts, I.holds held.length 0 t) ∧ ∀ v ∈ held, v.Meets I
  | .apply f args => f.Meets I ∧ ∀ v ∈ args, v.Meets I
  | .build t depth _ held kept =>
    I.holds held.length (depth + 1) t ∧ (∀ v ∈ held, v.Meets I) ∧ ∀ v ∈ kept, v.Meets I
  | .buildAll ts depth _ held kept =>
    (∀ t ∈ ts, I.holds held.length (depth + 1) t) ∧ (∀ v ∈ held, v.Meets I) ∧ ∀ v ∈ kept, v.Meets I

/-- What a call gives back: values that meet the invariant in such a machine, and as the code of a quote a
term that has the property with the values kept. -/
def Call.Preserved (I : CodeInvariant) (fuel : Nat) (m : Machine) : Call → Prop
  | .eval t scope held =>
    Yields (Eval.eval fuel t scope held) m (fun r m' => r.1.Meets I ∧ m'.Meets I) (Stopped I)
  | .evalAll ts scope held =>
    Yields (Eval.evalAll fuel ts scope held) m (fun vs m' => (∀ v ∈ vs, v.Meets I) ∧ m'.Meets I) (Stopped I)
  | .apply f args =>
    Yields (Eval.apply fuel f args) m (fun v m' => v.Meets I ∧ m'.Meets I) (Stopped I)
  | .build t depth scope held kept =>
    Yields (Eval.build fuel t depth scope held kept) m
      (fun r m' => I.holds r.2.length depth r.1 ∧ (∀ v ∈ r.2, v.Meets I) ∧
        kept.length ≤ r.2.length ∧ m'.Meets I) (Stopped I)
  | .buildAll ts depth scope held kept =>
    Yields (Eval.buildAll fuel ts depth scope held kept) m
      (fun r m' => r.1.length = ts.length ∧ (∀ t ∈ r.1, I.holds r.2.length depth t) ∧
        (∀ v ∈ r.2, v.Meets I) ∧ kept.length ≤ r.2.length ∧ m'.Meets I) (Stopped I)

/-! ## One call -/

section Operations

variable {m : Machine} {α : Type} {good : α → Machine → Prop}

theorem yields_ordinary {failure : Failure} (hm : m.Meets I) (h : failure.Ordinary) :
    Yields (fail failure : Eval α) m good (Stopped I) :=
  yields_fail ⟨hm, I.ordinary h⟩

theorem preserved_asFloat (hm : m.Meets I) (v : Value) :
    Yields (asFloat v) m (fun _ m' => m'.Meets I) (Stopped I) := by
  unfold asFloat
  split
  · exact yields_pure hm
  · exact yields_pure hm
  · exact yields_ordinary hm trivial

/-- Arithmetic gives numbers, which hold no code. -/
theorem preserved_arithmetic (hm : m.Meets I) (op : BinaryOp) (a b : Value) :
    Yields (arithmetic op a b) m (fun v m' => v.Meets I ∧ m'.Meets I) (Stopped I) := by
  unfold arithmetic
  split
  · rename_i a b
    have hint : Yields (intArithmetic op a b) m (fun _ m' => m'.Meets I) (Stopped I) := by
      unfold intArithmetic
      split
      · exact yields_pure hm
      · exact yields_pure hm
      · exact yields_pure hm
      · split
        · exact yields_ordinary hm trivial
        · exact yields_pure hm
    exact hint.bind fun _ _ hm' => yields_pure ⟨.int, hm'⟩
  · exact (preserved_asFloat hm a).bind fun _ _ hm₁ =>
      (preserved_asFloat hm₁ b).bind fun _ _ hm₂ => yields_pure ⟨.float, hm₂⟩

theorem preserved_negate (hm : m.Meets I) (v : Value) :
    Yields (negate v) m (fun v m' => v.Meets I ∧ m'.Meets I) (Stopped I) := by
  unfold negate
  split
  · exact yields_pure ⟨.int, hm⟩
  · exact yields_pure ⟨.float, hm⟩
  · exact yields_ordinary hm trivial

/-- A host function gives numbers or nothing. -/
theorem preserved_callHost (hm : m.Meets I) (f : HostFunction) (args : List Value) :
    Yields (callHost f args) m (fun v m' => v.Meets I ∧ m'.Meets I) (Stopped I) := by
  unfold callHost
  split
  · exact yields_print fun _ => yields_pure ⟨.void, hm⟩
  · exact (preserved_asFloat hm _).bind fun _ _ hm₁ =>
      (preserved_asFloat hm₁ _).bind fun _ _ hm₂ => yields_pure ⟨.float, hm₂⟩
  · exact yields_ordinary hm trivial
  · exact yields_pure ⟨.float, hm⟩
  · exact yields_ordinary hm trivial
  · exact yields_pure ⟨.int, hm⟩
  · exact yields_ordinary hm trivial
  · exact yields_ordinary hm trivial
  · exact yields_ordinary hm trivial

/-- A name stands for a value of the store or for an intrinsic. -/
theorem preserved_lookup (hm : m.Meets I) (scope : Scope Slot) (name : String) :
    Yields (lookup scope name) m (fun v m' => v.Meets I ∧ m'.Meets I) (Stopped I) := by
  unfold lookup
  split
  · exact yields_read (yields_pure ⟨hm.getD _, hm⟩)
  · split
    · exact yields_pure ⟨.host, hm⟩
    · exact yields_ordinary hm trivial

end Operations

section Step

variable {fuel : Nat} {m : Machine} {scope : Scope Slot} {held kept : List Value}

/-- Evaluating a term preserves the invariant if the calls that it makes do. -/
theorem preserved_eval (ih : ∀ (c : Call) (m : Machine), c.Meets I → m.Meets I → c.Preserved I fuel m)
    (t : Term) (ht : I.holds held.length 0 t) (hheld : ∀ v ∈ held, v.Meets I) (hm : m.Meets I) :
    Yields (eval (fuel + 1) t scope held) m (fun r m' => r.1.Meets I ∧ m'.Meets I) (Stopped I) := by
  have heval : ∀ {t : Term} {m : Machine} {scope : Scope Slot}, I.holds held.length 0 t → m.Meets I →
      Yields (eval fuel t scope held) m (fun r m' => r.1.Meets I ∧ m'.Meets I) (Stopped I) :=
    fun ht hm => ih (.eval _ _ held) _ ⟨ht, hheld⟩ hm
  -- every part stands outside quotes too, over the same held values, so `heval` is for all of them
  cases t with
  | literal site value =>
    rw [eval]
    cases value <;> exact yields_pure ⟨by constructor, hm⟩
  | seq site l r =>
    rw [eval]
    refine (heval (I.child ht (by simp [Term.children])) hm).bind ?_
    rintro ⟨v, scope₁⟩ m₁ ⟨-, hm₁⟩
    exact heval (I.child ht (by simp [Term.children])) hm₁
  | define site name value =>
    rw [eval]
    refine (heval (I.child ht (by simp [Term.children])) hm).bind ?_
    rintro ⟨v, scope₁⟩ m₁ ⟨hv, hm₁⟩
    -- the store gains a value that meets the invariant
    exact yields_allocate (yields_pure ⟨hv, hm₁.push hv⟩)
  | assign site name value =>
    rw [eval]
    refine (heval (I.child ht (by simp [Term.children])) hm).bind ?_
    rintro ⟨v, scope₁⟩ m₁ ⟨hv, hm₁⟩
    dsimp only
    split
    · -- no slot has the name: an ordinary fault, and the store is as before
      exact yields_ordinary hm₁ trivial
    · exact yields_write (yields_pure ⟨hv, hm₁.set hv _⟩)
  | lookup site name =>
    rw [eval]
    exact (preserved_lookup hm scope name).bind fun _ _ h => yields_pure h
  | unary site op operand =>
    rw [eval]
    refine (heval (I.child ht (by simp [Term.children])) hm).bind ?_
    rintro ⟨v, scope₁⟩ m₁ ⟨-, hm₁⟩
    exact (preserved_negate hm₁ v).bind fun _ _ h => yields_pure h
  | binary site op l r =>
    rw [eval]
    refine (heval (I.child ht (by simp [Term.children])) hm).bind ?_
    rintro ⟨a, scope₁⟩ m₁ ⟨-, hm₁⟩
    refine (heval (I.child ht (by simp [Term.children])) hm₁).bind ?_
    rintro ⟨b, scope₂⟩ m₂ ⟨-, hm₂⟩
    exact (preserved_arithmetic hm₂ op a b).bind fun _ _ h => yields_pure h
  | quote site label snippet body =>
    rw [eval]
    -- building starts with no kept values
    have hbody : I.holds held.length (0 + 1) body := I.child ht (by simp [Term.children])
    refine (ih (.build body 0 scope held []) m ⟨hbody, hheld, by simp⟩ hm).bind ?_
    rintro ⟨body', kept⟩ m₁ ⟨hcode, hkept, -, hm₁⟩
    exact yields_pure ⟨.code hcode hkept, hm₁⟩
  | escape site kind body =>
    -- escapes are carried out by `build`; here none has a quote around it
    rw [eval]
    exact yields_fail ⟨hm, I.escape ht⟩
  | run site body =>
    rw [eval]
    refine (heval (I.child ht (by simp [Term.children])) hm).bind ?_
    rintro ⟨v, scope₁⟩ m₁ ⟨hv, hm₁⟩
    cases hv with
    | code hcode hkept =>
      -- code runs with the values that it holds and no others; nothing but code runs at all
      exact (ih (.eval _ {} _) m₁ ⟨hcode, hkept⟩ hm₁).bind fun _ _ h => yields_pure h
    | _ => exact yields_ordinary hm₁ trivial
  | lambda site params body =>
    rw [eval]
    -- a closure holds the values of the code that it was written in
    exact yields_nextSerial (yields_pure ⟨.closure (I.child ht (by simp [Term.children])) hheld, hm⟩)
  | call site callee args =>
    rw [eval]
    have hargs : ∀ arg ∈ args, I.holds held.length 0 arg :=
      fun arg harg => I.child ht (by simp [Term.children, harg])
    refine (heval (I.child ht (by simp [Term.children])) hm).bind ?_
    rintro ⟨f, scope₁⟩ m₁ ⟨hf, hm₁⟩
    refine (ih (.evalAll args scope held) m₁ ⟨hargs, hheld⟩ hm₁).bind ?_
    rintro vs m₂ ⟨hvs, hm₂⟩
    exact (ih (.apply f vs) m₂ ⟨hf, hvs⟩ hm₂).bind fun _ _ h => yields_pure h
  | host site name type =>
    rw [eval]
    split
    · -- the host has no such function
      exact yields_ordinary hm trivial
    · exact yields_allocate (yields_pure ⟨.host, hm.push .host⟩)
  | held site index =>
    -- the one construct that can lack a held value
    rw [eval]
    cases hget : held[index]? with
    | some v => exact yields_pure ⟨hheld v (List.mem_of_getElem? hget), hm⟩
    | none => exact yields_fail ⟨hm, I.missing ht (List.getElem?_eq_none_iff.1 hget)⟩

/-- Evaluating arguments preserves the invariant. -/
theorem preserved_evalAll (ih : ∀ (c : Call) (m : Machine), c.Meets I → m.Meets I → c.Preserved I fuel m)
    (ts : List Term) (hts : ∀ t ∈ ts, I.holds held.length 0 t) (hheld : ∀ v ∈ held, v.Meets I)
    (hm : m.Meets I) :
    Yields (evalAll (fuel + 1) ts scope held) m
      (fun vs m' => (∀ v ∈ vs, v.Meets I) ∧ m'.Meets I) (Stopped I) := by
  cases ts with
  | nil =>
    rw [evalAll]
    exact yields_pure ⟨by simp, hm⟩
  | cons t rest =>
    rw [evalAll]
    rcases List.forall_mem_cons.1 hts with ⟨ht, hrest⟩
    refine (ih (.eval t scope held) m ⟨ht, hheld⟩ hm).bind ?_
    rintro ⟨v, scope₁⟩ m₁ ⟨hv, hm₁⟩
    refine (ih (.evalAll rest scope held) m₁ ⟨hrest, hheld⟩ hm₁).bind ?_
    rintro vs m₂ ⟨hvs, hm₂⟩
    exact yields_pure ⟨List.forall_mem_cons.2 ⟨hv, hvs⟩, hm₂⟩

/-- Applying a closure evaluates its body with the values that it holds. -/
theorem preserved_apply (ih : ∀ (c : Call) (m : Machine), c.Meets I → m.Meets I → c.Preserved I fuel m)
    {f : Value} {args : List Value} (hf : f.Meets I) (hargs : ∀ v ∈ args, v.Meets I) (hm : m.Meets I) :
    Yields (apply (fuel + 1) f args) m (fun v m' => v.Meets I ∧ m'.Meets I) (Stopped I) := by
  rw [apply.eq_def]
  cases hf with
  | closure hbody hheld =>
    dsimp only
    split
    · exact yields_ordinary hm trivial
    · refine yields_allocateAll ?_
      exact (ih (.eval _ _ _) _ ⟨hbody, hheld⟩ (hm.append hargs)).bind fun _ _ h => yields_pure h
  | host => exact preserved_callHost hm _ args
  | _ => exact yields_ordinary hm trivial

/-- Building code preserves the invariant. A reference that an escape leaves behind counts the value
that is kept at the same time, and spliced code has its references moved past the values kept before. -/
theorem preserved_build (ih : ∀ (c : Call) (m : Machine), c.Meets I → m.Meets I → c.Preserved I fuel m)
    (t : Term) (depth : Nat) (ht : I.holds held.length (depth + 1) t) (hheld : ∀ v ∈ held, v.Meets I)
    (hkept : ∀ v ∈ kept, v.Meets I) (hm : m.Meets I) :
    Yields (build (fuel + 1) t depth scope held kept) m
      (fun r m' => I.holds r.2.length depth r.1 ∧ (∀ v ∈ r.2, v.Meets I) ∧
        kept.length ≤ r.2.length ∧ m'.Meets I) (Stopped I) := by
  rw [build.eq_def]
  dsimp only
  split
  · rename_i site label snippet body
    -- a quote in the code: its body is one level further up
    have hbody : I.holds held.length ((depth + 1 : Nat) + 1) body :=
      I.child ht (List.mem_singleton_self body)
    refine (ih (.build body (depth + 1) scope held kept) m ⟨hbody, hheld, hkept⟩ hm).bind ?_
    rintro ⟨body', kept'⟩ m₁ ⟨hcode, hkept', hle, hm₁⟩
    refine yields_pure ⟨?_, hkept', hle, hm₁⟩
    show I.holds kept'.length depth ((Term.quote site label snippet body).withChildren [body'])
    exact I.rebuilt ht (fun htag => absurd htag (by simp [Term.tag])) rfl
      (List.forall_mem_singleton.2 hcode)
  · rename_i site kind body
    split
    · rename_i depth
      -- an escape of an inner quote stays
      have hbody : I.holds held.length (depth + 1) body := by
        simpa [Term.levelBelow] using I.child ht (List.mem_singleton_self body)
      refine (ih (.build body depth scope held kept) m ⟨hbody, hheld, hkept⟩ hm).bind ?_
      rintro ⟨body', kept'⟩ m₁ ⟨hcode, hkept', hle, hm₁⟩
      refine yields_pure ⟨?_, hkept', hle, hm₁⟩
      show I.holds kept'.length (depth + 1 : Nat) ((Term.escape site kind body).withChildren [body'])
      refine I.rebuilt ht (fun _ => Nat.succ_ne_zero depth) rfl (List.forall_mem_singleton.2 ?_)
      simpa [Term.levelBelow] using hcode
    · -- an escape of the quote that is built: its body stands at the level of the evaluation
      have hbody : I.holds held.length 0 body := by
        simpa [Term.levelBelow] using I.child ht (List.mem_singleton_self body)
      refine (ih (.eval body scope held) m ⟨hbody, hheld⟩ hm).bind ?_
      rintro ⟨v, scope₁⟩ m₁ ⟨hv, hm₁⟩
      dsimp only
      split
      · -- persist: the value is kept last, where the new reference points
        refine yields_pure ⟨?_, ?_, by simp, hm₁⟩
        · simpa using I.kept site kept.length
        · exact List.forall_mem_append.2 ⟨hkept, by simpa using hv⟩
      · -- splice: the values of the code go behind those kept before
        cases hv with
        | code hcode hvalues =>
          refine yields_pure ⟨?_, List.forall_mem_append.2 ⟨hkept, hvalues⟩, by simp, hm₁⟩
          simpa using I.spliced kept.length hcode
      · exact yields_ordinary hm₁ trivial
  · rename_i hquote hescape
    have hlevel : ∀ level, t.levelBelow level = level := by
      intro level
      unfold Term.levelBelow
      split
      · exact absurd rfl (hquote _ _ _ _)
      · exact absurd rfl (hescape _ _ _)
      · rfl
    have hchildren : ∀ child ∈ t.children, I.holds held.length (depth + 1) child := by
      intro child hchild
      simpa [hlevel] using I.child ht hchild
    refine (ih (.buildAll t.children depth scope held kept) m ⟨hchildren, hheld, hkept⟩ hm).bind ?_
    rintro ⟨children', kept'⟩ m₁ ⟨hlen, hcode, hkept', hle, hm₁⟩
    refine yields_pure ⟨I.rebuilt ht (fun htag => ?_) hlen ?_, hkept', hle, hm₁⟩
    · cases t <;> cases htag
      exact absurd rfl (hescape _ _ _)
    · simpa [hlevel] using hcode

/-- Building parts preserves the invariant, and gives as many of them. -/
theorem preserved_buildAll (ih : ∀ (c : Call) (m : Machine), c.Meets I → m.Meets I → c.Preserved I fuel m)
    (ts : List Term) (depth : Nat) (hts : ∀ t ∈ ts, I.holds held.length (depth + 1) t)
    (hheld : ∀ v ∈ held, v.Meets I) (hkept : ∀ v ∈ kept, v.Meets I) (hm : m.Meets I) :
    Yields (buildAll (fuel + 1) ts depth scope held kept) m
      (fun r m' => r.1.length = ts.length ∧ (∀ t ∈ r.1, I.holds r.2.length depth t) ∧
        (∀ v ∈ r.2, v.Meets I) ∧ kept.length ≤ r.2.length ∧ m'.Meets I) (Stopped I) := by
  cases ts with
  | nil =>
    rw [buildAll]
    exact yields_pure ⟨rfl, by simp, hkept, Nat.le_refl _, hm⟩
  | cons t rest =>
    rw [buildAll]
    rcases List.forall_mem_cons.1 hts with ⟨ht, hrest⟩
    refine (ih (.build t depth scope held kept) m ⟨ht, hheld, hkept⟩ hm).bind ?_
    rintro ⟨t', kept₁⟩ m₁ ⟨hcode, hkept₁, hle₁, hm₁⟩
    refine (ih (.buildAll rest depth scope held kept₁) m₁ ⟨hrest, hheld, hkept₁⟩ hm₁).bind ?_
    rintro ⟨rest', kept₂⟩ m₂ ⟨hlen, hcodes, hkept₂, hle₂, hm₂⟩
    refine yields_pure ⟨by simp [hlen], ?_, hkept₂, Nat.le_trans hle₁ hle₂, hm₂⟩
    -- values are only added, so the first term keeps its property
    exact List.forall_mem_cons.2 ⟨I.more hcode hle₂, hcodes⟩

/-- Every call preserves the invariant, whatever its fuel. -/
theorem preserved (fuel : Nat) (c : Call) (m : Machine) (hc : c.Meets I) (hm : m.Meets I) :
    c.Preserved I fuel m := by
  -- the five functions call each other with less fuel
  induction fuel generalizing c m with
  | zero =>
    have hstop : Stopped I .outOfFuel m := ⟨hm, I.outOfFuel⟩
    cases c <;> exact hstop
  | succ fuel ih =>
    cases c with
    | eval t scope held => exact preserved_eval ih t hc.1 hc.2 hm
    | evalAll ts scope held => exact preserved_evalAll ih ts hc.1 hc.2 hm
    | apply f args => exact preserved_apply ih hc.1 hc.2 hm
    | build t depth scope held kept => exact preserved_build ih t depth hc.1 hc.2.1 hc.2.2 hm
    | buildAll ts depth scope held kept => exact preserved_buildAll ih ts depth hc.1 hc.2.1 hc.2.2 hm

end Step

/-! ## Whole evaluations -/

/-- The calls that a call makes meet the invariant if it does. -/
theorem Makes.meets {fuel : Nat} {c c' : Call} {m m' : Machine} (h : Makes fuel c m c' m')
    (hc : c.Meets I) (hm : m.Meets I) : c'.Meets I ∧ m'.Meets I := by
  have heval : ∀ {t scope held m v scope' m'}, I.holds held.length 0 t → (∀ v ∈ held, v.Meets I) →
      m.Meets I → eval fuel t scope held m = .ok (v, scope') m' → v.Meets I ∧ m'.Meets I :=
    fun ht hheld hm hrun => (preserved fuel (.eval _ _ _) _ ⟨ht, hheld⟩ hm).ok hrun
  cases h with
  -- the first call of a construct is made in the machine that it starts with
  | seqLeft | define | assign | unary | binaryLeft | runBody | callee =>
    exact ⟨⟨I.child hc.1 (by simp [Term.children]), hc.2⟩, hm⟩
  | seqRight hrun | binaryRight hrun =>
    -- a later call is made in the machine that the earlier ones leave, by `preserved`
    rcases heval (I.child hc.1 (by simp [Term.children])) hc.2 hm hrun with ⟨-, hm₁⟩
    exact ⟨⟨I.child hc.1 (by simp [Term.children]), hc.2⟩, hm₁⟩
  | quote => exact ⟨⟨I.child hc.1 (by simp [Term.children]), hc.2, by simp⟩, hm⟩
  | runCode hrun =>
    rcases heval (I.child hc.1 (by simp [Term.children])) hc.2 hm hrun with ⟨hv, hm₁⟩
    -- code that runs meets the invariant as a value
    cases hv with
    | code hcode hkept => exact ⟨⟨hcode, hkept⟩, hm₁⟩
  | args hrun =>
    rcases heval (I.child hc.1 (by simp [Term.children])) hc.2 hm hrun with ⟨-, hm₁⟩
    exact ⟨⟨fun arg harg => I.child hc.1 (by simp [Term.children, harg]), hc.2⟩, hm₁⟩
  | apply hrun hargs =>
    rcases heval (I.child hc.1 (by simp [Term.children])) hc.2 hm hrun with ⟨hf, hm₁⟩
    obtain ⟨hvs, hm₂⟩ := (preserved fuel (.evalAll _ _ _) _
      ⟨fun arg harg => I.child hc.1 (by simp [Term.children, harg]), hc.2⟩ hm₁).ok hargs
    exact ⟨⟨hf, hvs⟩, hm₂⟩
  | first => exact ⟨⟨hc.1 _ List.mem_cons_self, hc.2⟩, hm⟩
  | others hrun =>
    rcases heval (hc.1 _ List.mem_cons_self) hc.2 hm hrun with ⟨-, hm₁⟩
    exact ⟨⟨fun t ht => hc.1 t (List.mem_cons_of_mem _ ht), hc.2⟩, hm₁⟩
  | body hlen hslots =>
    -- the arguments go to the store, and the body meets the invariant as part of a closure
    rw [allocateAll_eq] at hslots
    injection hslots with hslots hm₁
    subst hm₁
    cases hc.1 with
    | closure hbody hheld => exact ⟨⟨hbody, hheld⟩, hm.append hc.2⟩
  | buildQuote => exact ⟨⟨I.child hc.1 (by simp [Term.children]), hc.2⟩, hm⟩
  | buildEscape =>
    -- the escape belongs to a quote inside: one level further out is still quoted
    refine ⟨⟨?_, hc.2⟩, hm⟩
    simpa [Term.levelBelow] using I.child hc.1 (List.mem_singleton_self _)
  | evalEscape =>
    -- the escape leaves the code, and its body is evaluated with the held values only
    refine ⟨⟨?_, hc.2.1⟩, hm⟩
    simpa [Term.levelBelow] using I.child hc.1 (List.mem_singleton_self _)
  | buildParts hquote hescape =>
    rename_i t depth scope held kept
    -- no quote and no escape: the parts stand at the level of the node
    refine ⟨⟨fun child hchild => ?_, hc.2⟩, hm⟩
    have hlevel : t.levelBelow (depth + 1) = depth + 1 := by
      cases t <;> first | rfl | exact absurd rfl hquote | exact absurd rfl hescape
    simpa [hlevel] using I.child hc.1 hchild
  | buildFirst => exact ⟨⟨hc.1 _ List.mem_cons_self, hc.2⟩, hm⟩
  | buildOthers hrun =>
    obtain ⟨-, hkept, -, hm₁⟩ := (preserved fuel (.build _ _ _ _ _) _
      ⟨hc.1 _ List.mem_cons_self, hc.2⟩ hm).ok hrun
    exact ⟨⟨fun t ht => hc.1 t (List.mem_cons_of_mem _ ht), hc.2.1, hkept⟩, hm₁⟩

/-- The values that a call ends with meet the invariant if the call does. -/
theorem Ends.meets {fuel : Nat} {c : Call} {m m' : Machine} {vs : List Value}
    (h : Ends fuel c m vs m') (hc : c.Meets I) (hm : m.Meets I) :
    (∀ v ∈ vs, v.Meets I) ∧ m'.Meets I := by
  have hpreserved := preserved fuel c m hc hm
  cases h with
  | eval hrun =>
    rcases hpreserved.ok hrun with ⟨hv, hm'⟩
    exact ⟨by simpa using hv, hm'⟩
  | evalAll hrun => exact hpreserved.ok hrun
  | apply hrun =>
    rcases hpreserved.ok hrun with ⟨hv, hm'⟩
    exact ⟨by simpa using hv, hm'⟩
  | build hrun =>
    rcases hpreserved.ok hrun with ⟨-, hkept, -, hm'⟩
    exact ⟨hkept, hm'⟩
  | buildAll hrun =>
    rcases hpreserved.ok hrun with ⟨-, -, hkept, -, hm'⟩
    exact ⟨hkept, hm'⟩
  | failure hrun => exact ⟨by simp, (hpreserved.error hrun).1⟩

variable {fuel : Nat} {t : Term}

theorem Reached.meets (ht : I.holds 0 0 t) {n : Nat} {c : Call} {m : Machine}
    (h : Reached fuel t n c m) : c.Meets I ∧ m.Meets I := by
  induction h with
  | start => exact ⟨⟨ht, by simp⟩, by simp [Machine.Meets]⟩
  | step _ hmakes ih => exact hmakes.meets ih.1 ih.2

theorem Call.Meets.given {c : Call} (hc : c.Meets I) : ∀ v ∈ c.given, v.Meets I := by
  cases c with
  | eval t scope held => exact hc.2
  | evalAll ts scope held => exact hc.2
  | apply f args => exact List.forall_mem_cons.2 hc
  | build t depth scope held kept => exact List.forall_mem_append.2 hc.2
  | buildAll ts depth scope held kept => exact List.forall_mem_append.2 hc.2

/-- Every value that arises meets the invariant if the program does. -/
theorem Arises.meets (ht : I.holds 0 0 t) {v : Value} (h : Arises fuel t v) : v.Meets I := by
  induction h with
  | given hreached hv => exact (hreached.meets ht).1.given _ hv
  | stored hreached hv => exact (hreached.meets ht).2 _ hv
  | result hreached hends hv =>
    rcases hreached.meets ht with ⟨hc, hm⟩
    exact (hends.meets hc hm).1 _ hv
  | left hreached hends hv =>
    rcases hreached.meets ht with ⟨hc, hm⟩
    exact (hends.meets hc hm).2 _ hv
  | inCode _ hv ih =>
    cases ih with
    | code _ hheld => exact hheld _ hv
  | inClosure _ hv ih =>
    cases ih with
    | closure _ hheld => exact hheld _ hv

end Eval

end Multistage
