import Multistage.Proofs.HeldReferences
import Multistage.Proofs.Pointwise

/-!
# Renumbered code

Code that is spliced into other code has its values put behind the values kept before, and values kept
later follow. Its held references are moved up, to where its own values now stand. `Move` is such a list,
with the code's own values in the middle.

What the code does is the same, but not what it leaves behind: functions that it creates have renumbered
bodies and remember the longer list. They can get anywhere, into slots, into the values held by code, into
other functions. `Value.Moved` relates a value to what it has become. The same computation on related
machines then ends alike (`Agrees`), for each operation and for each of the evaluator's functions
(`inStep`).

Main statement: `renumbered_code_evaluates_alike`.
-/

namespace Multistage

/-- The values that code holds, set between others. -/
structure Move where
  before : List Value
  own : List Value
  after : List Value

/-- The longer list. -/
def Move.all (M : Move) : List Value := M.before ++ M.own ++ M.after

variable {M : Move}

theorem Move.getElem?_all {index : Nat} (h : index < M.own.length) :
    M.all[index + M.before.length]? = M.own[index]? := by
  have hlt : index + M.before.length < (M.before ++ M.own).length := by
    rw [List.length_append]
    omega
  rw [Move.all, List.getElem?_append_left hlt, List.getElem?_append_right (Nat.le_add_left _ _),
    Nat.add_sub_cancel]

/-! ## Values and terms -/

/-- A value, and what it is after the move: the same, but that functions may have a renumbered body and the
longer list. -/
inductive Value.Moved (M : Move) : Value → Value → Prop
  | int {n} : Moved M (.int n) (.int n)
  | float {x} : Moved M (.float x) (.float x)
  | string {s} : Moved M (.string s) (.string s)
  | void : Moved M .void .void
  | host {f} : Moved M (.host f) (.host f)
  | code {body held held'} : List.Forall₂ (Moved M) held held' →
      Moved M (.code body held) (.code body held')
  | closure {serial params body scope held held'} : List.Forall₂ (Moved M) held held' →
      Moved M (.closure serial params body scope held) (.closure serial params body scope held')
  | renumbered {serial params body scope} : body.HeldBelow M.own.length 0 →
      Moved M (.closure serial params body scope M.own)
        (.closure serial params (body.shiftHeld M.before.length) scope M.all)

namespace Value.Moved

mutual
protected theorem refl : (v : Value) → v.Moved M v
  | .int _ => .int
  | .float _ => .float
  | .string _ => .string
  | .void => .void
  | .host _ => .host
  | .closure _ _ _ _ held => .closure (refl_held held)
  | .code _ held => .code (refl_held held)

theorem refl_held : (vs : List Value) → List.Forall₂ (Value.Moved M) vs vs
  | [] => .nil
  | v :: rest => .cons (Value.Moved.refl v) (refl_held rest)
end

variable {v v' : Value}

/-- A function is written without its body, so the move does not show in the text of a value. -/
theorem printed_eq (h : v.Moved M v') : v.printed = v'.printed := by
  cases h <;> rfl

end Value.Moved

/-- A term at `level` with the values that it reads, and the same after the move: it reads values that have
moved, or it is renumbered for the longer list. -/
inductive Term.Moved (M : Move) (level : Int) : Term → List Value → Term → List Value → Prop
  | same {t held held'} : List.Forall₂ (Value.Moved M) held held' → Moved M level t held t held'
  | renumbered {t} : t.HeldBelow M.own.length level →
      Moved M level t M.own (t.shiftHeld M.before.length) M.all

namespace Term.Moved

variable {level : Int} {t t' u l r : Term} {held held' : List Value}

/-- Both terms are built alike, from parts that have moved. -/
theorem parts (h : t.Moved M level held t' held') (htag : t.tag ≠ .held) :
    ∃ ts', t' = t.withChildren ts' ∧
      List.Forall₂ (fun child child' => child.Moved M (t.levelBelow level) held child' held') t.children ts' := by
  cases h with
  | same hheld =>
    exact ⟨t.children, t.withChildren_children.symm, List.forall₂_same.2 fun _ _ => .same hheld⟩
  | renumbered hbelow =>
    refine ⟨t.children.map (shiftHeld M.before.length), shiftHeld_eq htag _, ?_⟩
    rw [List.forall₂_map_right_iff]
    exact List.forall₂_same.2 fun child hchild => .renumbered (hbelow.child hchild)

theorem leaf (h : t.Moved M level held t' held') (htag : t.tag ≠ .held) (ht : t.children = []) : t' = t := by
  rcases h.parts htag with ⟨ts', rfl, hparts⟩
  rw [ht] at hparts
  cases hparts
  rw [← ht, withChildren_children]

theorem one (h : t.Moved M level held t' held') (ht : t.children = [u]) :
    ∃ u', t' = t.withChildren [u'] ∧ u.Moved M (t.levelBelow level) held u' held' := by
  rcases h.parts (tag_ne_held (ht ▸ List.mem_cons_self)) with ⟨ts', rfl, hparts⟩
  rw [ht, List.forall₂_cons_left_iff] at hparts
  rcases hparts with ⟨u', _, hu, hnil, rfl⟩
  cases hnil
  exact ⟨u', rfl, hu⟩

/-- A node with two parts has moved if its parts have. -/
theorem two (h : t.Moved M level held t' held') (ht : t.children = [l, r]) :
    ∃ l' r', t' = t.withChildren [l', r'] ∧ l.Moved M (t.levelBelow level) held l' held' ∧
      r.Moved M (t.levelBelow level) held r' held' := by
  rcases h.parts (tag_ne_held (ht ▸ List.mem_cons_self)) with ⟨ts', rfl, hparts⟩
  rw [ht, List.forall₂_cons_left_iff] at hparts
  rcases hparts with ⟨l', _, hl, hrest, rfl⟩
  rw [List.forall₂_cons_left_iff] at hrest
  rcases hrest with ⟨r', _, hr, hnil, rfl⟩
  cases hnil
  exact ⟨l', r', rfl, hl, hr⟩

/-- Held references of a quote do not belong to the code around it, and are not renumbered with it. -/
theorem quoted {site : Site} {index : Nat} (h : (Term.held site index).Moved M level held t' held')
    (hlevel : 0 < level) : t' = .held site index := by
  cases h with
  | same => rfl
  | renumbered hbelow =>
    rw [heldBelow_held] at hbelow
    omega

theorem closure (h : t.Moved M 0 held t' held') (serial : Nat) (params : List String) (scope : Scope Slot) :
    Value.Moved M (.closure serial params t scope held) (.closure serial params t' scope held') := by
  cases h with
  | same hheld => exact .closure hheld
  | renumbered hbelow => exact .renumbered hbelow

end Term.Moved

/-! ## Machines and computations -/

/-- Every slot has a value that has moved, and all else is the same. -/
structure Machine.Moved (M : Move) (m m' : Machine) : Prop where
  slots : List.Forall₂ (Value.Moved M) m.slots.toList m'.slots.toList
  closures : m.closures = m'.closures
  printed : m.printed = m'.printed

namespace Machine.Moved

variable {m m' : Machine}

protected theorem refl (m : Machine) : m.Moved M m :=
  ⟨Value.Moved.refl_held _, rfl, rfl⟩

theorem size_eq (h : m.Moved M m') : m.slots.size = m'.slots.size := h.slots.length_eq

theorem append (h : m.Moved M m') {vs vs' : List Value} (hvs : List.Forall₂ (Value.Moved M) vs vs') :
    Machine.Moved M { m with slots := m.slots ++ vs.toArray } { m' with slots := m'.slots ++ vs'.toArray } := by
  refine ⟨?_, h.closures, h.printed⟩
  rw [Array.toList_append, Array.toList_append]
  exact List.rel_append h.slots hvs

theorem push (h : m.Moved M m') {v v' : Value} (hv : v.Moved M v') :
    Machine.Moved M { m with slots := m.slots.push v } { m' with slots := m'.slots.push v' } := by
  refine ⟨?_, h.closures, h.printed⟩
  rw [Array.toList_push, Array.toList_push]
  exact List.rel_append h.slots (.cons hv .nil)

theorem set (h : m.Moved M m') {v v' : Value} (hv : v.Moved M v') (slot : Slot) :
    Machine.Moved M { m with slots := m.slots.setIfInBounds slot v }
      { m' with slots := m'.slots.setIfInBounds slot v' } := by
  refine ⟨?_, h.closures, h.printed⟩
  rw [Array.toList_setIfInBounds, Array.toList_setIfInBounds]
  exact forall₂_set h.slots hv slot

theorem getD (h : m.Moved M m') (slot : Slot) :
    (m.slots.getD slot .void).Moved M (m'.slots.getD slot .void) := by
  have hrel := rel_getElem? h.slots slot
  rw [Array.getElem?_toList, Array.getElem?_toList] at hrel
  rw [Array.getD_eq_getD_getElem?, Array.getD_eq_getD_getElem?]
  generalize m.slots[slot]? = found, m'.slots[slot]? = found' at hrel ⊢
  cases hrel with
  | none => exact .void
  | some hv => exact hv

end Machine.Moved

namespace Eval

/-- Two computations have ended alike: with related results or for the same reason, in machines that are
the same up to the move. -/
inductive Alike {α : Type} (M : Move) (R : α → α → Prop) :
    EStateM.Result Stop Machine α → EStateM.Result Stop Machine α → Prop
  | ok {a b m m'} : R a b → m.Moved M m' → Alike M R (.ok a m) (.ok b m')
  | error {stop m m'} : m.Moved M m' → Alike M R (.error stop m) (.error stop m')

/-- From machines that are the same up to the move, two computations end alike. -/
def Agrees {α : Type} (M : Move) (R : α → α → Prop) (x y : Eval α) : Prop :=
  ∀ m m', m.Moved M m' → Alike M R (x m) (y m')

section Rules

variable {α β : Type} {R : α → α → Prop} {S : β → β → Prop} {x y : Eval α} {f g : α → Eval β}

theorem agrees_pure {a b : α} (h : R a b) : Agrees M R (pure a) (pure b) := fun _ _ hm => .ok h hm

theorem agrees_fail (failure : Failure) : Agrees M R (fail failure) (fail failure) := fun _ _ hm => .error hm

theorem agrees_outOfFuel : Agrees M R (throw .outOfFuel) (throw .outOfFuel) := fun _ _ hm => .error hm

/-- Two runs agree if they do so in a first step, and after it from results that are related. -/
theorem Agrees.bind (hx : Agrees M R x y) (hf : ∀ a b, R a b → Agrees M S (f a) (g b)) :
    Agrees M S (x >>= f) (y >>= g) := by
  intro m m' hm
  change Alike M S (EStateM.bind x f m) (EStateM.bind y g m')
  unfold EStateM.bind
  have hended := hx m m' hm
  generalize x m = ended, y m' = ended' at hended ⊢
  cases hended with
  | ok hab hm₁ => exact hf _ _ hab _ _ hm₁
  | error hm₁ => exact .error hm₁

end Rules

/-! ## Operations -/

section Operations

variable {v v' w w' : Value} {vs vs' : List Value}

theorem agrees_allocate (hv : v.Moved M v') : Agrees M Eq (allocate v) (allocate v') :=
  fun _ _ hm => .ok hm.size_eq (hm.push hv)

theorem agrees_allocateAll (hvs : List.Forall₂ (Value.Moved M) vs vs') :
    Agrees M Eq (allocateAll vs) (allocateAll vs') := by
  intro m m' hm
  rw [allocateAll_eq, allocateAll_eq, hm.size_eq, hvs.length_eq]
  exact .ok rfl (hm.append hvs)

theorem agrees_read (slot : Slot) : Agrees M (Value.Moved M) (read slot) (read slot) :=
  fun _ _ hm => .ok (hm.getD slot) hm

theorem agrees_write (hv : v.Moved M v') (slot : Slot) : Agrees M Eq (write slot v) (write slot v') :=
  fun _ _ hm => .ok rfl (hm.set hv slot)

theorem agrees_nextSerial : Agrees M Eq nextSerial nextSerial :=
  fun _ _ hm => .ok hm.closures ⟨hm.slots, congrArg (· + 1) hm.closures, hm.printed⟩

/-- Values that have moved are printed alike. -/
theorem agrees_print (hvs : List.Forall₂ (Value.Moved M) vs vs') : Agrees M Eq (print vs) (print vs') := by
  intro m m' hm
  refine .ok rfl ⟨hm.slots, hm.closures, ?_⟩
  have hprinted := hm.printed
  -- every value is printed by its text, which the move does not change
  change vs.foldl (fun out v => out ++ v.printed ++ "\n") m.printed =
    vs'.foldl (fun out v => out ++ v.printed ++ "\n") m'.printed
  rw [hprinted]
  generalize m'.printed = out
  induction hvs generalizing out with
  | nil => rfl
  | cons hv _ ih => rw [List.foldl_cons, List.foldl_cons, hv.printed_eq, ih]

theorem agrees_asFloat (hv : v.Moved M v') : Agrees M Eq (asFloat v) (asFloat v') := by
  cases hv with
  | int | float => exact agrees_pure rfl
  | _ => exact agrees_fail _

/-- Arithmetic is on numbers, which have nothing to move. -/
theorem agrees_arithmetic (op : BinaryOp) (hv : v.Moved M v') (hw : w.Moved M w') :
    Agrees M (Value.Moved M) (arithmetic op v w) (arithmetic op v' w') := by
  have hfloats : Agrees M (Value.Moved M)
      (do return .float (floatArithmetic op (← asFloat v) (← asFloat w)))
      (do return .float (floatArithmetic op (← asFloat v') (← asFloat w'))) := by
    refine (agrees_asFloat hv).bind fun a _ ha => (agrees_asFloat hw).bind fun b _ hb => ?_
    cases ha
    cases hb
    exact agrees_pure .float
  cases hv with
  | int =>
    cases hw with
    | int =>
      refine Agrees.bind (R := Eq) ?_ fun n _ hn => hn ▸ agrees_pure .int
      unfold intArithmetic
      split
      · exact agrees_pure rfl
      · exact agrees_pure rfl
      · exact agrees_pure rfl
      · split
        · exact agrees_fail _
        · exact agrees_pure rfl
    | _ => exact hfloats
  | _ => exact hfloats

theorem agrees_negate (hv : v.Moved M v') : Agrees M (Value.Moved M) (negate v) (negate v') := by
  cases hv with
  | int => exact agrees_pure .int
  | float => exact agrees_pure .float
  | _ => exact agrees_fail _

/-- A name has the same slot in both runs. -/
theorem agrees_lookup (scope : Scope Slot) (name : String) :
    Agrees M (Value.Moved M) (lookup scope name) (lookup scope name) := by
  unfold lookup
  split
  · exact agrees_read _
  · split
    · exact agrees_pure .host
    · exact agrees_fail _

theorem agrees_arity {α : Type} {R : α → α → Prop} (expected : Nat)
    (hvs : List.Forall₂ (Value.Moved M) vs vs') :
    Agrees M R (fail (.arity expected vs.length)) (fail (.arity expected vs'.length)) := by
  rw [hvs.length_eq]
  exact agrees_fail _

/-- Host functions take numbers, and print what prints alike. -/
theorem agrees_callHost (f : HostFunction) (hvs : List.Forall₂ (Value.Moved M) vs vs') :
    Agrees M (Value.Moved M) (callHost f vs) (callHost f vs') := by
  cases f with
  | print => exact (agrees_print hvs).bind fun _ _ _ => agrees_pure .void
  | pow =>
    match hvs with
    | .cons hbase (.cons hexponent .nil) =>
      refine (agrees_asFloat hbase).bind fun a _ ha => (agrees_asFloat hexponent).bind fun b _ hb => ?_
      -- both arguments are doubles, the same on both sides
      cases ha
      cases hb
      exact agrees_pure .float
    | .nil => exact agrees_arity 2 .nil
    | .cons hv .nil => exact agrees_arity 2 (.cons hv .nil)
    | .cons hv (.cons hw (.cons hx hrest)) => exact agrees_arity 2 (.cons hv (.cons hw (.cons hx hrest)))
  | toFloat =>
    match hvs with
    | .cons hv .nil =>
      cases hv with
      | int => exact agrees_pure .float
      | _ => exact agrees_fail _
    | .nil => exact agrees_arity 1 .nil
    | .cons hv (.cons hw hrest) =>
      have hargs := List.Forall₂.cons hv (.cons hw hrest)
      cases hv <;> exact agrees_arity 1 hargs
  | toInt =>
    match hvs with
    | .cons hv .nil =>
      cases hv with
      | float => exact agrees_pure .int
      | _ => exact agrees_fail _
    | .nil => exact agrees_arity 1 .nil
    | .cons hv (.cons hw hrest) =>
      have hargs := List.Forall₂.cons hv (.cons hw hrest)
      cases hv <;> exact agrees_arity 1 hargs

end Operations

/-! ## The evaluator -/

/-- Values that have moved, and the same scope. -/
def SameScope (M : Move) (r r' : Value × Scope Slot) : Prop := r.1.Moved M r'.1 ∧ r.2 = r'.2

/-- The same terms, with values kept that have moved. -/
def SameCode {α : Type} (M : Move) (r r' : α × List Value) : Prop :=
  r.1 = r'.1 ∧ List.Forall₂ (Value.Moved M) r.2 r'.2

/-- With so much fuel, the evaluator does the same with terms and values before and after the move. The code
that it builds is the same, since it holds no reference of the code that is evaluated. -/
structure InStep (M : Move) (fuel : Nat) : Prop where
  eval {t t' scope held held'} : t.Moved M 0 held t' held' →
    Agrees M (SameScope M) (eval fuel t scope held) (Eval.eval fuel t' scope held')
  evalAll {ts ts' scope held held'} : List.Forall₂ (fun t t' => t.Moved M 0 held t' held') ts ts' →
    Agrees M (List.Forall₂ (Value.Moved M)) (evalAll fuel ts scope held) (Eval.evalAll fuel ts' scope held')
  apply {f f' vs vs'} : f.Moved M f' → List.Forall₂ (Value.Moved M) vs vs' →
    Agrees M (Value.Moved M) (apply fuel f vs) (Eval.apply fuel f' vs')
  build {t t' depth scope held held' kept kept'} : t.Moved M (depth + 1 : Nat) held t' held' →
    List.Forall₂ (Value.Moved M) kept kept' →
    Agrees M (SameCode M) (build fuel t depth scope held kept) (Eval.build fuel t' depth scope held' kept')
  buildAll {ts ts' depth scope held held' kept kept'} :
    List.Forall₂ (fun t t' => t.Moved M (depth + 1 : Nat) held t' held') ts ts' →
    List.Forall₂ (Value.Moved M) kept kept' →
    Agrees M (fun r r' => SameCode M r r' ∧ r.1.length = ts.length)
      (buildAll fuel ts depth scope held kept) (Eval.buildAll fuel ts' depth scope held' kept')

section Step

variable {fuel : Nat} {scope : Scope Slot} {held held' kept kept' : List Value} {t t' : Term} {ts ts' : List Term}

/-- Terms that have moved evaluate alike, to values that have moved. -/
theorem agrees_eval (ih : InStep M fuel) (h : t.Moved M 0 held t' held') :
    Agrees M (SameScope M) (eval (fuel + 1) t scope held) (eval (fuel + 1) t' scope held') := by
  cases t with
  | literal site value =>
    rw [h.leaf (by rintro ⟨⟩) rfl, eval, eval]
    exact agrees_pure ⟨.refl _, rfl⟩
  | seq site l r =>
    -- both runs have the same scope after the first part
    rcases h.two rfl with ⟨l', r', rfl, hl, hr⟩
    rw [Term.withChildren, eval, eval]
    refine (ih.eval hl).bind ?_
    rintro ⟨v, scope₁⟩ ⟨v', _⟩ ⟨-, rfl⟩
    exact ih.eval hr
  | define site name value =>
    rcases h.one rfl with ⟨value', rfl, hvalue⟩
    rw [Term.withChildren, eval, eval]
    refine (ih.eval hvalue).bind ?_
    rintro ⟨v, scope₁⟩ ⟨v', _⟩ ⟨hv, -⟩
    -- both stores have as many slots, so the new one is the same
    exact (agrees_allocate hv).bind fun slot _ hslot => hslot ▸ agrees_pure ⟨hv, rfl⟩
  | assign site name value =>
    rcases h.one rfl with ⟨value', rfl, hvalue⟩
    rw [Term.withChildren, eval, eval]
    refine (ih.eval hvalue).bind ?_
    rintro ⟨v, scope₁⟩ ⟨v', _⟩ ⟨hv, -⟩
    dsimp only
    split
    · -- the name has no slot on either side
      exact agrees_fail _
    · exact (agrees_write hv _).bind fun _ _ _ => agrees_pure ⟨hv, rfl⟩
  | lookup site name =>
    rw [h.leaf (by rintro ⟨⟩) rfl, eval, eval]
    exact (agrees_lookup scope name).bind fun _ _ hv => agrees_pure ⟨hv, rfl⟩
  | unary site op operand =>
    rcases h.one rfl with ⟨operand', rfl, hoperand⟩
    rw [Term.withChildren, eval, eval]
    refine (ih.eval hoperand).bind ?_
    rintro ⟨v, scope₁⟩ ⟨v', _⟩ ⟨hv, -⟩
    exact (agrees_negate hv).bind fun _ _ hv => agrees_pure ⟨hv, rfl⟩
  | binary site op l r =>
    rcases h.two rfl with ⟨l', r', rfl, hl, hr⟩
    rw [Term.withChildren, eval, eval]
    refine (ih.eval hl).bind ?_
    rintro ⟨a, scope₁⟩ ⟨a', _⟩ ⟨ha, rfl⟩
    refine (ih.eval hr).bind ?_
    rintro ⟨b, scope₂⟩ ⟨b', _⟩ ⟨hb, -⟩
    exact (agrees_arithmetic op ha hb).bind fun _ _ hv => agrees_pure ⟨hv, rfl⟩
  | quote site label snippet body =>
    -- the code that is built is the same, and the values that it keeps have moved
    rcases h.one rfl with ⟨body', rfl, hbody⟩
    rw [Term.withChildren, eval, eval]
    refine (ih.build hbody .nil).bind ?_
    rintro ⟨code, kept⟩ ⟨_, kept'⟩ ⟨rfl, hkept⟩
    exact agrees_pure ⟨.code hkept, rfl⟩
  | escape site kind body =>
    rcases h.one rfl with ⟨body', rfl, -⟩
    rw [Term.withChildren, eval, eval]
    exact agrees_fail _
  | run site body =>
    rcases h.one rfl with ⟨body', rfl, hbody⟩
    rw [Term.withChildren, eval, eval]
    refine (ih.eval hbody).bind ?_
    rintro ⟨v, scope₁⟩ ⟨v', _⟩ ⟨hv, -⟩
    cases hv with
    | code hheld =>
      -- the code is the same on both sides, over values that have moved
      exact (ih.eval (.same hheld)).bind fun _ _ hr => agrees_pure ⟨hr.1, rfl⟩
    | _ => exact agrees_fail _
  | lambda site params body =>
    rcases h.one rfl with ⟨body', rfl, hbody⟩
    rw [Term.withChildren, eval, eval]
    refine agrees_nextSerial.bind ?_
    rintro serial _ rfl
    -- the closure is over the renumbered body, or over values that have moved
    exact agrees_pure ⟨hbody.closure serial _ scope, rfl⟩
  | call site callee args =>
    rcases h.parts (by rintro ⟨⟩) with ⟨ts', rfl, hparts⟩
    rcases List.forall₂_cons_left_iff.1 hparts with ⟨callee', args', hcallee, hargs, rfl⟩
    rw [Term.withChildren, eval, eval]
    refine (ih.eval hcallee).bind ?_
    rintro ⟨f, scope₁⟩ ⟨f', _⟩ ⟨hf, -⟩
    exact (ih.evalAll hargs).bind fun vs vs' hvs =>
      (ih.apply hf hvs).bind fun _ _ hv => agrees_pure ⟨hv, rfl⟩
  | host site name type =>
    rw [h.leaf (by rintro ⟨⟩) rfl, eval, eval]
    split
    · exact agrees_fail _
    · exact (agrees_allocate .host).bind fun slot _ hslot => hslot ▸ agrees_pure ⟨.host, rfl⟩
  | held site index =>
    cases h with
    | same hheld =>
      rw [eval, eval]
      -- the same number, of a value that has moved
      have hrel := rel_getElem? hheld index
      generalize held[index]? = found, held'[index]? = found' at hrel ⊢
      cases hrel with
      | none => exact agrees_fail _
      | some hv => exact agrees_pure ⟨hv, rfl⟩
    | renumbered hbelow =>
      -- another number, for the same value behind the values before it
      rw [Term.heldBelow_held] at hbelow
      have hget := List.getElem?_eq_getElem hbelow.2
      change Agrees M _ _ (eval (fuel + 1) (.held site (index + M.before.length)) scope M.all)
      rw [eval, eval, Move.getElem?_all hbelow.2, hget]
      exact agrees_pure ⟨.refl _, rfl⟩

/-- So do arguments. -/
theorem agrees_evalAll (ih : InStep M fuel) (h : List.Forall₂ (fun t t' => t.Moved M 0 held t' held') ts ts') :
    Agrees M (List.Forall₂ (Value.Moved M)) (evalAll (fuel + 1) ts scope held)
      (evalAll (fuel + 1) ts' scope held') := by
  cases h with
  | nil =>
    rw [evalAll, evalAll]
    exact agrees_pure .nil
  | cons ht hrest =>
    rw [evalAll, evalAll]
    exact (ih.eval ht).bind fun _ _ hr => (ih.evalAll hrest).bind fun _ _ hvs => agrees_pure (.cons hr.1 hvs)

/-- Functions that have moved give results that have moved. -/
theorem agrees_apply (ih : InStep M fuel) {f f' : Value} {vs vs' : List Value} (hf : f.Moved M f')
    (hvs : List.Forall₂ (Value.Moved M) vs vs') :
    Agrees M (Value.Moved M) (apply (fuel + 1) f vs) (apply (fuel + 1) f' vs') := by
  -- whatever way the body has moved, the arguments go to the same slots
  have hclosure : ∀ {serial params scope} {body body' : Term} {held held'}, body.Moved M 0 held body' held' →
      Agrees M (Value.Moved M) (apply (fuel + 1) (.closure serial params body scope held) vs)
        (apply (fuel + 1) (.closure serial params body' scope held') vs') := by
    intro serial params scope body body' held held' hbody
    rw [apply, apply, hvs.length_eq]
    split
    · exact agrees_fail _
    · refine (agrees_allocateAll hvs).bind ?_
      rintro slots _ rfl
      exact (ih.eval hbody).bind fun _ _ hr => agrees_pure hr.1
  cases hf with
  | closure hheld => exact hclosure (.same hheld)
  | renumbered hbelow => exact hclosure (.renumbered hbelow)
  | host =>
    rw [apply, apply]
    exact agrees_callHost _ hvs
  | _ =>
    rw [apply.eq_def, apply.eq_def]
    exact agrees_fail _

/-- An escape at the level of its quote leaves the same code behind: the number of values kept before it
is the same. -/
theorem agrees_escape (ih : InStep M fuel) {site : Site} {kind : EscapeKind} {body body' : Term}
    (hbody : body.Moved M 0 held body' held') (hkept : List.Forall₂ (Value.Moved M) kept kept') :
    Agrees M (SameCode M) (build (fuel + 1) (.escape site kind body) 0 scope held kept)
      (build (fuel + 1) (.escape site kind body') 0 scope held' kept') := by
  rw [build, build, hkept.length_eq]
  refine (ih.eval hbody).bind ?_
  rintro ⟨v, scope₁⟩ ⟨v', _⟩ ⟨hv, -⟩
  have hpersist : SameCode M (Term.held site kept'.length, kept ++ [v]) (.held site kept'.length, kept' ++ [v']) :=
    ⟨rfl, List.rel_append hkept (.cons hv .nil)⟩
  cases kind with
  | persist => exact agrees_pure hpersist
  | splice | snippet =>
    cases hv with
    | code hheld => exact agrees_pure ⟨rfl, List.rel_append hkept hheld⟩
    | _ => exact agrees_fail _

/-- From terms that have moved the same code is built, with values that have moved. -/
theorem agrees_build (ih : InStep M fuel) {depth : Nat} (h : t.Moved M (depth + 1 : Nat) held t' held')
    (hkept : List.Forall₂ (Value.Moved M) kept kept') :
    Agrees M (SameCode M) (build (fuel + 1) t depth scope held kept)
      (build (fuel + 1) t' depth scope held' kept') := by
  by_cases hquote : t.tag = .quote
  · cases t <;> cases hquote
    -- a quote inside is built one level further in
    rcases h.one rfl with ⟨body', rfl, hbody⟩
    rw [Term.withChildren, build, build]
    refine (ih.build hbody hkept).bind ?_
    rintro ⟨code, kept₁⟩ ⟨_, kept₁'⟩ ⟨rfl, hkept₁⟩
    exact agrees_pure ⟨rfl, hkept₁⟩
  by_cases hescape : t.tag = .escape
  · cases t <;> cases hescape
    rename_i site kind body
    rcases h.one rfl with ⟨body', rfl, hbody⟩
    rw [Term.levelBelow] at hbody
    rw [Term.withChildren]
    cases depth with
    | zero => exact agrees_escape ih hbody hkept
    | succ depth =>
      -- the escape belongs to a quote inside, and stays
      have hbelow : body.Moved M (depth + 1 : Nat) held body' held' := by
        have hlevel : ((depth + 1 + 1 : Nat) : Int) - 1 = (depth + 1 : Nat) := by omega
        rwa [hlevel] at hbody
      rw [build, build]
      refine (ih.build hbelow hkept).bind ?_
      rintro ⟨code, kept₁⟩ ⟨_, kept₁'⟩ ⟨rfl, hkept₁⟩
      exact agrees_pure ⟨rfl, hkept₁⟩
  by_cases hheld : t.tag = .held
  · cases t <;> cases hheld
    -- a reference of quoted code belongs to that code, and has not moved
    rw [h.quoted (by omega), build_parts hquote hescape, build_parts hquote hescape]
    refine (ih.buildAll .nil hkept).bind ?_
    rintro ⟨codes, kept₁⟩ ⟨_, kept₁'⟩ ⟨⟨rfl, hkept₁⟩, -⟩
    exact agrees_pure ⟨rfl, hkept₁⟩
  · rcases h.parts hheld with ⟨ts', rfl, hparts⟩
    -- any other node is rebuilt from its parts
    have hlen := hparts.length_eq
    have hbelow : t.levelBelow (depth + 1 : Nat) = (depth + 1 : Nat) := by
      cases t <;> first | rfl | exact absurd rfl hquote | exact absurd rfl hescape
    rw [hbelow] at hparts
    rw [build_parts hquote hescape, build_parts (by rwa [Term.tag_withChildren])
      (by rwa [Term.tag_withChildren]), Term.children_withChildren hlen.symm]
    refine (ih.buildAll hparts hkept).bind ?_
    rintro ⟨codes, kept₁⟩ ⟨_, kept₁'⟩ ⟨⟨rfl, hkept₁⟩, hcodes⟩
    exact agrees_pure ⟨(Term.withChildren_withChildren hlen.symm hcodes).symm, hkept₁⟩

/-- The same goes for a list of parts. -/
theorem agrees_buildAll (ih : InStep M fuel) {depth : Nat}
    (h : List.Forall₂ (fun t t' => t.Moved M (depth + 1 : Nat) held t' held') ts ts')
    (hkept : List.Forall₂ (Value.Moved M) kept kept') :
    Agrees M (fun r r' => SameCode M r r' ∧ r.1.length = ts.length)
      (buildAll (fuel + 1) ts depth scope held kept) (buildAll (fuel + 1) ts' depth scope held' kept') := by
  cases h with
  | nil =>
    rw [buildAll, buildAll]
    exact agrees_pure ⟨⟨rfl, hkept⟩, rfl⟩
  | cons ht hrest =>
    rw [buildAll, buildAll]
    refine (ih.build ht hkept).bind ?_
    rintro ⟨code, kept₁⟩ ⟨_, kept₁'⟩ ⟨rfl, hkept₁⟩
    refine (ih.buildAll hrest hkept₁).bind ?_
    rintro ⟨codes, kept₂⟩ ⟨_, kept₂'⟩ ⟨⟨rfl, hkept₂⟩, hlen⟩
    exact agrees_pure ⟨⟨rfl, hkept₂⟩, congrArg (· + 1) hlen⟩

end Step

/-- Whatever the fuel, the evaluator does the same before and after the move. -/
theorem inStep (fuel : Nat) : InStep M fuel := by
  induction fuel with
  | zero =>
    constructor <;> intros <;> exact agrees_outOfFuel
  | succ fuel ih => exact ⟨agrees_eval ih, agrees_evalAll ih, agrees_apply ih, agrees_build ih, agrees_buildAll ih⟩

/-- Of two computations that end alike, one is out of fuel if the other is. -/
theorem Alike.outOfFuel_iff {α : Type} {R : α → α → Prop} {ended ended' : EStateM.Result Stop Machine α}
    (h : Alike M R ended ended') :
    (∃ m, ended = .error .outOfFuel m) ↔ ∃ m, ended' = .error .outOfFuel m := by
  cases h with
  | ok => simp
  | error => simp

end Eval

/-- **Renumbering does not change what code does.** The code `body` holds the values `own`: its held
references are its own and count them. With the references moved up by the number of values put `before`,
in the longer list, it ends as it does over `own`, from any scope and machine and with any fuel: for the same
reason if it fails, and else with the same value, the same scope and the same text printed, but that functions
may have renumbered bodies with the longer list. It goes on forever if and only if it did. -/
theorem renumbered_code_evaluates_alike {body : Term} {own : List Value} (h : body.HeldBelow own.length 0)
    (before after : List Value) (scope : Scope Slot) (m : Machine) :
    (∀ fuel, Eval.Alike ⟨before, own, after⟩ (Eval.SameScope ⟨before, own, after⟩)
      (Eval.eval fuel body scope own m)
      (Eval.eval fuel (body.shiftHeld before.length) scope (before ++ own ++ after) m)) ∧
    ((∀ fuel, ∃ m', Eval.eval fuel body scope own m = .error .outOfFuel m') ↔
      ∀ fuel, ∃ m', Eval.eval fuel (body.shiftHeld before.length) scope (before ++ own ++ after) m =
        .error .outOfFuel m') := by
  have halike : ∀ fuel, Eval.Alike ⟨before, own, after⟩ (Eval.SameScope ⟨before, own, after⟩)
      (Eval.eval fuel body scope own m)
      (Eval.eval fuel (body.shiftHeld before.length) scope (before ++ own ++ after) m) := by
    intro fuel
    have hbody : body.Moved ⟨before, own, after⟩ 0 own (body.shiftHeld before.length) (before ++ own ++ after) :=
      .renumbered h
    exact (Eval.inStep fuel).eval hbody m m (.refl m)
  exact ⟨halike, forall_congr' fun fuel => (halike fuel).outOfFuel_iff⟩

/-- A function that multiplies by the first value held, kept in a variable and called where code is built. -/
def scaledSix : Term :=
  .seq ⟨0, {}⟩
    (.define ⟨1, {}⟩ "f" (.lambda ⟨2, {}⟩ [⟨3, "k", none⟩]
      (.binary ⟨4, {}⟩ .mul (.lookup ⟨5, {}⟩ "k") (.held ⟨6, {}⟩ 0))))
    (.run ⟨7, {}⟩ (.quote ⟨8, {}⟩ none false (.escape ⟨9, {}⟩ .persist
      (.call ⟨10, {}⟩ (.lookup ⟨11, {}⟩ "f") [.literal ⟨12, {}⟩ (.int 6)]))))

/-- Between 1 and 5, the 7 that it multiplies by is still found. -/
theorem renumbered_code_evaluates_alike_scaledSix :
    scaledSix.HeldBelow [Value.int 7].length 0 ∧
    ∃ scope m m', Eval.eval 10 scaledSix {} [.int 7] {} = .ok (.int 42, scope) m ∧
      Eval.eval 10 (scaledSix.shiftHeld 1) {} [.int 1, .int 7, .int 5] {} = .ok (.int 42, scope) m' ∧
      m.Moved ⟨[.int 1], [.int 7], [.int 5]⟩ m' := by
  have hbelow : scaledSix.HeldBelow [Value.int 7].length 0 := by
    unfold Term.HeldBelow
    decide
  have hrun : Eval.eval 10 scaledSix {} [.int 7] {} = .ok (.int 42, _) _ := rfl
  have hmoved : Eval.eval 10 (scaledSix.shiftHeld 1) {} [.int 1, .int 7, .int 5] {} = .ok (.int 42, _) _ := rfl
  have halike := (renumbered_code_evaluates_alike hbelow [.int 1] [.int 5] {} {}).1 10
  cases halike with
  | ok hsame hm => exact ⟨hbelow, _, _, _, hrun, hmoved, hm⟩

end Multistage
