import Multistage.Proofs.StagedTyping
import Multistage.Proofs.Stages

/-!
# Evaluation of typed terms

Values are typed relative to the types of the slots. `Inhabits S σ v τ` says that `v` has the type `τ`
when the slots have the types `σ`; slots are never freed and keep their types, so typing survives every
step that only adds slots.

A computation is `Safe` if it ends with a result of its type, in a machine whose slots have grown, or
stops in a way that is `Allowed`: out of fuel, at a division by zero, or at a stray name that nothing
binds. The main statement, `sound`, is by induction on fuel over the five functions of the evaluator.
-/

namespace Multistage

/-! ## Values and slots -/

/-- The slots of known names have the types of the names. In code so have those of loose names; at home the
scope has no other names. -/
structure Fits (S : Ledger) (σ : List Ty) (home : Bool) (scope : Scope Slot) (Γ : Typing) : Prop where
  known {name : String} {τ : Ty} : Γ.Knows name τ →
    ∃ slot, scope.lookup? name = some slot ∧ σ[slot]? = some τ
  bound {name : String} : Γ.Binds name → scope.lookup? name ≠ none
  loose {name : String} {slot : Slot} : home = false → S.loose name → scope.lookup? name = some slot →
    σ[slot]? = some (S.type name)
  complete {name : String} : home = true → Scope.newest? name Γ = none → scope.lookup? name = none

/-- A value has a type, where `σ` are the types of the slots. -/
inductive Inhabits (S : Ledger) (σ : List Ty) : Value → Ty → Prop
  | int {n} : Inhabits S σ (.int n) .int
  | float {x} : Inhabits S σ (.float x) .float
  | string {s} : Inhabits S σ (.string s) .string
  | toFloat : Inhabits S σ (.host .toFloat) (.function [.int] .float)
  | toInt : Inhabits S σ (.host .toInt) (.function [.float] .int)
  | closure {serial body scope held} {P : Place} {B : Typing} {bound : List (String × Ty)} {Φ τ} :
      P.outer = [] → Fits S σ P.home scope P.here → (P.home = false → S.Obeys bound) →
      HasType S (P.called bound) Φ body τ B → held.length = Φ.length →
      (∀ (i : Nat) v α, held[i]? = some v → Φ[i]? = some α → Inhabits S σ v α) →
      Inhabits S σ (.closure serial (bound.map (·.1)) body scope held) (.function (bound.map (·.2)) τ)
  | code {body held} {B : Typing} {Φ τ} :
      HasType S .alone Φ body τ B → 0 ≤ τ.stage → (∀ b ∈ B, b.1 ∈ S.leaks.names) → held.length = Φ.length →
      (∀ (i : Nat) v α, held[i]? = some v → Φ[i]? = some α → Inhabits S σ v α) →
      Inhabits S σ (.code body held) (τ.shift 1)

/-- Values have types, one by one. -/
abbrev InhabitAll (S : Ledger) (σ : List Ty) : List Value → List Ty → Prop :=
  List.Forall₂ (Inhabits S σ)

/-- Every slot holds a value of its type. -/
def Stored (S : Ledger) (σ : List Ty) (m : Machine) : Prop := InhabitAll S σ m.slots.toList σ

section Values

variable {S : Ledger} {σ σ' : List Ty} {home : Bool} {Γ Δ : Typing} {scope : Scope Slot} {v : Value}
  {τ : Ty} {m : Machine}

theorem Fits.mono (h : Fits S σ home scope Γ) (hσ : σ <+: σ') : Fits S σ' home scope Γ := by
  constructor
  · intro name τ hname
    rcases h.known hname with ⟨slot, hslot, hτ⟩
    exact ⟨slot, hslot, getElem?_of_prefix hσ hτ⟩
  · exact h.bound
  · intro name slot hhome hloose hslot
    exact getElem?_of_prefix hσ (h.loose hhome hloose hslot)
  · exact h.complete

/-- A value keeps its type when the store grows. -/
theorem Inhabits.mono (h : Inhabits S σ v τ) (hσ : σ <+: σ') : Inhabits S σ' v τ := by
  induction h with
  | int => exact .int
  | float => exact .float
  | string => exact .string
  | toFloat => exact .toFloat
  | toInt => exact .toInt
  | closure houter hfits hobeys hbody hlen _ ih =>
    exact .closure houter (hfits.mono hσ) hobeys hbody hlen ih
  | code hbody hstage hleaky hlen _ ih => exact .code hbody hstage hleaky hlen ih

theorem InhabitAll.mono {vs : List Value} {types : List Ty} (h : InhabitAll S σ vs types)
    (hσ : σ <+: σ') : InhabitAll S σ' vs types :=
  h.imp fun _ _ hv => hv.mono hσ

/-- A value of a type beyond stage 0 is code. -/
theorem Inhabits.code_of_stage (h : Inhabits S σ v τ) (hstage : 0 < τ.stage) :
    ∃ body held Φ B α, v = .code body held ∧ τ = α.shift 1 ∧ HasType S .alone Φ body α B ∧ 0 ≤ α.stage ∧
      (∀ b ∈ B, b.1 ∈ S.leaks.names) ∧ InhabitAll S σ held Φ := by
  cases h with
  | code hbody hα hleaky hlen hheld =>
    exact ⟨_, _, _, _, _, rfl, rfl, hbody, hα, hleaky, forall₂_iff_getElem?.2 ⟨hlen, hheld⟩⟩
  | _ => exact absurd hstage (Int.lt_irrefl 0)

/-- A value of a number type of stage 0 is a number. -/
theorem Inhabits.number_cases (h : Inhabits S σ v τ) (hstage : τ.stage = 0) (hτ : τ.isNumeric = true) :
    (∃ n, v = .int n ∧ τ = .int) ∨ ∃ x, v = .float x ∧ τ = .float := by
  cases h with
  | int => exact .inl ⟨_, rfl, rfl⟩
  | float => exact .inr ⟨_, rfl, rfl⟩
  | code _ hα =>
    rw [Ty.stage_shift] at hstage
    omega
  | _ => exact absurd hτ (by simp [Ty.isNumeric, Ty.string, Ty.function])

/-- A new slot has the type of its value. -/
theorem Stored.push (hm : Stored S σ m) (hv : Inhabits S σ v τ) :
    Stored S (σ ++ [τ]) { m with slots := m.slots.push v } := by
  have hσ : σ <+: σ ++ [τ] := List.prefix_append _ _
  unfold Stored
  rw [Array.toList_push]
  exact List.rel_append (hm.mono hσ) (.cons (hv.mono hσ) .nil)

/-- New slots have the types of the arguments. -/
theorem Stored.append (hm : Stored S σ m) {vs : List Value} {types : List Ty}
    (hvs : InhabitAll S σ vs types) :
    Stored S (σ ++ types) { m with slots := m.slots ++ vs.toArray } := by
  have hσ : σ <+: σ ++ types := List.prefix_append _ _
  unfold Stored
  rw [Array.toList_append]
  exact List.rel_append (hm.mono hσ) (hvs.mono hσ)

theorem Stored.size_eq (hm : Stored S σ m) : m.slots.size = σ.length := by
  simpa using hm.length_eq

/-- A slot holds a value of its type. -/
theorem Stored.read (hm : Stored S σ m) {slot : Slot} (hslot : σ[slot]? = some τ) :
    Inhabits S σ (m.slots.getD slot .void) τ := by
  have hlt : slot < m.slots.size := by
    rw [hm.size_eq]
    exact (List.getElem?_eq_some_iff.1 hslot).1
  refine (forall₂_iff_getElem?.1 hm).2 slot _ _ ?_ hslot
  simp [Array.getD, hlt]

/-- Writing a value of the type of a slot keeps the store typed. -/
theorem Stored.write (hm : Stored S σ m) {slot : Slot} (hslot : σ[slot]? = some τ)
    (hv : Inhabits S σ v τ) :
    Stored S σ { m with slots := m.slots.setIfInBounds slot v } := by
  refine forall₂_iff_getElem?.2 ⟨by simpa using hm.size_eq, fun i w α hw hα => ?_⟩
  rw [Array.toList_setIfInBounds, List.getElem?_set] at hw
  split at hw
  · next heq =>
    subst heq
    rw [hslot] at hα
    cases hα
    split at hw
    · cases hw
      exact hv
    · cases hw
  · exact (forall₂_iff_getElem?.1 hm).2 i w α hw hα

/-! ## Scopes -/

theorem Fits.empty : Fits S σ home {} [] := by
  constructor
  · intro name τ hname
    cases hname
  · rintro name ⟨τ, hname⟩
    cases hname
  · intro name slot _ _ hslot
    cases hslot
  · intro name _ _
    rfl

/-- What the checker keeps from a value only puts names in doubt. -/
theorem Fits.spill (h : Fits S σ home scope Γ) (B : Typing) (reader : Reader) :
    Fits S σ home scope (B.spill reader ++ Γ) := by
  cases reader with
  | evaluator => exact h
  | checker =>
    constructor
    · intro name τ hname
      exact h.known hname.of_doubt.2
    · intro name hname
      exact h.bound hname.of_doubt
    · exact h.loose
    · intro name hhome hname
      rw [Scope.newest?_append, Option.or_eq_none_iff] at hname
      exact h.complete hhome hname.2

/-- Two lists with the same names find a name at the same place. -/
theorem newest?_cases {B : Typing} {frame : List (String × Slot)}
    (h : List.Forall₂ (fun b e => b.1 = e.1 ∧ σ[e.2]? = b.2) B frame) (name : String) :
    (Scope.newest? name B = none ∧ Scope.newest? name frame = none) ∨
      ∃ slot, Scope.newest? name B = some σ[slot]? ∧ Scope.newest? name frame = some slot := by
  induction h with
  | nil => exact .inl ⟨rfl, rfl⟩
  | @cons b e B frame hhead _ ih =>
    rcases hhead with ⟨hname, hslot⟩
    rw [Scope.newest?, Scope.newest?, ← hname]
    split
    · exact .inr ⟨e.2, by rw [hslot], rfl⟩
    · exact ih

/-- New names fit if their slots have their types. -/
theorem Fits.extendAll (h : Fits S σ home scope Γ) {bound : List (String × Ty)} {slots : List Slot}
    (hslots : List.Forall₂ (fun b slot => σ[slot]? = some b.2) bound slots)
    (hobeys : home = false → S.Obeys bound) :
    Fits S σ home (scope.extendAll ((bound.map (·.1)).zip slots)) (.params bound ++ Γ) := by
  have hframe : List.Forall₂ (fun b e => b.1 = e.1 ∧ σ[e.2]? = b.2)
      (bound.map fun b => (b.1, some b.2)) ((bound.map (·.1)).zip slots) := by
    induction hslots with
    | nil => exact .nil
    | cons hhead _ ih => exact .cons ⟨rfl, hhead⟩ (ih fun hhome => (List.forall_mem_cons.1 (hobeys hhome)).2)
  -- the last of several bindings of a name counts, so the lists are searched in reverse
  have hcases := newest?_cases (List.rel_reverse hframe)
  constructor
  · intro name τ hname
    unfold Typing.Knows at hname
    rw [Scope.newest?_append] at hname
    rw [Scope.lookup?_extendAll]
    rcases hcases name with ⟨hbound, hscope⟩ | ⟨slot, hbound, hscope⟩
    · rw [Typing.params, hbound] at hname
      rw [hscope]
      exact h.known hname
    · rw [Typing.params, hbound] at hname
      exact ⟨slot, by simp [hscope], Option.some.inj hname⟩
  · rintro name ⟨τ, hname⟩
    rw [Scope.lookup?_extendAll]
    rcases hcases name with ⟨hbound, hscope⟩ | ⟨slot, -, hscope⟩
    · -- a name that no parameter has is bound further out
      rw [hscope]
      rcases List.mem_append.1 hname with hname | hname
      · exact absurd hbound (Scope.newest?_ne_none hname)
      · exact h.bound ⟨τ, hname⟩
    · rw [hscope]
      exact Option.some_ne_none slot
  · intro name slot hhome hloose hslot
    rw [Scope.lookup?_extendAll] at hslot
    rcases hcases name with ⟨-, hscope⟩ | ⟨slot', hbound, hscope⟩
    · rw [hscope] at hslot
      exact h.loose hhome hloose hslot
    · rw [hscope] at hslot
      cases hslot
      have hmem := List.mem_reverse.1 (Scope.mem_of_newest? hbound)
      rcases List.mem_map.1 hmem with ⟨b, hb, heq⟩
      have hname : b.1 = name := congrArg Prod.fst heq
      have hslot' : some b.2 = σ[slot]? := congrArg Prod.snd heq
      subst hname
      rw [← hslot', hobeys hhome b hb hloose]
  · intro name hhome hname
    rw [Scope.newest?_append, Option.or_eq_none_iff] at hname
    rw [Scope.lookup?_extendAll]
    rcases hcases name with ⟨-, hscope⟩ | ⟨slot, hbound, -⟩
    · rw [hscope]
      exact h.complete hhome hname.2
    · rw [Typing.params, hbound] at hname
      cases hname.1

theorem Fits.extend (h : Fits S σ home scope Γ) {name : String} {slot : Slot} (hslot : σ[slot]? = some τ)
    (hloose : home = false → S.loose name → τ = S.type name) :
    Fits S σ home (scope.extend name slot) ((name, some τ) :: Γ) := by
  have hobeys : home = false → S.Obeys [(name, τ)] := fun hhome => List.forall_mem_singleton.2 (hloose hhome)
  exact h.extendAll (.cons hslot .nil) hobeys

end Values

/-! ## Computations -/

/-- How the evaluation of a typed term may stop without a result. -/
inductive Allowed (S : Ledger) : Stop → Prop
  | outOfFuel : Allowed S .outOfFuel
  | divisionByZero : Allowed S (.failure .divisionByZero)
  | unbound {name} : S.stray name → Allowed S (.failure (.unbound name))

namespace Eval

/-- From a machine whose slots have the types `σ`, the computation ends with a result as `good` says, or
stops as allowed. -/
def Safe {α : Type} (S : Ledger) (σ : List Ty) (x : Eval α) (m : Machine)
    (good : List Ty → α → Prop) : Prop :=
  Yields x m (fun a m' => ∃ σ', σ <+: σ' ∧ Stored S σ' m' ∧ good σ' a) (fun stop _ => Allowed S stop)

section Rules

variable {S : Ledger} {σ : List Ty} {m : Machine} {α β : Type} {x : Eval α} {f : α → Eval β}
  {good : List Ty → α → Prop} {goal : List Ty → β → Prop} {τ : Ty} {v : Value}

theorem safe_pure (hm : Stored S σ m) {a : α} (h : good σ a) : Safe S σ (pure a) m good :=
  yields_pure ⟨σ, List.prefix_refl σ, hm, h⟩

theorem safe_fail {failure : Failure} (h : Allowed S (.failure failure)) :
    Safe S σ (fail failure : Eval α) m good :=
  yields_fail h

/-- A computation that is safe with more slots is safe with fewer. -/
theorem Safe.grow {σ' : List Ty} (h : Safe S σ' x m good) (hσ : σ <+: σ') : Safe S σ x m good := by
  refine h.imp ?_
  rintro a m' ⟨σ'', hσ', hm', ha⟩
  exact ⟨σ'', hσ.trans hσ', hm', ha⟩

/-- What follows a safe computation starts with more slots. -/
theorem Safe.bind (hx : Safe S σ x m good)
    (hf : ∀ a m' σ', σ <+: σ' → Stored S σ' m' → good σ' a → Safe S σ' (f a) m' goal) :
    Safe S σ (x >>= f) m goal := by
  refine Yields.bind hx ?_
  rintro a m' ⟨σ', hσ, hm', ha⟩
  exact (hf a m' σ' hσ hm' ha).grow hσ

/-- After a value has been put into the store, its slot has its type. -/
theorem safe_allocate (hm : Stored S σ m) (hv : Inhabits S σ v τ) {f : Slot → Eval β}
    (h : ∀ slot m', (σ ++ [τ])[slot]? = some τ → Stored S (σ ++ [τ]) m' →
      Safe S (σ ++ [τ]) (f slot) m' goal) : Safe S σ (allocate v >>= f) m goal := by
  have hslot : (σ ++ [τ])[m.slots.size]? = some τ := by
    rw [hm.size_eq]
    simp
  exact yields_allocate ((h _ _ hslot (hm.push hv)).grow (List.prefix_append _ _))

theorem safe_write (hm : Stored S σ m) {slot : Slot} (hslot : σ[slot]? = some τ)
    (hv : Inhabits S σ v τ) {f : Unit → Eval β} (h : ∀ m', Stored S σ m' → Safe S σ (f ()) m' goal) :
    Safe S σ (write slot v >>= f) m goal :=
  yields_write (h _ (hm.write hslot hv))

theorem safe_read (hm : Stored S σ m) {slot : Slot} (hslot : σ[slot]? = some τ) {f : Value → Eval β}
    (h : ∀ v, Inhabits S σ v τ → Safe S σ (f v) m goal) : Safe S σ (read slot >>= f) m goal :=
  yields_read (h _ (hm.read hslot))

theorem safe_nextSerial {f : Nat → Eval β}
    (h : ∀ serial m', m'.slots = m.slots → Safe S σ (f serial) m' goal) :
    Safe S σ (nextSerial >>= f) m goal :=
  yields_nextSerial (h _ _ rfl)

/-! ### Arithmetic -/

theorem safe_asFloat (hm : Stored S σ m) (hv : Inhabits S σ v τ) (hstage : τ.stage = 0)
    (hτ : τ.isNumeric = true) : Safe S σ (asFloat v) m (fun _ _ => True) := by
  rcases hv.number_cases hstage hτ with ⟨n, rfl, -⟩ | ⟨x, rfl, -⟩
  · exact safe_pure hm trivial
  · exact safe_pure hm trivial

/-- Negation gives a number of the type of its operand. -/
theorem safe_negate {node : NodeId} {α : Ty} (hm : Stored S σ m) (hv : Inhabits S σ v α)
    (hrule : unaryRule node α = .ok τ) : Safe S σ (negate v) m (fun σ' w => Inhabits S σ' w τ) := by
  unfold unaryRule at hrule
  split at hrule
  · cases hrule
  · next hstage =>
    split at hrule
    · next hnumeric =>
      cases hrule
      rcases hv.number_cases (Decidable.not_not.1 hstage) hnumeric with ⟨n, rfl, rfl⟩ | ⟨x, rfl, rfl⟩
      · exact safe_pure hm .int
      · exact safe_pure hm .float
    · cases hrule

/-- On whole numbers only division can fail, which is an ordinary fault. -/
theorem safe_intArithmetic (op : BinaryOp) (hm : Stored S σ m) (a b : Int64) :
    Safe S σ (intArithmetic op a b) m (fun _ _ => True) := by
  cases op with
  | div =>
    unfold intArithmetic
    dsimp only
    split
    · exact safe_fail .divisionByZero
    · exact safe_pure hm trivial
  | _ => exact safe_pure hm trivial

/-- Arithmetic gives a number of the type that the rule says, or an ordinary fault. -/
theorem safe_arithmetic {node : NodeId} {α β : Ty} {a b : Value} (op : BinaryOp) (hm : Stored S σ m)
    (ha : Inhabits S σ a α) (hb : Inhabits S σ b β) (hrule : numericRule node α β = .ok τ) :
    Safe S σ (arithmetic op a b) m (fun σ' w => Inhabits S σ' w τ) := by
  rcases numericRule_eq_ok hrule with ⟨hα, hβ, rfl⟩
  have hfloat : Safe S σ (do return .float (floatArithmetic op (← asFloat a) (← asFloat b))) m
      (fun σ' w => Inhabits S σ' w .float) := by
    refine (safe_asFloat hm ha hα.1 hα.2).bind fun x m₁ σ₁ hσ₁ hm₁ _ => ?_
    refine (safe_asFloat hm₁ (hb.mono hσ₁) hβ.1 hβ.2).bind fun y m₂ σ₂ _ hm₂ _ => ?_
    exact safe_pure hm₂ .float
  rcases ha.number_cases hα.1 hα.2 with ⟨n, rfl, rfl⟩ | ⟨x, rfl, rfl⟩
  · rcases hb.number_cases hβ.1 hβ.2 with ⟨k, rfl, rfl⟩ | ⟨y, rfl, rfl⟩
    · exact (safe_intArithmetic op hm n k).bind fun r m₁ σ₁ _ hm₁ _ => safe_pure hm₁ .int
    · exact hfloat
  · exact hfloat

end Rules

/-! ### Names and functions -/

section Names

variable {S : Ledger} {σ : List Ty} {m : Machine} {P : Place} {scope : Scope Slot} {τ : Ty}

/-- An intrinsic is of the type that the prelude gives it. -/
theorem intrinsic_inhabits {name : String} {f : HostFunction}
    (h : HostFunction.intrinsic? name = some f) :
    ∃ τ, Prelude.general.intrinsics.get? name = some τ ∧ Inhabits S σ (.host f) τ := by
  unfold HostFunction.intrinsic? at h
  split at h
  · cases h
    exact ⟨_, rfl, .toFloat⟩
  · cases h
    exact ⟨_, rfl, .toInt⟩
  · cases h

/-- The intrinsics of the checker are those of evaluation. -/
theorem intrinsic_of_get? {name : String} (h : Prelude.general.intrinsics.get? name = some τ) :
    ∃ f, HostFunction.intrinsic? name = some f ∧ Inhabits S σ (.host f) τ := by
  rcases List.mem_pair.1 (Scope.mem_of_newest? h) with heq | heq
  · cases heq
    exact ⟨_, rfl, .toFloat⟩
  · cases heq
    exact ⟨_, rfl, .toInt⟩

/-- A use of a name finds a value of its type. At home a name that is not known is not bound, and is an
intrinsic. In code it is loose, so that whatever binds it where the code has ended up binds it at that
type. -/
theorem safe_lookup (hm : Stored S σ m) (houter : P.outer = []) (hfits : Fits S σ P.home scope P.here)
    {name : String} (hreads : S.Reads P name τ) :
    Safe S σ (lookup scope name) m (fun σ' v => Inhabits S σ' v τ) := by
  unfold lookup
  cases hreads with
  | known hknown _ =>
    -- the name has a slot, and the value there has its type
    rcases hfits.known hknown with ⟨slot, hslot, hτ⟩
    rw [hslot]
    exact safe_read hm hτ fun v hv => safe_pure hm hv
  | intrinsic hhome hnew hget =>
    -- the name is bound nowhere, so the intrinsic is found
    rcases intrinsic_of_get? hget with ⟨f, hf, hinhabits⟩
    rw [hfits.complete (P.atHome_of_outer houter ▸ hhome) hnew, hf]
    exact safe_pure hm hinhabits
  | loose hhome hloose htype hbound _ =>
    -- the scope decides: a slot of the agreed type, an intrinsic, or no such name
    subst htype
    split
    · next slot hslot =>
      have hslot' := hfits.loose (P.atHome_of_outer houter ▸ hhome) hloose hslot
      exact safe_read hm hslot' fun v hv => safe_pure hm hv
    · next hunbound =>
      split
      · next f hf =>
        rcases intrinsic_inhabits hf with ⟨τ, hτ, hinhabits⟩
        rw [S.intrinsic name τ hτ hloose]
        exact safe_pure hm hinhabits
      · next hnone =>
        rcases hbound with hbinds | hstray | hsome
        · exact absurd hunbound (hfits.bound hbinds)
        · exact safe_fail (.unbound hstray)
        · rw [hnone] at hsome
          cases hsome

/-- A value of function type is a host function or a closure over a typed body. -/
theorem function_cases {f : Value} {types : List Ty} (h : Inhabits S σ f (.function types τ)) :
    (f = .host .toFloat ∧ types = [.int] ∧ τ = .float) ∨ (f = .host .toInt ∧ types = [.float] ∧ τ = .int) ∨
    ∃ serial body scope held, ∃ (P : Place) (B : Typing), ∃ bound Φ,
      f = .closure serial (bound.map (·.1)) body scope held ∧ types = bound.map (·.2) ∧
      P.outer = [] ∧ Fits S σ P.home scope P.here ∧ (P.home = false → S.Obeys bound) ∧
      HasType S (P.called bound) Φ body τ B ∧ InhabitAll S σ held Φ := by
  generalize hα : Ty.function types τ = α at h
  cases h with
  | int => cases hα
  | float => cases hα
  | string => cases hα
  | toFloat =>
    cases hα
    exact .inl ⟨rfl, rfl, rfl⟩
  | toInt =>
    cases hα
    exact .inr (.inl ⟨rfl, rfl, rfl⟩)
  | closure houter hfits hobeys hbody hlen hheld =>
    cases hα
    exact .inr (.inr ⟨_, _, _, _, _, _, _, _, rfl, rfl, houter, hfits, hobeys, hbody,
      forall₂_iff_getElem?.2 ⟨hlen, hheld⟩⟩)
  | code _ hstage =>
    have hzero : (0 : Int) = _ + 1 := (congrArg Ty.stage hα).trans (Ty.stage_shift 1 _)
    omega

end Names

/-! ## The five functions -/

/-- With the given fuel, the functions of the evaluator are safe on typed arguments. Code is evaluated at a
place outside quotes, and built at a place `P` of its own, in a quote that stands where `Δ` is bound. -/
structure SoundAt (S : Ledger) (fuel : Nat) : Prop where
  eval {P : Place} {B : Typing} {Φ σ : List Ty} {t : Term} {τ : Ty} {scope : Scope Slot}
      {held : List Value} {m : Machine} :
    HasType S P Φ t τ B → P.outer = [] → Fits S σ P.home scope P.here → InhabitAll S σ held Φ →
    Stored S σ m →
    Safe S σ (Eval.eval fuel t scope held) m fun σ' r =>
      Inhabits S σ' r.1 τ ∧ Fits S σ' P.home r.2 (B ++ P.here)
  evalAll {P : Place} {Φ σ types : List Ty} {ts : List Term} {scope : Scope Slot} {held : List Value}
      {m : Machine} :
    HasTypes S P Φ ts types → P.outer = [] → Fits S σ P.home scope P.here → InhabitAll S σ held Φ →
    Stored S σ m →
    Safe S σ (Eval.evalAll fuel ts scope held) m fun σ' vs => InhabitAll S σ' vs types
  apply {σ types : List Ty} {τ : Ty} {f : Value} {args : List Value} {m : Machine} :
    Inhabits S σ f (.function types τ) → InhabitAll S σ args types → Stored S σ m →
    Safe S σ (Eval.apply fuel f args) m fun σ' v => Inhabits S σ' v τ
  build {P : Place} {home : Bool} {Δ B : Typing} {sight : Sight} {Φ Ψ σ : List Ty} {t : Term} {τ : Ty}
      {scope : Scope Slot} {held kept : List Value} {m : Machine} :
    HasType S (P.under home Δ sight) Φ t τ B → P.home = false → Fits S σ home scope Δ →
    InhabitAll S σ held Φ → InhabitAll S σ kept Ψ → Stored S σ m →
    Safe S σ (Eval.build fuel t P.level scope held kept) m fun σ' r =>
      ∃ Ψ', Ψ <+: Ψ' ∧ InhabitAll S σ' r.2 Ψ' ∧ Takes S P Ψ' r.1 τ t.inScope B
  buildAll {P : Place} {home : Bool} {Δ : Typing} {sight : Sight} {parts : List Part} {Φ Ψ σ : List Ty}
      {ts : List Term} {scope : Scope Slot} {held kept : List Value} {m : Machine} :
    List.Forall₂ (Part.Has S (P.under home Δ sight) Φ) ts parts → P.home = false →
    Fits S σ home scope Δ → InhabitAll S σ held Φ → InhabitAll S σ kept Ψ → Stored S σ m →
    Safe S σ (Eval.buildAll fuel ts P.level scope held kept) m fun σ' r =>
      ∃ Ψ', Ψ <+: Ψ' ∧ InhabitAll S σ' r.2 Ψ' ∧ List.Forall₂ (Part.Takes S P Ψ') r.1 parts

section Step

variable {S : Ledger} {fuel : Nat} {m : Machine} {σ Φ Ψ types : List Ty} {P : Place} {home : Bool}
  {Δ B : Typing} {sight : Sight} {τ : Ty} {scope : Scope Slot} {held kept : List Value}

/-- Parameters are bound under their names, in order. -/
theorem paramRule_names {node : NodeId} {params : List Param} {bound : List (String × Ty)}
    (h : Prelude.general.paramRule node params = .ok bound) :
    bound.map (·.1) = params.map (·.name) := by
  rw [Prelude.paramRule, Prelude.paramsWith, mapM_eq_ok] at h
  induction h with
  | nil => rfl
  | @cons param b params bound hhead _ ih =>
    rw [List.map_cons, List.map_cons, ih]
    congr 1
    split at hhead
    · rcases Except.bind_eq_ok.1 hhead with ⟨type, -, hb⟩
      cases hb
      rfl
    · cases hhead
      rfl

/-- One step of the induction: a typed term evaluates safely if the calls that it makes do. -/
theorem safe_eval (ih : SoundAt S fuel) {t : Term} (ht : HasType S P Φ t τ B) (houter : P.outer = [])
    (hfits : Fits S σ P.home scope P.here) (hheld : InhabitAll S σ held Φ) (hm : Stored S σ m) :
    Safe S σ (eval (fuel + 1) t scope held) m fun σ' r =>
      Inhabits S σ' r.1 τ ∧ Fits S σ' P.home r.2 (B ++ P.here) := by
  cases ht with
  | @literal _ _ s value =>
    rw [eval]
    cases value <;> exact safe_pure hm ⟨by constructor, hfits⟩
  | seq hl hr =>
    -- the scope after the first part is the one for the second
    rw [eval]
    refine (ih.eval hl houter hfits hheld hm).bind ?_
    rintro ⟨v, scope₁⟩ m₁ σ₁ hσ₁ hm₁ ⟨-, hfits₁⟩
    rw [List.append_assoc]
    exact ih.eval hr houter hfits₁ (hheld.mono hσ₁) hm₁
  | define hvalue hloose =>
    rw [eval]
    refine (ih.eval hvalue houter hfits hheld hm).bind ?_
    rintro ⟨v, scope₁⟩ m₁ σ₁ hσ₁ hm₁ ⟨hv, -⟩
    -- what the value binds ends with it, so the scope before it is extended
    refine safe_allocate hm₁ hv fun slot m₂ hslot hm₂ => ?_
    have hσ₂ : σ₁ <+: σ₁ ++ [τ] := List.prefix_append _ _
    rw [P.atHome_of_outer houter] at hloose
    exact safe_pure hm₂ ⟨hv.mono hσ₂, ((hfits.mono (hσ₁.trans hσ₂)).spill _ _).extend hslot hloose⟩
  | @assign _ _ s name t _ _ hvalue hwrites =>
    rw [eval]
    refine (ih.eval hvalue houter hfits hheld hm).bind ?_
    rintro ⟨v, scope₁⟩ m₁ σ₁ hσ₁ hm₁ ⟨hv, -⟩
    have hfits₁ := hfits.mono hσ₁
    dsimp only
    cases hwrites with
    | known hknown _ =>
      -- the slot of the name takes values of this type
      rcases hfits₁.known hknown with ⟨slot, hslot, hτ⟩
      rw [hslot]
      exact safe_write hm₁ hτ hv fun m₂ hm₂ => safe_pure hm₂ ⟨hv, hfits₁.spill _ _⟩
    | loose hhome hloose htype _ hbound _ =>
      subst htype
      rw [P.atHome_of_outer houter] at hhome
      -- a loose name has a slot of its type, or may be stray
      split
      · next hnone => exact safe_fail (.unbound (hbound.resolve_left fun h => hfits₁.bound h hnone))
      · next slot hslot =>
        exact safe_write hm₁ (hfits₁.loose hhome hloose hslot) hv fun m₂ hm₂ =>
          safe_pure hm₂ ⟨hv, hfits₁.spill _ _⟩
  | lookup hreads =>
    rw [eval]
    exact (safe_lookup hm houter hfits hreads).bind fun v m₁ σ₁ hσ₁ hm₁ hv =>
      safe_pure hm₁ ⟨hv, hfits.mono hσ₁⟩
  | unary hoperand hrule =>
    -- the scope of an operand is dropped
    rw [eval]
    refine (ih.eval hoperand houter hfits hheld hm).bind ?_
    rintro ⟨v, scope₁⟩ m₁ σ₁ hσ₁ hm₁ ⟨hv, -⟩
    exact (safe_negate hm₁ hv hrule).bind fun w m₂ σ₂ hσ₂ hm₂ hw =>
      safe_pure hm₂ ⟨hw, hfits.mono (hσ₁.trans hσ₂)⟩
  | @binary _ _ s op l r _ _ _ _ _ hl hr hrule =>
    rw [eval]
    refine (ih.eval hl houter hfits hheld hm).bind ?_
    rintro ⟨a, scope₁⟩ m₁ σ₁ hσ₁ hm₁ ⟨ha, hfits₁⟩
    -- the right operand sees what the left one has bound
    refine (ih.eval hr houter hfits₁ (hheld.mono hσ₁) hm₁).bind ?_
    rintro ⟨b, scope₂⟩ m₂ σ₂ hσ₂ hm₂ ⟨hb, -⟩
    exact (safe_arithmetic op hm₂ (ha.mono hσ₂) hb hrule).bind fun w m₃ σ₃ hσ₃ hm₃ hw =>
      safe_pure hm₃ ⟨hw, hfits.mono (hσ₁.trans (hσ₂.trans hσ₃))⟩
  | @quote _ _ s label snippet t τ B hbody hstage hleaky =>
    rw [eval]
    -- the one quote around the body: escapes lead back to the names of the scope
    have hbody' : HasType S (Place.alone.under P.home P.here P.sight) Φ t τ B := by
      rw [Place.quoted, houter] at hbody
      exact hbody
    refine (ih.build hbody' rfl hfits hheld .nil hm).bind ?_
    rintro ⟨code, kept⟩ m₁ σ₁ hσ₁ hm₁ ⟨Ψ, -, hkept, B', hB, -, hcode⟩
    rcases forall₂_iff_getElem?.1 hkept with ⟨hlen, hvalues⟩
    exact safe_pure hm₁ ⟨.code hcode hstage (hB.forall_names hleaky) hlen hvalues, hfits.mono hσ₁⟩
  | escape hstack => exact absurd (hstack.symm.trans houter) (List.cons_ne_nil _ _)
  | @run _ _ s t α _ _ hbody hrule =>
    rw [eval]
    refine (ih.eval hbody houter hfits hheld hm).bind ?_
    rintro ⟨v, scope₁⟩ m₁ σ₁ hσ₁ hm₁ ⟨hv, -⟩
    unfold runRule at hrule
    split at hrule
    · next hcode =>
      cases hrule
      obtain ⟨body, kept, Ψ, C, β, rfl, rfl, hbody, -, -, hkept⟩ :=
        hv.code_of_stage (by simpa [Ty.isCode] using hcode)
      -- code is typed on its own, so it can run in an empty scope
      refine (ih.eval hbody rfl .empty hkept hm₁).bind ?_
      rintro ⟨w, scope₂⟩ m₂ σ₂ hσ₂ hm₂ ⟨hw, -⟩
      refine safe_pure hm₂ ⟨?_, (hfits.mono (hσ₁.trans hσ₂)).spill _ _⟩
      simpa using hw
    · cases hrule
  | lambda hparams hobeys hbody =>
    rw [eval]
    -- numbering the closure leaves the slots alone
    refine safe_nextSerial fun serial m₁ hslots => ?_
    have hm₁ : Stored S σ m₁ := by
      unfold Stored
      rw [hslots]
      exact hm
    rcases forall₂_iff_getElem?.1 hheld with ⟨hlen, hvalues⟩
    rw [P.atHome_of_outer houter] at hobeys
    rw [← paramRule_names hparams]
    exact safe_pure hm₁ ⟨.closure houter hfits hobeys hbody hlen hvalues, hfits⟩
  | call hf hargs hrule =>
    -- callee, arguments and then the body, each with the slots that the ones before have added
    rw [eval]
    cases callRule_eq_ok hrule
    refine (ih.eval hf houter hfits hheld hm).bind ?_
    rintro ⟨f, scope₁⟩ m₁ σ₁ hσ₁ hm₁ ⟨hf, -⟩
    refine (ih.evalAll hargs houter (hfits.mono hσ₁) (hheld.mono hσ₁) hm₁).bind ?_
    intro vs m₂ σ₂ hσ₂ hm₂ hvs
    exact (ih.apply (hf.mono hσ₂) hvs hm₂).bind fun w m₃ σ₃ hσ₃ hm₃ hw =>
      safe_pure hm₃ ⟨hw, hfits.mono (hσ₁.trans (hσ₂.trans hσ₃))⟩
  | @held _ _ s index _ _ hindex =>
    -- held references are typed by the values that are held
    rw [eval]
    rcases forall₂_iff_getElem?.1 hheld with ⟨hlen, hvalues⟩
    have hlt : index < held.length := by
      rw [hlen]
      exact (List.getElem?_eq_some_iff.1 hindex).1
    have hv := hvalues index held[index] τ (List.getElem?_eq_getElem hlt) hindex
    rw [List.getElem?_eq_getElem hlt]
    exact safe_pure hm ⟨hv, hfits⟩

/-- Typed arguments evaluate safely. -/
theorem safe_evalAll (ih : SoundAt S fuel) {ts : List Term} (hts : HasTypes S P Φ ts types)
    (houter : P.outer = []) (hfits : Fits S σ P.home scope P.here) (hheld : InhabitAll S σ held Φ)
    (hm : Stored S σ m) :
    Safe S σ (evalAll (fuel + 1) ts scope held) m fun σ' vs => InhabitAll S σ' vs types := by
  cases hts with
  | nil =>
    rw [evalAll]
    exact safe_pure hm .nil
  | cons ht hrest =>
    rw [evalAll]
    refine (ih.eval ht houter hfits hheld hm).bind ?_
    rintro ⟨v, scope₁⟩ m₁ σ₁ hσ₁ hm₁ ⟨hv, -⟩
    refine (ih.evalAll hrest houter (hfits.mono hσ₁) (hheld.mono hσ₁) hm₁).bind ?_
    intro vs m₂ σ₂ hσ₂ hm₂ hvs
    exact safe_pure hm₂ (.cons (hv.mono hσ₂) hvs)

/-- A function applied to arguments of the types of its parameters is safe. -/
theorem safe_apply (ih : SoundAt S fuel) {f : Value} {args : List Value}
    (hf : Inhabits S σ f (.function types τ)) (hargs : InhabitAll S σ args types) (hm : Stored S σ m) :
    Safe S σ (apply (fuel + 1) f args) m fun σ' v => Inhabits S σ' v τ := by
  rw [apply.eq_def]
  rcases function_cases hf with ⟨rfl, rfl, rfl⟩ | ⟨rfl, rfl, rfl⟩ |
    ⟨serial, body, scope, held, P, B, bound, Φ, rfl, rfl, houter, hfits, hobeys, hbody, hheld⟩
  · -- `toFloat` on an integer
    cases hargs with
    | cons harg hnil =>
      cases hnil
      rcases harg.number_cases rfl rfl with ⟨n, rfl, -⟩ | ⟨x, -, hfloat⟩
      · exact safe_pure hm .float
      · cases hfloat
  · -- `toInt` on a double
    cases hargs with
    | cons harg hnil =>
      cases hnil
      rcases harg.number_cases rfl rfl with ⟨n, -, hint⟩ | ⟨x, rfl, -⟩
      · cases hint
      · exact safe_pure hm .int
  · -- a closure
    have hlen := hargs.length_eq
    rw [List.length_map] at hlen
    dsimp only
    rw [if_neg (by simp [hlen])]
    have hσ : σ <+: σ ++ bound.map (·.2) := List.prefix_append _ _
    -- the arguments go to the slots behind those in use
    have hslots : List.Forall₂ (fun b slot => (σ ++ bound.map (·.2))[slot]? = some b.2) bound
        (List.range' m.slots.size args.length) := by
      refine forall₂_iff_getElem?.2 ⟨by simp [hlen], fun i b slot hb hslot => ?_⟩
      have hi : i < bound.length := (List.getElem?_eq_some_iff.1 hb).1
      rw [List.getElem?_range' (by omega), hm.size_eq, Nat.one_mul] at hslot
      cases hslot
      rw [List.getElem?_append_right (Nat.le_add_right _ _), Nat.add_sub_cancel_left, List.getElem?_map, hb]
      rfl
    refine yields_allocateAll (Safe.grow ?_ hσ)
    have hrun := ih.eval hbody houter ((hfits.mono hσ).extendAll hslots hobeys) (hheld.mono hσ)
      (hm.append hargs)
    exact hrun.bind fun r m₁ σ₁ _ hm₁ hr => safe_pure hm₁ hr.1

/-- An escape that belongs to the quote is carried out. What it leaves behind has the type of the escape:
a reference to a kept value, or code in place of the escape. -/
theorem safe_escape (ih : SoundAt S fuel) {s : Site} {kind : EscapeKind} {t : Term}
    (ht : HasType S (P.under home Δ sight) Φ (.escape s kind t) τ B) (hP : P.home = false)
    (houter : P.outer = []) (hfits : Fits S σ home scope Δ) (hheld : InhabitAll S σ held Φ)
    (hkept : InhabitAll S σ kept Ψ) (hm : Stored S σ m) :
    Safe S σ (build (fuel + 1) (.escape s kind t) 0 scope held kept) m fun σ' r =>
      ∃ Ψ', Ψ <+: Ψ' ∧ InhabitAll S σ' r.2 Ψ' ∧ Takes S P Ψ' r.1 τ (Term.escape s kind t).inScope B := by
  rw [Term.inScope_escape, build]
  cases ht with
  | @escape _ Δ' outer' _ _ _ _ α _ C hstack ht hrule hsees =>
    -- the escape leads back to the scope around the quote
    have hlast : Δ = Δ' ∧ [] = outer' := by
      rw [Place.under, houter] at hstack
      exact List.cons.inj hstack
    rcases hlast with ⟨rfl, rfl⟩
    refine (ih.eval ht rfl hfits hheld hm).bind ?_
    rintro ⟨v, scope₁⟩ m₁ σ₁ hσ₁ hm₁ ⟨hv, -⟩
    have hkept₁ := hkept.mono hσ₁
    have hcount := hkept.length_eq
    -- a splice and a snippet both inline code
    have hinline : kind ≠ .persist → ∃ body values Ψ', v = .code body values ∧
        Ψ <+: Ψ' ∧ InhabitAll S σ₁ (kept ++ values) Ψ' ∧
        Takes S P Ψ' (body.shiftHeld kept.length) τ [] (S.escaping kind) := by
      intro hkind
      rcases escapeRule_eq_ok hrule hkind with ⟨hstage, hτ⟩
      rcases hv.code_of_stage hstage with ⟨body, values, Ψ', C, β, rfl, rfl, hbody, -, hleaky, hvalues⟩
      have hβ : β = τ := by simpa using hτ
      -- code is typed on its own, and can stand wherever its loose names are seen
      have hsub : Place.alone.Sub S P := .of_alone hP houter fun name hloose =>
        (hsees hkind name hloose).of_under hP
      have hgrows : Known.Grows P.level [] (body.shiftHeld kept.length).inScope := by
        refine ⟨List.nil_subset _, fun hlevel => ?_⟩
        rw [Place.level, houter] at hlevel
        exact absurd rfl hlevel
      refine ⟨body, values, Ψ ++ Ψ', rfl, List.prefix_append _ _, List.rel_append hkept₁ hvalues, ?_⟩
      refine ⟨C, .splice hkind hleaky, hgrows, ?_⟩
      rw [hcount]
      exact hβ ▸ hbody.splice hsub Ψ
    cases kind with
    | persist =>
      cases hrule
      -- the value is kept, and a reference to it takes the place of the escape
      refine safe_pure hm₁ ⟨Ψ ++ [τ], List.prefix_append _ _, ?_, [], .refl _, .refl _ _, .held houter ?_⟩
      · exact List.rel_append hkept₁ (.cons hv .nil)
      · simp [hcount]
    | splice | snippet =>
      rcases hinline (by simp) with ⟨body, values, Ψ', rfl, hresult⟩
      exact safe_pure hm₁ ⟨Ψ', hresult⟩

/-- Building typed code is safe, and gives code of that type over the values that are kept. -/
theorem safe_build (ih : SoundAt S fuel) {t : Term} (ht : HasType S (P.under home Δ sight) Φ t τ B)
    (hP : P.home = false) (hfits : Fits S σ home scope Δ) (hheld : InhabitAll S σ held Φ)
    (hkept : InhabitAll S σ kept Ψ) (hm : Stored S σ m) :
    Safe S σ (build (fuel + 1) t P.level scope held kept) m fun σ' r =>
      ∃ Ψ', Ψ <+: Ψ' ∧ InhabitAll S σ' r.2 Ψ' ∧ Takes S P Ψ' r.1 τ t.inScope B := by
  by_cases hquote : t.tag = .quote
  · cases t <;> cases hquote
    cases ht with
    | quote hbody hstage hleaky =>
      rw [build]
      -- a quote inside the quote is built one level further in
      refine (ih.build (P := P.quoted) hbody hP hfits hheld hkept hm).bind ?_
      rintro ⟨body, kept₁⟩ m₁ σ₁ hσ₁ hm₁ ⟨Ψ', hΨ, hkept₁, B', hB, -, hcode⟩
      exact safe_pure hm₁ ⟨Ψ', hΨ, hkept₁, [], .refl _, .refl _ _,
        .quote hcode hstage (hB.forall_names hleaky)⟩
  · by_cases hescape : t.tag = .escape
    · cases t <;> cases hescape
      -- the escape belongs to the quote that is built, or to one inside it
      cases houter : P.outer with
      | nil =>
        rw [Place.level, houter]
        exact safe_escape ih ht hP houter hfits hheld hkept hm
      | cons Δ' outer =>
        cases ht with
        | escape hstack hbody hrule hsees =>
          rw [Place.under, houter, List.cons_append] at hstack
          cases hstack
          -- it belongs to one inside, so it stays and its body is built one level further out
          have hlevel : P.level = (P.back Δ' outer).level + 1 := by rw [Place.level, houter]; rfl
          rw [hlevel, build]
          refine (ih.build (P := P.back Δ' outer) hbody hP hfits hheld hkept hm).bind ?_
          rintro ⟨body, kept₁⟩ m₁ σ₁ hσ₁ hm₁ ⟨Ψ', hΨ, hkept₁, B', -, -, hbody'⟩
          have hsees' := fun hkind name hloose => (hsees hkind name hloose).of_under hP
          refine safe_pure hm₁ ⟨Ψ', hΨ, hkept₁, _, .refl _, ?_, .escape houter hbody' hrule hsees'⟩
          rw [Term.inScope_escape, Term.inScope_escape]
          exact .refl _ _
    · -- inside a quote there are no held values of the quote itself
      have hnotHeld : t.tag ≠ .held := by
        intro htag
        cases t <;> cases htag
        cases ht with
        | held hnil => exact absurd hnil (List.append_ne_nil_of_right_ne_nil _ (List.cons_ne_nil _ _))
      -- any other node is rebuilt from its parts
      rcases ht.parts hP hquote hescape hnotHeld with ⟨parts, hparts, hrebuild⟩
      have hbuild : build (fuel + 1) t P.level scope held kept =
          buildAll fuel t.children P.level scope held kept >>= fun r =>
            pure (t.withChildren r.1, r.2) := by
        rw [build.eq_def]
        dsimp only
        split
        · exact absurd rfl hquote
        · exact absurd rfl hescape
        · rfl
      rw [hbuild]
      refine (ih.buildAll hparts hP hfits hheld hkept hm).bind ?_
      rintro ⟨children, kept₁⟩ m₁ σ₁ hσ₁ hm₁ ⟨Ψ', hΨ, hkept₁, hchildren⟩
      exact safe_pure hm₁ ⟨Ψ', hΨ, hkept₁, hrebuild _ _ hchildren⟩

/-- Building the parts of typed code is safe, one after the other. -/
theorem safe_buildAll (ih : SoundAt S fuel) {ts : List Term} {parts : List Part}
    (hts : List.Forall₂ (Part.Has S (P.under home Δ sight) Φ) ts parts) (hP : P.home = false)
    (hfits : Fits S σ home scope Δ) (hheld : InhabitAll S σ held Φ) (hkept : InhabitAll S σ kept Ψ)
    (hm : Stored S σ m) :
    Safe S σ (buildAll (fuel + 1) ts P.level scope held kept) m fun σ' r =>
      ∃ Ψ', Ψ <+: Ψ' ∧ InhabitAll S σ' r.2 Ψ' ∧ List.Forall₂ (Part.Takes S P Ψ') r.1 parts := by
  cases hts with
  | nil =>
    rw [buildAll]
    exact safe_pure hm ⟨Ψ, List.prefix_refl Ψ, hkept, .nil⟩
  | @cons _ p _ _ hhead hrest =>
    rw [buildAll]
    rcases hhead with ⟨hseen, ht⟩
    rw [← Place.under_bind] at ht
    refine (ih.build ht hP hfits hheld hkept hm).bind ?_
    rintro ⟨t', kept₁⟩ m₁ σ₁ hσ₁ hm₁ ⟨Ψ₁, hΨ₁, hkept₁, B', hB, hgrows, ht'⟩
    refine (ih.buildAll hrest hP (hfits.mono hσ₁) (hheld.mono hσ₁) hkept₁ hm₁).bind ?_
    rintro ⟨rest', kept₂⟩ m₂ σ₂ hσ₂ hm₂ ⟨Ψ₂, hΨ₂, hkept₂, hrest'⟩
    rw [hseen] at hgrows
    exact safe_pure hm₂
      ⟨Ψ₂, hΨ₁.trans hΨ₂, hkept₂, .cons ⟨B', hB, hgrows, ht'.holdMore hP hΨ₂⟩ hrest'⟩

end Step

/-- **Typed terms evaluate safely**, whatever the fuel. -/
theorem sound (S : Ledger) (fuel : Nat) : SoundAt S fuel := by
  -- on fuel, for the five functions at once
  induction fuel with
  | zero =>
    constructor <;> intros <;> exact yields_outOfFuel .outOfFuel
  | succ fuel ih =>
    constructor
    · exact safe_eval ih
    · exact safe_evalAll ih
    · exact safe_apply ih
    · exact safe_build ih
    · exact safe_buildAll ih

end Eval

end Multistage
