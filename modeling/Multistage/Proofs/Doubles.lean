import Mathlib.Tactic.Linarith
import Multistage.Text.Numeral

/-!
# The range of doubles

Reading a numeral multiplies and divides doubles, and any of these steps could leave the finite
range. The bounds here follow a double through rounding, multiplication and division, and they are
coarse: the largest finite exponent is 971, and nothing that starts below 64 bits comes near it.

Main results:

* `toFloat?_isSome_of_whole`: a whole number below 64 bits is in range;
* `isFinite_of_toFloat?`: a numeral is never read as an infinity or as not a number.
-/

open Float.Model Float.Model.UnpackedFloat

namespace Multistage

/-! ## Bounds on unpacked doubles -/

/-- Zero, or a finite number below `2 ^ (e + 53)` whose exponent is at most `e`. -/
def InRange (e : Int) : UnpackedFloat → Prop
  | .zero _ => True
  | .finite _ m e' _ => e' ≤ e ∧ m.log2 + e' ≤ e + 52
  | _ => False

/-- A finite number whose last place is at least `2 ^ -52`. -/
def Sizeable : UnpackedFloat → Prop
  | .finite _ _ e _ => -52 ≤ e
  | _ => False

instance (e : Int) : DecidablePred (InRange e)
  | .zero _ => .isTrue trivial
  | .finite _ m e' _ => inferInstanceAs (Decidable (e' ≤ e ∧ m.log2 + e' ≤ e + 52))
  | .infinity _ | .notANumber => .isFalse id

instance : DecidablePred Sizeable
  | .finite _ _ e _ => inferInstanceAs (Decidable (-52 ≤ e))
  | .zero _ | .infinity _ | .notANumber => .isFalse id

theorem InRange.mono {e e' : Int} {u : UnpackedFloat} (h : InRange e u) (he : e ≤ e') :
    InRange e' u := by
  cases u with
  | zero => trivial
  | finite s m d hm =>
    obtain ⟨hd, hlog⟩ := h
    constructor <;> omega
  | infinity => exact h
  | notANumber => exact h

theorem InRange.isFinite {e : Int} {u : UnpackedFloat} (h : InRange e u) : u.isFinite := by
  cases u with
  | zero => rfl
  | finite => rfl
  | infinity => exact h.elim
  | notANumber => exact h.elim

theorem log2_le_of_lt_two_pow {n k : Nat} (h : n < 2 ^ (k + 1)) : n.log2 ≤ k := by
  by_cases hn : n = 0
  · simp [hn]
  · have := (Nat.log2_lt hn).mpr h
    omega

theorem log2_mono {m n : Nat} (h : m ≤ n) : m.log2 ≤ n.log2 :=
  log2_le_of_lt_two_pow (lt_of_le_of_lt h Nat.lt_log2_self)

/-! ## Rounding -/

theorem mantissa_shiftRight (em : ExtendedMantissa) (k : Nat) :
    (em >>> k).mantissa = em.mantissa / 2 ^ k := by
  induction k generalizing em with
  | zero => simp [HShiftRight.hShiftRight, Nat.repeat]
  | succ k ih =>
    change (em >>> k).mantissa / 2 = _
    rw [ih, Nat.div_div_eq_div_mul, Nat.pow_succ]

theorem mantissa_ofMantissaAndAccuracy (m : Nat) (accuracy : Accuracy) :
    (ExtendedMantissa.ofMantissaAndAccuracy m accuracy).mantissa = m := by
  cases accuracy with
  | exact => rfl
  | inexact o => cases o <;> rfl

theorem roundedMantissa_bounds (em : ExtendedMantissa) :
    em.mantissa ≤ em.roundedMantissa ∧ em.roundedMantissa ≤ em.mantissa + 1 := by
  rcases em with ⟨m, r, s⟩
  cases r <;> cases s <;>
    simp [ExtendedMantissa.roundedMantissa, ExtendedMantissa.accuracy,
      Accuracy.roundToNearestEven]
  omega

theorem targetExponent_eq (m : Nat) (e : Int) :
    Format.binary64.targetExponent (totalExponent m e) = max (m.log2 + e - 52) (-1074) := by
  change max ((m.log2 : Int) + 1 + e - (53 : Nat)) (-1074) = _
  omega

/-- Where the mantissa and the exponent end up when they are brought to the target exponent. -/
theorem shiftToTargetExponent_spec (m : Nat) (e : Int) (accuracy : Accuracy) :
    ∃ k : Nat, (shiftToTargetExponent Format.binary64 m e accuracy).1.mantissa = m / 2 ^ k ∧
      (shiftToTargetExponent Format.binary64 m e accuracy).2 = e + k ∧
      m.log2 ≤ 52 + k ∧ e + k = max e (max (m.log2 + e - 52) (-1074)) := by
  refine ⟨(Format.binary64.targetExponent (totalExponent m e) - e).toNat, ?_, rfl, ?_, ?_⟩
  · rw [shiftToTargetExponent, shiftToExponent, mantissa_shiftRight, mantissa_ofMantissaAndAccuracy]
  · rw [targetExponent_eq]
    omega
  · rw [targetExponent_eq]
    omega

theorem div_two_pow_lt {m k : Nat} (h : m.log2 ≤ 52 + k) : m / 2 ^ k < 2 ^ 53 := by
  rw [Nat.div_lt_iff_lt_mul (Nat.two_pow_pos k), ← Nat.pow_add]
  exact lt_of_lt_of_le Nat.lt_log2_self (Nat.pow_le_pow_right (by decide) (by omega))

/-- Rounding carries at most once. -/
theorem inRange_roundWithAccuracy (s : Sign) (m : Nat) (e : Int) (accuracy : Accuracy) :
    InRange (max e (max (m.log2 + e - 52) (-1074)) + 1)
      (roundWithAccuracy Format.binary64 s m e accuracy) := by
  obtain ⟨k, hm, he, hlog, hk⟩ := shiftToTargetExponent_spec m e accuracy
  rw [roundWithAccuracy]
  generalize shiftToTargetExponent Format.binary64 m e accuracy = first at hm he
  obtain ⟨em, e₁⟩ := first
  dsimp only at hm he ⊢
  have hround : em.roundedMantissa ≤ 2 ^ 53 := by
    have := (roundedMantissa_bounds em).2
    have := div_two_pow_lt hlog
    omega
  -- Rounding up may take a 54th bit, and then the mantissa is shifted once more.
  have hcarry : em.roundedMantissa.log2 ≤ 53 := log2_le_of_lt_two_pow (by omega)
  obtain ⟨k', hm', he', hlog', hk'⟩ :=
    shiftToTargetExponent_spec em.roundedMantissa e₁ Accuracy.exact
  generalize shiftToTargetExponent Format.binary64 em.roundedMantissa e₁ Accuracy.exact = second
    at hm' he'
  obtain ⟨em', e₂⟩ := second
  dsimp only at hm' he' ⊢
  have hfinal : em'.mantissa.log2 ≤ 52 := by
    rw [hm']
    exact log2_le_of_lt_two_pow (div_two_pow_lt hlog')
  by_cases hzero : em'.mantissa = 0
  · rw [dif_pos hzero]
    trivial
  · rw [dif_neg hzero]
    constructor <;> omega

/-- What an operation on two finite numbers rounds is itself bounded. -/
theorem inRange_of_round {s : Sign} {m : Nat} {e b : Int} {accuracy : Accuracy}
    (he : e ≤ b) (hm : m.log2 + e ≤ b + 52) (hb : -1074 ≤ b) :
    InRange (b + 1) (roundWithAccuracy Format.binary64 s m e accuracy) :=
  (inRange_roundWithAccuracy s m e accuracy).mono (by omega)

/-! ## Packing -/

section Bits

variable {b : BitVec Format.binary64.numBits}

/-- The exponent of all ones is that of infinities and of values that are no numbers. -/
theorem isFinite_unpack_of_ones (h : unpackExponent b = -1#11) :
    (UnpackedFloat.unpack Format.binary64 b).isFinite = false := by
  delta UnpackedFloat.unpack
  dsimp only
  rw [if_pos h]
  by_cases hm : unpackMantissa b = 0#52
  · rw [if_pos hm]
    rfl
  · rw [if_neg hm]
    rfl

/-- The exponent of all zeros is that of zero and of the subnormal numbers. -/
theorem inRange_unpack_of_zeros (h : unpackExponent b = 0#11) :
    InRange (-1074) (UnpackedFloat.unpack Format.binary64 b) := by
  have hexp : ((unpackExponent b).toNat : Int) - 1075 + 1 = -1074 := by
    rw [h]
    rfl
  have hlog := log2_le_of_lt_two_pow (k := 51) (unpackMantissa b).isLt
  delta UnpackedFloat.unpack
  dsimp only
  rw [if_neg (by rw [h]; decide), if_pos h]
  by_cases hm : unpackMantissa b = 0#52
  · rw [dif_pos hm]
    trivial
  · rw [dif_neg hm]
    change ((unpackExponent b).toNat : Int) - 1075 + 1 ≤ -1074 ∧ _ + (_ - 1075 + 1) ≤ _
    constructor <;> omega

theorem unpack_normal (hones : unpackExponent b ≠ -1#11) (hzeros : unpackExponent b ≠ 0#11) :
    ∃ s hm, UnpackedFloat.unpack Format.binary64 b =
      .finite s (1#1 ++ unpackMantissa b).toNat ((unpackExponent b).toNat - 1075) hm := by
  delta UnpackedFloat.unpack
  dsimp only
  rw [if_neg hones, if_neg hzeros]
  exact ⟨_, _, rfl⟩

/-- The bits of a finite double bound its exponent. -/
theorem inRange_unpack (h : unpackExponent b ≠ -1#11) :
    InRange (max ((unpackExponent b).toNat - 1075) (-1074))
      (UnpackedFloat.unpack Format.binary64 b) := by
  by_cases hzeros : unpackExponent b = 0#11
  · exact (inRange_unpack_of_zeros hzeros).mono (le_max_right _ _)
  · obtain ⟨s, hm, heq⟩ := unpack_normal h hzeros
    have hlog := log2_le_of_lt_two_pow (k := 52) (1#1 ++ unpackMantissa b).isLt
    rw [heq]
    constructor <;> omega

end Bits

/-- A finite number is packed as it is, as a subnormal one, or as an infinity. -/
theorem pack_finite (s : Sign) (m : Nat) (e : Int) (hm : 0 < m) :
    UnpackedFloat.pack Format.binary64 (.finite s m e hm) =
      if 2048 ≤ (e + 1075).toNat + 1 then packedInfinity Format.binary64 s
      else packComponents Format.binary64 s
        (if m.log2 + 1 = 53 then BitVec.ofNat 11 (e + 1075).toNat else 0#11) (BitVec.ofNat 52 m) := by
  have hbias : e + 1023 + 52 = e + 1075 := by omega
  rw [← hbias, apply_ite (fun x => packComponents Format.binary64 s x (BitVec.ofNat 52 m))]
  rfl

/-- The largest exponent of a finite double is 971. -/
theorem inRange_pack_finite {s : Sign} {m : Nat} {d e : Int} {hm : 0 < m} (hd : d ≤ e)
    (hlow : -1074 ≤ e) (hhigh : e ≤ 971) :
    InRange e (Float.Model.pack (.finite s m d hm)).unpack := by
  change InRange e (UnpackedFloat.unpack Format.binary64 (UnpackedFloat.pack Format.binary64 _))
  rw [pack_finite, if_neg (by omega)]
  generalize hx : (if m.log2 + 1 = 53 then BitVec.ofNat 11 (d + 1075).toNat else 0#11) = x
  have hexp : (x.toNat : Int) ≤ max (d + 1075) 0 := by
    rw [← hx]
    split
    · rw [BitVec.toNat_ofNat, Nat.mod_eq_of_lt (by omega)]
      omega
    · simp
  have hfinite : x ≠ -1#11 := by
    intro hinf
    rw [hinf] at hexp
    have : (-1#11).toNat = 2047 := rfl
    omega
  have hbits := inRange_unpack (b := packComponents Format.binary64 s x (BitVec.ofNat 52 m))
    (by rwa [unpackExponent_packComponents])
  rw [unpackExponent_packComponents] at hbits
  exact hbits.mono (by omega)

theorem inRange_pack {u : UnpackedFloat} {e : Int} (h : InRange e u) (hlow : -1074 ≤ e)
    (hhigh : e ≤ 971) : InRange e (Float.Model.pack u).unpack := by
  cases u with
  | infinity => exact h.elim
  | notANumber => exact h.elim
  | zero s => cases s <;> trivial
  | finite => exact inRange_pack_finite h.1 hlow hhigh

/-- Packing a finite number overflows or leaves it finite. -/
theorem isFinite_pack {u : UnpackedFloat} (hu : u.isFinite = true)
    (hinf : (Float.Model.pack u).unpack.isInf = false) :
    (Float.Model.pack u).unpack.isFinite = true := by
  cases u with
  | infinity => cases hu
  | notANumber => cases hu
  | zero s => cases s <;> rfl
  | finite s m d hm =>
    by_cases hd : d ≤ 971
    · exact (inRange_pack_finite (e := max d (-1074)) (by omega) (by omega) (by omega)).isFinite
    · change (UnpackedFloat.unpack Format.binary64 (UnpackedFloat.pack Format.binary64 _)).isInf = false
        at hinf
      rw [pack_finite, if_pos (by omega)] at hinf
      cases s <;> cases hinf

/-! ## Operations on doubles -/

/-- A finite double below `2 ^ (e + 53)`. -/
def Bounded (e : Int) (x : Float) : Prop := InRange e x.toModel.unpack

theorem Bounded.isInf {e : Int} {x : Float} (h : Bounded e x) : x.isInf = false := by
  rw [Bounded] at h
  change x.toModel.unpack.isInf = false
  generalize x.toModel.unpack = u at h
  cases u with
  | zero | finite => rfl
  | infinity | notANumber => exact h.elim

/-- A finite double whose last place is at least `2 ^ -52`. -/
structure Ample (x : Float) : Prop where
  unpacked : Sizeable x.toModel.unpack

theorem Bounded.isFinite {e : Int} {x : Float} (h : Bounded e x) : x.isFinite = true :=
  InRange.isFinite h

theorem Ample.isFinite {x : Float} (h : Ample x) : x.isFinite = true := by
  have h := h.unpacked
  change x.toModel.unpack.isFinite = true
  generalize x.toModel.unpack = u at h
  cases u with
  | finite => rfl
  | zero | infinity | notANumber => exact h.elim

theorem log2_mul_le (m n : Nat) : (m * n).log2 ≤ m.log2 + n.log2 + 1 := by
  apply log2_le_of_lt_two_pow
  calc m * n < 2 ^ (m.log2 + 1) * 2 ^ (n.log2 + 1) :=
        Nat.mul_lt_mul'' Nat.lt_log2_self Nat.lt_log2_self
    _ = 2 ^ (m.log2 + n.log2 + 1 + 1) := by rw [← Nat.pow_add]; congr 1; omega

theorem log2_shiftLeft_le (m k : Nat) : (m <<< k).log2 ≤ m.log2 + k := by
  apply log2_le_of_lt_two_pow
  rw [Nat.shiftLeft_eq]
  calc m * 2 ^ k < 2 ^ (m.log2 + 1) * 2 ^ k :=
        Nat.mul_lt_mul_of_pos_right Nat.lt_log2_self (Nat.two_pow_pos k)
    _ = 2 ^ (m.log2 + k + 1) := by rw [← Nat.pow_add]; congr 1; omega

/-- The exponents of two factors add up, and the product takes at most 54 more places. -/
theorem inRange_mul {u v : UnpackedFloat} {a b : Int} (hu : InRange a u) (hv : InRange b v)
    (hlow : -1127 ≤ a + b) : InRange (a + b + 54) (UnpackedFloat.mul Format.binary64 u v) := by
  cases u with
  | infinity => exact hu.elim
  | notANumber => exact hu.elim
  | zero s => cases v with
    | infinity => exact hv.elim
    | notANumber => exact hv.elim
    | zero | finite => trivial
  | finite s m d hm => cases v with
    | infinity => exact hv.elim
    | notANumber => exact hv.elim
    | zero => trivial
    | finite s' m' d' hm' =>
      obtain ⟨hd, hlog⟩ := hu
      obtain ⟨hd', hlog'⟩ := hv
      have hmul := log2_mul_le m m'
      exact (inRange_of_round (b := a + b + 53) (by omega) (by omega) (by omega)).mono (by omega)

/-- Dividing by a number that is not small keeps a number in range. -/
theorem inRange_div {u v : UnpackedFloat} {a : Int} (hu : InRange a u) (hv : Sizeable v)
    (hlow : -1074 ≤ a) : InRange (a + 53) (UnpackedFloat.div Format.binary64 u v) := by
  cases v with
  | infinity => exact hv.elim
  | notANumber => exact hv.elim
  | zero => exact hv.elim
  | finite s m d hm => cases u with
    | infinity => exact hu.elim
    | notANumber => exact hu.elim
    | zero => trivial
    | finite s' m' d' hm' =>
      have hd : -52 ≤ d := hv
      obtain ⟨hd', hlog⟩ := hu
      delta UnpackedFloat.div divCore
      dsimp only
      -- The quotient is at most the dividend as it was shifted, whatever the target exponent.
      generalize Format.binary64.targetExponent (totalExponent m' d' - totalExponent m d) = t
      have hquot := log2_mono (Nat.div_le_self (m' <<< (d' - d - min (d' - d) t).toNat) m)
      have hshift := log2_shiftLeft_le m' (d' - d - min (d' - d) t).toNat
      exact (inRange_of_round (b := a + 52) (by omega) (by omega) (by omega)).mono (by omega)

theorem Bounded.mul {a b : Int} {x y : Float} (hx : Bounded a x) (hy : Bounded b y)
    (hlow : -1127 ≤ a + b) (hhigh : a + b ≤ 917) : Bounded (a + b + 54) (x * y) :=
  inRange_pack (inRange_mul hx hy hlow) (by omega) (by omega)

theorem Bounded.div {e : Int} {x y : Float} (hx : Bounded e x) (hy : Ample y)
    (hlow : -1074 ≤ e) (hhigh : e ≤ 918) : Bounded (e + 53) (x / y) :=
  inRange_pack (inRange_div hx hy.unpacked hlow) (by omega) (by omega)

theorem Bounded.neg {e : Int} {x : Float} (hx : Bounded e x) (hlow : -1074 ≤ e) (hhigh : e ≤ 971) :
    Bounded e (-x) := by
  have hneg : InRange e x.toModel.unpack.neg := by
    rw [Bounded] at hx
    generalize x.toModel.unpack = u at hx
    cases u <;> exact hx
  exact inRange_pack hneg hlow hhigh

/-- Every finite double is bounded. -/
theorem bounded_of_isFinite {x : Float} (h : x.isFinite = true) : Bounded 971 x := by
  have hones : @unpackExponent Format.binary64 x.toModel.toBits.toBitVec ≠ -1#11 := by
    intro hones
    exact absurd (h.symm.trans (isFinite_unpack_of_ones hones)) (by decide)
  have hlt : (@unpackExponent Format.binary64 x.toModel.toBits.toBitVec).toNat ≤ 2046 := by
    generalize @unpackExponent Format.binary64 x.toModel.toBits.toBitVec = y at hones ⊢
    have hy : y.toNat < 2048 := y.isLt
    have : y.toNat ≠ 2047 := fun hy => hones (BitVec.eq_of_toNat_eq hy)
    omega
  exact (inRange_unpack hones).mono (by omega)

/-- A product of finite doubles is finite unless it overflows. -/
theorem isFinite_mul {x y : Float} (hx : x.isFinite = true) (hy : y.isFinite = true)
    (hinf : (x * y).isInf = false) : (x * y).isFinite = true :=
  isFinite_pack (inRange_mul (bounded_of_isFinite hx) (bounded_of_isFinite hy) (by decide)).isFinite hinf

/-- A number of 64 bits is rounded to a double in range. -/
theorem inRange_round (s : Sign) {m : Nat} (h : m < 2 ^ 64) :
    InRange 12 (UnpackedFloat.round Format.binary64 s m 0) := by
  have hlog : m.log2 ≤ 63 := log2_le_of_lt_two_pow h
  rw [UnpackedFloat.round, decreaseExponent]
  dsimp only
  generalize Format.binary64.targetExponent (totalExponent m 0) = t
  have hshift := log2_shiftLeft_le m (0 - t).toNat
  exact (inRange_of_round (b := 11) (by omega) (by omega) (by omega)).mono (by omega)

/-- A number of 64 bits becomes a finite double. -/
theorem bounded_toFloat (n : UInt64) : Bounded 12 n.toFloat := by
  refine inRange_pack ?_ (by decide) (by decide)
  rw [UnpackedFloat.ofUInt64, UnpackedFloat.ofNat, UnpackedFloat.ofInt, UnpackedFloat.normalize]
  split
  next hneg =>
    have := Int.compare_eq_lt.mp hneg
    omega
  next => trivial
  next => exact inRange_round _ n.toNat_lt

theorem ofScientific_eq {m : Nat} (hm : m ≠ 0) {n : Nat} (hn : n ≤ 2048) :
    UnpackedFloat.ofScientific Format.binary64 m n =
      roundWithAccuracy Format.binary64 .positive (m <<< 53 * 10 ^ n) (-53) .exact := by
  have hbits : (2 : Int) ^ Format.binary64.exponentBits = 2048 := rfl
  rw [UnpackedFloat.ofScientific, dif_neg hm, hbits, if_neg (by omega), if_neg (by omega),
    if_pos (by omega)]
  rfl

/-- Natural numbers below 64 bits are bounded, whichever way they are converted. -/
theorem bounded_ofNat {n : Nat} (h : n < 2 ^ 64) : Bounded 66 (Float.ofNat n) := by
  change Bounded 66 (Float.ofScientific n false 0)
  rw [Float.ofScientific]
  split
  · -- up to 53 bits: converted exactly, then multiplied by the power zero
    have hone : InRange 0 (Float.exactlyRepresentablePowersOfTen[0]).toModel.unpack := by
      decide +kernel
    exact (bounded_toFloat _).mul hone (by decide) (by decide)
  next hlarge =>
    -- beyond them: rounded from the decimal
    have hn : n ≠ 0 := by
      intro hn
      exact hlarge ⟨by omega, by decide⟩
    have hlog : n.log2 ≤ 63 := log2_le_of_lt_two_pow h
    have hshift := log2_shiftLeft_le n 53
    simp only [Bool.false_eq_true, if_false]
    refine inRange_pack ?_ (by decide) (by decide)
    change InRange 66 (UnpackedFloat.ofScientific Format.binary64 n (0 : Nat))
    rw [ofScientific_eq hn (by decide), Nat.pow_zero, Nat.mul_one]
    generalize n <<< 53 = m at hshift ⊢
    exact (inRange_roundWithAccuracy .positive m (-53) .exact).mono (by omega)

/-! ## Powers of ten -/

/-- A mantissa of at least 53 bits is cut to 53 of them. -/
theorem shiftToTargetExponent_normal {m : Nat} {e : Int} (accuracy : Accuracy) (hm : 52 ≤ m.log2)
    (he : -1074 ≤ e) :
    (shiftToTargetExponent Format.binary64 m e accuracy).1.mantissa.log2 = 52 ∧
      m.log2 + e - 52 ≤ (shiftToTargetExponent Format.binary64 m e accuracy).2 := by
  obtain ⟨k, hmant, hexp, hlog, hk⟩ := shiftToTargetExponent_spec m e accuracy
  have hk : m.log2 = 52 + k := by omega
  have hpos : m ≠ 0 := by
    intro hzero
    simp [hzero] at hm
  have hle : 2 ^ 52 ≤ m / 2 ^ k := by
    rw [Nat.le_div_iff_mul_le (Nat.two_pow_pos k), ← Nat.pow_add, ← hk]
    exact Nat.log2_self_le hpos
  refine ⟨?_, by omega⟩
  rw [hmant, Nat.log2_eq_iff (by omega)]
  exact ⟨hle, div_two_pow_lt hlog⟩

/-- A number with enough digits is rounded to a normal double. -/
theorem roundWithAccuracy_normal (s : Sign) {m : Nat} {e : Int} (accuracy : Accuracy)
    (hm : 52 ≤ m.log2) (he : -1074 ≤ e) :
    ∃ m' e' hm', roundWithAccuracy Format.binary64 s m e accuracy = .finite s m' e' hm' ∧
      m'.log2 = 52 ∧ m.log2 + e - 52 ≤ e' := by
  obtain ⟨hlog, he₁⟩ := shiftToTargetExponent_normal accuracy hm he
  rw [roundWithAccuracy]
  generalize shiftToTargetExponent Format.binary64 m e accuracy = first at hlog he₁
  obtain ⟨em, e₁⟩ := first
  dsimp only at hlog he₁ ⊢
  have hround : 52 ≤ em.roundedMantissa.log2 := by
    rw [← hlog]
    exact log2_mono (roundedMantissa_bounds em).1
  obtain ⟨hlog', he₂⟩ := shiftToTargetExponent_normal Accuracy.exact (e := e₁) hround (by omega)
  have hpos : (shiftToTargetExponent Format.binary64 em.roundedMantissa e₁ .exact).1.mantissa ≠ 0 := by
    intro hzero
    simp [hzero] at hlog'
  rw [dif_neg hpos]
  exact ⟨_, _, _, rfl, hlog', by omega⟩

/-- A normal double keeps its exponent in the bits. -/
theorem sizeable_pack {s : Sign} {m : Nat} {e : Int} {hm : 0 < m} (hlog : m.log2 = 52)
    (hlow : -52 ≤ e) (hhigh : e ≤ 971) :
    Sizeable (Float.Model.pack (.finite s m e hm)).unpack := by
  have hexp : (BitVec.ofNat 11 (e + 1075).toNat).toNat = (e + 1075).toNat := by
    rw [BitVec.toNat_ofNat, Nat.mod_eq_of_lt (by omega)]
  change Sizeable (UnpackedFloat.unpack Format.binary64 (UnpackedFloat.pack Format.binary64 _))
  rw [pack_finite, if_neg (by omega), if_pos (by omega)]
  generalize hb : packComponents Format.binary64 s (BitVec.ofNat 11 (e + 1075).toNat)
    (BitVec.ofNat 52 m) = b
  have hbits : (unpackExponent b).toNat = (e + 1075).toNat := by
    rw [← hb, unpackExponent_packComponents]
    exact hexp
  have hones : unpackExponent b ≠ -1#11 := by
    intro hones
    rw [hones] at hbits
    change 2047 = _ at hbits
    omega
  have hzeros : unpackExponent b ≠ 0#11 := by
    intro hzeros
    rw [hzeros] at hbits
    change 0 = _ at hbits
    omega
  obtain ⟨s', hm', heq⟩ := unpack_normal hones hzeros
  rw [heq]
  change -52 ≤ ((unpackExponent b).toNat : Int) - 1075
  omega

/-- The powers of ten up to the largest one are finite, and not near zero. -/
theorem ample_powerOfTen {n : Nat} (h : n ≤ 308) : Ample (Numeral.powerOfTen n) := by
  -- Small powers are exact, and the last one is so near the end of the range that the bound on
  -- rounding does not settle it; both are looked up.
  have hexact : ∀ k < 23, Sizeable (Numeral.powerOfTen k).toModel.unpack := by decide +kernel
  have hlast : Ample (Numeral.powerOfTen 308) := ⟨by decide +kernel⟩
  by_cases hsmall : n < 23
  · exact ⟨hexact n hsmall⟩
  by_cases hend : n = 308
  · exact hend ▸ hlast
  have hlow : 53 ≤ (1 <<< 53 * 10 ^ n).log2 := by
    have hone : 1 <<< 53 ≤ 1 <<< 53 * 10 ^ n := Nat.le_mul_of_pos_right _ (Nat.pow_pos (by decide))
    exact le_trans (by decide) (log2_mono hone)
  have hhigh : (1 <<< 53 * 10 ^ n).log2 ≤ 1073 := by
    have hten : 10 ^ n ≤ 10 ^ 200 * 10 ^ 107 :=
      (Nat.pow_le_pow_right (by decide) (by omega)).trans_eq (Nat.pow_add 10 200 107)
    exact le_trans (log2_mono (Nat.mul_le_mul_left _ hten)) (by decide +kernel)
  obtain ⟨m, e, hm, hround, hlog, he⟩ :=
    roundWithAccuracy_normal .positive .exact (m := 1 <<< 53 * 10 ^ n) (e := -53) (by omega) (by decide)
  have hinRange := inRange_roundWithAccuracy .positive (1 <<< 53 * 10 ^ n) (-53) .exact
  rw [hround] at hinRange
  constructor
  rw [Numeral.powerOfTen, Float.ofScientific, dif_neg (by omega)]
  change Sizeable (Float.Model.pack (UnpackedFloat.ofScientific Format.binary64 1 n)).unpack
  rw [ofScientific_eq (by decide) (by omega), hround]
  have := hinRange.1
  exact sizeable_pack hlog (by omega) (by omega)

/-! ## Reading numerals -/

namespace Numeral

/-- Scaling a bounded double gives a finite one, or is refused. -/
theorem isFinite_of_scale? {x y : Float} {exponent : Int} (hx : Bounded 66 x)
    (h : scale? x exponent = some y) : y.isFinite = true := by
  rw [scale?] at h
  split at h
  · cases h
    exact hx.isFinite
  split at h
  · cases h
  split at h
  next hhigh hpos =>
    have hpower := (ample_powerOfTen (n := exponent.toNat) (by omega)).isFinite
    dsimp only at h
    split at h
    · cases h
    next hinf =>
      cases h
      exact isFinite_mul hx.isFinite hpower (by simpa using hinf)
  split at h
  next hlow =>
    cases h
    exact (hx.div (ample_powerOfTen (by omega)) (by decide) (by decide)).isFinite
  split at h
  next hlow =>
    cases h
    -- each of the two divisions costs the bound 53 places
    have hfirst := hx.div (ample_powerOfTen (n := 308) (by decide)) (by decide) (by decide)
    exact (hfirst.div (ample_powerOfTen (by omega)) (by decide) (by decide)).isFinite
  · cases h
    rfl

/-- Scaling by nothing is never refused. -/
theorem scale?_zero_isSome {x : Float} (hx : Bounded 66 x) : (scale? x 0).isSome = true := by
  have hone : InRange 0 (powerOfTen 0).toModel.unpack := by decide +kernel
  have hprod : (x * powerOfTen 0).isInf = false := (hx.mul hone (by decide) (by decide)).isInf
  rw [scale?]
  split
  · rfl
  · rw [if_neg (by decide), if_pos (by decide)]
    dsimp only
    rw [Int.toNat_zero, hprod]
    rfl

/-- A digit is dropped if it would not fit into 64 bits. -/
theorem Significand.push_value_lt {s : Significand} (h : s.value < UInt64.size) (c : Char)
    (ifKept ifDropped : Int) : (s.push c ifKept ifDropped).value < UInt64.size := by
  rw [push]
  split
  · exact h
  next hfits =>
    simp only [Bool.or_eq_true, decide_eq_true_eq, not_or, not_le] at hfits
    exact hfits.2

/-- The digits that are kept make a number of 64 bits. -/
theorem Significand.ofParts_value_lt (whole fraction : List Char) :
    (ofParts whole fraction).value < UInt64.size := by
  have hfold : ∀ (digits : List Char) (s : Significand) (ifKept ifDropped : Int),
      s.value < UInt64.size →
        (digits.foldl (fun s c => push s c ifKept ifDropped) s).value < UInt64.size := by
    intro digits s ifKept ifDropped hs
    induction digits generalizing s with
    | nil => exact hs
    | cons c digits ih => exact ih _ (push_value_lt hs c ifKept ifDropped)
  exact hfold fraction _ (-1) 0 (hfold whole {} 0 1 (by decide))

theorem le_foldl_digits (digits : List Char) (v : Nat) :
    v ≤ digits.foldl (fun n c => 10 * n + (c.toNat - '0'.toNat)) v := by
  induction digits generalizing v with
  | nil => exact le_refl v
  | cons c digits ih =>
    have hv : v ≤ 10 * v + (c.toNat - '0'.toNat) := by omega
    exact hv.trans (ih _)

/-- While the digits fit, reading them keeps all of them. -/
theorem foldl_push (digits : List Char) (v : Nat)
    (h : digits.foldl (fun n c => 10 * n + (c.toNat - '0'.toNat)) v < UInt64.size) :
    digits.foldl (fun s c => Significand.push s c 0 1) ⟨v, 0, false⟩ =
      ⟨digits.foldl (fun n c => 10 * n + (c.toNat - '0'.toNat)) v, 0, false⟩ := by
  induction digits generalizing v with
  | nil => rfl
  | cons c digits ih =>
    have hfits := lt_of_le_of_lt (le_foldl_digits digits _) h
    have hpush : Significand.push ⟨v, 0, false⟩ c 0 1 =
        ⟨10 * v + (c.toNat - '0'.toNat), 0, false⟩ := by
      rw [Significand.push]
      dsimp only
      rw [if_neg (by simpa using hfits)]
      rfl
    rw [List.foldl_cons, List.foldl_cons, hpush]
    exact ih _ h

/-- A whole number below 64 bits is in the range of doubles. -/
theorem toFloat?_isSome_of_whole {n : Numeral} (hwhole : n.isWhole = true)
    (h : valueOf n.whole < UInt64.size) : n.toFloat?.isSome = true := by
  obtain ⟨negative, whole, fraction, exponent⟩ := n
  simp only [isWhole, Bool.and_eq_true, List.isEmpty_iff, Option.isNone_iff_eq_none] at hwhole
  obtain ⟨rfl, rfl⟩ := hwhole
  have hparts : Significand.ofParts whole [] = ⟨valueOf whole, 0, false⟩ := by
    rw [Significand.ofParts, foldl_push whole 0 h]
    rfl
  rw [toFloat?]
  dsimp only
  rw [hparts, Option.isSome_map]
  exact scale?_zero_isSome (bounded_ofNat h)

/-- No numeral is read as an infinity or as not a number. -/
theorem isFinite_of_toFloat? {n : Numeral} {x : Float} (h : n.toFloat? = some x) :
    x.isFinite = true := by
  rw [toFloat?, Option.map_eq_some_iff] at h
  obtain ⟨y, hscale, rfl⟩ := h
  have hy := isFinite_of_scale? (bounded_ofNat (Significand.ofParts_value_lt _ _)) hscale
  split
  · exact ((bounded_of_isFinite hy).neg (by decide) (by decide)).isFinite
  · exact hy

end Numeral

end Multistage
