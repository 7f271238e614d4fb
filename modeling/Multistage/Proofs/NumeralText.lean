import Multistage.Json.Printer
import Multistage.Json.Token
import Multistage.Proofs.Doubles

/-!
# Numbers are read as they are written

A numeral is `Spelled` if its characters form a number: digits only, at least one before the point,
and no zero in front of another digit. The numerals of whole numbers and of doubles are, and a
spelled numeral in the range of doubles is read back from its characters.

Main results:

* `numeral?_numeralChars`: reading undoes writing;
* `ofInt_spelled`, `toInt?_ofInt`: whole numbers;
* `ofFloat_spelled`: doubles, where the point is that a shortest decimal is never zero.
-/

namespace Multistage

/-! ## Runs of characters -/

/-- No character that satisfies `p` comes first. -/
def Stops (p : Char → Bool) (cs : List Char) : Prop := ∀ c ∈ cs.head?, p c = false

section Runs

variable {p : Char → Bool} {run rest : List Char}

@[simp] theorem stops_nil : Stops p [] := by
  intro c hc
  cases hc

@[simp] theorem stops_cons {c : Char} : Stops p (c :: rest) ↔ p c = false := by
  simp [Stops]

theorem takeWhile_run (hrun : ∀ c ∈ run, p c = true) (hrest : Stops p rest) :
    (run ++ rest).takeWhile p = run := by
  rw [List.takeWhile_append_of_pos hrun]
  cases rest with
  | nil => simp
  | cons c rest =>
    rw [List.takeWhile_cons_of_neg (by simp [stops_cons.mp hrest]), List.append_nil]

theorem dropWhile_run (hrun : ∀ c ∈ run, p c = true) (hrest : Stops p rest) :
    (run ++ rest).dropWhile p = rest := by
  rw [List.dropWhile_append_of_pos hrun]
  cases rest with
  | nil => rfl
  | cons c rest => rw [List.dropWhile_cons_of_neg (by simp [stops_cons.mp hrest])]

end Runs

namespace Numeral

/-! ## Digits -/

theorem isDigit_of_mem_digitsOf {n : Nat} {c : Char} (h : c ∈ digitsOf n) : c.isDigit = true :=
  Nat.isDigit_of_mem_toDigits (by decide) (by decide) h

theorem digitsOf_ne_nil (n : Nat) : digitsOf n ≠ [] := Nat.toDigits_ne_nil

@[simp] theorem valueOf_digitsOf (n : Nat) : valueOf (digitsOf n) = n := by
  rw [valueOf, digitsOf, ← Nat.ofDigitChars_eq_foldl]
  exact Nat.ofDigitChars_ten_toDigits

/-- Only zero starts with the digit zero. -/
theorem head?_digitsOf {n : Nat} (h : n ≠ 0) : (digitsOf n).head? ≠ some '0' := by
  induction n using Nat.strongRecOn with
  | ind n ih =>
    by_cases hn : n < 10
    · rw [digitsOf, Nat.toDigits_of_lt_base hn]
      simpa [Nat.digitChar_eq_zero] using h
    · have hhead := ih (n / 10) (by omega) (by omega)
      rw [digitsOf, Nat.toDigits_of_base_le (by decide) (by omega), List.head?_append]
      cases hd : (digitsOf (n / 10)).head? with
      | none => exact absurd (List.head?_eq_none_iff.mp hd) (digitsOf_ne_nil _)
      | some c =>
        rw [hd] at hhead
        rw [digitsOf] at hd
        rw [hd]
        exact hhead

/-! ## Reading what is written -/

/-- The characters of the numeral form a number. -/
structure Spelled (n : Numeral) : Prop where
  nonempty : n.whole ≠ []
  whole : ∀ c ∈ n.whole, c.isDigit = true
  leading : n.whole.head? = some '0' → n.whole = ['0']
  fraction : ∀ c ∈ n.fraction, c.isDigit = true

end Numeral

namespace Json

open Numeral

theorem takeDigits?_run {digits rest : List Char} (hne : digits ≠ [])
    (hdigits : ∀ c ∈ digits, c.isDigit = true) (hrest : Stops Char.isDigit rest) :
    takeDigits? (digits ++ rest) = some (digits, rest) := by
  rw [takeDigits?, takeWhile_run hdigits hrest, dropWhile_run hdigits hrest]
  split
  · contradiction
  · rfl

/-- Digits without a leading zero are taken as the whole part, up to the first character that is none. -/
theorem takeWhole?_run {digits rest : List Char} (hne : digits ≠ [])
    (hdigits : ∀ c ∈ digits, c.isDigit = true) (hleading : digits.head? = some '0' → digits = ['0'])
    (hrest : Stops Char.isDigit rest) : takeWhole? (digits ++ rest) = some (digits, rest) := by
  rw [takeWhole?, takeWhile_run hdigits hrest, dropWhile_run hdigits hrest]
  split
  · contradiction
  · simp at hleading
  · rfl

/-- A written exponent is read back. -/
theorem exponent?_exponentChars (e : Int) : exponent? (exponentChars true e) = some (some e) := by
  have hdigits : ∀ n, takeDigits? (digitsOf n) = some (digitsOf n, []) := by
    intro n
    have hrun : takeDigits? (digitsOf n ++ []) = some (digitsOf n, []) :=
      takeDigits?_run (digitsOf_ne_nil n) (fun _ => isDigit_of_mem_digitsOf) stops_nil
    rwa [List.append_nil] at hrun
  by_cases he : e < 0
  · simp [exponentChars, he, exponent?, hdigits, abs_of_neg he]
  · simp [exponentChars, he, exponent?, hdigits, abs_of_nonneg (not_lt.mp he)]

theorem exponent?_getD (e : Option Int) :
    exponent? ((e.map (exponentChars true)).getD []) = some e := by
  cases e with
  | none => rfl
  | some e => exact exponent?_exponentChars e

theorem stops_exponent {p : Char → Bool} (h : p 'e' = false) (e : Option Int) :
    Stops p ((e.map (exponentChars true)).getD []) := by
  cases e with
  | none => exact stops_nil
  | some e => exact stops_cons.mpr h

/-- Digits have no sign before them. -/
theorem takeSign_of_digits {digits rest : List Char} (hne : digits ≠ [])
    (hdigits : ∀ c ∈ digits, c.isDigit = true) : takeSign (digits ++ rest) = (false, digits ++ rest) := by
  cases digits with
  | nil => contradiction
  | cons c digits =>
    have hc := hdigits c (by simp)
    rw [takeSign]
    intro cs heq
    rw [(List.cons.inj heq).1] at hc
    cases hc

/-- The characters between the whole part and the exponent. -/
theorem takeFraction?_run {fraction rest : List Char}
    (hfraction : ∀ c ∈ fraction, c.isDigit = true) (hrest : Stops Char.isDigit rest)
    (hpoint : Stops (· = '.') rest) :
    takeFraction? ((if fraction.isEmpty then [] else '.' :: fraction) ++ rest) =
      some (fraction, rest) := by
  cases fraction with
  | nil =>
    cases rest with
    | nil => rfl
    | cons c rest =>
      have hc : c ≠ '.' := by simpa using hpoint
      rw [List.isEmpty_nil, if_pos rfl, List.nil_append, takeFraction?]
      intro cs heq
      exact hc (List.cons.inj heq).1
  | cons c fraction => exact takeDigits?_run (by simp) hfraction hrest

/-- A spelled numeral in the range of doubles is read back from its characters. -/
theorem numeral?_numeralChars {n : Numeral} (h : n.Spelled) (hrange : n.toFloat?.isSome = true) :
    numeral? (numeralChars n) = some n := by
  obtain ⟨negative, whole, fraction, exponent⟩ := n
  have hexp := exponent?_getD exponent
  have hdigit := stops_exponent (p := Char.isDigit) rfl exponent
  have hpoint := stops_exponent (p := (· = '.')) rfl exponent
  rw [numeralChars, chars, List.append_assoc, List.append_assoc]
  dsimp only
  generalize (exponent.map (exponentChars true)).getD [] = text at hexp hdigit hpoint ⊢
  have hfrac := takeFraction?_run h.fraction hdigit hpoint
  have hstop : Stops Char.isDigit ((if fraction.isEmpty then [] else '.' :: fraction) ++ text) := by
    split
    · exact hdigit
    · exact stops_cons.mpr rfl
  have hwhole := takeWhole?_run h.nonempty h.whole h.leading hstop
  generalize (if fraction.isEmpty then [] else '.' :: fraction) ++ text = rest at hfrac hwhole ⊢
  have hsign : takeSign ((if negative then ['-'] else []) ++ (whole ++ rest)) =
      (negative, whole ++ rest) := by
    cases negative with
    | true => rfl
    | false =>
      rw [if_neg Bool.false_ne_true, List.nil_append]
      exact takeSign_of_digits h.nonempty h.whole
  simp [numeral?, hsign, hwhole, hfrac, hexp, hrange]

theorem isNumberChar_of_isDigit {c : Char} (h : c.isDigit = true) : isNumberChar c = true := by
  simp [isNumberChar, h]

/-- A number is a run of number characters. -/
theorem isNumberChar_of_mem_numeralChars {n : Numeral} (h : n.Spelled) {c : Char}
    (hc : c ∈ numeralChars n) : isNumberChar c = true := by
  have hexponent : ∀ e, c ∈ exponentChars true e → isNumberChar c = true := by
    intro e hc
    simp only [exponentChars, List.cons_append, List.mem_cons, List.mem_append] at hc
    rcases hc with rfl | hc | hc
    · rfl
    · split at hc <;> simp at hc <;> subst hc <;> rfl
    · exact isNumberChar_of_isDigit (isDigit_of_mem_digitsOf hc)
  simp only [numeralChars, chars, List.mem_append] at hc
  rcases hc with ((hc | hc) | hc) | hc
  · split at hc
    · rw [List.mem_singleton.mp hc]
      rfl
    · cases hc
  · exact isNumberChar_of_isDigit (h.whole c hc)
  · split at hc
    · cases hc
    · rcases List.mem_cons.mp hc with rfl | hc
      · rfl
      · exact isNumberChar_of_isDigit (h.fraction c hc)
  · cases hexp : n.exponent with
    | none => simp [hexp] at hc
    | some e =>
      rw [hexp] at hc
      exact hexponent e hc

theorem numeralChars_ne_nil {n : Numeral} (h : n.Spelled) : numeralChars n ≠ [] := by
  simp [numeralChars, chars, h.nonempty]

end Json

namespace Numeral

/-! ## Whole numbers -/

theorem digitsOf_leading (n : Nat) (h : (digitsOf n).head? = some '0') : digitsOf n = ['0'] := by
  by_cases hn : n = 0
  · rw [hn]
    rfl
  · exact absurd h (head?_digitsOf hn)

theorem ofInt_spelled (n : Int) : (ofInt n).Spelled where
  nonempty := digitsOf_ne_nil _
  whole _ := isDigit_of_mem_digitsOf
  leading := digitsOf_leading _
  fraction _ hc := by cases hc

@[simp] theorem toInt?_ofInt (n : Int) : (ofInt n).toInt? = some n := by
  by_cases hn : n < 0
  · have hne : n.natAbs ≠ 0 := by omega
    simp [toInt?, ofInt, isWhole, hn, abs_of_neg hn]
    omega
  · simp [toInt?, ofInt, isWhole, hn, abs_of_nonneg (not_lt.mp hn)]

theorem toFloat?_ofInt_isSome {n : Int} (h : n.natAbs < UInt64.size) :
    (ofInt n).toFloat?.isSome = true :=
  toFloat?_isSome_of_whole rfl (by rwa [ofInt, valueOf_digitsOf])

end Numeral

/-! ## Shortest decimals -/

namespace Decimal

/-- Taking off zeros at the end leaves a number that is not zero. -/
theorem strip_digits_ne_zero {d : Decimal} (h : d.digits ≠ 0) (fuel : Nat) :
    (d.strip fuel).digits ≠ 0 := by
  induction fuel generalizing d with
  | zero => exact h
  | succ fuel ih =>
    rw [strip]
    split
    · apply ih
      dsimp only
      omega
    · exact h

end Decimal

namespace Magnitude

variable {x : Magnitude}

theorem shiftLeft_ne_zero {n : Nat} (h : n ≠ 0) (k : Nat) : n <<< k ≠ 0 := by
  rw [Nat.shiftLeft_eq]
  exact Nat.mul_ne_zero h (Nat.two_pow_pos k).ne'

theorem compareQuarters_zero (x : Magnitude) (e : Int) {quarters : Nat} (h : quarters ≠ 0) :
    x.compareQuarters ⟨0, e⟩ quarters = .lt := by
  have hpow : quarters * Nat.pow 10 (-e).toNat ≠ 0 :=
    Nat.mul_ne_zero h (Nat.pow_pos (by decide)).ne'
  have hshift := shiftLeft_ne_zero hpow (x.exponent - 2).toNat
  rw [compareQuarters]
  dsimp only
  rw [Nat.zero_mul, Nat.zero_shiftLeft, Nat.compare_eq_lt]
  exact Nat.pos_of_ne_zero hshift

/-- Zero is within half a place of no other number. -/
theorem digits_ne_zero_of_admits (hx : x.mantissa ≠ 0) {d : Decimal} (h : x.admits d = true) :
    d.digits ≠ 0 := by
  obtain ⟨digits, e⟩ := d
  rintro rfl
  -- The interval of decimals that read back starts above zero.
  have hquarters : (4 * x.mantissa - if x.narrow then 1 else 2) ≠ 0 := by
    split <;> omega
  rw [admits, compareQuarters_zero x e hquarters] at h
  split at h <;> cases h

/-- The multiple below is only taken if it reads back. -/
theorem nearestAt?_cases {tie : Tie} {place : Int} {d : Decimal}
    (h : x.nearestAt? tie place = some d) :
    d = ⟨x.floorAt place + 1, place⟩ ∨ x.admits d = true := by
  cases hlow : x.admits ⟨x.floorAt place, place⟩ with
  | false =>
    cases hhigh : x.admits ⟨x.floorAt place + 1, place⟩ with
    | false => simp [nearestAt?, hlow, hhigh] at h
    | true =>
      simp only [nearestAt?, hlow, hhigh, Option.some.injEq] at h
      exact .inl h.symm
  | true =>
    -- both may read back: the nearer one is taken, or in a tie either of them
    have heither : d = ⟨x.floorAt place + 1, place⟩ ∨ d = ⟨x.floorAt place, place⟩ := by
      cases hhigh : x.admits ⟨x.floorAt place + 1, place⟩ with
      | false =>
        simp only [nearestAt?, hlow, hhigh, Option.some.injEq] at h
        exact .inr h.symm
      | true =>
        simp only [nearestAt?, hlow, hhigh] at h
        split at h
        · exact .inr (Option.some.inj h).symm
        · exact .inl (Option.some.inj h).symm
        · cases tie with
          | up => exact .inl (Option.some.inj h).symm
          | even =>
            dsimp only at h
            split at h
            · exact .inr (Option.some.inj h).symm
            · exact .inl (Option.some.inj h).symm
    rcases heither with hd | hd
    · exact .inl hd
    · rw [hd]
      exact .inr hlow

theorem nearestAt?_digits_ne_zero (hx : x.mantissa ≠ 0) {tie : Tie} {place : Int} {d : Decimal}
    (h : x.nearestAt? tie place = some d) : d.digits ≠ 0 := by
  rcases nearestAt?_cases h with rfl | hadmits
  · exact Nat.succ_ne_zero _
  · exact digits_ne_zero_of_admits hx hadmits

theorem exact_digits_ne_zero (hx : x.mantissa ≠ 0) : x.exact.digits ≠ 0 :=
  shiftLeft_ne_zero (Nat.mul_ne_zero hx (Nat.pow_pos (by decide)).ne') _

end Magnitude

/-- The shortest decimal of a double other than zero is not zero. -/
theorem Decimal.shortest_digits_ne_zero {x : Magnitude} (hx : x.mantissa ≠ 0) (tie : Tie) :
    (shortest x tie).digits ≠ 0 := by
  rw [shortest]
  apply strip_digits_ne_zero
  generalize hfound : List.findSome? (x.nearestAt? tie) _ = found
  cases found with
  | none => exact Magnitude.exact_digits_ne_zero hx
  | some d =>
    obtain ⟨place, _, hplace⟩ := List.exists_of_findSome?_eq_some hfound
    exact Magnitude.nearestAt?_digits_ne_zero hx hplace

namespace Numeral

theorem isDigit_of_mem_replicate {c : Char} {k : Nat} (h : c ∈ List.replicate k '0') :
    c.isDigit = true := by
  rw [List.eq_of_mem_replicate h]
  rfl

theorem isDigit_of_mem_zero {c : Char} {kept : Bool} (h : c ∈ if kept then ['0'] else []) :
    c.isDigit = true := by
  split at h
  · rw [List.mem_singleton.mp h]
    rfl
  · cases h

/-- The digits of a decimal are laid out around the point, with zeros where there are none. -/
theorem ofDecimal_spelled (layout : Layout) (negative : Bool) {d : Decimal} (h : d.digits ≠ 0) :
    (ofDecimal layout negative d).Spelled := by
  have hne := digitsOf_ne_nil d.digits
  have hdigits : ∀ c ∈ digitsOf d.digits, c.isDigit = true := fun _ => isDigit_of_mem_digitsOf
  have hhead := head?_digitsOf h
  rw [ofDecimal]
  generalize digitsOf d.digits = digits at hne hdigits hhead
  obtain ⟨c, digits, rfl⟩ := List.exists_cons_of_ne_nil hne
  have hzero : c ≠ '0' := by simpa using hhead
  split
  · split
    · -- all digits after the point, behind zeros
      refine ⟨by simp, by simp, fun _ => rfl, fun c' hc => ?_⟩
      rcases List.mem_append.mp hc with hc | hc
      · exact isDigit_of_mem_replicate hc
      · exact hdigits c' hc
    · -- the point among the digits, or behind zeros after them
      refine ⟨by simp, fun c' hc => ?_, fun hlead => ?_, fun c' hc => ?_⟩
      · rcases List.mem_append.mp hc with hc | hc
        · exact hdigits c' (List.mem_of_mem_take hc)
        · exact isDigit_of_mem_replicate hc
      · simp [hzero] at hlead
      · dsimp only at hc
        split at hc
        · exact isDigit_of_mem_zero hc
        · exact hdigits c' (List.mem_of_mem_drop hc)
  · -- one digit before the point, and an exponent
    refine ⟨by simp, fun c' hc => ?_, fun hlead => ?_, fun c' hc => ?_⟩
    · exact hdigits c' (List.mem_of_mem_take hc)
    · simp [hzero] at hlead
    · exact hdigits c' (List.mem_of_mem_drop hc)

theorem ofFloat_spelled (layout : Layout) (x : Float) : (ofFloat layout x).Spelled := by
  rw [ofFloat]
  split
  · refine ⟨by simp, by simp, fun _ => rfl, fun c hc => ?_⟩
    exact isDigit_of_mem_zero hc
  next hx => exact ofDecimal_spelled layout _ (Decimal.shortest_digits_ne_zero hx layout.tie)

end Numeral

end Multistage
