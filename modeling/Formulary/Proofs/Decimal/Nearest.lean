import Formulary.Decimal.Numeral
import Mathlib

/-!
# Numerals are rounded to the nearest number

A numeral denotes a decimal fraction times a power of ten. Its value is the floating-point
number nearest to that, the one with the even mantissa if two are as near, and infinite from
halfway to the next power of two on.
-/
namespace Formulary.Decimal

def wholeNumber (digits : List Char) : ℕ :=
  Nat.ofDigits 10 (digits.reverse.map fun c => c.toNat - '0'.toNat)

def Exponent.power (e : Exponent) : ℤ :=
  match e.sign with
  | some .minus => -wholeNumber e.digits
  | _ => wholeNumber e.digits

/-- What a numeral denotes but for its sign. -/
def Numeral.magnitude (n : Numeral) : ℚ :=
  (wholeNumber n.whole + wholeNumber (n.fraction.getD []) / 10 ^ (n.fraction.getD []).length) *
    10 ^ (n.exponent.elim 0 Exponent.power)

/-- Halfway between the largest finite number and the next power of two. -/
def overflow : ℚ := 2 ^ 1024 - 2 ^ 970

/-- Rounded to the nearest of the finite numbers, of two that are as near to the one with the
even mantissa. -/
inductive Rounds (negative : Bool) (q : ℚ) : Binary → Prop
  | finite {m : ℕ} {e : ℤ} : q < overflow →
      (∀ (x : Float) (s : Bool) (m' : ℕ) (e' : ℤ), Binary.ofFloat x = .finite s m' e' →
        |m * 2 ^ e - q| ≤ |m' * 2 ^ e' - q| ∧
          (|m * 2 ^ e - q| = |m' * 2 ^ e' - q| → (m' * 2 ^ e' : ℚ) = m * 2 ^ e ∨ Even m)) →
      Rounds negative q (.finite negative m e)
  | infinite : overflow ≤ q → Rounds negative q (.infinite negative)

theorem leadingBit_eq : leadingBit = 2 ^ 52 := rfl

theorem infinityBits_eq : infinityBits = 2047 * 2 ^ 52 := rfl

/-! ## What the bits count -/

/-- The magnitude that bits stand for, in units of the smallest positive one. -/
def units (b : ℕ) : ℕ :=
  if b < 2 ^ 52 then b else (2 ^ 52 + b % 2 ^ 52) * 2 ^ (b / 2 ^ 52 - 1)

theorem units_steps {step k : ℕ} (hk : k ≤ 2 ^ 53) (hstep : step = 0 ∨ 2 ^ 52 ≤ k) :
    units (step * 2 ^ 52 + k) = k * 2 ^ step := by
  unfold units
  by_cases hlow : k < 2 ^ 52
  · obtain rfl : step = 0 := by omega
    rw [if_pos (by omega)]
    omega
  · rw [if_neg (by omega)]
    by_cases htop : k = 2 ^ 53
    · have hmod : (step * 2 ^ 52 + k) % 2 ^ 52 = 0 := by omega
      have hdiv : (step * 2 ^ 52 + k) / 2 ^ 52 - 1 = step + 1 := by omega
      rw [hmod, hdiv, htop]
      ring
    · have hmod : 2 ^ 52 + (step * 2 ^ 52 + k) % 2 ^ 52 = k := by omega
      have hdiv : (step * 2 ^ 52 + k) / 2 ^ 52 - 1 = step := by omega
      rw [hmod, hdiv]

theorem units_dvd_or_lt (b step : ℕ) : 2 ^ step ∣ units b ∨ units b < 2 ^ 52 * 2 ^ step := by
  unfold units
  split
  · rename_i hb
    exact .inr (hb.trans_le (Nat.le_mul_of_pos_right _ (Nat.two_pow_pos step)))
  · rename_i hb
    by_cases hstep : step ≤ b / 2 ^ 52 - 1
    · exact .inl ((Nat.pow_dvd_pow 2 hstep).mul_left _)
    · right
      have hlt : 2 ^ 52 + b % 2 ^ 52 < 2 ^ 53 := by omega
      have hle : b / 2 ^ 52 - 1 + 1 ≤ step := by omega
      calc (2 ^ 52 + b % 2 ^ 52) * 2 ^ (b / 2 ^ 52 - 1)
          < 2 ^ 53 * 2 ^ (b / 2 ^ 52 - 1) := Nat.mul_lt_mul_of_pos_right hlt (Nat.two_pow_pos _)
        _ = 2 ^ 52 * 2 ^ (b / 2 ^ 52 - 1 + 1) := by ring
        _ ≤ 2 ^ 52 * 2 ^ step := Nat.mul_le_mul_left _ (Nat.pow_le_pow_right (by decide) hle)

def smallest : ℚ := 2 ^ (-1074 : ℤ)

theorem smallest_pos : 0 < smallest := zpow_pos two_pos _

theorem magnitude_ofBits {bits m : ℕ} {s : Bool} {e : ℤ}
    (h : Binary.ofBits bits = .finite s m e) :
    (m * 2 ^ e : ℚ) = units (bits % 2 ^ 63) * smallest := by
  have hexponent : bits / 2 ^ 52 % 2 ^ 11 = bits % 2 ^ 63 / 2 ^ 52 := by omega
  have hfraction : bits % 2 ^ 52 = bits % 2 ^ 63 % 2 ^ 52 := by omega
  simp only [Binary.ofBits, leadingBit_eq, Nat.pow_eq, hexponent, hfraction] at h
  generalize bits % 2 ^ 63 = b at h ⊢
  split at h
  · split at h <;> cases h
  · split at h
    · rename_i hzero
      obtain ⟨-, rfl, rfl⟩ := Binary.finite.inj h
      rw [units, if_pos (by omega), Nat.mod_eq_of_lt (by omega), smallest]
    · rename_i hpos
      obtain ⟨-, rfl, rfl⟩ := Binary.finite.inj h
      have hsplit : ((b / 2 ^ 52 : ℕ) : ℤ) - 1075 = ((b / 2 ^ 52 - 1 : ℕ) : ℤ) + (-1074) := by omega
      rw [units, if_neg (by omega), hsplit, zpow_add₀ two_ne_zero, zpow_natCast, ← smallest,
        ← mul_assoc, Nat.cast_mul, Nat.cast_pow, Nat.cast_ofNat]

theorem ofBits_signed {b : ℕ} (negative : Bool) (h : b < infinityBits) :
    ∃ m e, Binary.ofBits (negative.toNat * signBit + b) = .finite negative m e ∧
      m % 2 = b % 2 := by
  rw [infinityBits_eq] at h
  have hle := negative.toNat_le
  have hsign : (negative.toNat * 2 ^ 63 + b) / 2 ^ 63 % 2 = negative.toNat := by omega
  have hexponent : (negative.toNat * 2 ^ 63 + b) / 2 ^ 52 % 2 ^ 11 = b / 2 ^ 52 := by omega
  have hfraction : (negative.toNat * 2 ^ 63 + b) % 2 ^ 52 = b % 2 ^ 52 := by omega
  have hnegative : decide (negative.toNat = 1) = negative := by cases negative <;> rfl
  simp only [Binary.ofBits, leadingBit_eq, signBit, Nat.pow_eq, hsign, hexponent, hfraction,
    hnegative]
  rw [if_neg (by omega)]
  split
  · exact ⟨_, _, rfl, by omega⟩
  · exact ⟨_, _, rfl, by omega⟩

theorem ofBits_infinity (negative : Bool) :
    Binary.ofBits (negative.toNat * signBit + infinityBits) = .infinite negative := by
  cases negative <;> rfl

theorem signed_mod {b : ℕ} (negative : Bool) (h : b < 2 ^ 63) :
    (negative.toNat * signBit + b) % 2 ^ 63 = b :=
  (Nat.mul_add_mod_self_right negative.toNat (2 ^ 63) b).trans (Nat.mod_eq_of_lt h)

open Float.Model Float.Model.UnpackedFloat in
theorem toNat_toBits_ofBits {b : ℕ} (h : b % 2 ^ 63 ≤ infinityBits) (hb : b < 2 ^ 64) :
    (Float.ofBits (.ofNat b)).toBits.toNat = b := by
  have hvector : (BitVec.ofNat 64 b).toNat = b := Nat.mod_eq_of_lt hb
  have hnan : ¬ @isNaNBits Format.binary64 (BitVec.ofNat 64 b) = true := by
    simp only [isNaNBits, decide_eq_true_eq, unpackExponent_def, unpackMantissa_def]
    intro hnan
    have hexponent := congrArg BitVec.toNat hnan.1
    have hmantissa := mt BitVec.eq_of_toNat_eq hnan.2
    rw [BitVec.extractLsb'_toNat, Nat.shiftRight_eq_div_pow] at hexponent hmantissa
    change (BitVec.ofNat 64 b).toNat / 2 ^ 52 % 2 ^ 11 = 2047 at hexponent
    change ¬ (BitVec.ofNat 64 b).toNat / 2 ^ 0 % 2 ^ 52 = 0 at hmantissa
    rw [infinityBits_eq] at h
    omega
  change (pack Format.binary64 (unpack Format.binary64 (BitVec.ofNat 64 b))).toNat = b
  rw [pack_unpack, if_neg hnan, hvector]

/-! ## Counting in steps -/

/-- Steps of the size that numbers around a magnitude stand in, all in units, and the count of
them that is nearest to it. -/
structure Counts (x : ℚ) (step k : ℕ) : Prop where
  lower : step = 0 ∨ 2 ^ 52 * 2 ^ step ≤ x
  upper : x < 2 ^ 53 * 2 ^ step
  near : |k * 2 ^ step - x| ≤ 2 ^ step / 2
  even : |k * 2 ^ step - x| = 2 ^ step / 2 → Even k

section
variable {x : ℚ} {step k : ℕ}

theorem Counts.least (h : Counts x step k) : step = 0 ∨ 2 ^ 52 ≤ k := by
  apply h.lower.imp_right
  intro hlower
  have hstep : (0 : ℚ) < 2 ^ step := by positivity
  have hnear := (abs_le.1 h.near).1
  have hk : (2 ^ 52 : ℚ) < k + 1 := by
    apply lt_of_mul_lt_mul_right _ hstep.le
    linarith
  have hk' : 2 ^ 52 < k + 1 := by exact_mod_cast hk
  omega

theorem Counts.most (h : Counts x step k) : k ≤ 2 ^ 53 := by
  have hstep : (0 : ℚ) < 2 ^ step := by positivity
  have hnear := (abs_le.1 h.near).2
  have hupper := h.upper
  have hk : (k : ℚ) < 2 ^ 53 + 1 := by
    apply lt_of_mul_lt_mul_right _ hstep.le
    linarith
  have hk' : k < 2 ^ 53 + 1 := by exact_mod_cast hk
  omega

theorem Counts.le_of_steps (h : Counts x step k) (j : ℕ) :
    |k * 2 ^ step - x| ≤ |j * 2 ^ step - x| ∧
      (|k * 2 ^ step - x| = |j * 2 ^ step - x| → j = k ∨ Even k) := by
  have hstep : (0 : ℚ) < 2 ^ step := by positivity
  by_cases hjk : j = k
  · rw [hjk]
    exact ⟨le_rfl, fun _ => .inl rfl⟩
  · have hone : (1 : ℚ) ≤ |(j : ℚ) - k| := by
      have hne : (j : ℤ) - k ≠ 0 := by omega
      exact_mod_cast Int.one_le_abs hne
    have happart : (2 ^ step : ℚ) ≤ |(j : ℚ) * 2 ^ step - k * 2 ^ step| := by
      rw [← sub_mul, abs_mul, abs_of_pos hstep]
      exact le_mul_of_one_le_left hstep.le hone
    have htriangle := abs_sub_le ((j : ℚ) * 2 ^ step) x (k * 2 ^ step)
    rw [abs_sub_comm x] at htriangle
    have hnear := h.near
    constructor
    · linarith
    · intro heq
      exact .inr (h.even (by linarith))

/-- The numbers that do not stand in these steps lie below all that do, further off. -/
theorem Counts.le_of_units (h : Counts x step k) (b : ℕ) :
    |k * 2 ^ step - x| ≤ |units b - x| ∧
      (|k * 2 ^ step - x| = |units b - x| → (units b : ℚ) = k * 2 ^ step ∨ Even k) := by
  have hsplit : 2 ^ step ∣ units b ∨ units b < 2 ^ 52 * 2 ^ step ∧ (2 ^ 52 * 2 ^ step : ℚ) ≤ x := by
    rcases h.lower with rfl | hlower
    · exact .inl (one_dvd _)
    · exact (units_dvd_or_lt b step).imp_right fun hlt => ⟨hlt, hlower⟩
  rcases hsplit with ⟨j, hj⟩ | ⟨hlt, hlower⟩
  · obtain ⟨hle, heq⟩ := h.le_of_steps j
    rw [hj, Nat.mul_comm, Nat.cast_mul, Nat.cast_pow, Nat.cast_ofNat]
    exact ⟨hle, fun hsame => (heq hsame).imp_left fun hjk => by rw [hjk]⟩
  · have hunits : (units b : ℚ) < 2 ^ 52 * 2 ^ step := by exact_mod_cast hlt
    have hle := (h.le_of_steps (2 ^ 52)).1
    rw [Nat.cast_pow, Nat.cast_ofNat, abs_of_nonpos (sub_nonpos.2 hlower)] at hle
    have hfar : |(k : ℚ) * 2 ^ step - x| < |units b - x| := by
      rw [abs_of_neg (sub_neg.2 (hunits.trans_le hlower))]
      linarith
    exact ⟨hfar.le, fun hsame => absurd hsame hfar.ne⟩

theorem overflow_eq : overflow = (2 ^ 53 - 1 / 2) * 2 ^ 2045 * smallest := by
  have hsmallest : (2 ^ 2045 * smallest : ℚ) = 2 ^ 971 := by
    rw [smallest, ← zpow_natCast, ← zpow_natCast, ← zpow_add₀ two_ne_zero]
    rfl
  rw [mul_assoc, hsmallest, overflow, show 1024 = 970 + 54 from rfl, show 971 = 970 + 1 from rfl,
    pow_add, pow_add]
  generalize (2 : ℚ) ^ 970 = g
  ring

/-- In the largest steps the count that overflows is the even one of two, so it takes what lies
halfway. -/
theorem Counts.top_iff {g : ℚ} (h : Counts x step k) (hg : (2 ^ step : ℚ) = g) :
    2 ^ 53 ≤ k ↔ (2 ^ 53 - 1 / 2) * g ≤ x := by
  have hpos : 0 < g := hg ▸ by positivity
  have hmost := h.most
  have hnear := h.near
  have heven := h.even
  rw [hg] at hnear heven
  rw [abs_le] at hnear
  constructor
  · intro hk
    rw [Nat.le_antisymm hmost hk] at hnear
    push_cast at hnear
    linarith
  · intro hx
    by_contra hbelow
    have hk : (k : ℚ) ≤ 2 ^ 53 - 1 := by
      rw [le_sub_iff_add_le]
      exact_mod_cast Nat.lt_of_not_le hbelow
    have hkg := mul_le_mul_of_nonneg_right hk hpos.le
    have hsame : (k : ℚ) * g = (2 ^ 53 - 1) * g := by linarith
    have hodd : (k : ℚ) + 1 = 2 ^ 53 := by linarith [mul_right_cancel₀ hpos.ne' hsame]
    have hodd' : k + 1 = 2 ^ 53 := by exact_mod_cast hodd
    have hhalf : |(k : ℚ) * g - x| = g / 2 := by
      rw [abs_of_nonpos (by linarith)]
      linarith
    have hmod := Nat.even_iff.1 (heven hhalf)
    omega

theorem Counts.overflow_iff (h : Counts x step k) :
    infinityBits ≤ step * leadingBit + k ↔ overflow ≤ x * smallest := by
  rw [overflow_eq, mul_le_mul_iff_left₀ smallest_pos, infinityBits_eq, leadingBit_eq]
  have hmost := h.most
  have hleast := h.least
  -- powers this large are kept as variables: no step may compute them
  rcases Nat.lt_trichotomy step 2045 with hstep | hstep | hstep
  · have hpow : (2 ^ step : ℚ) * 2 ≤ 2 ^ 2045 := by
      rw [← pow_succ]
      exact pow_le_pow_right₀ one_le_two hstep
    have hpos : (0 : ℚ) < 2 ^ step := by positivity
    have hupper := h.upper
    refine iff_of_false (by omega) (not_le.2 ?_)
    generalize (2 : ℚ) ^ 2045 = g at hpow ⊢
    linarith
  · rw [← h.top_iff (by rw [hstep])]
    omega
  · have hpow : (2 ^ 2045 : ℚ) * 2 ≤ 2 ^ step := by
      rw [← pow_succ]
      exact pow_le_pow_right₀ one_le_two hstep
    have hpos : (0 : ℚ) < 2 ^ 2045 := by positivity
    have hlower := h.lower.resolve_left (by omega)
    refine iff_of_true (by omega) ?_
    generalize (2 : ℚ) ^ 2045 = g at hpos hpow ⊢
    linarith

theorem Counts.rounds (h : Counts x step k) (negative : Bool) :
    Rounds negative (x * smallest) (Binary.ofBits (negative.toNat * signBit +
      min infinityBits (step * leadingBit + k))) := by
  have hscaled (a : ℚ) : |a * smallest - x * smallest| = |a - x| * smallest := by
    rw [← sub_mul, abs_mul, abs_of_pos smallest_pos]
  by_cases hover : infinityBits ≤ step * leadingBit + k
  · rw [min_eq_left hover, ofBits_infinity]
    exact .infinite (h.overflow_iff.1 hover)
  · rw [min_eq_right (Nat.le_of_not_le hover)]
    obtain ⟨m, e, hbits, hparity⟩ := ofBits_signed negative (Nat.lt_of_not_le hover)
    rw [hbits]
    have hunits : (m * 2 ^ e : ℚ) = k * 2 ^ step * smallest := by
      rw [leadingBit_eq, infinityBits_eq] at *
      rw [magnitude_ofBits hbits, signed_mod _ (by omega), units_steps h.most h.least]
      push_cast
      rfl
    refine .finite (not_le.1 (mt h.overflow_iff.2 hover)) fun y s m' e' hy => ?_
    obtain ⟨hle, heq⟩ := h.le_of_units (y.toBits.toNat % 2 ^ 63)
    rw [magnitude_ofBits hy, hunits, hscaled, hscaled, mul_le_mul_iff_left₀ smallest_pos,
      mul_left_inj' smallest_pos.ne', mul_left_inj' smallest_pos.ne']
    refine ⟨hle, fun hsame => (heq hsame).imp_right fun heven => ?_⟩
    rw [Nat.even_iff] at heven ⊢
    rw [leadingBit_eq] at hparity
    omega

theorem counts_zero (hpos : 0 ≤ x) (hx : x ≤ 1 / 2) : Counts x 0 0 := by
  refine ⟨.inl rfl, by linarith, ?_, fun _ => Even.zero⟩
  rw [Nat.cast_zero, zero_mul, zero_sub, abs_neg, abs_of_nonneg hpos, pow_zero]
  exact hx

theorem roundDiv_counts {num den : ℕ} (hden : 0 < den) (hstep : step = Nat.log2 (num / den) - 52) :
    Counts (num / den) step (roundDiv .toEven num (den * 2 ^ step)) := by
  have hpos : (0 : ℚ) < den := by exact_mod_cast hden
  have hsize : 0 < den * 2 ^ step := Nat.mul_pos hden (Nat.two_pow_pos step)
  have hnum : (num : ℚ) = num / den * den := (div_mul_cancel₀ _ hpos.ne').symm
  constructor
  · by_cases hlow : step = 0
    · exact .inl hlow
    · have hquotient : num / den ≠ 0 := by
        intro hzero
        rw [hzero] at hstep
        exact hlow hstep
      have hle : 2 ^ 52 * 2 ^ step ≤ num / den := by
        rw [← Nat.pow_add, (by omega : 52 + step = Nat.log2 (num / den))]
        exact Nat.log2_self_le hquotient
      right
      calc (2 ^ 52 * 2 ^ step : ℚ) ≤ (num / den : ℕ) := by exact_mod_cast hle
        _ ≤ num / den := Nat.cast_div_le
  · rw [div_lt_iff₀ hpos]
    have hlt : num / den < 2 ^ 53 * 2 ^ step := by
      rw [← Nat.pow_add]
      exact Nat.lt_log2_self.trans_le (Nat.pow_le_pow_right (by decide) (by omega))
    exact_mod_cast (Nat.div_lt_iff_lt_mul hden).1 hlt
  · obtain ⟨hup, hdown⟩ := roundDiv_near .toEven num _ hsize
    generalize roundDiv .toEven num (den * 2 ^ step) = k at hup hdown ⊢
    have hup' : (2 * num : ℚ) ≤ (2 * k + 1) * (den * 2 ^ step) := by exact_mod_cast hup
    have hdown' : (2 * k * (den * 2 ^ step) : ℚ) ≤ 2 * num + den * 2 ^ step := by
      exact_mod_cast hdown
    generalize (num / den : ℚ) = y at hnum ⊢
    rw [hnum] at hup' hdown'
    rw [abs_le]
    constructor
    · apply le_of_mul_le_mul_right _ hpos
      linarith
    · apply le_of_mul_le_mul_right _ hpos
      linarith
  · intro hhalf
    rw [Nat.even_iff]
    have hmidway : ∃ j : ℕ, (2 * num + den * 2 ^ step : ℚ) = 2 * j * (den * 2 ^ step) := by
      generalize roundDiv .toEven num (den * 2 ^ step) = k at hhalf ⊢
      generalize (num / den : ℚ) = y at hnum hhalf
      rcases abs_choice (k * 2 ^ step - y) with habs | habs
      · refine ⟨k, ?_⟩
        rw [hnum]
        linear_combination (-2) * den * (habs.symm.trans hhalf)
      · refine ⟨k + 1, ?_⟩
        rw [hnum]
        push_cast
        linear_combination 2 * den * (habs.symm.trans hhalf)
    obtain ⟨j, hj⟩ := hmidway
    exact roundDiv_toEven_of_half _ _ (half_of_midway hsize (by exact_mod_cast hj))

end

theorem cast_pow_mul_zpow (n : ℕ) {e : ℤ} (he : e = -n) :
    ((Nat.pow 2 n : ℕ) : ℚ) * 2 ^ e = 1 := by
  rw [he, Nat.pow_eq, Nat.cast_pow, Nat.cast_ofNat, zpow_neg, zpow_natCast,
    mul_inv_cancel₀ (by positivity)]

theorem unitsInOne_mul_smallest : (unitsInOne : ℚ) * smallest = 1 := by
  unfold unitsInOne smallest
  apply cast_pow_mul_zpow
  rfl

theorem quotientBits_rounds {num den : ℕ} (hden : 0 < den) (negative : Bool) :
    Rounds negative (num / den)
      (Binary.ofBits (negative.toNat * signBit + quotientBits num den)) := by
  have hunits : (num / den : ℚ) = (num * unitsInOne : ℕ) / den * smallest := by
    rw [Nat.cast_mul, div_mul_eq_mul_div, mul_assoc, unitsInOne_mul_smallest, mul_one]
  rw [hunits]
  exact (roundDiv_counts hden rfl).rounds negative

theorem overflow_le_ten_zpow {e : ℤ} (he : 310 < e) : overflow ≤ 10 ^ e := by
  have hpow : 2 ^ 1024 ≤ 10 ^ 310 := by decide +kernel
  calc overflow ≤ 2 ^ 1024 := sub_le_self _ (by positivity)
    _ ≤ 10 ^ 310 := by exact_mod_cast hpow
    _ ≤ 10 ^ e := by
      rw [← zpow_natCast]
      exact zpow_le_zpow_right₀ (by norm_num) he.le

theorem le_half_smallest {m : ℕ} {e : ℤ} (he : e + Nat.log2 m < -330) :
    (m * 10 ^ e : ℚ) ≤ smallest / 2 := by
  have hm : (m : ℚ) ≤ 10 ^ ((Nat.log2 m + 1 : ℕ) : ℤ) := by
    rw [zpow_natCast]
    have hlt : m < 2 ^ (Nat.log2 m + 1) := Nat.lt_log2_self
    have hle : 2 ^ (Nat.log2 m + 1) ≤ 10 ^ (Nat.log2 m + 1) := Nat.pow_le_pow_left (by decide) _
    exact_mod_cast hlt.le.trans hle
  have hpow : 2 ^ 1075 ≤ 10 ^ 330 := by decide +kernel
  calc (m * 10 ^ e : ℚ) ≤ 10 ^ ((Nat.log2 m + 1 : ℕ) : ℤ) * 10 ^ e := by gcongr
    _ = 10 ^ (((Nat.log2 m + 1 : ℕ) : ℤ) + e) := (zpow_add₀ (by norm_num) _ _).symm
    _ ≤ 10 ^ (-330 : ℤ) := zpow_le_zpow_right₀ (by norm_num) (by omega)
    _ ≤ 2 ^ (-1075 : ℤ) := by
      rw [zpow_neg, zpow_neg]
      apply inv_anti₀ (by positivity)
      exact_mod_cast hpow
    _ = smallest / 2 := by
      rw [smallest, div_eq_mul_inv, ← zpow_sub_one₀ two_ne_zero]
      rfl

theorem nearestBits_rounds (negative : Bool) (m : ℕ) (e : ℤ) :
    Rounds negative (m * 10 ^ e)
      (Binary.ofBits (negative.toNat * signBit + nearestBits m e)) := by
  unfold nearestBits
  split
  · rename_i hm
    have hrounds := (counts_zero le_rfl (by norm_num)).rounds negative
    rw [zero_mul] at hrounds
    rw [hm, Nat.cast_zero, zero_mul]
    exact hrounds
  · rename_i hm
    split
    · rename_i he
      rw [ofBits_infinity]
      have hone : (1 : ℚ) ≤ m := by exact_mod_cast Nat.pos_of_ne_zero hm
      exact .infinite ((overflow_le_ten_zpow he).trans
        (le_mul_of_one_le_left (by positivity) hone))
    · split
      · rename_i he
        have hx : (m * 10 ^ e / smallest : ℚ) ≤ 1 / 2 := by
          rw [div_le_iff₀ smallest_pos]
          linarith [le_half_smallest he]
        have hpos : (0 : ℚ) ≤ m * 10 ^ e / smallest := div_nonneg (by positivity) smallest_pos.le
        have hrounds := (counts_zero hpos hx).rounds negative
        rw [div_mul_cancel₀ _ smallest_pos.ne'] at hrounds
        exact hrounds
      · have hten : (m * 10 ^ e : ℚ) = (m * 10 ^ e.toNat : ℕ) / (10 ^ (-e).toNat : ℕ) := by
          push_cast
          rw [mul_div_assoc, ← zpow_natCast, ← zpow_natCast, ← zpow_sub₀ (by norm_num)]
          congr
          omega
        rw [hten]
        exact quotientBits_rounds (by positivity) negative

namespace Numeral

theorem digitsValue_append (a b : List Char) :
    digitsValue (a ++ b) = digitsValue a * 10 ^ b.length + digitsValue b := by
  induction b using List.reverseRecOn with
  | nil => simp [digitsValue]
  | append_singleton b c ih =>
    rw [← List.append_assoc]
    simp only [digitsValue, List.foldl_append, List.foldl_cons, List.foldl_nil,
      List.length_append, List.length_singleton] at ih ⊢
    rw [ih]
    ring

theorem digitsValue_eq (digits : List Char) : digitsValue digits = wholeNumber digits := by
  induction digits using List.reverseRecOn with
  | nil => rfl
  | append_singleton digits c ih =>
    simp only [digitsValue, wholeNumber, List.foldl_append, List.foldl_cons, List.foldl_nil,
      List.reverse_append, List.reverse_singleton, List.singleton_append, List.map_cons,
      Nat.ofDigits_cons] at ih ⊢
    rw [ih]
    exact Nat.add_comm _ _

theorem scale_eq (e : Exponent) : scale e = e.power := by
  unfold scale Exponent.power
  rw [digitsValue_eq]
  split
  · rename_i hsign
    rw [hsign]
  · rename_i hsign
    split
    · rename_i hminus
      exact absurd hminus hsign
    · rfl

theorem magnitude_eq (n : Numeral) :
    n.magnitude = digitsValue (n.whole ++ n.fraction.getD []) *
      10 ^ (n.exponent.elim 0 scale - (n.fraction.getD []).length) := by
  have hpower : n.exponent.elim 0 scale = n.exponent.elim 0 Exponent.power := by
    cases n.exponent with
    | none => rfl
    | some e => exact scale_eq e
  rw [hpower, digitsValue_append, digitsValue_eq, digitsValue_eq, magnitude,
    zpow_sub₀ (by norm_num), zpow_natCast]
  push_cast
  field_simp

theorem nearestBits_le (m : ℕ) (e : ℤ) : nearestBits m e ≤ infinityBits := by
  unfold nearestBits quotientBits
  split
  · exact Nat.zero_le _
  · split
    · exact le_rfl
    · split
      · exact Nat.zero_le _
      · exact Nat.min_le_left _ _

/-- The value of a numeral is the number nearest to what it denotes. -/
theorem value_rounds (n : Numeral) :
    Rounds (n.sign = some .minus) n.magnitude (Binary.ofFloat n.value) := by
  have hle := nearestBits_le (digitsValue (n.whole ++ n.fraction.getD []))
    (n.exponent.elim 0 scale - (n.fraction.getD []).length)
  rw [infinityBits_eq] at hle
  have hsign := (decide (n.sign = some .minus)).toNat_le
  rw [magnitude_eq, value, nearest, Binary.ofFloat, toNat_toBits_ofBits]
  · exact nearestBits_rounds _ _ _
  · rw [signed_mod _ (by omega)]
    exact nearestBits_le _ _
  · rw [signBit, Nat.pow_eq]
    omega

end Numeral

end Formulary.Decimal
