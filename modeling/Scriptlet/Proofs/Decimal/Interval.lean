import Mathlib.Algebra.Order.Field.Power
import Mathlib.Algebra.Order.Ring.Rat
import Mathlib.Data.Nat.Cast.Field
import Mathlib.Tactic.FieldSimp
import Mathlib.Tactic.Positivity
import Mathlib.Tactic.Ring
import Scriptlet.Decimal.Shortest

/-!
# Which numbers round to a double

Around every double lies the interval of the numbers that are nearer to it than to any other
double, and its ends belong to it if the mantissa is even. The digits chosen for a double lie in its
interval (`Binary.rounds_shortest`), and no number lies in the intervals of two doubles
(`Binary.Rounds.unique`).
-/

namespace Scriptlet.Decimal

/-- The value of a decimal. -/
def Digits.value (d : Digits) : ℚ := d.significand * 10 ^ d.exponent

theorem Tie.pick_eq (tie : Tie) (n : Nat) : tie.pick n = n ∨ tie.pick n = n + 1 := by
  cases tie with
  | toEven => exact ite_eq_or_eq _ _ _
  | away => exact Or.inr rfl

namespace Binary

/-- The value of a double. -/
def value (x : Binary) : ℚ := x.mantissa * 2 ^ x.exponent

/-- A quarter of the gap between a double and the next larger one. -/
def quarter (x : Binary) : ℚ := 2 ^ (x.exponent - 2)

/-- The quarters up to the midpoint below a double. -/
def low (x : Binary) : Nat := 4 * x.mantissa - if x.narrowBelow then 1 else 2

/-- The quarters up to the midpoint above a double. -/
def high (x : Binary) : Nat := 4 * x.mantissa + 2

/-- A number lies between the midpoints around a double, and is one of them only if the mantissa is
even. -/
structure Rounds (x : Binary) (q : ℚ) : Prop where
  low_le : x.low * x.quarter ≤ q
  le_high : q ≤ x.high * x.quarter
  low_lt : x.mantissa % 2 = 1 → x.low * x.quarter < q
  lt_high : x.mantissa % 2 = 1 → q < x.high * x.quarter

/-- The form in which a double is read off its bits. -/
structure Canonical (x : Binary) : Prop where
  mantissa_lt : x.mantissa < 2 ^ 53
  le_exponent : -1074 ≤ x.exponent
  le_mantissa : -1074 < x.exponent → 2 ^ 52 ≤ x.mantissa
  narrowBelow_iff : x.narrowBelow = true ↔ x.mantissa = 2 ^ 52 ∧ -1074 < x.exponent

variable {x y : Binary} {q : ℚ}

theorem quarter_pos (x : Binary) : 0 < x.quarter := zpow_pos (by norm_num) _

/-! ### Intervals are disjoint -/

/-- The gaps of a double are a power of two of the gaps of one with a smaller exponent. -/
theorem quarter_eq_mul_pow {k : Nat} (h : y.exponent = x.exponent + k) :
    y.quarter = 2 ^ k * x.quarter := by
  have hexp : y.exponent - 2 = k + (x.exponent - 2) := by omega
  rw [quarter, hexp, zpow_add₀ (by norm_num), zpow_natCast, quarter]

/-- A number that rounds to two doubles keeps the one from lying above the other, counted in
quarters of the finer one. -/
theorem low_le_high {k : Nat} (h : y.exponent = x.exponent + k) (hx : x.Rounds q)
    (hy : y.Rounds q) : y.low * 2 ^ k ≤ x.high ∧ x.low ≤ y.high * 2 ^ k ∧
      (x.mantissa % 2 = 1 ∨ y.mantissa % 2 = 1 →
        y.low * 2 ^ k < x.high ∧ x.low < y.high * 2 ^ k) := by
  have hpos := x.quarter_pos
  have hscale (n : Nat) : (n : ℚ) * y.quarter = (n * 2 ^ k : Nat) * x.quarter := by
    rw [quarter_eq_mul_pow h]
    push_cast
    ring
  have hylow := hy.low_le
  have hyhigh := hy.le_high
  have hlt (m n : Nat) (hmn : (m : ℚ) * x.quarter < n * x.quarter) : m < n := by
    exact_mod_cast lt_of_mul_lt_mul_right hmn hpos.le
  have hle (m n : Nat) (hmn : (m : ℚ) * x.quarter ≤ n * x.quarter) : m ≤ n := by
    exact_mod_cast le_of_mul_le_mul_right hmn hpos
  rw [hscale] at hylow hyhigh
  refine ⟨hle _ _ (hylow.trans hx.le_high), hle _ _ (hx.low_le.trans hyhigh), ?_⟩
  rintro (hodd | hodd)
  · exact ⟨hlt _ _ (hylow.trans_lt (hx.lt_high hodd)), hlt _ _ ((hx.low_lt hodd).trans_le hyhigh)⟩
  · have hylow' := hy.low_lt hodd
    have hyhigh' := hy.lt_high hodd
    rw [hscale] at hylow' hyhigh'
    exact ⟨hlt _ _ (hylow'.trans_le hx.le_high), hlt _ _ (hx.low_le.trans_lt hyhigh')⟩

theorem Canonical.eq_of (hx : x.Canonical) (hy : y.Canonical) (hm : x.mantissa = y.mantissa)
    (he : x.exponent = y.exponent) : x = y := by
  have hn := hx.narrowBelow_iff
  rw [hm, he, ← hy.narrowBelow_iff, ← Bool.eq_iff_iff] at hn
  cases x
  cases y
  congr

theorem Canonical.low_add (hx : x.Canonical) : 4 * x.mantissa ≤ x.low + 2 ∧
    (-1074 < x.exponent → x.mantissa = 2 ^ 52 → 4 * x.mantissa = x.low + 1) := by
  have hn := hx.narrowBelow_iff
  unfold low
  split <;> rename_i h <;> rw [hn] at h <;> omega

theorem Rounds.unique_of_le (hcx : x.Canonical) (hcy : y.Canonical) (hx : x.Rounds q)
    (hy : y.Rounds q) (hle : x.exponent ≤ y.exponent) : x = y := by
  obtain ⟨k, hk⟩ := Int.le.dest hle
  obtain ⟨hbelow, habove, hodd⟩ := low_le_high hk.symm hx hy
  have hm := hcx.mantissa_lt
  obtain ⟨hlowx, -⟩ := hcx.low_add
  obtain ⟨hlowy, hnarrow⟩ := hcy.low_add
  rcases k.eq_zero_or_pos with rfl | hpos
  · -- neighbours in one binade have mantissas of different parity
    have hmantissa : x.mantissa = y.mantissa := by
      simp only [high, Nat.pow_zero, Nat.mul_one] at hbelow habove hodd
      omega
    exact hcx.eq_of hcy hmantissa (by omega)
  · -- the largest double of a binade is odd, and the gap narrows below the first of the next
    exfalso
    have he := hcx.le_exponent
    have hlarge := hcy.le_mantissa (by omega)
    have hnarrow := hnarrow (by omega)
    have htwo : 2 ^ 1 ≤ 2 ^ k := Nat.pow_le_pow_right (by norm_num) hpos
    have htwice := Nat.mul_le_mul_left y.low htwo
    unfold high at hbelow hodd
    omega

/-- No number rounds to two doubles. -/
theorem Rounds.unique (hcx : x.Canonical) (hcy : y.Canonical) (hx : x.Rounds q)
    (hy : y.Rounds q) : x = y := by
  rcases le_total x.exponent y.exponent with hle | hle
  · exact unique_of_le hcx hcy hx hy hle
  · exact (unique_of_le hcy hcx hy hx hle).symm

/-! ### Doubles lie in their own intervals -/

theorem value_eq_quarters (x : Binary) : x.value = (4 * x.mantissa : Nat) * x.quarter := by
  have htwo : (2 : ℚ) ^ (2 : ℤ) = 4 := by norm_num
  rw [value, quarter, zpow_sub₀ (by norm_num), htwo]
  push_cast
  ring

theorem rounds_value (x : Binary) : x.Rounds x.value := by
  have hpos := x.quarter_pos
  have hlow : x.low ≤ 4 * x.mantissa := Nat.sub_le _ _
  have hhigh : 4 * x.mantissa < x.high := by rw [high]; omega
  have hcast {m n : Nat} (h : m < n) : (m : ℚ) * x.quarter < n * x.quarter :=
    mul_lt_mul_of_pos_right (by exact_mod_cast h) hpos
  rw [value_eq_quarters]
  refine ⟨mul_le_mul_of_nonneg_right (by exact_mod_cast hlow) hpos.le, (hcast hhigh).le,
    fun hodd => hcast ?_, fun _ => hcast hhigh⟩
  rw [low]
  split <;> omega

theorem toNat?_value {n : Nat} (h : x.toNat? = some n) : (n : ℚ) = x.value := by
  unfold toNat? at h
  split at h
  · rename_i he
    cases h
    obtain ⟨k, hk⟩ := Int.eq_ofNat_of_zero_le he
    simp [value, hk]
  · rename_i he
    split at h
    · rename_i hmod
      cases h
      obtain ⟨k, hk⟩ : ∃ k : Nat, x.exponent = -k := ⟨(-x.exponent).toNat, by omega⟩
      rw [hk, neg_neg, Int.toNat_natCast, Nat.pow_eq] at hmod ⊢
      rw [Nat.cast_div (Nat.dvd_of_mod_eq_zero hmod) (by positivity)]
      simp [value, hk, div_eq_mul_inv]
    · cases h

theorem exact_value (x : Binary) : x.exact.value = x.value := by
  unfold exact
  split
  · rename_i he
    obtain ⟨k, hk⟩ := Int.eq_ofNat_of_zero_le he
    simp [Digits.value, value, hk]
  · rename_i he
    obtain ⟨k, hk⟩ : ∃ k : Nat, x.exponent = -k := ⟨(-x.exponent).toNat, by omega⟩
    have hten : (10 : ℚ) ^ k = 5 ^ k * 2 ^ k := by rw [← mul_pow]; norm_num
    simp only [Digits.value, value, hk, neg_neg, Int.toNat_natCast, Nat.pow_eq, zpow_neg,
      zpow_natCast, hten]
    push_cast
    field_simp

/-! ### The digits of a double -/

/-- On the common scale a grid step and a quarter are as far apart as they are. -/
theorem exists_scale (x : Binary) (e : ℤ) : ∃ d : ℚ, 0 < d ∧
    ((x.grid e).step : ℚ) = 10 ^ e * d ∧ ((x.grid e).quarter : ℚ) = x.quarter * d := by
  have hzpow {b : ℚ} (hb : b ≠ 0) (n : ℤ) : b ^ n * b ^ (-n).toNat = b ^ n.toNat := by
    rw [← zpow_natCast, ← zpow_natCast, ← zpow_add₀ hb]
    congr 1
    omega
  refine ⟨10 ^ (-e).toNat * 2 ^ (2 - x.exponent).toNat, by positivity, ?_, ?_⟩
  · rw [← mul_assoc, hzpow (by norm_num)]
    simp [grid]
  · have htwo : (2 - x.exponent).toNat = (-(x.exponent - 2)).toNat := by congr 1; omega
    rw [mul_comm _ (2 ^ _), ← mul_assoc, htwo, quarter, hzpow (by norm_num)]
    simp [grid]

theorem rounds_of_readsBack {e : ℤ} {c : Nat} (h : x.readsBack (x.grid e) c = true) :
    x.Rounds (Digits.value ⟨c, e⟩) := by
  obtain ⟨d, hd, hstep, hquarter⟩ := x.exists_scale e
  have hpoint : (Digits.value ⟨c, e⟩) * d = (c * (x.grid e).step : Nat) := by
    push_cast
    rw [hstep, Digits.value]
    ring
  have hcount (n : Nat) : (n : ℚ) * x.quarter * d = (n * (x.grid e).quarter : Nat) := by
    push_cast
    rw [hquarter]
    ring
  have hle {a b : ℚ} {m n : Nat} (ha : a * d = m) (hb : b * d = n) (hmn : m ≤ n) : a ≤ b :=
    le_of_mul_le_mul_right (by rw [ha, hb]; exact_mod_cast hmn) hd
  have hlt {a b : ℚ} {m n : Nat} (ha : a * d = m) (hb : b * d = n) (hmn : m < n) : a < b :=
    lt_of_mul_lt_mul_right (by rw [ha, hb]; exact_mod_cast hmn) hd.le
  simp only [readsBack] at h
  split at h
  · rename_i heven
    obtain ⟨hlow, hhigh⟩ := of_decide_eq_true h
    exact ⟨hle (hcount _) hpoint hlow, hle hpoint (hcount _) hhigh, by omega, by omega⟩
  · obtain ⟨hlow, hhigh⟩ := of_decide_eq_true h
    exact ⟨hle (hcount _) hpoint hlow.le, hle hpoint (hcount _) hhigh.le,
      fun _ => hlt (hcount _) hpoint hlow, fun _ => hlt hpoint (hcount _) hhigh⟩

theorem rounds_of_onGrid? {tie : Tie} {e : ℤ} {d : Digits} (h : x.onGrid? tie e = some d) :
    x.Rounds d.value := by
  simp only [onGrid?] at h
  split at h
  · cases h
  · rename_i hbelow _
    cases h
    exact rounds_of_readsBack hbelow
  · rename_i habove
    cases h
    exact rounds_of_readsBack habove
  · rename_i hbelow habove
    split at h <;> cases h
    · exact rounds_of_readsBack hbelow
    · exact rounds_of_readsBack habove
    · rcases Tie.pick_eq tie _ with hpick | hpick <;> rw [hpick]
      · exact rounds_of_readsBack hbelow
      · exact rounds_of_readsBack habove

end Binary

theorem Digits.value_trim (d : Digits) : d.trim.value = d.value := by
  obtain ⟨n, e⟩ := d
  unfold trim
  dsimp only
  fun_induction trim.go n e with
  | case1 n e h ih =>
    obtain ⟨k, rfl⟩ := Nat.dvd_of_mod_eq_zero h.2
    rw [ih, Nat.mul_div_cancel_left k (by norm_num)]
    simp only [value]
    rw [zpow_add₀ (by norm_num), zpow_one]
    push_cast
    ring
  | case2 n e h => rfl

/-- The digits chosen for a double round to it. -/
theorem Binary.rounds_shortest (tie : Tie) (x : Binary) : x.Rounds (x.shortest tie).value := by
  unfold shortest
  split
  · rename_i h
    have hzero : (⟨0, 0⟩ : Digits).value = x.value := by simp [Digits.value, value, h]
    rw [hzero]
    exact x.rounds_value
  · dsimp only
    rw [Digits.value_trim]
    generalize hd : List.findSome? _ _ = found
    cases found with
    | none =>
      rw [Option.getD_none, exact_value]
      exact x.rounds_value
    | some d =>
      obtain ⟨n, -, hn⟩ := List.exists_of_findSome?_eq_some hd
      exact rounds_of_onGrid? hn

end Scriptlet.Decimal
