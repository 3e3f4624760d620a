import Mathlib.Algebra.Order.Group.Unbundled.Abs
import Mathlib.Algebra.Order.Ring.Abs
import Mathlib.Data.List.Basic
import Mathlib.Tactic.Linarith
import Mathlib.Tactic.LinearCombination
import Mathlib.Tactic.NormNum
import Scriptlet.Proofs.Decimal.Text
import Scriptlet.Token.Listing
import Scriptlet.Value.Basic

/-!
# The two texts of a whole number

A whole number is written by two rules. A listing of tokens writes it out with all its digits below
`2 ^ 63`, and a script sees all its digits below `10 ^ 15`; above these bounds both write the
shortest digits that read back, filled up with zeros. Between the bounds the two texts agree where
the shortest digits are the number itself, which is so below `2 ^ 54` and not everywhere above.
-/

namespace Scriptlet.Decimal

/-- A text without a final `.0`. -/
def withoutPointZero (s : String) : String :=
  String.ofList ((s.toList.dropSuffix? ['.', '0']).getD s.toList)

theorem withoutPointZero_append (cs : List Char) :
    withoutPointZero (String.ofList (cs ++ ['.', '0'])) = String.ofList cs := by
  have hdrop : (cs ++ ['.', '0']).dropSuffix? ['.', '0'] = some cs :=
    List.dropSuffix?_eq_some_iff.2 ⟨['.', '0'], rfl, beq_self_eq_true _⟩
  rw [withoutPointZero, String.toList_ofList, hdrop, Option.getD_some]

theorem withoutPointZero_of_not_suffix {cs : List Char} (h : ¬ ['.', '0'] <:+ cs) :
    withoutPointZero (String.ofList cs) = String.ofList cs := by
  have hdrop : cs.dropSuffix? ['.', '0'] = none := by
    rw [Option.eq_none_iff_forall_ne_some]
    intro before hbefore
    obtain ⟨s, hs, heq⟩ := List.dropSuffix?_eq_some_iff.1 hbefore
    exact h ⟨before, by rw [hs, eq_of_beq heq]⟩
  rw [withoutPointZero, String.toList_ofList, hdrop, Option.getD_none]

/-! ### Shortest digits -/

/-- The significand does not end in a zero that the exponent could tell. -/
def Digits.Trimmed (d : Digits) : Prop := d.significand % 10 = 0 → d.significand = 0

theorem Digits.trimmed_trim (d : Digits) : d.trim.Trimmed := by
  obtain ⟨n, e⟩ := d
  unfold trim
  dsimp only
  fun_induction trim.go n e with
  | case1 n e h ih => exact ih
  | case2 n e h =>
    intro hmod
    exact Nat.eq_zero_of_not_pos fun hpos => h ⟨hpos, hmod⟩

theorem Binary.trimmed_shortest (tie : Tie) (x : Binary) : (x.shortest tie).Trimmed := by
  unfold shortest
  split
  · exact fun _ => rfl
  · exact Digits.trimmed_trim _

/-- Trimmed digits with a whole number as their value have no negative exponent. -/
theorem Digits.Trimmed.exists_exponent {d : Digits} (hd : d.Trimmed) {n : Nat} (hn : 0 < n)
    (h : d.value = n) : 0 < d.significand ∧ ∃ k : Nat, d.exponent = k ∧
      d.significand * 10 ^ k = n := by
  obtain ⟨c, e⟩ := d
  have hc : 0 < c := by
    refine Nat.pos_of_ne_zero fun hzero => ?_
    subst hzero
    have hzero : (0 : ℚ) = n := by simpa [value] using h
    exact hn.ne (by exact_mod_cast hzero)
  refine ⟨hc, ?_⟩
  rcases lt_or_ge e 0 with he | he
  · -- a fraction that is whole has a multiple of ten above its line
    exfalso
    obtain ⟨k, rfl⟩ : ∃ k : Nat, e = -(k + 1 : Nat) := ⟨(-e - 1).toNat, by omega⟩
    have hwhole : c = n * 10 ^ (k + 1) := by
      have hten : (10 : ℚ) ^ (k + 1) ≠ 0 := by positivity
      have hdiv : (c : ℚ) / 10 ^ (k + 1) = n := by
        rwa [value, zpow_neg, zpow_natCast, ← div_eq_mul_inv] at h
      exact_mod_cast (div_eq_iff hten).1 hdiv
    have hmod : c % 10 = 0 := by
      rw [hwhole, pow_succ, ← mul_assoc]
      exact Nat.mul_mod_left _ _
    exact hc.ne' (hd hmod)
  · obtain ⟨k, rfl⟩ := Int.eq_ofNat_of_zero_le he
    refine ⟨k, rfl, ?_⟩
    have hvalue : (c : ℚ) * 10 ^ k = n := by simpa [value] using h
    exact_mod_cast hvalue

/-! ### Digits in a text -/

theorem numeral_mul_pow {n : Nat} (hn : 0 < n) (k : Nat) :
    numeral (n * 10 ^ k) = numeral n ++ List.replicate k '0' := by
  induction k with
  | zero => simp
  | succ k ih =>
    have hbase : 10 ≤ n * 10 ^ (k + 1) := by
      rw [pow_succ, ← mul_assoc]
      exact Nat.le_mul_of_pos_left 10 (Nat.mul_pos hn (Nat.pow_pos (by norm_num)))
    have hdiv : n * 10 ^ (k + 1) / 10 = n * 10 ^ k := by
      rw [pow_succ, ← mul_assoc, Nat.mul_div_cancel _ (by norm_num)]
    have hmod : n * 10 ^ (k + 1) % 10 = 0 := by
      rw [pow_succ, ← mul_assoc, Nat.mul_mod_left]
    rw [numeral, Nat.toDigits_of_base_le (by norm_num) hbase, hdiv, hmod, ← numeral, ih,
      List.replicate_succ', List.append_assoc]
    rfl

theorem getLast?_numeral (n : Nat) : (numeral n).getLast? = some (Nat.digitChar (n % 10)) := by
  rw [numeral, Nat.toDigits_eq_if (by norm_num)]
  split
  · rename_i hlt
    rw [Nat.mod_eq_of_lt hlt]
    rfl
  · exact List.getLast?_concat

/-- Behind the point stand digits, of which the last is the last one of all. -/
theorem getLast?_plain {ending digits : List Char} {e : ℤ} (hdigits : digits ≠ []) (he : e < 0) :
    (plain ending digits e).getLast? = digits.getLast? := by
  have hlength := List.length_pos_of_ne_nil hdigits
  rw [plain, if_neg (by omega)]
  dsimp only
  split
  · rw [List.getLast?_append, List.getLast?_cons, List.getLast?_drop, if_neg (by omega)]
    obtain ⟨c, hc⟩ :=
      Option.ne_none_iff_exists'.1 (fun h => hdigits (List.getLast?_eq_none_iff.1 h))
    rw [hc]
    rfl
  · rw [List.getLast?_append]
    obtain ⟨c, hc⟩ :=
      Option.ne_none_iff_exists'.1 (fun h => hdigits (List.getLast?_eq_none_iff.1 h))
    rw [hc]
    rfl

/-- The text of trimmed digits does not end in `.0`. -/
theorem not_suffix_plain {d : Digits} (hd : d.Trimmed) (hpos : 0 < d.significand) (start : List Char)
    (hstart : '.' ∉ start) :
    ¬ ['.', '0'] <:+ start ++ plain [] (numeral d.significand) d.exponent := by
  rintro ⟨before, hbefore⟩
  rcases lt_or_ge d.exponent 0 with he | he
  · have hlast := congrArg List.getLast? hbefore
    rw [List.getLast?_append, List.getLast?_append, getLast?_plain (isNumeral_numeral _).1 he,
      getLast?_numeral] at hlast
    have hzero : d.significand % 10 = 0 := Nat.digitChar_eq_zero.1 (Option.some.inj hlast).symm
    exact hpos.ne' (hd hzero)
  · have hpoint : '.' ∈ start ++ plain [] (numeral d.significand) d.exponent := by
      rw [← hbefore]
      simp
    rw [plain, if_pos he, List.append_nil] at hpoint
    rcases List.mem_append.1 hpoint with hpoint | hpoint
    · exact hstart hpoint
    · exact not_isDigit_point ((isNumeral_append_zeros (isNumeral_numeral _) _).2 _ hpoint)

/-- Trimmed digits are written like a whole number exactly if that is their value. -/
theorem plain_eq_numeral_iff {d : Digits} (hd : d.Trimmed) {n : Nat} (hn : 0 < n) :
    plain [] (numeral d.significand) d.exponent = numeral n ↔ d.value = n := by
  constructor
  · intro h
    have hwhole := Denotes.whole (isNumeral_numeral n)
    rw [natOfDigits_numeral] at hwhole
    exact (denotes_plain d.significand d.exponent).unique (h ▸ hwhole)
  · intro h
    obtain ⟨hpos, k, hk, rfl⟩ := hd.exists_exponent hn h
    rw [hk, plain, if_pos (Int.natCast_nonneg k), Int.toNat_natCast, List.append_nil,
      numeral_mul_pow hpos]

/-! ### Whole numbers whose shortest digits are all their digits -/

namespace Binary

variable {x : Binary} {n : Nat}

theorem exponent_of_onGrid? {tie : Tie} {e : ℤ} {d : Digits} (h : x.onGrid? tie e = some d) :
    d.exponent = e := by
  simp only [onGrid?] at h
  split at h
  · cases h
  · cases h
    rfl
  · cases h
    rfl
  · split at h <;> cases h <;> rfl

/-- A point of the grid that is the value itself reads back. -/
theorem readsBack_of_eq {g : Grid} {c : Nat} (hg : 0 < g.quarter)
    (h : 4 * x.mantissa * g.quarter = c * g.step) : x.readsBack g c = true := by
  have hlow : (4 * x.mantissa - if x.narrowBelow then 1 else 2) * g.quarter ≤ c * g.step :=
    h ▸ Nat.mul_le_mul_right _ (Nat.sub_le _ _)
  have hhigh : c * g.step < (4 * x.mantissa + 2) * g.quarter :=
    h ▸ Nat.mul_lt_mul_of_pos_right (by omega) hg
  simp only [readsBack]
  split
  · exact decide_eq_true ⟨hlow, hhigh.le⟩
  · refine decide_eq_true ⟨h ▸ Nat.mul_lt_mul_of_pos_right ?_ hg, hhigh⟩
    split <;> omega

theorem grid_pos (x : Binary) (e : ℤ) : 0 < (x.grid e).step ∧ 0 < (x.grid e).quarter := by
  constructor
  · exact Nat.mul_pos (Nat.pow_pos (by norm_num)) (Nat.pow_pos (by norm_num))
  · exact Nat.mul_pos (Nat.pow_pos (by norm_num)) (Nat.pow_pos (by norm_num))

/-- On a grid that it lies on, a double is the nearest point to itself. -/
theorem onGrid?_of_eq {tie : Tie} {e : ℤ} {c : Nat} {d : Digits}
    (hc : 4 * x.mantissa * (x.grid e).quarter = c * (x.grid e).step)
    (h : x.onGrid? tie e = some d) : d = ⟨c, e⟩ := by
  obtain ⟨hstep, hquarter⟩ := x.grid_pos e
  have hreads := readsBack_of_eq hquarter hc
  have hbelow : 4 * x.mantissa * (x.grid e).quarter / (x.grid e).step = c := by
    rw [hc, Nat.mul_div_cancel _ hstep]
  have hnear : compare (2 * (4 * x.mantissa * (x.grid e).quarter)) ((2 * c + 1) * (x.grid e).step) =
      .lt := by
    rw [Nat.compare_eq_lt, hc, ← mul_assoc]
    exact Nat.mul_lt_mul_of_pos_right (by omega) hstep
  simp only [onGrid?, hbelow, hreads, hnear] at h
  split at h
  · rename_i hfalse _
    cases hfalse
  · cases h
    rfl
  · rename_i hfalse _
    cases hfalse
  · cases h
    rfl

/-- A whole number lies on the grid of the whole numbers and on every finer one. -/
theorem value_of_onGrid?_of_nonpos {tie : Tie} {e : ℤ} {d : Digits} (hn : x.value = n) (he : e ≤ 0)
    (h : x.onGrid? tie e = some d) : d.value = n := by
  obtain ⟨k, rfl⟩ : ∃ k : Nat, e = -k := ⟨(-e).toNat, by omega⟩
  obtain ⟨s, -, hstep, hquarter⟩ := x.exists_scale (-k)
  have hten : (10 : ℚ) ^ k * 10 ^ (-k : ℤ) = 1 := by
    rw [zpow_neg, zpow_natCast, mul_inv_cancel₀ (by positivity)]
  have hpoint : 4 * x.mantissa * (x.grid (-k)).quarter = n * 10 ^ k * (x.grid (-k)).step := by
    have hrat : (4 * x.mantissa : ℚ) * (x.grid (-k)).quarter =
        n * 10 ^ k * (x.grid (-k)).step := by
      have hvalue := hn
      rw [value_eq_quarters] at hvalue
      push_cast at hvalue
      rw [hstep, hquarter, ← mul_assoc, hvalue]
      linear_combination (-(n : ℚ) * s) * hten
    exact_mod_cast hrat
  rw [onGrid?_of_eq hpoint h, Digits.value]
  push_cast
  linear_combination (n : ℚ) * hten

/-- Below `2 ^ 54` the doubles are at most two apart, and even where they are. -/
theorem Canonical.gap_of_lt (hx : x.Canonical) (hn : x.toNat? = some n) (hlt : n < 2 ^ 54) :
    x.exponent ≤ 0 ∨ x.exponent = 1 ∧ n % 2 = 0 := by
  by_contra hcon
  have hpos : 0 < x.exponent := by omega
  obtain ⟨k, hk⟩ := Int.eq_ofNat_of_zero_le hpos.le
  have hvalue : n = x.mantissa * 2 ^ k := by
    rw [toNat?, if_pos hpos.le, hk] at hn
    exact (Option.some.inj hn).symm
  have hmantissa := hx.le_mantissa (by omega)
  have hone : k = 1 := by
    by_contra hne
    have hfour : 2 ^ 2 ≤ 2 ^ k := Nat.pow_le_pow_right (by norm_num) (by omega)
    have hlarge := Nat.mul_le_mul hmantissa hfour
    omega
  subst hone
  omega

/-- No other multiple of ten rounds to a whole number below `2 ^ 54`. -/
theorem Rounds.eq_of_lt (hx : x.Canonical) (hn : x.toNat? = some n) (hlt : n < 2 ^ 54) {c : Nat}
    (hc : c % 10 = 0) (h : x.Rounds c) : c = n := by
  have hvalue := toNat?_value hn
  rw [value_eq_quarters] at hvalue
  push_cast at hvalue
  have hquarter := x.quarter_pos
  have hlow : (4 * x.mantissa : ℚ) ≤ x.low + 2 := by exact_mod_cast hx.low_add.1
  have hhigh : (x.high : ℚ) = 4 * x.mantissa + 2 := by simp [high]
  have hbelow : (n : ℚ) ≤ c + 2 * x.quarter := by
    linarith [h.low_le, mul_le_mul_of_nonneg_right hlow hquarter.le]
  have habove : (c : ℚ) ≤ n + 2 * x.quarter := by
    have hle := h.le_high
    rw [hhigh] at hle
    linarith
  rcases hx.gap_of_lt hn hlt with hgap | ⟨hgap, heven⟩
  · have hhalf : x.quarter ≤ 1 / 4 := by
      have hpow : (2 : ℚ) ^ (x.exponent - 2) ≤ 2 ^ (-2 : ℤ) :=
        zpow_le_zpow_right₀ (by norm_num) (by omega)
      norm_num at hpow
      rw [quarter]
      linarith
    have hlt : n < c + 1 := by exact_mod_cast (show (n : ℚ) < c + 1 by linarith)
    have hgt : c < n + 1 := by exact_mod_cast (show (c : ℚ) < n + 1 by linarith)
    omega
  · have hone : x.quarter = 1 / 2 := by
      rw [quarter, hgap]
      norm_num
    have hle : n ≤ c + 1 := by exact_mod_cast (show (n : ℚ) ≤ c + 1 by linarith)
    have hge : c ≤ n + 1 := by exact_mod_cast (show (c : ℚ) ≤ n + 1 by linarith)
    omega

/-- The shortest digits of a whole number below `2 ^ 54` are the number itself. -/
theorem value_shortest_of_lt (hx : x.Canonical) (hn : x.toNat? = some n) (hlt : n < 2 ^ 54)
    (tie : Tie) : (x.shortest tie).value = n := by
  have hvalue := (toNat?_value hn).symm
  unfold shortest
  split
  · rename_i hzero
    rw [← hvalue]
    simp [Digits.value, value, hzero]
  · dsimp only
    rw [Digits.value_trim]
    generalize hfound : List.findSome? _ _ = found
    cases found with
    | none => rw [Option.getD_none, exact_value, hvalue]
    | some d =>
      obtain ⟨i, -, hd⟩ := List.exists_of_findSome?_eq_some hfound
      rcases le_or_gt (x.magnitude - 1 - i) 0 with he | he
      · exact value_of_onGrid?_of_nonpos hvalue he hd
      · -- on a coarser grid every point is a multiple of ten
        obtain ⟨k, hk⟩ : ∃ k : Nat, x.magnitude - 1 - i = (k + 1 : Nat) :=
          ⟨(x.magnitude - 1 - i - 1).toNat, by omega⟩
        have hexponent := (exponent_of_onGrid? hd).trans hk
        have hd' : d.value = (d.significand * 10 ^ (k + 1) : Nat) := by
          rw [Digits.value, hexponent, zpow_natCast]
          push_cast
          rfl
        have hrounds := rounds_of_onGrid? hd
        rw [hd'] at hrounds
        have hten : d.significand * 10 ^ (k + 1) % 10 = 0 := by
          rw [pow_succ, ← mul_assoc, Nat.mul_mod_left]
        rw [Option.getD_some, hd', hrounds.eq_of_lt hx hn hlt hten]

theorem mantissa_pos (hn : x.toNat? = some n) (hpos : 0 < n) : 0 < x.mantissa := by
  refine Nat.pos_of_ne_zero fun hzero => hpos.ne' ?_
  have hvalue := toNat?_value hn
  simpa [value, hzero] using hvalue

theorem significand_shortest_pos (tie : Tie) (h : 0 < x.mantissa) :
    0 < (x.shortest tie).significand := by
  refine Nat.pos_of_ne_zero fun hzero => ?_
  have hlow := (x.rounds_shortest tie).low_le
  have hvalue : (x.shortest tie).value = 0 := by simp [Digits.value, hzero]
  have hpos : 0 < x.low := by
    rw [low]
    split <;> omega
  have hquarter : (0 : ℚ) < x.low * x.quarter := mul_pos (by exact_mod_cast hpos) x.quarter_pos
  rw [hvalue] at hlow
  exact hquarter.not_ge hlow

end Binary

/-! ### Both texts -/

variable {x : Float} {s : Bool} {v : Binary} {n : Nat}

/-- The sign of a number in front of its text. -/
def signed (s : Bool) (cs : List Char) : List Char := if s then '-' :: cs else cs

theorem signed_inj {cs ds : List Char} : signed s cs = signed s ds ↔ cs = ds := by
  cases s <;> simp [signed]

theorem whole?_of_lt (bound : Nat) (hx : Parts.ofFloat x = ⟨s, .finite v⟩) (hn : v.toNat? = some n)
    (h : n < bound) : whole? bound x = some (if s ∧ n ≠ 0 then '-' :: numeral n else numeral n) := by
  simp only [whole?, hx, hn, if_pos h]

theorem whole?_of_le (bound : Nat) (hx : Parts.ofFloat x = ⟨s, .finite v⟩) (hn : v.toNat? = some n)
    (h : bound ≤ n) : whole? bound x = none := by
  simp only [whole?, hx, hn, if_neg (Nat.not_lt.2 h)]

theorem general_write (hx : Parts.ofFloat x = ⟨s, .finite v⟩) : general.write x =
    String.ofList (signed s (plain [] (numeral (v.shortest .away).significand)
      (v.shortest .away).exponent)) := by
  rw [Style.write, hx]
  cases s <;> rfl

/-- A number below both bounds is written out by both rules. -/
theorem text_eq_of_lt (hx : Parts.ofFloat x = ⟨s, .finite v⟩) (hn : v.toNat? = some n)
    (h : n < 10 ^ 15) :
    withoutPointZero (Kind.literalText (.number x)) = (Value.number x).text := by
  have hlisted := whole?_of_lt (Nat.pow 2 63) hx hn (h.trans (by norm_num))
  have hseen := whole?_of_lt (Nat.pow 10 15) hx hn h
  rw [Kind.literalText, Value.text, numberText, hlisted, hseen]
  exact withoutPointZero_append _

/-- A number above both bounds is written with its shortest digits by both rules. -/
theorem text_eq_of_le (hx : Parts.ofFloat x = ⟨s, .finite v⟩) (hn : v.toNat? = some n)
    (h : 2 ^ 63 ≤ n) :
    withoutPointZero (Kind.literalText (.number x)) = (Value.number x).text := by
  have hlisted := whole?_of_le (Nat.pow 2 63) hx hn h
  have hseen := whole?_of_le (Nat.pow 10 15) hx hn (le_trans (by norm_num) h)
  rw [Kind.literalText, Value.text, numberText, hlisted, hseen]
  dsimp only
  rw [general_write hx]
  -- digits that end in a zero behind the point would not be trimmed
  have hpos : 0 < (v.shortest .away).significand :=
    Binary.significand_shortest_pos .away (Binary.mantissa_pos hn (lt_of_lt_of_le (by norm_num) h))
  have hsuffix := not_suffix_plain (v.trimmed_shortest .away) hpos (if s then ['-'] else [])
    (by split <;> simp)
  refine withoutPointZero_of_not_suffix ?_
  cases s <;> exact hsuffix

/-- Between the bounds a script sees the shortest digits, and a listing has all of them. -/
theorem text_eq_iff_of_between (hx : Parts.ofFloat x = ⟨s, .finite v⟩) (hn : v.toNat? = some n)
    (hle : 10 ^ 15 ≤ n) (hlt : n < 2 ^ 63) :
    withoutPointZero (Kind.literalText (.number x)) = (Value.number x).text ↔
      (v.shortest .away).value = n := by
  have hpos : 0 < n := lt_of_lt_of_le (by norm_num) hle
  have hlisted := whole?_of_lt (Nat.pow 2 63) hx hn hlt
  have hseen := whole?_of_le (Nat.pow 10 15) hx hn hle
  have hsigned : (if s ∧ n ≠ 0 then '-' :: numeral n else numeral n) = signed s (numeral n) := by
    simp [signed, hpos.ne']
  rw [Kind.literalText, Value.text, numberText, hlisted, hseen, hsigned]
  dsimp only
  rw [general_write hx, withoutPointZero_append, String.ofList_inj, signed_inj, eq_comm,
    plain_eq_numeral_iff (v.trimmed_shortest .away) hpos]

/-- **Where the two texts of a whole number agree.** Without its final `.0`, the text of a whole
number in a listing of tokens is the text that scripts see if and only if the number is below
`10 ^ 15`, is at least `2 ^ 63`, or is what its shortest digits say. Below `2 ^ 54` the texts always
agree. -/
theorem literalText_eq_text_iff (hx : Parts.ofFloat x = ⟨s, .finite v⟩) (hn : v.toNat? = some n) :
    (withoutPointZero (Kind.literalText (.number x)) = (Value.number x).text ↔
      n < 10 ^ 15 ∨ 2 ^ 63 ≤ n ∨ (v.shortest .away).value = n) ∧
    (n < 2 ^ 54 → withoutPointZero (Kind.literalText (.number x)) = (Value.number x).text) := by
  have hcanonical : v.Canonical := Parts.canonical (congrArg Parts.magnitude hx)
  have hiff : withoutPointZero (Kind.literalText (.number x)) = (Value.number x).text ↔
      n < 10 ^ 15 ∨ 2 ^ 63 ≤ n ∨ (v.shortest .away).value = n := by
    rcases Nat.lt_or_ge n (10 ^ 15) with hsmall | hsmall
    · exact iff_of_true (text_eq_of_lt hx hn hsmall) (.inl hsmall)
    rcases Nat.lt_or_ge n (2 ^ 63) with hlarge | hlarge
    · rw [text_eq_iff_of_between hx hn hsmall hlarge]
      simp only [Nat.not_lt.2 hsmall, Nat.not_le.2 hlarge, false_or]
    · exact iff_of_true (text_eq_of_le hx hn hlarge) (.inr (.inl hlarge))
  refine ⟨hiff, fun hlt => hiff.2 (.inr (.inr ?_))⟩
  exact Binary.value_shortest_of_lt hcanonical hn hlt .away

/-- The number `2 ^ 54`, of which a script still sees every digit. -/
theorem literalText_eq_text_iff_at_two_pow_fifty_four :
    ∃ v, Parts.ofFloat 18014398509481984 = ⟨false, .finite v⟩ ∧
      v.toNat? = some 18014398509481984 ∧
      (withoutPointZero (Kind.literalText (.number 18014398509481984)) =
          (Value.number 18014398509481984).text ↔
        18014398509481984 < 10 ^ 15 ∨ 2 ^ 63 ≤ 18014398509481984 ∨
          (v.shortest .away).value = (18014398509481984 : Nat)) := by
  have hv : Parts.ofFloat 18014398509481984 = ⟨false, .finite ⟨2 ^ 52, 2, true⟩⟩ := by
    decide +kernel
  have hn : Binary.toNat? ⟨2 ^ 52, 2, true⟩ = some 18014398509481984 := by decide +kernel
  exact ⟨_, hv, hn, (literalText_eq_text_iff hv hn).1⟩

/-- A listing has `2 ^ 60` with all its digits, and scripts see its shortest digits and zeros. -/
theorem texts_differ_at_two_pow_sixty :
    ¬ ∀ x v n, Parts.ofFloat x = ⟨false, .finite v⟩ → v.toNat? = some n →
      withoutPointZero (Kind.literalText (.number x)) = (Value.number x).text := by
  intro h
  have hv : Parts.ofFloat 1152921504606846976 = ⟨false, .finite ⟨2 ^ 52, 8, true⟩⟩ := by
    decide +kernel
  have hn : Binary.toNat? ⟨2 ^ 52, 8, true⟩ = some 1152921504606846976 := by decide +kernel
  have hlisted : withoutPointZero (Kind.literalText (.number 1152921504606846976)) =
      "1152921504606846976" := by
    decide +kernel
  have hseen : (Value.number 1152921504606846976).text = "1152921504606847000" := by
    decide +kernel
  have hsame := h _ _ _ hv hn
  rw [hlisted, hseen] at hsame
  revert hsame
  decide

end Scriptlet.Decimal
