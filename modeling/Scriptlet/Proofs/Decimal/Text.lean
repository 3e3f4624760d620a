import Scriptlet.Decimal.Layout
import Scriptlet.Proofs.Decimal.Bits
import Scriptlet.Proofs.Token.Written

/-!
# What the text of a number says

The text of a finite number without a sign is made of digits with at most one point between them. It
denotes a number that rounds to the number written (`exists_denotes_numberText`), so two numbers
with one text are the same (`eq_of_numberText_eq`).
-/

namespace Scriptlet.Decimal

/-- The number that a text of digits denotes, possibly with a point between two of them. -/
inductive Denotes : List Char → ℚ → Prop
  | whole {ds : List Char} : IsNumeral ds → Denotes ds (natOfDigits ds)
  | decimal {ds fs : List Char} : IsNumeral ds → IsNumeral fs →
      Denotes (ds ++ '.' :: fs) (natOfDigits (ds ++ fs) / 10 ^ fs.length)

theorem not_isDigit_point : ¬ IsDigit '.' := by decide

theorem Denotes.unique {cs : List Char} {q q' : ℚ} (h : Denotes cs q) (h' : Denotes cs q') :
    q = q' := by
  have hdigit {ds : List Char} (hds : IsNumeral ds) : ∀ d ∈ ds, d.isDigit = true :=
    fun d hd => Scan.isDigit_iff.2 (hds.2 d hd)
  have hpoint : Char.isDigit '.' = false := by decide
  generalize hcs : cs = cs' at h'
  cases h with
  | whole hds =>
    cases h' with
    | whole => rw [hcs]
    | decimal =>
      subst hcs
      exact absurd (hds.2 '.' (by simp)) not_isDigit_point
  | @decimal ds fs hds hfs =>
    cases h' with
    | whole hds' =>
      subst hcs
      exact absurd (hds'.2 '.' (by simp)) not_isDigit_point
    | @decimal ds' fs' hds' hfs' =>
      have hbefore := congrArg (List.takeWhile Char.isDigit) hcs
      rw [Scan.takeWhile_append_stop hpoint, Scan.takeWhile_append_stop hpoint,
        List.takeWhile_eq_self_iff.2 (hdigit hds), List.takeWhile_eq_self_iff.2 (hdigit hds')]
        at hbefore
      subst hbefore
      cases List.append_cancel_left hcs
      rfl

/-! ### Digits -/

theorem natOfDigits_eq (cs : List Char) : natOfDigits cs = Nat.ofDigitChars 10 cs 0 := rfl

theorem natOfDigits_numeral (n : Nat) : natOfDigits (numeral n) = n := Nat.ofDigitChars_ten_toDigits

theorem natOfDigits_append_zeros (cs : List Char) (k : Nat) :
    natOfDigits (cs ++ List.replicate k '0') = natOfDigits cs * 10 ^ k := by
  rw [natOfDigits_eq, Nat.ofDigitChars_append, Nat.ofDigitChars_replicate_zero, Nat.mul_comm]
  rfl

theorem natOfDigits_zeros_append (cs : List Char) (k : Nat) :
    natOfDigits (List.replicate k '0' ++ cs) = natOfDigits cs := by
  rw [natOfDigits_eq, Nat.ofDigitChars_append, Nat.ofDigitChars_replicate_zero, Nat.mul_zero]
  rfl

theorem isNumeral_numeral (n : Nat) : IsNumeral (numeral n) :=
  ⟨Nat.toDigits_ne_nil, fun _ hc =>
    Scan.isDigit_iff.1 (Nat.isDigit_of_mem_toDigits (by norm_num) le_rfl hc)⟩

theorem isDigit_of_mem_zeros {k : Nat} {c : Char} (h : c ∈ List.replicate k '0') : IsDigit c := by
  rw [List.eq_of_mem_replicate h]
  decide

section Pointed

variable {ds : List Char} {k : Nat} (h : IsNumeral ds)

include h

theorem isNumeral_append_zeros (k : Nat) : IsNumeral (ds ++ List.replicate k '0') := by
  refine ⟨by simp [h.1], fun c hc => ?_⟩
  rcases List.mem_append.1 hc with hc | hc
  · exact h.2 c hc
  · exact isDigit_of_mem_zeros hc

theorem isNumeral_zeros_append (k : Nat) : IsNumeral (List.replicate k '0' ++ ds) := by
  refine ⟨by simp [h.1], fun c hc => ?_⟩
  rcases List.mem_append.1 hc with hc | hc
  · exact isDigit_of_mem_zeros hc
  · exact h.2 c hc

/-- A point between the digits of a number. -/
theorem denotes_point (hpos : 0 < k) (hk : k < ds.length) :
    Denotes (ds.take (ds.length - k) ++ '.' :: ds.drop (ds.length - k))
      (natOfDigits ds / 10 ^ k) := by
  have hbefore : IsNumeral (ds.take (ds.length - k)) := by
    refine ⟨List.ne_nil_of_length_pos ?_, fun c hc => h.2 c (List.mem_of_mem_take hc)⟩
    rw [List.length_take]
    omega
  have hlength : (ds.drop (ds.length - k)).length = k := by
    rw [List.length_drop]
    omega
  have hbehind : IsNumeral (ds.drop (ds.length - k)) := by
    refine ⟨List.ne_nil_of_length_pos ?_, fun c hc => h.2 c (List.mem_of_mem_drop hc)⟩
    rwa [hlength]
  have hdenotes := Denotes.decimal hbefore hbehind
  rwa [List.take_append_drop, hlength] at hdenotes

/-- A point in front of the digits of a number. -/
theorem denotes_fraction (hk : ds.length ≤ k) :
    Denotes ('0' :: '.' :: List.replicate (k - ds.length) '0' ++ ds)
      (natOfDigits ds / 10 ^ k) := by
  have hzero : IsNumeral (List.replicate 1 '0') :=
    ⟨List.cons_ne_nil _ _, fun _ => isDigit_of_mem_zeros⟩
  have hlength : (List.replicate (k - ds.length) '0' ++ ds).length = k := by
    rw [List.length_append, List.length_replicate]
    omega
  have hdenotes := Denotes.decimal hzero (isNumeral_zeros_append h (k - ds.length))
  rwa [natOfDigits_zeros_append, natOfDigits_zeros_append, hlength] at hdenotes

end Pointed

/-- Digits with the point in its place denote the number that they and the exponent say. -/
theorem denotes_plain (n : Nat) (e : ℤ) :
    Denotes (plain [] (numeral n) e) (Digits.value ⟨n, e⟩) := by
  have hn := isNumeral_numeral n
  unfold plain
  split
  · rename_i he
    obtain ⟨k, rfl⟩ := Int.eq_ofNat_of_zero_le he
    have hvalue : Digits.value ⟨n, k⟩ = natOfDigits (numeral n ++ List.replicate k '0') := by
      simp [Digits.value, natOfDigits_append_zeros, natOfDigits_numeral]
    rw [Int.toNat_natCast, List.append_nil, hvalue]
    exact .whole (isNumeral_append_zeros hn k)
  · rename_i he
    obtain ⟨k, rfl⟩ : ∃ k : Nat, e = -k := ⟨(-e).toNat, by omega⟩
    have hvalue : Digits.value ⟨n, -k⟩ = natOfDigits (numeral n) / 10 ^ k := by
      simp [Digits.value, natOfDigits_numeral, div_eq_mul_inv]
    dsimp only
    rw [neg_neg, Int.toNat_natCast, hvalue]
    split
    · rename_i hk
      exact denotes_point hn (by omega) hk
    · rename_i hk
      exact denotes_fraction hn (Nat.le_of_not_lt hk)

/-! ### Numbers -/

variable {x y : Float} {v : Binary}

/-- The text of a finite number without a sign denotes a number that rounds to it. -/
theorem exists_denotes_numberText (h : Parts.ofFloat x = ⟨false, .finite v⟩) :
    ∃ q, Denotes (numberText x).toList q ∧ v.Rounds q := by
  unfold numberText
  split
  · rename_i digits hwhole
    unfold whole? at hwhole
    rw [h] at hwhole
    dsimp only at hwhole
    split at hwhole
    · rename_i n hn
      split at hwhole
      · cases hwhole
        refine ⟨n, ?_, Binary.toNat?_value hn ▸ v.rounds_value⟩
        have hdenotes := Denotes.whole (isNumeral_numeral n)
        rw [natOfDigits_numeral] at hdenotes
        simpa using hdenotes
      · cases hwhole
    · cases hwhole
  · refine ⟨_, ?_, v.rounds_shortest general.tie⟩
    rw [Style.write, h]
    dsimp only
    rw [String.toList_ofList, Style.finite]
    exact denotes_plain _ _

/-- Finite numbers without a sign that have one text are one number. -/
theorem eq_of_numberText_eq (hx : SignClear x) (hy : SignClear y) (hx' : x.isFinite = true)
    (hy' : y.isFinite = true) (h : numberText x = numberText y) : x = y := by
  obtain ⟨v, hv⟩ := Parts.exists_finite hx'
  obtain ⟨w, hw⟩ := Parts.exists_finite hy'
  have hpx : Parts.ofFloat x = ⟨false, .finite v⟩ := by
    rw [← negative_of_signClear hx, ← hv]
  have hpy : Parts.ofFloat y = ⟨false, .finite w⟩ := by
    rw [← negative_of_signClear hy, ← hw]
  obtain ⟨q, hq, hvq⟩ := exists_denotes_numberText hpx
  obtain ⟨q', hq', hwq⟩ := exists_denotes_numberText hpy
  obtain rfl := hq.unique (h ▸ hq')
  obtain rfl := hvq.unique (Parts.canonical hv) (Parts.canonical hw) hwq
  exact Parts.eq_of_finite hpx hpy

end Scriptlet.Decimal
