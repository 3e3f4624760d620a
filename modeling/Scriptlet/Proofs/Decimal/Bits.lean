import Scriptlet.Decimal.Reading
import Scriptlet.Proofs.Decimal.Interval

/-!
# Doubles and their parts

The parts of a finite double are in canonical form and determine it, and the sign bit of a double
that was read off digits is clear.
-/

namespace Scriptlet.Decimal

open Float.Model Float.Model.UnpackedFloat

/-! ### Reading parts off bits -/

namespace Parts

variable {x y : Float} {s : Bool} {v : Binary}

/-- The exponent bits of a double. -/
def exponentBits (x : Float) : Nat := x.toBits.toNat / 2 ^ 52 % 2 ^ 11

/-- The fraction bits of a double. -/
def fractionBits (x : Float) : Nat := x.toBits.toNat % 2 ^ 52

theorem fractionBits_lt (x : Float) : fractionBits x < 2 ^ 52 := Nat.mod_lt _ (by norm_num)

theorem negative_ofFloat (x : Float) :
    (ofFloat x).negative = decide (2 ^ 63 ≤ x.toBits.toNat) := by
  have hlt := x.toBits.toNat_lt
  have hshift : (x.toBits >>> 63).toNat = x.toBits.toNat / 2 ^ 63 := by
    rw [UInt64.toNat_shiftRight, Nat.shiftRight_eq_div_pow]
    rfl
  have hone : (1 : UInt64).toNat = 1 := rfl
  rw [Bool.eq_iff_iff, decide_eq_true_eq, ofFloat, ofBits, beq_iff_eq, ← UInt64.toNat_inj, hshift,
    hone]
  omega

theorem magnitude_ofFloat (x : Float) : (ofFloat x).magnitude =
    if exponentBits x = 0x7FF then if fractionBits x = 0 then .infinite else .nan
    else if exponentBits x = 0 then .finite ⟨fractionBits x, -1074, false⟩
    else .finite ⟨2 ^ 52 + fractionBits x, (exponentBits x : ℤ) - 1075,
      decide (fractionBits x = 0 ∧ 1 < exponentBits x)⟩ := by
  have he : ((x.toBits >>> 52) &&& 0x7FF).toNat = exponentBits x := by
    have hmask : (0x7FF : UInt64).toNat = 2 ^ 11 - 1 := rfl
    rw [UInt64.toNat_and, hmask, Nat.and_two_pow_sub_one_eq_mod, UInt64.toNat_shiftRight,
      Nat.shiftRight_eq_div_pow]
    rfl
  have hf : (x.toBits &&& 0xFFFFFFFFFFFFF).toNat = fractionBits x := by
    have hmask : (0xFFFFFFFFFFFFF : UInt64).toNat = 2 ^ 52 - 1 := rfl
    rw [UInt64.toNat_and, hmask, Nat.and_two_pow_sub_one_eq_mod]
    rfl
  simp only [ofFloat, ofBits, he, hf, Nat.pow_eq]

/-- The exponent and the fraction of a finite double, from its canonical form. -/
theorem bits_of_finite (h : (ofFloat x).magnitude = .finite v) :
    exponentBits x = (if v.mantissa < 2 ^ 52 then 0 else v.exponent + 1075) ∧
      fractionBits x = v.mantissa % 2 ^ 52 := by
  have hlt := fractionBits_lt x
  rw [magnitude_ofFloat] at h
  split at h
  · split at h <;> cases h
  · split at h <;> cases h <;> dsimp only <;> split <;> omega

theorem canonical (h : (ofFloat x).magnitude = .finite v) : v.Canonical := by
  have hlt := fractionBits_lt x
  have he : exponentBits x < 2 ^ 11 := Nat.mod_lt _ (by norm_num)
  rw [magnitude_ofFloat] at h
  split at h
  · split at h <;> cases h
  · split at h <;> cases h
    · exact ⟨by dsimp only; omega, by dsimp only; omega, by simp, by simp⟩
    · refine ⟨by dsimp only; omega, by dsimp only; omega, by simp, ?_⟩
      dsimp only
      rw [decide_eq_true_eq]
      omega

/-- Sign and magnitude of a finite double determine it. -/
theorem eq_of_finite (hx : ofFloat x = ⟨s, .finite v⟩) (hy : ofFloat y = ⟨s, .finite v⟩) :
    x = y := by
  have hsign : (ofFloat x).negative = (ofFloat y).negative := by rw [hx, hy]
  obtain ⟨hex, hfx⟩ := bits_of_finite (congrArg magnitude hx)
  obtain ⟨hey, hfy⟩ := bits_of_finite (congrArg magnitude hy)
  have hex : exponentBits x = exponentBits y := by exact_mod_cast hex.trans hey.symm
  have hfx : fractionBits x = fractionBits y := hfx.trans hfy.symm
  rw [negative_ofFloat, negative_ofFloat, decide_eq_decide] at hsign
  have hltx := x.toBits.toNat_lt
  have hlty := y.toBits.toNat_lt
  unfold exponentBits at hex
  unfold fractionBits at hfx
  have hnat : x.toBits.toNat = y.toBits.toNat := by omega
  have hbits : x.toModel.toBits = y.toModel.toBits := UInt64.toNat_inj.1 hnat
  obtain ⟨⟨b, hb⟩⟩ := x
  obtain ⟨⟨b', hb'⟩⟩ := y
  cases hbits
  rfl

theorem exists_finite (h : x.isFinite = true) : ∃ v, (ofFloat x).magnitude = .finite v := by
  have he : exponentBits x ≠ 0x7FF := by
    intro he
    have hall : @unpackExponent Format.binary64 x.toModel.toBits.toBitVec = -1#_ := by
      refine BitVec.eq_of_toNat_eq ?_
      change x.toBits.toNat >>> 52 % 2 ^ 11 = 0x7FF
      rwa [Nat.shiftRight_eq_div_pow]
    have hunpack : x.toModel.unpack = if _ = 0#_ then .infinity _ else .notANumber := if_pos hall
    change x.toModel.unpack.isFinite = true at h
    rw [hunpack] at h
    split at h <;> cases h
  rw [magnitude_ofFloat, if_neg he]
  split <;> exact ⟨_, rfl⟩

end Parts

/-! ### Unsigned doubles -/

/-- A number without a minus sign. -/
def Unsigned : UnpackedFloat → Prop
  | .infinity s | .zero s | .finite s _ _ _ => s = .positive
  | .notANumber => True

/-- A double whose sign bit is clear. -/
def SignClear (x : Float) : Prop := x.toBits.toNat < 2 ^ 63

theorem negative_of_signClear {x : Float} (h : SignClear x) :
    (Parts.ofFloat x).negative = false := by
  rw [Parts.negative_ofFloat, decide_eq_false_iff_not]
  exact Nat.not_le.2 h

namespace Unsigned

variable {a b : UnpackedFloat}

theorem signClear_pack (h : Unsigned a) : SignClear (.ofModel (.pack a)) := by
  have hclear (e : BitVec 11) (m : BitVec 52) :
      (packComponents Format.binary64 .positive e m).toNat < 2 ^ 63 := by
    have he := e.isLt
    have hm := m.isLt
    change ((0#1 ++ e) ++ m).toNat < 2 ^ 63
    rw [BitVec.toNat_append, BitVec.toNat_append, BitVec.toNat_ofNat, Nat.zero_mod,
      Nat.zero_shiftLeft, Nat.zero_or, Nat.shiftLeft_eq]
    exact Nat.or_lt_two_pow (by omega) (by omega)
  change (UnpackedFloat.pack Format.binary64 a).toNat < 2 ^ 63
  unfold UnpackedFloat.pack
  cases a with
  | notANumber => exact hclear _ _
  | infinity s | zero s | finite s m e hm =>
    cases h
    dsimp only
    first
      | exact hclear _ _
      | split
        · exact hclear _ _
        · split <;> exact hclear _ _

theorem ite {c : Prop} [Decidable c] (ha : Unsigned a) (hb : Unsigned b) :
    Unsigned (if c then a else b) := by
  split <;> assumption

theorem dite {c : Prop} [Decidable c] {a : c → UnpackedFloat} {b : ¬c → UnpackedFloat}
    (ha : ∀ h, Unsigned (a h)) (hb : ∀ h, Unsigned (b h)) :
    Unsigned (if h : c then a h else b h) := by
  split
  · exact ha _
  · exact hb _

theorem of_signClear {x : Float} (h : SignClear x) : Unsigned x.toModel.unpack := by
  have hsign : Sign.ofBitVec (@unpackSign Format.binary64 x.toModel.toBits.toBitVec) =
      .positive := by
    refine if_pos (BitVec.eq_of_toNat_eq ?_)
    change x.toBits.toNat >>> 63 % 2 ^ 1 = 0
    have hlt : x.toBits.toNat < 2 ^ 63 := h
    rw [Nat.shiftRight_eq_div_pow]
    omega
  exact .ite (.ite hsign trivial) (.ite (.dite (fun _ => hsign) fun _ => hsign) hsign)

theorem roundWithAccuracy (m : Nat) (e : ℤ) (acc : Accuracy) :
    Unsigned (roundWithAccuracy Format.binary64 .positive m e acc) :=
  .dite (fun _ => rfl) fun _ => rfl

theorem mul (ha : Unsigned a) (hb : Unsigned b) : Unsigned (a.mul Format.binary64 b) := by
  cases a <;> cases b <;> cases ha <;> cases hb <;>
    first | rfl | trivial | exact roundWithAccuracy _ _ _

theorem div (ha : Unsigned a) (hb : Unsigned b) : Unsigned (a.div Format.binary64 b) := by
  cases a <;> cases b <;> cases ha <;> cases hb <;>
    first | rfl | trivial | exact roundWithAccuracy _ _ _

theorem ofNat (n : Nat) : Unsigned (UnpackedFloat.ofNat Format.binary64 n) := by
  unfold UnpackedFloat.ofNat UnpackedFloat.ofInt UnpackedFloat.normalize
  split
  · rename_i h
    rw [Int.compare_eq_lt] at h
    omega
  · rfl
  · exact roundWithAccuracy _ _ _

theorem ofScientific (m : Nat) (e : ℤ) : Unsigned (ofScientific Format.binary64 m e) :=
  .dite (fun _ => rfl) fun _ => .ite rfl <| .ite rfl <| .ite (.mul rfl rfl) (.div rfl rfl)

end Unsigned

/-! ### Doubles read off digits -/

namespace SignClear

variable {x y : Float}

theorem mul (hx : SignClear x) (hy : SignClear y) : SignClear (x * y) :=
  ((Unsigned.of_signClear hx).mul (.of_signClear hy)).signClear_pack

theorem div (hx : SignClear x) (hy : SignClear y) : SignClear (x / y) :=
  ((Unsigned.of_signClear hx).div (.of_signClear hy)).signClear_pack

instance (x : Float) : Decidable (SignClear x) := inferInstanceAs (Decidable (_ < _))

theorem powerOfTen : ∀ p ∈ Float.exactlyRepresentablePowersOfTen.toList, SignClear p := by
  decide +kernel

theorem ofScientific (m : Nat) (s : Bool) (e : Nat) : SignClear (Float.ofScientific m s e) := by
  have hwhole : SignClear m.toUInt64.toFloat := (Unsigned.ofNat _).signClear_pack
  unfold Float.ofScientific
  split
  · dsimp only
    split
    · exact hwhole.div (powerOfTen _ (Array.getElem_mem_toList _))
    · exact hwhole.mul (powerOfTen _ (Array.getElem_mem_toList _))
  · exact (Unsigned.ofScientific _ _).signClear_pack

end SignClear

/-- What is read off digits has no sign. -/
theorem signClear_ofDigits (integer fraction : List Char) :
    SignClear (ofDigits integer fraction) := by
  unfold ofDigits nearest
  dsimp only
  split
  · exact SignClear.ofScientific 0 false 0
  split
  · exact (SignClear.ofScientific 1 false 0).div (.ofScientific 0 false 0)
  split
  · exact SignClear.ofScientific 0 false 0
  · exact SignClear.ofScientific _ _ _

end Scriptlet.Decimal
