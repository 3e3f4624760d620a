import Mathlib.Tactic
import Scriptlet.Text.Utf8

/-!
# Reading back encoded text

Every text is what its bytes encode (`decode_toUTF8`). The bytes of a character are read one after
the other, each in the interval that the first one leaves for it; the intervals are narrower exactly
where a character of fewer bytes, a surrogate or a number beyond the last character would be read.
The byte of an ASCII character is among the bytes of no other character, so such a character can be
searched for and counted in the bytes of a text (`idxOf?_encode_append`, `count_encode`).
-/

namespace Scriptlet

namespace Utf8

theorem Range.contains_eq_true_iff {r : Range} {b : UInt8} :
    r.contains b = true ↔ r.low.toNat ≤ b.toNat ∧ b.toNat ≤ r.high.toNat := by
  simp [contains, UInt8.le_iff_toNat_le]

/-! ### Where the bytes after a first byte lie -/

section Followers

variable {lead : UInt8}

/-- A byte below 128 is a character by itself. -/
theorem followers_of_le (h : lead.toNat ≤ 0x7F) : followers lead = some [] := by
  have : lead ≤ 0x7F := UInt8.le_iff_toNat_le.2 h
  rw [followers, if_pos this]

theorem followers_two (hlow : 0xC2 ≤ lead.toNat) (hhigh : lead.toNat ≤ 0xDF) :
    followers lead = some [tail] := by
  simp only [followers, UInt8.le_iff_toNat_le, ← UInt8.toNat_inj, UInt8.reduceToNat]
  rw [if_neg (by omega), if_neg (by omega), if_pos hhigh]

theorem followers_three (lead : UInt8) (hlow : 0xE0 ≤ lead.toNat) (hhigh : lead.toNat ≤ 0xEF) :
    ∃ r : Range, followers lead = some [r, tail] ∧
      r.low.toNat = (if lead.toNat = 0xE0 then 0xA0 else 0x80) ∧
      r.high.toNat = if lead.toNat = 0xED then 0x9F else 0xBF := by
  simp only [followers, UInt8.le_iff_toNat_le, ← UInt8.toNat_inj, UInt8.reduceToNat]
  rw [if_neg (by omega), if_neg (by omega), if_neg (by omega)]
  by_cases hoverlong : lead.toNat = 0xE0
  · rw [if_pos hoverlong, if_pos hoverlong, if_neg (by omega)]
    exact ⟨_, rfl, rfl, rfl⟩
  by_cases hsurrogate : lead.toNat = 0xED
  · rw [if_neg hoverlong, if_pos hsurrogate, if_neg hoverlong, if_pos hsurrogate]
    exact ⟨_, rfl, rfl, rfl⟩
  · rw [if_neg hoverlong, if_neg hsurrogate, if_pos hhigh, if_neg hoverlong, if_neg hsurrogate]
    exact ⟨_, rfl, rfl, rfl⟩

theorem followers_four (lead : UInt8) (hlow : 0xF0 ≤ lead.toNat) (hhigh : lead.toNat ≤ 0xF4) :
    ∃ r : Range, followers lead = some [r, tail, tail] ∧
      r.low.toNat = (if lead.toNat = 0xF0 then 0x90 else 0x80) ∧
      r.high.toNat = if lead.toNat = 0xF4 then 0x8F else 0xBF := by
  simp only [followers, UInt8.le_iff_toNat_le, ← UInt8.toNat_inj, UInt8.reduceToNat]
  rw [if_neg (by omega), if_neg (by omega), if_neg (by omega), if_neg (by omega), if_neg (by omega),
    if_neg (by omega)]
  by_cases hoverlong : lead.toNat = 0xF0
  · rw [if_pos hoverlong, if_pos hoverlong, if_neg (by omega)]
    exact ⟨_, rfl, rfl, rfl⟩
  by_cases hlast : lead.toNat = 0xF4
  · rw [if_neg hoverlong, if_neg (by omega), if_pos hlast, if_neg hoverlong, if_pos hlast]
    exact ⟨_, rfl, rfl, rfl⟩
  · rw [if_neg hoverlong, if_pos (by omega), if_neg hoverlong, if_neg hlast]
    exact ⟨_, rfl, rfl, rfl⟩

end Followers

/-! ### Characters -/

section LeadBits

variable (lead : UInt8)

theorem leadBits_zero : leadBits lead 0 = lead.toNat := rfl

theorem leadBits_one : leadBits lead 1 = lead.toNat - 0xC0 := rfl

theorem leadBits_two : leadBits lead 2 = lead.toNat - 0xE0 := rfl

theorem leadBits_three : leadBits lead 3 = lead.toNat - 0xF0 := rfl

end LeadBits

theorem follow_cons {r : Range} {b : UInt8} (hlow : r.low.toNat ≤ b.toNat)
    (hhigh : b.toNat ≤ r.high.toNat) (rs : List Range) (bs : List UInt8) (bits more : Nat) :
    follow (r :: rs) (b :: bs) bits more =
      follow rs bs (bits * 64 + (b.toNat - 0x80)) (more + 1) := by
  rw [follow, if_pos (Range.contains_eq_true_iff.2 ⟨hlow, hhigh⟩)]

theorem toNat_ofNat {n : Nat} (h : n < 256) : (UInt8.ofNat n).toNat = n :=
  UInt8.toNat_ofNat_of_lt' h

theorem follow_tail {v : Nat} (hv : v < 64) (rs : List Range) (bs : List UInt8) (bits more : Nat) :
    follow (tail :: rs) (UInt8.ofNat (v + 128) :: bs) bits more =
      follow rs bs (bits * 64 + v) (more + 1) := by
  have hb : (UInt8.ofNat (v + 128)).toNat = v + 128 := toNat_ofNat (by omega)
  have hlow : tail.low.toNat = 128 := rfl
  have hhigh : tail.high.toNat = 191 := rfl
  rw [follow_cons (by omega) (by omega), hb, Nat.add_sub_cancel]

section FirstPart

variable {v : Nat} (bs : List UInt8)

/-- A character below 128 is its one byte. -/
theorem firstPart_one (h : v ≤ 0x7F) : firstPart (UInt8.ofNat v) bs = .char (.ofNat v) 0 := by
  have hlead : (UInt8.ofNat v).toNat = v := toNat_ofNat (by omega)
  rw [firstPart, followers_of_le (by omega)]
  change follow [] bs (leadBits _ 0) 0 = _
  rw [leadBits_zero, hlead, follow]

/-- A character below 2048 is two bytes. -/
theorem firstPart_two (hlow : 0x7F < v) (hhigh : v ≤ 0x7FF) :
    firstPart (UInt8.ofNat (v / 64 % 32 + 192)) (UInt8.ofNat (v % 64 + 128) :: bs) =
      .char (.ofNat v) 1 := by
  have hlead : (UInt8.ofNat (v / 64 % 32 + 192)).toNat = v / 64 % 32 + 192 :=
    toNat_ofNat (by omega)
  have hv : v / 64 % 32 * 64 + v % 64 = v := by omega
  rw [firstPart, followers_two (by omega) (by omega)]
  change follow [tail] _ (leadBits _ 1) 0 = _
  rw [leadBits_one, hlead, follow_tail (by omega), Nat.add_sub_cancel, hv, follow]

/-- Any other character of the first plane is three bytes, surrogates excepted. -/
theorem firstPart_three (hlow : 0x7FF < v) (hhigh : v ≤ 0xFFFF)
    (hvalid : v < 0xD800 ∨ 0xDFFF < v) :
    firstPart (UInt8.ofNat (v / 4096 % 16 + 224))
      (UInt8.ofNat (v / 64 % 64 + 128) :: UInt8.ofNat (v % 64 + 128) :: bs) =
      .char (.ofNat v) 2 := by
  have hlead : (UInt8.ofNat (v / 4096 % 16 + 224)).toNat = v / 4096 % 16 + 224 :=
    toNat_ofNat (by omega)
  have hsecond : (UInt8.ofNat (v / 64 % 64 + 128)).toNat = v / 64 % 64 + 128 :=
    toNat_ofNat (by omega)
  have hv : (v / 4096 % 16 * 64 + v / 64 % 64) * 64 + v % 64 = v := by omega
  obtain ⟨r, hr, hrlow, hrhigh⟩ :=
    followers_three (UInt8.ofNat (v / 4096 % 16 + 224)) (by omega) (by omega)
  rw [firstPart, hr]
  change follow [r, tail] _ (leadBits _ 2) 0 = _
  -- the character is neither overlong nor a surrogate, so its second byte is in the narrow interval
  rw [leadBits_two, hlead, follow_cons (by rw [hrlow, hlead, hsecond]; split_ifs <;> omega)
    (by rw [hrhigh, hlead, hsecond]; split_ifs <;> omega), hsecond, Nat.add_sub_cancel,
    Nat.add_sub_cancel, follow_tail (by omega), hv, follow]

/-- A character of a further plane is four bytes. -/
theorem firstPart_four (hlow : 0xFFFF < v) (hhigh : v < 0x110000) :
    firstPart (UInt8.ofNat (v / 262144 % 8 + 240))
      (UInt8.ofNat (v / 4096 % 64 + 128) :: UInt8.ofNat (v / 64 % 64 + 128) ::
        UInt8.ofNat (v % 64 + 128) :: bs) = .char (.ofNat v) 3 := by
  have hlead : (UInt8.ofNat (v / 262144 % 8 + 240)).toNat = v / 262144 % 8 + 240 :=
    toNat_ofNat (by omega)
  have hsecond : (UInt8.ofNat (v / 4096 % 64 + 128)).toNat = v / 4096 % 64 + 128 :=
    toNat_ofNat (by omega)
  have hv : ((v / 262144 % 8 * 64 + v / 4096 % 64) * 64 + v / 64 % 64) * 64 + v % 64 = v := by
    omega
  obtain ⟨r, hr, hrlow, hrhigh⟩ :=
    followers_four (UInt8.ofNat (v / 262144 % 8 + 240)) (by omega) (by omega)
  rw [firstPart, hr]
  change follow [r, tail, tail] _ (leadBits _ 3) 0 = _
  rw [leadBits_three, hlead, follow_cons (by rw [hrlow, hlead, hsecond]; split_ifs <;> omega)
    (by rw [hrhigh, hlead, hsecond]; split_ifs <;> omega), hsecond, Nat.add_sub_cancel,
    Nat.add_sub_cancel, follow_tail (by omega), follow_tail (by omega), hv, follow]

end FirstPart

/-- The bytes of a character are read as the character. -/
theorem parts_utf8EncodeChar_append (c : Char) (bs : List UInt8) :
    ∃ more, parts (String.utf8EncodeChar c ++ bs) = .char c more :: parts bs := by
  have hvalid : c.val.toNat < 0xD800 ∨ 0xDFFF < c.val.toNat ∧ c.val.toNat < 0x110000 := c.valid
  have hc : Char.ofNat c.val.toNat = c := Char.ofNat_toNat c
  unfold String.utf8EncodeChar
  generalize c.val.toNat = v at hvalid hc
  subst hc
  by_cases hone : v ≤ 0x7F
  · refine ⟨0, ?_⟩
    simp only [if_pos hone, List.cons_append, List.nil_append]
    rw [parts, firstPart_one bs hone]
    rfl
  by_cases htwo : v ≤ 0x7FF
  · refine ⟨1, ?_⟩
    simp only [if_neg hone, if_pos htwo, List.cons_append, List.nil_append]
    rw [parts, firstPart_two bs (by omega) htwo]
    rfl
  by_cases hthree : v ≤ 0xFFFF
  · refine ⟨2, ?_⟩
    simp only [if_neg hone, if_neg htwo, if_pos hthree, List.cons_append, List.nil_append]
    rw [parts, firstPart_three bs (by omega) hthree (by omega)]
    rfl
  · refine ⟨3, ?_⟩
    simp only [if_neg hone, if_neg htwo, if_neg hthree, List.cons_append, List.nil_append]
    rw [parts, firstPart_four bs (by omega) (by omega)]
    rfl

/-! ### Bytes of characters -/

/-- The bytes of characters. -/
def encode (cs : List Char) : List UInt8 := cs.flatMap String.utf8EncodeChar

@[simp] theorem encode_nil : encode [] = [] := rfl

theorem encode_cons (c : Char) (cs : List Char) :
    encode (c :: cs) = String.utf8EncodeChar c ++ encode cs := List.flatMap_cons

theorem encode_append (cs ds : List Char) : encode (cs ++ ds) = encode cs ++ encode ds :=
  List.flatMap_append

/-- As many bytes as the text of the characters has. -/
theorem length_encode (cs : List Char) : (encode cs).length = (String.ofList cs).utf8ByteSize := by
  rw [← String.size_toByteArray, String.toByteArray_ofList]
  simp [encode, List.utf8Encode]

section Ascii

variable {c q : Char}

/-- An ASCII character is one byte. -/
theorem utf8EncodeChar_of_lt (h : c.toNat < 128) : String.utf8EncodeChar c = [c.toUInt8] := by
  unfold String.utf8EncodeChar
  exact if_pos (Nat.le_of_lt_succ h)

/-- A character below 128 is encoded by its code. -/
theorem encode_cons_of_lt (h : c.toNat < 128) (cs : List Char) :
    encode (c :: cs) = c.toUInt8 :: encode cs := by
  rw [encode_cons, utf8EncodeChar_of_lt h, List.singleton_append]

/-- The bytes of any other character are none of ASCII. -/
theorem le_of_mem_utf8EncodeChar (h : 128 ≤ c.toNat) {b : UInt8}
    (hb : b ∈ String.utf8EncodeChar c) : 128 ≤ b.toNat := by
  have hval : 128 ≤ c.val.toNat := h
  unfold String.utf8EncodeChar at hb
  generalize c.val.toNat = v at hval hb
  rw [if_neg (by omega)] at hb
  -- the bytes of a longer character are sums with at least 128
  split_ifs at hb <;>
    · simp only [List.mem_cons, List.not_mem_nil, or_false] at hb
      rcases hb with rfl | rfl | rfl | rfl <;> rw [toNat_ofNat (by omega)] <;> omega

theorem toNat_toUInt8 (h : c.toNat < 128) : c.toUInt8.toNat = c.toNat :=
  (UInt32.toNat_toUInt8 c.val).trans (Nat.mod_eq_of_lt (Nat.lt_trans h (by decide)))

theorem toNat_ofUInt8 (b : UInt8) : (Char.ofUInt8 b).toNat = b.toNat := UInt8.toNat_toUInt32 b

theorem ofUInt8_toUInt8 (h : c.toNat < 128) : Char.ofUInt8 c.toUInt8 = c :=
  Char.ext (UInt32.toNat_inj.1 ((toNat_ofUInt8 _).trans (toNat_toUInt8 h)))

/-- No byte below 128 is part of the encoding of another character. -/
theorem toUInt8_not_mem_utf8EncodeChar (hq : q.toNat < 128) (h : c ≠ q) :
    q.toUInt8 ∉ String.utf8EncodeChar c := by
  intro hmem
  rcases Nat.lt_or_ge c.toNat 128 with hc | hc
  · rw [utf8EncodeChar_of_lt hc, List.mem_singleton] at hmem
    rw [← ofUInt8_toUInt8 hq, hmem, ofUInt8_toUInt8 hc] at h
    exact h rfl
  · have := le_of_mem_utf8EncodeChar hc hmem
    rw [toNat_toUInt8 hq] at this
    omega

/-- An ASCII character can be counted in the bytes. -/
theorem count_encode (hq : q.toNat < 128) (cs : List Char) :
    (encode cs).count q.toUInt8 = cs.count q := by
  induction cs with
  | nil => rfl
  | cons c cs ih =>
    rw [encode_cons, List.count_append, ih, List.count_cons]
    by_cases h : c = q
    · subst h
      rw [utf8EncodeChar_of_lt hq]
      simp [Nat.add_comm]
    · rw [List.count_eq_zero.2 (toUInt8_not_mem_utf8EncodeChar hq h)]
      simp [h]

/-- A character below 128 is in a text exactly if its byte is in the encoding. -/
theorem toUInt8_mem_encode (hq : q.toNat < 128) {cs : List Char} :
    q.toUInt8 ∈ encode cs ↔ q ∈ cs := by
  rw [← List.count_pos_iff, count_encode hq, List.count_pos_iff]

/-- An ASCII character can be searched for in the bytes. -/
theorem idxOf?_encode_append (hq : q.toNat < 128) {before : List Char} (h : q ∉ before)
    (after : List Char) :
    (encode (before ++ q :: after)).idxOf? q.toUInt8 = some (encode before).length := by
  have hbefore : (encode before).findIdx? (· == q.toUInt8) = none :=
    List.idxOf?_eq_none_iff.2 fun hmem => h ((toUInt8_mem_encode hq).1 hmem)
  rw [encode_append, encode_cons_of_lt hq, List.idxOf?, List.findIdx?_append, hbefore,
    List.findIdx?_cons, if_pos (beq_self_eq_true _)]
  simp

end Ascii

/-! ### Texts -/

/-- The bytes of a text are the encoding of its characters. -/
theorem toList_toUTF8 (text : String) : text.toUTF8.data.toList = encode text.toList := by
  rw [String.toUTF8_eq_toByteArray, ← text.ofList_toList, String.toByteArray_ofList,
    List.utf8Encode, List.data_toByteArray, text.ofList_toList, encode]

/-- **A text is what its bytes encode.** -/
theorem decode_toUTF8 (text : String) : decode text.toUTF8.data.toList = .ok text := by
  have hchars : ∀ (cs : List Char) (index : Nat), charsOf index (parts (encode cs)) = .ok cs := by
    intro cs
    induction cs with
    | nil =>
      intro index
      rw [encode_nil, parts]
      rfl
    | cons c cs ih =>
      intro index
      obtain ⟨more, hmore⟩ := parts_utf8EncodeChar_append c (encode cs)
      rw [encode_cons, hmore, charsOf, ih]
      rfl
  rw [decode, toList_toUTF8, hchars]
  change Except.ok (String.ofList text.toList) = _
  rw [text.ofList_toList]

/-- The byte of a line break is in no text without one. -/
theorem break_not_mem_toUTF8 {text : String} (h : '\n' ∉ text.toList) :
    0x0A ∉ text.toUTF8.data.toList := by
  rw [toList_toUTF8]
  exact fun hmem => h ((toUInt8_mem_encode (by decide)).1 hmem)

end Utf8

end Scriptlet
