import Scriptlet.Proofs.Text.Utf8
import Scriptlet.Proofs.Token.ByteScanner
import Scriptlet.Proofs.Token.Spans

/-!
# Text as the byte machine sees it

What stands from a byte on is given as the characters ahead. From them it follows which bytes are
read, where a search ends and which stretches can be cut out. An ASCII character is one byte that is
part of no other character, so a condition on such characters can be checked on a byte
(`OnBytes.nextChar_cons`) and a search for one never stops inside another (`idxOf?_of_found`).
-/

namespace Scriptlet

open Utf8 (encode)

namespace ByteScanner

/-! ### What stands from a byte on -/

/-- From the byte with the given index on, a script consists of the given characters. -/
def Ahead (source : String) (index : Nat) (cs : List Char) : Prop :=
  ∃ before : String, source = before ++ String.ofList cs ∧ index = before.utf8ByteSize

/-- How many bytes characters have. -/
def width (cs : List Char) : Nat := (encode cs).length

namespace Ahead

variable {source : String} {index : Nat} {c : Char} {cs text rest : List Char}

theorem of_splits {p : source.Pos} {before : String} (hp : p.Splits before (String.ofList cs)) :
    Ahead source p.offset.byteIdx cs :=
  ⟨before, hp.eq_append, congrArg String.Pos.Raw.byteIdx hp.offset_eq_rawEndPos⟩

theorem append (h : Ahead source index (text ++ rest)) :
    Ahead source (index + width text) rest := by
  obtain ⟨before, hsource, rfl⟩ := h
  refine ⟨before ++ String.ofList text, ?_, ?_⟩
  · rw [hsource, String.ofList_append, String.append_assoc]
  · rw [width, Utf8.length_encode, String.utf8ByteSize_append]

theorem bytes_eq (h : Ahead source index cs) :
    ∃ before : List UInt8, bytes source = before ++ encode cs ∧ before.length = index := by
  obtain ⟨before, hsource, rfl⟩ := h
  refine ⟨encode before.toList, ?_, ?_⟩
  · rw [bytes, Utf8.toList_toUTF8, hsource, String.toList_append, String.toList_ofList,
      Utf8.encode_append]
  · rw [Utf8.length_encode, String.ofList_toList]

theorem drop_bytes (h : Ahead source index cs) : (bytes source).drop index = encode cs := by
  obtain ⟨before, hbytes, rfl⟩ := h.bytes_eq
  rw [hbytes, List.drop_left]

theorem length_bytes (h : Ahead source index cs) :
    (bytes source).length = index + width cs := by
  obtain ⟨before, hbytes, rfl⟩ := h.bytes_eq
  rw [hbytes, List.length_append, width]

/-- Behind characters there is a boundary, so a stretch of them can be cut out. -/
theorem slice?_eq (h : Ahead source index (text ++ rest)) :
    slice? source index (index + width text) = some (String.ofList text) := by
  obtain ⟨before, hsource, rfl⟩ := h
  rw [String.ofList_append] at hsource
  have hsource' : source = before ++ String.ofList text ++ String.ofList rest := by
    rw [hsource, String.append_assoc]
  have hend : (⟨before.utf8ByteSize + width text⟩ : String.Pos.Raw) =
      (before ++ String.ofList text).rawEndPos := by
    rw [String.rawEndPos, String.utf8ByteSize_append, width, Utf8.length_encode]
  have hp := String.Pos.Raw.isValid_iff_exists_append.2 ⟨before, _, hsource, rfl⟩
  have hq := String.Pos.Raw.isValid_iff_exists_append.2 ⟨_, _, hsource', hend⟩
  rw [slice?, dif_pos ⟨hp, hq, Nat.le_add_right _ _⟩]
  exact congrArg some (extract_of_splits ⟨hsource, rfl⟩ ⟨hsource', hend⟩)

example : slice? "aéb" 1 3 = some "é" := by decide

-- the second byte of a character is no boundary
example : slice? "aéb" 1 2 = none := by decide

end Ahead

/-! ### How many bytes characters have -/

section Width

variable {c : Char} {text : List Char}

@[simp] theorem width_nil : width [] = 0 := rfl

theorem width_append (text rest : List Char) : width (text ++ rest) = width text + width rest := by
  rw [width, Utf8.encode_append, List.length_append, width, width]

theorem width_cons_of_lt (hc : c.toNat < 128) (cs : List Char) :
    width (c :: cs) = width cs + 1 := by
  rw [width, Utf8.encode_cons_of_lt hc, List.length_cons, width]

theorem width_singleton (c : Char) : width [c] = c.utf8Size := by
  rw [width, Utf8.encode_cons, Utf8.encode_nil, List.append_nil, String.length_utf8EncodeChar]

theorem width_cons (c : Char) (cs : List Char) : width (c :: cs) = c.utf8Size + width cs := by
  rw [← width_singleton, ← width_append, List.singleton_append]

theorem width_pos (h : text ≠ []) : 0 < width text := by
  cases text with
  | nil => exact absurd rfl h
  | cons c cs =>
    rw [width_cons]
    exact Nat.lt_of_lt_of_le c.utf8Size_pos (Nat.le_add_right _ _)

end Width

/-! ### Searches -/

section Search

variable {q x : Char} {cs rest : List Char}

theorem not_mem_takeWhile (q : Char) (cs : List Char) : q ∉ cs.takeWhile (· != q) := by
  intro hmem
  simpa using List.all_eq_true.1 List.all_takeWhile _ hmem

theorem eq_of_found (h : cs.dropWhile (· != q) = x :: rest) : x = q := by
  have := List.head?_dropWhile_not (· != q) cs
  rw [h] at this
  simpa using this

/-- A search that succeeds finds a character behind the characters before it. -/
theorem idxOf?_of_found (hq : q.toNat < 128) (h : cs.dropWhile (· != q) = x :: rest) :
    (encode cs).idxOf? q.toUInt8 = some (width (cs.takeWhile (· != q))) := by
  obtain rfl := eq_of_found h
  have hsplit := List.takeWhile_append_dropWhile (p := (· != x)) (l := cs)
  have := Utf8.idxOf?_encode_append hq (not_mem_takeWhile x cs) rest
  rwa [← h, hsplit] at this

theorem takeWhile_of_not_found (h : cs.dropWhile (· != q) = []) : cs.takeWhile (· != q) = cs := by
  have hsplit := List.takeWhile_append_dropWhile (p := (· != q)) (l := cs)
  rwa [h, List.append_nil] at hsplit

/-- A search that fails has passed all characters. -/
theorem idxOf?_of_not_found (hq : q.toNat < 128) (h : cs.dropWhile (· != q) = []) :
    (encode cs).idxOf? q.toUInt8 = none := by
  rw [List.idxOf?_eq_none_iff, Utf8.toUInt8_mem_encode hq, ← takeWhile_of_not_found h]
  exact not_mem_takeWhile q cs

end Search

/-! ### The next byte -/

/-- The first byte of characters, or zero if there is none. -/
def nextByte (cs : List Char) : UInt8 := (encode cs).head?.getD 0

/-- The character with the number of the first byte. -/
def nextChar (cs : List Char) : Char := .ofUInt8 (nextByte cs)

section NextChar

variable {c : Char} {p : Char → Bool}

/-- The first byte of an ASCII character is the character. -/
theorem nextChar_of_lt (hc : c.toNat < 128) (cs : List Char) : nextChar (c :: cs) = c := by
  rw [nextChar, nextByte, Utf8.encode_cons_of_lt hc, List.head?_cons, Option.getD_some,
    Utf8.ofUInt8_toUInt8 hc]

/-- The first byte of any other character is not that of an ASCII character. -/
theorem nextChar_of_ge (hc : 128 ≤ c.toNat) (cs : List Char) :
    128 ≤ (nextChar (c :: cs)).toNat := by
  obtain ⟨b, bs, hb⟩ : ∃ b bs, String.utf8EncodeChar c = b :: bs :=
    List.exists_cons_of_length_pos (by rw [String.length_utf8EncodeChar]; exact c.utf8Size_pos)
  rw [nextChar, nextByte, Utf8.encode_cons, hb, List.cons_append, List.head?_cons, Option.getD_some,
    Utf8.toNat_ofUInt8]
  exact Utf8.le_of_mem_utf8EncodeChar hc (by rw [hb]; exact List.mem_cons_self)

/-- A condition that only ASCII characters satisfy, and not the one with number zero. -/
structure OnBytes (p : Char → Bool) : Prop where
  ascii : ∀ c, p c = true → c.toNat < 128
  zero : p '\x00' = false

namespace OnBytes

theorem isDigit : OnBytes Char.isDigit := by
  refine ⟨fun c hc => ?_, rfl⟩
  simp only [Char.isDigit, Bool.and_eq_true, decide_eq_true_eq, ge_iff_le,
    UInt32.le_iff_toNat_le] at hc
  exact Nat.lt_of_le_of_lt hc.2 (by decide)

theorem isAlpha : OnBytes Char.isAlpha := by
  refine ⟨fun c hc => ?_, rfl⟩
  obtain hupper | hlower : c.isUpper = true ∨ c.isLower = true := Bool.or_eq_true_iff.1 hc
  · have hle : c.val ≤ 'Z'.val := (of_decide_eq_true hupper).2
    exact Nat.lt_of_le_of_lt (UInt32.le_iff_toNat_le.1 hle) (by decide)
  · have hle : c.val ≤ 'z'.val := of_decide_eq_true (Bool.and_eq_true_iff.1 hlower).2
    exact Nat.lt_of_le_of_lt (UInt32.le_iff_toNat_le.1 hle) (by decide)

theorem or {q : Char → Bool} (hp : OnBytes p) (hq : OnBytes q) : OnBytes fun c => p c || q c where
  ascii c h := by
    rcases Bool.or_eq_true_iff.1 h with h | h
    · exact hp.ascii c h
    · exact hq.ascii c h
  zero := by rw [hp.zero, hq.zero]; rfl

/-- To be a given ASCII character is such a condition. -/
theorem eq {q : Char} (hq : q.toNat < 128) (hzero : q ≠ '\x00') :
    OnBytes fun c => decide (c = q) where
  ascii c h := by rwa [of_decide_eq_true h]
  zero := decide_eq_false hzero.symm

theorem isWordStart : OnBytes Scan.isWordStart := isAlpha.or (.eq (by decide) (by decide))

theorem isWordPart : OnBytes Scan.isWordPart :=
  (isAlpha.or isDigit).or (.eq (by decide) (by decide))

theorem eq_false (hp : OnBytes p) (hc : 128 ≤ c.toNat) : p c = false := by
  refine Bool.eq_false_iff.2 fun h => ?_
  have := hp.ascii c h
  omega

/-- Such a condition can be checked on the next byte. -/
theorem nextChar_cons (hp : OnBytes p) (c : Char) (cs : List Char) :
    p (nextChar (c :: cs)) = p c := by
  rcases Nat.lt_or_ge c.toNat 128 with hc | hc
  · rw [nextChar_of_lt hc]
  · rw [hp.eq_false hc, hp.eq_false (nextChar_of_ge hc cs)]

/-- If the next byte satisfies such a condition, so does the character it belongs to. -/
theorem exists_cons (hp : OnBytes p) {cs : List Char} (h : p (nextChar cs) = true) :
    ∃ c rest, cs = c :: rest ∧ p c = true := by
  cases cs with
  | nil =>
    rw [show nextChar [] = '\x00' from rfl, hp.zero] at h
    cases h
  | cons c rest =>
    rw [hp.nextChar_cons] at h
    exact ⟨c, rest, rfl, h⟩

end OnBytes

end NextChar

namespace Ahead

variable {source : String} {index : Nat} {c : Char} {cs : List Char}

/-- Behind an ASCII character, which is one byte. -/
theorem tail (h : Ahead source index (c :: cs)) (hc : c.toNat < 128) :
    Ahead source (index + 1) cs := by
  have hcs : Ahead source index ([c] ++ cs) := h
  have := hcs.append
  rwa [width_cons_of_lt hc] at this

theorem getElem?_bytes (h : Ahead source index (c :: cs)) :
    (bytes source)[index]? = some (nextByte (c :: cs)) := by
  have hpos : 0 < (encode (c :: cs)).length := width_pos (List.cons_ne_nil c cs)
  rw [← index.add_zero, ← List.getElem?_drop, h.drop_bytes, nextByte, List.head?_eq_getElem?,
    List.getElem?_eq_getElem hpos, Option.getD_some]

theorem length_bytes_le_iff (h : Ahead source index cs) :
    (bytes source).length ≤ index ↔ cs = [] := by
  rw [h.length_bytes]
  constructor
  · intro hle
    by_contra hne
    have := width_pos hne
    omega
  · rintro rfl
    exact Nat.le_refl _

end Ahead

end ByteScanner

end Scriptlet
