import Mathlib.Tactic
import Scriptlet.Sink

/-!
# Sinks that fill up

Writing only adds to what is written, and a full sink stays as it is. A sink with room for a number
of bytes holds at any time the first bytes of what an unlimited sink holds to which the same is
written: `Sink.cut` is that part of a sink, and writing passes through it.
-/

namespace Scriptlet

namespace Sink

variable {s t u : Sink} {n : Nat}

/-- What a sink becomes by writing to it. -/
inductive Grows (s : Sink) : Sink → Prop
  | refl : Grows s s
  | write {t : Sink} (bytes : ByteArray) : Grows s t → Grows s (t.write bytes).1

namespace Grows

theorem trans (h : Grows s t) (h' : Grows t u) : Grows s u := by
  induction h' with
  | refl => exact h
  | write bytes _ ih => exact .write bytes ih

theorem writeLine (s : Sink) (line : String) : Grows s (s.writeLine line).1 := .write _ .refl

theorem room_eq_none (h : Grows s t) (hs : s.room = none) : t.room = none := by
  induction h with
  | refl => exact hs
  | write bytes _ ih => simp [Sink.write, ih]

/-- What is written stays written. -/
theorem written_eq_append (h : Grows s t) : ∃ rest, t.written = s.written ++ rest := by
  induction h with
  | refl => exact ⟨.empty, ByteArray.append_empty.symm⟩
  | @write t bytes _ ih =>
    obtain ⟨rest, hrest⟩ := ih
    cases hroom : t.room with
    | none =>
      refine ⟨rest ++ bytes, ?_⟩
      simp [Sink.write, hroom, hrest, ByteArray.append_assoc]
    | some room =>
      refine ⟨rest ++ bytes.extract 0 room, ?_⟩
      simp [Sink.write, hroom, hrest, ByteArray.append_assoc]

/-- A full sink takes nothing. -/
theorem eq_of_full (h : Grows s t) (hs : s.room = some 0) : t = s := by
  induction h with
  | refl => rfl
  | @write t bytes _ ih =>
    subst ih
    obtain ⟨written, room⟩ := t
    cases hs
    have hnone : bytes.extract 0 0 = .empty :=
      ByteArray.extract_eq_empty_iff.2 (Nat.min_le_left _ _)
    simp only [Sink.write, hnone, ByteArray.append_empty, Nat.zero_sub]

end Grows

/-! ### The first bytes of a sink -/

/-- The sink that has room for a number of bytes in all and to which the same is written. -/
def cut (n : Nat) (s : Sink) : Sink := ⟨s.written.extract 0 n, some (n - s.written.size)⟩

/-- Every limited sink holds the first bytes of the same sink without its limit. -/
theorem cut_of_room {room : Nat} (hroom : s.room = some room) :
    ({ s with room := none } : Sink).cut (s.written.size + room) = s := by
  obtain ⟨written, _⟩ := s
  cases hroom
  have hall : written.extract 0 (written.size + room) = written := ByteArray.ext (by simp)
  rw [cut, hall, Nat.add_sub_cancel_left]

/-- Writing to an unlimited sink and to the first bytes of it. -/
theorem write_cut (hs : s.room = none) (n : Nat) (bytes : ByteArray) :
    (s.cut n).write bytes =
      ((s.write bytes).1.cut n, decide (bytes.size ≤ n - s.written.size)) := by
  have hfirst : s.written.extract 0 n ++ bytes.extract 0 (n - s.written.size) =
      (s.written ++ bytes).extract 0 n := by
    rw [ByteArray.extract_append, Nat.zero_sub]
  simp only [write, cut, hs, hfirst, ByteArray.size_append, Nat.sub_add_eq]

theorem size_line_pos (line : String) : 0 < (line ++ "\n").toUTF8.size := by
  have hbreak : ("\n" : String).utf8ByteSize = 1 := by decide
  rw [String.toUTF8_eq_toByteArray, String.size_toByteArray, String.utf8ByteSize_append, hbreak]
  omega

/-- A line that does not fit goes past the first bytes. -/
theorem lt_of_not_fits (hs : s.room = none) {line : String}
    (h : ((s.cut n).writeLine line).2 = false) : n < (s.writeLine line).1.written.size := by
  have hpos := size_line_pos line
  rw [writeLine, write_cut hs] at h
  have hlong : ¬(line ++ "\n").toUTF8.size ≤ n - s.written.size := of_decide_eq_false h
  simp only [writeLine, write, hs, ByteArray.size_append]
  omega

/-- What is written after the first bytes does not change them. -/
theorem Grows.cut_eq (h : Grows s t) (hn : n ≤ s.written.size) : t.cut n = s.cut n := by
  obtain ⟨rest, hrest⟩ := h.written_eq_append
  have hnone : rest.extract 0 (n - s.written.size) = .empty :=
    ByteArray.extract_eq_empty_iff.2 (by omega)
  have hroom : n - (s.written.size + rest.size) = n - s.written.size := by omega
  simp only [cut, hrest, ByteArray.extract_append, Nat.zero_sub, hnone, ByteArray.append_empty,
    ByteArray.size_append, hroom]

theorem room_cut_of_le (hn : n ≤ s.written.size) : (s.cut n).room = some 0 := by
  rw [cut, Nat.sub_eq_zero_of_le hn]

end Sink

end Scriptlet
