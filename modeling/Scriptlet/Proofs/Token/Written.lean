import Mathlib.Data.List.TakeWhile
import Scriptlet.Proofs.Token.LineBreak

/-!
# How tokens are written

What a token of each kind is written as, said without a word about scanning: symbols, reserved
words, names, numbers and strings. A text that is a token is one bite where nothing follows it
(`Kind.Written.exists_bite_eq`), so no text is written as tokens of two kinds
(`Kind.Written.unique`).
-/

namespace Scriptlet

namespace Mark

/-- How a punctuator or an operator is written. -/
def symbol? : Mark → Option String
  | leftParen => some "("
  | rightParen => some ")"
  | leftBrace => some "\x7b"
  | rightBrace => some "\x7d"
  | comma => some ","
  | dot => some "."
  | minus => some "-"
  | plus => some "+"
  | semicolon => some ";"
  | slash => some "/"
  | star => some "*"
  | bang => some "!"
  | bangEqual => some "!="
  | equal => some "="
  | equalEqual => some "=="
  | greater => some ">"
  | greaterEqual => some ">="
  | less => some "<"
  | lessEqual => some "<="
  | _ => none

/-- The reserved word that a mark stands for. -/
def word? : Mark → Option String
  | kwAnd => some "and"
  | kwElse => some "else"
  | kwFalse => some "false"
  | kwFor => some "for"
  | kwFunction => some "function"
  | kwIf => some "if"
  | kwNull => some "null"
  | kwOr => some "or"
  | kwPrint => some "print"
  | kwReturn => some "return"
  | kwTrue => some "true"
  | kwVar => some "var"
  | kwWhile => some "while"
  | _ => none

end Mark

/-- The reserved words. -/
def reservedWords : List String :=
  ["and", "else", "false", "for", "function", "if", "null", "or", "print", "return", "true", "var",
    "while"]

/-- The decimal digits. -/
def IsDigit (c : Char) : Prop := '0' ≤ c ∧ c ≤ '9'

/-- The letters without accents, and the underscore. -/
def IsLetter (c : Char) : Prop := 'a' ≤ c ∧ c ≤ 'z' ∨ 'A' ≤ c ∧ c ≤ 'Z' ∨ c = '_'

/-- Digits, of which there is at least one. -/
def IsNumeral (cs : List Char) : Prop := cs ≠ [] ∧ ∀ c ∈ cs, IsDigit c

/-- A letter, and then letters and digits. -/
def IsWord : List Char → Prop
  | [] => False
  | c :: cs => IsLetter c ∧ ∀ d ∈ cs, IsLetter d ∨ IsDigit d

/-- The texts that are tokens of a kind. -/
inductive Kind.Written : Kind → List Char → Prop
  | symbol {m : Mark} {s : String} : m.symbol? = some s → Written (.mark m) s.toList
  | reserved {m : Mark} {s : String} : m.word? = some s → Written (.mark m) s.toList
  | name {cs : List Char} : IsWord cs → String.ofList cs ∉ reservedWords →
      Written (.mark .identifier) cs
  | whole {ds : List Char} : IsNumeral ds → Written (.number (Decimal.ofDigits ds [])) ds
  | decimal {ds fs : List Char} : IsNumeral ds → IsNumeral fs →
      Written (.number (Decimal.ofDigits ds fs)) (ds ++ '.' :: fs)
  | string {cs : List Char} : '"' ∉ cs →
      Written (.string (String.ofList cs)) ('"' :: (cs ++ ['"']))

/-! ### Classes of characters -/

namespace Scan

variable {c : Char}

theorem isDigit_iff : c.isDigit = true ↔ IsDigit c := by
  simp [Char.isDigit, IsDigit, Char.le_def]

theorem isWordStart_iff : isWordStart c = true ↔ IsLetter c := by
  have hstart : isWordStart c = (decide (c.val ≥ 'A'.val ∧ c.val ≤ 'Z'.val) ||
      (decide (c.val ≥ 'a'.val) && decide (c.val ≤ 'z'.val)) || decide (c = '_')) := rfl
  simp only [hstart, IsLetter, Char.le_def, Bool.or_eq_true, Bool.and_eq_true, decide_eq_true_eq]
  tauto

instance : DecidablePred IsDigit := fun _ => decidable_of_iff _ isDigit_iff

instance : DecidablePred IsLetter := fun _ => decidable_of_iff _ isWordStart_iff

theorem isWordPart_iff : isWordPart c = true ↔ IsLetter c ∨ IsDigit c := by
  rw [← isDigit_iff, ← isWordStart_iff]
  simp only [isWordPart, isWordStart, Char.isAlphanum, Bool.or_eq_true, decide_eq_true_eq]
  tauto

theorem isWord_of_all {cs : List Char} (hc : isWordStart c = true)
    (hcs : cs.all isWordPart = true) : IsWord (c :: cs) :=
  ⟨isWordStart_iff.1 hc, fun d hd => isWordPart_iff.1 (List.all_eq_true.1 hcs d hd)⟩

theorem not_isDigit_of_isLetter (h : IsLetter c) : ¬ IsDigit c := by
  rintro ⟨-, h9⟩
  rcases h with ⟨ha, -⟩ | ⟨hA, -⟩ | rfl
  · exact absurd (Char.le_trans ha h9) (by decide)
  · exact absurd (Char.le_trans hA h9) (by decide)
  · exact absurd h9 (by decide)

/-- A character of a class without blanks, slash and quote starts none of what these start. -/
theorem not_blank_slash_quote {p : Char → Bool}
    (hp : ([' ', '\t', '\r', '\n'] ++ ['/', '"']).any p = false) (h : p c = true) :
    ¬ isBlank c = true ∧ c ≠ '/' ∧ c ≠ '"' := by
  have hnot : c ∉ [' ', '\t', '\r', '\n'] ++ ['/', '"'] := fun hc => List.any_eq_false.1 hp c hc h
  rw [List.mem_append, ← isBlank_iff] at hnot
  simpa using hnot

theorem bite_of_isDigit (h : IsDigit c) (cs : List Char) : bite c cs = numberBite c cs := by
  have hdigit := isDigit_iff.2 h
  obtain ⟨hblank, hslash, hquote⟩ := not_blank_slash_quote rfl hdigit
  rw [bite, if_neg hblank, if_neg hslash, if_neg hquote, if_pos hdigit]

theorem bite_of_isLetter (h : IsLetter c) (cs : List Char) : bite c cs = wordBite c cs := by
  have hstart := isWordStart_iff.2 h
  obtain ⟨hblank, hslash, hquote⟩ := not_blank_slash_quote rfl hstart
  rw [bite, if_neg hblank, if_neg hslash, if_neg hquote,
    if_neg (mt isDigit_iff.1 (not_isDigit_of_isLetter h)), if_pos hstart]

theorem exists_cons_of_isNumeral {ds : List Char} (h : IsNumeral ds) :
    ∃ d ds', ds = d :: ds' ∧ IsDigit d ∧ ∀ e ∈ ds', e.isDigit = true := by
  cases ds with
  | nil => exact absurd rfl h.1
  | cons d ds' =>
    obtain ⟨hd, hds⟩ := List.forall_mem_cons.1 h.2
    exact ⟨d, ds', rfl, hd, fun e he => isDigit_iff.2 (hds e he)⟩

theorem exists_cons_of_isWord {cs : List Char} (h : IsWord cs) :
    ∃ c cs', cs = c :: cs' ∧ IsLetter c ∧ ∀ d ∈ cs', isWordPart d = true := by
  cases cs with
  | nil => cases h
  | cons c cs' => exact ⟨c, cs', rfl, h.1, fun d hd => isWordPart_iff.2 (h.2 d hd)⟩

theorem bite_of_single? {m : Mark} (h : single? c = some m) (cs : List Char) :
    bite c cs = ⟨.token (.mark m), [c], cs⟩ := by
  unfold single? at h
  split at h <;> cases h <;> rfl

theorem bite_of_paired? {alone double : Mark} (h : paired? c = some (alone, double))
    (cs : List Char) : bite c cs = pairBite c alone double cs := by
  unfold paired? at h
  split at h <;> cases h <;> rfl

end Scan

/-! ### Words -/

namespace Mark

variable {m : Mark} {s : String}

theorem mem_keywords : (s, m) ∈ keywords ↔ m.word? = some s := by
  constructor
  · intro h
    have hall : ∀ e ∈ keywords, e.2.word? = some e.1 := by decide
    exact hall _ h
  · intro h
    cases m <;> cases h <;> decide

theorem exists_word?_iff : (∃ m : Mark, m.word? = some s) ↔ s ∈ reservedWords := by
  have hwords : reservedWords = keywords.map Prod.fst := by decide
  simp [hwords, mem_keywords]

theorem ofWord_of_word? (h : m.word? = some s) : ofWord s = m := by
  cases m <;> cases h <;> rfl

theorem ofWord_of_not_mem (h : s ∉ reservedWords) : ofWord s = .identifier := by
  have hnone : keywords.lookup s = none := by
    refine List.lookup_eq_none_iff.2 fun e he => bne_iff_ne.2 ?_
    rintro rfl
    exact h (exists_word?_iff.1 ⟨e.2, mem_keywords.1 he⟩)
  rw [ofWord, hnone, Option.getD_none]

theorem isWord_of_word? (h : m.word? = some s) : IsWord s.toList := by
  cases m <;> cases h <;> exact Scan.isWord_of_all rfl rfl

end Mark

theorem Kind.written_ofWord {cs : List Char} (h : IsWord cs) :
    Kind.Written (.mark (.ofWord (String.ofList cs))) cs := by
  by_cases hs : String.ofList cs ∈ reservedWords
  · obtain ⟨m, hm⟩ := Mark.exists_word?_iff.2 hs
    have hwritten := Kind.Written.reserved hm
    rw [String.toList_ofList] at hwritten
    rwa [Mark.ofWord_of_word? hm]
  · rw [Mark.ofWord_of_not_mem hs]
    exact .name h hs

/-! ### What the scanner takes -/

namespace Scan

variable {p : Char → Bool} {c : Char} {cs more text : List Char}

theorem length_le_takeWhile (hpre : text <+: cs) (hp : ∀ d ∈ text, p d = true) :
    text.length ≤ (cs.takeWhile p).length := by
  obtain ⟨more, rfl⟩ := hpre
  rw [List.takeWhile_append_of_pos hp, List.length_append]
  omega

theorem wordBite_of_parts (h : ∀ d ∈ cs, isWordPart d = true) :
    wordBite c cs = ⟨.token (.mark (.ofWord (String.ofList (c :: cs)))), c :: cs, []⟩ := by
  rw [wordBite, List.takeWhile_eq_self_iff.2 h, List.dropWhile_eq_nil_iff.2 h]

theorem numberBite_of_digits (h : ∀ d ∈ cs, d.isDigit = true) :
    numberBite c cs = ⟨.token (.number (Decimal.ofDigits (c :: cs) [])), c :: cs, []⟩ := by
  rw [numberBite, List.takeWhile_eq_self_iff.2 h, List.dropWhile_eq_nil_iff.2 h]

theorem numberBite_of_fraction {f : Char} (h : ∀ d ∈ cs, d.isDigit = true)
    (hf : f.isDigit = true) : numberBite c (cs ++ '.' :: f :: more) =
      ⟨.token (.number (Decimal.ofDigits (c :: cs) (f :: more.takeWhile Char.isDigit))),
        c :: cs ++ '.' :: f :: more.takeWhile Char.isDigit, more.dropWhile Char.isDigit⟩ := by
  rw [numberBite, takeWhile_append_stop (by decide), dropWhile_append_stop (by decide),
    List.takeWhile_eq_self_iff.2 h, List.dropWhile_eq_nil_iff.2 h]
  simp only [List.nil_append, hf, if_true]

theorem forall_ne_quote (h : '"' ∉ cs) : ∀ d ∈ cs, (d != '"') = true :=
  fun _ hd => bne_iff_ne.2 fun hc => h (hc ▸ hd)

theorem quoteBite_of_closed (h : '"' ∉ cs) : quoteBite (cs ++ '"' :: more) =
    ⟨.token (.string (String.ofList cs)), '"' :: (cs ++ ['"']), more⟩ := by
  rw [quoteBite, takeWhile_append_stop (by decide), dropWhile_append_stop (by decide),
    List.takeWhile_eq_self_iff.2 (forall_ne_quote h),
    List.dropWhile_eq_nil_iff.2 (forall_ne_quote h)]
  rfl

theorem quoteBite_of_open (h : '"' ∉ cs) :
    quoteBite cs = ⟨.fault .openString, '"' :: cs, []⟩ := by
  rw [quoteBite, List.takeWhile_eq_self_iff.2 (forall_ne_quote h),
    List.dropWhile_eq_nil_iff.2 (forall_ne_quote h)]

theorem bite_of_closed (h : '"' ∉ cs) : bite '"' (cs ++ '"' :: more) =
    ⟨.token (.string (String.ofList cs)), '"' :: (cs ++ ['"']), more⟩ :=
  quoteBite_of_closed h

end Scan

/-- A symbol is a character that is a token whatever follows, a slash, or a character of a pair,
alone or before an equals sign. -/
theorem Mark.symbol?_cases {m : Mark} {s : String} (h : m.symbol? = some s) :
    (∃ c, s.toList = [c] ∧ Scan.single? c = some m) ∨ (s.toList = ['/'] ∧ m = .slash) ∨
      ∃ c alone double, Scan.paired? c = some (alone, double) ∧
        (s.toList = [c] ∧ m = alone ∨ s.toList = [c, '='] ∧ m = double) := by
  cases m with
  | leftParen | rightParen | leftBrace | rightBrace | comma | dot | minus | plus | semicolon
  | star =>
    cases h
    exact .inl ⟨_, rfl, rfl⟩
  | slash =>
    cases h
    exact .inr (.inl ⟨rfl, rfl⟩)
  | bang =>
    cases h
    exact .inr (.inr ⟨'!', _, _, rfl, .inl ⟨rfl, rfl⟩⟩)
  | bangEqual =>
    cases h
    exact .inr (.inr ⟨'!', _, _, rfl, .inr ⟨rfl, rfl⟩⟩)
  | equal =>
    cases h
    exact .inr (.inr ⟨'=', _, _, rfl, .inl ⟨rfl, rfl⟩⟩)
  | equalEqual =>
    cases h
    exact .inr (.inr ⟨'=', _, _, rfl, .inr ⟨rfl, rfl⟩⟩)
  | greater =>
    cases h
    exact .inr (.inr ⟨'>', _, _, rfl, .inl ⟨rfl, rfl⟩⟩)
  | greaterEqual =>
    cases h
    exact .inr (.inr ⟨'>', _, _, rfl, .inr ⟨rfl, rfl⟩⟩)
  | less =>
    cases h
    exact .inr (.inr ⟨'<', _, _, rfl, .inl ⟨rfl, rfl⟩⟩)
  | lessEqual =>
    cases h
    exact .inr (.inr ⟨'<', _, _, rfl, .inr ⟨rfl, rfl⟩⟩)
  | identifier | kwAnd | kwElse | kwFalse | kwFor | kwFunction | kwIf | kwNull | kwOr | kwPrint
  | kwReturn | kwTrue | kwVar | kwWhile | eof => cases h

namespace Kind.Written

variable {kind kind' : Kind} {text : List Char}

open Scan in
/-- A word is one bite if nothing follows it. -/
theorem exists_bite_word (h : IsWord text) : ∃ c cs, text = c :: cs ∧
    bite c cs = ⟨.token (.mark (.ofWord (String.ofList text))), text, []⟩ := by
  obtain ⟨c, cs, rfl, hc, hcs⟩ := exists_cons_of_isWord h
  exact ⟨c, cs, rfl, (bite_of_isLetter hc cs).trans (wordBite_of_parts hcs)⟩

open Scan in
/-- A text that is a token is one bite if nothing follows it. -/
theorem exists_bite_eq (h : kind.Written text) :
    ∃ c cs, text = c :: cs ∧ bite c cs = ⟨.token kind, text, []⟩ := by
  cases h with
  | @symbol m s hs => cases m <;> cases hs <;> exact ⟨_, _, rfl, rfl⟩
  | @reserved m s hs =>
    have hbite := exists_bite_word (Mark.isWord_of_word? hs)
    rwa [String.ofList_toList, Mark.ofWord_of_word? hs] at hbite
  | name hword hs =>
    have hbite := exists_bite_word hword
    rwa [Mark.ofWord_of_not_mem hs] at hbite
  | whole hds =>
    obtain ⟨d, ds, rfl, hd, hds⟩ := exists_cons_of_isNumeral hds
    exact ⟨d, ds, rfl, (bite_of_isDigit hd ds).trans (numberBite_of_digits hds)⟩
  | decimal hds hfs =>
    obtain ⟨d, ds, rfl, hd, hds⟩ := exists_cons_of_isNumeral hds
    obtain ⟨f, fs, rfl, hf, hfs⟩ := exists_cons_of_isNumeral hfs
    refine ⟨d, ds ++ '.' :: f :: fs, rfl, ?_⟩
    rw [bite_of_isDigit hd, numberBite_of_fraction hds (isDigit_iff.2 hf),
      List.takeWhile_eq_self_iff.2 hfs, List.dropWhile_eq_nil_iff.2 hfs]
  | string hcs => exact ⟨_, _, rfl, bite_of_closed hcs⟩

/-- No text is written as tokens of two kinds. -/
theorem unique (h : kind.Written text) (h' : kind'.Written text) : kind = kind' := by
  obtain ⟨c, cs, rfl, hbite⟩ := h.exists_bite_eq
  obtain ⟨c', cs', heq, hbite'⟩ := h'.exists_bite_eq
  cases heq
  cases hbite.symm.trans hbite'
  rfl

end Kind.Written

end Scriptlet
