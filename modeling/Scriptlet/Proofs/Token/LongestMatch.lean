import Scriptlet.Proofs.Token.Written

/-!
# Longest match

Wherever the scanner takes a bite, it takes the longest text that is written as a token, unless a
comment starts there; where there is no token, it skips a blank or says what is wrong
(`bite_classified`). The items of a text are its bites read one behind the other
(`items_eq_itemsOf`), and what a scanned token carries follows from how it is written
(`kind_eq_of_lexeme_eq`).
-/

namespace Scriptlet

/-! ### What is ahead -/

/-- A comment starts here. -/
def StartsComment (ahead : List Char) : Prop := ['/', '/'] <+: ahead

/-- A blank or a line break stands here. -/
def StartsBlank (ahead : List Char) : Prop := ∃ c ∈ ahead.head?, c ∈ [' ', '\t', '\r', '\n']

/-- A text is the longest token at the front of what is ahead, and it is of the given kind. -/
structure Kind.Longest (kind : Kind) (text ahead : List Char) : Prop where
  written : kind.Written text
  isPrefix : text <+: ahead
  longest : ∀ other text', Kind.Written other text' → text' <+: ahead → text'.length ≤ text.length

/-! ### The longest bite -/

/-- A bite that is a token of at least the given length. -/
def Bite.TokenOf (n : Nat) (b : Bite) : Prop := ∃ kind, b.piece = .token kind ∧ n ≤ b.text.length

namespace Scan

variable {c : Char} {cs text : List Char}

/-- Where a mark may be doubled, the token has one character or two. -/
theorem pairBite_tokenOf (c : Char) (alone double : Mark) (cs : List Char) :
    (pairBite c alone double cs).TokenOf 1 := by
  unfold pairBite
  split <;> exact ⟨_, rfl, by simp⟩

theorem numberBite_tokenOf (c : Char) (cs : List Char) :
    (numberBite c cs).TokenOf (c :: cs.takeWhile Char.isDigit).length := by
  unfold numberBite
  split
  · split
    · exact ⟨_, rfl, by simp⟩
    · exact ⟨_, rfl, Nat.le_refl _⟩
  · exact ⟨_, rfl, Nat.le_refl _⟩

/-- Where a symbol stands, the token is at least as long, unless a comment starts. -/
theorem bite_tokenOf_symbol {m : Mark} {s : String} (h : m.symbol? = some s)
    (hcomment : ¬ StartsComment (c :: cs)) (hpre : s.toList <+: c :: cs) :
    (bite c cs).TokenOf s.toList.length := by
  rcases Mark.symbol?_cases h with
    ⟨d, hs, hsingle⟩ | ⟨hs, -⟩ | ⟨d, alone, double, hpair, ⟨hs, -⟩ | ⟨hs, -⟩⟩
  all_goals
    rw [hs] at hpre ⊢
    obtain ⟨rfl, hrest⟩ := List.cons_prefix_cons.1 hpre
  · rw [bite_of_single? hsingle]
    exact ⟨_, rfl, Nat.le_refl _⟩
  · -- another slash would make it a comment
    have hslash : slashBite cs = ⟨.token (.mark .slash), ['/'], cs⟩ := by
      unfold slashBite
      split
      · exact absurd ⟨_, rfl⟩ hcomment
      · rfl
    exact ⟨_, congrArg Bite.piece hslash, (congrArg (·.text.length) hslash).ge⟩
  · rw [bite_of_paired? hpair]
    exact pairBite_tokenOf d alone double cs
  · obtain ⟨more, rfl⟩ := hrest
    rw [bite_of_paired? hpair]
    exact ⟨_, rfl, Nat.le_refl _⟩

/-- Where a word stands, the token is at least as long. -/
theorem bite_tokenOf_word (h : IsWord text) (hpre : text <+: c :: cs) :
    (bite c cs).TokenOf text.length := by
  obtain ⟨d, ds, rfl, hd, hds⟩ := exists_cons_of_isWord h
  obtain ⟨rfl, hrest⟩ := List.cons_prefix_cons.1 hpre
  rw [bite_of_isLetter hd]
  exact ⟨_, rfl, Nat.succ_le_succ (length_le_takeWhile hrest hds)⟩

theorem bite_tokenOf_whole (h : IsNumeral text) (hpre : text <+: c :: cs) :
    (bite c cs).TokenOf text.length := by
  obtain ⟨d, ds, rfl, hd, hds⟩ := exists_cons_of_isNumeral h
  obtain ⟨rfl, hrest⟩ := List.cons_prefix_cons.1 hpre
  rw [bite_of_isDigit hd]
  obtain ⟨kind, hkind, hlength⟩ := numberBite_tokenOf d cs
  exact ⟨kind, hkind, Nat.le_trans (Nat.succ_le_succ (length_le_takeWhile hrest hds)) hlength⟩

/-- Where a number with a fraction stands, the token is at least as long. -/
theorem bite_tokenOf_decimal {ds fs : List Char} (hds : IsNumeral ds) (hfs : IsNumeral fs)
    (hpre : ds ++ '.' :: fs <+: c :: cs) :
    (bite c cs).TokenOf (ds ++ '.' :: fs).length := by
  obtain ⟨d, ds, rfl, hd, hds⟩ := exists_cons_of_isNumeral hds
  obtain ⟨f, fs, rfl, hf, hfs⟩ := exists_cons_of_isNumeral hfs
  obtain ⟨more, hmore⟩ := hpre
  obtain ⟨rfl, rfl⟩ : d = c ∧ ds ++ '.' :: f :: (fs ++ more) = cs := by simpa using hmore
  rw [bite_of_isDigit hd, numberBite_of_fraction hds (isDigit_iff.2 hf)]
  refine ⟨_, rfl, ?_⟩
  have hlength := length_le_takeWhile (List.prefix_append fs more) hfs
  simp only [List.length_append, List.length_cons]
  omega

/-- Where a closed string stands, the token is at least as long. -/
theorem bite_tokenOf_string {body : List Char} (h : '"' ∉ body)
    (hpre : '"' :: (body ++ ['"']) <+: c :: cs) :
    (bite c cs).TokenOf ('"' :: (body ++ ['"'])).length := by
  obtain ⟨rfl, more, rfl⟩ := List.cons_prefix_cons.1 hpre
  rw [List.append_assoc, List.singleton_append, bite_of_closed h]
  exact ⟨_, rfl, Nat.le_refl _⟩

end Scan

variable {kind : Kind} {c : Char} {cs text : List Char}

open Scan in
/-- Where a token stands and no comment starts, the bite is a token that is at least as long. -/
theorem Kind.Written.bite_tokenOf (h : kind.Written text) (hcomment : ¬ StartsComment (c :: cs))
    (hpre : text <+: c :: cs) : (bite c cs).TokenOf text.length := by
  cases h with
  | symbol hs => exact bite_tokenOf_symbol hs hcomment hpre
  | reserved hs => exact bite_tokenOf_word (Mark.isWord_of_word? hs) hpre
  | name hword _ => exact bite_tokenOf_word hword hpre
  | whole hds => exact bite_tokenOf_whole hds hpre
  | decimal hds hfs => exact bite_tokenOf_decimal hds hfs hpre
  | string hcs => exact bite_tokenOf_string hcs hpre

/-! ### Bites, said without scanning -/

/-- A bite that is a token only if its text is written as one of that kind. -/
def Bite.TokenWritten (b : Bite) : Prop := ∀ kind, b.piece = .token kind → kind.Written b.text

namespace Bite.TokenWritten

/-- A token is written as its kind if its text is. -/
theorem of_written {text rest : List Char} (h : kind.Written text) :
    TokenWritten ⟨.token kind, text, rest⟩ := by
  rintro _ ⟨⟩
  exact h

end Bite.TokenWritten

namespace Scan

theorem slashBite_tokenWritten (cs : List Char) : (slashBite cs).TokenWritten := by
  unfold slashBite
  split
  · simp [Bite.TokenWritten]
  · exact .of_written (.symbol (m := .slash) rfl)

theorem quoteBite_tokenWritten (cs : List Char) : (quoteBite cs).TokenWritten := by
  by_cases h : '"' ∈ cs
  · obtain ⟨body, more, rfl, hbody⟩ := List.eq_append_cons_of_mem h
    rw [quoteBite_of_closed hbody]
    exact .of_written (.string hbody)
  · rw [quoteBite_of_open h]
    simp [Bite.TokenWritten]

theorem isNumeral_cons_takeWhile (h : c.isDigit = true) (cs : List Char) :
    IsNumeral (c :: cs.takeWhile Char.isDigit) := by
  refine ⟨List.cons_ne_nil _ _, List.forall_mem_cons.2 ⟨isDigit_iff.1 h, fun d hd => ?_⟩⟩
  exact isDigit_iff.1 (List.mem_takeWhile_imp hd)

theorem numberBite_tokenWritten (h : c.isDigit = true) (cs : List Char) :
    (numberBite c cs).TokenWritten := by
  unfold numberBite
  split
  · split
    · rename_i hd
      exact .of_written (.decimal (isNumeral_cons_takeWhile h cs) (isNumeral_cons_takeWhile hd _))
    · exact .of_written (.whole (isNumeral_cons_takeWhile h cs))
  · exact .of_written (.whole (isNumeral_cons_takeWhile h cs))

theorem wordBite_tokenWritten (h : isWordStart c = true) (cs : List Char) :
    (wordBite c cs).TokenWritten := by
  refine .of_written (Kind.written_ofWord ⟨isWordStart_iff.1 h, fun d hd => ?_⟩)
  exact isWordPart_iff.1 (List.mem_takeWhile_imp hd)

theorem written_of_single? {m : Mark} (h : single? c = some m) : Kind.Written (.mark m) [c] := by
  have hsymbol : ∃ s, m.symbol? = some s ∧ s.toList = [c] := by
    unfold single? at h
    split at h <;> cases h <;> exact ⟨_, rfl, rfl⟩
  obtain ⟨s, hs, hc⟩ := hsymbol
  exact hc ▸ .symbol hs

theorem written_of_paired? {alone double : Mark} (h : paired? c = some (alone, double)) :
    Kind.Written (.mark alone) [c] ∧ Kind.Written (.mark double) [c, '='] := by
  have hsymbols : ∃ s t, alone.symbol? = some s ∧ s.toList = [c] ∧
      double.symbol? = some t ∧ t.toList = [c, '='] := by
    unfold paired? at h
    split at h <;> cases h <;> exact ⟨_, _, rfl, rfl, rfl, rfl⟩
  obtain ⟨s, t, hs, hsc, ht, htc⟩ := hsymbols
  exact ⟨hsc ▸ .symbol hs, htc ▸ .symbol ht⟩

theorem pairBite_tokenWritten {alone double : Mark} (h : paired? c = some (alone, double))
    (cs : List Char) : (pairBite c alone double cs).TokenWritten := by
  obtain ⟨halone, hdouble⟩ := written_of_paired? h
  unfold pairBite
  split
  · exact .of_written hdouble
  · exact .of_written halone

end Scan

open Scan in
/-- What the scanner takes for a token is written as one. -/
theorem bite_tokenWritten (c : Char) (cs : List Char) : (bite c cs).TokenWritten := by
  unfold bite
  split
  · simp [Bite.TokenWritten]
  split
  · exact slashBite_tokenWritten cs
  split
  · exact quoteBite_tokenWritten cs
  split
  · exact numberBite_tokenWritten (by assumption) cs
  split
  · exact wordBite_tokenWritten (by assumption) cs
  split
  · exact .of_written (written_of_single? (by assumption))
  · exact pairBite_tokenWritten (by assumption) cs
  · simp [Bite.TokenWritten]

/-- The text that is ahead where a bite is taken. -/
def Bite.ahead (b : Bite) : List Char := b.text ++ b.rest

@[simp] theorem ahead_bite (c : Char) (cs : List Char) : (bite c cs).ahead = c :: cs :=
  bite_text_append_rest c cs

namespace Scan

theorem head?_bite_text (c : Char) (cs : List Char) : (bite c cs).text.head? = some c := by
  have hahead := congrArg List.head? (bite_text_append_rest c cs)
  rwa [List.head?_append_of_ne_nil _ (bite_text_ne_nil c cs)] at hahead

theorem bite_blank_iff :
    (bite c cs).piece = .blank ↔ StartsBlank (c :: cs) ∨ StartsComment (c :: cs) := by
  constructor
  · intro h
    have hfill := (bite_accounts c cs).blank h [] _ rfl .nil
    have hahead := bite_text_append_rest c cs
    have hne := bite_text_ne_nil c cs
    rw [List.append_nil] at hfill
    generalize (bite c cs).text = text at hfill hahead hne
    cases hfill with
    | nil => exact absurd rfl hne
    | blank hc _ =>
      obtain ⟨rfl, -⟩ := List.cons.inj hahead
      exact .inl ⟨_, rfl, hc⟩
    | comment _ _ _ => exact .inr ⟨_, hahead⟩
  · rintro (⟨d, hd, hblank⟩ | hcomment)
    · cases hd
      rw [bite, if_pos (isBlank_iff.2 hblank)]
    · obtain ⟨rfl, hrest⟩ := List.cons_prefix_cons.1 hcomment
      obtain ⟨more, rfl⟩ := hrest
      rfl

theorem bite_openString_iff :
    (bite c cs).piece = .fault .openString ↔ c = '"' ∧ '"' ∉ cs := by
  constructor
  · intro h
    obtain ⟨hhead, -⟩ := (bite_accounts c cs).openString h
    obtain rfl : c = '"' := by simpa [head?_bite_text] using hhead
    refine ⟨rfl, fun hmem => ?_⟩
    obtain ⟨body, more, rfl, hbody⟩ := List.eq_append_cons_of_mem hmem
    rw [bite_of_closed hbody] at h
    cases h
  · rintro ⟨rfl, hcs⟩
    exact congrArg Bite.piece (quoteBite_of_open hcs)

/-- Where the scanner takes a token, no comment starts and no longer token stands. -/
theorem longest_of_bite {kind : Kind} (h : (bite c cs).piece = .token kind) :
    ¬ StartsComment (c :: cs) ∧ kind.Longest (bite c cs).text (c :: cs) := by
  have hcomment : ¬ StartsComment (c :: cs) := fun hcomment => by
    rw [bite_blank_iff.2 (.inr hcomment)] at h
    cases h
  refine ⟨hcomment, bite_tokenWritten c cs kind h, ⟨_, bite_text_append_rest c cs⟩, ?_⟩
  intro other text hwritten hpre
  obtain ⟨-, -, hlength⟩ := hwritten.bite_tokenOf hcomment hpre
  exact hlength

/-- Where a token is the longest and no comment starts, the scanner takes it. -/
theorem bite_of_longest {kind : Kind} (hcomment : ¬ StartsComment (c :: cs))
    (h : kind.Longest text (c :: cs)) :
    (bite c cs).piece = .token kind ∧ (bite c cs).text = text := by
  obtain ⟨kind', hkind', hlength⟩ := h.written.bite_tokenOf hcomment h.isPrefix
  have hwritten := bite_tokenWritten c cs kind' hkind'
  have hpre : (bite c cs).text <+: c :: cs := ⟨_, bite_text_append_rest c cs⟩
  -- both texts stand at the front and neither is longer than the other
  have htext : (bite c cs).text = text := by
    refine (List.prefix_of_prefix_length_le hpre h.isPrefix ?_).eq_of_length_le hlength
    exact h.longest kind' _ hwritten hpre
  rw [htext] at hwritten
  exact ⟨by rw [hkind', hwritten.unique h.written], htext⟩

theorem bite_unexpected_iff {d : Char} : (bite c cs).piece = .fault (.unexpected d) ↔
    c = d ∧ d ≠ '"' ∧ ¬ StartsBlank (c :: cs) ∧ ¬ StartsComment (c :: cs) ∧
      ∀ kind text, Kind.Written kind text → ¬ text <+: c :: cs := by
  constructor
  · intro h
    have hnot : ¬ (StartsBlank (c :: cs) ∨ StartsComment (c :: cs)) := fun hskip => by
      rw [bite_blank_iff.2 hskip] at h
      cases h
    obtain rfl : c = d := by
      have hhead := head?_bite_text c cs
      rw [(bite_accounts c cs).unexpected d h] at hhead
      exact (Option.some.inj hhead).symm
    refine ⟨rfl, ?_, fun hb => hnot (.inl hb), fun hc => hnot (.inr hc), ?_⟩
    · rintro rfl
      by_cases hmem : '"' ∈ cs
      · obtain ⟨body, more, rfl, hbody⟩ := List.eq_append_cons_of_mem hmem
        rw [bite_of_closed hbody] at h
        cases h
      · rw [bite_openString_iff.2 ⟨rfl, hmem⟩] at h
        cases h
    · intro kind text hwritten hpre
      obtain ⟨kind', hkind', -⟩ := hwritten.bite_tokenOf (fun hc => hnot (.inr hc)) hpre
      rw [hkind'] at h
      cases h
  · rintro ⟨rfl, hquote, hblank, hcomment, hnone⟩
    cases hpiece : (bite c cs).piece with
    | blank => exact absurd (bite_blank_iff.1 hpiece) (by tauto)
    | token kind =>
      have hlongest := (longest_of_bite hpiece).2
      exact absurd hlongest.isPrefix (hnone kind _ hlongest.written)
    | fault fault =>
      cases fault with
      | openString => exact absurd (bite_openString_iff.1 hpiece).1 hquote
      | unexpected d =>
        have hhead := head?_bite_text c cs
        rw [(bite_accounts c cs).unexpected d hpiece] at hhead
        cases hhead
        rfl

end Scan

/-- What a bite is, and how far it goes, follows in this way from the text ahead of it. -/
structure Bite.Classified (b : Bite) : Prop where
  /-- A token is the longest one that stands there, unless a comment starts. -/
  token : ∀ kind text, b.piece = .token kind ∧ b.text = text ↔
    ¬ StartsComment b.ahead ∧ kind.Longest text b.ahead
  blank : b.piece = .blank ↔ StartsBlank b.ahead ∨ StartsComment b.ahead
  blankText : StartsBlank b.ahead → b.text.length = 1
  commentText : StartsComment b.ahead → '\n' ∉ b.text ∧ ∀ c ∈ b.rest.head?, c = '\n'
  /-- A character is unexpected if nothing else stands there and it is no quote. -/
  unexpected : ∀ c, b.piece = .fault (.unexpected c) ↔ b.ahead.head? = some c ∧ c ≠ '"' ∧
    ¬ StartsBlank b.ahead ∧ ¬ StartsComment b.ahead ∧
    ∀ kind text, Kind.Written kind text → ¬ text <+: b.ahead
  unexpectedText : ∀ c, b.piece = .fault (.unexpected c) → b.text = [c]
  /-- A string is open if no quote follows its quote. -/
  openString : b.piece = .fault .openString ↔ ∃ rest, b.ahead = '"' :: rest ∧ '"' ∉ rest
  openStringText : b.piece = .fault .openString → b.rest = []

open Scan in
theorem bite_classified (c : Char) (cs : List Char) : (bite c cs).Classified := by
  have hahead := ahead_bite c cs
  constructor
  case token =>
    intro kind text
    rw [hahead]
    constructor
    · rintro ⟨hpiece, rfl⟩
      exact longest_of_bite hpiece
    · rintro ⟨hcomment, hlongest⟩
      exact bite_of_longest hcomment hlongest
  case blank =>
    rw [hahead]
    exact bite_blank_iff
  case blankText =>
    rw [hahead]
    rintro ⟨_, ⟨⟩, hblank⟩
    rw [bite, if_pos (isBlank_iff.2 hblank)]
    rfl
  case commentText =>
    rw [hahead]
    intro hcomment
    obtain ⟨rfl, more, rfl⟩ := List.cons_prefix_cons.1 hcomment
    refine ⟨fun hmem => ?_, fun c hc => ?_⟩
    · change '\n' ∈ '/' :: '/' :: more.takeWhile (· != '\n') at hmem
      have hmem : '\n' ∈ more.takeWhile (· != '\n') := by simpa using hmem
      simpa using List.mem_takeWhile_imp hmem
    · have hstop := List.head?_dropWhile_not (· != '\n') more
      change c ∈ (more.dropWhile (· != '\n')).head? at hc
      rw [Option.mem_def.1 hc] at hstop
      simpa using hstop
  case unexpected =>
    intro d
    rw [hahead, bite_unexpected_iff, List.head?_cons, Option.some_inj]
  case unexpectedText => exact (bite_accounts c cs).unexpected
  case openString =>
    rw [hahead, bite_openString_iff]
    constructor
    · rintro ⟨rfl, hcs⟩
      exact ⟨cs, rfl, hcs⟩
    · rintro ⟨rest, ⟨⟩, hcs⟩
      exact ⟨rfl, hcs⟩
  case openStringText => exact fun h => ((bite_accounts c cs).openString h).2

/-! ### The bites of a text -/

/-- The bites that the scanner takes from a text, one behind the other. -/
def bites : List Char → List Bite
  | [] => []
  | c :: cs => bite c cs :: bites (bite c cs).rest
termination_by cs => cs.length
decreasing_by exact bite_rest_lt c cs

/-- The items that bites are, if the first of them is on the given line. -/
def itemsOf (line : Nat) : List Bite → List Item
  | [] => [.ok (.endOfText line)]
  | b :: bs =>
    match b.piece with
    | .blank => itemsOf (line + b.text.count '\n') bs
    | .token kind =>
      .ok ⟨kind, String.ofList b.text, line⟩ :: itemsOf (line + b.text.count '\n') bs
    | .fault fault => .error (.lex fault line) :: itemsOf (line + b.text.count '\n') bs

theorem items_eq_itemsOf (line : Nat) (cs : List Char) :
    items line cs = itemsOf line (bites cs) := by
  fun_induction items line cs with
  | case1 line => rw [bites, itemsOf]
  | case2 line c cs b hpiece ih => rw [ih, bites, itemsOf, hpiece]
  | case3 line c cs b kind hpiece ih => rw [ih, bites, itemsOf, hpiece]
  | case4 line c cs b fault hpiece ih => rw [ih, bites, itemsOf, hpiece]

/-- Each bite is taken where the bites before it end, and follows from what is ahead there. -/
theorem bites_classified {cs : List Char} {before after : List Bite} {b : Bite}
    (h : bites cs = before ++ b :: after) :
    before.flatMap Bite.text ++ b.ahead = cs ∧ b.Classified := by
  induction before generalizing cs with
  | nil =>
    cases cs with
    | nil =>
      rw [bites] at h
      cases h
    | cons c cs =>
      rw [bites] at h
      obtain ⟨rfl, -⟩ := List.cons.inj h
      exact ⟨ahead_bite c cs, bite_classified c cs⟩
  | cons first before ih =>
    cases cs with
    | nil =>
      rw [bites] at h
      cases h
    | cons c cs =>
      rw [bites] at h
      obtain ⟨rfl, hrest⟩ := List.cons.inj h
      obtain ⟨hahead, hclassified⟩ := ih hrest
      refine ⟨?_, hclassified⟩
      rw [List.flatMap_cons, List.append_assoc, hahead, bite_text_append_rest]

/-- A scanned token is written as one of its kind, unless it is the end token. -/
theorem written_of_mem_items {line : Nat} {cs : List Char} {t : Token}
    (h : .ok t ∈ items line cs) :
    t.kind.Written t.lexeme.toList ∨ t.kind = .mark .eof ∧ t.lexeme = "" := by
  fun_induction items line cs with
  | case1 line =>
    cases List.mem_singleton.1 h
    exact .inr ⟨rfl, rfl⟩
  | case2 line c cs b hpiece ih => exact ih h
  | case3 line c cs b kind hpiece ih =>
    rcases List.mem_cons.1 h with heq | h
    · cases heq
      rw [String.toList_ofList]
      exact .inl (bite_tokenWritten c cs kind hpiece)
    · exact ih h
  | case4 line c cs b fault hpiece ih =>
    rcases List.mem_cons.1 h with heq | h
    · cases heq
    · exact ih h

/-! ### Scanned tokens -/

namespace Kind.Written

variable {kind : Kind} {text : List Char}

theorem ne_nil (h : kind.Written text) : text ≠ [] := by
  obtain ⟨c, cs, rfl, -⟩ := h.exists_bite_eq
  exact List.cons_ne_nil c cs

theorem eq_of_isWord (h : kind.Written text) (hword : IsWord text) :
    kind = .mark (.ofWord (String.ofList text)) :=
  h.unique (written_ofWord hword)

theorem eq_quoted {contents : String} (h : Kind.Written (.string contents) text) :
    text = '"' :: (contents.toList ++ ['"']) := by
  cases h with
  | string _ => rw [String.toList_ofList]

end Kind.Written

/-- The kind of a scanned token, with its value, follows from its text, whatever script it is in. -/
theorem kind_eq_of_lexeme_eq {line line' : Nat} {cs cs' : List Char} {t u : Token}
    (ht : .ok t ∈ items line cs) (hu : .ok u ∈ items line' cs') (h : t.lexeme = u.lexeme) :
    t.kind = u.kind := by
  rcases written_of_mem_items ht with ht | ⟨ht, htext⟩ <;>
    rcases written_of_mem_items hu with hu | ⟨hu, hutext⟩
  · exact ht.unique (h ▸ hu)
  · exact absurd (by rw [h, hutext]; rfl) ht.ne_nil
  · exact absurd (by rw [← h, htext]; rfl) hu.ne_nil
  · rw [ht, hu]

/-- A word is an identifier unless it is reserved, and else it is the keyword it spells. -/
theorem kind_of_isWord {line : Nat} {cs : List Char} {t : Token} (ht : .ok t ∈ items line cs)
    (hword : IsWord t.lexeme.toList) :
    (t.kind ≠ .mark .identifier ↔ t.lexeme ∈ reservedWords) ∧
      ∀ m : Mark, m.word? = some t.lexeme → t.kind = .mark m := by
  have hkind : t.kind = .mark (.ofWord t.lexeme) := by
    rcases written_of_mem_items ht with hwritten | ⟨-, htext⟩
    · rw [hwritten.eq_of_isWord hword, String.ofList_toList]
    · rw [htext] at hword
      cases hword
  have hmark : ∀ m : Mark, m.word? = some t.lexeme → t.kind = .mark m := fun m hm => by
    rw [hkind, Mark.ofWord_of_word? hm]
  refine ⟨⟨fun hne => ?_, fun hmem hname => ?_⟩, hmark⟩
  · by_contra hmem
    exact hne (by rw [hkind, Mark.ofWord_of_not_mem hmem])
  · obtain ⟨m, hm⟩ := Mark.exists_word?_iff.2 hmem
    cases (hmark m hm).symm.trans hname
    cases hm

/-- A scanned string is written as its contents between two quotes. -/
theorem lexeme_of_string {line : Nat} {cs : List Char} {t : Token} {contents : String}
    (ht : .ok t ∈ items line cs) (hkind : t.kind = .string contents) :
    t.lexeme = "\"" ++ contents ++ "\"" := by
  rcases written_of_mem_items ht with hwritten | ⟨heof, -⟩
  · rw [hkind] at hwritten
    apply String.toList_inj.1
    simpa using hwritten.eq_quoted
  · cases hkind.symm.trans heof

/-- **Longest match and classification.** The items of a script are the bites that the scanner
takes, each where those before it end, and each is what the text ahead of it makes it: the longest
token, a blank or a comment, or a fault. A word is a keyword exactly if it is reserved, a string
carries what stands between its quotes, and tokens that are spelled alike carry the same value, as
do tokens that are the same up to what they carry. -/
theorem longest_match (source : String) :
    scanItems source = itemsOf 1 (bites source.toList) ∧
    (∀ before b after, bites source.toList = before ++ b :: after →
      before.flatMap Bite.text ++ b.ahead = source.toList ∧ b.Classified) ∧
    ∀ t, .ok t ∈ scanItems source →
      (IsWord t.lexeme.toList → (t.kind ≠ .mark .identifier ↔ t.lexeme ∈ reservedWords) ∧
        ∀ m : Mark, m.word? = some t.lexeme → t.kind = .mark m) ∧
      (∀ contents, t.kind = .string contents → t.lexeme = "\"" ++ contents ++ "\"") ∧
      ∀ source' u, .ok u ∈ scanItems source' →
        (t.lexeme = u.lexeme → t.kind = u.kind) ∧ (t.same u = true → t.kind = u.kind) := by
  refine ⟨items_eq_itemsOf 1 source.toList, fun _ _ _ => bites_classified, fun t ht => ?_⟩
  refine ⟨kind_of_isWord ht, fun _ => lexeme_of_string ht, fun source' u hu => ?_⟩
  refine ⟨kind_eq_of_lexeme_eq ht hu, fun hsame => kind_eq_of_lexeme_eq ht hu ?_⟩
  simp only [Token.same, Bool.and_eq_true, beq_iff_eq] at hsame
  exact hsame.1.2

/-- The second point of three numbers in a row stands where no longer token does. -/
theorem longest_match_second_point : ∃ before b after,
    bites "1.2.3".toList = before ++ b :: after ∧ b.ahead = ".3".toList ∧ b.Classified := by
  have hbites : bites "1.2.3".toList =
      [bite '1' ".2.3".toList] ++ bite '.' "3".toList :: bites "3".toList := by
    rw [show "1.2.3".toList = '1' :: ".2.3".toList from rfl, bites,
      show (bite '1' ".2.3".toList).rest = '.' :: "3".toList from rfl, bites]
    rfl
  exact ⟨_, _, _, hbites, rfl, ((longest_match "1.2.3").2.1 _ _ _ hbites).2⟩

end Scriptlet
