import Scriptlet.Proofs.Token.LongestMatch

/-!
# Scanning what tokens are written as

A text that is a token is scanned as that token wherever a space or the end of the script follows
it, since only a string holds spaces and a string ends with its second quote. So the tokens of a
script come back, on other lines, from their own texts with single spaces between them.
-/

namespace Scriptlet

/-- The texts of tokens, with single spaces between them. -/
def spaced (ts : List Token) : String := " ".intercalate (ts.map Token.lexeme)

/-! ### Tokens before a space -/

variable {kind : Kind} {text rest : List Char}

/-- A space follows, or nothing. -/
def SpaceOrEnd (rest : List Char) : Prop := ∀ c ∈ rest.head?, c = ' '

theorem IsWord.not_mem {d : Char} (h : IsWord text) (hd : ¬ (IsLetter d ∨ IsDigit d)) :
    d ∉ text := by
  cases text with
  | nil => cases h
  | cons c cs =>
    intro hmem
    rcases List.mem_cons.1 hmem with rfl | hmem
    · exact hd (.inl h.1)
    · exact hd (h.2 d hmem)

theorem Mark.not_mem_symbol {m : Mark} {s : String} (h : m.symbol? = some s) :
    ' ' ∉ s.toList ∧ '"' ∉ s.toList := by
  cases m <;> cases h <;> exact ⟨by decide, by decide⟩

namespace Kind.Written

theorem ne_eof (h : kind.Written text) : kind ≠ .mark .eof := by
  obtain ⟨c, cs, -, hbite⟩ := h.exists_bite_eq
  exact (bite_accounts c cs).token kind (by rw [hbite])

/-- Only a string holds a space or a quote. -/
theorem quoted_of_mem {d : Char} (h : kind.Written text) (hd : d = ' ' ∨ d = '"')
    (hmem : d ∈ text) : ∃ body, '"' ∉ body ∧ text = '"' :: (body ++ ['"']) := by
  obtain ⟨hletter, hpoint⟩ : ¬ (IsLetter d ∨ IsDigit d) ∧ d ≠ '.' := by
    rcases hd with rfl | rfl <;> decide
  cases h with
  | symbol hs =>
    obtain ⟨hspace, hquote⟩ := Mark.not_mem_symbol hs
    rcases hd with rfl | rfl
    · exact absurd hmem hspace
    · exact absurd hmem hquote
  | reserved hs => exact absurd hmem ((Mark.isWord_of_word? hs).not_mem hletter)
  | name hword _ => exact absurd hmem (hword.not_mem hletter)
  | whole hds => exact absurd (.inr (hds.2 d hmem)) hletter
  | decimal hds hfs =>
    rcases List.mem_append.1 hmem with hmem | hmem
    · exact absurd (.inr (hds.2 d hmem)) hletter
    · rcases List.mem_cons.1 hmem with rfl | hmem
      · exact absurd rfl hpoint
      · exact absurd (.inr (hfs.2 d hmem)) hletter
  | string hcs => exact ⟨_, hcs, rfl⟩

/-- No token goes on over a space behind another token. -/
theorem space_not_mem {other : Kind} {more : List Char} (h : kind.Written text)
    (hother : other.Written (text ++ more)) : ' ' ∉ more := by
  intro hmem
  obtain ⟨body, hbody, heq⟩ := hother.quoted_of_mem (.inl rfl) (List.mem_append_right text hmem)
  -- the shorter text starts with the quote of the longer, so it is a string and ends with a quote
  obtain ⟨c, cs, rfl⟩ := List.exists_cons_of_ne_nil h.ne_nil
  rw [List.cons_append] at heq
  obtain ⟨rfl, hrest⟩ := List.cons.inj heq
  obtain ⟨body', -, hcs⟩ := h.quoted_of_mem (.inr rfl) List.mem_cons_self
  obtain ⟨-, rfl⟩ := List.cons.inj hcs
  -- and that quote is inside the longer one
  have hmore : more ≠ [] := List.ne_nil_of_mem hmem
  rw [List.append_assoc, List.singleton_append] at hrest
  have hinside : '"' ∈ body := by
    have hdrop := congrArg List.dropLast hrest
    rw [List.dropLast_concat, List.dropLast_append_of_ne_nil (List.cons_ne_nil _ _),
      List.dropLast_cons_of_ne_nil hmore] at hdrop
    rw [← hdrop]
    simp
  exact hbody hinside

theorem not_startsComment (h : kind.Written text) (hrest : SpaceOrEnd rest) :
    ¬ StartsComment (text ++ rest) := by
  obtain ⟨c, cs, rfl, hbite⟩ := h.exists_bite_eq
  intro hcomment
  obtain ⟨rfl, hslash⟩ := List.cons_prefix_cons.1 hcomment
  cases cs with
  | nil =>
    obtain ⟨more, rfl⟩ := hslash
    cases hrest '/' rfl
  | cons d cs =>
    obtain ⟨rfl, -⟩ := List.cons_prefix_cons.1 hslash
    cases hbite

/-- Before a space or the end of the script, no longer token starts where a token stands. -/
theorem longest_append (h : kind.Written text) (hrest : SpaceOrEnd rest) :
    kind.Longest text (text ++ rest) := by
  refine ⟨h, List.prefix_append text rest, fun other text' hother hpre => ?_⟩
  by_contra hlonger
  obtain ⟨more, rfl⟩ := List.prefix_of_prefix_length_le (List.prefix_append text rest) hpre
    (Nat.le_of_not_le hlonger)
  cases more with
  | nil => simp at hlonger
  | cons d more =>
    obtain ⟨after, rfl⟩ := (List.prefix_append_right_inj text).1 hpre
    obtain rfl : d = ' ' := hrest d rfl
    exact h.space_not_mem hother List.mem_cons_self

/-- Before a space or the end of the script, what is written as a token is scanned as that token. -/
theorem items_before_space (h : kind.Written text) (hrest : SpaceOrEnd rest) (line : Nat) :
    items line (text ++ rest) =
      .ok ⟨kind, String.ofList text, line⟩ :: items (line + text.count '\n') rest := by
  obtain ⟨c, cs, rfl⟩ := List.exists_cons_of_ne_nil h.ne_nil
  have hcomment := h.not_startsComment hrest
  have hlongest := h.longest_append hrest
  rw [List.cons_append] at hcomment hlongest ⊢
  obtain ⟨hpiece, htext⟩ := Scan.bite_of_longest hcomment hlongest
  have hsplit := bite_text_append_rest c (cs ++ rest)
  rw [htext, ← List.cons_append] at hsplit
  rw [items_token line hpiece, htext, List.append_cancel_left hsplit]

end Kind.Written

/-! ### Tokens with spaces between them -/

/-- Behind the first of some tokens there is a space or nothing, and then the others are scanned. -/
theorem exists_toList_spaced_cons (t : Token) (ts : List Token) :
    ∃ rest, (spaced (t :: ts)).toList = t.lexeme.toList ++ rest ∧ SpaceOrEnd rest ∧
      ∀ line, items line rest = items line (spaced ts).toList := by
  cases ts with
  | nil => exact ⟨[], by simp [spaced], by simp [SpaceOrEnd], fun line => rfl⟩
  | cons u us =>
    refine ⟨' ' :: (spaced (u :: us)).toList, ?_, ?_, fun line => items_blank line rfl⟩
    · simp [spaced, String.toList_intercalate]
    · simp [SpaceOrEnd]

/-- Texts of tokens with single spaces between them are scanned as these tokens. -/
theorem items_spaced {ts : List Token} (h : ∀ t ∈ ts, t.kind.Written t.lexeme.toList)
    (line : Nat) : ∃ us last, items line (spaced ts).toList = (us ++ [.endOfText last]).map .ok ∧
      List.Forall₂ Token.SameButLine ts us := by
  induction ts generalizing line with
  | nil => exact ⟨[], line, by simp [spaced, items], .nil⟩
  | cons t ts ih =>
    obtain ⟨ht, hts⟩ := List.forall_mem_cons.1 h
    obtain ⟨rest, htext, hrest, hitems⟩ := exists_toList_spaced_cons t ts
    obtain ⟨us, last, hus, hsame⟩ := ih hts (line + t.lexeme.toList.count '\n')
    refine ⟨⟨t.kind, t.lexeme, line⟩ :: us, last, ?_, .cons ⟨rfl, rfl⟩ hsame⟩
    rw [htext, ht.items_before_space hrest, hitems, hus, String.ofList_toList]
    rfl

/-- The tokens of a script are written as tokens, up to the end token. -/
theorem exists_written_of_scan {source : String} {ts : List Token} (h : scan source = .ok ts) :
    ∃ front line, ts = front ++ [.endOfText line] ∧
      ∀ t ∈ front, t.kind.Written t.lexeme.toList := by
  have hitems : items 1 source.toList = ts.map .ok := mapM_id_eq_ok_iff.1 h
  have hwritten : ∀ t ∈ ts, t.kind.Written t.lexeme.toList ∨ t.kind = .mark .eof ∧ t.lexeme = "" :=
    fun t ht => written_of_mem_items (hitems ▸ List.mem_map_of_mem ht)
  obtain ⟨front, ⟨kind, lexeme, line⟩, rfl, rfl, hfront⟩ := scan_eq_append h
  obtain ⟨-, rfl⟩ := (hwritten ⟨.mark .eof, lexeme, line⟩ (by simp)).resolve_left
    fun hlast => hlast.ne_eof rfl
  refine ⟨front, line, rfl, fun t ht => ?_⟩
  exact (hwritten t (by simp [ht])).resolve_right fun heof => hfront t ht heof.1

/-- **Scanning undoes writing.** If a script has no faults, then the texts of its tokens without the
end token, with single spaces between them, are scanned as the same tokens, though possibly on other
lines. -/
theorem scan_spaced {source : String} {ts : List Token} (h : scan source = .ok ts) :
    ∃ us, scan (spaced (ts.filter fun t => !t.is .eof)) = .ok us ∧
      List.Forall₂ Token.SameButLine ts us := by
  obtain ⟨front, line, rfl, hwritten⟩ := exists_written_of_scan h
  have hfilter : (front ++ [Token.endOfText line]).filter (fun t => !t.is .eof) = front := by
    have hkept : ∀ t ∈ front, (!t.is .eof) = true := fun t ht => by
      rw [Bool.not_eq_true', Bool.eq_false_iff]
      exact mt Token.is_eq_true_iff.1 (hwritten t ht).ne_eof
    rw [List.filter_append, List.filter_eq_self.2 hkept]
    simp [Token.endOfText, Token.is, Kind.isMark]
  obtain ⟨us, last, hus, hsame⟩ := items_spaced hwritten 1
  refine ⟨us ++ [.endOfText last], mapM_id_eq_ok_iff.2 ?_, List.rel_append hsame ?_⟩
  · rw [hfilter]
    exact hus
  · exact .cons ⟨rfl, rfl⟩ .nil

/-- Numbers with points between them, operators in a row, and a string that holds a line break and
two slashes, all without a space. -/
theorem scan_spaced_tight : ∃ ts us, scan "1.2.3===!x\"//\n\"and/ifs// y" = .ok ts ∧
    spaced (ts.filter fun t => !t.is .eof) = "1.2 . 3 == = ! x \"//\n\" and / ifs" ∧
    scan "1.2 . 3 == = ! x \"//\n\" and / ifs" = .ok us ∧
    List.Forall₂ Token.SameButLine ts us := by
  have hspaced : ((scan "1.2.3===!x\"//\n\"and/ifs// y").toOption.map fun ts =>
      spaced (ts.filter fun t => !t.is .eof)) = some "1.2 . 3 == = ! x \"//\n\" and / ifs" := by
    decide +kernel
  cases hscan : scan "1.2.3===!x\"//\n\"and/ifs// y" with
  | error e =>
    rw [hscan] at hspaced
    cases hspaced
  | ok ts =>
    rw [hscan] at hspaced
    have htext := Option.some.inj hspaced
    obtain ⟨us, hus, hsame⟩ := scan_spaced hscan
    exact ⟨ts, us, rfl, htext, htext ▸ hus, hsame⟩

end Scriptlet
