import Scriptlet.Proofs.Token.Accounting
import Scriptlet.Proofs.Tree.Renumber

/-!
# Scanning at line breaks

No token but a string goes over a line break, so a text that leaves no string open can be scanned by
itself: what follows behind a line break is scanned as if it stood alone, except that its lines
count on.
-/

namespace Scriptlet

/-! ### Bites before a line break -/

namespace Scan

variable {p : Char → Bool} {x : Char} {cs after : List Char}

theorem takeWhile_append_stop (hx : p x = false) :
    (cs ++ x :: after).takeWhile p = cs.takeWhile p := by
  induction cs with
  | nil => simp [hx]
  | cons c cs ih => by_cases hc : p c <;> simp [hc, ih]

theorem dropWhile_append_stop (hx : p x = false) :
    (cs ++ x :: after).dropWhile p = cs.dropWhile p ++ x :: after := by
  induction cs with
  | nil => simp [hx]
  | cons c cs ih => by_cases hc : p c <;> simp [hc, ih]

/-- Where a run of characters ends inside a text does not depend on what follows the text. -/
theorem span_append_of_dropWhile {d : Char} {rest : List Char} (hd : cs.dropWhile p = d :: rest)
    (after : List Char) : (cs ++ after).takeWhile p = cs.takeWhile p ∧
      (cs ++ after).dropWhile p = d :: rest ++ after := by
  induction cs with
  | nil => cases hd
  | cons c cs ih =>
    by_cases hc : p c
    · rw [List.dropWhile_cons_of_pos hc] at hd
      simp [hc, ih hd]
    · rw [List.dropWhile_cons_of_neg hc] at hd
      simp [hc, ← hd]

theorem pairBite_append (c : Char) (alone double : Mark) :
    pairBite c alone double (cs ++ '\n' :: after) =
      { pairBite c alone double cs with
        rest := (pairBite c alone double cs).rest ++ '\n' :: after } := by
  cases cs with
  | nil => rfl
  | cons d cs =>
    by_cases hd : d = '='
    · subst hd
      rfl
    · simp [pairBite, hd]

theorem slashBite_append : slashBite (cs ++ '\n' :: after) =
    { slashBite cs with rest := (slashBite cs).rest ++ '\n' :: after } := by
  cases cs with
  | nil => rfl
  | cons d cs =>
    by_cases hd : d = '/'
    · subst hd
      simp only [List.cons_append, slashBite]
      rw [takeWhile_append_stop (by decide), dropWhile_append_stop (by decide)]
    · simp [slashBite, hd]

theorem quoteBite_append (h : (quoteBite cs).piece ≠ .fault .openString) :
    quoteBite (cs ++ '\n' :: after) =
      { quoteBite cs with rest := (quoteBite cs).rest ++ '\n' :: after } := by
  unfold quoteBite at h ⊢
  cases hd : cs.dropWhile (· != '"') with
  | nil => simp [hd] at h
  | cons quote rest =>
    obtain ⟨htake, hdrop⟩ := span_append_of_dropWhile hd ('\n' :: after)
    rw [htake, hdrop]
    rfl

theorem numberBite_append (c : Char) : numberBite c (cs ++ '\n' :: after) =
    { numberBite c cs with rest := (numberBite c cs).rest ++ '\n' :: after } := by
  unfold numberBite
  rw [takeWhile_append_stop (by decide), dropWhile_append_stop (by decide)]
  cases hd : cs.dropWhile Char.isDigit with
  | nil => rfl
  | cons x more =>
    -- a point belongs to the number only if a digit follows, which a line break is not
    by_cases hx : x = '.'
    · subst hx
      cases more with
      | nil => simp
      | cons d more =>
        by_cases hdigit : d.isDigit
        · simp only [List.cons_append, hdigit, if_true]
          rw [takeWhile_append_stop (by decide), dropWhile_append_stop (by decide)]
        · simp [hdigit]
    · simp [hx]

theorem wordBite_append (c : Char) : wordBite c (cs ++ '\n' :: after) =
    { wordBite c cs with rest := (wordBite c cs).rest ++ '\n' :: after } := by
  unfold wordBite
  rw [takeWhile_append_stop (by decide), dropWhile_append_stop (by decide)]

end Scan

open Scan in
/-- A line break does not change the bite before it, unless that is an open string. -/
theorem bite_append (c : Char) (cs after : List Char)
    (h : (bite c cs).piece ≠ .fault .openString) :
    bite c (cs ++ '\n' :: after) =
      { bite c cs with rest := (bite c cs).rest ++ '\n' :: after } := by
  unfold bite at h ⊢
  split
  · rfl
  split
  · exact slashBite_append
  split
  -- a string is the only piece that could go on over the line break
  · rename_i hblank hslash hquote
    rw [if_neg hblank, if_neg hslash, if_pos hquote] at h
    exact quoteBite_append h
  split
  · exact numberBite_append c
  split
  · exact wordBite_append c
  split
  · rfl
  · exact pairBite_append c _ _
  · rfl

/-! ### Items -/

section Items

variable {c : Char} {cs : List Char} (line : Nat)

theorem items_blank (h : (bite c cs).piece = .blank) :
    items line (c :: cs) = items (line + (bite c cs).text.count '\n') (bite c cs).rest := by
  rw [items, h]

theorem items_token {kind : Kind} (h : (bite c cs).piece = .token kind) :
    items line (c :: cs) = .ok ⟨kind, String.ofList (bite c cs).text, line⟩ ::
      items (line + (bite c cs).text.count '\n') (bite c cs).rest := by
  rw [items, h]

theorem items_fault {fault : LexFault} (h : (bite c cs).piece = .fault fault) :
    items line (c :: cs) = .error (.lex fault line) ::
      items (line + (bite c cs).text.count '\n') (bite c cs).rest := by
  rw [items, h]

theorem items_ne_nil (cs : List Char) : items line cs ≠ [] := by
  fun_induction items line cs with
  | case1 line => simp
  | case2 line c cs b hpiece ih => exact ih
  | case3 line c cs b kind hpiece ih => simp
  | case4 line c cs b fault hpiece ih => simp

/-- The errors of a text are the faults of bites. -/
theorem exists_fault_of_mem_items {cs : List Char} {e : Error} (h : .error e ∈ items line cs) :
    ∃ d ds fault line', (bite d ds).piece = .fault fault ∧ e = .lex fault line' := by
  fun_induction items line cs with
  | case1 line => simp at h
  | case2 line c cs b hpiece ih => exact ih h
  | case3 line c cs b kind hpiece ih =>
    rcases List.mem_cons.1 h with heq | h
    · cases heq
    · exact ih h
  | case4 line c cs b fault hpiece ih =>
    rcases List.mem_cons.1 h with heq | h
    · cases heq
      exact ⟨c, cs, fault, line, hpiece, rfl⟩
    · exact ih h

theorem line_le_of_mem_items {cs : List Char} {t : Token} (h : .ok t ∈ items line cs) :
    line ≤ t.line := by
  fun_induction items line cs with
  | case1 line =>
    cases List.mem_singleton.1 h
    exact Nat.le_refl line
  | case2 line c cs b hpiece ih => exact Nat.le_trans (Nat.le_add_right _ _) (ih h)
  | case3 line c cs b kind hpiece ih =>
    rcases List.mem_cons.1 h with heq | h
    · cases heq
      exact Nat.le_refl line
    · exact Nat.le_trans (Nat.le_add_right _ _) (ih h)
  | case4 line c cs b fault hpiece ih =>
    rcases List.mem_cons.1 h with heq | h
    · cases heq
    · exact Nat.le_trans (Nat.le_add_right _ _) (ih h)

/-- Lines never decrease from token to token. -/
theorem pairwise_line_items (cs : List Char) : (items line cs).Pairwise fun x y =>
    ∀ t u, x = .ok t → y = .ok u → t.line ≤ u.line := by
  fun_induction items line cs with
  | case1 line => exact List.pairwise_singleton _ _
  | case2 line c cs b hpiece ih => exact ih
  | case3 line c cs b kind hpiece ih =>
    refine List.pairwise_cons.2 ⟨fun y hy t u ht hu => ?_, ih⟩
    cases ht
    subst hu
    exact Nat.le_trans (Nat.le_add_right _ _) (line_le_of_mem_items _ hy)
  | case4 line c cs b fault hpiece ih =>
    refine List.pairwise_cons.2 ⟨fun y hy t u ht hu => ?_, ih⟩
    cases ht

end Items

theorem pairwise_line_of_scan {source : String} {ts : List Token} (h : scan source = .ok ts) :
    ts.Pairwise fun t u => t.line ≤ u.line := by
  have hok : items 1 source.toList = ts.map .ok := mapM_id_eq_ok_iff.1 h
  have hlines := pairwise_line_items 1 source.toList
  rw [hok, List.pairwise_map] at hlines
  exact hlines.imp fun hle => hle _ _ rfl rfl

theorem count_bite (c : Char) (cs : List Char) :
    (c :: cs).count '\n' = (bite c cs).text.count '\n' + (bite c cs).rest.count '\n' := by
  rw [← List.count_append, bite_text_append_rest]

/-- If a text leaves no string open, then behind it and a line break scanning goes on as at the
start of a script, with the lines counted on. -/
theorem items_append {line : Nat} {cs : List Char}
    (hclosed : ∀ l, .error (.lex .openString l) ∉ items line cs) (after : List Char) :
    items line (cs ++ '\n' :: after) =
      (items line cs).dropLast ++ items (line + cs.count '\n' + 1) after := by
  -- by the bites of the first text; at its end the line break is a bite of its own
  fun_induction items line cs with
  | case1 line => exact items_blank line rfl
  | case2 line c cs b hpiece ih =>
    have hbite := bite_append c cs after (by rw [hpiece]; simp)
    rw [List.cons_append, items_blank line (by rw [hbite, hpiece]), hbite, ih hclosed, count_bite,
      Nat.add_assoc line]
  | case3 line c cs b kind hpiece ih =>
    have hbite := bite_append c cs after (by rw [hpiece]; simp)
    rw [List.cons_append, items_token line (by rw [hbite, hpiece]), hbite,
      ih fun l hl => hclosed l (List.mem_cons_of_mem _ hl), count_bite, Nat.add_assoc line,
      List.dropLast_cons_of_ne_nil (items_ne_nil _ _), List.cons_append]
  | case4 line c cs b fault hpiece ih =>
    have hfault : fault ≠ .openString := by
      rintro rfl
      exact hclosed line List.mem_cons_self
    have hbite := bite_append c cs after (by rw [hpiece]; simpa using hfault)
    rw [List.cons_append, items_fault line (by rw [hbite, hpiece]), hbite,
      ih fun l hl => hclosed l (List.mem_cons_of_mem _ hl), count_bite, Nat.add_assoc line,
      List.dropLast_cons_of_ne_nil (items_ne_nil _ _), List.cons_append]

/-- The same token, possibly on another line. -/
def Token.SameButLine (t u : Token) : Prop := t.kind = u.kind ∧ t.lexeme = u.lexeme

/-- The same item on another line. -/
def Item.renumber (f : Nat → Nat) : Item → Item
  | .ok t => .ok (t.renumber f)
  | .error e => .error (e.renumber f)

/-- A script that starts further down has all its items as many lines further down. -/
theorem items_shift (line shift : Nat) (cs : List Char) :
    items (line + shift) cs = (items line cs).map (Item.renumber (· + shift)) := by
  fun_induction items line cs with
  | case1 line =>
    rw [items]
    rfl
  | case2 line c cs b hpiece ih =>
    rw [items_blank _ hpiece, Nat.add_right_comm]
    exact ih
  | case3 line c cs b kind hpiece ih =>
    rw [items_token _ hpiece, Nat.add_right_comm]
    exact congrArg (_ :: ·) ih
  | case4 line c cs b fault hpiece ih =>
    rw [items_fault _ hpiece, Nat.add_right_comm]
    exact congrArg (_ :: ·) ih

/-! ### Two scripts as one -/

/-- The items of a script end with an end token, on the line behind all line breaks. -/
theorem exists_scanItems_eq (source : String) :
    ∃ front, scanItems source = front ++ [.ok (.endOfText (1 + source.toList.count '\n'))] := by
  have hstart := splits_startPos_toList source
  obtain ⟨front, -, hitems, -⟩ := items_laid source.startPos source.toList hstart
  rw [lineAt_of_splits hstart, lineAt_of_splits (String.splits_endPos source)] at hitems
  exact ⟨front, hitems⟩

theorem toList_append_lineBreak (first second : String) :
    (first ++ "\n" ++ second).toList = first.toList ++ '\n' :: second.toList := by
  simp

/-- **Scanning is compositional at line breaks.** If a script leaves no string open, whatever other
faults it has, then with a line break and a second script behind it its items without the end token
are followed by those of the second, as many lines further down as the first has line breaks, and
one more. -/
theorem scanning_restarts_at_line_break {first : String}
    (hclosed : ∀ line, .error (.lex .openString line) ∉ scanItems first) (second : String) :
    ∃ front, scanItems first = front ++ [.ok (.endOfText (1 + first.toList.count '\n'))] ∧
      scanItems (first ++ "\n" ++ second) =
        front ++ (scanItems second).map (Item.renumber (· + (first.toList.count '\n' + 1))) := by
  obtain ⟨front, hfront⟩ := exists_scanItems_eq first
  refine ⟨front, hfront, ?_⟩
  have happend := items_append hclosed second.toList
  rw [← toList_append_lineBreak, Nat.add_assoc, items_shift] at happend
  refine happend.trans ?_
  have hdrop : (items 1 first.toList).dropLast = front := by
    rw [show items 1 first.toList = _ from hfront, List.dropLast_concat]
  rw [hdrop]
  rfl

/-- A string over two lines, a character that is no token and a number with a point behind it, and
then a digit on the next line. -/
theorem scanning_restarts_at_line_break_after_point :
    (scanItems "\"a\nb\" $ 1.").filterMap Item.error? = [.lex (.unexpected '$') 2] ∧
    ∃ front, scanItems "\"a\nb\" $ 1." = front ++ [.ok (.endOfText 2)] ∧
      scanItems ("\"a\nb\" $ 1." ++ "\n" ++ "5") =
        front ++ (scanItems "5").map (Item.renumber (· + 2)) := by
  have herrors : (scanItems "\"a\nb\" $ 1.").filterMap Item.error? =
      [.lex (.unexpected '$') 2] := by
    decide +kernel
  refine ⟨herrors, scanning_restarts_at_line_break (fun line hline => ?_) "5"⟩
  have hmem : .lex .openString line ∈ (scanItems "\"a\nb\" $ 1.").filterMap Item.error? :=
    List.mem_filterMap.2 ⟨_, hline, rfl⟩
  rw [herrors] at hmem
  cases List.mem_singleton.1 hmem

/-! ### Scripts without faults -/

theorem exists_occupies {source : String} {xs : List Item} {spans : List (Span source)}
    (h : List.Forall₂ Item.Occupies xs spans) {x : Item} (hx : x ∈ xs) :
    ∃ s : Span source, x.Occupies s := by
  induction h with
  | nil => cases hx
  | cons hs _ ih =>
    rcases List.mem_cons.1 hx with rfl | hx
    · exact ⟨_, hs⟩
    · exact ih hx

/-- The tokens of a script end with its only end token. -/
theorem scan_eq_append {source : String} {ts : List Token} (h : scan source = .ok ts) :
    ∃ front last, ts = front ++ [last] ∧ last.kind = .mark .eof ∧
      ∀ t ∈ front, t.kind ≠ .mark .eof := by
  have hstart := splits_startPos_toList source
  obtain ⟨front, spans, hitems, hlaid, -⟩ := items_laid source.startPos source.toList hstart
  rw [lineAt_of_splits hstart] at hitems
  have hts : ts.map .ok = front ++ [.ok (.endOfText _)] := (mapM_id_eq_ok_iff.1 h).symm.trans hitems
  obtain ⟨ts₁, ts₂, rfl, rfl, hlast⟩ := List.map_eq_append_iff.1 hts
  obtain ⟨last, rfl, hlast⟩ := List.map_eq_singleton_iff.1 hlast
  refine ⟨ts₁, last, rfl, ?_, fun t ht => ?_⟩
  · cases hlast
    rfl
  · obtain ⟨s, hs⟩ := exists_occupies hlaid.occupies (List.mem_map_of_mem ht)
    exact hs.1

/-- **Scanning two scripts as one.** Two scripts without faults, with a line break between them,
have the tokens of the first without its end and then those of the second, as many lines further
down as the first has line breaks, and one more. -/
theorem scan_append {first second : String} {ts us : List Token} (hfirst : scan first = .ok ts)
    (hsecond : scan second = .ok us) :
    scan (first ++ "\n" ++ second) =
      .ok (ts.dropLast ++ us.map (Token.renumber (· + (first.toList.count '\n' + 1)))) := by
  have hts : items 1 first.toList = ts.map .ok := mapM_id_eq_ok_iff.1 hfirst
  have hus : items 1 second.toList = us.map .ok := mapM_id_eq_ok_iff.1 hsecond
  have hclosed : ∀ l, .error (.lex .openString l) ∉ items 1 first.toList := by
    intro l hl
    rw [hts] at hl
    obtain ⟨t, -, ht⟩ := List.mem_map.1 hl
    cases ht
  refine mapM_id_eq_ok_iff.2 ?_
  rw [scanItems, toList_append_lineBreak, items_append hclosed, Nat.add_assoc, items_shift, hts,
    hus, List.map_append, List.map_dropLast, List.map_map, List.map_map]
  rfl

end Scriptlet
