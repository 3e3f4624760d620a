import Mathlib.Data.List.Forall2
import Mathlib.Tactic.Tauto
import Scriptlet.Token.Stream

/-!
# Items on stretches of a script

A span is a stretch of a script between two character boundaries, and its line counts the line
breaks before it. A list of items is laid out on spans (`Laid`) if each item is spelled by its span,
the spans follow each other, and what is left between them is blanks, line breaks and comments. A
bite tells what its text can be (`bite_accounts`) and where the text behind it starts
(`exists_behind_bite`). Items are collected into tokens up to the first fault.
-/

namespace Scriptlet

/-! ### Stretches of a script -/

/-- A stretch of a script that is not empty. Its ends are positions in bytes at which a character
starts or the script ends. -/
structure Span (source : String) where
  start : source.Pos
  stop : source.Pos
  start_lt_stop : start < stop

variable {source : String} {p q r : source.Pos}

/-- The text of a span. -/
def Span.text (s : Span source) : String := source.extract s.start s.stop

/-- The line of a place: one more than the number of line breaks before it. -/
def lineAt (p : source.Pos) : Nat := 1 + (source.extract source.startPos p).toList.count '\n'

theorem extract_append_extract (hpq : p ≤ q) (hqr : q ≤ r) :
    source.extract p q ++ source.extract q r = source.extract p r := by
  apply String.toByteArray_inj.1
  simp only [String.toByteArray_append, String.toByteArray_extract]
  exact (ByteArray.extract_eq_extract_append_extract _ hpq hqr).symm

theorem splits_startPos_toList (source : String) :
    source.startPos.Splits "" (String.ofList source.toList) := by
  rw [String.ofList_toList]
  exact String.splits_startPos source

/-- The text between two places that split the script on both sides of it. -/
theorem extract_of_splits {t t' t'' : String} (hp : p.Splits t (t' ++ t''))
    (hq : q.Splits (t ++ t') t'') : source.extract p q = t' := by
  obtain ⟨hpq, hcopy⟩ := String.copy_slice_eq_iff_splits.2 ⟨t, t'', hp, hq⟩
  rw [String.extract_eq_copy_slice p q hpq, hcopy]

theorem extract_endPos_of_splits {t t' : String} (hp : p.Splits t t') :
    source.extract p source.endPos = t' := by
  have hp' : p.Splits t (t' ++ "") := by simpa using hp
  refine extract_of_splits hp' ?_
  rw [← hp.eq_append]
  exact String.splits_endPos source

theorem lineAt_of_splits {t t' : String} (hp : p.Splits t t') :
    lineAt p = 1 + t.toList.count '\n' := by
  have hstart : source.startPos.Splits "" (t ++ t') := by
    rw [← hp.eq_append]
    exact String.splits_startPos source
  rw [lineAt, extract_of_splits hstart (by simpa using hp)]

/-- The places between spans: from the given place to the first span, from each span to the next,
and from the last span to the end of the script. -/
def gaps (p : source.Pos) : List (Span source) → List (source.Pos × source.Pos)
  | [] => [(p, source.endPos)]
  | s :: ss => (p, s.start) :: gaps s.stop ss

/-- Text that holds no item: blanks, line breaks, and comments that run up to a line break or to the
end of the script. The text behind is given because a comment may be the last thing in it. -/
inductive Filler (after : List Char) : List Char → Prop
  | nil : Filler after []
  | blank {c : Char} {cs : List Char} :
      c ∈ [' ', '\t', '\r', '\n'] → Filler after cs → Filler after (c :: cs)
  | comment {body cs : List Char} :
      '\n' ∉ body → (∀ c ∈ (cs ++ after).head?, c = '\n') → Filler after cs →
      Filler after ('/' :: '/' :: (body ++ cs))

/-- Whether there is nothing but filler from one place to a later one. -/
def IsGap (p q : source.Pos) : Prop :=
  p ≤ q ∧ Filler (source.extract q source.endPos).toList (source.extract p q).toList

/-- Whether an item stands on a span. A token is spelled by it, an unexpected character fills it,
and an open string is all that follows its quote; each has the line on which the span starts. -/
def Item.Occupies : Item → Span source → Prop
  | .ok t, s => t.kind ≠ .mark .eof ∧ t.lexeme = s.text ∧ t.line = lineAt s.start
  | .error (.lex (.unexpected c) line), s => s.text = c.toString ∧ line = lineAt s.start
  | .error (.lex .openString line), s =>
    s.text.toList.head? = some '"' ∧ s.stop = source.endPos ∧ line = lineAt s.start
  | .error _, _ => False

/-! ### What a bite covers -/

namespace Scan

theorem slashBite_blank {cs gap after : List Char} (h : (slashBite cs).piece = .blank)
    (hrest : (slashBite cs).rest = gap ++ after) (hgap : Filler after gap) :
    Filler after ((slashBite cs).text ++ gap) := by
  unfold slashBite at h hrest ⊢
  split at h
  · rename_i cs
    refine .comment (fun hmem => ?_) (fun c hc => ?_) hgap
    · simpa using List.all_eq_true.1 List.all_takeWhile _ hmem
    · have hstop := List.head?_dropWhile_not (· != '\n') cs
      rw [← hrest] at hc
      change c ∈ (cs.dropWhile (· != '\n')).head? at hc
      rw [Option.mem_def.1 hc] at hstop
      simpa using hstop
  · cases h

theorem isBlank_iff {c : Char} : isBlank c = true ↔ c ∈ [' ', '\t', '\r', '\n'] := by
  simp only [isBlank, Bool.or_eq_true, decide_eq_true_eq, List.mem_cons, List.not_mem_nil]
  tauto

theorem ofWord_ne_eof (word : String) : Mark.ofWord word ≠ .eof := by
  unfold Mark.ofWord
  cases h : Mark.keywords.lookup word with
  | none => decide
  | some m =>
    obtain ⟨l₁, l₂, hl, -⟩ := List.lookup_eq_some_iff.1 h
    have hmem : (word, m) ∈ Mark.keywords := by simp [hl]
    have hall : ∀ e ∈ Mark.keywords, e.2 ≠ .eof := by decide
    exact hall _ hmem

theorem single?_ne_eof {c : Char} {m : Mark} (h : single? c = some m) : m ≠ .eof := by
  unfold single? at h
  split at h <;> cases h <;> decide

theorem paired?_ne_eof {c : Char} {m n : Mark} (h : paired? c = some (m, n)) :
    m ≠ .eof ∧ n ≠ .eof := by
  unfold paired? at h
  split at h <;> cases h <;> decide

end Scan

/-- What a bite says about the text it covers. -/
structure Bite.Accounts (b : Bite) : Prop where
  blank : b.piece = .blank → ∀ gap after, b.rest = gap ++ after → Filler after gap →
    Filler after (b.text ++ gap)
  token : ∀ kind, b.piece = .token kind → kind ≠ .mark .eof
  unexpected : ∀ c, b.piece = .fault (.unexpected c) → b.text = [c]
  openString : b.piece = .fault .openString → b.text.head? = some '"' ∧ b.rest = []

namespace Bite.Accounts

theorem of_token {kind : Kind} {text rest : List Char} (h : kind ≠ .mark .eof) :
    Accounts ⟨.token kind, text, rest⟩ where
  blank := by simp
  token k hk := by
    cases hk
    exact h
  unexpected := by simp
  openString := by simp

end Bite.Accounts

open Scan in
theorem bite_accounts (c : Char) (cs : List Char) : (bite c cs).Accounts := by
  have hmark {m : Mark} (hm : m ≠ .eof) : Kind.mark m ≠ .mark .eof := fun h => hm (Kind.mark.inj h)
  unfold bite
  split
  · rename_i hc
    refine ⟨fun _ gap after _ hgap => .blank (isBlank_iff.1 hc) hgap, ?_, ?_, ?_⟩ <;> simp
  split
  · refine ⟨fun h gap after => slashBite_blank h, ?_, ?_, ?_⟩ <;>
      · unfold slashBite
        split <;> simp +contextual
  split
  · unfold quoteBite
    split
    · exact .of_token (by simp)
    · refine ⟨by simp, by simp, by simp, by simp⟩
  split
  · unfold numberBite
    split
    · split <;> exact .of_token (by simp)
    · exact .of_token (by simp)
  split
  · exact .of_token (hmark (ofWord_ne_eof _))
  split
  · rename_i m hm
    exact .of_token (hmark (single?_ne_eof hm))
  · rename_i alone double hm
    obtain ⟨halone, hdouble⟩ := paired?_ne_eof hm
    unfold pairBite
    split
    · exact .of_token (hmark hdouble)
    · exact .of_token (hmark halone)
  · refine ⟨by simp, by simp, ?_, by simp⟩
    rintro d hd
    cases hd
    rfl

/-! ### Items on spans -/

/-- Items that stand on spans behind a place, in order, with filler between them. -/
structure Laid (p : source.Pos) (items : List Item) (spans : List (Span source)) : Prop where
  occupies : List.Forall₂ Item.Occupies items spans
  behind : ∀ s ∈ spans, p ≤ s.start
  ordered : spans.Pairwise fun s t => s.stop ≤ t.start
  filler : ∀ g ∈ gaps p spans, IsGap g.1 g.2

/-- Only the first gap depends on the place behind which spans stand. -/
theorem exists_gaps_eq (spans : List (Span source)) :
    ∃ stop others, ∀ p : source.Pos, gaps p spans = (p, stop) :: others := by
  cases spans with
  | nil => exact ⟨source.endPos, [], fun _ => rfl⟩
  | cons s ss => exact ⟨s.start, gaps s.stop ss, fun _ => rfl⟩

namespace Laid

variable {items : List Item} {spans : List (Span source)}

theorem nil : Laid source.endPos [] [] where
  occupies := .nil
  behind := by simp
  ordered := .nil
  filler g hg := by
    obtain rfl := List.mem_singleton.1 hg
    refine ⟨Std.le_refl _, ?_⟩
    rw [extract_endPos_of_splits (String.splits_endPos source)]
    exact .nil

theorem cons {item : Item} {s : Span source} (hs : item.Occupies s)
    (h : Laid s.stop items spans) : Laid s.start (item :: items) (s :: spans) where
  occupies := .cons hs h.occupies
  behind := by
    refine List.forall_mem_cons.2 ⟨Std.le_refl _, fun t ht => ?_⟩
    exact Std.le_trans (Std.le_of_lt s.start_lt_stop) (h.behind t ht)
  ordered := .cons h.behind h.ordered
  filler := by
    refine List.forall_mem_cons.2 ⟨⟨Std.le_refl _, ?_⟩, h.filler⟩
    have hempty : source.extract s.start s.start = "" := by simp [← String.toByteArray_inj]
    rw [hempty]
    exact .nil

/-- Filler in front of the first span widens the first gap. -/
theorem skip (hpq : p ≤ q) (h : Laid q items spans)
    (hfill : ∀ gap after, (source.extract q source.endPos).toList = gap ++ after →
      Filler after gap → Filler after ((source.extract p q).toList ++ gap)) :
    Laid p items spans where
  occupies := h.occupies
  behind s hs := Std.le_trans hpq (h.behind s hs)
  ordered := h.ordered
  filler := by
    obtain ⟨stop, others, hgaps⟩ := exists_gaps_eq spans
    have hall := h.filler
    rw [hgaps] at hall ⊢
    obtain ⟨⟨hle, hfirst⟩, hothers⟩ := List.forall_mem_cons.1 hall
    refine List.forall_mem_cons.2 ⟨⟨Std.le_trans hpq hle, ?_⟩, hothers⟩
    rw [← extract_append_extract hpq hle, String.toList_append]
    refine hfill _ _ ?_ hfirst
    rw [← String.toList_append, extract_append_extract hle (String.Pos.le_endPos _)]

end Laid

/-- The place behind a bite. -/
theorem exists_behind_bite {c : Char} {cs : List Char} {t : String}
    (hp : p.Splits t (String.ofList (c :: cs))) :
    ∃ q, p < q ∧ q.Splits (t ++ String.ofList (bite c cs).text) (String.ofList (bite c cs).rest) ∧
      source.extract p q = String.ofList (bite c cs).text ∧
      lineAt q = lineAt p + (bite c cs).text.count '\n' := by
  rw [← bite_text_append_rest c cs, String.ofList_append] at hp
  have hq := hp.splits_rotateRight
  refine ⟨hp.rotateRight, (hp.lt_iff_exists_eq_append hq).2 ⟨_, ?_, rfl, rfl⟩, hq,
    extract_of_splits hp hq, ?_⟩
  · simpa using bite_text_ne_nil c cs
  · rw [lineAt_of_splits hp, lineAt_of_splits hq, String.toList_append, List.count_append,
      String.toList_ofList, Nat.add_assoc]

/-! ### All tokens or the first fault -/

theorem mapM_id_cons_ok (t : Token) (xs : List Item) :
    (Except.ok t :: xs : List Item).mapM id = (xs.mapM id).map (t :: ·) := by
  rw [List.mapM_cons]
  cases xs.mapM id <;> rfl

theorem mapM_id_cons_error (e : Error) (xs : List Item) :
    (Except.error e :: xs : List Item).mapM id = .error e := by
  rw [List.mapM_cons]
  rfl

/-- Items are all tokens exactly if they can be collected. -/
theorem mapM_id_eq_ok_iff {xs : List Item} {ts : List Token} :
    xs.mapM id = .ok ts ↔ xs = ts.map .ok := by
  induction xs generalizing ts with
  | nil => cases ts <;> simp [pure, Except.pure]
  | cons x xs ih =>
    cases x with
    | error e =>
      rw [mapM_id_cons_error]
      cases ts <;> simp
    | ok t =>
      rw [mapM_id_cons_ok]
      cases h : xs.mapM id with
      | error e => cases ts <;> simp [Except.map, ← ih, h]
      | ok us => cases ts <;> simp [Except.map, ← ih, h]

/-- The first fault is what keeps items from being collected. -/
theorem mapM_id_eq_error_iff {xs : List Item} {e : Error} :
    xs.mapM id = .error e ↔ ∃ (ts : List Token) (after : List Item),
      xs = ts.map .ok ++ .error e :: after := by
  induction xs with
  | nil => simp [pure, Except.pure]
  | cons x xs ih =>
    cases x with
    | error d =>
      rw [mapM_id_cons_error]
      constructor
      · rintro ⟨⟩
        exact ⟨[], xs, rfl⟩
      · rintro ⟨_ | ⟨t, ts⟩, after, h⟩ <;> cases h
        rfl
    | ok t =>
      rw [mapM_id_cons_ok]
      constructor
      · intro h
        cases hxs : xs.mapM id with
        | ok us => simp [hxs, Except.map] at h
        | error d =>
          rw [hxs] at h
          obtain ⟨ts, after, rfl⟩ := ih.1 (hxs.trans h)
          exact ⟨t :: ts, after, rfl⟩
      · rintro ⟨_ | ⟨u, ts⟩, after, h⟩
        · cases h
        · cases h
          rw [ih.2 ⟨ts, after, rfl⟩]
          rfl

end Scriptlet
