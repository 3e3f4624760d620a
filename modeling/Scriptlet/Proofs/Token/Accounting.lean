import Scriptlet.Proofs.Token.ByteRounds

/-!
# Every byte and every line is accounted for

The items of a script, but for the end token, stand on spans that follow each other, with nothing
but filler between them (`items_laid`). The machine that scans bytes gives the same items: it never
leaves the range of the script or stops inside a character, it ends, its indices are the ends of the
spans, and its count of lines is that of the line breaks behind it (`scanner_accounts`).
-/

namespace Scriptlet

variable {source : String} {p q : source.Pos}

/-! ### The machine on spans -/

namespace ByteScanner

variable {r r' : ByteScanner} {front : List Item} {spans : List (Span source)} {fuel : Nat}

/-- The machine is at a place and has counted the lines up to it. -/
structure Stands (r : ByteScanner) (p : source.Pos) : Prop where
  current : r.current = p.offset.byteIdx
  line : r.line = lineAt p

/-- The machine has given the item on a span: its indices are the ends of the span. -/
structure Delimits (r : ByteScanner) (s : Span source) : Prop extends r.Stands s.stop where
  start : r.start = s.start.offset.byteIdx
  pending : r.pending = none

/-- The machine has given the end token: the index of the next byte is beyond the end, and all lines
have been counted. -/
structure Finished (source : String) (r : ByteScanner) : Prop where
  current : r.current = source.utf8ByteSize + 1
  line : r.line = lineAt source.endPos

/-- From the registers on, the machine gives items that stand on spans, and the end token. -/
inductive Walks (source : String) : ByteScanner → List Item → List (Span source) → Prop
  | nil {r r' : ByteScanner} : r.current ≤ source.utf8ByteSize →
      Gives source r (some (.ok (.endOfText (lineAt source.endPos)))) r' → Finished source r' →
      Walks source r [] []
  | cons {r r' : ByteScanner} {item : Item} {front : List Item} {s : Span source}
      {spans : List (Span source)} : r.current ≤ s.start.offset.byteIdx →
      Gives source r (some item) r' → r'.Delimits s → Walks source r' front spans →
      Walks source r (item :: front) (s :: spans)

theorem length_bytes (source : String) : (bytes source).length = source.utf8ByteSize := by
  rw [bytes, Array.length_toList]
  exact String.size_toByteArray

theorem Stands.ahead {cs : List Char} {before : String} (h : r.Stands p)
    (hp : p.Splits before (String.ofList cs)) : Ahead source r.current cs := by
  rw [h.current]
  exact .of_splits hp

/-- Fuel for every byte of the script is enough wherever the machine is. -/
theorem Gives.run {item : Option Item} (h : Gives source r item r')
    (hfuel : source.utf8ByteSize < fuel) : (next source fuel).run r = .ok item r' :=
  h fuel (by rw [length_bytes]; omega)

/-- What the machine comes to with tokens or a fault. -/
def ending (x : Except Error (List Token)) (r : ByteScanner) :
    EStateM.Result Stop ByteScanner (List Token) :=
  match x with
  | .ok ts => .ok ts r
  | .error e => .error (.fault e) r

theorem run_answer_of_finished (h : Finished source r) (hfuel : source.utf8ByteSize < fuel)
    (n : Nat) : (answer source fuel n).run r = .ok none r := by
  have hgives : Gives source r none r :=
    gives_none (by rw [length_bytes, h.current]; exact Nat.lt_succ_self _)
  induction n with
  | zero => exact hgives.run hfuel
  | succ n ih => rw [answer, run_bind_of_ok (hgives.run hfuel), ih]

namespace Walks

/-- Rounds that give nothing may come first. -/
theorem skip (h : Walks source r' front spans) (hle : r.current ≤ r'.current)
    (hskip : ∀ item k, Gives source r' item k → Gives source r item k) :
    Walks source r front spans := by
  cases h with
  | nil hend hgives hfinished => exact .nil (Nat.le_trans hle hend) (hskip _ _ hgives) hfinished
  | cons hstart hgives hdelimits hrest =>
    exact .cons (Nat.le_trans hle hstart) (hskip _ _ hgives) hdelimits hrest

/-- Spans are not empty, so there are no more items than bytes. -/
theorem length_le (h : Walks source r front spans) :
    front.length + r.current ≤ source.utf8ByteSize := by
  induction h with
  | nil hend _ _ => simpa using hend
  | @cons r r' item front s spans hle _ hdelimits _ ih =>
    have hlt : s.start.offset.byteIdx < s.stop.offset.byteIdx := s.start_lt_stop
    rw [← hdelimits.current] at hlt
    rw [List.length_cons]
    omega

/-- Called again and again, the machine gives the items in order, then the end token, and then
nothing any more. -/
theorem run_answer (h : Walks source r front spans) (hfuel : source.utf8ByteSize < fuel) (n : Nat) :
    ∃ r', (answer source fuel n).run r =
        .ok (front ++ [.ok (.endOfText (lineAt source.endPos))])[n]? r' ∧
      (∀ s, spans[n]? = some s → r'.Delimits s) ∧ (spans.length ≤ n → Finished source r') := by
  induction h generalizing n with
  | @nil r r' _ hgives hfinished =>
    refine ⟨r', ?_, by simp, fun _ => hfinished⟩
    cases n with
    | zero => exact hgives.run hfuel
    | succ n =>
      rw [answer, run_bind_of_ok (hgives.run hfuel), run_answer_of_finished hfinished hfuel]
      simp
  | @cons r r' item front s spans _ hgives hdelimits _ ih =>
    cases n with
    | zero =>
      refine ⟨r', hgives.run hfuel, fun s' hs' => ?_, by simp⟩
      obtain rfl : s = s' := by simpa using hs'
      exact hdelimits
    | succ n =>
      obtain ⟨k, hanswer, hspan, hfinished⟩ := ih n
      refine ⟨k, ?_, by simpa using hspan, by simpa using hfinished⟩
      rw [answer, run_bind_of_ok (hgives.run hfuel), hanswer, List.cons_append,
        List.getElem?_cons_succ]

/-- Collecting the tokens ends with all of them, or with the first fault. -/
theorem run_collect (h : Walks source r front spans) (hfuel : source.utf8ByteSize < fuel)
    {rounds : Nat} (hrounds : front.length + 1 < rounds) :
    ∃ r', (collect source fuel rounds).run r =
      ending ((front ++ [.ok (.endOfText (lineAt source.endPos))] : List Item).mapM id) r' := by
  induction h generalizing rounds with
  | @nil r r' _ hgives hfinished =>
    obtain ⟨rounds, rfl⟩ : ∃ n, rounds = n + 2 := ⟨rounds - 2, by simp at hrounds; omega⟩
    have hnone : (next source fuel).run r' = .ok none r' := run_answer_of_finished hfinished hfuel 0
    have hnil : (collect source fuel (rounds + 1)).run r' = .ok [] r' := by
      rw [collect, run_bind_of_ok hnone]
      rfl
    refine ⟨r', ?_⟩
    rw [collect, run_bind_of_ok (hgives.run hfuel)]
    exact run_map_of_ok hnil _
  | @cons r r' item front s spans _ hgives hdelimits _ ih =>
    obtain ⟨rounds, rfl⟩ : ∃ n, rounds = n + 1 := ⟨rounds - 1, by omega⟩
    obtain ⟨k, hk⟩ := ih (by simpa using hrounds)
    rw [collect, run_bind_of_ok (hgives.run hfuel), List.cons_append]
    cases item with
    | error e =>
      refine ⟨r', ?_⟩
      rw [mapM_id_cons_error]
      rfl
    | ok t =>
      refine ⟨k, ?_⟩
      rw [mapM_id_cons_ok]
      cases hall : (front ++ [.ok (.endOfText (lineAt source.endPos))] : List Item).mapM id with
      | ok ts =>
        rw [hall] at hk
        exact run_map_of_ok hk _
      | error e =>
        rw [hall] at hk
        exact run_map_of_error hk _

end Walks

end ByteScanner

theorem byteIdx_of_splits {t u v : String} {text : List Char} (hp : p.Splits t u)
    (hq : q.Splits (t ++ String.ofList text) v) :
    q.offset.byteIdx = p.offset.byteIdx + ByteScanner.width text := by
  rw [hp.offset_eq_rawEndPos, hq.offset_eq_rawEndPos, ByteScanner.width, Utf8.length_encode]
  exact String.utf8ByteSize_append

/-- The items of the text behind a place stand on spans behind that place, and the machine walks
over them. -/
theorem items_laid (p : source.Pos) (cs : List Char) {t : String}
    (hp : p.Splits t (String.ofList cs)) :
    ∃ front spans, items (lineAt p) cs = front ++ [.ok (.endOfText (lineAt source.endPos))] ∧
      Laid p front spans ∧
      ∀ r : ByteScanner, r.Stands p → ByteScanner.Walks source r front spans := by
  cases cs with
  | nil =>
    obtain rfl : p = source.endPos := hp.eq_endPos_iff.2 rfl
    refine ⟨[], [], by simp [items], .nil, fun r hr => ?_⟩
    have hend : r.current = source.utf8ByteSize := hr.current
    have hgives := ByteScanner.gives_end (hr.ahead hp)
    rw [hr.line] at hgives
    exact .nil (Nat.le_of_eq hend) hgives ⟨congrArg (· + 1) hend, rfl⟩
  | cons c cs =>
    obtain ⟨q, hpq, hq, htext, hline⟩ := exists_behind_bite hp
    have hb := bite_accounts c cs
    have : (bite c cs).rest.length < (c :: cs).length := bite_rest_lt c cs
    obtain ⟨front, spans, hitems, hlaid, hwalks⟩ := items_laid q (bite c cs).rest hq
    have hstands : ∀ r : ByteScanner, r.Stands p → (r.past (bite c cs).text).Stands q :=
      fun r hr => ⟨by rw [byteIdx_of_splits hp hq, ← hr.current]; rfl,
        by rw [hline, ← hr.line]; rfl⟩
    -- a bite that gives an item has the machine walk over one more span
    have hitem : ∀ item, (bite c cs).item? (lineAt p) = some item → ∀ r : ByteScanner,
        r.Stands p → ByteScanner.Walks source r (item :: front) (⟨p, q, hpq⟩ :: spans) := by
      intro item hgiven r hr
      rw [← hr.line] at hgiven
      exact .cons (Nat.le_of_eq hr.current) (ByteScanner.gives_of_some (hr.ahead hp) hgiven)
        ⟨hstands r hr, hr.current, rfl⟩ (hwalks _ (hstands r hr))
    rw [items, ← hline, hitems]
    split
    · rename_i hpiece
      refine ⟨front, spans, rfl, hlaid.skip (Std.le_of_lt hpq) fun gap after hrest hgap => ?_, ?_⟩
      · rw [extract_endPos_of_splits hq, String.toList_ofList] at hrest
        rw [htext, String.toList_ofList]
        exact hb.blank hpiece gap after hrest hgap
      · intro r hr
        refine (hwalks _ (hstands r hr)).skip (Nat.le_add_right _ _) fun item k hk => ?_
        exact ByteScanner.gives_of_none (hr.ahead hp) (by rw [Bite.item?, hpiece]) hk
    · rename_i kind hpiece
      refine ⟨_ :: front, ⟨p, q, hpq⟩ :: spans, rfl, .cons (s := ⟨p, q, hpq⟩) ?_ hlaid, ?_⟩
      · exact ⟨hb.token kind hpiece, htext.symm, rfl⟩
      · exact hitem _ (by rw [Bite.item?, hpiece])
    · rename_i fault hpiece
      refine ⟨_ :: front, ⟨p, q, hpq⟩ :: spans, rfl, .cons (s := ⟨p, q, hpq⟩) ?_ hlaid, ?_⟩
      · cases fault with
        | unexpected d =>
          refine ⟨htext.trans ?_, rfl⟩
          rw [hb.unexpected d hpiece]
          rfl
        | openString =>
          obtain ⟨hquote, hrest⟩ := hb.openString hpiece
          refine ⟨?_, ?_, rfl⟩
          · rw [Span.text, htext, String.toList_ofList, hquote]
          · exact hq.eq_endPos_iff.2 (by rw [hrest])
      · exact hitem _ (by rw [Bite.item?, hpiece])
termination_by cs.length

/-! ### The whole script -/

/-- **The scanner accounts for every byte and every line.** Called again and again, it gives the
items of the script, then one end token on the line behind all line breaks, and then nothing any
more. The machine that scans bytes does so too, with fuel for every byte: no index is out of range,
no stretch is cut out inside a character and no loop goes on for ever; its indices are the ends of
the item's span, its count of lines is that of the line breaks behind it, and in the end it has
passed the last byte. The items before the end stand on spans of the script that follow each other
and are not empty: a token on its text, an unexpected character on itself, an open string on all
that follows its quote, each with the line on which the span starts. Everything between the spans is
blanks, line breaks and comments. And scanning a script as a whole gives all the tokens if there is
no fault, and the first fault otherwise. -/
theorem scanner_accounts (source : String) :
    ∃ (front : List Item) (spans : List (Span source)),
      scanItems source = front ++ [.ok (.endOfText (1 + source.toList.count '\n'))] ∧
      (∀ n, (Scanner.ofSource source).answer n = (scanItems source)[n]?) ∧
      (∀ fuel, source.utf8ByteSize < fuel → ∀ n, ∃ r,
        (ByteScanner.answer source fuel n).run .initial = .ok (scanItems source)[n]? r ∧
        (∀ s, spans[n]? = some s → r.Delimits s) ∧
        (spans.length ≤ n → ByteScanner.Finished source r)) ∧
      List.Forall₂ Item.Occupies front spans ∧
      (spans.Pairwise fun s t => s.stop ≤ t.start) ∧
      (∀ g ∈ gaps source.startPos spans, IsGap g.1 g.2) ∧
      (∀ ts, scan source = .ok ts ↔ scanItems source = ts.map .ok) ∧
      (∀ e, scan source = .error e ↔ ∃ (ts : List Token) (after : List Item),
        scanItems source = ts.map .ok ++ .error e :: after) ∧
      (∀ fuel, source.utf8ByteSize < fuel → ∀ rounds, source.utf8ByteSize + 1 < rounds → ∃ r,
        (ByteScanner.collect source fuel rounds).run .initial =
          ByteScanner.ending (scan source) r) := by
  have hstart := splits_startPos_toList source
  have hline : lineAt source.startPos = 1 := lineAt_of_splits hstart
  have hend : lineAt source.endPos = 1 + source.toList.count '\n' :=
    lineAt_of_splits (String.splits_endPos source)
  obtain ⟨front, spans, hitems, hlaid, hwalks⟩ := items_laid source.startPos source.toList hstart
  have hwalk := hwalks .initial ⟨rfl, hline.symm⟩
  have hscan : scanItems source = front ++ [.ok (.endOfText (lineAt source.endPos))] := by
    rw [← hitems, hline, scanItems]
  refine ⟨front, spans, by rw [hscan, hend], fun n => ?_, fun fuel hfuel n => ?_, hlaid.occupies,
    hlaid.ordered, hlaid.filler, fun ts => mapM_id_eq_ok_iff, fun e => mapM_id_eq_error_iff,
    fun fuel hfuel rounds hrounds => ?_⟩
  · rw [Scanner.answer_eq_getElem?, Scanner.pending_ofSource]
  · rw [hscan]
    exact hwalk.run_answer hfuel n
  · have hlength := hwalk.length_le
    rw [scan, hscan]
    exact hwalk.run_collect hfuel (by omega)

end Scriptlet
