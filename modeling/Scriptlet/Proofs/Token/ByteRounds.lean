import Scriptlet.Proofs.Token.ByteSteps

/-!
# Rounds of the byte machine

A round of the machine takes a bite (`run_scanToken`) and gives what the bite gives (`run_round`).
With fuel for every byte that is left, rounds follow each other until one gives an item
(`gives_of_some`, `gives_of_none`), or until the end is reached.
-/

namespace Scriptlet

/-- The item that a bite gives, if it is no blank. -/
def Bite.item? (b : Bite) (line : Nat) : Option Item :=
  match b.piece with
  | .blank => none
  | .token kind => some (.ok ⟨kind, String.ofList b.text, line⟩)
  | .fault fault => some (.error (.lex fault line))

namespace ByteScanner

/-! ### A whole round -/

section Round

variable {source : String} {r : ByteScanner} {c : Char} {cs : List Char} {fuel : Nat}

theorem single?_eq_none (hc : 128 ≤ c.toNat) : Scan.single? c = none := by
  unfold Scan.single?
  split <;> first | rfl | (revert hc; decide)

theorem paired?_eq_none (hc : 128 ≤ c.toNat) : Scan.paired? c = none := by
  unfold Scan.paired?
  split <;> first | rfl | (revert hc; decide)

theorem ne_of_ge {q : Char} (hc : 128 ≤ c.toNat) (hq : q.toNat < 128) : c ≠ q := by
  rintro rfl
  omega

/-- What starts with a character that is none of ASCII is nothing. -/
theorem bite_of_ge (hc : 128 ≤ c.toNat) (cs : List Char) :
    bite c cs = ⟨.fault (.unexpected c), [c], cs⟩ := by
  have hblank : Scan.isBlank c = false := by
    simp only [Scan.isBlank, Bool.or_eq_false_iff, decide_eq_false_iff_not]
    exact ⟨⟨⟨ne_of_ge hc (by decide), ne_of_ge hc (by decide)⟩, ne_of_ge hc (by decide)⟩,
      ne_of_ge hc (by decide)⟩
  rw [bite, if_neg (Bool.eq_false_iff.1 hblank), if_neg (ne_of_ge hc (by decide)),
    if_neg (ne_of_ge hc (by decide)), if_neg (Bool.eq_false_iff.1 (OnBytes.isDigit.eq_false hc)),
    if_neg (Bool.eq_false_iff.1 (OnBytes.isWordStart.eq_false hc)), single?_eq_none hc,
    paired?_eq_none hc]

/-- A first byte that is none of ASCII starts nothing, and the whole character is passed. -/
theorem run_scanToken_of_ge (h : Ahead source r.start (c :: cs)) (hcurrent : r.current = r.start)
    (hpending : r.pending = none) (hc : 128 ≤ c.toNat) :
    (scanToken source fuel).run r = r.taking (bite c cs) := by
  have hnext : 128 ≤ (Char.ofUInt8 (nextByte (c :: cs))).toNat := nextChar_of_ge hc cs
  rw [scanToken, run_bind_of_ok (run_advance (by rwa [hcurrent])), bite_of_ge hc]
  generalize Char.ofUInt8 (nextByte (c :: cs)) = d at hnext
  dsimp only
  have hblank : ¬(d = ' ' ∨ d = '\r' ∨ d = '\t') := by
    rintro (hd | hd | hd) <;> exact ne_of_ge hnext (by decide) hd
  rw [if_neg hblank, if_neg (ne_of_ge hnext (by decide)), if_neg (ne_of_ge hnext (by decide)),
    if_neg (ne_of_ge hnext (by decide)),
    if_neg (Bool.eq_false_iff.1 (OnBytes.isDigit.eq_false hnext)),
    if_neg (Bool.eq_false_iff.1 (OnBytes.isWordStart.eq_false hnext)), single?_eq_none hnext,
    paired?_eq_none hnext]
  exact run_unexpected h hpending (ne_of_ge hc (by decide))

/-- An ASCII character is its byte, so the machine takes the branch that a bite takes. -/
theorem run_scanToken_of_lt (h : Ahead source r.start (c :: cs)) (hcurrent : r.current = r.start)
    (hpending : r.pending = none) (hc : c.toNat < 128) (hfuel : width cs < fuel) :
    (scanToken source fuel).run r = r.taking (bite c cs) := by
  have hnext : Char.ofUInt8 (nextByte (c :: cs)) = c := nextChar_of_lt hc cs
  rw [scanToken, run_bind_of_ok (run_advance (by rwa [hcurrent])), hnext, hcurrent]
  dsimp only
  by_cases hblank : c = ' ' ∨ c = '\r' ∨ c = '\t'
  · have hisBlank : Scan.isBlank c = true := by rcases hblank with rfl | rfl | rfl <;> rfl
    rw [if_pos hblank, bite, if_pos hisBlank]
    refine congrArg (EStateM.Result.ok ()) (eq_behind rfl ?_ ?_ hpending)
    · rw [width_cons_of_lt hc]
      rfl
    · rcases hblank with rfl | rfl | rfl <;> rfl
  rw [if_neg hblank]
  by_cases hbreak : c = '\n'
  · subst hbreak
    rw [if_pos rfl]
    exact congrArg (EStateM.Result.ok ()) (eq_behind rfl rfl rfl hpending)
  rw [if_neg hbreak]
  have hinside : Inside source ⟨r.start, r.start + 1, r.line, r.pending⟩ c cs :=
    ⟨hc, hbreak, h, rfl, hpending⟩
  have hnotBlank : ¬Scan.isBlank c = true := by
    simp only [Scan.isBlank, Bool.or_eq_true, decide_eq_true_eq]
    rintro (((rfl | rfl) | rfl) | rfl) <;> simp at hblank hbreak
  rw [bite, if_neg hnotBlank]
  by_cases hslash : c = '/'
  · subst hslash
    rw [if_pos rfl, if_pos rfl]
    exact hinside.slash
  rw [if_neg hslash, if_neg hslash]
  by_cases hquote : c = '"'
  · subst hquote
    rw [if_pos rfl, if_pos rfl]
    exact hinside.string
  rw [if_neg hquote, if_neg hquote]
  by_cases hdigit : c.isDigit = true
  · rw [if_pos hdigit, if_pos hdigit]
    exact hinside.number hdigit hfuel
  rw [if_neg hdigit, if_neg hdigit]
  by_cases hword : Scan.isWordStart c = true
  · rw [if_pos hword, if_pos hword]
    exact hinside.word hfuel
  rw [if_neg hword, if_neg hword]
  cases Scan.single? c with
  | some m =>
    refine congrArg (EStateM.Result.ok ()) (eq_behind rfl (hinside.width_cons []).symm ?_ rfl)
    rw [hinside.count_cons]
    rfl
  | none =>
    cases Scan.paired? c with
    | some marks => exact hinside.pair
    | none =>
      exact run_unexpected (r := ⟨r.start, r.start + 1, r.line, r.pending⟩) h hpending hbreak

/-- **A round of the machine takes a bite.** -/
theorem run_scanToken (h : Ahead source r.start (c :: cs)) (hcurrent : r.current = r.start)
    (hpending : r.pending = none) (hfuel : width (c :: cs) ≤ fuel) :
    (scanToken source fuel).run r = r.taking (bite c cs) := by
  rcases Nat.lt_or_ge c.toNat 128 with hc | hc
  · rw [width_cons_of_lt hc] at hfuel
    exact run_scanToken_of_lt h hcurrent hpending hc hfuel
  · exact run_scanToken_of_ge h hcurrent hpending hc

end Round

/-! ### Items -/

section Items

variable {source : String} {r r' : ByteScanner} {c : Char} {cs : List Char} {fuel : Nat}

theorem run_attempt_of_ok {x : Scanning Unit} (h : x.run r = .ok () r') :
    (attempt x).run r = .ok (.ok ()) r' := by
  have hmap : (Except.ok <$> x : Scanning (Except Error Unit)) r = _ := run_map_of_ok h _
  change EStateM.tryCatch _ _ r = _
  unfold EStateM.tryCatch
  rw [hmap]

/-- A fault is a result, in the registers it leaves. -/
theorem run_attempt_of_fault {x : Scanning Unit} {e : Error} (h : x.run r = .error (.fault e) r') :
    (attempt x).run r = .ok (.error e) r' := by
  have hmap : (Except.ok <$> x : Scanning (Except Error Unit)) r = _ := run_map_of_error h _
  change EStateM.tryCatch _ _ r = _
  unfold EStateM.tryCatch
  rw [hmap]
  rfl

/-- The registers behind a text that starts at the next byte. -/
def past (r : ByteScanner) (text : List Char) : ByteScanner :=
  ⟨r.current, r.current + width text, r.line + text.count '\n', none⟩

theorem run_take?_none (line : Nat) (h : r.pending = none) :
    (take? source line).run r = .ok none r := by
  rw [take?, run_bind_of_ok (EStateM.run_get r), h]
  rfl

/-- What has been recognized becomes a token with the text of the lexeme. -/
theorem run_take?_some {kind : Kind} {text rest : List Char} (line : Nat)
    (h : Ahead source r.start (text ++ rest)) :
    (take? source line).run (r.behind text (some kind)) =
      .ok (some ⟨kind, String.ofList text, line⟩) (r.behind text none) := by
  have htext : (lexeme source).run (r.behind text none) = .ok (String.ofList text) _ :=
    run_lexeme h rfl rfl
  rw [take?, run_bind_of_ok (EStateM.run_get _)]
  change EStateM.run (set (r.behind text none) >>= fun _ => _) _ = _
  rw [run_bind_of_ok (EStateM.run_set _ _), run_bind_of_ok htext]
  rfl

/-- **A round gives what a bite gives.** -/
theorem run_round (h : Ahead source r.current (c :: cs)) (hfuel : width (c :: cs) ≤ fuel) :
    (round source fuel).run r =
      .ok ((bite c cs).item? r.line) (r.past (bite c cs).text) := by
  have hscan := run_scanToken (r := ⟨r.current, r.current, r.line, none⟩) h rfl rfl hfuel
  rw [round, run_bind_of_ok (EStateM.run_get r), run_bind_of_ok (EStateM.run_set _ _)]
  have hsplit := bite_text_append_rest c cs
  unfold taking at hscan
  unfold Bite.item?
  cases hpiece : (bite c cs).piece with
  | blank =>
    rw [hpiece] at hscan
    rw [run_bind_of_ok (run_attempt_of_ok hscan)]
    exact run_map_of_ok (run_take?_none r.line rfl) _
  | token kind =>
    rw [hpiece] at hscan
    rw [run_bind_of_ok (run_attempt_of_ok hscan)]
    exact run_map_of_ok (run_take?_some r.line (by rw [hsplit]; exact h)) _
  | fault fault =>
    rw [hpiece] at hscan
    rw [run_bind_of_ok (run_attempt_of_fault hscan)]
    rfl

/-- With enough fuel, the next item is the given one. -/
def Gives (source : String) (r : ByteScanner) (item : Option Item) (r' : ByteScanner) : Prop :=
  ∀ fuel, (bytes source).length - r.current < fuel → (next source fuel).run r = .ok item r'

/-- Behind the end there is nothing more. -/
theorem gives_none (h : (bytes source).length < r.current) : Gives source r none r := by
  intro fuel hfuel
  obtain _ | fuel := fuel
  · cases hfuel
  rw [next, run_bind_of_ok (EStateM.run_get r), if_pos h]
  rfl

/-- At the end of the script the end token is given, and the index of the next byte goes beyond
it. -/
theorem gives_end (h : Ahead source r.current []) :
    Gives source r (some (.ok (.endOfText r.line))) { r with current := r.current + 1 } := by
  intro fuel hfuel
  obtain _ | fuel := fuel
  · cases hfuel
  have hlength : (bytes source).length = r.current := h.length_bytes
  rw [next, run_bind_of_ok (EStateM.run_get r), if_neg (by omega), if_pos hlength.symm]
  rfl

/-- Before the end, there is fuel for a round. -/
theorem exists_fuel (h : Ahead source r.current (c :: cs))
    (hfuel : (bytes source).length - r.current < fuel) :
    ∃ n, fuel = n + 1 ∧ width (c :: cs) ≤ n ∧ ¬(bytes source).length < r.current ∧
      r.current ≠ (bytes source).length := by
  have hpos := width_pos (List.cons_ne_nil c cs)
  have hlength := h.length_bytes
  exact ⟨fuel - 1, by omega, by omega, by omega, by omega⟩

/-- A round that gives something ends the call. -/
theorem gives_of_some {item : Item} (h : Ahead source r.current (c :: cs))
    (hitem : (bite c cs).item? r.line = some item) :
    Gives source r (some item) (r.past (bite c cs).text) := by
  intro fuel hfuel
  obtain ⟨n, rfl, hn, hbehind, hend⟩ := exists_fuel h hfuel
  rw [next, run_bind_of_ok (EStateM.run_get r), if_neg hbehind, if_neg hend,
    run_bind_of_ok (run_round h hn), hitem]
  rfl

/-- A round that gives nothing is followed by another one, for which there is fuel. -/
theorem gives_of_none {item : Option Item} (h : Ahead source r.current (c :: cs))
    (hitem : (bite c cs).item? r.line = none)
    (hrest : Gives source (r.past (bite c cs).text) item r') : Gives source r item r' := by
  intro fuel hfuel
  obtain ⟨n, rfl, hn, hbehind, hend⟩ := exists_fuel h hfuel
  rw [next, run_bind_of_ok (EStateM.run_get r), if_neg hbehind, if_neg hend,
    run_bind_of_ok (run_round h hn), hitem]
  refine hrest n ?_
  have hpos := width_pos (bite_text_ne_nil c cs)
  have hcurrent : (r.past (bite c cs).text).current = r.current + width (bite c cs).text := rfl
  omega

end Items

end ByteScanner

end Scriptlet
