import Scriptlet.Proofs.Token.ByteText

/-!
# What the byte machine does

Each function of the machine does on the bytes what the splitting of a text does on the characters
that are ahead. No index it uses is out of range and no stretch it cuts out begins or ends inside a
character. Lines are counted in different places, but behind a lexeme each of its line breaks has
been counted once (`taking`).
-/

namespace Scriptlet

open Utf8 (encode)

/-! ### Numbers that are read -/

namespace Decimal

section ReadDigits

variable {c : Char} {cs fs : List Char}

/-- Digits are split off up to what is no digit. -/
theorem spanDigits_append (hcs : ∀ d ∈ cs, d.isDigit = true) {rest : List Char}
    (hrest : ∀ d more, rest = d :: more → d.isDigit = false) :
    spanDigits (cs ++ rest) = (cs, rest) := by
  rw [spanDigits, List.takeWhile_append_of_pos hcs, List.dropWhile_append_of_pos hcs]
  cases rest with
  | nil => rw [List.takeWhile_nil, List.dropWhile_nil, List.append_nil]
  | cons d more =>
    have hd := Bool.eq_false_iff.1 (hrest d more rfl)
    rw [List.takeWhile_cons_of_neg hd, List.dropWhile_cons_of_neg hd, List.append_nil]

theorem spanDigits_of_all (hcs : ∀ d ∈ cs, d.isDigit = true) : spanDigits cs = (cs, []) := by
  have hsplit : spanDigits (cs ++ []) = (cs, []) := spanDigits_append hcs (by simp)
  rwa [List.append_nil] at hsplit

/-- A text that starts with a digit is read as an unsigned number. -/
theorem read?_of_isDigit (hc : c.isDigit = true) (cs : List Char) :
    read? (String.ofList (c :: cs)) = readUnsigned? (c :: cs) := by
  unfold read?
  rw [String.toList_ofList]
  split
  · rename_i heq
    cases heq
    cases hc
  · rename_i heq
    cases heq
    cases hc
  · unfold read?.unsigned?
    split
    · rename_i heq
      cases heq
      cases hc
    · rfl

/-- Digits alone are read as a whole number. -/
theorem read?_whole (hc : c.isDigit = true) (hcs : ∀ d ∈ cs, d.isDigit = true) :
    read? (String.ofList (c :: cs)) = some (ofDigits (c :: cs) []) := by
  rw [read?_of_isDigit hc, readUnsigned?, spanDigits_of_all (List.forall_mem_cons.2 ⟨hc, hcs⟩)]
  simp [readExponent?, ofDigits]

/-- Digits on both sides of a point are read as a decimal. -/
theorem read?_fraction (hc : c.isDigit = true) (hcs : ∀ d ∈ cs, d.isDigit = true)
    (hfs : ∀ d ∈ fs, d.isDigit = true) :
    read? (String.ofList (c :: cs ++ '.' :: fs)) = some (ofDigits (c :: cs) fs) := by
  have hall : ∀ d ∈ c :: cs, d.isDigit = true := List.forall_mem_cons.2 ⟨hc, hcs⟩
  have hpoint : ∀ d more, '.' :: fs = d :: more → d.isDigit = false := by
    rintro d more ⟨⟩
    rfl
  rw [List.cons_append, read?_of_isDigit hc, ← List.cons_append, readUnsigned?,
    spanDigits_append hall hpoint]
  simp [readExponent?, ofDigits, spanDigits_of_all hfs]

end ReadDigits

end Decimal

/-! ### The two forms of a number -/

namespace Scan

variable {c d : Char} {cs more : List Char}

/-- Unless a point and a digit follow, a number ends behind its first digits. -/
theorem numberBite_eq_whole
    (h : ∀ d more, cs.dropWhile Char.isDigit = '.' :: d :: more → d.isDigit = false) :
    numberBite c cs =
      ⟨.token (.number (Decimal.ofDigits (c :: cs.takeWhile Char.isDigit) [])),
        c :: cs.takeWhile Char.isDigit, cs.dropWhile Char.isDigit⟩ := by
  unfold numberBite
  split
  · rename_i d more hd
    rw [if_neg (by simp [h d more hd]), hd]
  · rfl

/-- If a point and a digit follow, a number goes on behind them. -/
theorem numberBite_eq_fraction (h : cs.dropWhile Char.isDigit = '.' :: d :: more)
    (hd : d.isDigit = true) :
    numberBite c cs =
      ⟨.token (.number (Decimal.ofDigits (c :: cs.takeWhile Char.isDigit)
          (d :: more.takeWhile Char.isDigit))),
        c :: cs.takeWhile Char.isDigit ++ '.' :: d :: more.takeWhile Char.isDigit,
        more.dropWhile Char.isDigit⟩ := by
  unfold numberBite
  rw [h]
  exact if_pos hd

end Scan

namespace ByteScanner

/-! ### Steps of the machine -/

section Steps

variable {source : String} {r r' : ByteScanner} {c : Char} {cs text rest : List Char}

/-- A computation that comes to a result goes on with it. -/
theorem run_bind_of_ok {α β : Type} {x : Scanning α} {a : α} (h : x.run r = .ok a r')
    (f : α → Scanning β) : (x >>= f).run r = (f a).run r' := by
  rw [EStateM.run_bind, h]

theorem run_map_of_ok {α β : Type} {x : Scanning α} {a : α} (h : x.run r = .ok a r')
    (f : α → β) : (f <$> x).run r = .ok (f a) r' := by
  rw [map_eq_pure_bind, run_bind_of_ok h, EStateM.run_pure]

theorem run_map_of_error {α β : Type} {x : Scanning α} {stop : Stop} (h : x.run r = .error stop r')
    (f : α → β) : (f <$> x).run r = .error stop r' := by
  rw [map_eq_pure_bind, EStateM.run_bind, h]

theorem run_inRange {α : Type} (a : α) (r : ByteScanner) :
    (inRange (some a)).run r = .ok a r := rfl

theorem run_byteAt {b : UInt8} {index : Nat} (h : (bytes source)[index]? = some b) :
    (byteAt source index).run r = .ok b r := by
  rw [byteAt, h, run_inRange]

/-- A stretch of characters is in range and can be cut out. -/
theorem run_slice {start : Nat} (h : Ahead source start (text ++ rest)) :
    (slice source start (start + width text)).run r = .ok (String.ofList text) r := by
  rw [slice, h.slice?_eq, run_inRange]

/-- The text of the lexeme at hand is the characters it is behind. -/
theorem run_lexeme {start : Nat} (h : Ahead source start (text ++ rest)) (hstart : r.start = start)
    (hcurrent : r.current = start + width text) :
    (lexeme source).run r = .ok (String.ofList text) r := by
  rw [lexeme, run_bind_of_ok (EStateM.run_get r), hstart, hcurrent, run_slice h]

theorem run_bytesFrom (h : Ahead source r.current cs) :
    (bytesFrom source r.current).run r = .ok (encode cs) r := by
  rw [bytesFrom, if_pos (by rw [h.length_bytes]; exact Nat.le_add_right _ _), h.drop_bytes,
    run_inRange]

theorem run_isAtEnd (h : Ahead source r.current cs) :
    (isAtEnd source).run r = .ok (decide (cs = [])) r := by
  rw [← decide_eq_decide.2 h.length_bytes_le_iff]
  rfl

/-- Where characters are ahead there is a byte to pass. -/
theorem run_advance (h : Ahead source r.current (c :: cs)) :
    (advance source).run r = .ok (nextByte (c :: cs)) { r with current := r.current + 1 } := by
  rw [advance, run_bind_of_ok (EStateM.run_get r), run_bind_of_ok (run_byteAt h.getElem?_bytes)]
  rfl

/-- The next byte is the first one of the characters ahead, or zero at the end. -/
theorem run_peek (h : Ahead source r.current cs) :
    (peek source).run r = .ok (nextByte cs) r := by
  rw [peek, run_bind_of_ok (run_isAtEnd h)]
  cases cs with
  | nil => rfl
  | cons c cs =>
    rw [if_neg (by simp), run_bind_of_ok (EStateM.run_get r), run_byteAt h.getElem?_bytes]

/-- Behind an ASCII character the byte after the next is that of the next character. -/
theorem run_peekNext (h : Ahead source r.current (c :: cs)) (hc : c.toNat < 128) :
    (peekNext source).run r = .ok (nextByte cs) r := by
  have htail := h.tail hc
  rw [peekNext, run_bind_of_ok (EStateM.run_get r)]
  cases cs with
  | nil =>
    rw [if_pos (htail.length_bytes_le_iff.2 rfl)]
    rfl
  | cons d cs =>
    rw [if_neg (by simp [htail.length_bytes_le_iff]), run_byteAt htail.getElem?_bytes]

/-- A character that comes next is passed. -/
theorem run_accept_of_eq (h : Ahead source r.current (c :: cs)) (hc : c.toNat < 128) :
    (accept source c).run r = .ok true { r with current := r.current + 1 } := by
  have hnext : Char.ofUInt8 (nextByte (c :: cs)) = c := nextChar_of_lt hc cs
  rw [accept, run_bind_of_ok (run_isAtEnd h), if_neg (by simp), run_bind_of_ok (run_peek h),
    if_pos hnext, run_bind_of_ok (run_advance h)]
  rfl

/-- A character that does not come next is not, be it the end or a byte of another character. -/
theorem run_accept_of_ne {q : Char} (h : Ahead source r.current cs)
    (hq : OnBytes fun c => decide (c = q)) (hne : ∀ rest, cs ≠ q :: rest) :
    (accept source q).run r = .ok false r := by
  rw [accept, run_bind_of_ok (run_isAtEnd h)]
  cases cs with
  | nil => rfl
  | cons c cs =>
    have hnext : Char.ofUInt8 (nextByte (c :: cs)) ≠ q := by
      have := hq.nextChar_cons c cs
      rw [decide_eq_decide] at this
      rintro heq
      exact hne cs (by rw [this.1 heq])
    rw [if_neg (by simp), run_bind_of_ok (run_peek h), if_neg hnext]
    rfl

/-- The bytes that are passed are those of the characters that satisfy the condition. The loop ends
before its fuel does. -/
theorem run_skipWhile {p : Char → Bool} (hp : OnBytes p) {fuel : Nat}
    (h : Ahead source r.current cs) (hfuel : width cs < fuel) :
    (skipWhile source p fuel).run r =
      .ok () { r with current := r.current + width (cs.takeWhile p) } := by
  induction cs generalizing r fuel with
  | nil =>
    obtain _ | fuel := fuel
    · cases hfuel
    have hzero : p (Char.ofUInt8 (nextByte [])) = false := hp.zero
    rw [skipWhile, run_bind_of_ok (run_peek h), if_neg (by simp [hzero])]
    rfl
  | cons c cs ih =>
    obtain _ | fuel := fuel
    · cases hfuel
    have hnext : p (Char.ofUInt8 (nextByte (c :: cs))) = p c := hp.nextChar_cons c cs
    rw [skipWhile, run_bind_of_ok (run_peek h), hnext]
    cases hc : p c with
    | false =>
      rw [if_neg (by simp), List.takeWhile_cons_of_neg (by simp [hc])]
      rfl
    | true =>
      have hascii := hp.ascii c hc
      rw [width_cons_of_lt hascii] at hfuel
      rw [if_pos rfl, run_bind_of_ok (run_advance h), ih (h.tail hascii) (by omega),
        List.takeWhile_cons_of_pos hc, width_cons_of_lt hascii]
      simp [Nat.add_assoc, Nat.add_comm]

end Steps

/-! ### Lexemes -/

/-- The registers behind a text that starts with the lexeme at hand. -/
def behind (r : ByteScanner) (text : List Char) (pending : Option Kind) : ByteScanner :=
  ⟨r.start, r.start + width text, r.line + text.count '\n', pending⟩

/-- Registers with the values behind a text are the registers behind it. -/
theorem eq_behind {r r' : ByteScanner} {text : List Char} {pending : Option Kind}
    (hstart : r'.start = r.start) (hcurrent : r'.current = r.start + width text)
    (hline : r'.line = r.line + text.count '\n') (hpending : r'.pending = pending) :
    r' = r.behind text pending := by
  rw [behind, ByteScanner.mk.injEq]
  exact ⟨hstart, hcurrent, hline, hpending⟩

/-- What the machine comes to when it takes a bite, with every line break in it counted. -/
def taking (r : ByteScanner) (b : Bite) : EStateM.Result Stop ByteScanner Unit :=
  match b.piece with
  | .blank => .ok () (r.behind b.text none)
  | .token kind => .ok () (r.behind b.text (some kind))
  | .fault fault => .error (.fault (.lex fault r.line)) (r.behind b.text none)

/-- The machine is behind the first character of a lexeme, which is an ASCII character. -/
structure Inside (source : String) (r : ByteScanner) (c : Char) (cs : List Char) : Prop where
  ascii : c.toNat < 128
  /-- A line break is no lexeme. -/
  noBreak : c ≠ '\n'
  ahead : Ahead source r.start (c :: cs)
  current : r.current = r.start + 1
  pending : r.pending = none

namespace Inside

variable {source : String} {r : ByteScanner} {c : Char} {cs text rest : List Char} {fuel : Nat}

theorem tail (h : Inside source r c cs) : Ahead source r.current cs := by
  rw [h.current]
  exact h.ahead.tail h.ascii

theorem count_takeWhile {p : Char → Bool} (hp : p '\n' = false) (cs : List Char) :
    (cs.takeWhile p).count '\n' = 0 := by
  refine List.count_eq_zero.2 fun hmem => ?_
  have := List.all_eq_true.1 List.all_takeWhile _ hmem
  rw [hp] at this
  cases this

theorem count_cons (h : Inside source r c cs) (text : List Char) :
    (c :: text).count '\n' = text.count '\n' := List.count_cons_of_ne h.noBreak

theorem width_cons (h : Inside source r c cs) (text : List Char) :
    r.start + width (c :: text) = r.current + width text := by
  rw [width_cons_of_lt h.ascii, h.current]
  omega

/-- A mark of one or two characters. -/
theorem pair {alone double : Mark} (h : Inside source r c cs) :
    (ByteScanner.pair source alone double).run r = r.taking (Scan.pairBite c alone double cs) := by
  unfold Scan.pairBite ByteScanner.pair
  split
  · rw [run_bind_of_ok (run_accept_of_eq h.tail (by decide))]
    refine congrArg (EStateM.Result.ok ()) (eq_behind rfl ?_ ?_ rfl)
    · rw [h.width_cons]
      rfl
    · rw [h.count_cons]
      rfl
  · rename_i hne
    rw [run_bind_of_ok (run_accept_of_ne h.tail (.eq (by decide) (by decide)) hne)]
    refine congrArg (EStateM.Result.ok ()) (eq_behind rfl ?_ ?_ rfl)
    · rw [h.width_cons]
      rfl
    · rw [h.count_cons]
      rfl

/-- A slash or a comment. The line break behind a comment is not passed, so it is still to be
counted. -/
theorem slash (h : Inside source r '/' cs) :
    (ByteScanner.slash source).run r = r.taking (Scan.slashBite cs) := by
  unfold Scan.slashBite ByteScanner.slash
  split
  · rename_i cs
    have htail := h.tail.tail (by decide)
    rw [run_bind_of_ok (run_accept_of_eq h.tail (by decide)), if_pos rfl,
      run_bind_of_ok (EStateM.run_get _), run_bind_of_ok (run_bytesFrom htail)]
    have hwidth : r.start + width ('/' :: '/' :: cs.takeWhile (· != '\n')) =
        r.current + 1 + width (cs.takeWhile (· != '\n')) := by
      rw [h.width_cons, width_cons_of_lt (by decide)]
      omega
    have hcount : ('/' :: '/' :: cs.takeWhile (· != '\n')).count '\n' = 0 := by
      rw [h.count_cons, h.count_cons]
      exact count_takeWhile rfl cs
    cases hd : cs.dropWhile (· != '\n') with
    | nil =>
      rw [idxOf?_of_not_found (by decide) hd]
      refine congrArg (EStateM.Result.ok ()) (eq_behind rfl ?_ (by rw [hcount]; rfl) h.pending)
      rw [hwidth, takeWhile_of_not_found hd]
      exact htail.length_bytes
    | cons q after =>
      rw [idxOf?_of_found (by decide) hd]
      exact congrArg (EStateM.Result.ok ())
        (eq_behind rfl hwidth.symm (by rw [hcount]; rfl) h.pending)
  · rename_i hne
    rw [run_bind_of_ok (run_accept_of_ne h.tail (.eq (by decide) (by decide)) hne)]
    refine congrArg (EStateM.Result.ok ()) (eq_behind rfl ?_ rfl rfl)
    rw [h.width_cons]
    rfl

/-- A string, closed or not. The line breaks between its quotes are counted all at once. -/
theorem string (h : Inside source r '"' cs) :
    (ByteScanner.string source).run r = r.taking (Scan.quoteBite cs) := by
  have hsplit := List.takeWhile_append_dropWhile (p := (· != '"')) (l := cs)
  unfold Scan.quoteBite ByteScanner.string
  rw [run_bind_of_ok (EStateM.run_get _), run_bind_of_ok (run_bytesFrom h.tail)]
  cases hd : cs.dropWhile (· != '"') with
  | nil =>
    rw [idxOf?_of_not_found (by decide) hd, takeWhile_of_not_found hd]
    refine congrArg (EStateM.Result.error _) (eq_behind rfl ?_ ?_ h.pending)
    · rw [h.width_cons]
      exact h.tail.length_bytes
    · rw [h.count_cons, ← Utf8.count_encode (by decide)]
  | cons q after =>
    obtain rfl := eq_of_found hd
    generalize htext : cs.takeWhile (· != '"') = text at hsplit
    have hle : width text ≤ (encode cs).length := by
      rw [← hsplit, Utf8.encode_append, List.length_append]
      exact Nat.le_add_right _ _
    have hinside : (encode cs).take (width text) = encode text := by
      rw [← hsplit, Utf8.encode_append, width, List.take_left]
    have hcontents : Ahead source (r.start + 1) (text ++ cs.dropWhile (· != '"')) := by
      rw [hsplit, ← h.current]
      exact h.tail
    rw [idxOf?_of_found (by decide) hd, htext]
    dsimp only
    rw [if_pos hle, hinside, run_bind_of_ok (run_inRange _ r), run_bind_of_ok (EStateM.run_set _ _),
      run_bind_of_ok (EStateM.run_get _)]
    dsimp only
    rw [h.current, ← Nat.add_assoc, Nat.add_sub_cancel, run_bind_of_ok (run_slice hcontents)]
    refine congrArg (EStateM.Result.ok ()) (eq_behind rfl ?_ ?_ rfl)
    · rw [List.cons_append, h.width_cons, h.current, width_append]
      rfl
    · rw [Utf8.count_encode (by decide), List.cons_append, h.count_cons, List.count_append]
      rfl

/-- Once the machine is behind a number, it recognizes the number that the text reads as. -/
theorem run_number {x : Float} (h : Ahead source r.start (text ++ rest))
    (hx : Decimal.read? (String.ofList text) = some x) :
    (do
      let text ← lexeme source
      recognize (.number ((Decimal.read? text).getD 0)) : Scanning Unit).run (r.behind text none) =
      .ok () (r.behind text (some (.number x))) := by
  have htext : (lexeme source).run (r.behind text none) = .ok (String.ofList text) _ :=
    run_lexeme h rfl rfl
  rw [run_bind_of_ok htext, hx]
  rfl

/-- Without a point and a digit behind it nothing more is passed. -/
theorem run_fraction_none (h : Ahead source r.current cs)
    (hnone : ∀ d more, cs = '.' :: d :: more → d.isDigit = false) :
    (fraction source fuel).run r = .ok () r := by
  have hascii : OnBytes fun c => decide (c = '.') := .eq (by decide) (by decide)
  rw [fraction, run_bind_of_ok (run_peek h)]
  split
  · rename_i hpoint
    obtain ⟨c, rest, rfl, hc⟩ := hascii.exists_cons (decide_eq_true hpoint)
    obtain rfl := of_decide_eq_true hc
    rw [run_bind_of_ok (run_peekNext h (by decide))]
    split
    · rename_i hdigit
      obtain ⟨d, more, rfl, hd⟩ := OnBytes.isDigit.exists_cons hdigit
      rw [hnone d more rfl] at hd
      cases hd
    · rfl
  · rfl

/-- A point with a digit behind it is passed, and all digits behind it. -/
theorem run_fraction_some {d : Char} {more : List Char}
    (h : Ahead source r.current ('.' :: d :: more)) (hd : d.isDigit = true)
    (hfuel : width (d :: more) < fuel) :
    (fraction source fuel).run r = .ok ()
      { r with current := r.current + width ('.' :: d :: more.takeWhile Char.isDigit) } := by
  have hpoint : Char.ofUInt8 (nextByte ('.' :: d :: more)) = '.' := nextChar_of_lt (by decide) _
  have hdigit : (Char.ofUInt8 (nextByte (d :: more))).isDigit = true := by
    rw [← hd]
    exact OnBytes.isDigit.nextChar_cons d more
  rw [fraction, run_bind_of_ok (run_peek h), if_pos hpoint,
    run_bind_of_ok (run_peekNext h (by decide)), if_pos hdigit, run_bind_of_ok (run_advance h),
    run_skipWhile .isDigit (h.tail (by decide)) hfuel, List.takeWhile_cons_of_pos hd,
    width_cons_of_lt (c := '.') (by decide)]
  simp only [Nat.add_assoc, Nat.add_comm 1]

/-- A number. Its text is one that can be read. -/
theorem number (h : Inside source r c cs) (hc : c.isDigit = true) (hfuel : width cs < fuel) :
    (ByteScanner.number source fuel).run r = r.taking (Scan.numberBite c cs) := by
  have hsplit := List.takeWhile_append_dropWhile (p := Char.isDigit) (l := cs)
  have hdigits : ∀ d ∈ cs.takeWhile Char.isDigit, d.isDigit = true :=
    List.all_eq_true.1 List.all_takeWhile
  have hbehind : Ahead source (r.current + width (cs.takeWhile Char.isDigit))
      (cs.dropWhile Char.isDigit) := by
    refine Ahead.append ?_
    rw [hsplit]
    exact h.tail
  have hcount := count_takeWhile (p := Char.isDigit) rfl cs
  have hwhole : Ahead source r.start
      (c :: cs.takeWhile Char.isDigit ++ cs.dropWhile Char.isDigit) := by
    rw [List.cons_append, hsplit]
    exact h.ahead
  have hr : ({ r with current := r.current + width (cs.takeWhile Char.isDigit) } : ByteScanner) =
      r.behind (c :: cs.takeWhile Char.isDigit) none :=
    eq_behind rfl (h.width_cons _).symm (by rw [h.count_cons, hcount]; rfl) h.pending
  unfold ByteScanner.number
  rw [run_bind_of_ok (run_skipWhile .isDigit h.tail hfuel)]
  by_cases hfraction : ∃ d more, cs.dropWhile Char.isDigit = '.' :: d :: more ∧ d.isDigit = true
  · obtain ⟨d, more, hd, hdigit⟩ := hfraction
    rw [hd] at hbehind hsplit
    have hfs : ∀ f ∈ d :: more.takeWhile Char.isDigit, f.isDigit = true :=
      List.forall_mem_cons.2 ⟨hdigit, List.all_eq_true.1 List.all_takeWhile⟩
    have hmore := List.takeWhile_append_dropWhile (p := Char.isDigit) (l := more)
    have hlexeme : Ahead source r.start
        (c :: cs.takeWhile Char.isDigit ++ '.' :: d :: more.takeWhile Char.isDigit ++
          more.dropWhile Char.isDigit) := by
      simp only [List.append_assoc, List.cons_append, hmore, hsplit]
      exact h.ahead
    have hroom : width (d :: more) < fuel := by
      have := width_append (cs.takeWhile Char.isDigit) ('.' :: d :: more)
      rw [hsplit, width_cons_of_lt (by decide)] at this
      omega
    have hr : (⟨r.start, r.current + width (cs.takeWhile Char.isDigit) +
        width ('.' :: d :: more.takeWhile Char.isDigit), r.line, r.pending⟩ : ByteScanner) =
        r.behind (c :: cs.takeWhile Char.isDigit ++ '.' :: d :: more.takeWhile Char.isDigit)
          none := by
      refine eq_behind rfl ?_ ?_ h.pending
      · rw [List.cons_append, h.width_cons, width_append, Nat.add_assoc]
      · rw [List.cons_append, h.count_cons, List.count_append, hcount,
          ← List.takeWhile_cons_of_pos hdigit, List.count_cons_of_ne (by decide),
          count_takeWhile rfl]
        rfl
    rw [run_bind_of_ok (run_fraction_some hbehind hdigit hroom),
      Scan.numberBite_eq_fraction hd hdigit, hr,
      run_number hlexeme (Decimal.read?_fraction hc hdigits hfs)]
    rfl
  · have hnone : ∀ d more, cs.dropWhile Char.isDigit = '.' :: d :: more → d.isDigit = false :=
      fun d more hd => Bool.eq_false_iff.2 fun hdigit => hfraction ⟨d, more, hd, hdigit⟩
    rw [run_bind_of_ok (run_fraction_none hbehind hnone), hr,
      run_number hwhole (Decimal.read?_whole hc hdigits), Scan.numberBite_eq_whole hnone]
    rfl

/-- A keyword or a name. -/
theorem word (h : Inside source r c cs) (hfuel : width cs < fuel) :
    (ByteScanner.word source fuel).run r = r.taking (Scan.wordBite c cs) := by
  have hsplit := List.takeWhile_append_dropWhile (p := Scan.isWordPart) (l := cs)
  have hlexeme : Ahead source r.start
      (c :: cs.takeWhile Scan.isWordPart ++ cs.dropWhile Scan.isWordPart) := by
    rw [List.cons_append, hsplit]
    exact h.ahead
  have htext : (lexeme source).run
      { r with current := r.current + width (cs.takeWhile Scan.isWordPart) } =
        .ok (String.ofList (c :: cs.takeWhile Scan.isWordPart)) _ :=
    run_lexeme hlexeme rfl (h.width_cons _).symm
  unfold ByteScanner.word Scan.wordBite
  rw [run_bind_of_ok (run_skipWhile .isWordPart h.tail hfuel), run_bind_of_ok htext]
  refine congrArg (EStateM.Result.ok ()) (eq_behind rfl (h.width_cons _).symm ?_ rfl)
  rw [h.count_cons, count_takeWhile rfl]
  rfl

end Inside

/-- A character that starts nothing is passed with all its bytes. -/
theorem run_unexpected {source : String} {r : ByteScanner} {c : Char} {cs : List Char}
    (h : Ahead source r.start (c :: cs)) (hpending : r.pending = none) (hc : c ≠ '\n') :
    (unexpected source).run r = r.taking ⟨.fault (.unexpected c), [c], cs⟩ := by
  have hslice : (slice source r.start (bytes source).length).run r =
      .ok (String.ofList (c :: cs)) r := by
    have hwhole : Ahead source r.start (c :: cs ++ []) := by rwa [List.append_nil]
    rw [h.length_bytes]
    exact run_slice hwhole
  rw [unexpected, run_bind_of_ok (EStateM.run_get _), run_bind_of_ok hslice, String.toList_ofList]
  refine congrArg (EStateM.Result.error _) (eq_behind rfl ?_ ?_ hpending)
  · rw [width_singleton]
    rfl
  · rw [List.count_cons_of_ne hc]
    rfl

end ByteScanner

end Scriptlet
