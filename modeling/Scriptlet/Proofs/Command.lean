import Scriptlet.Command
import Scriptlet.Proofs.Eval.Output
import Scriptlet.Proofs.Text.Utf8
import Scriptlet.Proofs.Token.LongestMatch

/-!
# What the commands make of one script

To list, to print and to run a script are three ways through the same text, and they agree on what
is wrong with it. What each leaves behind is said first: from the items of the text
(`code_tokenizeSource`, `exists_stderr_tokenizeSource`), from the errors of its grammar
(`code_parseSource`, `stderr_parseSource`) and from how its statements end (`runSource_of_scan_ok`).
That they agree is read off from there. Every text can be given to a command (`Finds`), and a
message about it has no line break in it, so that it is one line of output
(`break_not_mem_of_scan`).
-/

namespace Scriptlet

/-! ### Lines and their bytes -/

/-- Lines of bytes are the bytes of the lines. -/
theorem lineBytes_eq (lines : List String) : lineBytes lines = (inLines lines).toUTF8 := by
  have hfoldl : ∀ written : ByteArray,
      lines.foldl (fun written line => written ++ (line ++ "\n").toUTF8) written =
        written ++ (inLines lines).toUTF8 := by
    induction lines with
    | nil => simp [inLines]
    | cons line lines ih =>
      intro written
      rw [List.foldl_cons, ih]
      simp [inLines, ByteArray.append_assoc]
  simpa [lineBytes] using hfoldl .empty

theorem lineBytes_append (xs ys : List String) :
    lineBytes (xs ++ ys) = lineBytes xs ++ lineBytes ys := by
  simp [lineBytes_eq, inLines, String.join_append]

theorem lineBytes_eq_empty_iff {lines : List String} : lineBytes lines = .empty ↔ lines = [] := by
  constructor
  · intro h
    rw [lineBytes_eq, ← String.toByteArray_empty, String.toUTF8_eq_toByteArray,
      String.toByteArray_inj] at h
    cases lines with
    | nil => rfl
    | cons line lines =>
      have hlist := congrArg String.toList h
      simp [inLines] at hlist
  · rintro rfl
    rfl

namespace Command

/-- The first line of bytes ends at the first line break. -/
theorem lines_append_break {xs : List UInt8} (h : 0x0A ∉ xs) (ys : List UInt8) :
    lines (xs ++ 0x0A :: ys) = (xs ++ [0x0A]) :: lines ys := by
  induction xs with
  | nil => simp [lines]
  | cons x xs ih =>
    obtain ⟨hx, hxs⟩ := not_or.1 (List.mem_cons.not.1 h)
    rw [List.cons_append, lines, if_neg (Ne.symm hx), ih hxs]
    rfl

/-- The first line of an output is the first one written, if that has no line break in it. -/
theorem head?_lines_lineBytes {line : String} (h : '\n' ∉ line.toList) (more : List String) :
    (lines (lineBytes (line :: more)).data.toList).head? = some (lineBytes [line]).data.toList := by
  have hone : (lineBytes [line]).data.toList = line.toUTF8.data.toList ++ [0x0A] := by
    simp [lineBytes_eq, inLines]
    rfl
  rw [show line :: more = [line] ++ more from rfl, lineBytes_append, ByteArray.data_append,
    Array.toList_append, hone, List.append_assoc, List.singleton_append,
    lines_append_break (Utf8.break_not_mem_toUTF8 h), List.head?_cons]

end Command

/-! ### Errors of the text -/

/-- No numeral holds a line break. -/
theorem break_not_mem_toString (n : Nat) : '\n' ∉ (toString n).toList := by
  rw [Nat.toString_eq_repr, Nat.toList_repr]
  intro h
  exact absurd (Nat.isDigit_of_mem_toDigits (by decide) (by decide) h) (by decide)

theorem LexFault.break_not_mem_message {fault : LexFault} (h : fault ≠ .unexpected '\n') :
    '\n' ∉ fault.message.toList := by
  cases fault with
  | openString =>
    have hwords : '\n' ∉ "Unterminated string.".toList := by decide
    exact hwords
  | unexpected c =>
    have hwords : '\n' ∉ "Unexpected character: ".toList := by decide
    change '\n' ∉ ("Unexpected character: " ++ String.singleton c).toList
    rw [String.toList_append, String.toList_singleton, List.mem_append, List.mem_singleton]
    rintro (hmem | rfl)
    · exact hwords hmem
    · exact h rfl

/-- The message of a fault takes one line, unless it quotes a line break. -/
theorem Error.break_not_mem_message_lex {fault : LexFault} (h : fault ≠ .unexpected '\n')
    (line : Nat) : '\n' ∉ (Error.lex fault line).message.toList := by
  have hfront : '\n' ∉ "[line ".toList := by decide
  have hback : '\n' ∉ "] Error: ".toList := by decide
  have hline := break_not_mem_toString line
  have hfault := LexFault.break_not_mem_message h
  change '\n' ∉ ("[line " ++ toString line ++ "] Error: " ++ fault.message).toList
  simp only [String.toList_append, List.mem_append, not_or]
  exact ⟨⟨⟨hfront, hline⟩, hback⟩, hfault⟩

/-- A line break is a blank, so that no fault is about one. -/
theorem fault_ne_break {c : Char} {cs : List Char} {fault : LexFault}
    (h : (bite c cs).piece = .fault fault) : fault ≠ .unexpected '\n' := by
  rintro rfl
  obtain ⟨rfl, -, hblank, -⟩ := Scan.bite_unexpected_iff.1 h
  exact hblank ⟨_, rfl, by simp⟩

/-- The message about what keeps a script from being split into tokens is one line. -/
theorem break_not_mem_of_scan {source : String} {e : Error} (h : scan source = .error e) :
    '\n' ∉ e.message.toList := by
  obtain ⟨_, _, fault, line, hpiece, rfl⟩ := exists_fault_of_scan h
  exact Error.break_not_mem_message_lex (fault_ne_break hpiece) line

namespace Command

variable {fuel : Nat} {text : String} {tokens : List Token} {e : Error} {ran : Transcript}

/-! ### What each command leaves behind -/

/-- Nothing is wrong with the text of a script or with its grammar. -/
def StaticallySound (text : String) : Prop :=
  ∃ tokens, scan text = .ok tokens ∧ (Program.ofTokens tokens).errors = []

/-- The state in which the statements of a program start to run. -/
def started (program : Program) : Machine :=
  program.errors.foldl Machine.report (Machine.start .unlimited).forget

/-- How the statements of a program end. -/
def ending (fuel : Nat) (program : Program) : Outcome Flow :=
  executeAll .standard fuel [] program.statements (started program)

/-- The statements of a script stop with an error. -/
def StopsWith (fuel : Nat) (text : String) (e : Error) : Prop :=
  ∃ tokens k, scan text = .ok tokens ∧ ending fuel (Program.ofTokens tokens) = .failed e k

/-- A text that scans has no errors among its items. -/
theorem errors_of_scan_ok (h : scan text = .ok tokens) :
    (scanItems text).filterMap Item.error? = [] := by
  rw [mapM_id_eq_ok_iff.1 h, List.filterMap_map]
  exact List.filterMap_eq_nil_iff.2 fun _ _ => rfl

/-- The first of the errors in a text is the one that keeps it from being split into tokens. -/
theorem exists_errors_of_scan_error (h : scan text = .error e) :
    ∃ more, (scanItems text).filterMap Item.error? = e :: more := by
  obtain ⟨ts, after, hitems⟩ := mapM_id_eq_error_iff.1 h
  have hnone : (ts.map Except.ok : List Item).filterMap Item.error? = [] := by
    rw [List.filterMap_map]
    exact List.filterMap_eq_nil_iff.2 fun _ _ => rfl
  refine ⟨after.filterMap Item.error?, ?_⟩
  rw [hitems, List.filterMap_append, hnone]
  rfl

/-- A script with errors ends with code 65, and one without does not. -/
theorem code_ofScript (lines : List String) (errors : List Error) :
    (Transcript.ofScript lines errors).code = 65 ↔ errors ≠ [] := by
  cases errors <;> simp [Transcript.ofScript]

/-- Listing tokens ends with code 65 exactly if the text does not scan. -/
theorem code_tokenizeSource (json : Bool) (text : String) :
    (tokenizeSource json text).code = 65 ↔ ∃ e, scan text = .error e := by
  rw [tokenizeSource, code_ofScript]
  cases h : scan text with
  | ok tokens => simp [errors_of_scan_ok h]
  | error e =>
    obtain ⟨more, hmore⟩ := exists_errors_of_scan_error h
    simp [hmore]

/-- The first error of the text comes first. -/
theorem exists_stderr_tokenizeSource (json : Bool) (h : scan text = .error e) :
    ∃ more, (tokenizeSource json text).stderr = lineBytes (e.message :: more) := by
  obtain ⟨more, hmore⟩ := exists_errors_of_scan_error h
  exact ⟨more.map Error.message, by simp [tokenizeSource, Transcript.ofScript, hmore]⟩

theorem written_withLines (lines : List String) :
    (Sink.unlimited.withLines lines).written = lineBytes lines := by
  rw [lineBytes_eq, Sink.withLines, Sink.unlimited, ByteArray.empty_append]

/-- A text that does not scan is reported once, with code 65. -/
theorem runSource_of_scan_error (h : scan text = .error e) :
    runSource fuel text = some ⟨lineBytes [e.message], .empty, 65⟩ := by
  obtain ⟨fault, line, rfl⟩ := exists_lex_of_scan h
  have hreport := Machine.foldl_report_of_room [.lex fault line]
    (m := (Machine.start .unlimited).forget) rfl
  rw [List.foldl_cons, List.foldl_nil] at hreport
  rw [runSource, Machine.runScript, h, Option.map_some, hreport, ← written_withLines]
  rfl

/-- A script stops with an error exactly if its program does. -/
theorem stopsWith_iff (h : scan text = .ok tokens) :
    StopsWith fuel text e ↔ (ending fuel (Program.ofTokens tokens)).failure? = some e := by
  rw [Outcome.failure?_eq_some_iff]
  constructor
  · rintro ⟨tokens', k, h', hk⟩
    cases h.symm.trans h'
    exact ⟨k, hk⟩
  · rintro ⟨k, hk⟩
    exact ⟨tokens, k, h, hk⟩

/-- There is a record of how the statements of a program came to their end. -/
theorem exists_accounts (fuel : Nat) (program : Program) :
    ∃ t, Accounts (started program) t (ending fuel program) := by
  have herase : ((Evaluator.recorded .standard fuel).executeAll [] program.statements
      (started program)).2 = ending fuel program :=
    congrFun ((erase_recorded .standard fuel).executeAll [] program.statements) (started program)
  exact ⟨_, herase ▸ recorded_accounts .standard fuel [] program.statements (started program)⟩

/-- The exit code after a run with errors of grammar and an error that its statements stop with. -/
theorem exitCode_append {errors : List Error} {failure : Option Error} (v : Value)
    (herrors : ∀ e ∈ errors, ∃ site complaint line, e = .parse site complaint line)
    (hfailure : ∀ e ∈ failure, ∃ fault line, e = .runtime fault line) :
    exitCode ⟨v, errors ++ failure.toList⟩ =
      if errors ≠ [] then 65 else if failure.isSome then 70 else 0 := by
  cases errors with
  | cons e errors =>
    obtain ⟨site, complaint, line, rfl⟩ := herrors e List.mem_cons_self
    simp [exitCode, Error.isStatic]
  | nil =>
    cases failure with
    | none => simp [exitCode, Report.isOk]
    | some e =>
      obtain ⟨fault, line, rfl⟩ := hfailure e rfl
      simp [exitCode, Error.isStatic, Report.isOk]

/-- Errors of reading have no line note. -/
theorem filterMap_lineNote_parse {errors : List Error}
    (h : ∀ e ∈ errors, ∃ site complaint line, e = .parse site complaint line) :
    errors.filterMap lineNote = [] := by
  refine List.filterMap_eq_nil_iff.2 fun e he => ?_
  obtain ⟨site, complaint, line, rfl⟩ := h e he
  rfl

/-- What a run leaves behind if the text of the script can be split into tokens, from what the
script prints and the error that its statements stop with, if there is one. -/
theorem runSource_of_scan_ok (h : scan text = .ok tokens) (hran : runSource fuel text = some ran) :
    let errors := (Program.ofTokens tokens).errors
    ∃ (printed : List String) (failure : Option Error),
      (∀ e, StopsWith fuel text e ↔ failure = some e) ∧
      (∀ e ∈ failure, ∃ fault line, e = .runtime fault line) ∧
      ran.stdout = lineBytes (errors.map Error.message ++ printed ++
        failure.toList.map Error.message) ∧
      ran.stderr = lineBytes (failure.toList.filterMap lineNote) ∧
      ran.code = if errors ≠ [] then 65 else if failure.isSome then 70 else 0 := by
  intro errors
  obtain ⟨⟨r, k⟩, hrun, rfl⟩ := Option.map_eq_some_iff.1 hran
  rw [Machine.runScript, h] at hrun
  have hparse : ∀ e ∈ errors, ∃ site complaint line, e = .parse site complaint line :=
    fun _ => Program.exists_parse_of_mem_errors
  obtain ⟨t, haccounts⟩ := exists_accounts fuel (Program.ofTokens tokens)
  obtain ⟨rfl, hsink, -, hruntime⟩ :=
    Machine.runProgram_fits (m := (Machine.start .unlimited).forget) rfl haccounts rfl hrun
  refine ⟨(LogEntry.printed t).map Value.text, (ending fuel (Program.ofTokens tokens)).failure?,
    fun e => stopsWith_iff h, hruntime, ?_, ?_, exitCode_append _ hparse hruntime⟩
  · exact (congrArg Sink.written hsink).trans (written_withLines _)
  · change lineBytes (List.filterMap lineNote (errors ++ _)) = _
    rw [List.filterMap_append, filterMap_lineNote_parse hparse, List.nil_append]

/-! ### The line on which a run stopped -/

/-- A line note tells the line. -/
theorem lineBytes_lineNote_inj {m n : Nat} (h : lineBytes ["[line " ++ toString m ++ "]"] =
    lineBytes ["[line " ++ toString n ++ "]"]) : m = n := by
  simp only [lineBytes_eq, inLines, String.toUTF8_eq_toByteArray, String.toByteArray_inj] at h
  have hdigits : Nat.toDigits 10 m = Nat.toDigits 10 n := by
    simpa [Nat.toString_eq_repr, ← String.toList_inj] using h
  rw [← Nat.ofDigitChars_ten_toDigits (n := m), hdigits, Nat.ofDigitChars_ten_toDigits]

/-- The note of a failure names its line. -/
theorem lineBytes_filterMap_lineNote {failure : Option Error}
    (h : ∀ e ∈ failure, ∃ fault line, e = .runtime fault line) (n : Nat) :
    lineBytes (failure.toList.filterMap lineNote) = lineBytes ["[line " ++ toString n ++ "]"] ↔
      ∃ fault, failure = some (.runtime fault n) := by
  cases failure with
  | none =>
    constructor
    · intro hempty
      cases lineBytes_eq_empty_iff.1 hempty.symm
    · rintro ⟨fault, hfault⟩
      cases hfault
  | some e =>
    obtain ⟨fault, line, rfl⟩ := h e rfl
    change lineBytes ["[line " ++ toString line ++ "]"] = _ ↔ _
    constructor
    · intro heq
      exact ⟨fault, by rw [lineBytes_lineNote_inj heq]⟩
    · rintro ⟨fault', hfault'⟩
      cases hfault'
      rfl

/-! ### Agreement -/

/-- A text that scans is sound exactly if it is read without errors. -/
theorem staticallySound_iff (h : scan text = .ok tokens) :
    StaticallySound text ↔ (Program.ofTokens tokens).errors = [] := by
  constructor
  · rintro ⟨tokens', h', herrors⟩
    cases h.symm.trans h'
    exact herrors
  · intro herrors
    exact ⟨tokens, h, herrors⟩

theorem not_staticallySound (h : scan text = .error e) : ¬ StaticallySound text := by
  rintro ⟨tokens, h', -⟩
  cases h.symm.trans h'

theorem not_stopsWith (h : scan text = .error e) (e' : Error) : ¬ StopsWith fuel text e' := by
  rintro ⟨tokens, k, h', -⟩
  cases h.symm.trans h'

/-- Reading a text that does not scan reports the fault and nothing else. -/
theorem parseSource_of_scan_error (h : scan text = .error e) :
    parseSource text = ⟨.empty, lineBytes [e.message], 65⟩ := by
  rw [parseSource, h]
  rfl

theorem code_parseSource (h : scan text = .ok tokens) :
    (parseSource text).code = 65 ↔ (Program.ofTokens tokens).errors ≠ [] := by
  rw [parseSource, h]
  exact code_ofScript _ _

theorem stderr_parseSource (h : scan text = .ok tokens) : (parseSource text).stderr =
    lineBytes ((Program.ofTokens tokens).errors.map Error.message) := by
  rw [parseSource, h]
  rfl

/-- A run ends with code 65 exactly if the program has errors. -/
theorem code_runSource (h : scan text = .ok tokens) (hran : runSource fuel text = some ran) :
    ran.code = 65 ↔ (Program.ofTokens tokens).errors ≠ [] := by
  obtain ⟨-, failure, -, -, -, -, hcode⟩ := runSource_of_scan_ok h hran
  rw [hcode]
  split_ifs with herrors <;> simp [herrors]

/-- What is written about the grammar when a script is printed is the start of what its run
writes. -/
theorem exists_stdout_runSource (h : scan text = .ok tokens)
    (hran : runSource fuel text = some ran) :
    ∃ more, ran.stdout = (parseSource text).stderr ++ more := by
  obtain ⟨printed, failure, -, -, hstdout, -, -⟩ := runSource_of_scan_ok h hran
  refine ⟨lineBytes (printed ++ failure.toList.map Error.message), ?_⟩
  rw [hstdout, stderr_parseSource h, ← lineBytes_append, List.append_assoc]

/-- A run ends with code 70 exactly if a sound script stops with an error. -/
theorem code_runSource_eq_70 (hran : runSource fuel text = some ran) :
    ran.code = 70 ↔ StaticallySound text ∧ ∃ e, StopsWith fuel text e := by
  cases h : scan text with
  | error e =>
    cases (runSource_of_scan_error h).symm.trans hran
    simp [not_staticallySound h]
  | ok tokens =>
    obtain ⟨-, failure, hstops, -, -, -, hcode⟩ := runSource_of_scan_ok h hran
    rw [hcode, staticallySound_iff h]
    simp only [hstops, ← Option.isSome_iff_exists]
    split_ifs with herrors hsome <;> simp_all

/-- The error output of a run is one line note exactly if the script fails at that line. -/
theorem stderr_runSource (hran : runSource fuel text = some ran) (n : Nat) :
    ran.stderr = lineBytes ["[line " ++ toString n ++ "]"] ↔
      ∃ fault, StopsWith fuel text (.runtime fault n) := by
  cases h : scan text with
  | error e =>
    cases (runSource_of_scan_error h).symm.trans hran
    simp only [not_stopsWith h, exists_false, iff_false]
    intro hempty
    cases lineBytes_eq_empty_iff.1 hempty.symm
  | ok tokens =>
    obtain ⟨-, failure, hstops, hruntime, -, hstderr, -⟩ := runSource_of_scan_ok h hran
    rw [hstderr, lineBytes_filterMap_lineNote hruntime]
    simp only [hstops]

/-- The error output of a run is empty exactly if the script does not fail. -/
theorem stderr_runSource_eq_empty (hran : runSource fuel text = some ran) :
    ran.stderr = .empty ↔ ¬ ∃ fault n, StopsWith fuel text (.runtime fault n) := by
  cases h : scan text with
  | error e =>
    cases (runSource_of_scan_error h).symm.trans hran
    simp [not_stopsWith h]
  | ok tokens =>
    obtain ⟨-, failure, hstops, hruntime, -, hstderr, -⟩ := runSource_of_scan_ok h hran
    simp only [hstderr, hstops, lineBytes_eq_empty_iff]
    cases failure with
    | none => simp
    | some e =>
      obtain ⟨fault, line, rfl⟩ := hruntime e rfl
      simp [lineNote, Error.isStatic, Error.line?]

/-- A command finds a text: in its file, or on the standard input if it is given none. -/
def Finds (s : Surroundings) (file : Option String) (text : String) : Prop :=
  match file with
  | none => s.stdin = text.toUTF8.data.toList
  | some path => s.entry path = .file text.toUTF8.data.toList

theorem Finds.withSource_eq {s : Surroundings} {file : Option String} (h : Finds s file text)
    (f : String → Option Transcript) : withSource s file f = f text := by
  have hsource : source s file = .ok text := by
    cases file with
    | none =>
      rw [source, show s.stdin = _ from h, Utf8.decode_toUTF8]
      rfl
    | some path =>
      rw [source, show s.entry path = _ from h]
      dsimp only
      rw [Utf8.decode_toUTF8]
      rfl
  rw [withSource, hsource]

/-- **The commands agree on what is wrong with a script.** Whenever the run of a script ends: its
tokens are listed with exit code 65 if and only if its text is at fault. Then to print and to run it
ends with 65 as well, nothing is printed, and the run writes the first line of what the listing
complains about, and so does the printing in its complaints. If the text is sound, printing and
running end with 65 for the same scripts, and the run starts with all the complaints of the
printing. A run ends with 70 exactly if it stopped at an error in a script that is statically
sound; and, whatever the exit code, it names a line apart exactly if it stopped at an error on that
line. -/
theorem static_errors_agree {s₁ s₂ s₃ : Surroundings} {file₁ file₂ file₃ : Option String}
    (json : Bool) (h₁ : Finds s₁ file₁ text) (h₂ : Finds s₂ file₂ text) (h₃ : Finds s₃ file₃ text)
    (hran : perform fuel s₃ (.run file₃) = some ran) :
    ∃ tokenized parsed, perform fuel s₁ (.tokenize json file₁) = some tokenized ∧
      perform fuel s₂ (.parse file₂) = some parsed ∧
      (tokenized.code = 65 ↔ ∃ e, scan text = .error e) ∧
      (∀ e, scan text = .error e → parsed.code = 65 ∧ ran.code = 65 ∧ parsed.stdout = .empty ∧
        (lines tokenized.stderr.data.toList).head? = some ran.stdout.data.toList ∧
        parsed.stderr = ran.stdout) ∧
      (∀ tokens, scan text = .ok tokens → (parsed.code = 65 ↔ ran.code = 65) ∧
        ∃ more, ran.stdout = parsed.stderr ++ more) ∧
      (ran.code = 70 ↔ StaticallySound text ∧ ∃ e, StopsWith fuel text e) ∧
      (∀ n, ran.stderr = lineBytes ["[line " ++ toString n ++ "]"] ↔
        ∃ fault, StopsWith fuel text (.runtime fault n)) ∧
      (ran.stderr = .empty ↔ ¬ ∃ fault n, StopsWith fuel text (.runtime fault n)) := by
  rw [perform, h₃.withSource_eq] at hran
  refine ⟨tokenizeSource json text, parseSource text, h₁.withSource_eq _, h₂.withSource_eq _,
    code_tokenizeSource json text, fun e he => ?_,
    fun tokens htokens => ⟨?_, exists_stdout_runSource htokens hran⟩, code_runSource_eq_70 hran,
    stderr_runSource hran, stderr_runSource_eq_empty hran⟩
  · cases (runSource_of_scan_error he).symm.trans hran
    obtain ⟨more, hmore⟩ := exists_stderr_tokenizeSource json he
    rw [parseSource_of_scan_error he, hmore]
    exact ⟨rfl, rfl, rfl, head?_lines_lineBytes (break_not_mem_of_scan he) more, rfl⟩
  · rw [code_parseSource htokens, code_runSource htokens hran]

/-- A script with an error of grammar and an error in its run, given once as the standard input and
once as a file: the run ends with 65 and yet names the line on which it stopped. -/
theorem static_errors_agree_in_file :
    let text := "var; print 1;\n-null;"
    let s : Surroundings := ⟨text.toUTF8.data.toList, fun _ => .file text.toUTF8.data.toList⟩
    Finds s none text ∧ Finds s (some "a") text ∧
      ∃ ran, perform 30 s (.run (some "a")) = some ran ∧ ran.code = 65 ∧
        ran.stderr = lineBytes ["[line " ++ toString 2 ++ "]"] ∧
        (∃ fault, StopsWith 30 text (.runtime fault 2)) ∧
        ∃ parsed, perform 30 s (.parse none) = some parsed ∧ ∃ more,
          ran.stdout = parsed.stderr ++ more := by
  intro text s
  have hstdin : Finds s none text := rfl
  have hfile : Finds s (some "a") text := rfl
  have hany : (perform 30 s (.run (some "a"))).any (fun ran =>
      ran.code = 65 ∧ ran.stderr = lineBytes ["[line " ++ toString 2 ++ "]"]) = true := by
    decide +kernel
  have hscan : (scan text).isOk = true := by decide +kernel
  obtain ⟨ran, hran, hend⟩ := (Option.any_eq_true _ _).1 hany
  obtain ⟨hcode, hstderr⟩ := of_decide_eq_true hend
  obtain ⟨-, parsed, -, hparsed, -, -, hok, -, hline, -⟩ :=
    static_errors_agree false hstdin hstdin hfile hran
  cases htokens : scan text with
  | error e =>
    rw [htokens] at hscan
    cases hscan
  | ok tokens =>
    exact ⟨hstdin, hfile, ran, hran, hcode, hstderr, (hline 2).1 hstderr, parsed, hparsed,
      (hok tokens htokens).2⟩

end Command

end Scriptlet
