import Scriptlet.Proofs.Eval.Fuel
import Scriptlet.Proofs.Eval.Likeness
import Scriptlet.Proofs.Grammar.Joining
import Scriptlet.Proofs.Token.LineBreak

/-!
# Scripts in pieces

Two scripts that run one after another do what they do as one script with a line break between them,
if the first comes to its end without an error and the second can be read. Only lines differ: in the
whole script those of the second piece are further down, while those of functions declared before it
stay. To tell the two kinds of lines apart, the second piece is also run marked: its tokens stand on
odd lines and those of all functions in the machine on even ones.
-/

namespace Scriptlet

/-! ### Marked lines -/

namespace Line

/-- The mark of a line of a function declared before. -/
def earlier (line : Nat) : Nat := 2 * line

/-- The mark of a line of the script that runs. -/
def own (line : Nat) : Nat := 2 * line + 1

/-- The line behind a mark, if the script that runs starts the given number of lines further
down. -/
def placed (shift mark : Nat) : Nat := if mark % 2 = 0 then mark / 2 else mark / 2 + shift

theorem placed_comp_earlier (shift : Nat) : placed shift ∘ earlier = id := by
  funext line
  show placed shift (2 * line) = line
  unfold placed
  split <;> omega

theorem placed_comp_own (shift : Nat) : placed shift ∘ own = (· + shift) := by
  funext line
  show placed shift (2 * line + 1) = line + shift
  unfold placed
  split <;> omega

end Line

open Line

/-- Whether statements end with a `return`. -/
def Outcome.isReturn : Outcome Flow → Bool
  | .done (.ret _) _ => true
  | _ => false

namespace Machine

variable {setting : Setting}

/-! ### One program on lines further down -/

theorem AgreeAfter.renumber {x y : Option (Report × Machine)} (h : AgreeAfter x y) (f : Nat → Nat)
    (last : Value) :
    AgreeAfter (x.map (Prod.map (Report.renumber f last) (Machine.renumber f .null)))
      (y.map (Prod.map (Report.renumber f last) (Machine.renumber f .null))) := by
  cases h with
  | none => exact .none
  | some h =>
    have hagree := (h.2.renumber f .null).of_covers (covers_renumber f _)
    exact .some ⟨congrArg (Report.renumber f last) h.1, hagree⟩

/-- Lines do not matter to a run, with releases or without. -/
theorem runProgram_agrees (hkeeps : setting.host.KeepsToArguments)
    (hlines : setting.host.IgnoresLines) (fuel : Nat) {program : Program}
    (hes : ∀ e ∈ program.errors, ∀ fault line, e ≠ .lex fault line) (m : Machine) (f : Nat → Nat)
    (last : Value) :
    AgreeAfter ((m.renumber f last).runProgram setting fuel (program.renumber f))
      ((m.runProgram setting fuel program).map
        (Prod.map (Report.renumber f last) (renumber f .null))) := by
  let off : Setting := { setting with releases := false }
  have hlines' : off.host.IgnoresLines := hlines
  have hoff : ∀ (k : Machine) (p : Program),
      AgreeAfter (k.runProgram setting fuel p) (k.runProgram off fuel p) := fun k p =>
    (Agree.refl _ k).runProgram hkeeps fuel p
  -- without releases both runs are the same but for lines
  refine (hoff _ _).trans ?_
  rw [runProgram_renumber f last hlines' rfl fuel program hes m]
  exact ((hoff _ _).renumber _ _).symm

/-- The run of a program with its tokens on odd lines and those of the machine on even lines. -/
def runMarked (setting : Setting) (fuel : Nat) (program : Program) (m : Machine) :
    Option (Report × Machine) :=
  (m.renumber earlier .null).runProgram setting fuel (program.renumber own)

/-- **One marked run for all places.** Wherever a program stands, it does what its marked run does,
with the marks read as lines; a last result from before stays if it has none of its own. -/
theorem runProgram_placed (hkeeps : setting.host.KeepsToArguments)
    (hlines : setting.host.IgnoresLines) (fuel : Nat) {program : Program}
    (hclean : program.errors = []) (m : Machine) (hm : m.lastValue = .null) (shift : Nat)
    (last : Value) :
    AgreeAfter ({ m with lastValue := last }.runProgram setting fuel (program.renumber (· + shift)))
      ((m.runMarked setting fuel program).map
        (Prod.map (Report.renumber (placed shift) last) (renumber (placed shift) .null))) := by
  have hes : ∀ e ∈ (program.renumber own).errors, ∀ fault line, e ≠ .lex fault line := by
    simp [Program.renumber, hclean]
  have hmachine : (m.renumber earlier .null).renumber (placed shift) last =
      { m with lastValue := last } := by
    simp [renumber, placed_comp_earlier, hm]
  have hprogram : (program.renumber own).renumber (placed shift) =
      program.renumber (· + shift) := by
    rw [Program.renumber_renumber, placed_comp_own]
  have hplaced := runProgram_agrees hkeeps hlines fuel hes (m.renumber earlier .null)
    (placed shift) last
  rwa [hmachine, hprogram] at hplaced

/-! ### Runs of scripts -/

/-- Running the script comes to an end, with the given report and machine. -/
def Runs (setting : Setting) (source : String) (m : Machine) (r : Report) (m' : Machine) : Prop :=
  ∃ fuel, m.runScript setting fuel source = some (r, m')

/-- Whether a `return` outside of all functions ends the script before the fuel runs out. -/
def returnsWithin (setting : Setting) (fuel : Nat) (source : String) (m : Machine) : Bool :=
  match scan source with
  | .error _ => false
  | .ok tokens => (executeAll setting fuel [] (Program.ofTokens tokens).statements
      ((Program.ofTokens tokens).errors.foldl report m.forget)).isReturn

/-- A `return` outside of all functions ends the script. -/
def Returns (setting : Setting) (source : String) (m : Machine) : Prop :=
  ∃ fuel, m.returnsWithin setting fuel source

variable {m m' : Machine} {first second : String} {r : Report}

theorem runs_iff {tokens : List Token} (hscan : scan second = .ok tokens) :
    m.Runs setting second r m' ↔
      ∃ fuel, m.forget.runProgram setting fuel (.ofTokens tokens) = some (r, m') := by
  unfold Runs runScript
  rw [hscan]

/-- Whether a script returns does not depend on the fuel with which it ends. -/
theorem returns_iff {fuel : Nat} (hsome : (m.runScript setting fuel first).isSome) :
    m.Returns setting first ↔ m.returnsWithin setting fuel first := by
  constructor
  · rintro ⟨fuel', h⟩
    cases hscan : scan first with
    | error e =>
      rw [returnsWithin, hscan] at h
      cases h
    | ok tokens =>
      rw [returnsWithin, hscan] at h ⊢
      rw [runScript, hscan] at hsome
      dsimp only [runProgram] at h hsome ⊢
      refine (congrArg Outcome.isReturn (executeAll_eq_of_ne ?_ ?_)).trans h
      · intro hout
        rw [hout] at hsome
        cases hsome
      · intro hout
        rw [hout] at h
        cases h
  · intro h
    exact ⟨fuel, h⟩

/-- A script without errors that does not return comes to the end of its statements. -/
theorem Runs.ends (hrun : m.Runs setting first r m') (hok : r.isOk)
    (hreturns : ¬ m.Returns setting first) :
    ∃ tokens fuel k, scan first = .ok tokens ∧ (Program.ofTokens tokens).errors = [] ∧
      executeAll setting fuel [] (Program.ofTokens tokens).statements m.forget = .done .normal k ∧
      r.value = k.lastValue ∧ m' = k.forget := by
  have herrors : r.errors = [] := List.isEmpty_iff.1 hok
  cases hscan : scan first with
  | error e =>
    obtain ⟨fuel, hrun⟩ := hrun
    rw [runScript, hscan] at hrun
    cases hrun
    cases herrors
  | ok tokens =>
    obtain ⟨fuel, hrun⟩ := (runs_iff hscan).1 hrun
    rw [runProgram] at hrun
    cases hend : executeAll setting fuel [] (Program.ofTokens tokens).statements
        ((Program.ofTokens tokens).errors.foldl report m.forget) with
    | done flow k =>
      rw [hend] at hrun
      cases hrun
      cases flow with
      | normal =>
        rw [show (Program.ofTokens tokens).errors = [] from herrors] at hend
        exact ⟨tokens, fuel, k, rfl, herrors, hend, rfl, rfl⟩
      | ret v =>
        refine absurd ⟨fuel, ?_⟩ hreturns
        rw [returnsWithin, hscan]
        dsimp only
        rw [hend]
        rfl
    | failed e k =>
      rw [hend] at hrun
      cases hrun
      simp at herrors
    | outOfFuel =>
      rw [hend] at hrun
      cases hrun

end Machine

/-! ### Two scripts as one -/

namespace Program

theorem eq_body_append {source : String} {ts : List Token} (h : scan source = .ok ts) :
    ∃ last, last.kind = .mark .eof ∧ ts = body ts ++ [last] := by
  obtain ⟨front, last, rfl, hlast, hfront⟩ := scan_eq_append h
  refine ⟨last, hlast, ?_⟩
  unfold body
  rw [List.takeWhile_append_of_pos]
  · simp [Token.is, hlast]
  · intro t ht
    simpa [Token.is, ← Kind.isMark_eq_true_iff] using hfront t ht

/-- The tokens of two scripts, those of the second on other lines, are read as the statements of
both. -/
theorem ofTokens_dropLast_append {first second : String} {ts us : List Token}
    (hfirst : scan first = .ok ts) (hsecond : scan second = .ok us)
    (hts : (ofTokens ts).errors = []) (hus : (ofTokens us).errors = []) (f : Nat → Nat) :
    ofTokens (ts.dropLast ++ us.map (Token.renumber f)) =
      ⟨(ofTokens ts).statements ++ ((ofTokens us).renumber f).statements, []⟩ := by
  obtain ⟨last, -, hfront⟩ := eq_body_append hfirst
  obtain ⟨last', hlast', hback⟩ := eq_body_append hsecond
  have hne : us ≠ [] := by
    rw [hback]
    simp
  have hmap : us.map (Token.renumber f) =
      body (us.map (Token.renumber f)) ++ [last'.renumber f] := by
    rw [body_renumber]
    nth_rewrite 1 [hback]
    simp
  have herrors : (ofTokens (us.map (Token.renumber f))).errors = [] := by
    rw [ofTokens_renumber f hne, renumber, hus]
    rfl
  have hdrop : ts.dropLast = body ts := by
    nth_rewrite 1 [hfront]
    simp
  have hend : (last'.renumber f).kind = .mark .eof := hlast'
  rw [hdrop, hmap, ← List.append_assoc, ofTokens_append hts herrors hend, ofTokens_renumber f hne]

end Program

namespace Machine

variable {setting : Setting} {m m' k : Machine} {first second : String} {ts us : List Token}
  {r : Report}

/-- **The whole script goes on where its first piece ends.** -/
theorem runs_append_iff (hfirst : scan first = .ok ts) (hsecond : scan second = .ok us)
    (hts : (Program.ofTokens ts).errors = []) (hus : (Program.ofTokens us).errors = []) {n : Nat}
    (hend : executeAll setting n [] (Program.ofTokens ts).statements m.forget = .done .normal k) :
    m.Runs setting (first ++ "\n" ++ second) r m' ↔
      ∃ fuel, k.runProgram setting fuel
        ((Program.ofTokens us).renumber (· + (first.toList.count '\n' + 1))) = some (r, m') := by
  have herrors : ((Program.ofTokens us).renumber (· + (first.toList.count '\n' + 1))).errors =
      [] := by
    rw [Program.renumber, hus]
    rfl
  have hwhole : ∀ fuel, n ≤ fuel →
      m.forget.runProgram setting fuel (.ofTokens (ts.dropLast ++
        us.map (Token.renumber (· + (first.toList.count '\n' + 1))))) =
      k.runProgram setting (fuel - (Program.ofTokens ts).statements.length)
        ((Program.ofTokens us).renumber (· + (first.toList.count '\n' + 1))) := by
    intro fuel hle
    rw [Program.ofTokens_dropLast_append hfirst hsecond hts hus, runProgram, runProgram, herrors]
    dsimp only [List.foldl_nil]
    rw [executeAll_append hend _ hle]
  rw [runs_iff (scan_append hfirst hsecond)]
  constructor
  · rintro ⟨fuel, hrun⟩
    have hmore := runProgram_of_le hrun (Nat.le_add_right fuel n)
    rw [hwhole _ (Nat.le_add_left n fuel)] at hmore
    exact ⟨_, hmore⟩
  · rintro ⟨fuel, hrun⟩
    refine ⟨fuel + n + (Program.ofTokens ts).statements.length, ?_⟩
    rw [hwhole _ (by omega), Nat.add_sub_cancel]
    exact runProgram_of_le hrun (Nat.le_add_right fuel n)

/-- A run comes to an end if and only if some fuel is enough for it. -/
theorem exists_some_iff {run : Nat → Option (Report × Machine)} :
    (∃ r m, ∃ fuel, run fuel = some (r, m)) ↔ ∃ fuel, (run fuel).isSome := by
  simp only [Option.isSome_iff_exists, Prod.exists]
  constructor
  · rintro ⟨r, m, fuel, h⟩
    exact ⟨fuel, r, m, h⟩
  · rintro ⟨fuel, r, m, h⟩
    exact ⟨r, m, fuel, h⟩

/-- What a script comes to by itself, `alone`, and at the end of a longer script, `whole`: `shift`
is the number of lines in front of it there, and `last` the last result of the script before it. -/
structure Continues (setting : Setting) (program : Program) (m : Machine) (shift : Nat)
    (last : Value) (alone whole : Report × Machine) : Prop where
  /-- All that was written is the same. -/
  sink : whole.2.sink = alone.2.sink
  /-- The value and the errors are those of the marked run, with the marks read as lines: an error
  at a token of the script moves with it, one inside a function declared before stays. -/
  report : ∃ fuel marked, m.runMarked setting fuel program = some marked ∧
    alone.1 = marked.1.renumber (placed 0) .null ∧ whole.1 = marked.1.renumber (placed shift) last
  /-- The value is that of the script itself, or else that of the script before it. -/
  value : whole.1.value.renumber (fun _ => 0) = (alone.1.value.or last).renumber fun _ => 0
  /-- The same global names are bound, to the same values but for lines. -/
  globals : (whole.2.heap.get? globals).map (Frame.renumber fun _ => 0) =
    (alone.2.heap.get? globals).map (Frame.renumber fun _ => 0)
  /-- No host can tell the machines apart by further calls, but for lines. -/
  observe : ∀ fuel calls,
    (whole.2.observe setting fuel calls).map (Prod.map (List.map Report.unlined) id) =
      (alone.2.observe setting fuel calls).map (Prod.map (List.map Report.unlined) id)

/-- Two runs that are one marked run but for lines. -/
theorem Continues.of_marked (hkeeps : setting.host.KeepsToArguments)
    (hlines : setting.host.IgnoresLines) {program : Program} {shift : Nat} {last : Value}
    {fuel : Nat} {alone whole marked : Report × Machine}
    (hmarked : m.runMarked setting fuel program = some marked)
    (halone : AgreeAfter (some alone) (some
      (Prod.map (Report.renumber (placed 0) .null) (renumber (placed 0) .null) marked)))
    (hwhole : AgreeAfter (some whole) (some
      (Prod.map (Report.renumber (placed shift) last) (renumber (placed shift) .null) marked))) :
    Continues setting program m shift last alone whole := by
  obtain ⟨⟨hreport, hagree⟩⟩ := halone
  obtain ⟨⟨hreport', hagree'⟩⟩ := hwhole
  have hplaces : Alike (marked.2.renumber (placed shift) .null)
      (marked.2.renumber (placed 0) .null) := by
    unfold Alike
    rw [unlined_renumber, unlined_renumber]
    exact .refl _ _
  have halike : Alike whole.2 alone.2 :=
    (Alike.of_agree hagree').trans (hplaces.trans (Alike.of_agree hagree).symm)
  refine ⟨halike.sink_eq, ⟨fuel, marked, hmarked, hreport, hreport'⟩, ?_, halike.globals_eq,
    fun fuel calls => halike.observe hkeeps hlines fuel calls⟩
  rw [hreport, hreport']
  simp only [Prod.map, Report.renumber, Value.or_null, Value.or_renumber, Value.renumber_renumber]
  rfl

end Machine

open Machine

/-- **Running a script in pieces is running it whole.** If a script comes to its end without an
error, another that can be read ends after it if and only if both end as one script, and then it
comes to the same there, with the lines of its own tokens counted on from the script before. -/
theorem run_in_pieces {setting : Setting} (hkeeps : setting.host.KeepsToArguments)
    (hlines : setting.host.IgnoresLines) {m m₁ : Machine} {first second : String} {r₁ : Report}
    (hfirst : m.Runs setting first r₁ m₁) (hok : r₁.isOk) (hreturns : ¬ m.Returns setting first)
    {tokens : List Token} (hscan : scan second = .ok tokens)
    (hclean : (Program.ofTokens tokens).errors = []) :
    ((∃ r m₂, m₁.Runs setting second r m₂) ↔
        ∃ r m', m.Runs setting (first ++ "\n" ++ second) r m') ∧
      ∀ r m₂ r' m', m₁.Runs setting second r m₂ →
        m.Runs setting (first ++ "\n" ++ second) r' m' →
        Continues setting (.ofTokens tokens) m₁ (first.toList.count '\n' + 1) r₁.value (r, m₂)
          (r', m') := by
  obtain ⟨ts, n, k, hts, herrors, hend, hvalue, rfl⟩ := hfirst.ends hok hreturns
  let shift := first.toList.count '\n' + 1
  -- one marked run stands for the second piece in both places
  have halone : ∀ fuel, AgreeAfter (k.forget.runProgram setting fuel (.ofTokens tokens))
      ((k.forget.runMarked setting fuel (.ofTokens tokens)).map
        (Prod.map (Report.renumber (placed 0) .null) (renumber (placed 0) .null))) := by
    intro fuel
    have h := runProgram_placed hkeeps hlines fuel hclean k.forget rfl 0 .null
    rwa [show (fun line => line + 0) = id from rfl, Program.renumber_id] at h
  have hwhole : ∀ fuel, AgreeAfter
      (k.runProgram setting fuel ((Program.ofTokens tokens).renumber (· + shift)))
      ((k.forget.runMarked setting fuel (.ofTokens tokens)).map
        (Prod.map (Report.renumber (placed shift) r₁.value) (renumber (placed shift) .null))) := by
    intro fuel
    rw [hvalue]
    exact runProgram_placed hkeeps hlines fuel hclean k.forget rfl shift k.lastValue
  have hsome : ∀ fuel, (k.forget.runProgram setting fuel (.ofTokens tokens)).isSome =
      (k.runProgram setting fuel ((Program.ofTokens tokens).renumber (· + shift))).isSome := by
    intro fuel
    rw [(halone fuel).isSome_eq, (hwhole fuel).isSome_eq, Option.isSome_map, Option.isSome_map]
  simp only [runs_iff hscan, runs_append_iff hts hscan herrors hclean hend]
  constructor
  · rw [exists_some_iff, exists_some_iff]
    exact exists_congr fun fuel => Bool.eq_iff_iff.1 (hsome fuel)
  · rintro r m₂ r' m' ⟨fuel, hrun⟩ ⟨fuel', hrun'⟩
    -- both runs are the same with more fuel
    have ha := halone (fuel + fuel')
    have hw := hwhole (fuel + fuel')
    have hmore := runProgram_of_le hrun (Nat.le_add_right fuel fuel')
    have hmore' := runProgram_of_le hrun' (Nat.le_add_left fuel' fuel)
    change k.forget.runProgram _ _ _ = _ at hmore
    rw [hmore] at ha
    rw [hmore'] at hw
    cases hmarked : k.forget.runMarked setting (fuel + fuel') (.ofTokens tokens) with
    | none =>
      rw [hmarked] at ha
      cases ha
    | some marked =>
      rw [hmarked] at ha hw
      exact .of_marked hkeeps hlines hmarked ha hw

/-- A function that fails on its second line is declared in one piece and called in the next. -/
theorem run_in_pieces_of_call : ∃ r₁ m₁ r m₂ r' m' tokens,
    (Machine.start .unlimited).Runs .standard "function f() \x7b\n return x; \x7d" r₁ m₁ ∧
      m₁.Runs .standard "f();" r m₂ ∧
      (Machine.start .unlimited).Runs .standard
        ("function f() \x7b\n return x; \x7d" ++ "\n" ++ "f();") r' m' ∧
      r'.errors.map Error.line? = [some 2] ∧ scan "f();" = .ok tokens ∧
      Continues .standard (.ofTokens tokens) m₁ 2 r₁.value (r, m₂) (r', m') := by
  have hfirst : ((Machine.start .unlimited).runScript .standard 20
      "function f() \x7b\n return x; \x7d").any (fun x => x.1.isOk) = true := by
    decide +kernel
  have hreturns : (Machine.start .unlimited).returnsWithin .standard 20
      "function f() \x7b\n return x; \x7d" = false := by
    decide +kernel
  have hsecond : ((scan "f();").toOption.any fun ts => (Program.ofTokens ts).errors.isEmpty) =
      true := by
    decide +kernel
  have hwhole : ((Machine.start .unlimited).runScript .standard 20
      ("function f() \x7b\n return x; \x7d" ++ "\n" ++ "f();")).any
        (fun x => x.1.errors.map Error.line? = [some 2]) = true := by
    decide +kernel
  obtain ⟨⟨r₁, m₁⟩, hrun, hok⟩ := (Option.any_eq_true _ _).1 hfirst
  obtain ⟨tokens, hscan, hclean⟩ : ∃ tokens, scan "f();" = .ok tokens ∧
      (Program.ofTokens tokens).errors = [] := by
    cases hscan : scan "f();" with
    | error e =>
      rw [hscan] at hsecond
      cases hsecond
    | ok tokens =>
      rw [hscan] at hsecond
      exact ⟨tokens, rfl, List.isEmpty_iff.1 hsecond⟩
  obtain ⟨⟨r', m'⟩, hrun', hline⟩ := (Option.any_eq_true _ _).1 hwhole
  have hnot : ¬ (Machine.start .unlimited).Returns .standard
      "function f() \x7b\n return x; \x7d" := by
    rw [returns_iff (by rw [hrun]; rfl), hreturns]
    exact Bool.false_ne_true
  obtain ⟨hends, hcontinues⟩ := run_in_pieces Host.standard_keepsToArguments
    Host.standard_ignoresLines ⟨20, hrun⟩ hok hnot hscan hclean
  obtain ⟨r, m₂, hrun₂⟩ := hends.2 ⟨r', m', 20, hrun'⟩
  exact ⟨r₁, m₁, r, m₂, r', m', tokens, ⟨20, hrun⟩, hrun₂, ⟨20, hrun'⟩, of_decide_eq_true hline,
    hscan, hcontinues r m₂ r' m' hrun₂ ⟨20, hrun'⟩⟩

end Scriptlet
