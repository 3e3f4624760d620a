import Scriptlet.Proofs.Grammar.Declarations
import Scriptlet.Proofs.Grammar.Tape

/-!
# The machine keeps to the grammar

A computation of the machine tracks a rule if it ends with the rule's result, in front of what the
rule leaves, at the depth it started at and with the rule's complaints recorded. Each way of putting
rules together has its counterpart on the machine, so the whole grammar is tracked, level by level.
-/

namespace Scriptlet

open Cursor (Event End)

variable {α β σ : Type}

namespace Rule

theorem eq_of_run_eq {r r' : Rule α} (h : ∀ ts, r.run ts = r'.run ts) : r = r' := by
  obtain ⟨run, _, _⟩ := r
  obtain ⟨run', _, _⟩ := r'
  cases funext h
  rfl

theorem bind_bind {γ : Type} (r : Rule α) (f : α → Rule β) (g : β → Rule γ) :
    r >>= f >>= g = r >>= fun a => f a >>= g := by
  refine eq_of_run_eq fun ts => ?_
  simp only [run_bind]
  rcases r.run ts with ⟨e | a, rest, notes, moved⟩
  · rfl
  · dsimp only [Step.after]
    rcases (f a).run rest with ⟨e | b, rest', notes', moved'⟩
    · rfl
    · simp only [List.append_assoc, Bool.or_assoc]

end Rule

/-- How the machine ends with the result of a rule. -/
def Cursor.End.ofResult (line : Nat) : Except Note α → End α
  | .ok a => .done a
  | .error n => .failed (n.toError line)

namespace Reading

variable (T : Tape) (R : Nat → List Stmt → List Error → Prop)

/-- A computation does to the registers what a step does to the tokens left. -/
def Matches (x : Reading α) (c : Cursor) (s : Step α) : Prop :=
  ∃ c', Ends T R x c (.ofResult T.last.line s.result) c' ∧ T.Stands c' s.rest ∧
    c'.depth = c.depth ∧ c'.errors = c.errors ++ s.notes.map (·.toError T.last.line)

/-- A computation does what a rule does, wherever there is room for the given number of levels. -/
def Tracks (room : Nat) (x : Reading α) (r : Rule α) : Prop :=
  ∀ c ts, T.Stands c ts → c.depth + room = maxNesting → Matches T R x c (r.run ts)

/-- A computation does what a rule does wherever the given token has just been passed. -/
def TracksBehind (room : Nat) (t : Token) (x : Reading α) (r : Rule α) : Prop :=
  ∀ c ts, T.Stands c ts → c.depth + room = maxNesting → c.Behind t → Matches T R x c (r.run ts)

variable {T R} {room fuel : Nat} {x : Reading α} {f : α → Reading β} {r : Rule α} {g : α → Rule β}
  {c c' : Cursor} {a : α} {t : Token} {m : Mark} {ts : List Token}

theorem bind_bind {γ : Type} (x : Reading α) (f : α → Reading β) (g : β → Reading γ) :
    x >>= f >>= g = x >>= fun a => f a >>= g := by
  funext c
  show Reading.bind (Reading.bind x f) g c = Reading.bind x (fun a => Reading.bind (f a) g) c
  unfold Reading.bind
  rcases x c with ⟨trace, a | e | _ | _, c'⟩
  · dsimp only
    rcases f a c' with ⟨trace', b | e | _ | _, c''⟩
    · dsimp only
      rw [List.append_assoc]
    · rfl
    · rfl
    · rfl
  · rfl
  · rfl
  · rfl

namespace Matches

/-- What follows a computation that ends with complaints recorded. -/
theorem after {s : Step β} {notes : List Note} (hx : Ends T R x c (.done a) c')
    (hdepth : c'.depth = c.depth)
    (herrors : c'.errors = c.errors ++ notes.map (·.toError T.last.line))
    (hf : Matches T R (f a) c' s) (moved : Bool) :
    Matches T R (x >>= f) c (s.after notes moved) := by
  obtain ⟨c'', hends, hstands, hdepth', herrors'⟩ := hf
  refine ⟨c'', hx.bind hends, hstands, hdepth'.trans hdepth, ?_⟩
  rw [herrors', herrors, List.append_assoc, ← List.map_append]
  rfl

/-- What follows a computation that records nothing. -/
theorem behind {s : Step β} (hx : Ends T R x c (.done a) c') (hdepth : c'.depth = c.depth)
    (herrors : c'.errors = c.errors) (hf : Matches T R (f a) c' s) :
    Matches T R (x >>= f) c s := by
  have hafter : Matches T R (x >>= f) c (s.after [] false) :=
    .after hx hdepth (by rw [herrors, List.map_nil, List.append_nil]) hf false
  exact hafter

theorem pure (h : T.Stands c ts) (a : α) :
    Matches T R (pure a) c ((Pure.pure a : Rule α).run ts) :=
  ⟨c, .pure a c, h, rfl, (List.append_nil _).symm⟩

theorem failHere (h : T.Stands c ts) (complaint : Complaint) :
    Matches T R (failHere complaint : Reading α) c ((Rule.fail complaint : Rule α).run ts) :=
  ⟨c, .failHere h complaint, h, rfl, (List.append_nil _).symm⟩

theorem asRule {s : Step α} (h : Matches T R x c s) : Matches T R (asRule x) c s := by
  obtain ⟨c', hends, hstands, hdepth, herrors⟩ := h
  exact ⟨c', hends.asRule hdepth, hstands, hdepth, herrors⟩

/-- The next token is taken if it is the given mark. -/
theorem accept_true {k : Bool → Reading α} {s : Step α} (h : T.Stands c (t :: ts))
    (hdepth : c.depth ≤ maxNesting) (hm : t.kind = .mark m)
    (hk : Matches T R (k true) c.next s) : Matches T R (accept m >>= k) c s :=
  .behind (.accept_true h hdepth (Token.is_eq_true_iff.2 hm)) rfl rfl hk

/-- The next token is left if it is not the given mark. -/
theorem accept_false {k : Bool → Reading α} {s : Step α} (h : T.Stands c ts)
    (hm : Rule.NotNext [m] ts) (hk : Matches T R (k false) c s) :
    Matches T R (accept m >>= k) c s := by
  refine .behind (.accept_false h ?_) rfl rfl hk
  cases ts with
  | nil => rfl
  | cons t ts =>
    exact Bool.eq_false_iff.2 fun his =>
      hm t rfl m (List.mem_singleton.2 rfl) (Token.is_eq_true_iff.1 his)

end Matches

/-! ### Ways of putting rules together -/

theorem TracksBehind.previous {k : Token → Reading α} (hk : Tracks T R room (k t) r) :
    TracksBehind T R room t (previous >>= k) r :=
  fun c ts h hroom ht => .behind (.previous h ht) rfl rfl (hk c ts h hroom)

theorem TracksBehind.asRule (hx : TracksBehind T R room t x r) :
    TracksBehind T R room t (asRule x) r :=
  fun c ts h hroom ht => (hx c ts h hroom ht).asRule

namespace Tracks

theorem pure (a : α) : Tracks T R room (pure a) (Pure.pure a) := fun _ _ h _ => .pure h a

theorem record {n : Note} (ht : n.site = some t) (htext : t.is .eof = false) :
    Tracks T R room (record (n.complaint.atToken t)) (Rule.note n) := by
  intro c ts h _
  refine ⟨_, .record _ c, h.congr rfl rfl, rfl, ?_⟩
  obtain ⟨site, complaint⟩ := n
  cases ht
  rw [Complaint.atToken, htext]
  rfl

theorem recordHere (complaint : Complaint) :
    Tracks T R room (recordHere complaint) (Rule.noteHere complaint) :=
  fun _ _ h _ => ⟨_, .recordHere h complaint, h.congr rfl rfl, rfl, rfl⟩

theorem bind (hx : Tracks T R room x r) (hf : ∀ a, Tracks T R room (f a) (g a)) :
    Tracks T R room (x >>= f) (r >>= g) := by
  intro c ts h hroom
  have hxc := hx c ts h hroom
  rw [Rule.run_bind]
  generalize r.run ts = step at hxc
  obtain ⟨c', hends, hstands, hdepth, herrors⟩ := hxc
  obtain ⟨e | a, rest, notes, moved⟩ := step
  · exact ⟨c', hends.bind_failed, hstands, hdepth, herrors⟩
  · exact .after hends hdepth herrors (hf a c' rest hstands (by rw [hdepth, hroom])) moved

theorem map (k : α → β) (hx : Tracks T R room x r) : Tracks T R room (k <$> x) (k <$> r) :=
  hx.bind fun a => .pure (k a)

theorem behind (hx : Tracks T R room x r) (t : Token) : TracksBehind T R room t x r :=
  fun c ts h hroom _ => hx c ts h hroom

/-- A look at the next token that changes nothing. -/
theorem check {k : Bool → Reading α} {g : Bool → Rule α} (m : Mark)
    (hk : ∀ b, Tracks T R room (k b) (g b)) :
    Tracks T R room (check m >>= k) (Rule.nextIs m >>= g) := by
  intro c ts h hroom
  exact .after (.check h m) rfl (List.append_nil _).symm (hk _ c ts h hroom) false

/-- Of several marks, the first is tried and then the others. -/
theorem accept_cons {marks : List Mark} {k : Bool → Reading α} {g : Option Token → Rule α}
    (htrue : ∀ t, t.kind = .mark m → TracksBehind T R room t (k true) (g (some t)))
    (hfalse : Tracks T R room (k false) (Rule.acceptAny marks >>= g)) :
    Tracks T R room (accept m >>= k) (Rule.acceptAny (m :: marks) >>= g) := by
  intro c ts h hroom
  have hle : c.depth ≤ maxNesting := by omega
  have hothers := hfalse c ts h hroom
  cases ts with
  | nil => exact .accept_false h (fun t ht => by cases ht) hothers
  | cons t ts =>
    by_cases ht : t.kind = .mark m
    · refine .accept_true h hle ht ?_
      have hany : ((m :: marks).any fun m => t.is m) = true := by
        simp [Token.is_eq_true_iff.2 ht]
      rw [Rule.run_bind, Rule.run_acceptAny_cons, if_pos hany]
      exact htrue t ht c.next ts h.next hroom h.behind
    · have his : t.is m = false := Bool.eq_false_iff.2 fun h => ht (Token.is_eq_true_iff.1 h)
      rw [Rule.run_bind, Rule.run_acceptAny_cons] at hothers ⊢
      rw [List.any_cons, his, Bool.false_or]
      refine .accept_false h (fun u hu k hk => ?_) hothers
      cases hu
      cases List.mem_singleton.1 hk
      exact ht

theorem accept_nil {g : Option Token → Rule α} (h : Tracks T R room x (g none)) :
    Tracks T R room x (Rule.acceptAny [] >>= g) := by
  intro c ts hstands hroom
  have hmatches := h c ts hstands hroom
  cases ts with
  | nil => exact hmatches
  | cons t ts => exact hmatches

theorem accept {k : Bool → Reading α} {g : Option Token → Rule α}
    (htrue : ∀ t, t.kind = .mark m → TracksBehind T R room t (k true) (g (some t)))
    (hfalse : Tracks T R room (k false) (g none)) :
    Tracks T R room (accept m >>= k) (Rule.accept m >>= g) :=
  accept_cons htrue (accept_nil hfalse)

theorem acceptAny {marks : List Mark} {k : Bool → Reading α} {g : Option Token → Rule α}
    (htrue : ∀ t, TracksBehind T R room t (k true) (g (some t)))
    (hfalse : Tracks T R room (k false) (g none)) :
    Tracks T R room (acceptAny marks >>= k) (Rule.acceptAny marks >>= g) := by
  induction marks with
  | nil => exact accept_nil hfalse
  | cons m marks ih =>
    rw [Reading.acceptAny, bind_bind]
    exact accept_cons (fun t _ => htrue t) ih

theorem consume (m : Mark) (what : Expectation) :
    Tracks T R room (consume m what) (Rule.expect m what) := by
  intro c ts h hroom
  have hle : c.depth ≤ maxNesting := by omega
  refine .behind (.check h m) rfl rfl ?_
  cases ts with
  | nil => exact .failHere h (.expected what)
  | cons t ts =>
    rw [Rule.expect, Rule.run_bind, Rule.accept, Rule.run_acceptAny_cons, List.any_cons,
      List.any_nil, Bool.or_false, List.head?_cons, Option.any_some]
    cases t.is m with
    | true => exact ⟨c.next, .advance h hle, h.next, rfl, (List.append_nil _).symm⟩
    | false => exact .failHere h (.expected what)

/-- A loop of the machine does what a loop of rules does, if every round that goes on takes a token
and the fuel lasts for the whole text. -/
theorem loop {round : σ → Reading (σ × Bool)} {round' : σ → Rule (σ × Bool)}
    (hround : ∀ s, Tracks T R room (round s) (round' s))
    (htakes : ∀ s ts, (round' s).Ensures ts fun front _ _ p => p.2 = true → front ≠ [])
    (hfuel : T.text.length < fuel) (s : σ) :
    Tracks T R room (loop round fuel s) (Rule.iterate round' s) := by
  intro c ts h hroom
  replace hfuel : ts.length < fuel := by
    have := h.current_eq
    omega
  rw [Rule.run_iterate]
  induction fuel generalizing c ts s with
  | zero => exact absurd hfuel (Nat.not_lt_zero _)
  | succ fuel ih =>
    have hmatches := hround s c ts h hroom
    have hmoved := (round' s).moved_iff ts
    have htaken := htakes s ts
    unfold Rule.Ensures at htaken
    rcases hstep : (round' s).run ts with ⟨e | ⟨s', more⟩, rest, notes, moved⟩
    · rw [hstep] at hmatches
      rw [Rule.iterateRun_of_error hstep]
      obtain ⟨c', hends, hmatches⟩ := hmatches
      exact ⟨c', hends.bind_failed, hmatches⟩
    · rw [hstep] at hmatches hmoved htaken
      obtain ⟨c', hends, hstands, hdepth, herrors⟩ := hmatches
      cases more with
      | false =>
        rw [Rule.iterateRun_of_last hstep (by simp)]
        exact ⟨c', hends.bind (.pure s' c'), hstands, hdepth, herrors⟩
      | true =>
        obtain ⟨front, hfront, hne⟩ := htaken (s', true) rfl
        have hlt : rest.length < ts.length := by
          have := List.length_pos_iff.2 (hne rfl)
          dsimp only at hfront
          rw [hfront, List.length_append]
          omega
        rw [Rule.iterateRun_of_more hstep ⟨rfl, hmoved.2 hlt⟩]
        refine .after hends hdepth herrors ?_ moved
        exact ih s' c' rest hstands (by rw [hdepth, hroom]) (by omega)

theorem commaList (excess : Complaint) {item : Reading α} {item' : Rule α}
    (hitem : Tracks T R room item item') (hfuel : T.text.length < fuel) :
    Tracks T R room (Rules.commaList fuel excess item) (Rule.commaList excess item') := by
  refine loop (fun items => ?_) (fun items ts => ?_) hfuel []
  · have hrest : Tracks T R room
        (item >>= fun x => Reading.accept .comma >>= fun more => Pure.pure (items ++ [x], more))
        (item' >>= fun x => Rule.accept .comma >>= fun comma =>
          Pure.pure (items ++ [x], comma.isSome)) :=
      hitem.bind fun x => .accept (fun t _ => (Tracks.pure _).behind t) (.pure _)
    unfold Rule.commaRound
    split
    · exact (recordHere excess).bind fun _ => hrest
    · exact hrest
  · unfold Rule.commaRound
    have hrest : ∀ us, (item' >>= fun x => Rule.accept .comma >>= fun comma =>
        Pure.pure (items ++ [x], comma.isSome)).Ensures us
          fun front _ _ p => p.2 = true → front ≠ [] := by
      intro us
      refine .bind ((Rule.Ensures.any item' us).imp fun front rest clean x _ => ?_)
      refine .bind (.accept ?_ ?_)
      · intro t rest _ _
        exact .pure (by simp)
      · intro _
        exact .pure (by simp)
    split
    · exact .bind (.noteHere (hrest ts))
    · exact hrest ts

/-! ### Levels -/

theorem asRule (hx : Tracks T R room x r) : Tracks T R room (asRule x) r :=
  fun c ts h hroom => (hx c ts h hroom).asRule

/-- A rule that is entered where there is room leaves one level less to what it enters. -/
theorem nested (hx : Tracks T R room x r) : Tracks T R (room + 1) (nested x) r := by
  intro c ts h hroom
  have hlt : c.depth < maxNesting := by omega
  refine .behind (.registers c) rfl rfl ?_
  rw [if_neg (Nat.not_le.2 hlt)]
  have hroom' : c.depth + 1 + room = maxNesting := by omega
  obtain ⟨c', hends, hstands, hdepth, herrors⟩ :=
    hx { c with depth := c.depth + 1 } ts (h.congr rfl rfl) hroom'
  refine ⟨{ c' with depth := c.depth }, ?_, hstands.congr rfl rfl, rfl, herrors⟩
  exact hends.deepened hlt hdepth h.current_le hstands.current_le

/-- A rule that is entered where there is no room fails at once. -/
theorem nested_full (x : Reading α) : Tracks T R 0 (Reading.nested x) (Rule.fail .tooDeep) := by
  intro c ts h hroom
  have hle : maxNesting ≤ c.depth := by omega
  refine .behind (.registers c) rfl rfl ?_
  rw [if_pos hle]
  exact .failHere h .tooDeep

end Tracks

/-! ### Recovery -/

theorem Matches.settle (h : T.Stands c ts) (hdepth : c.depth ≤ maxNesting) (ht : c.Behind t)
    (hfuel : ts.length < fuel) :
    Matches T R (settle fuel) c ⟨.ok (), Grammar.settle t ts, [], false⟩ := by
  induction fuel generalizing c t ts with
  | zero => exact absurd hfuel (Nat.not_lt_zero _)
  | succ fuel ih =>
    refine .behind (.isAtEnd h) rfl rfl ?_
    cases ts with
    | nil => exact .pure h ()
    | cons u ts =>
      refine .behind (.previous h ht) rfl rfl (.behind (.peek h) rfl rfl ?_)
      rw [Grammar.settle, List.head?_cons, Option.getD_some]
      split
      · exact .pure h ()
      · refine .behind (.advance h hdepth) rfl rfl (ih h.next hdepth h.behind ?_)
        exact Nat.lt_of_succ_lt_succ hfuel

theorem Matches.synchronize (h : T.Stands c ts) (hdepth : c.depth ≤ maxNesting)
    (hfuel : ts.length < fuel) :
    Matches T R (synchronize fuel) c ⟨.ok (), Grammar.resume ts, [], false⟩ := by
  cases ts with
  | nil =>
    obtain ⟨t, hends⟩ := Ends.advance_nil h (R := R)
    refine .behind hends rfl rfl ?_
    cases fuel with
    | zero => exact absurd hfuel (Nat.not_lt_zero _)
    | succ fuel => exact .behind (.isAtEnd h) rfl rfl (.pure h ())
  | cons t ts =>
    refine .behind (.advance h hdepth) rfl rfl (.settle h.next hdepth h.behind ?_)
    exact Nat.lt_of_succ_lt hfuel

theorem Tracks.recovering {x : Reading Stmt} {r : Rule Stmt} (hx : Tracks T R room x r)
    (hfuel : T.text.length < fuel) :
    Tracks T R room (recovering fuel x) (Grammar.recovering r) := by
  intro c ts h hroom
  have hmatches := hx c ts h hroom
  rw [Grammar.run_recovering]
  generalize r.run ts = step at hmatches
  obtain ⟨c', hends, hstands, hdepth, herrors⟩ := hmatches
  obtain ⟨e | s, rest, notes, moved⟩ := step
  · -- the failure is recorded, and the registers go on from where it left them
    have hle : c'.depth ≤ maxNesting := by omega
    have hrest : rest.length < fuel := by
      have := hstands.current_eq
      dsimp only at this
      omega
    have hrecorded : T.Stands { c' with errors := c'.errors ++ [e.toError T.last.line] } rest :=
      hstands.congr rfl rfl
    obtain ⟨c'', hsync, hstands', hdepth', herrors'⟩ := Matches.synchronize hrecorded hle hrest
    refine ⟨c'', hends.recovering_failed hsync, hstands', hdepth'.trans hdepth, ?_⟩
    rw [herrors']
    simp [herrors]
  · exact ⟨c', hends.recovering_done fuel, hstands, hdepth, herrors⟩

theorem Tracks.asDeclaration (hx : Tracks T R room x r)
    (htakes : ∀ ts, ts ≠ [] → (r.run ts).rest.length < ts.length) :
    Tracks T R room (asDeclaration x) r := by
  intro c ts h hroom
  obtain ⟨c', hends, hstands, hdepth, herrors⟩ := hx c ts h hroom
  refine ⟨c', hends.asDeclaration fun hne => ?_, hstands, hdepth, herrors⟩
  have hcurrent := h.current_eq
  have hcurrent' := hstands.current_eq
  have := htakes ts fun hnil => by
    subst hnil
    exact hne hcurrent
  omega

end Reading

end Scriptlet
