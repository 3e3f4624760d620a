import Scriptlet.Grammar.Stmt
import Scriptlet.Proofs.Grammar.Language

/-!
# How rules read

Two ways to speak about a rule on a token list. `Rule.Ensures` says what holds if the rule succeeds
there, of the tokens it read, the tokens it left and the result, and whether it had no complaint;
`Rule.Reads` says that the rule reads one thing off the list without complaint. Each has a law for
every way in which rules are put together. The lists of arguments and of parameters are one rule.
-/

namespace Scriptlet

namespace Rule

variable {α β σ : Type} {ts : List Token}

/-- One more thing and the comma behind it, if there is one. -/
def commaRound (excess : Complaint) (item : Rule α) (items : List α) : Rule (List α × Bool) := do
  if maxArity ≤ items.length then
    noteHere excess
  let x ← item
  let comma ← accept .comma
  pure (items ++ [x], comma.isSome)

/-- Things with commas between them, of which there should not be too many. -/
def commaList (excess : Complaint) (item : Rule α) : Rule (List α) :=
  iterate (commaRound excess item) []

theorem arguments_eq (deeper : ExprRules) : deeper.arguments = (do
    if ← nextIs .rightParen then
      pure []
    else
      commaList .tooManyArguments deeper.expression) := rfl

theorem parameters_eq : Grammar.parameters = (do
    if ← nextIs .rightParen then
      pure []
    else
      commaList .tooManyParameters (expect .identifier .parameterName)) := rfl

/-- None of the given marks comes next. -/
def NotNext (marks : List Mark) (ts : List Token) : Prop :=
  ∀ t ∈ ts.head?, ∀ m ∈ marks, t.kind ≠ .mark m

/-- A token with a mark is not one of other marks. -/
theorem notNext_cons {t : Token} {m : Mark} {marks : List Mark} (ht : t.kind = .mark m)
    (hm : m ∉ marks) : NotNext marks (t :: ts) := by
  intro u hu k hk hu'
  cases hu
  cases ht.symm.trans hu'
  exact hm hk

/-! ### How rules run -/

/-- To run one rule after another is to run the second on what the first leaves. -/
theorem run_bind (r : Rule α) (f : α → Rule β) (ts : List Token) :
    (r >>= f).run ts = match r.run ts with
      | ⟨.error e, rest, notes, moved⟩ => ⟨.error e, rest, notes, moved⟩
      | ⟨.ok a, rest, notes, moved⟩ => ((f a).run rest).after notes moved := rfl

/-- A token is accepted exactly if it has one of the marks. -/
theorem run_acceptAny_cons (marks : List Mark) (t : Token) (ts : List Token) :
    (acceptAny marks).run (t :: ts) =
      if marks.any fun m => t.is m then ⟨.ok (some t), ts, [], true⟩
      else ⟨.ok none, t :: ts, [], false⟩ := rfl

theorem run_iterate (round : σ → Rule (σ × Bool)) (s : σ) (ts : List Token) :
    (iterate round s).run ts = iterateRun round s ts := rfl

/-! ### What holds when a rule succeeds -/

/-- If a rule succeeds on a token list, a property holds of the tokens read, the tokens left,
whether there was no complaint, and the result. -/
def Ensures (r : Rule α) (ts : List Token) (Q : List Token → List Token → Bool → α → Prop) :
    Prop :=
  ∀ a, (r.run ts).result = .ok a → ∃ front, ts = front ++ (r.run ts).rest ∧
    Q front (r.run ts).rest (r.run ts).notes.isEmpty a

theorem isEmpty_append (xs ys : List α) : (xs ++ ys).isEmpty = (xs.isEmpty && ys.isEmpty) := by
  cases xs <;> rfl

namespace Ensures

variable {Q : List Token → List Token → Bool → α → Prop}

/-- What is ensured may be weakened. -/
theorem imp {r : Rule α} {P : List Token → List Token → Bool → α → Prop} (h : r.Ensures ts P)
    (himp : ∀ front rest clean a, P front rest clean a → Q front rest clean a) :
    r.Ensures ts Q := by
  intro a ha
  obtain ⟨front, hts, hP⟩ := h a ha
  exact ⟨front, hts, himp _ _ _ _ hP⟩

theorem pure {a : α} (h : Q [] ts true a) : (pure a : Rule α).Ensures ts Q := by
  intro b hb
  cases hb
  exact ⟨[], rfl, h⟩

/-- A rule that fails ensures everything of its result. -/
theorem fail {c : Complaint} : (fail c : Rule α).Ensures ts Q := fun _ h => nomatch h

/-- What the second rule ensures is joined to what the first has read. -/
theorem bind {r : Rule α} {f : α → Rule β} {Q : List Token → List Token → Bool → β → Prop}
    (h : r.Ensures ts fun front rest clean a => (f a).Ensures rest fun front' rest' clean' b =>
      Q (front ++ front') rest' (clean && clean') b) :
    (r >>= f).Ensures ts Q := by
  unfold Ensures at h ⊢
  rw [run_bind]
  generalize r.run ts = step at h ⊢
  obtain ⟨e | a, rest, notes, moved⟩ := step
  · intro b hb
    cases hb
  · intro b hb
    obtain ⟨front, rfl, hf⟩ := h a rfl
    obtain ⟨front', hrest, hQ⟩ := hf b hb
    refine ⟨front ++ front', ?_, ?_⟩
    · rw [List.append_assoc]
      exact congrArg _ hrest
    · simpa [Step.after, isEmpty_append] using hQ

theorem map {r : Rule α} {f : α → β} {Q : List Token → List Token → Bool → β → Prop}
    (h : r.Ensures ts fun front rest clean a => Q front rest clean (f a)) :
    (f <$> r).Ensures ts Q := by
  refine bind (h.imp fun front rest clean a ha => pure ?_)
  simpa using ha

theorem note {n : Note} {Q : List Token → List Token → Bool → Unit → Prop}
    (h : Q [] ts false ()) : (note n).Ensures ts Q := fun _ _ => ⟨[], rfl, h⟩

theorem noteHere {c : Complaint} {Q : List Token → List Token → Bool → Unit → Prop}
    (h : Q [] ts false ()) : (noteHere c).Ensures ts Q := fun _ _ => ⟨[], rfl, h⟩

theorem peek {Q : List Token → List Token → Bool → Option Token → Prop}
    (h : Q [] ts true ts.head?) : peek?.Ensures ts Q := by
  intro b hb
  cases hb
  exact ⟨[], rfl, h⟩

theorem nextIs {m : Mark} {Q : List Token → List Token → Bool → Bool → Prop}
    (h : ∀ b, Q [] ts true b) : (nextIs m).Ensures ts Q := fun b _ => ⟨[], rfl, h b⟩

theorem skip {t : Token} {Q : List Token → List Token → Bool → Unit → Prop}
    (h : Q [t] ts true ()) : skip.Ensures (t :: ts) Q := fun _ _ => ⟨[t], rfl, h⟩

/-- A mark is accepted, or the next token has none of the marks. -/
theorem acceptAny {marks : List Mark} {Q : List Token → List Token → Bool → Option Token → Prop}
    (hsome : ∀ t rest, ts = t :: rest → ∀ m ∈ marks, t.kind = .mark m → Q [t] rest true (some t))
    (hnone : NotNext marks ts → Q [] ts true none) :
    (acceptAny marks).Ensures ts Q := by
  cases ts with
  | nil =>
    intro o ho
    cases ho
    refine ⟨[], rfl, hnone fun t ht => ?_⟩
    cases ht
  | cons t ts =>
    unfold Ensures
    rw [run_acceptAny_cons]
    split
    · rename_i hany
      intro o ho
      cases ho
      obtain ⟨m, hm, ht⟩ := List.any_eq_true.1 hany
      exact ⟨[t], rfl, hsome t ts rfl m hm (Token.is_eq_true_iff.1 ht)⟩
    · rename_i hany
      intro o ho
      cases ho
      refine ⟨[], rfl, hnone fun u hu m hm hk => hany ?_⟩
      cases hu
      exact List.any_eq_true.2 ⟨m, hm, Token.is_eq_true_iff.2 hk⟩

theorem accept {m : Mark} {Q : List Token → List Token → Bool → Option Token → Prop}
    (hsome : ∀ t rest, ts = t :: rest → t.kind = .mark m → Q [t] rest true (some t))
    (hnone : NotNext [m] ts → Q [] ts true none) :
    (accept m).Ensures ts Q := by
  refine acceptAny (fun t rest hts k hk ht => ?_) hnone
  cases List.mem_singleton.1 hk
  exact hsome t rest hts ht

/-- What is expected is read, or the rule fails. -/
theorem expect {m : Mark} {what : Expectation} {Q : List Token → List Token → Bool → Token → Prop}
    (h : ∀ t rest, t.kind = .mark m → Q [t] rest true t) : (expect m what).Ensures ts Q :=
  bind (accept (fun t rest _ ht => pure (h t rest ht)) fun _ => fail)

/-- The rest of a loop, behind what the rounds before have read. -/
theorem iterate_behind {round : σ → Rule (σ × Bool)} {I : List Token → Bool → σ → Prop}
    {Q : List Token → List Token → Bool → σ → Prop}
    (hround : ∀ ts front clean s, I front clean s →
      (round s).Ensures ts fun front' rest clean' p =>
        if p.2 = true ∧ front' ≠ [] then
          I (front ++ front') (clean && clean') p.1
        else
          Q (front ++ front') rest (clean && clean') p.1)
    (ts : List Token) {front : List Token} {clean : Bool} {s : σ} (hs : I front clean s) :
    (Rule.iterate round s).Ensures ts fun front' rest clean' a =>
      Q (front ++ front') rest (clean && clean') a := by
  have hr := hround ts front clean s hs
  have hm := (round s).moved_iff ts
  unfold Ensures at hr ⊢
  rw [run_iterate, iterateRun]
  split
  · intro a ha
    cases ha
  · rename_i s' more rest notes moved heq
    rw [heq] at hr hm
    obtain ⟨front', hts, hp⟩ := hr (s', more) rfl
    dsimp only at hts hm hp
    have hmoved : moved = true ↔ front' ≠ [] := by
      rw [hm, hts, List.length_append]
      cases front' <;> simp
    split
    · rename_i hgo
      intro a ha
      rw [if_pos ⟨hgo.1, hmoved.1 hgo.2⟩] at hp
      have : rest.length < ts.length := hm.1 hgo.2
      obtain ⟨front'', hrest, hQ⟩ := iterate_behind hround rest hp a ha
      refine ⟨front' ++ front'', ?_, ?_⟩
      · rw [List.append_assoc]
        exact hts.trans (congrArg _ hrest)
      · rw [List.append_assoc, Bool.and_assoc, ← isEmpty_append] at hQ
        exact hQ
    · rename_i hgo
      intro a ha
      cases ha
      rw [if_neg fun h => hgo ⟨h.1, hmoved.2 h.2⟩] at hp
      exact ⟨front', hts, hp⟩
termination_by ts.length

/-- A loop keeps what every round that goes on keeps, and ends as a last round does. A round that
reads nothing is a last one. -/
theorem iterate {round : σ → Rule (σ × Bool)} (I : List Token → Bool → σ → Prop)
    {Q : List Token → List Token → Bool → σ → Prop} {s : σ} (hs : I [] true s)
    (hround : ∀ ts front clean s, I front clean s →
      (round s).Ensures ts fun front' rest clean' p =>
        if p.2 = true ∧ front' ≠ [] then
          I (front ++ front') (clean && clean') p.1
        else
          Q (front ++ front') rest (clean && clean') p.1) :
    (iterate round s).Ensures ts Q := by
  have hloop := iterate_behind hround ts hs
  simp only [List.nil_append, Bool.true_and] at hloop
  exact hloop

end Ensures

/-! ### What a rule reads -/

/-- A rule reads a thing off a token list without complaint and leaves the given tokens. -/
def Reads (r : Rule α) (ts : List Token) (a : α) (rest : List Token) : Prop :=
  ∃ moved, r.run ts = ⟨.ok a, rest, [], moved⟩

namespace Reads

variable {rest : List Token} {t : Token} {m : Mark} {marks : List Mark}

theorem pure (a : α) : (pure a : Rule α).Reads ts a ts := ⟨false, rfl⟩

theorem eq_of_pure {a b : α} (h : (Pure.pure a : Rule α).Reads ts b rest) : b = a ∧ rest = ts := by
  obtain ⟨moved, hrun⟩ := h
  cases hrun
  exact ⟨rfl, rfl⟩

/-- Rules that read without a fault may be run one after another. -/
theorem bind {r : Rule α} {f : α → Rule β} {a : α} {b : β} {middle : List Token}
    (hr : r.Reads ts a middle) (hf : (f a).Reads middle b rest) : (r >>= f).Reads ts b rest := by
  obtain ⟨moved, hr⟩ := hr
  obtain ⟨moved', hf⟩ := hf
  refine ⟨moved || moved', ?_⟩
  rw [run_bind, hr]
  simp [hf, Step.after]

theorem map {r : Rule α} {a : α} (f : α → β) (hr : r.Reads ts a rest) :
    (f <$> r).Reads ts (f a) rest :=
  hr.bind (.pure (f a))

theorem peek : peek?.Reads ts ts.head? ts := ⟨false, rfl⟩

theorem skip : skip.Reads (t :: ts) () ts := ⟨true, rfl⟩

/-- A token with one of the marks is accepted. -/
theorem acceptAny_some (hm : m ∈ marks) (ht : t.kind = .mark m) :
    (acceptAny marks).Reads (t :: ts) (some t) ts := by
  refine ⟨true, ?_⟩
  rw [run_acceptAny_cons, if_pos (List.any_eq_true.2 ⟨m, hm, Token.is_eq_true_iff.2 ht⟩)]

/-- Other tokens are left where they are. -/
theorem acceptAny_none (h : NotNext marks ts) : (acceptAny marks).Reads ts none ts := by
  cases ts with
  | nil => exact ⟨false, rfl⟩
  | cons t ts =>
    refine ⟨false, ?_⟩
    rw [run_acceptAny_cons, if_neg fun hany => ?_]
    obtain ⟨m, hm, ht⟩ := List.any_eq_true.1 hany
    exact h t rfl m hm (Token.is_eq_true_iff.1 ht)

theorem accept_some (ht : t.kind = .mark m) : (accept m).Reads (t :: ts) (some t) ts :=
  acceptAny_some (List.mem_singleton_self m) ht

theorem accept_none (h : NotNext [m] ts) : (accept m).Reads ts none ts := acceptAny_none h

theorem expect {what : Expectation} (ht : t.kind = .mark m) :
    (expect m what).Reads (t :: ts) t ts :=
  (accept_some ht).bind (.pure t)

theorem nextIs_true (ht : t.kind = .mark m) : (nextIs m).Reads (t :: ts) true (t :: ts) := by
  refine ⟨false, ?_⟩
  simp [nextIs, ht]

theorem nextIs_false (h : NotNext [m] ts) : (nextIs m).Reads ts false ts := by
  refine ⟨false, ?_⟩
  cases ts with
  | nil => rfl
  | cons t ts =>
    have ht : t.is m = false := Bool.eq_false_iff.2 fun ht =>
      h t rfl m (List.mem_singleton_self m) (Token.is_eq_true_iff.1 ht)
    simp [nextIs, ht]

/-- A round that goes on, and the rounds behind it. -/
theorem iterate_more {round : σ → Rule (σ × Bool)} {s s' a : σ} {middle : List Token}
    (hround : (round s).Reads ts (s', true) middle) (hlength : middle.length < ts.length)
    (hrest : (iterate round s').Reads middle a rest) : (iterate round s).Reads ts a rest := by
  obtain ⟨moved, hround⟩ := hround
  obtain ⟨moved', hrest⟩ := hrest
  have hm := (round s).moved_iff ts
  rw [hround] at hm
  have hmoved : moved = true := hm.2 hlength
  refine ⟨moved || moved', ?_⟩
  rw [run_iterate, iterateRun]
  split
  · rename_i heq
    cases heq.symm.trans hround
  · rename_i heq
    cases heq.symm.trans hround
    rw [dif_pos ⟨rfl, hmoved⟩]
    rw [← run_iterate, hrest]
    rfl

/-- The last round of an iteration reads what is left of it. -/
theorem iterate_last {round : σ → Rule (σ × Bool)} {s s' : σ}
    (hround : (round s).Reads ts (s', false) rest) : (iterate round s).Reads ts s' rest := by
  obtain ⟨moved, hround⟩ := hround
  refine ⟨moved, ?_⟩
  rw [run_iterate, iterateRun]
  split
  · rename_i heq
    cases heq.symm.trans hround
  · rename_i heq
    cases heq.symm.trans hround
    rw [dif_neg (by simp)]

end Reads

end Rule

end Scriptlet
