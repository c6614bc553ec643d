import Piecemeal.Proofs.Adequacy
import Piecemeal.Proofs.Chunking
import Piecemeal.Proofs.EndOfStream

/-!
# Being told of the end and having known it

A parser that asks for input has one way on where it knows that the stream is over and another where
it is told so. Both come to the same. `Run.finish` answers every wait by the end, and what it makes
of a run on open input is what `Parser.read` says of the tokens there are, as on closed input: what
is found is a reading (`exists_read_of_finish`), and each reading is found with the next larger
budget (`exists_finish_of_read`).

So the outcomes of a run that is told of the end and of one that knew it from the start differ at
most in this, that the first has not been told because it did not ask. `ended_agrees_complete` says
so of parses and of runs.
-/

namespace Piecemeal

variable {ι : Type} {Γ : ι → Type} {τ α : Type}

/-! ## Readings of open input -/

/-- The outcome says what the reading does, and has left the record as it was. -/
inductive Reading.Tells (record : Option (Buffer τ)) : Reading τ α → Outcome τ α → Prop
  | success {s : Input τ} (a : α) (h : s.arrived = record) :
      Tells record (.success a s.remaining.toList) (.success s a)
  | failure {s : Input τ} (e : Failure) (h : s.arrived = record) :
      Tells record (.failure e s.remaining.toList) (.failure s e)

namespace Input

theorem outerRecord_of_nothing (s : Input τ) {after : Input τ} (h : after.arrived = some .empty) :
    s.outerRecord after = s.arrived := by
  simp only [outerRecord, h, Buffer.append_empty, Option.map_id']

theorem remaining_rewind_of_nothing (s : Input τ) {after : Input τ}
    (h : after.arrived = some .empty) : (s.rewind after).remaining = s.remaining := by
  simp only [rewind, h, Option.getD_some, Buffer.append_empty]

/-- Looking ahead gives back the tokens it started with. -/
theorem tells_rewind_success (s : Input τ) {after : Input τ} (h : after.arrived = some .empty)
    (a : α) :
    (Reading.success a s.remaining.toList).Tells s.arrived (.success (s.rewind after) a) := by
  have htells := Reading.Tells.success (s := s.rewind after) a (s.outerRecord_of_nothing h)
  rwa [s.remaining_rewind_of_nothing h] at htells

theorem tells_rewind_failure (s : Input τ) {after : Input τ} (h : after.arrived = some .empty)
    (e : Failure) :
    (Reading.failure e s.remaining.toList : Reading τ α).Tells s.arrived
      (.failure (s.rewind after) e) := by
  have htells := Reading.Tells.failure (α := α) (s := s.rewind after) e (s.outerRecord_of_nothing h)
  rwa [s.remaining_rewind_of_nothing h] at htells

end Input

namespace Parser

open Reading

theorem exists_read_of_finish {G : Rules Γ τ} {n : Nat} {p : Parser Γ τ α} {s : Input τ}
    {o : Outcome τ α} (h : (p.outcome G n s).finish = some o) :
    ∃ r, p.read G n s.remaining.toList = some r ∧ r.Tells s.arrived o := by
  induction n generalizing α s with
  | zero => cases h
  | succ n ih =>
    have under : ∀ {α : Type} {p : Parser Γ τ α} {o : Outcome τ α},
        (p.outcome G n s.checkpoint).finish = some o →
          ∃ r, p.read G n s.remaining.toList = some r ∧ r.Tells (some .empty) o := fun h => ih h
    cases p with
    | pure value =>
      cases h
      exact ⟨_, rfl, .success value rfl⟩
    | fail message =>
      cases h
      exact ⟨_, rfl, .failure _ rfl⟩
    | get =>
      cases h
      exact ⟨_, by rw [read, Buffer.ofList_toList], .success _ rfl⟩
    | put tokens =>
      cases h
      exact ⟨_, rfl, .success (s := { s with remaining := tokens }) () rfl⟩
    | demandInput =>
      rw [outcome_demandInput] at h
      split at h
      · cases h
        exact ⟨_, rfl, .failure _ rfl⟩
      · cases n with
        | zero => cases h
        | succ n =>
          cases h
          exact ⟨_, rfl, .failure (s := s.close) _ rfl⟩
    | wantInput =>
      rw [outcome_wantInput, Buffer.isEmpty_eq] at h
      split at h
      · next hsome =>
        cases h
        exact ⟨_, by rw [read, hsome], .success true rfl⟩
      · next hnone =>
        have hread : wantInput.read G (n + 1) s.remaining.toList =
            some (.success false s.remaining.toList) := by
          rw [read, Bool.eq_false_iff.mpr hnone]
        split at h
        · cases h
          exact ⟨_, hread, .success false rfl⟩
        · cases n with
          | zero => cases h
          | succ n =>
            cases h
            exact ⟨_, hread, .success (s := s.close) false rfl⟩
    | bind p f =>
      rw [outcome_bind, Run.finish_bind] at h
      obtain ⟨first, hfirst, h⟩ := Option.bind_eq_some_iff.mp h
      obtain ⟨r, hr, htells⟩ := ih hfirst
      cases htells with
      | failure e hrecord =>
        cases h
        exact ⟨_, by rw [read, hr]; rfl, .failure e hrecord⟩
      | success b hrecord =>
        obtain ⟨r', hr', htells'⟩ := ih h
        rw [hrecord] at htells'
        exact ⟨r', by rw [read, hr]; exact hr', htells'⟩
    | alt p q =>
      rw [outcome_alt, Run.finish_bind] at h
      obtain ⟨first, hfirst, h⟩ := Option.bind_eq_some_iff.mp h
      obtain ⟨r, hr, htells⟩ := under hfirst
      cases htells with
      | failure e hnothing =>
        obtain ⟨r', hr', htells'⟩ := ih h
        rw [s.remaining_rewind_of_nothing hnothing] at hr'
        rw [Input.rewind, s.outerRecord_of_nothing hnothing] at htells'
        exact ⟨r', by rw [read, hr]; exact hr', htells'⟩
      | @success s' a hnothing =>
        cases h
        refine ⟨_, by rw [read, hr]; rfl, ?_⟩
        exact .success (s := s.keep s') a (s.outerRecord_of_nothing hnothing)
    | lookAhead p =>
      rw [outcome_lookAhead, Run.finish_bind] at h
      obtain ⟨first, hfirst, h⟩ := Option.bind_eq_some_iff.mp h
      obtain ⟨r, hr, htells⟩ := under hfirst
      cases htells with
      | failure e hnothing =>
        cases h
        exact ⟨_, by rw [read, hr]; rfl, s.tells_rewind_failure hnothing e⟩
      | success a hnothing =>
        cases h
        exact ⟨_, by rw [read, hr]; rfl, s.tells_rewind_success hnothing a⟩
    | label p name =>
      rw [outcome_label, Run.finish_bind] at h
      obtain ⟨first, hfirst, h⟩ := Option.bind_eq_some_iff.mp h
      obtain ⟨r, hr, htells⟩ := ih hfirst
      cases htells with
      | failure e hrecord =>
        cases h
        exact ⟨_, by rw [read, hr]; rfl, .failure _ hrecord⟩
      | success a hrecord =>
        cases h
        exact ⟨_, by rw [read, hr]; rfl, .success a hrecord⟩
    | loop start body =>
      rw [outcome_loop, Run.finish_bind] at h
      obtain ⟨first, hfirst, h⟩ := Option.bind_eq_some_iff.mp h
      obtain ⟨r, hr, htells⟩ := ih hfirst
      cases htells with
      | failure e hrecord =>
        cases h
        exact ⟨_, by rw [read, hr]; rfl, .failure e hrecord⟩
      | success turn hrecord =>
        cases turn with
        | inl next =>
          obtain ⟨r', hr', htells'⟩ := ih h
          rw [hrecord] at htells'
          exact ⟨r', by rw [read, hr]; exact hr', htells'⟩
        | inr a =>
          cases h
          exact ⟨_, by rw [read, hr]; rfl, .success a hrecord⟩
    | rule i => exact ih h
    | total p => exact ih h

theorem exists_finish_of_read {G : Rules Γ τ} {n : Nat} {p : Parser Γ τ α} {s : Input τ}
    {r : Reading τ α} (h : p.read G n s.remaining.toList = some r) :
    ∃ o, (p.outcome G (n + 1) s).finish = some o ∧ r.Tells s.arrived o := by
  induction n generalizing α s r with
  | zero => cases h
  | succ n ih =>
    have under : ∀ {α : Type} {p : Parser Γ τ α} {r : Reading τ α},
        p.read G n s.remaining.toList = some r →
          ∃ o, (p.outcome G (n + 1) s.checkpoint).finish = some o ∧ r.Tells (some .empty) o :=
      fun h => ih (s := s.checkpoint) h
    cases p with
    | pure value =>
      cases h
      exact ⟨_, rfl, .success value rfl⟩
    | fail message =>
      cases h
      exact ⟨_, rfl, .failure _ rfl⟩
    | get =>
      rw [read, Buffer.ofList_toList] at h
      cases h
      exact ⟨_, rfl, .success _ rfl⟩
    | put tokens =>
      cases h
      exact ⟨_, rfl, .success (s := { s with remaining := tokens }) () rfl⟩
    | demandInput =>
      cases h
      rw [outcome_demandInput]
      split
      · exact ⟨_, rfl, .failure _ rfl⟩
      · exact ⟨_, rfl, .failure (s := s.close) _ rfl⟩
    | wantInput =>
      cases h
      rw [outcome_wantInput, Buffer.isEmpty_eq]
      split
      · next hsome =>
        rw [hsome]
        exact ⟨_, rfl, .success true rfl⟩
      · next hnone =>
        rw [Bool.eq_false_iff.mpr hnone]
        split
        · exact ⟨_, rfl, .success false rfl⟩
        · exact ⟨_, rfl, .success (s := s.close) false rfl⟩
    | bind p f =>
      rw [outcome_bind, Run.finish_bind]
      obtain ⟨first, hfirst, h⟩ := Option.bind_eq_some_iff.mp h
      obtain ⟨o, ho, htells⟩ := ih hfirst
      rw [ho]
      cases htells with
      | failure e hrecord =>
        cases h
        exact ⟨_, rfl, .failure e hrecord⟩
      | success b hrecord =>
        obtain ⟨o', ho', htells'⟩ := ih h
        exact ⟨o', ho', hrecord ▸ htells'⟩
    | alt p q =>
      rw [outcome_alt, Run.finish_bind]
      obtain ⟨first, hfirst, h⟩ := Option.bind_eq_some_iff.mp h
      obtain ⟨o, ho, htells⟩ := under hfirst
      rw [ho]
      cases htells with
      | @failure s' e hnothing =>
        have hq : q.read G n (s.rewind s').remaining.toList = some r := by
          rw [s.remaining_rewind_of_nothing hnothing]
          exact h
        obtain ⟨o', ho', htells'⟩ := ih hq
        exact ⟨o', ho', s.outerRecord_of_nothing hnothing ▸ htells'⟩
      | @success s' a hnothing =>
        cases h
        exact ⟨_, rfl, .success (s := s.keep s') a (s.outerRecord_of_nothing hnothing)⟩
    | lookAhead p =>
      rw [outcome_lookAhead, Run.finish_bind]
      obtain ⟨first, hfirst, h⟩ := Option.map_eq_some_iff.mp h
      obtain ⟨o, ho, htells⟩ := under hfirst
      rw [ho]
      cases htells with
      | @failure s' e hnothing =>
        cases h
        exact ⟨_, rfl, s.tells_rewind_failure hnothing e⟩
      | @success s' a hnothing =>
        cases h
        exact ⟨_, rfl, s.tells_rewind_success hnothing a⟩
    | label p name =>
      rw [outcome_label, Run.finish_bind]
      obtain ⟨first, hfirst, h⟩ := Option.map_eq_some_iff.mp h
      obtain ⟨o, ho, htells⟩ := ih hfirst
      rw [ho]
      cases htells with
      | failure e hrecord =>
        cases h
        exact ⟨_, rfl, .failure _ hrecord⟩
      | success a hrecord =>
        cases h
        exact ⟨_, rfl, .success a hrecord⟩
    | loop start body =>
      rw [outcome_loop, Run.finish_bind]
      obtain ⟨first, hfirst, h⟩ := Option.bind_eq_some_iff.mp h
      obtain ⟨o, ho, htells⟩ := ih hfirst
      rw [ho]
      cases htells with
      | failure e hrecord =>
        cases h
        exact ⟨_, rfl, .failure e hrecord⟩
      | success turn hrecord =>
        cases turn with
        | inl next =>
          obtain ⟨o', ho', htells'⟩ := ih h
          exact ⟨o', ho', hrecord ▸ htells'⟩
        | inr a =>
          cases h
          exact ⟨_, rfl, .success a hrecord⟩
    | rule i => exact ih h
    | total p => exact ih h

end Parser

/-! ## Outcomes -/

namespace Outcome

/-- The same outcome, with the end of the stream known. -/
def close : Outcome τ α → Outcome τ α
  | failure s reason => failure s.close reason
  | success s a => success s.close a

theorem verdict_close (o : Outcome τ α) : o.close.verdict = o.verdict := by
  cases o <;> rfl

theorem close_of_closed {o : Outcome τ α} (h : o.input.closed = true) : o.close = o := by
  have hinput : o.input.close = o.input := by
    ext1
    · rfl
    · exact h.symm
    · rfl
  cases o with
  | failure s reason => exact congrArg (failure · reason) hinput
  | success s a => exact congrArg (success · a) hinput

end Outcome

theorem Reading.Tells.outcome_eq {s : Input τ} {r : Reading τ α} {o : Outcome τ α}
    (h : r.Tells s.arrived o) : r.outcome s.close = o.close := by
  cases h with
  | success a hrecord =>
    simp only [outcome, Outcome.close, Input.close, Buffer.ofList_toList, hrecord]
  | failure e hrecord =>
    simp only [outcome, Outcome.close, Input.close, Buffer.ofList_toList, hrecord]

theorem Stage.ofAnswer_eq_done {ρ : Type} {answer : Option ρ} {a : ρ}
    (h : (ofAnswer answer : Stage τ ρ) = .done a) : answer = some a := by
  cases answer with
  | none => cases h
  | some a' => exact congrArg some (Stage.done.inj h)

namespace Run

variable {ρ : Type}

theorem finish_of_settle_done {r : Run τ ρ} {a : ρ} (h : r.settle = .done a) :
    r.finish = some a := by
  induction r with
  | done a' =>
    cases h
    rfl
  | later next ih => exact ih () h
  | await input onEnd onChunk => cases h
  | exhausted => cases h

theorem settle_of_finish {r : Run τ ρ} {a : ρ} (h : r.finish = some a) :
    r.settle = .done a ∨ ∃ input onEnd onChunk, r.settle = .await input onEnd onChunk := by
  induction r with
  | done a' =>
    cases h
    exact .inl rfl
  | later next ih => exact ih () h
  | await input onEnd onChunk => exact .inr ⟨input, onEnd, onChunk, rfl⟩
  | exhausted => cases h

theorem of_settle_await {r : Run τ ρ} {input : Input τ} {onEnd : Unit → Run τ ρ}
    {onChunk : List τ → Run τ ρ} (h : r.settle = .await input onEnd onChunk) :
    r.Reaches [] (.await input onEnd onChunk) ∧ r.finish = (onEnd ()).finish := by
  induction r with
  | done a => cases h
  | later next ih =>
    obtain ⟨hreaches, hfinish⟩ := ih () h
    exact ⟨.later hreaches, hfinish⟩
  | await input onEnd onChunk =>
    cases h
    exact ⟨.here _, rfl⟩
  | exhausted => cases h

/-- A run that waits does so with a larger budget. -/
theorem Below.settle_await {r r' : Run τ ρ} (hle : r.Below r') {input : Input τ}
    {onEnd : Unit → Run τ ρ} {onChunk : List τ → Run τ ρ}
    (h : r.settle = .await input onEnd onChunk) :
    ∃ onEnd' onChunk', r'.settle = .await input onEnd' onChunk' := by
  induction hle with
  | exhausted r => cases h
  | done a => cases h
  | later _ ih => exact ih h
  | await _ _ =>
    cases h
    exact ⟨_, _, rfl⟩

theorem exists_reaches_of_finish {r : Run τ ρ} {a : ρ} (h : r.finish = some a) :
    ∃ replies, r.Reaches replies (.done a) := by
  induction r with
  | done a' =>
    cases h
    exact ⟨[], .here _⟩
  | later next ih =>
    obtain ⟨replies, hr⟩ := ih () h
    exact ⟨replies, .later hr⟩
  | await input onEnd onChunk ihEnd _ =>
    obtain ⟨replies, hr⟩ := ihEnd () h
    exact ⟨.ended :: replies, .ended hr⟩
  | exhausted => cases h

end Run

namespace Parser

variable {G : Rules Γ τ} {n : Nat} {p : Parser Γ τ α} {s : Input τ} {o : Outcome τ α}

/-- Where a run comes to an outcome if told of the end, the run that knows of it does so too. -/
theorem finish_close (h : (p.outcome G n s).finish = some o) :
    (p.outcome G n s.close).finish = some o.close := by
  obtain ⟨r, hr, htells⟩ := exists_read_of_finish h
  rw [finish_outcome G n p rfl, ← htells.outcome_eq]
  exact congrArg (Option.map _) hr

theorem exists_finish_of_close (h : (p.outcome G n s.close).finish = some o) :
    ∃ o', (p.outcome G (n + 1) s).finish = some o' ∧ o'.close = o := by
  rw [finish_outcome G n p rfl] at h
  obtain ⟨r, hr, ho⟩ := Option.map_eq_some_iff.mp h
  obtain ⟨o', ho', htells⟩ := exists_finish_of_read (s := s) hr
  exact ⟨o', ho', htells.outcome_eq.symm.trans ho⟩

/-- A run of closed input settles with what it comes to. -/
theorem settle_of_closed (hs : s.closed = true) :
    (p.outcome G n s).settle = .ofAnswer (p.outcome G n s).finish := by
  have hquiet : (p.outcome G n s).Quiet := by
    apply quiet_of_reaches (.here _)
    rw [hs]
    rfl
  rw [← Run.settleWith_caller _ 0, hquiet.settleWith]

/-- A waiting run that is told of the end settles, and its outcome has the end known. -/
theorem settle_onEnd {input : Input τ} {onEnd : Unit → Run τ (Outcome τ α)}
    {onChunk : List τ → Run τ (Outcome τ α)}
    (h : (p.outcome G n s).settle = .await input onEnd onChunk) :
    (onEnd ()).settle = .ofAnswer (p.outcome G n s).finish ∧
      ∀ o, (p.outcome G n s).finish = some o → o.close = o := by
  obtain ⟨hwaits, hfinish⟩ := Run.of_settle_await h
  have hended : (p.outcome G n s).Reaches [.ended] (onEnd ()) := hwaits.trans (.ended (.here _))
  have hreported : (s.closed || endReported [(.ended : Reply τ)]) = true := by
    rw [endReported_cons, Reply.isEnd, Bool.true_or, Bool.or_true]
  constructor
  · rw [hfinish, ← Run.settleWith_caller _ 0, (quiet_of_reaches hended hreported).settleWith]
  · intro o ho
    rw [hfinish] at ho
    obtain ⟨replies, hr⟩ := Run.exists_reaches_of_finish ho
    have hclosed := (recorded_of_reaches (hended.trans hr)).closed
    apply Outcome.close_of_closed
    rw [hclosed]
    simp [Input.after, Reply.isEnd]

theorem finish_parse (G : Rules Γ τ) (n : Nat) (p : Parser Γ τ α) (tokens : List τ) :
    (p.parse G n tokens).finish =
      (p.outcome G n (.ofList tokens false)).finish.map Outcome.verdict := by
  rw [parse_eq, Result.finish_settle, Run.finish_bind]
  cases (p.outcome G n (.ofList tokens false)).finish <;> rfl

theorem parseAll_eq_finish (G : Rules Γ τ) (n : Nat) (p : Parser Γ τ α) (tokens : List τ) :
    p.parseAll G n tokens =
      (p.outcome G n (Input.ofList tokens false).close).finish.map Outcome.verdict := by
  rw [parseAll_eq, Result.finish_settle, Run.finish_bind]
  change _ = (p.outcome G n (.ofList tokens true)).finish.map Outcome.verdict
  cases (p.outcome G n (.ofList tokens true)).finish <;> rfl

/-- **Being told of the end is having known it.** Finishing a parse of the first tokens of a stream
comes to a verdict if and only if parsing all of them at once does, and to the same one. A run in
any state that waits and is told of the end settles if and only if the run in that state with the
end known settles, and with the same outcome. A run that does not wait settles if and only if the
run with the end known does, and leaves the same outcome, except that it has not been told. -/
theorem ended_agrees_complete (G : Rules Γ τ) (p : Parser Γ τ α) :
    (∀ tokens verdict, (∃ n, (p.parse G n tokens).finish = some verdict) ↔
      ∃ n, p.parseAll G n tokens = some verdict) ∧
    (∀ tokens n n' verdict verdict', (p.parse G n tokens).finish = some verdict →
      p.parseAll G n' tokens = some verdict' → verdict = verdict') ∧
    ∀ s : Input τ,
      (∀ n input onEnd onChunk, (p.outcome G n s).settle = .await input onEnd onChunk → ∀ o,
        (∃ m onEnd' onChunk', (p.outcome G m s).settle = .await input onEnd' onChunk' ∧
            (onEnd' ()).settle = .done o) ↔
          ∃ m, (p.outcome G m s.close).settle = .done o) ∧
      (∀ n o, (p.outcome G n s).settle = .done o →
        (p.outcome G n s.close).settle = .done o.close) ∧
      ∀ m o, (p.outcome G m s.close).settle = .done o → ∃ n,
        (∃ o', (p.outcome G n s).settle = .done o' ∧ o'.close = o) ∨
          ∃ input onEnd onChunk, (p.outcome G n s).settle = .await input onEnd onChunk := by
  have hverdict : ∀ {tokens n verdict}, (p.parse G n tokens).finish = some verdict →
      p.parseAll G n tokens = some verdict := by
    intro tokens n verdict h
    rw [finish_parse] at h
    obtain ⟨o, ho, rfl⟩ := Option.map_eq_some_iff.mp h
    rw [parseAll_eq_finish, finish_close ho, Option.map_some, o.verdict_close]
  have hclosed : ∀ {s : Input τ} {n o}, (p.outcome G n s.close).settle =
      .done o ↔ (p.outcome G n s.close).finish = some o := by
    intro s n o
    rw [settle_of_closed rfl]
    exact ⟨Stage.ofAnswer_eq_done, congrArg Stage.ofAnswer⟩
  refine ⟨?_, ?_, ?_⟩
  · intro tokens verdict
    constructor
    · intro ⟨n, h⟩
      exact ⟨n, hverdict h⟩
    · intro ⟨n, h⟩
      rw [parseAll_eq_finish] at h
      obtain ⟨o, ho, rfl⟩ := Option.map_eq_some_iff.mp h
      obtain ⟨o', ho', rfl⟩ := exists_finish_of_close ho
      exact ⟨n + 1, by rw [finish_parse, ho', Option.map_some, o'.verdict_close]⟩
  · intro tokens n n' verdict verdict' h h'
    have hshown := (exists_parseAll_iff G p tokens verdict).mp ⟨n, hverdict h⟩
    have hshown' := (exists_parseAll_iff G p tokens verdict').mp ⟨n', h'⟩
    exact Verdict.showing_injective (hshown.functional hshown')
  · intro s
    refine ⟨?_, ?_, ?_⟩
    · intro n input onEnd onChunk h o
      constructor
      · intro ⟨m, onEnd', onChunk', hwaits, hsettled⟩
        obtain ⟨hanswer, hknown⟩ := settle_onEnd hwaits
        have hfinish := Stage.ofAnswer_eq_done (hanswer.symm.trans hsettled)
        have hcomplete := finish_close hfinish
        rw [hknown o hfinish] at hcomplete
        exact ⟨m, hclosed.mpr hcomplete⟩
      · intro ⟨m, hm⟩
        obtain ⟨o', ho', hsame⟩ := exists_finish_of_close (hclosed.mp hm)
        -- with a budget large enough for both, the run waits and comes to the outcome
        obtain ⟨onEnd', onChunk', hwaits⟩ :=
          (below_outcome G p s (Nat.le_max_left n (m + 1))).settle_await h
        replace ho' := (below_outcome G p s (Nat.le_max_right n (m + 1))).finish ho'
        obtain ⟨hanswer, hknown⟩ := settle_onEnd hwaits
        refine ⟨_, onEnd', onChunk', hwaits, ?_⟩
        rw [hanswer, ho', ← hsame, hknown o' ho']
        rfl
    · intro n o h
      exact hclosed.mpr (finish_close (Run.finish_of_settle_done h))
    · intro m o h
      obtain ⟨o', ho', hsame⟩ := exists_finish_of_close (hclosed.mp h)
      rcases Run.settle_of_finish ho' with hdone | hwaits
      · exact ⟨m + 1, .inl ⟨o', hdone, hsame⟩⟩
      · exact ⟨m + 1, .inr hwaits⟩

/-- A one at the end of the stream, or else all the rest of it. -/
def lastOrRest : Parser Empty.elim Nat (List (List Nat)) :=
  (((satisfy (· == 1)).andThen endOfInput).andThen (pure [])).alt takeRest

/-- With a one, the run waits inside the first alternative and succeeds there once it is told of the
end; with a two behind it, it waits in the second one. -/
theorem ended_agrees_complete_lastOrRest :
    (∃ input onEnd onChunk,
      (lastOrRest.outcome nofun 20 ⟨.ofList [1], false, some (.ofList [7])⟩).settle =
        .await input onEnd onChunk ∧
      ∃ n, (lastOrRest.outcome nofun n ⟨.ofList [1], true, some (.ofList [7])⟩).settle =
        .done (.success ⟨.empty, true, some (.ofList [7])⟩ [])) ∧
    ∃ n, lastOrRest.parseAll nofun n [1, 2] = some (.accepted [[1, 2]] .empty) := by
  obtain ⟨hverdict, -, hruns⟩ := ended_agrees_complete nofun lastOrRest
  obtain ⟨input, onEnd, onChunk, hwaits, hended⟩ : ∃ input onEnd onChunk,
      (lastOrRest.outcome nofun 20 ⟨.ofList [1], false, some (.ofList [7])⟩).settle =
        .await input onEnd onChunk ∧
      (onEnd ()).settle = .done (.success ⟨.empty, true, some (.ofList [7])⟩ []) :=
    ⟨_, _, _, rfl, rfl⟩
  have hfinish : (lastOrRest.parse nofun 20 [1, 2]).finish =
      some (.accepted [[1, 2]] .empty) := rfl
  refine ⟨⟨input, onEnd, onChunk, hwaits, ?_⟩, (hverdict _ _).mp ⟨20, hfinish⟩⟩
  exact ((hruns _).1 20 input onEnd onChunk hwaits _).mp ⟨20, onEnd, onChunk, hwaits, hended⟩

end Parser

end Piecemeal
