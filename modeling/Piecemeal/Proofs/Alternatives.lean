import Piecemeal.Proofs.Budget
import Piecemeal.Proofs.Scanning

/-!
# Regrouping alternatives

Alternatives open a checkpoint for each branch but the last, so the two ways of grouping three of
them nest their checkpoints differently and hand the records on in a different order. Nothing of
this shows. `p.Presents G s replies sight` is what shows of a parser: started in `s` and answered by
`replies`, it is over with an outcome, or it waits with certain tokens remaining. That is determined
by the state and the replies (`Presents.unique`).

* The record that a parser finds has no influence on what it does, only on the record it leaves
  (`parallel_outcome`, `Presents.of_coincide`).
* So `p.alt q` can be described without checkpoints (`presents_alt_iff`): it is `p`, unless `p`
  fails, and then it is `q` on the input as the replies to `p` leave it.
* From that description alone, alternatives are associative (`settleAlike_alt_assoc`), and a choice
  tries its branches one after the other (`presents_choice_iff`).
-/

namespace Piecemeal

variable {ι : Type} {Γ : ι → Type} {τ α ρ σ : Type}

/-! ## The record has no influence -/

theorem Input.Coincide.symm {s s' : Input τ} (h : s.Coincide s') : s'.Coincide s :=
  ⟨h.1.symm, h.2.symm⟩

theorem Input.coincide_checkpoint (s : Input τ) : s.Coincide s.checkpoint := ⟨rfl, rfl⟩

theorem Input.Coincide.checkpoint_eq {s s' : Input τ} (h : s.Coincide s') :
    s.checkpoint = s'.checkpoint := by
  ext1
  · exact h.1
  · exact h.2
  · rfl

theorem Input.Coincide.close {s s' : Input τ} (h : s.Coincide s') : s.close.Coincide s'.close :=
  ⟨h.1, rfl⟩

/-- Both outcomes are the same but for the record in their states. -/
inductive Outcome.Coincide : Outcome τ α → Outcome τ α → Prop
  | success {s s' : Input τ} (h : s.Coincide s') (a : α) : Coincide (.success s a) (.success s' a)
  | failure {s s' : Input τ} (h : s.Coincide s') (e : Failure) :
      Coincide (.failure s e) (.failure s' e)

namespace Run

/-- Both runs go the same way. They wait with the same tokens, and their answers are related by
`Q`. -/
inductive Parallel (Q : ρ → ρ → Prop) : Run τ ρ → Run τ ρ → Prop
  | exhausted : Parallel Q .exhausted .exhausted
  | done {a a' : ρ} (h : Q a a') : Parallel Q (.done a) (.done a')
  | later {next next' : Unit → Run τ ρ} (h : Parallel Q (next ()) (next' ())) :
      Parallel Q (.later next) (.later next')
  | await {input input' : Input τ} {onEnd onEnd' : Unit → Run τ ρ}
      {onChunk onChunk' : List τ → Run τ ρ} (h : input.Coincide input')
      (hend : Parallel Q (onEnd ()) (onEnd' ()))
      (hchunk : ∀ tokens, Parallel Q (onChunk tokens) (onChunk' tokens)) :
      Parallel Q (.await input onEnd onChunk) (.await input' onEnd' onChunk')

theorem parallel_refl (r : Run τ ρ) : r.Parallel Eq r := by
  induction r with
  | done a => exact .done rfl
  | later next ih => exact .later (ih ())
  | await input onEnd onChunk ihEnd ihChunk => exact .await ⟨rfl, rfl⟩ (ihEnd ()) ihChunk
  | exhausted => exact .exhausted

theorem Parallel.bind {Q : ρ → ρ → Prop} {R : σ → σ → Prop} {r r' : Run τ ρ} {f f' : ρ → Run τ σ}
    (h : r.Parallel Q r') (hf : ∀ a a', Q a a' → (f a).Parallel R (f' a')) :
    (r.bind f).Parallel R (r'.bind f') := by
  induction h with
  | exhausted => exact .exhausted
  | done h => exact hf _ _ h
  | later _ ih => exact .later ih
  | await h _ _ ihEnd ihChunk => exact .await h ihEnd ihChunk

/-- What one step of a run can do, a related run can do too. -/
structure Simulation (S : Run τ ρ → Run τ ρ → Prop) : Prop where
  later : ∀ {next r'}, S (.later next) r' → ∃ next', r' = .later next' ∧ S (next ()) (next' ())
  await : ∀ {input onEnd onChunk r'}, S (.await input onEnd onChunk) r' →
    ∃ input' onEnd' onChunk', r' = .await input' onEnd' onChunk' ∧
      S (onEnd ()) (onEnd' ()) ∧ ∀ tokens, S (onChunk tokens) (onChunk' tokens)

theorem Simulation.reaches {S : Run τ ρ → Run τ ρ → Prop} (hS : Simulation S) {r r' n : Run τ ρ}
    {replies : List (Reply τ)} (h : S r r') (hr : r.Reaches replies n) :
    ∃ n', r'.Reaches replies n' ∧ S n n' := by
  induction hr generalizing r' with
  | here r => exact ⟨r', .here r', h⟩
  | later _ ih =>
    obtain ⟨next', rfl, hnext⟩ := hS.later h
    obtain ⟨n', hr', hn⟩ := ih hnext
    exact ⟨n', .later hr', hn⟩
  | ended _ ih =>
    obtain ⟨input', onEnd', onChunk', rfl, hend, -⟩ := hS.await h
    obtain ⟨n', hr', hn⟩ := ih hend
    exact ⟨n', .ended hr', hn⟩
  | chunk tokens _ ih =>
    obtain ⟨input', onEnd', onChunk', rfl, -, hchunk⟩ := hS.await h
    obtain ⟨n', hr', hn⟩ := ih (hchunk tokens)
    exact ⟨n', .chunk tokens hr', hn⟩
  | handBack _ ih =>
    obtain ⟨n', hr', hn⟩ := ih h
    obtain ⟨input', onEnd', onChunk', rfl, -, -⟩ := hS.await h
    exact ⟨n', .handBack hr', hn⟩

theorem simulation_parallel (Q : ρ → ρ → Prop) : Simulation (Parallel (τ := τ) Q) where
  later h := by
    cases h with
    | later h => exact ⟨_, rfl, h⟩
  await h := by
    cases h with
    | await _ hend hchunk => exact ⟨_, _, _, rfl, hend, hchunk⟩

theorem simulation_below : Simulation (Below (τ := τ) (ρ := ρ)) where
  later h := by
    cases h with
    | later h => exact ⟨_, rfl, h⟩
  await h := by
    cases h with
    | await hend hchunk => exact ⟨_, _, _, rfl, hend, hchunk⟩

end Run

open Run in
theorem parallel_request {Q : ρ → ρ → Prop} {s s' : Input τ}
    {onEnd onEnd' onChunk onChunk' : Input τ → Run τ ρ} (h : s.Coincide s')
    (hend : ∀ i i', i.Coincide i' → (onEnd i).Parallel Q (onEnd' i'))
    (hchunk : ∀ i i', i.Coincide i' → (onChunk i).Parallel Q (onChunk' i')) (budget : Nat) :
    (request s onEnd onChunk budget).Parallel Q (request s' onEnd' onChunk' budget) := by
  induction budget with
  | zero => exact .exhausted
  | succ budget ih =>
    refine .await h (.later (hend _ _ h.close)) fun tokens => ?_
    by_cases hne : tokens = []
    · subst hne
      exact .later ih
    · simp only [s.receive?_of_ne_nil hne, s'.receive?_of_ne_nil hne]
      refine .later (hchunk _ _ ⟨?_, h.2⟩)
      rw [h.1]

namespace Parser

open Run in
/-- From inputs that differ in the record only, a parser does the same. -/
theorem parallel_outcome (G : Rules Γ τ) (budget : Nat) (p : Parser Γ τ α) {s s' : Input τ}
    (h : s.Coincide s') :
    (p.outcome G budget s).Parallel Outcome.Coincide (p.outcome G budget s') := by
  induction budget generalizing α s s' with
  | zero => exact .exhausted
  | succ budget ih =>
    cases p with
    | pure value => exact .later (.done (.success h value))
    | fail message => exact .later (.done (.failure h _))
    | get =>
      rw [outcome_get, outcome_get, h.1]
      exact .later (.done (.success h _))
    | put tokens =>
      refine .later (.done (.success ?_ ()))
      exact ⟨rfl, h.2⟩
    | demandInput =>
      rw [outcome_demandInput, outcome_demandInput, h.2]
      split
      · exact .later (.done (.failure h _))
      · refine parallel_request h ?_ ?_ budget
        · exact fun i i' hi => .done (.failure hi _)
        · exact fun i i' hi => .done (.success hi ())
    | wantInput =>
      rw [outcome_wantInput, outcome_wantInput, h.1, h.2]
      split
      · exact .later (.done (.success h true))
      · split
        · exact .later (.done (.success h false))
        · refine parallel_request h ?_ ?_ budget
          · exact fun i i' hi => .done (.success hi false)
          · exact fun i i' hi => .done (.success hi true)
    | bind p f =>
      rw [outcome_bind, outcome_bind]
      refine (ih p h).bind fun o o' ho => ?_
      cases ho with
      | failure h e => exact .done (.failure h e)
      | success h b => exact .later (ih (f b) h)
    | alt p q =>
      -- from a checkpoint there is no difference at all
      rw [outcome_alt, outcome_alt, h.checkpoint_eq]
      refine (parallel_refl _).bind fun o o' ho => ?_
      subst ho
      cases o with
      | failure i e =>
        refine .later (ih q ⟨?_, ?_⟩)
        · simp only [Input.rewind, h.1]
        · simp only [Input.rewind, h.2]
      | success i a =>
        refine .later (.done (.success ?_ a))
        exact ⟨rfl, rfl⟩
    | lookAhead p =>
      rw [outcome_lookAhead, outcome_lookAhead, h.checkpoint_eq]
      refine (parallel_refl _).bind fun o o' ho => ?_
      subst ho
      have hback : ∀ i : Input τ, (s.rewind i).Coincide (s'.rewind i) := by
        intro i
        simp only [Input.Coincide, Input.rewind, h.1, h.2, and_self]
      cases o with
      | failure i e => exact .later (.done (.failure (hback i) e))
      | success i a => exact .later (.done (.success (hback i) a))
    | label p name =>
      rw [outcome_label, outcome_label]
      refine (ih p h).bind fun o o' ho => ?_
      cases ho with
      | failure h e => exact .later (.done (.failure h _))
      | success h a => exact .done (.success h a)
    | loop start body =>
      rw [outcome_loop, outcome_loop]
      refine (ih (body start) h).bind fun o o' ho => ?_
      cases ho with
      | failure h e => exact .done (.failure h e)
      | success h turn =>
        cases turn with
        | inl next => exact .later (ih (.loop next body) h)
        | inr a => exact .later (.done (.success h a))
    | rule i => exact .later (ih (G i) h)
    | total p => exact ih p h

end Parser

/-! ## What shows of a run -/

/-- What shows of a run that has settled: its outcome, or the tokens with which it waits and whether
it knows of the end. -/
inductive Sight (τ α : Type)
  | answer (o : Outcome τ α)
  | waits (remaining : Buffer τ) (closed : Bool)

def Outcome.onRecord (record : Option (Buffer τ)) : Outcome τ α → Outcome τ α
  | failure s e => failure { s with arrived := record } e
  | success s a => success { s with arrived := record } a

/-- The same, with another record where it is an outcome. -/
def Sight.onRecord (record : Option (Buffer τ)) : Sight τ α → Sight τ α
  | answer o => answer (o.onRecord record)
  | waits remaining closed => waits remaining closed

namespace Run

def sight? : Run τ (Outcome τ α) → Option (Sight τ α)
  | done o => some (.answer o)
  | await input _ _ => some (.waits input.remaining input.closed)
  | later _ | exhausted => none

theorem Below.sight? {r r' : Run τ (Outcome τ α)} {sight : Sight τ α} (h : r.Below r')
    (hr : r.sight? = some sight) : r'.sight? = some sight := by
  cases h with
  | exhausted => cases hr
  | done => exact hr
  | later => cases hr
  | await => exact hr

/-- The replies determine what shows. -/
theorem Reaches.sight_unique {r n n' : Run τ (Outcome τ α)} {replies : List (Reply τ)}
    {sight sight' : Sight τ α} (h : r.Reaches replies n) (h' : r.Reaches replies n')
    (hn : n.sight? = some sight) (hn' : n'.sight? = some sight') : sight = sight' := by
  induction h with
  | here r =>
    cases h' with
    | here => exact Option.some.inj (hn.symm.trans hn')
    | later => cases hn
  | later _ ih =>
    cases h' with
    | here => cases hn'
    | later h' => exact ih h' hn
  | ended _ ih =>
    cases h' with
    | ended h' => exact ih h' hn
  | chunk tokens _ ih =>
    cases h' with
    | chunk _ h' => exact ih h' hn
  | handBack _ ih =>
    cases h' with
    | handBack h' => exact ih h' hn

end Run

namespace Parser

/-- Started in `s` and answered by `replies`, the parser settles with `sight`, if its budget is
large enough. -/
def Presents (G : Rules Γ τ) (p : Parser Γ τ α) (s : Input τ) (replies : List (Reply τ))
    (sight : Sight τ α) : Prop :=
  ∃ budget r, (p.outcome G budget s).Reaches replies r ∧ r.sight? = some sight

/-- Started in the same state and answered in the same way, the two parsers settle alike: they wait
at the same points, with the same tokens, and come to the same outcome in the same state. -/
def SettleAlike (G : Rules Γ τ) (p q : Parser Γ τ α) : Prop :=
  ∀ s replies sight, p.Presents G s replies sight ↔ q.Presents G s replies sight

section Presents

variable {G : Rules Γ τ} {p : Parser Γ τ α} {s s' : Input τ} {replies : List (Reply τ)}
  {sight : Sight τ α} {o : Outcome τ α}

theorem presents_answer (budget : Nat) (h : (p.outcome G budget s).Reaches replies (.done o)) :
    p.Presents G s replies (.answer o) := ⟨budget, _, h, rfl⟩

/-- Every larger budget is large enough too. -/
theorem Presents.eventually (h : p.Presents G s replies sight) : ∃ least, ∀ budget, least ≤ budget →
    ∃ r, (p.outcome G budget s).Reaches replies r ∧ r.sight? = some sight := by
  obtain ⟨least, r, hr, hsight⟩ := h
  refine ⟨least, fun budget hle => ?_⟩
  obtain ⟨r', hr', hbelow⟩ := Run.simulation_below.reaches (below_outcome G p s hle) hr
  exact ⟨r', hr', hbelow.sight? hsight⟩

theorem Presents.answer_eventually (h : p.Presents G s replies (.answer o)) : ∃ least, ∀ budget,
    least ≤ budget → (p.outcome G budget s).Reaches replies (.done o) := by
  obtain ⟨least, h⟩ := h.eventually
  refine ⟨least, fun budget hle => ?_⟩
  obtain ⟨r, hr, hsight⟩ := h budget hle
  cases r with
  | done o' =>
    cases hsight
    exact hr
  | later | await | exhausted => cases hsight

theorem Presents.recorded (h : p.Presents G s replies (.answer o)) :
    Recorded s replies o.input := by
  obtain ⟨least, h⟩ := h.answer_eventually
  exact recorded_of_reaches (h least (Nat.le_refl _))

theorem Presents.unique {sight' : Sight τ α} (h : p.Presents G s replies sight)
    (h' : p.Presents G s replies sight') : sight = sight' := by
  obtain ⟨least, h⟩ := h.eventually
  obtain ⟨least', h'⟩ := h'.eventually
  obtain ⟨r, hr, hsight⟩ := h (max least least') (Nat.le_max_left _ _)
  obtain ⟨r', hr', hsight'⟩ := h' (max least least') (Nat.le_max_right _ _)
  exact hr.sight_unique hr' hsight hsight'

/-- Started with another record, a parser settles in the same way, and what arrived is put behind
the record that it found. -/
theorem Presents.of_coincide (h : s.Coincide s') (hp : p.Presents G s replies sight) :
    p.Presents G s' replies (sight.onRecord (s'.after replies).arrived) := by
  obtain ⟨budget, n, hr, hsight⟩ := hp
  obtain ⟨n', hr', hn⟩ := (Run.simulation_parallel _).reaches (parallel_outcome G budget p h) hr
  cases hn with
  | exhausted => cases hsight
  | later => cases hsight
  | await hi =>
    cases hsight
    refine ⟨budget, _, hr', ?_⟩
    rw [Run.sight?, ← hi.1, ← hi.2]
    rfl
  | done ho =>
    cases hsight
    have hrecord := (recorded_of_reaches hr').arrived
    refine ⟨budget, _, hr', ?_⟩
    rw [Run.sight?, Sight.onRecord, ← hrecord]
    cases ho with
    | success hi a =>
      rw [Outcome.onRecord, hi.1, hi.2]
      rfl
    | failure hi e =>
      rw [Outcome.onRecord, hi.1, hi.2]
      rfl

end Presents

/-! ## Alternatives without checkpoints -/

section Alt

variable {G : Rules Γ τ} {p q : Parser Γ τ α} {s : Input τ} {first second replies : List (Reply τ)}
  {sight : Sight τ α}

/-- Leaving a checkpoint by going on gives the state in which the parser would have ended without
it. -/
theorem presents_checkpoint_success_iff {s' : Input τ} {a : α} :
    p.Presents G s replies (.answer (.success s' a)) ↔
      ∃ i, s.keep i = s' ∧ p.Presents G s.checkpoint replies (.answer (.success i a)) := by
  constructor
  · intro h
    have hunder := h.of_coincide s.coincide_checkpoint
    refine ⟨_, ?_, hunder⟩
    ext1
    · rfl
    · rfl
    · exact hunder.recorded.keep.arrived.trans h.recorded.arrived.symm
  · rintro ⟨i, rfl, hunder⟩
    have h := hunder.of_coincide s.coincide_checkpoint.symm
    rwa [Sight.onRecord, Outcome.onRecord, ← hunder.recorded.keep.arrived] at h

theorem presents_alt_success {s' : Input τ} {a : α}
    (h : p.Presents G s replies (.answer (.success s' a))) :
    (p.alt q).Presents G s replies (.answer (.success s' a)) := by
  obtain ⟨i, rfl, hunder⟩ := presents_checkpoint_success_iff.mp h
  obtain ⟨budget, hr⟩ := hunder.answer_eventually
  apply presents_answer (budget + 1)
  rw [outcome_alt, ← List.append_nil replies]
  exact ((hr budget (Nat.le_refl _)).bind _).trans (.later (.here _))

theorem presents_alt_waits {remaining : Buffer τ} {closed : Bool}
    (h : p.Presents G s replies (.waits remaining closed)) :
    (p.alt q).Presents G s replies (.waits remaining closed) := by
  obtain ⟨budget, r, hr, hsight⟩ := h.of_coincide s.coincide_checkpoint
  cases r with
  | await input onEnd onChunk =>
    refine ⟨budget + 1, ?_⟩
    rw [outcome_alt]
    exact ⟨_, hr.bind _, hsight⟩
  | done | later | exhausted => cases hsight

/-- The second alternative starts on the input as the replies to the first one leave it. -/
theorem presents_alt_failure {s' : Input τ} {e : Failure}
    (hp : p.Presents G s first (.answer (.failure s' e)))
    (hq : q.Presents G (s.after first) second sight) :
    (p.alt q).Presents G s (first ++ second) sight := by
  have hunder := hp.of_coincide s.coincide_checkpoint
  have hback := hunder.recorded.rewind_eq_after
  obtain ⟨least, hleft⟩ := hunder.answer_eventually
  obtain ⟨least', hright⟩ := hq.eventually
  obtain ⟨r, hr, hsight⟩ := hright (max least least') (Nat.le_max_right _ _)
  refine ⟨max least least' + 1, r, ?_, hsight⟩
  rw [← hback] at hr
  rw [outcome_alt]
  exact ((hleft _ (Nat.le_max_left _ _)).bind _).trans (.later hr)

/-- An alternative is the first parser, unless that fails, and then it is the second one, on the
input as the replies to the first one leave it. -/
theorem presents_alt_iff : (p.alt q).Presents G s replies sight ↔
    (p.Presents G s replies sight ∧ ∀ s' e, sight ≠ .answer (.failure s' e)) ∨
    ∃ first second s' e, replies = first ++ second ∧
      p.Presents G s first (.answer (.failure s' e)) ∧
      q.Presents G (s.after first) second sight := by
  constructor
  · rintro ⟨budget, r, hr, hsight⟩
    cases budget with
    | zero =>
      cases hr
      cases hsight
    | succ budget =>
      rw [outcome_alt] at hr
      rcases hr.of_bind with ⟨n, hn, hopen, rfl⟩ | ⟨first, second, o, rfl, ho, hrest⟩
      · cases n with
        | done o => exact absurd rfl (hopen o)
        | await input onEnd onChunk =>
          cases hsight
          have hunder : p.Presents G s.checkpoint replies (.waits input.remaining input.closed) :=
            ⟨budget, _, hn, rfl⟩
          exact .inl ⟨hunder.of_coincide s.coincide_checkpoint.symm, nofun⟩
        | later | exhausted => cases hsight
      · have hunder := presents_answer budget ho
        cases o with
        | failure i e =>
          have hback : s.rewind i = s.after first := hunder.recorded.rewind_eq_after
          cases hrest with
          | here => cases hsight
          | later hrest =>
            simp only [hback] at hrest
            exact .inr ⟨first, second, _, e, rfl, hunder.of_coincide s.coincide_checkpoint.symm,
              budget, r, hrest, hsight⟩
        | success i a =>
          cases hrest with
          | here => cases hsight
          | later hrest =>
            cases hrest
            cases hsight
            rw [List.append_nil]
            exact .inl ⟨presents_checkpoint_success_iff.mpr ⟨i, rfl, hunder⟩, nofun⟩
  · rintro (⟨hp, hsight⟩ | ⟨first, second, s', e, rfl, hp, hq⟩)
    · cases sight with
      | waits remaining closed => exact presents_alt_waits hp
      | answer o =>
        cases o with
        | success s' a => exact presents_alt_success hp
        | failure s' e => exact absurd rfl (hsight s' e)
    · exact presents_alt_failure hp hq

end Alt

/-! ## Regrouping -/

section Regroup

variable {G : Rules Γ τ} {p q r : Parser Γ τ α}

theorem SettleAlike.symm (h : SettleAlike G p q) : SettleAlike G q p :=
  fun s replies sight => (h s replies sight).symm

theorem SettleAlike.trans (h : SettleAlike G p q) (h' : SettleAlike G q r) : SettleAlike G p r :=
  fun s replies sight => (h s replies sight).trans (h' s replies sight)

theorem settleAlike_alt_right (p : Parser Γ τ α) (h : SettleAlike G q r) :
    SettleAlike G (p.alt q) (p.alt r) := by
  intro s replies sight
  simp only [presents_alt_iff, h _ _ _]

theorem settleAlike_alt_assoc (p q r : Parser Γ τ α) :
    SettleAlike G ((p.alt q).alt r) (p.alt (q.alt r)) := by
  intro s replies sight
  constructor
  · intro h
    rcases presents_alt_iff.mp h with ⟨hleft, hsight⟩ | ⟨first, second, s', e, rfl, hleft, hr⟩
    · rcases presents_alt_iff.mp hleft with ⟨hp, -⟩ | ⟨first, second, s', e, rfl, hp, hq⟩
      · exact presents_alt_iff.mpr (.inl ⟨hp, hsight⟩)
      · exact presents_alt_failure hp (presents_alt_iff.mpr (.inl ⟨hq, hsight⟩))
    · rcases presents_alt_iff.mp hleft with ⟨-, hne⟩ | ⟨first, between, s'', e', rfl, hp, hq⟩
      · exact absurd rfl (hne s' e)
      · rw [s.after_append] at hr
        rw [List.append_assoc]
        exact presents_alt_failure hp (presents_alt_failure hq hr)
  · intro h
    rcases presents_alt_iff.mp h with ⟨hp, hsight⟩ | ⟨first, second, s', e, rfl, hp, hright⟩
    · exact presents_alt_iff.mpr (.inl ⟨presents_alt_iff.mpr (.inl ⟨hp, hsight⟩), hsight⟩)
    · rcases presents_alt_iff.mp hright with ⟨hq, hsight⟩ | ⟨between, third, s'', e', rfl, hq, hr⟩
      · exact presents_alt_iff.mpr (.inl ⟨presents_alt_failure hp hq, hsight⟩)
      · rw [← s.after_append] at hr
        rw [← List.append_assoc]
        exact presents_alt_failure (presents_alt_failure hp hq) hr

theorem choice_cons (p : Parser Γ τ α) {ps : List (Parser Γ τ α)} (hps : ps ≠ []) :
    choice (p :: ps) = p.alt (choice ps) := by
  obtain ⟨q, rest, rfl⟩ := List.exists_cons_of_ne_nil hps
  rfl

theorem settleAlike_choice_append {xs ys : List (Parser Γ τ α)} (hxs : xs ≠ []) (hys : ys ≠ []) :
    SettleAlike G (choice (xs ++ ys)) ((choice xs).alt (choice ys)) := by
  induction xs with
  | nil => exact absurd rfl hxs
  | cons x xs ih =>
    have hne : xs ++ ys ≠ [] := List.append_ne_nil_of_right_ne_nil xs hys
    rw [List.cons_append, choice_cons x hne]
    by_cases hlast : xs = []
    · subst hlast
      exact fun _ _ _ => Iff.rfl
    · rw [choice_cons x hlast]
      exact (settleAlike_alt_right x (ih hlast)).trans (settleAlike_alt_assoc x _ _).symm

/-- The parsers fail one after the other, each on the input as the replies to those before it leave
it. -/
inductive FailInTurn (G : Rules Γ τ) :
    List (Parser Γ τ α) → Input τ → List (Reply τ) → Prop
  | nil (s : Input τ) : FailInTurn G [] s []
  | cons {p : Parser Γ τ α} {ps : List (Parser Γ τ α)} {s s' : Input τ}
      {first second : List (Reply τ)} {e : Failure}
      (h : p.Presents G s first (.answer (.failure s' e)))
      (rest : FailInTurn G ps (s.after first) second) :
      FailInTurn G (p :: ps) s (first ++ second)

theorem presents_choice_of_failInTurn {before after : List (Parser Γ τ α)} {s : Input τ}
    {first second : List (Reply τ)} {sight : Sight τ α} (hbefore : FailInTurn G before s first)
    (hp : p.Presents G (s.after first) second sight)
    (hlast : (∃ s' e, sight = .answer (.failure s' e)) → after = []) :
    (choice (before ++ p :: after)).Presents G s (first ++ second) sight := by
  induction hbefore with
  | nil s =>
    rw [s.after_nil] at hp
    by_cases hafter : after = []
    · subst hafter
      exact hp
    · rw [List.nil_append, choice_cons p hafter]
      exact presents_alt_iff.mpr (.inl ⟨hp, fun s' e he => hafter (hlast ⟨s', e, he⟩)⟩)
  | @cons x ps s s' first between e hx rest ih =>
    have hne : ps ++ p :: after ≠ [] := List.append_ne_nil_of_right_ne_nil ps (List.cons_ne_nil _ _)
    rw [s.after_append] at hp
    rw [List.cons_append, choice_cons x hne, List.append_assoc]
    exact presents_alt_failure hx (ih hp)

/-- A choice shows what its first branch that does not fail shows, or, if there is none, what the
last one shows. -/
theorem presents_choice_iff {ps : List (Parser Γ τ α)} (hps : ps ≠ []) {s : Input τ}
    {replies : List (Reply τ)} {sight : Sight τ α} :
    (choice ps).Presents G s replies sight ↔
      ∃ before p after first second, ps = before ++ p :: after ∧ replies = first ++ second ∧
        FailInTurn G before s first ∧ p.Presents G (s.after first) second sight ∧
        ((∃ s' e, sight = .answer (.failure s' e)) → after = []) := by
  constructor
  · intro h
    induction ps generalizing s replies with
    | nil => exact absurd rfl hps
    | cons p ps ih =>
      by_cases hlast : ps = []
      · subst hlast
        refine ⟨[], p, [], [], replies, rfl, rfl, .nil s, ?_, fun _ => rfl⟩
        rw [s.after_nil]
        exact h
      · rw [choice_cons p hlast] at h
        rcases presents_alt_iff.mp h with ⟨hp, hsight⟩ | ⟨first, second, s', e, rfl, hp, hrest⟩
        · refine ⟨[], p, ps, [], replies, rfl, rfl, .nil s, ?_, ?_⟩
          · rw [s.after_nil]
            exact hp
          · rintro ⟨s', e, he⟩
            exact absurd he (hsight s' e)
        · obtain ⟨before, q, after, between, third, rfl, rfl, hbefore, hq, hafter⟩ :=
            ih hlast hrest
          rw [← s.after_append] at hq
          exact ⟨p :: before, q, after, first ++ between, third, rfl,
            (List.append_assoc _ _ _).symm, .cons hp hbefore, hq, hafter⟩
  · rintro ⟨before, p, after, first, second, rfl, rfl, hbefore, hp, hlast⟩
    exact presents_choice_of_failInTurn hbefore hp hlast

end Regroup

/-- **Alternatives regroup freely.** For all parsers, whatever the rules they call, the two ways of
grouping three alternatives settle alike, from every state and answered in any way, and so do the
choice of two lists together and the alternative of their choices. A choice succeeds as the first
branch does that succeeds, where each branch starts on the input as the replies to those before it
leave it; and it fails as the last branch does, once all those before it have failed. -/
theorem alternatives_regroup (G : Rules Γ τ) :
    (∀ p q r : Parser Γ τ α, SettleAlike G ((p.alt q).alt r) (p.alt (q.alt r))) ∧
    (∀ xs ys : List (Parser Γ τ α), xs ≠ [] → ys ≠ [] →
      SettleAlike G (choice (xs ++ ys)) ((choice xs).alt (choice ys))) ∧
    ∀ ps : List (Parser Γ τ α), ps ≠ [] → ∀ s replies,
      (∀ s' a, (choice ps).Presents G s replies (.answer (.success s' a)) ↔
        ∃ before p after first second, ps = before ++ p :: after ∧ replies = first ++ second ∧
          FailInTurn G before s first ∧
          p.Presents G (s.after first) second (.answer (.success s' a))) ∧
      ∀ s' e, (choice ps).Presents G s replies (.answer (.failure s' e)) ↔
        ∃ before p first second, ps = before ++ [p] ∧ replies = first ++ second ∧
          FailInTurn G before s first ∧
          p.Presents G (s.after first) second (.answer (.failure s' e)) := by
  refine ⟨settleAlike_alt_assoc, fun xs ys => settleAlike_choice_append, ?_⟩
  intro ps hps s replies
  constructor
  · intro s' a
    rw [presents_choice_iff hps]
    constructor
    · rintro ⟨before, p, after, first, second, hsplit, hreplies, hbefore, hp, -⟩
      exact ⟨before, p, after, first, second, hsplit, hreplies, hbefore, hp⟩
    · rintro ⟨before, p, after, first, second, hsplit, hreplies, hbefore, hp⟩
      exact ⟨before, p, after, first, second, hsplit, hreplies, hbefore, hp, nofun⟩
  · intro s' e
    rw [presents_choice_iff hps]
    constructor
    · rintro ⟨before, p, after, first, second, hsplit, hreplies, hbefore, hp, hlast⟩
      rw [hlast ⟨s', e, rfl⟩] at hsplit
      exact ⟨before, p, first, second, hsplit, hreplies, hbefore, hp⟩
    · rintro ⟨before, p, first, second, hsplit, hreplies, hbefore, hp⟩
      exact ⟨before, p, [], first, second, hsplit, hreplies, hbefore, hp, fun _ => rfl⟩

/-- The first branch fails after a chunk, the second one at the end of the stream, and the third one
starts behind neither. -/
theorem alternatives_regroup_spoil :
    SettleAlike nofun (choice ([spoil, spoil] ++ [pure ()]))
      ((choice [spoil, spoil]).alt (choice [pure ()])) ∧
    (choice [spoil, spoil, pure ()]).Presents nofun ⟨.ofList [1], false, some (.ofList [7])⟩
      [.chunk [2], .ended] (.answer (.success
        ⟨.ofList [1] ++ .ofList [2], true, some (.ofList [7] ++ .ofList [2])⟩ ())) := by
  have hfirst : spoil.Presents nofun ⟨.ofList [1], false, some (.ofList [7])⟩ [.chunk [2]]
      (.answer (.failure _ _)) :=
    presents_answer 4
      (.chunk [2] (.later (.later (.later (.later (.later (.here _)))))))
  have hsecond : spoil.Presents nofun
      (Input.after ⟨.ofList [1], false, some (.ofList [7])⟩ [.chunk [2]]) [.ended]
      (.answer (.failure _ _)) :=
    presents_answer 4 (.ended (.later (.here _)))
  obtain ⟨-, hgroup, hchoice⟩ := alternatives_regroup (α := Unit) (nofun : Rules Empty.elim Nat)
  refine ⟨hgroup _ _ (List.cons_ne_nil _ _) (List.cons_ne_nil _ _), ?_⟩
  refine ((hchoice _ (List.cons_ne_nil _ _) _ _).1 _ _).mpr ?_
  refine ⟨[spoil, spoil], pure (), [], [.chunk [2], .ended], [], rfl, rfl, ?_, ?_⟩
  · exact .cons hfirst (.cons hsecond (.nil _))
  · exact presents_answer 1 (.later (.here _))

end Parser

end Piecemeal
