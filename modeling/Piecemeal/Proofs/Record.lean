import Piecemeal.Proofs.Built
import Piecemeal.Proofs.Paths

/-!
# What is on record after a parser

A checkpoint records what arrives after it, since the stream does not deliver it again. Checkpoints
nest, and each one that is left hands its record on to the next, so the record an expression leaves
behind is the record it found followed by exactly what arrived while it ran (`record_exact`). This
holds for every expression, on success and on failure and along every path. Hence going back from a
checkpoint gives the input as the replies since then leave it, nothing consumed (`rewind_eq_after`),
whatever was consumed or replaced in between.

An `Invariant` collects what a law about the states on a path must satisfy for every way of
combining parsers to keep it; `Built.meets` is the induction over expressions that all such laws
share.
-/

namespace Piecemeal

variable {ι : Type} {Γ : ι → Type} {τ α : Type}

/-! ## Laws that every way of combining parsers keeps -/

/-- A law on the states of a run: `R s replies s'` relates the state in which a parser starts, what
it was answered and the state in which it ends, and `W` does the same for the states in which it
waits. -/
structure Invariant (W R : Input τ → List (Reply τ) → Input τ → Prop) : Prop where
  refl : ∀ s, R s [] s
  trans : ∀ {s s' s'' first second}, R s first s' → R s' second s'' → R s (first ++ second) s''
  wait : ∀ {s s' i first second}, R s first s' → W s' second i → W s (first ++ second) i
  wait_checkpoint : ∀ {s i replies}, W s.checkpoint replies i → W s replies i
  keep : ∀ {s s' replies}, R s.checkpoint replies s' → R s replies (s.keep s')
  rewind : ∀ {s s' replies}, R s.checkpoint replies s' → R s replies (s.rewind s')

namespace Parser

/-- The parser's run from `s` obeys the law `W`, `R`. -/
abbrev Obeys (W R : Input τ → List (Reply τ) → Input τ → Prop) (G : Rules Γ τ) (budget : Nat)
    (p : Parser Γ τ α) (s : Input τ) : Prop :=
  (p.outcome G budget s).Meets (W s) fun replies o => R s replies o.input

open Run in
theorem Built.meets {W R : Input τ → List (Reply τ) → Input τ → Prop} (inv : Invariant W R)
    {L : (α : Type) → Parser Γ τ α → Prop} {G : Rules Γ τ} (hG : ∀ i, Built L (G i))
    (hL : ∀ {α : Type} {p : Parser Γ τ α}, L α p → ∀ budget s, p.Obeys W R G budget s)
    {p : Parser Γ τ α} (hp : Built L p) (budget : Nat) (s : Input τ) :
    p.Obeys W R G budget s := by
  induction budget generalizing α s with
  | zero => exact meets_exhausted
  | succ budget ih =>
    -- what a part obeys after `first`, the whole obeys from the start
    have onward : ∀ {α : Type} {p : Parser Γ τ α} {s' : Input τ} {first : List (Reply τ)},
        Built L p → R s first s' → (p.outcome G budget s').Meets
          (fun second => W s (first ++ second)) fun second o => R s (first ++ second) o.input :=
      fun hp h => meets_mono (ih hp _) (fun _ _ => inv.wait h) fun _ _ => inv.trans h
    have stay : ∀ {s' : Input τ} {first : List (Reply τ)}, R s first s' → R s (first ++ []) s' :=
      fun h => (List.append_nil _).symm ▸ h
    have under : ∀ {α : Type} {p : Parser Γ τ α}, Built L p →
        (p.outcome G budget s.checkpoint).Meets (W s) fun first o => R s.checkpoint first o.input :=
      fun hp => meets_mono (ih hp _) (fun _ _ => inv.wait_checkpoint) fun _ _ h => h
    cases hp with
    | leaf h => exact hL h (budget + 1) s
    | pure value => exact meets_later (meets_done (inv.refl s))
    | fail message => exact meets_later (meets_done (inv.refl s))
    | bind hp hf =>
      rw [Obeys, outcome_bind]
      refine meets_bind (ih hp s) fun first o ho => ?_
      cases o with
      | failure s' e => exact meets_done (stay ho)
      | success s' b => exact meets_later (onward (hf b) ho)
    | alt hp hq =>
      rw [Obeys, outcome_alt]
      refine meets_bind (under hp) fun first o ho => ?_
      cases o with
      | failure s' e => exact meets_later (onward hq (inv.rewind ho))
      | success s' a => exact meets_later (meets_done (stay (inv.keep ho)))
    | lookAhead hp =>
      rw [Obeys, outcome_lookAhead]
      refine meets_bind (under hp) fun first o ho => ?_
      cases o with
      | failure s' e => exact meets_later (meets_done (stay (inv.rewind ho)))
      | success s' a => exact meets_later (meets_done (stay (inv.rewind ho)))
    | label hp name =>
      rw [Obeys, outcome_label]
      refine meets_bind (ih hp s) fun first o ho => ?_
      cases o with
      | failure s' e => exact meets_later (meets_done (stay ho))
      | success s' a => exact meets_done (stay ho)
    | loop start hbody =>
      rw [Obeys, outcome_loop]
      refine meets_bind (ih (hbody start) s) fun first o ho => ?_
      cases o with
      | failure s' e => exact meets_done (stay ho)
      | success s' turn =>
        cases turn with
        | inl next => exact meets_later (onward (.loop next hbody) ho)
        | inr a => exact meets_later (meets_done (stay ho))
    | rule i => exact meets_later (ih (hG i) s)
    | total hp => exact ih hp s

end Parser

/-! ## The record -/

/-- The state `s'` has on record, and knows of the end, what it found in `s` and what the replies
since then brought. -/
structure Recorded (s : Input τ) (replies : List (Reply τ)) (s' : Input τ) : Prop where
  arrived : s'.arrived = (s.after replies).arrived
  closed : s'.closed = (s.after replies).closed

theorem recorded_after (s : Input τ) (replies : List (Reply τ)) :
    Recorded s replies (s.after replies) := ⟨rfl, rfl⟩

theorem Recorded.trans {s s' s'' : Input τ} {first second : List (Reply τ)}
    (h : Recorded s first s') (h' : Recorded s' second s'') : Recorded s (first ++ second) s'' := by
  constructor
  · rw [h'.arrived, s.after_append]
    simp only [Input.after, h.arrived]
  · rw [h'.closed, s.after_append]
    simp only [Input.after, h.closed]

theorem Recorded.arrived_checkpoint {s s' : Input τ} {replies : List (Reply τ)}
    (h : Recorded s.checkpoint replies s') : s'.arrived = some (.ofList (delivered replies)) := by
  rw [h.arrived]
  simp only [Input.after, Input.checkpoint, Option.map_some, Buffer.empty_append]

theorem Recorded.keep {s s' : Input τ} {replies : List (Reply τ)}
    (h : Recorded s.checkpoint replies s') : Recorded s replies (s.keep s') := by
  constructor
  · simp only [Input.keep, Input.outerRecord, h.arrived_checkpoint, Input.after]
  · exact h.closed

/-- Going back gives the input as the replies since then leave it. -/
theorem Recorded.rewind_eq_after {s s' : Input τ} {replies : List (Reply τ)}
    (h : Recorded s.checkpoint replies s') : s.rewind s' = s.after replies := by
  have hclosed : s'.closed = (s.closed || endReported replies) := h.closed
  ext1
  · simp only [Input.rewind, h.arrived_checkpoint, Option.getD_some, Input.after]
  · simp only [Input.rewind, hclosed, Input.after, ← Bool.or_assoc, Bool.or_self]
  · simp only [Input.rewind, Input.outerRecord, h.arrived_checkpoint, Input.after]

theorem invariant_recorded : Invariant (fun _ _ _ => True) (Recorded (τ := τ)) where
  refl s := by simpa only [Input.after_nil] using recorded_after s []
  trans := Recorded.trans
  wait _ _ := trivial
  wait_checkpoint _ := trivial
  keep := Recorded.keep
  rewind h := h.rewind_eq_after ▸ recorded_after _ _

namespace Parser

open Run in
theorem obeys_recorded_of_primitive {G : Rules Γ τ} {p : Parser Γ τ α} (hp : Primitive α p)
    (budget : Nat) (s : Input τ) : p.Obeys (fun _ _ _ => True) Recorded G budget s := by
  have here : Recorded s [] s := invariant_recorded.refl s
  cases hp with
  | get =>
    cases budget with
    | zero => exact meets_exhausted
    | succ budget => exact meets_later (meets_done here)
  | put tokens =>
    cases budget with
    | zero => exact meets_exhausted
    | succ budget => exact meets_later (meets_done ⟨here.arrived, here.closed⟩)
  | demandInput =>
    refine meets_mono (meets_demandInput G budget s) (fun _ _ _ => trivial) ?_
    intro replies o h
    exact h ▸ recorded_after s replies
  | wantInput =>
    refine meets_mono (meets_wantInput G budget s) (fun _ _ _ => trivial) ?_
    intro replies o h
    exact h ▸ recorded_after s replies

/-- The record law holds for every expression. -/
theorem recorded_of_reaches {G : Rules Γ τ} {budget : Nat} {p : Parser Γ τ α} {s : Input τ}
    {replies : List (Reply τ)} {o : Outcome τ α}
    (h : (p.outcome G budget s).Reaches replies (.done o)) : Recorded s replies o.input :=
  (Built.meets invariant_recorded (fun i => built_primitive (G i)) obeys_recorded_of_primitive
    (built_primitive p) budget s).ends h

/-- A parser that is only looked ahead with leaves the input as the replies leave it. -/
theorem after_of_reaches_lookAhead {G : Rules Γ τ} {budget : Nat} {p : Parser Γ τ α} {s : Input τ}
    {replies : List (Reply τ)} {o : Outcome τ α}
    (h : (p.lookAhead.outcome G budget s).Reaches replies (.done o)) :
    o.input = s.after replies := by
  cases budget with
  | zero => cases h
  | succ budget =>
    rw [outcome_lookAhead] at h
    rcases h.of_bind with ⟨r', -, hr', hn⟩ | ⟨first, second, o', rfl, hfirst, hsecond⟩
    · cases r' with
      | done a => exact absurd rfl (hr' a)
      | later | await | exhausted => cases hn
    · have hback := (recorded_of_reaches hfirst).rewind_eq_after
      cases o' with
      | failure s' e =>
        cases hsecond with
        | later rest => cases rest; exact (List.append_nil first).symm ▸ hback
      | success s' a =>
        cases hsecond with
        | later rest => cases rest; exact (List.append_nil first).symm ▸ hback

/-- Where the first alternative fails, the second starts on the input as the replies leave it. -/
theorem reaches_alt_of_failure {ρ : Type} {G : Rules Γ τ} {budget : Nat} {p : Parser Γ τ α}
    {s after : Input τ} {replies : List (Reply τ)} {e : Failure}
    (h : (p.outcome G budget s.checkpoint).Reaches replies (.done (.failure after e)))
    (q : Parser Γ τ α) (ko : Input τ → Failure → Run τ ρ) (ok : Input τ → α → Run τ ρ) :
    ((p.alt q).exec G (budget + 1) s ko ok).Reaches replies
      (q.exec G budget (s.after replies) ko ok) := by
  have hback : s.rewind after = s.after replies := (recorded_of_reaches h).rewind_eq_after
  rw [exec, exec_eq_bind]
  have hthen := (h.bind (Outcome.route
    (fun after _ => .later fun _ => q.exec G budget (s.rewind after) ko ok)
    fun after a => .later fun _ => ok (s.keep after) a)).trans (.later (.here _))
  rwa [List.append_nil, hback] at hthen

/-- **The record is exact.** Let `replies` be all that a parser was answered between its start in
`s` and its end. The record it leaves is the record it found, if there was one, followed by what
arrived. Looking ahead leaves the remaining input followed by what arrived, and a second alternative
starts on just that, with the record carried on and the end known if it was reported. -/
theorem record_exact (G : Rules Γ τ) (budget : Nat) (p : Parser Γ τ α) (s : Input τ)
    (replies : List (Reply τ)) :
    (∀ o, (p.outcome G budget s).Reaches replies (.done o) →
      o.input.arrived = s.arrived.map (· ++ .ofList (delivered replies))) ∧
    (∀ o, (p.lookAhead.outcome G budget s).Reaches replies (.done o) →
      o.input.remaining = s.remaining ++ .ofList (delivered replies)) ∧
    ∀ after e, (p.outcome G budget s.checkpoint).Reaches replies (.done (.failure after e)) →
      ∀ (q : Parser Γ τ α) (ρ : Type) (ko : Input τ → Failure → Run τ ρ)
        (ok : Input τ → α → Run τ ρ),
        ((p.alt q).exec G (budget + 1) s ko ok).Reaches replies
          (q.exec G budget ⟨s.remaining ++ .ofList (delivered replies),
            s.closed || endReported replies,
            s.arrived.map (· ++ .ofList (delivered replies))⟩ ko ok) := by
  refine ⟨fun o h => ?_, fun o h => ?_, fun after e h q ρ ko ok => ?_⟩
  · exact (recorded_of_reaches h).arrived
  · rw [after_of_reaches_lookAhead h]
    rfl
  · exact reaches_alt_of_failure h q ko ok

/-- Waits for a chunk, replaces the input and fails. -/
def spoil : Parser Empty.elim Nat Unit :=
  demandInput.bind fun _ => (put (.ofList [9])).bind fun _ => fail "no"

theorem record_exact_spoil :
    (spoil.outcome nofun 4 (Input.checkpoint ⟨.ofList [1], false, some (.ofList [7])⟩)).Reaches
      [.handBack, .chunk [], .chunk [2, 3]]
      (.done (.failure ⟨.ofList [9], false, some (.ofList [2, 3])⟩ ⟨[], "no"⟩)) ∧
    ((spoil.alt (pure ())).exec nofun 5 ⟨.ofList [1], false, some (.ofList [7])⟩
        (fun _ _ => Run.exhausted) fun i _ => Run.done i).Reaches
      [.handBack, .chunk [], .chunk [2, 3]]
      ((pure () : Parser Empty.elim Nat Unit).exec nofun 4
        ⟨.ofList [1] ++ .ofList [2, 3], false, some (.ofList [7] ++ .ofList [2, 3])⟩
        (fun _ _ => Run.exhausted) fun i _ => Run.done i) := by
  have hpath : (spoil.outcome nofun 4 (Input.checkpoint
      ⟨.ofList [1], false, some (.ofList [7])⟩)).Reaches [.handBack, .chunk [], .chunk [2, 3]]
      (.done (.failure ⟨.ofList [9], false, some (.ofList [2, 3])⟩ ⟨[], "no"⟩)) :=
    .handBack (.chunk [] (.later (.chunk [2, 3]
      (.later (.later (.later (.later (.later (.here _)))))))))
  exact ⟨hpath, (record_exact _ 4 _ _ _).2.2 _ _ hpath _ _ _ _⟩

end Parser

end Piecemeal
