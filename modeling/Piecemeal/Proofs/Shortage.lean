import Piecemeal.Proofs.Chunking
import Piecemeal.Proofs.Failing

/-!
# Lack of input is reported at the end only

A demand for input fails where the stream has ended, with a message and a label of its own. The
failure may then be labelled further, leave a look-ahead that goes back to a state from before the
end was known, or be caught by one alternative and raised again by the next. Still the message, the
innermost label and the end of the stream go together: a failure that leaves an expression has the
message exactly if it has the label, and then the end is known in the state it leaves behind.

The law is `Failure.Grounded`. It holds of every expression that does not use the message or the
label for anything else, which is `Parser.Candid`; going back keeps it, since the end once known
stays known (`shortage_only_at_end`).
-/

namespace Piecemeal

variable {ι : Type} {Γ : ι → Type} {τ α : Type}

/-! ## Grounded failures -/

/-- A failure that leaves a parser in the state `s` speaks of a lack of input just where its
innermost label is that of a demand, and only if the end is known. -/
structure Failure.Grounded (s : Input τ) (e : Failure) : Prop where
  demanded : e.message = "not enough input" ↔ e.context.head? = some "demand-input"
  closed : e.message = "not enough input" → s.closed = true

namespace Failure

theorem grounded_notEnoughInput {s : Input τ} (hs : s.closed = true) :
    notEnoughInput.Grounded s where
  demanded := iff_of_true rfl rfl
  closed _ := hs

theorem grounded_of_message_ne (s : Input τ) {message : String}
    (h : message ≠ "not enough input") : Grounded s ⟨[], message⟩ where
  demanded := iff_of_false h nofun
  closed hm := absurd hm h

/-- The state may be replaced as long as the end stays known. -/
theorem Grounded.mono {s s' : Input τ} {e : Failure} (h : e.Grounded s)
    (hclosed : s.closed = true → s'.closed = true) : e.Grounded s' where
  demanded := h.demanded
  closed hm := hclosed (h.closed hm)

/-- A label goes outside those already there, so it is the innermost one only of a failure that has
none. -/
theorem Grounded.within {s : Input τ} {e : Failure} (h : e.Grounded s) {name : String}
    (hname : name ≠ "demand-input") : (e.within name).Grounded s where
  demanded := by
    show e.message = "not enough input" ↔ (e.context ++ [name]).head? = some "demand-input"
    rw [h.demanded]
    cases e.context with
    | nil => simp [hname]
    | cons inner outer => simp
  closed := h.closed

end Failure

def Outcome.Grounded : Outcome τ α → Prop
  | failure s e => e.Grounded s
  | success _ _ => True

namespace Input

theorem closed_rewind (s : Input τ) {after : Input τ} (h : after.closed = true) :
    (s.rewind after).closed = true := by
  simp [rewind, h]

end Input

namespace Parser

/-! ## Expressions that keep to their own messages and labels -/

/-- No part of the expression fails with the message of a missing input or is labelled as a demand
for it. -/
def Candid : {α : Type} → Parser Γ τ α → Prop
  | _, .fail message => message ≠ "not enough input"
  | _, .bind p f => p.Candid ∧ ∀ b, (f b).Candid
  | _, .alt left right => left.Candid ∧ right.Candid
  | _, .lookAhead p => p.Candid
  | _, .label p name => p.Candid ∧ name ≠ "demand-input"
  | _, .loop _ body => ∀ state, (body state).Candid
  | _, .total p => p.Candid
  | _, .pure _ | _, .get | _, .put _ | _, .demandInput | _, .wantInput | _, .rule _ => True

open Run in
theorem grounded_demandInput (G : Rules Γ τ) (budget : Nat) (s : Input τ) :
    (demandInput.outcome G budget s).Meets (fun _ _ => True) fun _ o => o.Grounded := by
  cases budget with
  | zero => exact meets_exhausted
  | succ budget =>
    rw [outcome_demandInput]
    split
    · rename_i hclosed
      exact meets_later (meets_done (Failure.grounded_notEnoughInput hclosed))
    · refine meets_request budget (fun _ _ => trivial) ?_ ?_
      · intro first _ hend
        have hclosed : (s.after first).closed = true := by simp [Input.after, hend]
        exact meets_done (Failure.grounded_notEnoughInput hclosed)
      · exact fun _ _ _ => meets_done trivial

theorem grounded_of_unfailing {G : Rules Γ τ} {p : Parser Γ τ α} (hp : p.Unfailing G) :
    p.Concludes G fun _ _ o => o.Grounded := by
  refine hp.mono fun s replies o ho => ?_
  cases o with
  | failure s' e => exact absurd rfl (ho s' e)
  | success s' a => trivial

open Run in
/-- Every failure of a candid expression is grounded in the state that it leaves. -/
theorem Candid.grounded {G : Rules Γ τ} (hG : ∀ i, (G i).Candid) {p : Parser Γ τ α}
    (hp : p.Candid) (budget : Nat) (s : Input τ) :
    (p.outcome G budget s).Meets (fun _ _ => True) fun _ o => o.Grounded := by
  -- rules call each other, so the induction is on the budget and not on the expression
  induction budget generalizing α s with
  | zero => exact meets_exhausted
  | succ budget ih =>
    cases p with
    | pure | get | put => exact meets_later (meets_done trivial)
    | fail message => exact meets_later (meets_done (Failure.grounded_of_message_ne s hp))
    | demandInput => exact grounded_demandInput G (budget + 1) s
    | wantInput => exact grounded_of_unfailing unfailing_wantInput (budget + 1) s
    | bind p f =>
      rw [outcome_bind]
      refine meets_bind (ih hp.1 s) fun _ o ho => ?_
      cases o with
      | failure s' e => exact meets_done ho
      | success s' b => exact meets_later (ih (hp.2 b) s')
    | alt left right =>
      rw [outcome_alt]
      refine meets_bind (ih hp.1 s.checkpoint) fun _ o _ => ?_
      cases o with
      | failure after e => exact meets_later (ih hp.2 (s.rewind after))
      | success after a => exact meets_later (meets_done trivial)
    | lookAhead p =>
      rw [outcome_lookAhead]
      refine meets_bind (ih (p := p) hp s.checkpoint) fun _ o ho => ?_
      cases o with
      | failure after e =>
        exact meets_later (meets_done (Failure.Grounded.mono ho s.closed_rewind))
      | success after a => exact meets_later (meets_done trivial)
    | label p name =>
      rw [outcome_label]
      refine meets_bind (ih hp.1 s) fun _ o ho => ?_
      cases o with
      | failure s' e => exact meets_later (meets_done (Failure.Grounded.within ho hp.2))
      | success s' a => exact meets_done trivial
    | loop start body =>
      rw [outcome_loop]
      refine meets_bind (ih (hp start) s) fun _ o ho => ?_
      cases o with
      | failure s' e => exact meets_done ho
      | success s' turn =>
        cases turn with
        | inl next => exact meets_later (ih (p := loop next body) hp s')
        | inr a => exact meets_later (meets_done trivial)
    | rule i => exact meets_later (ih (hG i) s)
    | total p => exact ih (p := p) hp s

/-! ## Parses of a stream that goes on -/

/-- A fed parse is rejected with the failure of a run that was never told of an end. -/
theorem exists_reaches_of_parseFed {G : Rules Γ τ} {p : Parser Γ τ α} {budget : Nat}
    {first : List τ} {chunks : List (List τ)} {e : Failure} {rest : Buffer τ}
    (h : p.parseFed G budget first chunks = .done (.rejected e rest)) :
    ∃ replies s', (p.outcome G budget (.ofList first false)).Reaches replies
      (.done (.failure s' e)) ∧ endReported replies = false := by
  have hshown : ((p.outcome G budget (.ofList first false)).along false chunks).map Halt.showing =
      some (.rejected e rest.toList) := by
    rw [← showing_feedAll, ← parse_eq]
    exact congrArg Result.showing h
  obtain ⟨halt, hrun, hhalt⟩ := Option.map_eq_some_iff.mp hshown
  cases halt with
  | waiting s' => cases hhalt
  | done o left =>
    obtain ⟨replies, hpath, -, hend, -⟩ := Run.reaches_of_along hrun
    have hopen : endReported replies = false :=
      Bool.eq_false_iff.mpr fun hr => Bool.false_ne_true (hend hr).1
    cases o with
    | success s' a => cases hhalt
    | failure s' e' =>
      obtain ⟨rfl, -⟩ := Showing.rejected.inj hhalt
      exact ⟨replies, s', hpath, hopen⟩

/-- **Lack of input is reported at the end only.** Let neither an expression nor the rules it may
call use the message or the label of a demand for input otherwise. Wherever a run of it fails,
started in any state and answered in any way, the message says that there is not enough input if
and only if the innermost label is that of a demand; and then the end is known in the state the
failure leaves, and was known at the start or reported on the way. So a parse that is only fed with
chunks is never rejected for lack of input. -/
theorem shortage_only_at_end {G : Rules Γ τ} (hG : ∀ i, (G i).Candid) {p : Parser Γ τ α}
    (hp : p.Candid) :
    (∀ budget s replies s' e,
      (p.outcome G budget s).Reaches replies (.done (.failure s' e)) →
        (e.message = "not enough input" ↔ e.context.head? = some "demand-input") ∧
        (e.message = "not enough input" →
          s'.closed = true ∧ (s.closed = true ∨ endReported replies = true))) ∧
    ∀ budget first chunks e rest,
      p.parseFed G budget first chunks = .done (.rejected e rest) →
        e.message ≠ "not enough input" := by
  have hreported : ∀ {budget s replies s' e},
      (p.outcome G budget s).Reaches replies (.done (.failure s' e)) →
        e.message = "not enough input" →
          s'.closed = true ∧ (s.closed = true ∨ endReported replies = true) := by
    intro budget s replies s' e hpath hm
    have hclosed : s'.closed = true := ((hp.grounded hG budget s).ends hpath).closed hm
    have hor : s'.closed = (s.closed || endReported replies) := (recorded_of_reaches hpath).closed
    exact ⟨hclosed, Bool.or_eq_true_iff.mp (hor.symm.trans hclosed)⟩
  refine ⟨fun budget s replies s' e hpath => ⟨?_, hreported hpath⟩, ?_⟩
  · exact ((hp.grounded hG budget s).ends hpath).demanded
  · intro budget first chunks e rest h hm
    obtain ⟨replies, s', hpath, hopen⟩ := exists_reaches_of_parseFed h
    rcases (hreported hpath hm).2 with hc | hr
    · cases hc
    · exact Bool.false_ne_true (hopen.symm.trans hr)

theorem candid_ensure (n : Int) : (ensure n : Parser Γ τ _).Candid := by
  intro _
  refine ⟨trivial, fun input => ?_⟩
  dsimp only
  split
  · trivial
  · exact ⟨trivial, fun _ => trivial⟩

theorem candid_take (n : Int) : (take n : Parser Γ τ _).Candid :=
  ⟨candid_ensure n, fun _ => ⟨trivial, fun _ => trivial⟩⟩

/-- Three tokens, or else two, each looked for under a label. -/
def threeOrTwo : Parser Empty.elim Nat (List Nat) :=
  ((take 3).label "three").lookAhead.alt ((take 2).lookAhead.label "two")

/-- One token has arrived, after an empty chunk, when the stream ends: the first alternative fails
for lack of input and is caught, and the second fails anew. -/
theorem shortage_only_at_end_threeOrTwo : threeOrTwo.Candid ∧
    (∃ s', (threeOrTwo.outcome nofun 20 ⟨.empty, false, some (.ofList [7])⟩).Reaches
        [.handBack, .chunk [], .chunk [1], .ended]
        (.done (.failure s' ⟨["demand-input", "two"], "not enough input"⟩)) ∧
      s'.closed = true) ∧
    ∀ chunks e rest, threeOrTwo.parseFed nofun 20 [1] chunks = .done (.rejected e rest) →
      e.message ≠ "not enough input" := by
  have hcandid : threeOrTwo.Candid :=
    ⟨⟨candid_take 3, by decide⟩, candid_take 2, by decide⟩
  obtain ⟨hfailure, hfed⟩ := shortage_only_at_end (G := nofun) nofun hcandid
  obtain ⟨s', hpath⟩ : ∃ s',
      (threeOrTwo.outcome nofun 20 ⟨.empty, false, some (.ofList [7])⟩).Reaches
        [.handBack, .chunk [], .chunk [1], .ended]
        (.done (.failure s' ⟨["demand-input", "two"], "not enough input"⟩)) := by
    refine ⟨?s, ?path⟩
    case path =>
      repeat' first
        | refine .later ?_
        | refine .chunk _ ?_
        | refine .handBack ?_
        | refine .ended ?_
        | exact .here _
  exact ⟨hcandid, ⟨s', hpath, ((hfailure _ _ _ _ _ hpath).2 rfl).1⟩, hfed 20 [1]⟩

end Parser

end Piecemeal
