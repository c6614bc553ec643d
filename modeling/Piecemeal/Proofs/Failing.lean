import Piecemeal.Proofs.Record

/-!
# Failing without consuming

The parsers for single tokens, for blocks and runs of tokens and for the end of the stream look at
the input until they can decide, and consume only once they have decided. So where one of them fails
it leaves the input as the replies leave it, whatever has arrived in the meantime
(`failure_consumes_nothing`).

`Parser.Concludes G p Q` says that `Q` holds wherever a run of `p` is over, and there is one rule
for each way to combine parsers. Three laws of this kind are put together here:

* `Looks`: the parser leaves the input as the replies leave it, on success and on failure;
* `GivesBack`: it does so on failure;
* `Unfailing`: it does not fail.

A parser that gives back may be preceded by one that only looks, and followed by one that does not
fail.
-/

namespace Piecemeal

variable {ι : Type} {Γ : ι → Type} {τ α β σ : Type}

namespace Parser

open Run

/-! ## Laws about outcomes -/

/-- Wherever a run of `p` is over, `Q` relates the state in which it was started, the replies and
the outcome. -/
def Concludes (G : Rules Γ τ) (p : Parser Γ τ α)
    (Q : Input τ → List (Reply τ) → Outcome τ α → Prop) : Prop :=
  ∀ budget s, (p.outcome G budget s).Meets (fun _ _ => True) (Q s)

section Rules

variable {G : Rules Γ τ} {P' Q : Input τ → List (Reply τ) → Outcome τ α → Prop}

theorem Concludes.mono {p : Parser Γ τ α} (hp : p.Concludes G P')
    (h : ∀ s replies o, P' s replies o → Q s replies o) : p.Concludes G Q := by
  intro budget s
  exact meets_mono (hp budget s) (fun _ _ _ => trivial) (h s)

theorem concludes_true (p : Parser Γ τ α) : p.Concludes G fun _ _ _ => True := by
  intro budget s
  exact ⟨fun _ => trivial, fun _ => trivial⟩

theorem Concludes.bind {p : Parser Γ τ β} {f : β → Parser Γ τ α}
    {P : Input τ → List (Reply τ) → Outcome τ β → Prop} (hp : p.Concludes G P)
    (hf : ∀ b, (f b).Concludes G P')
    (hfailure : ∀ s first s' e, P s first (.failure s' e) → Q s first (.failure s' e))
    (hsuccess : ∀ s first s' b second o, P s first (.success s' b) → P' s' second o →
      Q s (first ++ second) o) : (p.bind f).Concludes G Q := by
  intro budget s
  cases budget with
  | zero => exact meets_exhausted
  | succ budget =>
    rw [outcome_bind]
    refine meets_bind (hp budget s) fun first o ho => ?_
    cases o with
    | failure s' e =>
      apply meets_done
      rw [List.append_nil]
      exact hfailure s first s' e ho
    | success s' b =>
      apply meets_later
      refine meets_mono (hf b budget s') (fun _ _ _ => trivial) fun second o' ho' => ?_
      exact hsuccess s first s' b second o' ho ho'

/-- The second alternative starts on the input as the replies to the first one leave it. -/
theorem Concludes.alt {p q : Parser Γ τ α} {P : Input τ → List (Reply τ) → Outcome τ α → Prop}
    (hp : p.Concludes G P) (hq : q.Concludes G P')
    (hsuccess : ∀ s first s' a, P s.checkpoint first (.success s' a) →
      Q s first (.success (s.keep s') a))
    (hfailure : ∀ s first second o, P' (s.after first) second o → Q s (first ++ second) o) :
    (p.alt q).Concludes G Q := by
  intro budget s
  cases budget with
  | zero => exact meets_exhausted
  | succ budget =>
    have hrecorded : (p.outcome G budget s.checkpoint).Meets (fun _ _ => True) fun first o =>
        P s.checkpoint first o ∧ Recorded s.checkpoint first o.input :=
      ⟨fun _ => trivial, fun hr => ⟨(hp budget _).ends hr, recorded_of_reaches hr⟩⟩
    rw [outcome_alt]
    refine meets_bind hrecorded fun first o ⟨ho, hrecord⟩ => ?_
    cases o with
    | failure s' e =>
      have hback : s.rewind s' = s.after first := hrecord.rewind_eq_after
      apply meets_later
      rw [hback]
      refine meets_mono (hq budget _) (fun _ _ _ => trivial) fun second o' ho' => ?_
      exact hfailure s first second o' ho'
    | success s' a =>
      apply meets_later
      apply meets_done
      rw [List.append_nil]
      exact hsuccess s first s' a ho

theorem Concludes.label {p : Parser Γ τ α} (hp : p.Concludes G P') (name : String)
    (hfailure : ∀ s first s' e, P' s first (.failure s' e) →
      Q s first (.failure s' (e.within name)))
    (hsuccess : ∀ s first s' a, P' s first (.success s' a) → Q s first (.success s' a)) :
    (p.label name).Concludes G Q := by
  intro budget s
  cases budget with
  | zero => exact meets_exhausted
  | succ budget =>
    rw [outcome_label]
    refine meets_bind (hp budget s) fun first o ho => ?_
    cases o with
    | failure s' e =>
      apply meets_later
      apply meets_done
      rw [List.append_nil]
      exact hfailure s first s' e ho
    | success s' a =>
      apply meets_done
      rw [List.append_nil]
      exact hsuccess s first s' a ho

theorem Concludes.loop {body : σ → Parser Γ τ (σ ⊕ α)}
    {P : Input τ → List (Reply τ) → Outcome τ (σ ⊕ α) → Prop}
    (hbody : ∀ state, (body state).Concludes G P)
    (hfailure : ∀ s first s' e, P s first (.failure s' e) → Q s first (.failure s' e))
    (hstop : ∀ s first s' a, P s first (.success s' (.inr a)) → Q s first (.success s' a))
    (hnext : ∀ s first s' state second o, P s first (.success s' (.inl state)) → Q s' second o →
      Q s (first ++ second) o) (start : σ) : (loop start body).Concludes G Q := by
  intro budget
  induction budget generalizing start with
  | zero => exact fun _ => meets_exhausted
  | succ budget ih =>
    intro s
    rw [outcome_loop]
    refine meets_bind (hbody start budget s) fun first o ho => ?_
    cases o with
    | failure s' e =>
      apply meets_done
      rw [List.append_nil]
      exact hfailure s first s' e ho
    | success s' turn =>
      cases turn with
      | inl next =>
        apply meets_later
        refine meets_mono (ih next s') (fun _ _ _ => trivial) fun second o' ho' => ?_
        exact hnext s first s' next second o' ho ho'
      | inr a =>
        apply meets_later
        apply meets_done
        rw [List.append_nil]
        exact hstop s first s' a ho

theorem Concludes.total {p : Parser Γ τ α} (hp : p.Concludes G Q) : p.total.Concludes G Q := by
  intro budget s
  cases budget with
  | zero => exact meets_exhausted
  | succ budget => exact hp budget s

theorem concludes_pure {a : α} (h : ∀ s, Q s [] (.success s a)) : (pure a).Concludes G Q := by
  intro budget s
  cases budget with
  | zero => exact meets_exhausted
  | succ budget => exact meets_later (meets_done (h s))

theorem concludes_fail {message : String} (h : ∀ s, Q s [] (.failure s ⟨[], message⟩)) :
    (fail message : Parser Γ τ α).Concludes G Q := by
  intro budget s
  cases budget with
  | zero => exact meets_exhausted
  | succ budget => exact meets_later (meets_done (h s))

end Rules

/-! ## Parsers that only look -/

/-- However a run of the parser is over, it leaves the input as the replies leave it. -/
def Looks (G : Rules Γ τ) (p : Parser Γ τ α) : Prop :=
  p.Concludes G fun s replies o => o.input = s.after replies

section Looks

variable {G : Rules Γ τ}

theorem looks_pure (a : α) : (pure a).Looks G := concludes_pure fun s => s.after_nil.symm

theorem looks_fail (message : String) : (fail message : Parser Γ τ α).Looks G :=
  concludes_fail fun s => s.after_nil.symm

theorem looks_get : get.Looks G := by
  intro budget s
  cases budget with
  | zero => exact meets_exhausted
  | succ budget => exact meets_later (meets_done s.after_nil.symm)

theorem looks_demandInput : demandInput.Looks G := by
  intro budget s
  exact meets_mono (meets_demandInput G budget s) (fun _ _ _ => trivial) fun _ _ h => h

theorem after_trans {s s' s'' : Input τ} {first second : List (Reply τ)} (h : s' = s.after first)
    (h' : s'' = s'.after second) : s'' = s.after (first ++ second) := by
  rw [h', h, s.after_append]

theorem Looks.bind {p : Parser Γ τ β} {f : β → Parser Γ τ α} (hp : p.Looks G)
    (hf : ∀ b, (f b).Looks G) : (p.bind f).Looks G := by
  refine Concludes.bind hp hf (fun _ _ _ _ h => h) ?_
  intro s first s' b second o h h'
  exact after_trans h h'

theorem Looks.map {p : Parser Γ τ β} (hp : p.Looks G) (f : β → α) : (p.map f).Looks G :=
  hp.bind fun b => looks_pure (f b)

theorem Looks.alt {p q : Parser Γ τ α} (hp : p.Looks G) (hq : q.Looks G) : (p.alt q).Looks G := by
  refine Concludes.alt hp hq ?_ ?_
  · intro s first s' a h
    obtain rfl : s' = s.checkpoint.after first := h
    ext1
    · rfl
    · rfl
    · simp [Outcome.input, Input.keep, Input.outerRecord, Input.checkpoint, Input.after]
  · intro s first second o h
    exact after_trans rfl h

theorem Looks.loop {body : σ → Parser Γ τ (σ ⊕ α)} (hbody : ∀ state, (body state).Looks G)
    (start : σ) : (loop start body).Looks G := by
  refine Concludes.loop hbody (fun _ _ _ _ h => h) (fun _ _ _ _ h => h) ?_ start
  intro s first s' state second o h h'
  exact after_trans h h'

theorem looks_ensure (n : Int) : (ensure n).Looks G := by
  refine Looks.loop (fun _ => looks_get.bind fun input => ?_) ()
  split
  · exact looks_pure _
  · exact looks_demandInput.bind fun _ => looks_pure _

end Looks

/-! ## Parsers that do not fail -/

/-- No run of the parser ends with a failure. -/
def Unfailing (G : Rules Γ τ) (p : Parser Γ τ α) : Prop :=
  p.Concludes G fun _ _ o => ∀ s' e, o ≠ .failure s' e

section Unfailing

variable {G : Rules Γ τ}

theorem unfailing_pure (a : α) : (pure a).Unfailing G := concludes_pure fun _ => nofun

theorem unfailing_get : get.Unfailing G := by
  intro budget s
  cases budget with
  | zero => exact meets_exhausted
  | succ budget => exact meets_later (meets_done nofun)

theorem unfailing_put (tokens : Buffer τ) : (put tokens).Unfailing G := by
  intro budget s
  cases budget with
  | zero => exact meets_exhausted
  | succ budget => exact meets_later (meets_done nofun)

theorem unfailing_wantInput : wantInput.Unfailing G := by
  intro budget s
  cases budget with
  | zero => exact meets_exhausted
  | succ budget =>
    rw [outcome_wantInput]
    split
    · exact meets_later (meets_done nofun)
    · split
      · exact meets_later (meets_done nofun)
      · refine meets_request budget (fun _ _ => trivial) ?_ ?_
        · exact fun first _ _ => meets_done nofun
        · exact fun first _ _ => meets_done nofun

theorem Unfailing.bind {p : Parser Γ τ β} {f : β → Parser Γ τ α} (hp : p.Unfailing G)
    (hf : ∀ b, (f b).Unfailing G) : (p.bind f).Unfailing G := by
  refine Concludes.bind hp hf ?_ (fun _ _ _ _ _ _ _ h => h)
  intro s first s' e h
  exact absurd rfl (h s' e)

theorem Unfailing.map {p : Parser Γ τ β} (hp : p.Unfailing G) (f : β → α) :
    (p.map f).Unfailing G :=
  hp.bind fun b => unfailing_pure (f b)

/-- A failure of the first alternative is caught. -/
theorem Unfailing.alt (p : Parser Γ τ α) {q : Parser Γ τ α} (hq : q.Unfailing G) :
    (p.alt q).Unfailing G :=
  Concludes.alt (concludes_true p) hq (fun _ _ _ _ _ => nofun) fun _ _ _ _ h => h

theorem Unfailing.loop {body : σ → Parser Γ τ (σ ⊕ α)} (hbody : ∀ state, (body state).Unfailing G)
    (start : σ) : (loop start body).Unfailing G := by
  refine Concludes.loop hbody ?_ (fun _ _ _ _ _ => nofun) (fun _ _ _ _ _ _ _ h => h) start
  intro s first s' e h
  exact absurd rfl (h s' e)

theorem unfailing_option (fallback : α) (p : Parser Γ τ α) : (p.option fallback).Unfailing G :=
  .alt p (unfailing_pure fallback)

theorem unfailing_many (p : Parser Γ τ α) : p.many.Unfailing G := by
  refine Unfailing.map (Unfailing.loop (fun found => ?_) _) _
  refine (unfailing_option none (p.map some)).bind fun a? => ?_
  cases a? with
  | none => exact unfailing_pure _
  | some a => exact unfailing_pure _

theorem unfailing_scanTurn (p : τ → Bool) (next : σ → List τ → σ) (found : σ) :
    (scanTurn p next found).Unfailing G := by
  refine unfailing_get.bind fun input => (unfailing_put _).bind fun _ => ?_
  split
  · refine unfailing_wantInput.bind fun more => ?_
    split
    · exact unfailing_pure _
    · exact unfailing_pure _
  · exact unfailing_pure _

theorem unfailing_skipWhile (p : τ → Bool) : (skipWhile p).Unfailing G := by
  rw [skipWhile_eq]
  exact Concludes.total (Unfailing.loop (unfailing_scanTurn p _) _)

theorem unfailing_takeWhile (p : τ → Bool) : (takeWhile p).Unfailing G := by
  rw [takeWhile_eq]
  exact Concludes.total (Unfailing.map (Unfailing.loop (unfailing_scanTurn p _) _) _)

end Unfailing

/-! ## Parsers that give back -/

/-- Where a run of the parser fails, it leaves the input as the replies leave it. -/
def GivesBack (G : Rules Γ τ) (p : Parser Γ τ α) : Prop :=
  p.Concludes G fun s replies o => ∀ s' e, o = .failure s' e → s' = s.after replies

section GivesBack

variable {G : Rules Γ τ}

theorem Looks.givesBack {p : Parser Γ τ α} (hp : p.Looks G) : p.GivesBack G := by
  refine Concludes.mono hp ?_
  rintro s replies o h s' e rfl
  exact h

theorem Unfailing.givesBack {p : Parser Γ τ α} (hp : p.Unfailing G) : p.GivesBack G := by
  refine Concludes.mono hp ?_
  intro s replies o h s' e ho
  exact absurd ho (h s' e)

theorem Looks.bind_givesBack {p : Parser Γ τ β} {f : β → Parser Γ τ α} (hp : p.Looks G)
    (hf : ∀ b, (f b).GivesBack G) : (p.bind f).GivesBack G := by
  refine Concludes.bind hp hf ?_ ?_
  · rintro s first s' e h _ _ ⟨⟩
    exact h
  · intro s first s' b second o h h' s'' e ho
    exact after_trans h (h' s'' e ho)

theorem GivesBack.bind_unfailing {p : Parser Γ τ β} {f : β → Parser Γ τ α} (hp : p.GivesBack G)
    (hf : ∀ b, (f b).Unfailing G) : (p.bind f).GivesBack G := by
  refine Concludes.bind hp hf ?_ ?_
  · rintro s first s' e h _ _ ⟨⟩
    exact h s' e rfl
  · intro s first s' b second o h h' s'' e ho
    exact absurd ho (h' s'' e)

theorem GivesBack.map {p : Parser Γ τ β} (hp : p.GivesBack G) (f : β → α) :
    (p.map f).GivesBack G :=
  hp.bind_unfailing fun b => unfailing_pure (f b)

/-- What the first alternative consumes before it fails is given back by going back. -/
theorem GivesBack.alt (p : Parser Γ τ α) {q : Parser Γ τ α} (hq : q.GivesBack G) :
    (p.alt q).GivesBack G := by
  refine Concludes.alt (concludes_true p) hq (fun _ _ _ _ _ => nofun) ?_
  intro s first second o h s' e ho
  exact after_trans rfl (h s' e ho)

theorem GivesBack.label {p : Parser Γ τ α} (hp : p.GivesBack G) (name : String) :
    (p.label name).GivesBack G := by
  refine Concludes.label hp name ?_ (fun _ _ _ _ _ => nofun)
  rintro s first s' e h _ _ ⟨⟩
  exact h s' e rfl

theorem givesBack_satisfy (p : τ → Bool) : (satisfy p).GivesBack G := by
  refine (looks_ensure 1).bind_givesBack fun input => ?_
  split
  · split
    · exact ((unfailing_put _).map _).givesBack
    · exact (looks_fail _).givesBack
  · exact (looks_fail _).givesBack

theorem givesBack_skip (p : τ → Bool) : (skip p).GivesBack G := by
  refine (looks_ensure 1).bind_givesBack fun input => ?_
  split
  · split
    · exact (unfailing_put _).givesBack
    · exact (looks_fail _).givesBack
  · exact (looks_fail _).givesBack

theorem givesBack_takeWith (n : Int) (p : List τ → Bool) : (takeWith n p).GivesBack G := by
  refine (looks_ensure n).bind_givesBack fun input => ?_
  dsimp only
  split
  · exact ((unfailing_put _).map _).givesBack
  · exact (looks_fail _).givesBack

/-- Once a token of the run is there, what follows does not fail. -/
theorem givesBack_takeWhile1 (p : τ → Bool) : (takeWhile1 p).GivesBack G := by
  have hfirst : ∀ buffered : Buffer τ,
      (if buffered.isEmpty then demandInput else pure () : Parser Γ τ Unit).Looks G := by
    intro buffered
    split
    · exact looks_demandInput
    · exact looks_pure ()
  rw [takeWhile1_eq]
  refine looks_get.bind_givesBack fun buffered => (hfirst buffered).bind_givesBack fun _ => ?_
  refine looks_get.bind_givesBack fun input => ?_
  split
  · exact (looks_fail _).givesBack
  · refine Unfailing.givesBack ((unfailing_put _).bind fun _ => ?_)
    split
    · exact (unfailing_takeWhile p).map _
    · exact unfailing_pure _

theorem looks_endOfInput : endOfInput.Looks G := by
  refine looks_get.bind fun input => ?_
  split
  · refine Looks.bind ((looks_demandInput.map _).alt (looks_pure false)) fun more => ?_
    split
    · exact looks_fail _
    · exact looks_pure ()
  · exact looks_fail _

end GivesBack

end Parser

namespace Text

open Piecemeal.Parser

variable {G : Rules Γ Char}

theorem givesBack_char (k : CharClass) : (char k).GivesBack G := (givesBack_satisfy _).label _

theorem givesBack_letter : letter.GivesBack G := (givesBack_satisfy _).label _

theorem givesBack_string (s : String) : (string s).GivesBack G := (givesBack_takeWith _ _).map _

theorem givesBack_word : word.GivesBack G :=
  (givesBack_letter.bind_unfailing fun _ => (unfailing_many letter).map _).map _

theorem givesBack_number : number.GivesBack G := by
  refine ((GivesBack.bind_unfailing (givesBack_takeWhile1 _) fun whole => ?_).map _).label _
  exact (unfailing_option _ _).bind fun fraction => unfailing_pure _

theorem givesBack_eol : eol.GivesBack G :=
  .alt _ ((givesBack_string _).bind_unfailing fun _ => unfailing_pure ())

end Text

namespace Parser

open Text in
/-- The parsers of the library that decide on tokens at the head of the input, or on its end. -/
inductive Deciding : (τ α : Type) → Parser Γ τ α → Prop
  | satisfy {τ : Type} (p : τ → Bool) : Deciding τ _ (satisfy p)
  | skip {τ : Type} (p : τ → Bool) : Deciding τ _ (skip p)
  | anyToken (τ : Type) : Deciding τ _ anyToken
  | takeWith {τ : Type} (n : Int) (p : List τ → Bool) : Deciding τ _ (takeWith n p)
  | take (τ : Type) (n : Int) : Deciding τ _ (take n)
  | takeWhile1 {τ : Type} (p : τ → Bool) : Deciding τ _ (takeWhile1 p)
  | endOfInput (τ : Type) : Deciding τ _ endOfInput
  | anyChar : Deciding _ _ anyChar
  | char (k : CharClass) : Deciding _ _ (char k)
  | notChar (k : CharClass) : Deciding _ _ (notChar k)
  | letter : Deciding _ _ letter
  | digit : Deciding _ _ digit
  | whitespace : Deciding _ _ whitespace
  | string (s : String) : Deciding _ _ (string s)
  | word : Deciding _ _ word
  | number : Deciding _ _ number
  | eol : Deciding _ _ eol

theorem Deciding.givesBack {G : Rules Γ τ} {p : Parser Γ τ α} (hp : Deciding τ α p) :
    p.GivesBack G := by
  cases hp with
  | satisfy p => exact givesBack_satisfy p
  | skip p => exact givesBack_skip p
  | anyToken => exact givesBack_satisfy _
  | takeWith n p => exact givesBack_takeWith n p
  | take _ n => exact givesBack_takeWith n _
  | takeWhile1 p => exact givesBack_takeWhile1 p
  | endOfInput => exact looks_endOfInput.givesBack
  | anyChar => exact givesBack_satisfy _
  | char k => exact Text.givesBack_char k
  | notChar k => exact (givesBack_satisfy _).label _
  | letter => exact Text.givesBack_letter
  | digit => exact (givesBack_satisfy _).label _
  | whitespace => exact (givesBack_satisfy _).label _
  | string s => exact Text.givesBack_string s
  | word => exact Text.givesBack_word
  | number => exact Text.givesBack_number
  | eol => exact Text.givesBack_eol

/-- **A failure consumes nothing.** Where a parser that decides on tokens fails, started in any
state and answered in any way, what remains is what was there followed by all that has arrived, the
record, if there is one, is the record it found followed by the same tokens, and the end is known if
it was known before or has been reported. -/
theorem failure_consumes_nothing {G : Rules Γ τ} {p : Parser Γ τ α} (hp : Deciding τ α p)
    {budget : Nat} {s s' : Input τ} {replies : List (Reply τ)} {e : Failure}
    (h : (p.outcome G budget s).Reaches replies (.done (.failure s' e))) :
    s'.remaining = s.remaining ++ .ofList (delivered replies) ∧
    s'.arrived = s.arrived.map (· ++ .ofList (delivered replies)) ∧
    s'.closed = (s.closed || endReported replies) := by
  have hback : s' = s.after replies := (hp.givesBack budget s).ends h s' e rfl
  rw [hback]
  exact ⟨rfl, rfl, rfl⟩

/-- Half of a line end has arrived, after an empty chunk, when the stream ends: the first
alternative finds another character than it looks for, and the second misses one. -/
theorem failure_consumes_nothing_eol : ∃ s' e,
    ((Text.eol : Parser Empty.elim Char Unit).outcome nofun 20
        ⟨.empty, false, some (.ofList ['a'])⟩).Reaches [.handBack, .chunk [], .chunk ['\r'], .ended]
      (.done (.failure s' e)) ∧
    s'.remaining.toList = ['\r'] ∧ s'.arrived = some (.ofList ['a'] ++ .ofList ['\r']) ∧
    s'.closed = true := by
  obtain ⟨s', e, hpath⟩ : ∃ s' e, ((Text.eol : Parser Empty.elim Char Unit).outcome nofun 20
      ⟨.empty, false, some (.ofList ['a'])⟩).Reaches [.handBack, .chunk [], .chunk ['\r'], .ended]
        (.done (.failure s' e)) := by
    refine ⟨?s, ?e, ?path⟩
    case path =>
      repeat' first
        | refine .later ?_
        | refine .chunk _ ?_
        | refine .handBack ?_
        | refine .ended ?_
        | exact .here _
  obtain ⟨hremaining, harrived, hclosed⟩ := failure_consumes_nothing .eol hpath
  refine ⟨s', e, hpath, ?_, harrived, hclosed⟩
  rw [hremaining]
  rfl

end Parser

end Piecemeal
