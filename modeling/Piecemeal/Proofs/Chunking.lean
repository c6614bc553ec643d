import Piecemeal.Proofs.Views

/-!
# Cutting a stream makes no difference

Two places in two streams are *alike* when the same tokens are ahead, wherever they are cut and
however many of them have arrived. A seamless parser started at alike places comes to alike places
(`shows_of_along`): the proof follows the run with the smaller budget, and in the other stream the
budget may be as large as needed. A failed alternative may have pulled in more chunks on one side
than on the other, but going back puts all of them ahead again.

What `Result.feed` and `Result.finish` make of a parse is where its run stops along the chunks
(`showing_feedAll`, `finish_feedAll`), and so the result does not depend on the cuts
(`chunking_invariant`).
-/

namespace Piecemeal

variable {ι : Type} {Γ : ι → Type} {τ α β : Type}

/-- The same tokens are ahead in `s` with `chunks` to come and in `s'` with `chunks'` to come. -/
structure Alike (ends : Bool) (s : Input τ) (chunks : List (List τ)) (s' : Input τ)
    (chunks' : List (List τ)) : Prop where
  sound : s.Sound ends chunks
  sound' : s'.Sound ends chunks'
  ahead_eq : s'.ahead chunks' = s.ahead chunks

theorem Alike.checkpoint {ends : Bool} {s s' : Input τ} {chunks chunks' : List (List τ)}
    (h : Alike ends s chunks s' chunks') :
    Alike ends s.checkpoint chunks s'.checkpoint chunks' :=
  ⟨h.sound, h.sound', h.ahead_eq⟩

theorem Alike.keep {ends : Bool} {s s' : Input τ} {chunks chunks' : List (List τ)}
    (h : Alike ends s chunks s' chunks') (before before' : Input τ) :
    Alike ends (before.keep s) chunks (before'.keep s') chunks' :=
  ⟨h.sound, h.sound', h.ahead_eq⟩

/-- Two stops with an answer: the same one, at alike places. -/
inductive Agree (ends : Bool) : Outcome τ α → List (List τ) → Outcome τ α → List (List τ) → Prop
  | failure {s s' : Input τ} {left left' : List (List τ)} (e : Failure)
      (h : Alike ends s left s' left') : Agree ends (.failure s e) left (.failure s' e) left'
  | success {s s' : Input τ} {left left' : List (List τ)} (a : α)
      (h : Alike ends s left s' left') : Agree ends (.success s a) left (.success s' a) left'

theorem agree_of_showing_eq {ends : Bool} {o o' : Outcome τ α} {left left' : List (List τ)}
    (hs : o.input.Sound ends left) (hs' : o'.input.Sound ends left')
    (h : (Halt.done o' left').showing = (Halt.done o left).showing) :
    Agree ends o left o' left' := by
  cases o with
  | failure s e =>
    cases o' with
    | failure s' e' =>
      obtain ⟨he, hahead⟩ := Showing.rejected.inj h
      subst he
      exact .failure _ ⟨hs, hs', hahead⟩
    | success s' a' => cases h
  | success s a =>
    cases o' with
    | failure s' e' => cases h
    | success s' a' =>
      obtain ⟨ha, hahead⟩ := Showing.accepted.inj h
      subst ha
      exact .success _ ⟨hs, hs', hahead⟩

namespace Parser

section Simulation

variable {ends : Bool} {G : Rules Γ τ} {s s' : Input τ} {chunks chunks' : List (List τ)}

theorem alike_rewind {p : Parser Γ τ α} {o o' : Outcome τ α} {left left' : List (List τ)}
    (h : Alike ends s chunks s' chunks') (hp : p.Halts ends G s.checkpoint chunks (.done o left))
    (hp' : p.Halts ends G s'.checkpoint chunks' (.done o' left')) :
    Alike ends (s.rewind o.input) left (s'.rewind o'.input) left' := by
  obtain ⟨hsound, hahead⟩ := rewind_of_halts h.sound hp
  obtain ⟨hsound', hahead'⟩ := rewind_of_halts h.sound' hp'
  exact ⟨hsound, hsound', hahead'.trans (h.ahead_eq.trans hahead.symm)⟩

/-- A leaf shows the same from alike places. -/
theorem shows_leaf {p : Parser Γ τ α} (hp : SeamlessLeaf α p)
    (h : Alike ends s chunks s' chunks') {budget : Nat} {halt : Halt τ (Outcome τ α)}
    (hrun : (p.outcome G budget s).along ends chunks = some halt) :
    p.Shows ends G s' chunks' halt.showing := by
  obtain ⟨view, hview⟩ := exists_views ends G hp
  obtain ⟨halt', hhalt', hshown⟩ := hview s chunks h.sound
  have heq : halt = halt' := (halts_of_along hrun).functional hhalt'
  rw [heq, hshown, ← h.ahead_eq]
  exact hview s' chunks' h.sound'

/-- A parser `P` that runs its part `p` first shows the same from alike places if `p` does, and if
what follows does from wherever `p` comes to in both streams. -/
theorem shows_of_part {p : Parser Γ τ β} {P : Parser Γ τ α} {t t' : Input τ}
    {K K' : Nat → Outcome τ β → Run τ (Outcome τ α)} {budget : Nat}
    {halt : Halt τ (Outcome τ α)}
    (hP : ∀ n, P.outcome G (n + 1) s = (p.outcome G n t).bind (K n))
    (hP' : ∀ n, P.outcome G (n + 1) s' = (p.outcome G n t').bind (K' n))
    (h : Alike ends t chunks t' chunks')
    (hp : ∀ {first}, (p.outcome G budget t).along ends chunks = some first →
      p.Shows ends G t' chunks' first.showing)
    (hK : ∀ {o left o' left'}, p.Halts ends G t chunks (.done o left) →
      p.Halts ends G t' chunks' (.done o' left') → Agree ends o left o' left' →
      (K budget o).along ends left = some halt →
      ∃ halt', Comes ends (fun n => K' n o') left' halt' ∧ halt'.showing = halt.showing)
    (hrun : (P.outcome G (budget + 1) s).along ends chunks = some halt) :
    P.Shows ends G s' chunks' halt.showing := by
  rw [hP, Run.along_bind] at hrun
  obtain ⟨first, hfirst, hthen⟩ := Option.bind_eq_some_iff.mp hrun
  obtain ⟨first', hfirst', hshown⟩ := hp hfirst
  have hstep : ∀ {halt'}, Comes ends (fun n => (p.outcome G n t').bind (K' n)) chunks' halt' →
      P.Halts ends G s' chunks' halt' := by
    intro halt' h'
    refine comes_succ ?_
    simpa only [hP'] using h'
  cases first with
  | waiting input =>
    cases first' with
    | waiting input' =>
      have heq : halt = .waiting input := (Option.some.inj hthen).symm
      subst heq
      obtain ⟨hremaining, hclosed⟩ := Showing.waiting.inj hshown
      refine ⟨_, hstep hfirst'.bind_waiting, ?_⟩
      rw [Halt.showing, Halt.showing, hremaining, hclosed]
    | done o' left' => cases o' <;> cases hshown
  | done o left =>
    cases first' with
    | waiting input' => cases o <;> cases hshown
    | done o' left' =>
      have hhalts := halts_of_along hfirst
      have hagree : Agree ends o left o' left' := agree_of_showing_eq
        (sound_of_halts h.sound hhalts) (sound_of_halts h.sound' hfirst') hshown
      obtain ⟨halt', hcomes, hsame⟩ := hK hhalts hfirst' hagree hthen
      exact ⟨halt', hstep (hfirst'.bind hcomes), hsame⟩

/-- Ending in the same way at alike places. -/
theorem exists_comes_done {o o' : Outcome τ α} {left left' : List (List τ)}
    {halt : Halt τ (Outcome τ α)} {r : Run τ (Outcome τ α)} {r' : Nat → Run τ (Outcome τ α)}
    (hr : r.along ends left = some (.done o left))
    (hr' : ∀ n, (r' n).along ends left' = some (.done o' left'))
    (hagree : Agree ends o left o' left') (hrun : r.along ends left = some halt) :
    ∃ halt', Comes ends r' left' halt' ∧ halt'.showing = halt.showing := by
  have heq : halt = .done o left := Option.some.inj (hrun.symm.trans hr)
  subst heq
  refine ⟨_, comes_of_forall hr', ?_⟩
  cases hagree with
  | failure e h => rw [Halt.showing, Halt.showing, h.ahead_eq]
  | success a h => rw [Halt.showing, Halt.showing, h.ahead_eq]

/-- A seamless parser shows the same from alike places. -/
theorem shows_of_along (hG : ∀ i, Seamless (G i)) {p : Parser Γ τ α} (hp : Seamless p)
    (h : Alike ends s chunks s' chunks') {budget : Nat} {halt : Halt τ (Outcome τ α)}
    (hrun : (p.outcome G budget s).along ends chunks = some halt) :
    p.Shows ends G s' chunks' halt.showing := by
  induction budget generalizing α s chunks s' chunks' halt with
  | zero => cases hrun
  | succ budget ih =>
    have hcheckpoint := h.checkpoint
    cases hp with
    | leaf hleaf => exact shows_leaf hleaf h hrun
    | pure value =>
      cases hrun
      exact ⟨_, halts_pure value, by rw [Halt.showing, Halt.showing, h.ahead_eq]⟩
    | fail message =>
      cases hrun
      exact ⟨_, halts_fail message, by rw [Halt.showing, Halt.showing, h.ahead_eq]⟩
    | bind hp hf =>
      refine shows_of_part (fun n => outcome_bind G n s _ _) (fun n => outcome_bind G n s' _ _) h
        (ih hp h) (fun _ _ hagree hthen => ?_) hrun
      cases hagree with
      | failure e h₁ => exact exists_comes_done rfl (fun _ => rfl) (.failure e h₁) hthen
      | success a h₁ => exact ih (hf a) h₁ hthen
    | alt hp hq =>
      refine shows_of_part (fun n => outcome_alt G n s _ _) (fun n => outcome_alt G n s' _ _)
        hcheckpoint (ih hp hcheckpoint) (fun hfirst hfirst' hagree hthen => ?_) hrun
      have hback := alike_rewind h hfirst hfirst'
      cases hagree with
      | failure e h₁ => exact ih hq hback hthen
      | success a h₁ =>
        exact exists_comes_done rfl (fun _ => rfl) (.success a (h₁.keep s s')) hthen
    | lookAhead hp =>
      refine shows_of_part (fun n => outcome_lookAhead G n s _)
        (fun n => outcome_lookAhead G n s' _) hcheckpoint (ih hp hcheckpoint)
        (fun hfirst hfirst' hagree hthen => ?_) hrun
      have hback := alike_rewind h hfirst hfirst'
      cases hagree with
      | failure e h₁ => exact exists_comes_done rfl (fun _ => rfl) (.failure e hback) hthen
      | success a h₁ => exact exists_comes_done rfl (fun _ => rfl) (.success a hback) hthen
    | label hp name =>
      refine shows_of_part (fun n => outcome_label G n s _ name)
        (fun n => outcome_label G n s' _ name) h (ih hp h) (fun _ _ hagree hthen => ?_) hrun
      cases hagree with
      | failure e h₁ =>
        exact exists_comes_done rfl (fun _ => rfl) (.failure (e.within name) h₁) hthen
      | success a h₁ => exact exists_comes_done rfl (fun _ => rfl) (.success a h₁) hthen
    | loop start hbody =>
      refine shows_of_part (fun n => outcome_loop G n s start _)
        (fun n => outcome_loop G n s' start _) h (ih (hbody start) h)
        (fun _ _ hagree hthen => ?_) hrun
      cases hagree with
      | failure e h₁ => exact exists_comes_done rfl (fun _ => rfl) (.failure e h₁) hthen
      | success turn h₁ =>
        cases turn with
        | inl next => exact ih (.loop next hbody) h₁ hthen
        | inr a => exact exists_comes_done rfl (fun _ => rfl) (.success a h₁) hthen
    | rule i =>
      obtain ⟨halt', hhalt', hshown⟩ := ih (hG i) h hrun
      exact ⟨halt', comes_succ hhalt', hshown⟩
    | total hp =>
      obtain ⟨halt', hhalt', hshown⟩ := ih hp h hrun
      exact ⟨halt', halts_total hhalt', hshown⟩

end Simulation

end Parser

/-! ## Results -/

def Verdict.showing : Verdict τ α → Showing τ α
  | accepted a rest => .accepted a rest.toList
  | rejected e rest => .rejected e rest.toList

theorem Verdict.showing_injective {v v' : Verdict τ α} (h : v.showing = v'.showing) : v = v' := by
  cases v with
  | accepted a rest =>
    cases v' with
    | accepted a' rest' =>
      obtain ⟨ha, hrest⟩ := Showing.accepted.inj h
      rw [ha, Buffer.ext hrest]
    | rejected e' rest' => cases h
  | rejected e rest =>
    cases v' with
    | accepted a' rest' => cases h
    | rejected e' rest' =>
      obtain ⟨he, hrest⟩ := Showing.rejected.inj h
      rw [he, Buffer.ext hrest]

theorem Outcome.showing_verdict (o : Outcome τ α) (left : List (List τ)) :
    (o.verdict.extend left.flatten).showing = (Halt.done o left).showing := by
  cases o with
  | failure s e =>
    simp [verdict, Verdict.extend, Verdict.showing, Halt.showing, Input.ahead]
  | success s a =>
    simp [verdict, Verdict.extend, Verdict.showing, Halt.showing, Input.ahead]

namespace Result

/-- Hands over chunks one after another. -/
def feedAll (chunks : List (List τ)) (r : Result τ α) : Result τ α :=
  chunks.foldl (fun r chunk => r.feed chunk) r

/-- What can be seen of a result, unless the budget ran out. -/
def showing : Result τ α → Option (Showing τ α)
  | .done verdict => some verdict.showing
  | .await input _ _ => some (.waiting input.remaining.toList input.closed)
  | .exhausted => none

theorem feedAll_done (verdict : Verdict τ α) (chunks : List (List τ)) :
    feedAll chunks (.done verdict) = .done (verdict.extend chunks.flatten) := by
  induction chunks generalizing verdict with
  | nil => cases verdict <;> simp [feedAll, Verdict.extend]
  | cons chunk left ih =>
    have hextend : (verdict.extend chunk).extend left.flatten =
        verdict.extend (chunk ++ left.flatten) := by
      cases verdict <;> simp only [Verdict.extend, Buffer.append_ofList_append]
    exact (ih _).trans (congrArg Stage.done hextend)

theorem feedAll_exhausted (chunks : List (List τ)) :
    feedAll chunks (.exhausted : Result τ α) = .exhausted := by
  induction chunks with
  | nil => rfl
  | cons chunk left ih => exact ih

theorem finish_settle (r : Parse τ α) : finish r.settle = r.finish := by
  induction r with
  | done verdict => rfl
  | later next ih => exact ih ()
  | await input onEnd onChunk => rfl
  | exhausted => rfl

end Result

/-- A parser run for its verdict. -/
abbrev Run.verdicts (r : Run τ (Outcome τ α)) : Parse τ α := r.bind fun o => .done o.verdict

/-- A fed parse shows where its run stops along the chunks. -/
theorem showing_feedAll (r : Run τ (Outcome τ α)) (chunks : List (List τ)) :
    (Result.feedAll chunks r.verdicts.settle).showing =
      (r.along false chunks).map Halt.showing := by
  induction r generalizing chunks with
  | done o =>
    have hdone := Result.feedAll_done o.verdict chunks
    rw [Run.verdicts, Run.bind, Run.settle, hdone, Result.showing, o.showing_verdict]
    rfl
  | later next ih => exact ih () chunks
  | await input onEnd onChunk ihEnd ihChunk =>
    cases chunks with
    | nil => rfl
    | cons chunk left => exact ihChunk chunk left
  | exhausted =>
    have hnone := Result.feedAll_exhausted (α := α) chunks
    rw [Run.verdicts, Run.bind, Run.settle, hnone]
    rfl

/-- A fed and finished parse shows where its run stops along the chunks and the end. -/
theorem finish_feedAll (r : Run τ (Outcome τ α)) (chunks : List (List τ)) :
    (Result.feedAll chunks r.verdicts.settle).finish.map Verdict.showing =
      (r.along true chunks).map Halt.showing := by
  induction r generalizing chunks with
  | done o =>
    have hdone := Result.feedAll_done o.verdict chunks
    rw [Run.verdicts, Run.bind, Run.settle, hdone, Result.finish, Option.map_some,
      o.showing_verdict]
    rfl
  | later next ih => exact ih () chunks
  | await input onEnd onChunk ihEnd ihChunk =>
    cases chunks with
    | nil =>
      have hend := congrArg (Option.map Verdict.showing)
        (Result.finish_settle (onEnd ()).verdicts).symm
      exact hend.trans (ihEnd () [])
    | cons chunk left => exact ihChunk chunk left
  | exhausted =>
    have hnone := Result.feedAll_exhausted (α := α) chunks
    rw [Run.verdicts, Run.bind, Run.settle, hnone]
    rfl

namespace Parser

theorem parse_eq (G : Rules Γ τ) (budget : Nat) (p : Parser Γ τ α) (tokens : List τ) :
    p.parse G budget tokens = (p.outcome G budget (.ofList tokens false)).verdicts.settle := by
  rw [parse, parseInput, start_eq]
  rfl

theorem parseAll_eq (G : Rules Γ τ) (budget : Nat) (p : Parser Γ τ α) (tokens : List τ) :
    p.parseAll G budget tokens =
      Result.finish (p.outcome G budget (.ofList tokens true)).verdicts.settle := by
  rw [parseAll, start_eq, Result.finish_settle]
  rfl

theorem ahead_ofList (tokens : List τ) (closed : Bool) (chunks : List (List τ)) :
    (Input.ofList tokens closed).ahead chunks = tokens ++ chunks.flatten := by
  rw [Input.ahead, Input.ofList, Buffer.toList_ofList]

theorem sound_ofList (ends : Bool) (tokens : List τ) (chunks : List (List τ)) :
    (Input.ofList tokens false).Sound ends chunks := by
  intro h
  cases h

/-- A parse of the first tokens of a stream, fed with the chunks that follow. -/
def parseFed (G : Rules Γ τ) (budget : Nat) (p : Parser Γ τ α) (first : List τ)
    (chunks : List (List τ)) : Result τ α :=
  (p.parse G budget first).feedAll chunks

theorem Shows.functional {ends : Bool} {G : Rules Γ τ} {p : Parser Γ τ α} {s : Input τ}
    {chunks : List (List τ)} {shown shown' : Showing τ α} (h : p.Shows ends G s chunks shown)
    (h' : p.Shows ends G s chunks shown') : shown = shown' := by
  obtain ⟨halt, hhalt, hshown⟩ := h
  obtain ⟨halt', hhalt', hshown'⟩ := h'
  rw [← hshown, ← hshown', hhalt.functional hhalt']

theorem exists_along_iff (ends : Bool) (G : Rules Γ τ) (p : Parser Γ τ α) (s : Input τ)
    (chunks : List (List τ)) (shown : Showing τ α) :
    (∃ n, ((p.outcome G n s).along ends chunks).map Halt.showing = some shown) ↔
      p.Shows ends G s chunks shown := by
  refine ⟨?_, ?_⟩
  · intro ⟨n, h⟩
    obtain ⟨halt, hrun, hshown⟩ := Option.map_eq_some_iff.mp h
    exact ⟨halt, halts_of_along hrun, hshown⟩
  · intro ⟨halt, ⟨n, hrun⟩, hshown⟩
    exact ⟨n, Option.map_eq_some_iff.mpr ⟨halt, hrun n (Nat.le_refl n), hshown⟩⟩

section Settled

variable (G : Rules Γ τ) (p : Parser Γ τ α) (first : List τ) (chunks : List (List τ))

/-- What a fed parse shows with some budget. -/
theorem exists_showing_iff (shown : Showing τ α) :
    (∃ n, (p.parseFed G n first chunks).showing = some shown) ↔
      p.Shows false G (.ofList first false) chunks shown := by
  simp only [parseFed, parse_eq, showing_feedAll]
  exact exists_along_iff false G p _ chunks shown

theorem map_showing_eq_iff {o : Option (Verdict τ α)} {verdict : Verdict τ α} :
    o.map Verdict.showing = some verdict.showing ↔ o = some verdict := by
  refine ⟨fun h => ?_, fun h => by rw [h, Option.map_some]⟩
  obtain ⟨verdict', hverdict, hshown⟩ := Option.map_eq_some_iff.mp h
  rw [hverdict, Verdict.showing_injective hshown]

theorem exists_finish_iff (verdict : Verdict τ α) :
    (∃ n, (p.parseFed G n first chunks).finish = some verdict) ↔
      p.Shows true G (.ofList first false) chunks verdict.showing := by
  simp only [← map_showing_eq_iff, parseFed, parse_eq, finish_feedAll]
  exact exists_along_iff true G p _ chunks _

theorem exists_parseAll_iff (verdict : Verdict τ α) :
    (∃ n, p.parseAll G n first = some verdict) ↔
      p.Shows true G (.ofList first true) [] verdict.showing := by
  simp only [← map_showing_eq_iff, parseAll_eq]
  exact (exists_congr fun n => iff_of_eq (congrArg (· = _) (finish_feedAll _ []))).trans
    (exists_along_iff true G p _ [] _)

end Settled

theorem shows_iff_of_alike {ends : Bool} {G : Rules Γ τ} (hG : ∀ i, Seamless (G i))
    {p : Parser Γ τ α} (hp : Seamless p) {s s' : Input τ} {chunks chunks' : List (List τ)}
    (h : Alike ends s chunks s' chunks') (shown : Showing τ α) :
    p.Shows ends G s chunks shown ↔ p.Shows ends G s' chunks' shown := by
  have honward : ∀ {s s' : Input τ} {chunks chunks' : List (List τ)},
      Alike ends s chunks s' chunks' → p.Shows ends G s chunks shown →
        p.Shows ends G s' chunks' shown := by
    intro s s' chunks chunks' h ⟨halt, ⟨n, hrun⟩, hshown⟩
    have hsame := shows_of_along hG hp h (hrun n (Nat.le_refl n))
    rwa [hshown] at hsame
  exact ⟨honward h, honward ⟨h.sound', h.sound, h.ahead_eq.symm⟩⟩

/-- **Cuts make no difference.** Let a stream be cut in two ways, each time into first tokens to
parse and chunks to feed. A seamless parser settles on both or on neither, and with any budgets for
which it does the results show the same: the same value or failure with the same tokens unread, or
the same tokens remaining in the same state of the stream where it waits. Finishing either gives
the verdict on the tokens parsed all at once. -/
theorem chunking_invariant {G : Rules Γ τ} (hG : ∀ i, Seamless (G i)) {p : Parser Γ τ α}
    (hp : Seamless p) {tokens first first' : List τ} {chunks chunks' : List (List τ)}
    (hcut : first ++ chunks.flatten = tokens) (hcut' : first' ++ chunks'.flatten = tokens) :
    (∀ shown, (∃ n, (p.parseFed G n first chunks).showing = some shown) ↔
      ∃ n, (p.parseFed G n first' chunks').showing = some shown) ∧
    (∀ n n' shown shown', (p.parseFed G n first chunks).showing = some shown →
      (p.parseFed G n' first' chunks').showing = some shown' → shown = shown') ∧
    (∀ verdict, (∃ n, (p.parseFed G n first chunks).finish = some verdict) ↔
      ∃ n, p.parseAll G n tokens = some verdict) ∧
    (∀ verdict, (∃ n, (p.parseFed G n first' chunks').finish = some verdict) ↔
      ∃ n, p.parseAll G n tokens = some verdict) ∧
    ∀ n n' verdict verdict', (p.parseFed G n first chunks).finish = some verdict →
      p.parseAll G n' tokens = some verdict' → verdict = verdict' := by
  have hfed : ∀ shown, (∃ n, (p.parseFed G n first chunks).showing = some shown) ↔
      ∃ n, (p.parseFed G n first' chunks').showing = some shown := by
    intro shown
    rw [exists_showing_iff, exists_showing_iff]
    refine shows_iff_of_alike hG hp ⟨sound_ofList _ _ _, sound_ofList _ _ _, ?_⟩ shown
    rw [ahead_ofList, ahead_ofList, hcut, hcut']
  have hfinished : ∀ {first chunks}, first ++ chunks.flatten = tokens → ∀ verdict,
      (∃ n, (p.parseFed G n first chunks).finish = some verdict) ↔
        ∃ n, p.parseAll G n tokens = some verdict := by
    intro first chunks hcut verdict
    rw [exists_finish_iff, exists_parseAll_iff]
    refine shows_iff_of_alike hG hp ⟨sound_ofList _ _ _, fun _ => ⟨rfl, rfl⟩, ?_⟩ _
    rw [ahead_ofList, ahead_ofList, hcut, List.flatten_nil, List.append_nil]
  refine ⟨hfed, ?_, hfinished hcut, hfinished hcut', ?_⟩
  · intro n n' shown shown' h h'
    have hshown := (exists_showing_iff G p first' chunks' shown).mp ((hfed shown).mp ⟨n, h⟩)
    exact hshown.functional ((exists_showing_iff G p first' chunks' shown').mp ⟨n', h'⟩)
  · intro n n' verdict verdict' h h'
    have hverdict := (exists_parseAll_iff G p tokens verdict).mp
      ((hfinished hcut verdict).mp ⟨n, h⟩)
    exact Verdict.showing_injective
      (hverdict.functional ((exists_parseAll_iff G p tokens verdict').mp ⟨n', h'⟩))

/-- Pairs of a zero and a one, nested: the number of pairs. -/
def pairs : Rules (fun _ : Unit => Nat) Nat := fun _ =>
  map (fun inner => inner.foldl (· + ·) 1)
    (between (skip (· == 0)) (skip (· == 1)) (many (rule ())))

theorem chunking_invariant_pairs : (∀ i, Seamless (pairs i)) ∧
    [0] ++ [[0, 1], [], [0, 1, 1], [7]].flatten = [0, 0, 1, 0, 1, 1, 7] ∧
    [] ++ [[0, 0, 1, 0, 1, 1, 7]].flatten = [0, 0, 1, 0, 1, 1, 7] ∧
    (((rule ()).parseFed pairs 40 [0] [[0, 1], [], [0, 1, 1], [7]]).showing =
        some (.accepted 3 [7]) ∧
      ∃ n, ((rule ()).parseFed pairs n [] [[0, 0, 1, 0, 1, 1, 7]]).showing =
        some (.accepted 3 [7])) ∧
    (((rule ()).parseFed pairs 40 [0] [[0, 1], [], [0]]).showing = some (.waiting [] false) ∧
      ∃ n, ((rule ()).parseFed pairs n [0, 0] [[1, 0]]).showing = some (.waiting [] false)) := by
  have hpairs : ∀ i, Seamless (pairs i) := fun _ =>
    .map (.between (.leaf (.skip _)) (.leaf (.skip _)) (.many (.rule ()))) _
  have hdone : ((rule ()).parseFed pairs 40 [0] [[0, 1], [], [0, 1, 1], [7]]).showing =
      some (.accepted 3 [7]) := rfl
  have hwaits : ((rule ()).parseFed pairs 40 [0] [[0, 1], [], [0]]).showing =
      some (.waiting [] false) := rfl
  have hcut : [0] ++ [[0, 1], [], [0, 1, 1], [7]].flatten = [0, 0, 1, 0, 1, 1, 7] := rfl
  have hcut' : [] ++ [[0, 0, 1, 0, 1, 1, 7]].flatten = [0, 0, 1, 0, 1, 1, 7] := rfl
  have hopen : [0] ++ [[0, 1], [], [0]].flatten = [0, 0, 1, 0] := rfl
  have hopen' : [0, 0] ++ [[1, 0]].flatten = [0, 0, 1, 0] := rfl
  have hsame := chunking_invariant hpairs (.rule ()) hcut hcut'
  have hsame' := chunking_invariant hpairs (.rule ()) hopen hopen'
  exact ⟨hpairs, hcut, hcut', ⟨hdone, (hsame.1 _).mp ⟨40, hdone⟩⟩,
    hwaits, (hsame'.1 _).mp ⟨40, hwaits⟩⟩

end Parser

end Piecemeal
