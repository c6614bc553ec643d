import Piecemeal.Proofs.Built
import Piecemeal.Proofs.Filling

/-!
# Parsers that ask for input

Asking for a chunk, for any input, for so many tokens, for the end of a run is filling, with a test
of its own, and then an outcome that is read off the input as it was left (`halts_demandInput`,
`halts_wantInput`, `halts_ensure`, `halts_scan`). The parsers that are made of these, blocks and
scans, stop in the same way.

The tests for the end of the stream look for one token. They may wait under a checkpoint, so what
they wait with has another record (`Parser.Glances`).
-/

namespace Piecemeal

variable {ι : Type} {Γ : ι → Type} {τ α β ρ σ : Type}

def Outcome.map (f : α → β) : Outcome τ α → Outcome τ β
  | failure s e => failure s e
  | success s a => success s (f a)

open Input

/-- A request is filled by the first chunk that brings a token. -/
theorem comes_request (ends : Bool) {s : Input τ} (hs : s.closed = false)
    (onEnd onChunk : Input τ → ρ) (chunks : List (List τ)) :
    Comes ends (request s (fun s => .done (onEnd s)) fun s => .done (onChunk s)) chunks
      ((s.fill (atLeast (s.remaining.size + 1)) ends chunks).map fun s' =>
        if s.remaining.size < s'.remaining.size then onChunk s' else onEnd s') := by
  have hready : s.ready (atLeast (s.remaining.size + 1)) = false := by
    rw [ready, hs, Bool.or_false, atLeast, decide_eq_false_iff_not, Buffer.size_eq]
    omega
  induction chunks with
  | nil =>
    rw [fill_nil hready]
    cases ends with
    | true =>
      have hsame : ¬ s.remaining.size < s.close.remaining.size := Nat.lt_irrefl _
      simp only [if_true, Halt.map, hsame, if_false]
      exact comes_succ (comes_of_forall fun _ => rfl)
    | false => exact comes_succ (comes_of_forall fun _ => rfl)
  | cons chunk rest ih =>
    rw [fill_cons hready]
    by_cases hne : chunk = []
    · subst hne
      rw [after_chunk_nil]
      exact comes_succ ih
    · have hmore : s.remaining.size < (s.after [.chunk chunk]).remaining.size := by
        have hpos := List.length_pos_iff.mpr hne
        simp [after, Buffer.size_eq, Reply.tokens, hpos]
      rw [fill_of_ready (ready_of_enough ?_), Halt.map, if_pos hmore]
      · refine comes_succ (comes_of_forall fun n => ?_)
        simp only [request, Run.along, s.after_chunk hne]
      · rw [atLeast, decide_eq_true_eq, ← Buffer.size_eq]
        omega

namespace Parser

theorem halts_map {ends : Bool} {G : Rules Γ τ} {p : Parser Γ τ α} {s : Input τ}
    {chunks : List (List τ)} {halt : Halt τ (Outcome τ α)} (hp : p.Halts ends G s chunks halt)
    (f : α → β) : (p.map f).Halts ends G s chunks (halt.map (Outcome.map f)) := by
  cases halt with
  | waiting s' => exact halts_bind_waiting _ hp
  | done o left =>
    cases o with
    | failure s' e => exact halts_bind_failure _ hp
    | success s' a => exact halts_bind hp (halts_pure _)

section ScanTurn

variable {ends : Bool} {G : Rules Γ τ} {s : Input τ} {chunks : List (List τ)}

theorem halts_scanTurn {p : τ → Bool} (next : σ → List τ → σ) (found : σ)
    (hrest : s.remaining.toList.dropWhile p ≠ []) :
    (scanTurn p next found).Halts ends G s chunks
      (.done (.success { s with remaining := .ofList (s.remaining.toList.dropWhile p) }
        (.inr (next found (s.remaining.toList.takeWhile p)))) chunks) := by
  refine halts_bind halts_get (halts_bind (halts_put _) ?_)
  simp only [Buffer.span_eq, Buffer.isEmpty_eq, Buffer.toList_ofList]
  rw [if_neg (by simpa using hrest)]
  exact halts_pure _

theorem halts_scanTurn_of_wantInput {p : τ → Bool} (next : σ → List τ → σ) (found : σ)
    {halt : Halt τ (Outcome τ (σ ⊕ σ))} (hrest : s.remaining.toList.dropWhile p = [])
    (h : (wantInput.bind fun more =>
      if more then pure (.inl (next found (s.remaining.toList.takeWhile p)))
      else pure (.inr (next found (s.remaining.toList.takeWhile p)))).Halts ends G
        { s with remaining := .empty } chunks halt) :
    (scanTurn p next found).Halts ends G s chunks halt := by
  refine halts_bind halts_get (halts_bind (halts_put _) ?_)
  simp only [Buffer.span_eq, Buffer.isEmpty_eq, Buffer.toList_ofList, hrest]
  exact h

end ScanTurn

section Ask

variable (ends : Bool) (G : Rules Γ τ) (s : Input τ) (chunks : List (List τ))

theorem halts_demandInput : demandInput.Halts ends G s chunks
    ((s.fill (atLeast (s.remaining.size + 1)) ends chunks).map fun s' =>
      if s.remaining.size < s'.remaining.size then .success s' ()
      else .failure s' .notEnoughInput) := by
  refine comes_succ ?_
  simp only [outcome_demandInput]
  cases hclosed : s.closed with
  | true =>
    rw [fill_of_ready (ready_of_closed hclosed), Halt.map, if_neg (Nat.lt_irrefl _)]
    exact comes_of_forall fun _ => rfl
  | false => exact comes_request ends hclosed _ _ chunks

theorem halts_wantInput : wantInput.Halts ends G s chunks
    ((s.fill (atLeast 1) ends chunks).map fun s' =>
      if s'.remaining.isEmpty then .success s' false else .success s' true) := by
  by_cases hempty : s.remaining.isEmpty = true
  · rw [← map_fill_of_isEmpty hempty]
    refine comes_succ ?_
    simp only [outcome_wantInput, hempty, Bool.not_true, Bool.false_eq_true, if_false]
    cases hclosed : s.closed with
    | true =>
      rw [fill_of_ready (ready_of_closed hclosed), Halt.map, if_neg (Nat.lt_irrefl _)]
      exact comes_of_forall fun _ => rfl
    | false => exact comes_request ends hclosed _ _ chunks
  · have hne : s.remaining.toList ≠ [] := fun hnil => hempty (s.remaining.isEmpty_iff.mpr hnil)
    rw [fill_of_ready (ready_of_enough ((atLeast_one_iff _).mpr hne)), Halt.map, if_neg hempty]
    refine comes_succ (comes_of_forall fun n => ?_)
    simp only [outcome_wantInput, Bool.eq_false_iff.mpr hempty, Bool.not_false, if_true]
    rfl

theorem halts_drainTurn (found : Gather (List τ)) : (drainTurn found).Halts ends G s chunks
    ((s.fill (atLeast 1) ends chunks).map fun s' =>
      if s'.remaining.isEmpty then .success s' (.inr found)
      else .success s'.clear (.inl (found.add s'.remaining.toList))) := by
  have hwant := halts_wantInput ends G s chunks
  cases hfill : s.fill (atLeast 1) ends chunks with
  | waiting s' =>
    rw [hfill] at hwant
    exact halts_bind_waiting _ hwant
  | done s' left =>
    rw [hfill, Halt.map] at hwant
    rw [Halt.map]
    by_cases hempty : s'.remaining.isEmpty = true
    · rw [if_pos hempty] at hwant ⊢
      exact halts_bind hwant (halts_pure _)
    · rw [if_neg hempty] at hwant ⊢
      exact halts_bind hwant (halts_bind halts_get (halts_bind (halts_put _) (halts_pure _)))

/-- Each turn of the loop but the last takes chunks up to the first that brings a token. -/
theorem halts_ensure (n : Int) : (ensure n).Halts ends G s chunks
    ((s.fill (atLeast n) ends chunks).map fun s' =>
      if n ≤ s'.remaining.size then .success s' s'.remaining
      else .failure s' .notEnoughInput) := by
  induction hlen : chunks.length using Nat.strongRecOn generalizing s chunks with
  | ind len ih =>
    subst hlen
    by_cases hsize : n ≤ s.remaining.size
    · have henough : atLeast n s.remaining.toList = true := by
        rwa [atLeast, decide_eq_true_eq, ← Buffer.size_eq]
      rw [fill_of_ready (ready_of_enough henough), Halt.map, if_pos hsize]
      refine halts_loop_done (halts_bind halts_get ?_)
      rw [if_pos hsize]
      exact halts_pure _
    · have hbody : ∀ {halt}, (demandInput.bind fun _ => pure (.inl ())).Halts ends G s chunks halt →
          (get.bind fun input => if n ≤ input.size then pure (.inr input)
            else demandInput.bind fun _ => pure (.inl ()) :
            Parser Γ τ (Unit ⊕ Buffer τ)).Halts ends G s chunks halt := by
        intro halt h
        refine halts_bind halts_get ?_
        rw [if_neg hsize]
        exact h
      have hweaker : ∀ tokens : List τ, atLeast n tokens = true →
          atLeast (s.remaining.size + 1) tokens = true :=
        fun tokens => atLeast_mono (by omega)
      have hdemand := halts_demandInput ends G s chunks
      rw [fill_then hweaker]
      cases hfill : s.fill (atLeast (s.remaining.size + 1)) ends chunks with
      | waiting s' =>
        rw [hfill] at hdemand
        exact halts_loop_waiting (hbody (halts_bind_waiting _ hdemand))
      | done s' left =>
        have hfilled := filled_of_fill hfill
        rw [hfill, Halt.map] at hdemand
        rw [Halt.goOn]
        split at hdemand
        · next hmore =>
          have hshorter : left.length < chunks.length := by
            apply hfilled.shorter
            intro hsame
            rw [hsame] at hmore
            exact Nat.lt_irrefl _ hmore
          exact halts_loop (hbody (halts_bind hdemand (halts_pure _))) (ih _ hshorter s' left rfl)
        · next hmore =>
          have hclosed : s'.closed = true := by
            apply hfilled.closed
            rw [atLeast, decide_eq_false_iff_not, ← Buffer.size_eq]
            omega
          rw [fill_of_ready (ready_of_closed hclosed), Halt.map, if_neg (by omega)]
          exact halts_loop_failure (hbody (halts_bind_failure _ hdemand))

/-- A parser that makes sure of `n` tokens and does not ask for more. -/
theorem halts_ensure_bind (n : Int) {f : Buffer τ → Parser Γ τ α} {o : Input τ → Outcome τ α}
    (hf : ∀ s' left, n ≤ s'.remaining.size →
      (f s'.remaining).Halts ends G s' left (.done (o s') left))
    (ho : ∀ s', ¬ n ≤ s'.remaining.size → o s' = .failure s' .notEnoughInput) :
    ((ensure n).bind f).Halts ends G s chunks ((s.fill (atLeast n) ends chunks).map o) := by
  have hensure := halts_ensure ends G s chunks n
  cases hfill : s.fill (atLeast n) ends chunks with
  | waiting s' =>
    rw [hfill] at hensure
    exact halts_bind_waiting _ hensure
  | done s' left =>
    rw [hfill, Halt.map] at hensure
    rw [Halt.map]
    split at hensure
    · next hsize => exact halts_bind hensure (hf s' left hsize)
    · next hsize =>
      rw [ho s' hsize]
      exact halts_bind_failure _ hensure

/-- A parser that decides on the next token and consumes at most that. -/
theorem halts_next (p : τ → Bool) (message : String) (value : τ → α)
    {take : τ → Buffer τ → Parser Γ τ α} (htake : ∀ s left t rest, (take t rest).Halts ends G s left
      (.done (.success { s with remaining := rest } (value t)) left)) :
    ((ensure 1).bind fun input => match input.uncons? with
      | some (t, rest) => if p t then take t rest else fail message
      | none => fail message).Halts ends G s chunks
        ((s.fill (atLeast 1) ends chunks).map (next p message value)) := by
  refine halts_ensure_bind ends G s chunks 1 (fun s' left hsize => ?_) (fun s' hsize => ?_)
  · rw [Buffer.uncons?_eq]
    cases htokens : s'.remaining.toList with
    | nil => simp [Buffer.size_eq, htokens] at hsize
    | cons t rest =>
      rw [next_of_cons p message value htokens]
      dsimp only
      split
      · exact htake s' left t _
      · exact halts_fail _
  · have hnil : s'.remaining.toList = [] := by
      rw [Buffer.size_eq] at hsize
      exact List.length_eq_zero_iff.mp (by omega)
    exact next_of_nil p message value hnil

theorem halts_satisfy (p : τ → Bool) : (satisfy p).Halts ends G s chunks
    ((s.fill (atLeast 1) ends chunks).map (token p)) :=
  halts_next ends G s chunks p _ _ fun _ _ t rest => halts_bind (halts_put rest) (halts_pure t)

theorem halts_skip (p : τ → Bool) : (skip p).Halts ends G s chunks
    ((s.fill (atLeast 1) ends chunks).map (next p "skip" fun _ => ())) :=
  halts_next ends G s chunks p _ _ fun _ _ _ rest => halts_put rest

theorem halts_takeWith (n : Int) (p : List τ → Bool) : (takeWith n p).Halts ends G s chunks
    ((s.fill (atLeast n) ends chunks).map (block n p)) := by
  refine halts_ensure_bind ends G s chunks n (fun s' left hsize => ?_) (fun s' hsize => ?_)
  · rw [Buffer.splitAt_eq, block, if_pos hsize]
    dsimp only
    split
    · exact halts_bind (halts_put _) (halts_pure _)
    · exact halts_fail _
  · rw [block, if_neg hsize]

/-- A scan fills up to the first token outside the run. `Q found seen` says that `found` is what a
scan has gathered of the run `seen`. -/
theorem halts_scan (p : τ → Bool) {next : σ → List τ → σ} {Q : σ → List τ → Prop}
    (hQ : ∀ found seen run, Q found seen → Q (next found run) (seen ++ run)) (found : σ)
    (seen : List τ) (hfound : Q found seen) :
    (∃ s' left last, s.fill (escapes p) ends chunks = .done s' left ∧
      Q last (seen ++ s'.remaining.toList.takeWhile p) ∧
      (loop found (scanTurn p next)).Halts ends G s chunks
        (.done (.success (s'.behindRun p) last) left)) ∨
    ∃ s', s.fill (escapes p) ends chunks = .waiting s' ∧
      (loop found (scanTurn p next)).Halts ends G s chunks (.waiting s'.clear) := by
  -- each turn of the loop but the last uses up a chunk
  induction hlen : chunks.length using Nat.strongRecOn generalizing s chunks found seen with
  | ind len ih =>
    subst hlen
    have hnext := hQ found seen (s.remaining.toList.takeWhile p) hfound
    by_cases hrest : s.remaining.toList.dropWhile p = []
    · have hfill := fill_escapes hrest ends chunks
      rw [fill_escapes_then p ends s.clear] at hfill
      have hwant := halts_wantInput ends G s.clear chunks
      cases hfirst : s.clear.fill (atLeast 1) ends chunks with
      | waiting s' =>
        have hclear : (s'.prepend s.remaining.toList).clear = s' :=
          clear_of_nil (nil_of_fill_waiting hfirst)
        rw [hfirst] at hwant hfill
        refine .inr ⟨_, hfill, ?_⟩
        rw [hclear]
        exact halts_loop_waiting
          (halts_scanTurn_of_wantInput next found hrest (halts_bind_waiting _ hwant))
      | done s' left =>
        have hfilled := filled_of_fill hfirst
        rw [hfirst, Halt.map] at hwant
        rw [hfirst, Halt.goOn] at hfill
        by_cases hnil : s'.remaining.toList = []
        · -- the stream is over, and the run with it
          have hclosed := hfilled.closed ((atLeast_one_eq_false_iff _).mpr hnil)
          rw [fill_of_ready (ready_of_closed hclosed)] at hfill
          rw [if_pos (s'.remaining.isEmpty_iff.mpr hnil)] at hwant
          refine .inl ⟨_, left, next found (s.remaining.toList.takeWhile p), hfill, ?_, ?_⟩
          · rw [takeWhile_prepend hrest, hnil, List.takeWhile_nil, List.append_nil]
            exact hnext
          · rw [behindRun_prepend hrest, behindRun_of_nil p hnil]
            exact halts_loop_done
              (halts_scanTurn_of_wantInput next found hrest (halts_bind hwant (halts_pure _)))
        · have hsome : ¬ s'.remaining.isEmpty = true := by
            rwa [Buffer.isEmpty_iff]
          have hshorter : left.length < chunks.length := by
            apply hfilled.shorter
            intro hsame
            rw [hsame] at hnil
            exact hnil rfl
          rw [if_neg hsome] at hwant
          have hturn := halts_scanTurn_of_wantInput next found hrest
            (halts_bind hwant (halts_pure _))
          rcases ih left.length hshorter s' left _ _ hnext rfl with
            ⟨s'', left', last, hmore, hlast, hloop⟩ | ⟨s'', hmore, hloop⟩
          · rw [hmore] at hfill
            refine .inl ⟨_, left', last, hfill, ?_, ?_⟩
            · rw [takeWhile_prepend hrest, ← List.append_assoc]
              exact hlast
            · rw [behindRun_prepend hrest]
              exact halts_loop hturn hloop
          · rw [hmore] at hfill
            exact .inr ⟨_, hfill, halts_loop hturn hloop⟩
    · have hready := ready_of_enough ((escapes_iff p _).mpr hrest)
      refine .inl ⟨s, chunks, _, fill_of_ready hready chunks, hnext, ?_⟩
      exact halts_loop_done (halts_scanTurn _ _ hrest)

theorem halts_takeWhile (p : τ → Bool) : (takeWhile p).Halts ends G s chunks
    ((s.fill (escapes p) ends chunks).conclude
      (fun s' => .success (s'.behindRun p) (s'.remaining.toList.takeWhile p)) clear) := by
  have hadd : ∀ (fragments : Gather (List τ)) (seen run : List τ),
      fragments.toList.flatten = seen → (fragments.add run).toList.flatten = seen ++ run := by
    intro fragments seen run h
    rw [Gather.toList_add, List.flatten_append, h, List.flatten_singleton]
  rw [takeWhile_eq]
  rcases halts_scan ends G s chunks p hadd .empty [] rfl with
    ⟨s', left, last, hfill, hlast, hloop⟩ | ⟨s', hfill, hloop⟩
  · rw [hfill, Halt.conclude, ← List.nil_append (s'.remaining.toList.takeWhile p), ← hlast]
    exact halts_total (halts_bind hloop (halts_pure _))
  · rw [hfill]
    exact halts_total (halts_bind_waiting _ hloop)

theorem halts_skipWhile (p : τ → Bool) : (skipWhile p).Halts ends G s chunks
    ((s.fill (escapes p) ends chunks).conclude (fun s' => .success (s'.behindRun p) ()) clear) := by
  rw [skipWhile_eq]
  have hunit : ∀ (found : Unit) (seen run : List τ), True → True := fun _ _ _ _ => trivial
  rcases halts_scan ends G s chunks p (Q := fun _ _ => True) hunit () [] trivial with
    ⟨s', left, last, hfill, -, hloop⟩ | ⟨s', hfill, hloop⟩
  · rw [hfill]
    exact halts_total hloop
  · rw [hfill]
    exact halts_total hloop

theorem halts_firstInput :
    (if s.remaining.isEmpty then demandInput else pure ()).Halts ends G s chunks
      ((s.fill (atLeast 1) ends chunks).map fun s' =>
        if s'.remaining.isEmpty then .failure s' .notEnoughInput else .success s' ()) := by
  by_cases hempty : s.remaining.isEmpty = true
  · rw [← map_fill_of_isEmpty hempty, if_pos hempty]
    exact halts_demandInput ends G s chunks
  · have hne : s.remaining.toList ≠ [] := fun hnil => hempty (s.remaining.isEmpty_iff.mpr hnil)
    rw [fill_of_ready (ready_of_enough ((atLeast_one_iff _).mpr hne)), Halt.map, if_neg hempty,
      if_neg hempty]
    exact halts_pure ()

theorem halts_scanOnce_failure {p : τ → Bool} (h : s.remaining.toList.takeWhile p = []) :
    (scanOnce p).Halts ends G s chunks (.done (.failure s ⟨[], "take-while1"⟩) chunks) := by
  have hempty : (s.remaining.toList.takeWhile p).isEmpty = true := List.isEmpty_iff.mpr h
  refine halts_bind halts_get ?_
  rw [Buffer.span_eq]
  dsimp only
  rw [if_pos hempty]
  exact halts_fail _

/-- Once there is a token of the run, `takeWhile1` scans. -/
theorem halts_scanOnce {p : τ → Bool} {t : τ} {rest : List τ}
    (htokens : s.remaining.toList = t :: rest) (ht : p t = true) :
    (scanOnce p).Halts ends G s chunks ((s.fill (escapes p) ends chunks).conclude
      (fun s' => .success (s'.behindRun p) (s'.remaining.toList.takeWhile p)) clear) := by
  have hrun : (s.remaining.toList.takeWhile p).isEmpty = false := by
    rw [htokens, List.takeWhile_cons_of_pos ht]
    rfl
  refine halts_bind halts_get ?_
  rw [Buffer.span_eq]
  dsimp only
  rw [hrun, if_neg Bool.false_ne_true]
  refine halts_bind (halts_put _) ?_
  by_cases hrest : s.remaining.toList.dropWhile p = []
  · have hempty : (Buffer.ofList (s.remaining.toList.dropWhile p)).isEmpty = true := by
      rw [Buffer.isEmpty_eq, Buffer.toList_ofList, hrest]
      rfl
    have hclear : { s with remaining := .ofList (s.remaining.toList.dropWhile p) } = s.clear := by
      rw [hrest]
      rfl
    have hmore := halts_takeWhile ends G s.clear chunks p
    rw [if_pos hempty, hclear, fill_escapes hrest]
    cases hfill : s.clear.fill (escapes p) ends chunks with
    | done s' left =>
      rw [hfill] at hmore
      rw [Halt.onInput, Halt.conclude, behindRun_prepend hrest, takeWhile_prepend hrest]
      exact halts_bind hmore (halts_pure _)
    | waiting s' =>
      rw [hfill] at hmore
      exact halts_bind_waiting _ hmore
  · have hsome : ¬ (Buffer.ofList (s.remaining.toList.dropWhile p)).isEmpty = true := by
      rw [Buffer.isEmpty_eq, Buffer.toList_ofList, List.isEmpty_iff]
      exact hrest
    rw [if_neg hsome, fill_of_ready (ready_of_enough ((escapes_iff p _).mpr hrest))]
    exact halts_pure _

/-- Before it takes a run, `takeWhile1` looks for a token, and asks for the same chunks with it. -/
theorem halts_takeWhile1 (pred : τ → Bool) : (takeWhile1 pred).Halts ends G s chunks
    ((s.fill (escapes pred) ends chunks).conclude (startedRun pred) clear) := by
  have hfirst := halts_firstInput ends G s chunks
  rw [fill_escapes_then]
  cases hfill : s.fill (atLeast 1) ends chunks with
  | waiting s' =>
    rw [hfill] at hfirst
    rw [Halt.goOn, Halt.conclude, clear_of_nil (nil_of_fill_waiting hfill)]
    exact halts_bind halts_get (halts_bind_waiting _ hfirst)
  | done s' left =>
    rw [hfill, Halt.map] at hfirst
    rw [Halt.goOn]
    cases htokens : s'.remaining.toList with
    | nil =>
      have hempty := s'.remaining.isEmpty_iff.mpr htokens
      have hclosed := (filled_of_fill hfill).closed ((atLeast_one_eq_false_iff _).mpr htokens)
      rw [if_pos hempty] at hfirst
      rw [fill_of_ready (ready_of_closed hclosed), Halt.conclude, startedRun, if_pos hempty]
      exact halts_bind halts_get (halts_bind_failure _ hfirst)
    | cons t rest =>
      have hsome : ¬ s'.remaining.isEmpty = true := by
        rw [Buffer.isEmpty_eq, htokens]
        exact Bool.false_ne_true
      rw [if_neg hsome] at hfirst
      cases ht : pred t with
      | false =>
        have hnone : s'.remaining.toList.takeWhile pred = [] := by
          rw [htokens, List.takeWhile_cons_of_neg (Bool.eq_false_iff.mp ht)]
        have hescapes : escapes pred s'.remaining.toList = true := by
          rw [htokens, escapes, List.any_cons, ht]
          rfl
        have hscan := halts_scanOnce_failure ends G s' left hnone
        rw [fill_of_ready (ready_of_enough hescapes), Halt.conclude, startedRun, if_neg hsome,
          hnone, if_pos List.isEmpty_nil]
        exact halts_bind halts_get (halts_bind hfirst hscan)
      | true =>
        have hrun := dropWhile_singleton ht
        have hscan := halts_scanOnce ends G s' left htokens ht
        rw [fill_of_cons ends htokens (escapes_append hrun)] at hscan ⊢
        cases hmore : fill (escapes pred) ends { s' with remaining := .ofList rest } left with
        | waiting s'' =>
          rw [hmore] at hscan
          exact halts_bind halts_get (halts_bind hfirst hscan)
        | done s'' left' =>
          have hstarted : startedRun pred (s''.prepend [t]) =
              .success ((s''.prepend [t]).behindRun pred)
                ((s''.prepend [t]).remaining.toList.takeWhile pred) := by
            simp [startedRun, Buffer.isEmpty_eq, prepend, ht]
          rw [hmore] at hscan
          rw [Halt.onInput, Halt.conclude, hstarted]
          exact halts_bind halts_get (halts_bind hfirst hscan)

end Ask

/-! ## Parsers that glance at the input -/

/-- The parser asks until it has a token or knows of the end, and puts what remains to a test. It
may wait under a checkpoint, with another record. -/
structure Glances (ends : Bool) (G : Rules Γ τ) (p : Parser Γ τ α) (s : Input τ)
    (chunks : List (List τ)) (test : Buffer τ → Except Failure α) : Prop where
  done : ∀ {s' left}, s.fill (atLeast 1) ends chunks = .done s' left →
    p.Halts ends G s chunks (.done (s'.look test) left)
  waiting : ∀ {s'}, s.fill (atLeast 1) ends chunks = .waiting s' →
    ∃ record, p.Halts ends G s chunks (.waiting { s' with arrived := record })

section Glances

variable {ends : Bool} {G : Rules Γ τ} {p : Parser Γ τ α} {s : Input τ} {chunks : List (List τ)}
  {test test' : Buffer τ → Except Failure α}

theorem glances_of_halts
    (hp : p.Halts ends G s chunks ((s.fill (atLeast 1) ends chunks).map (look test))) :
    p.Glances ends G s chunks test := by
  constructor
  · intro s' left hfill
    rwa [hfill] at hp
  · intro s' hfill
    rw [hfill] at hp
    exact ⟨s'.arrived, hp⟩

theorem Glances.of_halts {q : Parser Γ τ α} (hp : p.Glances ends G s chunks test)
    (h : ∀ halt, p.Halts ends G s chunks halt → q.Halts ends G s chunks halt) :
    q.Glances ends G s chunks test := by
  constructor
  · intro s' left hfill
    exact h _ (hp.done hfill)
  · intro s' hfill
    obtain ⟨record, hwait⟩ := hp.waiting hfill
    exact ⟨record, h _ hwait⟩

/-- What follows a glance and settles at once is part of the test. -/
theorem Glances.bind {p : Parser Γ τ β} {f : β → Parser Γ τ α} {test : Buffer τ → Except Failure β}
    (answer : β → Except Failure α) (hp : p.Glances ends G s chunks test)
    (hf : ∀ b s' left, (f b).Halts ends G s' left (.done (s'.look fun _ => answer b) left))
    (htest : ∀ rest, (test rest).bind answer = test' rest) :
    (p.bind f).Glances ends G s chunks test' := by
  constructor
  · intro s' left hfill
    have hfirst := hp.done hfill
    rw [look] at hfirst
    rw [look, ← htest]
    cases h : test s'.remaining with
    | error e =>
      rw [h] at hfirst
      exact halts_bind_failure _ hfirst
    | ok b =>
      rw [h] at hfirst
      exact halts_bind hfirst (hf b s' left)
  · intro s' hfill
    obtain ⟨record, hwait⟩ := hp.waiting hfill
    exact ⟨record, halts_bind_waiting _ hwait⟩

theorem Glances.map {p : Parser Γ τ β} {test : Buffer τ → Except Failure β}
    (hp : p.Glances ends G s chunks test) (f : β → α)
    (htest : ∀ rest, (test rest).map f = test' rest) :
    (p.map f).Glances ends G s chunks test' := by
  refine hp.bind (fun b => .ok (f b)) (fun b s' left => halts_pure (f b)) fun rest => ?_
  rw [← htest]
  cases test rest <;> rfl

/-- Nothing is consumed, so it makes no difference whether a checkpoint is kept or gone back to. -/
theorem Glances.option (hp : p.Glances ends G s.checkpoint chunks test) (fallback : α)
    (htest : ∀ rest, .ok ((test rest).toOption.getD fallback) = test' rest) :
    (p.option fallback).Glances ends G s chunks test' := by
  constructor
  · intro s' left hfill
    obtain ⟨replies, rfl, hunder⟩ := fill_checkpoint_done hfill
    have hfirst := hp.done hunder
    have hrest : (s.checkpoint.after replies).remaining = (s.after replies).remaining := rfl
    rw [look, hrest] at hfirst
    rw [look, ← htest]
    cases h : test (s.after replies).remaining with
    | error e =>
      rw [h] at hfirst
      rw [← s.rewind_after replies]
      exact halts_alt_failure hfirst (halts_pure fallback)
    | ok a =>
      have hkeep : s.keep (s.checkpoint.after replies) = s.after replies := s.keep_after replies _
      rw [h] at hfirst
      rw [← hkeep]
      exact halts_alt hfirst
  · intro s' hfill
    obtain ⟨replies, rfl, hunder⟩ := fill_checkpoint_waiting hfill
    obtain ⟨record, hwait⟩ := hp.waiting hunder
    exact ⟨record, halts_alt_waiting hwait⟩

end Glances

section EndTests

variable (ends : Bool) (G : Rules Γ τ) (s : Input τ) (chunks : List (List τ))

theorem glances_wantInput :
    wantInput.Glances ends G s chunks fun rest => .ok (!rest.isEmpty) := by
  have hlook : (fun s' : Input τ => if s'.remaining.isEmpty then .success s' false
      else .success s' true) = look fun rest => .ok (!rest.isEmpty) := by
    funext s'
    rw [look]
    cases s'.remaining.isEmpty <;> rfl
  apply glances_of_halts
  rw [← hlook]
  exact halts_wantInput ends G s chunks

/-- Where nothing remains, demanding a chunk looks for a token. -/
theorem glances_demandInput (h : s.remaining.isEmpty = true) : demandInput.Glances ends G s chunks
    fun rest => if rest.isEmpty then .error .notEnoughInput else .ok () := by
  have hlook : (fun s' : Input τ => if s'.remaining.isEmpty then .failure s' .notEnoughInput
      else .success s' ()) =
        look fun rest => if rest.isEmpty then .error .notEnoughInput else .ok () := by
    funext s'
    rw [look]
    cases s'.remaining.isEmpty <;> rfl
  apply glances_of_halts
  rw [← hlook, ← map_fill_of_isEmpty h]
  exact halts_demandInput ends G s chunks

theorem glances_endOfInput : endOfInput.Glances ends G s chunks fun rest =>
    if rest.isEmpty then .ok () else .error ⟨[], "end-of-input"⟩ := by
  cases hempty : s.remaining.isEmpty with
  | false =>
    have hready := ready_of_enough ((isEmpty_remaining_eq_false_iff s).mp hempty)
    apply glances_of_halts
    rw [fill_of_ready hready, Halt.map, look, hempty]
    refine halts_bind halts_get ?_
    rw [hempty]
    exact halts_fail _
  | true =>
    have hdemand := glances_demandInput ends G s.checkpoint chunks hempty
    have hprobe : (option false (map (fun _ => true) demandInput)).Glances ends G s chunks
        fun rest => .ok (!rest.isEmpty) := by
      refine (hdemand.map (fun _ => true) fun rest => rfl).option false fun rest => ?_
      cases rest.isEmpty <;> rfl
    have hanswer : ((option false (map (fun _ => true) demandInput)).bind fun more =>
        if more then fail "end-of-input" else pure ()).Glances ends G s chunks fun rest =>
          if rest.isEmpty then .ok () else .error ⟨[], "end-of-input"⟩ := by
      refine hprobe.bind (fun more => if more then .error ⟨[], "end-of-input"⟩ else .ok ())
        (fun more s' left => ?_) fun rest => ?_
      · cases more with
        | true => exact halts_fail _
        | false => exact halts_pure ()
      · cases rest.isEmpty <;> rfl
    refine hanswer.of_halts fun halt h => halts_bind halts_get ?_
    rw [if_pos hempty]
    exact h

end EndTests

end Parser

end Piecemeal
