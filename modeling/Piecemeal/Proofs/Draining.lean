import Mathlib.Data.List.TakeWhile
import Piecemeal.Proofs.Deliveries

/-!
# Draining a stream

`takeRest` takes all the rest of a stream, and does not join it: its value is what remained at the
start and then each chunk as it was delivered, where nothing and empty chunks are left out
(`Input.pieces`). The loop behind it takes one turn for each piece, which may go past any number of
empty chunks before it, and one more turn to learn of the end. So the induction is over the pieces
that are still to come (`halts_drain`), and a start with something remaining is a turn in front of
it.

Joined, the pieces are what `takeWhile` finds when every token is good enough, and both leave the
stream at its end.
-/

namespace Piecemeal

variable {ι : Type} {Γ : ι → Type} {τ : Type}

namespace Input

/-- What remains and then the chunks to come, without the empty ones. -/
def pieces (s : Input τ) (chunks : List (List τ)) : List (List τ) :=
  (s.remaining.toList :: chunks).filter fun piece => !piece.isEmpty

/-- The input at the end of the stream, when all of it has been consumed. -/
def drained (s : Input τ) (chunks : List (List τ)) : Input τ where
  remaining := .empty
  closed := true
  arrived := s.arrived.map (· ++ .ofList chunks.flatten)

/-- What arrives before is drained as well. -/
theorem drained_after (s : Input τ) {blanks : List (List τ)}
    (hblanks : ∀ chunk ∈ blanks, chunk = []) (piece : List τ) (rest : List (List τ)) :
    (s.after [.chunk piece]).clear.drained rest = s.drained (blanks ++ piece :: rest) := by
  have hnone : blanks.flatten = [] := List.flatten_eq_nil_iff.mpr hblanks
  ext1
  · rfl
  · rfl
  · simp [drained, clear, after, Reply.tokens, hnone, Buffer.append_ofList_append,
      Function.comp_def]

theorem nil_notMem_pieces (s : Input τ) (chunks : List (List τ)) : [] ∉ s.pieces chunks := by
  intro h
  have hne := (List.mem_filter.mp h).2
  simp at hne

theorem flatten_pieces (s : Input τ) (chunks : List (List τ)) :
    (s.pieces chunks).flatten = s.ahead chunks := by
  rw [pieces, List.flatten_filter_not_isEmpty, List.flatten_cons, ahead]

section Fill

variable {enough : List τ → Bool} {ends : Bool} {s : Input τ}

/-- Empty chunks are asked for and make no difference. -/
theorem fill_blanks (hready : s.ready enough = false) {blanks : List (List τ)}
    (hblanks : ∀ chunk ∈ blanks, chunk = []) (chunks : List (List τ)) :
    s.fill enough ends (blanks ++ chunks) = s.fill enough ends chunks := by
  induction blanks with
  | nil => rfl
  | cons chunk blanks ih =>
    have hchunk : chunk = [] := hblanks chunk List.mem_cons_self
    subst hchunk
    rw [List.cons_append, fill_cons hready, after_chunk_nil]
    exact ih fun chunk h => hblanks chunk (List.mem_cons_of_mem _ h)

/-- Where there is never enough, all of the stream is asked for. -/
theorem fill_never {chunks : List (List τ)} (hs : s.Sound true chunks)
    (hnever : ∀ k, enough (s.ahead (chunks.take k)) = false) :
    s.fill enough true chunks =
      .done ⟨s.remaining ++ .ofList chunks.flatten, true,
        s.arrived.map (· ++ .ofList chunks.flatten)⟩ [] := by
  obtain ⟨k, ended, hextent, hfill⟩ := exists_fill enough s chunks
  rw [future_of_sound hs] at hextent hfill
  rw [hfill]
  cases hextent with
  | least h =>
    have henough : enough (s.ahead (chunks.take k)) = true := h.1
    exact absurd henough (Bool.eq_false_iff.mp (hnever k))
  | all h => simp [pull]

/-- Where nothing remains and only empty chunks come, the end is found. -/
theorem fill_of_blank {chunks : List (List τ)} (hs : s.Sound true chunks)
    (hnil : s.remaining.toList = []) (hblank : ∀ chunk ∈ chunks, chunk = []) :
    s.fill (atLeast 1) true chunks = .done (s.drained chunks) [] := by
  have hflatten : ∀ k, (chunks.take k).flatten = [] := by
    intro k
    rw [List.flatten_eq_nil_iff]
    intro chunk hchunk
    exact hblank chunk (List.mem_of_mem_take hchunk)
  have hall : chunks.flatten = [] := by simpa using hflatten chunks.length
  rw [fill_never hs]
  · congr 1
    ext1
    · ext1
      simp [drained, hnil, hall]
    · rfl
    · rfl
  · intro k
    rw [atLeast_one_eq_false_iff, ahead, hnil, hflatten, List.nil_append]

/-- Where nothing remains, the first chunk that is not empty is found. -/
theorem fill_piece (hopen : s.closed = false) (hnil : s.remaining.toList = [])
    {blanks : List (List τ)} (hblanks : ∀ chunk ∈ blanks, chunk = []) {piece : List τ}
    (hpiece : piece ≠ []) (rest : List (List τ)) :
    s.fill (atLeast 1) true (blanks ++ piece :: rest) = .done (s.after [.chunk piece]) rest ∧
      (s.after [.chunk piece]).remaining.toList = piece := by
  have hready : s.ready (atLeast 1) = false := by
    rw [ready, hopen, hnil]
    rfl
  have hremaining : (s.after [.chunk piece]).remaining.toList = piece := by
    simp [after, hnil, Reply.tokens]
  refine ⟨?_, hremaining⟩
  rw [fill_blanks hready hblanks, fill_cons hready]
  apply fill_of_ready
  apply ready_of_enough
  rwa [hremaining, atLeast_one_iff]

end Fill

end Input

namespace Parser

open Input

/-! ## Turn by turn -/

section Drain

variable (G : Rules Γ τ) {s s' : Input τ} {chunks left : List (List τ)}

theorem halts_drainTurn_piece (found : Gather (List τ))
    (hfill : s.fill (atLeast 1) true chunks = .done s' left) (hne : s'.remaining.toList ≠ []) :
    (drainTurn found).Halts true G s chunks
      (.done (.success s'.clear (.inl (found.add s'.remaining.toList))) left) := by
  have hturn := halts_drainTurn true G s chunks found
  have hsome : ¬ s'.remaining.isEmpty = true := by rwa [Buffer.isEmpty_iff]
  rwa [hfill, Halt.map, if_neg hsome] at hturn

theorem halts_drainTurn_end (found : Gather (List τ))
    (hfill : s.fill (atLeast 1) true chunks = .done s' left) (hnil : s'.remaining.toList = []) :
    (drainTurn found).Halts true G s chunks (.done (.success s' (.inr found)) left) := by
  have hturn := halts_drainTurn true G s chunks found
  rwa [hfill, Halt.map, if_pos ((Buffer.isEmpty_iff _).mpr hnil)] at hturn

/-- Where nothing remains, the loop takes the chunks to come that are not empty. -/
theorem halts_drain (found : Gather (List τ)) (hs : s.Sound true chunks)
    (hnil : s.remaining.toList = []) :
    (loop found drainTurn).Halts true G s chunks (.done (.success (s.drained chunks)
      (found.addAll (chunks.filter fun chunk => !chunk.isEmpty))) []) := by
  induction hpieces : chunks.filter (fun chunk => !chunk.isEmpty)
    generalizing s chunks found with
  | nil =>
    have hblank : ∀ chunk ∈ chunks, chunk = [] := by
      simpa using List.filter_eq_nil_iff.mp hpieces
    exact halts_loop_done (halts_drainTurn_end G found (fill_of_blank hs hnil hblank) rfl)
  | cons piece pieces ih =>
    -- the turn goes past the empty chunks before the piece
    obtain ⟨blanks, rest, rfl, hblanks, hpiece, hrest⟩ := List.filter_eq_cons_iff.mp hpieces
    replace hblanks : ∀ chunk ∈ blanks, chunk = [] := by simpa using hblanks
    replace hpiece : piece ≠ [] := by simpa using hpiece
    have hopen : s.closed = false := by
      rw [Bool.eq_false_iff]
      intro hclosed
      simpa using (hs hclosed).2
    obtain ⟨hfill, hremaining⟩ := fill_piece hopen hnil hblanks hpiece rest
    have hturn := halts_drainTurn_piece G found hfill (by rwa [hremaining])
    have hsound : (s.after [.chunk piece]).clear.Sound true rest := by
      intro hclosed
      simp [clear, after, hopen, Reply.isEnd] at hclosed
    rw [hremaining] at hturn
    rw [← drained_after s hblanks]
    exact halts_loop hturn (ih (found.add piece) hsound Buffer.toList_empty hrest)

theorem halts_takeRest (hs : s.Sound true chunks) :
    takeRest.Halts true G s chunks (.done (.success (s.drained chunks) (s.pieces chunks)) []) := by
  have hloop : ∃ found : Gather (List τ), found.toList = s.pieces chunks ∧
      (loop .empty drainTurn).Halts true G s chunks
        (.done (.success (s.drained chunks) found) []) := by
    by_cases hnil : s.remaining.toList = []
    · refine ⟨_, ?_, halts_drain G .empty hs hnil⟩
      simp [pieces, hnil]
    · have hfill : s.fill (atLeast 1) true chunks = .done s chunks := by
        apply fill_of_ready
        apply ready_of_enough
        rwa [atLeast_one_iff]
      have hturn := halts_drainTurn_piece G .empty hfill hnil
      have hrest := halts_drain G (Gather.empty.add s.remaining.toList) (s := s.clear) hs
        Buffer.toList_empty
      refine ⟨_, ?_, halts_loop hturn hrest⟩
      simp [pieces, hnil]
  obtain ⟨found, hfound, hloop⟩ := hloop
  rw [takeRest_eq, ← hfound]
  exact halts_total (halts_map hloop Gather.toList)

/-- A run in which every token is good enough is the rest of the stream. -/
theorem halts_takeWhile_all (hs : s.Sound true chunks) :
    (takeWhile fun _ => true).Halts true G s chunks
      (.done (.success (s.drained chunks) (s.ahead chunks)) []) := by
  have hrun := halts_takeWhile true G s chunks fun _ => true
  have hnever : ∀ k, escapes (fun _ => true) (s.ahead (chunks.take k)) = false := by
    intro k
    simp [escapes]
  rw [fill_never hs hnever, Halt.conclude] at hrun
  have hbehind : behindRun (fun _ => true) ⟨s.remaining ++ .ofList chunks.flatten, true,
      s.arrived.map (· ++ .ofList chunks.flatten)⟩ = s.drained chunks := by
    ext1
    · ext1
      simp [behindRun, drained, List.dropWhile_eq_nil_iff]
    · rfl
    · rfl
  have htaken : (s.remaining ++ .ofList chunks.flatten).toList.takeWhile (fun _ => true) =
      s.ahead chunks := by
    rw [List.takeWhile_eq_self_iff.mpr fun _ _ => rfl, ahead, Buffer.toList_append,
      Buffer.toList_ofList]
  rwa [hbehind, htaken] at hrun

/-- A parser that stops at the end of the stream has asked for all of it. -/
theorem takes_all {α : Type} {p : Parser Γ τ α} {o : Outcome τ α}
    (h : p.Halts true G s (s.future chunks) (.done o [])) (hclosed : o.input.closed = true) :
    p.Takes G s chunks (s.future chunks).length (!s.closed) o := by
  obtain ⟨k, hle, hnil, htakes⟩ := exists_takes_of_halts h
  have hge : (s.future chunks).length ≤ k := List.drop_eq_nil_iff.mp hnil.symm
  obtain rfl : k = (s.future chunks).length := by omega
  rwa [hclosed, Bool.true_and] at htakes

end Drain

/-- **Draining keeps the pieces apart.** Let `s` be any state, and let the stream go on with any
chunks and then end, or with nothing if `s` knows of the end. However this is delivered, `takeRest`
succeeds with what remained in `s`, unless that is nothing, and then each chunk that is not empty,
in the order of delivery; no piece is empty. Joined, the pieces are what `takeWhile` takes if it may
take every token. Both ask for all chunks and for the end, and leave the stream at its end with
nothing remaining. -/
theorem takeRest_drains (G : Rules Γ τ) (s : Input τ) (chunks : List (List τ)) :
    ∃ s' pieces,
      takeRest.Takes G s chunks (s.future chunks).length (!s.closed) (.success s' pieces) ∧
      pieces = (s.remaining.toList :: s.future chunks).filter (fun piece => !piece.isEmpty) ∧
      [] ∉ pieces ∧ s'.closed = true ∧ s'.remaining.toList = [] ∧
      (takeWhile fun _ => true).Takes G s chunks (s.future chunks).length (!s.closed)
        (.success s' pieces.flatten) := by
  have hs := s.sound_future chunks
  refine ⟨s.drained (s.future chunks), s.pieces (s.future chunks), ?_, rfl,
    nil_notMem_pieces _ _, rfl, Buffer.toList_empty, ?_⟩
  · exact takes_all G (halts_takeRest G hs) rfl
  · rw [flatten_pieces]
    exact takes_all G (halts_takeWhile_all G hs) rfl

-- Empty chunks come before, between and after the others.
example : ((takeRest : Parser Empty.elim Nat _).outcome nofun 20 (.ofList [1] false)).settleWith
    (.chunks [[], [2, 3], [], [4], []]) =
      (.done (.success ⟨.empty, true, none⟩ [[1], [2, 3], [4]]), ⟨[], .ended, 6⟩) := by rfl

end Parser

end Piecemeal
