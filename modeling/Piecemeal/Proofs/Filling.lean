import Piecemeal.Proofs.Future

/-!
# Filling the input until there is enough

`Input.fill enough ends s chunks` takes chunks from the stream, as long as the tokens that remain
in `s` are not `enough` and the end is not known. It is the one way in which parsers ask for input.

Nothing that was ahead is lost on the way (`filled_of_fill`). Filling up to a weaker test first
makes no difference (`fill_then`), tokens in front of the input can be counted in with the test
(`fill_prepend`), and the record of what arrives is kept but never looked at (`fill_record`).

The outcomes at the end of this module are those of parsers that fill and then decide.
-/

namespace Piecemeal

variable {ι : Type} {Γ : ι → Type} {τ α β ρ σ : Type}

namespace Halt

def map (f : ρ → σ) : Halt τ ρ → Halt τ σ
  | done a left => done (f a) left
  | waiting s => waiting s

theorem map_map (f : ρ → σ) (g : σ → α) (halt : Halt τ ρ) :
    (halt.map f).map g = halt.map fun a => g (f a) := by
  cases halt <;> rfl

/-- Goes on from an answer, with the chunks that are left. -/
def goOn (f : ρ → List (List τ) → Halt τ σ) : Halt τ ρ → Halt τ σ
  | done a left => f a left
  | waiting s => waiting s

/-- Changes the input, whether the stop is an answer or a wait. -/
def onInput (f : Input τ → Input τ) : Halt τ (Input τ) → Halt τ (Input τ)
  | done s left => done (f s) left
  | waiting s => waiting (f s)

/-- Reads an outcome off the input, or changes the input where the stop is a wait. -/
def conclude (f : Input τ → Outcome τ α) (g : Input τ → Input τ) :
    Halt τ (Input τ) → Halt τ (Outcome τ α)
  | done s left => done (f s) left
  | waiting s => waiting (g s)

theorem map_eq_conclude (f : Input τ → Outcome τ α) (halt : Halt τ (Input τ)) :
    halt.map f = halt.conclude f id := by
  cases halt <;> rfl

end Halt

namespace Input

/-- There is no need to ask, or no use. -/
def ready (enough : List τ → Bool) (s : Input τ) : Bool :=
  enough s.remaining.toList || s.closed

/-- Asks for chunks until what remains is `enough` or the stream is over. -/
def fill (enough : List τ → Bool) (ends : Bool) : Input τ → List (List τ) → Halt τ (Input τ)
  | s, [] => if s.ready enough then .done s [] else if ends then .done s.close [] else .waiting s
  | s, chunk :: left =>
    if s.ready enough then .done s (chunk :: left)
    else fill enough ends (s.after [.chunk chunk]) left

/-- Puts tokens in front of those remaining. -/
def prepend (tokens : List τ) (s : Input τ) : Input τ :=
  { s with remaining := .ofList tokens ++ s.remaining }

theorem after_chunk_nil (s : Input τ) : s.after [.chunk []] = s := by
  have hidle : Idle [(.chunk [] : Reply τ)] := ⟨rfl, rfl⟩
  exact (s.after_idle_append hidle []).trans s.after_nil

section Fill

variable {enough enough' : List τ → Bool} {ends : Bool} {s s' : Input τ}
  {chunks left : List (List τ)}

theorem ready_of_enough (h : enough s.remaining.toList = true) : s.ready enough = true := by
  rw [ready, h, Bool.true_or]

theorem ready_of_closed (h : s.closed = true) : s.ready enough = true := by
  rw [ready, h, Bool.or_true]

theorem ready_mono (h : ∀ tokens, enough' tokens = true → enough tokens = true)
    (hready : s.ready enough = false) : s.ready enough' = false := by
  obtain ⟨hshort, hopen⟩ := Bool.or_eq_false_iff.mp hready
  rw [ready, hopen, Bool.or_false, Bool.eq_false_iff]
  intro henough
  exact Bool.eq_false_iff.mp hshort (h _ henough)

theorem fill_of_ready (h : s.ready enough = true) (chunks : List (List τ)) :
    s.fill enough ends chunks = .done s chunks := by
  cases chunks <;> simp only [fill, h, if_true]

theorem fill_nil (h : s.ready enough = false) :
    s.fill enough ends [] = if ends then .done s.close [] else .waiting s := by
  simp only [fill, h, Bool.false_eq_true, if_false]

theorem fill_cons (h : s.ready enough = false) (chunk : List τ) (left : List (List τ)) :
    s.fill enough ends (chunk :: left) = (s.after [.chunk chunk]).fill enough ends left := by
  simp only [fill, h, Bool.false_eq_true, if_false]

/-- How filling stops: there is enough or the stream is over, and everything that was ahead still
is. -/
structure Filled (enough : List τ → Bool) (ends : Bool) (s : Input τ) (chunks : List (List τ))
    (s' : Input τ) (left : List (List τ)) : Prop where
  ready : s'.ready enough = true
  sound : s.Sound ends chunks → s'.Sound ends left
  ahead_eq : s'.ahead left = s.ahead chunks
  length_le : left.length ≤ chunks.length
  shorter : s'.remaining ≠ s.remaining → left.length < chunks.length

theorem filled_of_ready (h : s.ready enough = true) (chunks : List (List τ)) :
    s.Filled enough ends chunks s chunks where
  ready := h
  sound hs := hs
  ahead_eq := rfl
  length_le := Nat.le_refl _
  shorter hne := absurd rfl hne

theorem filled_of_fill (h : s.fill enough ends chunks = .done s' left) :
    s.Filled enough ends chunks s' left := by
  induction chunks generalizing s with
  | nil =>
    cases hready : s.ready enough with
    | true =>
      rw [fill_of_ready hready] at h
      cases h
      exact filled_of_ready hready []
    | false =>
      rw [fill_nil hready] at h
      cases ends with
      | true =>
        cases h
        exact ⟨ready_of_closed rfl, fun _ _ => ⟨rfl, rfl⟩, rfl, Nat.le_refl 0,
          fun hne => absurd rfl hne⟩
      | false => cases h
  | cons chunk rest ih =>
    cases hready : s.ready enough with
    | true =>
      rw [fill_of_ready hready] at h
      cases h
      exact filled_of_ready hready _
    | false =>
      rw [fill_cons hready] at h
      have hfilled := ih h
      have hlt : left.length < (chunk :: rest).length := Nat.lt_succ_of_le hfilled.length_le
      refine ⟨hfilled.ready, fun _ => ?_, ?_, Nat.le_of_lt hlt, fun _ => hlt⟩
      · -- a chunk was asked for, so the end was not known
        have hopen := (Bool.or_eq_false_iff.mp hready).2
        apply hfilled.sound
        intro hclosed
        simp [after, hopen, Reply.isEnd] at hclosed
      · rw [hfilled.ahead_eq]
        simp [ahead, after, Reply.tokens]

theorem of_fill_waiting (h : s.fill enough ends chunks = .waiting s') :
    s'.ready enough = false ∧ ends = false ∧ s'.remaining.toList = s.ahead chunks := by
  induction chunks generalizing s with
  | nil =>
    cases hready : s.ready enough with
    | true =>
      rw [fill_of_ready hready] at h
      cases h
    | false =>
      rw [fill_nil hready] at h
      cases ends with
      | true => cases h
      | false =>
        cases h
        exact ⟨hready, rfl, (List.append_nil _).symm⟩
  | cons chunk rest ih =>
    cases hready : s.ready enough with
    | true =>
      rw [fill_of_ready hready] at h
      cases h
    | false =>
      rw [fill_cons hready] at h
      obtain ⟨hshort, hends, hahead⟩ := ih h
      refine ⟨hshort, hends, hahead.trans ?_⟩
      simp [ahead, after, Reply.tokens]

theorem Filled.closed (h : s.Filled enough ends chunks s' left)
    (hshort : enough s'.remaining.toList = false) : s'.closed = true := by
  have hready := h.ready
  rwa [Input.ready, hshort, Bool.false_or] at hready

/-- Filling stops with enough, or with all there is. -/
theorem Filled.enough_or (h : s.Filled enough ends chunks s' left) (hs : s.Sound ends chunks) :
    enough s'.remaining.toList = true ∨ ends = true ∧ left = [] := by
  cases hshort : enough s'.remaining.toList with
  | true => exact .inl rfl
  | false => exact .inr (h.sound hs (h.closed hshort))

/-- Filling up to a weaker test first makes no difference. -/
theorem fill_then (h : ∀ tokens, enough' tokens = true → enough tokens = true) (ends : Bool)
    (s : Input τ) (chunks : List (List τ)) :
    s.fill enough' ends chunks =
      (s.fill enough ends chunks).goOn fun s' left => s'.fill enough' ends left := by
  induction chunks generalizing s with
  | nil =>
    cases hready : s.ready enough with
    | true => rw [fill_of_ready hready, Halt.goOn]
    | false =>
      rw [fill_nil hready, fill_nil (ready_mono h hready)]
      cases ends with
      | true => exact (fill_of_ready (ready_of_closed rfl) []).symm
      | false => rfl
  | cons chunk left ih =>
    cases hready : s.ready enough with
    | true => rw [fill_of_ready hready, Halt.goOn]
    | false => rw [fill_cons hready, fill_cons (ready_mono h hready), ih]

/-- Tokens in front can be counted in with the test. -/
theorem fill_prepend (tokens : List τ) (s : Input τ) (chunks : List (List τ)) :
    (s.prepend tokens).fill enough ends chunks =
      (s.fill (fun rest => enough (tokens ++ rest)) ends chunks).onInput (prepend tokens) := by
  have hready : ∀ s : Input τ, (s.prepend tokens).ready enough =
      s.ready fun rest => enough (tokens ++ rest) := by
    intro s
    simp [ready, prepend]
  induction chunks generalizing s with
  | nil =>
    simp only [fill, hready]
    split
    · rfl
    · cases ends <;> rfl
  | cons chunk left ih =>
    have hafter : (s.prepend tokens).after [.chunk chunk] =
        (s.after [.chunk chunk]).prepend tokens := by
      ext1
      · ext1
        simp [prepend, after]
      · rfl
      · rfl
    simp only [fill, hready, hafter, ih]
    split <;> rfl

/-- The record of what arrives is kept but never looked at. -/
theorem fill_record (enough : List τ → Bool) (ends : Bool) (s : Input τ)
    (chunks : List (List τ)) :
    (∃ replies left, ∀ record, fill enough ends { s with arrived := record } chunks =
      .done (after { s with arrived := record } replies) left) ∨
    ∃ replies, ∀ record, fill enough ends { s with arrived := record } chunks =
      .waiting (after { s with arrived := record } replies) := by
  have hsame : ∀ (s : Input τ) record, ready enough { s with arrived := record } = s.ready enough :=
    fun _ _ => rfl
  induction chunks generalizing s with
  | nil =>
    cases hready : s.ready enough with
    | true =>
      refine .inl ⟨[], [], fun record => ?_⟩
      rw [fill_of_ready ((hsame s record).trans hready), after_nil]
    | false =>
      cases ends with
      | true =>
        refine .inl ⟨[.ended], [], fun record => ?_⟩
        rw [fill_nil ((hsame s record).trans hready), after_ended]
        rfl
      | false =>
        refine .inr ⟨[], fun record => ?_⟩
        rw [fill_nil ((hsame s record).trans hready), after_nil]
        rfl
  | cons chunk rest ih =>
    cases hready : s.ready enough with
    | true =>
      refine .inl ⟨[], chunk :: rest, fun record => ?_⟩
      rw [fill_of_ready ((hsame s record).trans hready), after_nil]
    | false =>
      rcases ih (s.after [.chunk chunk]) with ⟨replies, left, h⟩ | ⟨replies, h⟩
      · refine .inl ⟨[.chunk chunk] ++ replies, left, fun record => ?_⟩
        rw [fill_cons ((hsame s record).trans hready), after_append]
        exact h _
      · refine .inr ⟨[.chunk chunk] ++ replies, fun record => ?_⟩
        rw [fill_cons ((hsame s record).trans hready), after_append]
        exact h _

/-- Nothing is consumed in between, so keeping what a checkpoint has led to or going back to it
comes to the same. -/
theorem rewind_after (s : Input τ) (replies : List (Reply τ)) :
    s.rewind (s.checkpoint.after replies) = s.after replies := by
  ext1
  · simp [rewind, checkpoint, after]
  · simp [rewind, checkpoint, after]
  · simp [rewind, outerRecord, checkpoint, after]

theorem keep_after (s : Input τ) (replies : List (Reply τ)) (rest : Buffer τ) :
    s.keep { s.checkpoint.after replies with remaining := rest } =
      { s.after replies with remaining := rest } := by
  ext1
  · rfl
  · rfl
  · simp [keep, outerRecord, checkpoint, after]

/-- Under a checkpoint the same chunks are asked for. -/
theorem fill_checkpoint_done (h : s.fill enough ends chunks = .done s' left) :
    ∃ replies, s' = s.after replies ∧
      s.checkpoint.fill enough ends chunks = .done (s.checkpoint.after replies) left := by
  rcases fill_record enough ends s chunks with ⟨replies, left', hfill⟩ | ⟨replies, hfill⟩
  · have hs : s.fill enough ends chunks = .done (s.after replies) left' := hfill s.arrived
    rw [h] at hs
    cases hs
    exact ⟨replies, rfl, hfill (some .empty)⟩
  · have hs : s.fill enough ends chunks = .waiting (s.after replies) := hfill s.arrived
    rw [h] at hs
    cases hs

theorem fill_checkpoint_waiting (h : s.fill enough ends chunks = .waiting s') :
    ∃ replies, s' = s.after replies ∧
      s.checkpoint.fill enough ends chunks = .waiting (s.checkpoint.after replies) := by
  rcases fill_record enough ends s chunks with ⟨replies, left', hfill⟩ | ⟨replies, hfill⟩
  · have hs : s.fill enough ends chunks = .done (s.after replies) left' := hfill s.arrived
    rw [h] at hs
    cases hs
  · have hs : s.fill enough ends chunks = .waiting (s.after replies) := hfill s.arrived
    rw [h] at hs
    cases hs
    exact ⟨replies, rfl, hfill (some .empty)⟩

end Fill

/-- There are `n` tokens or more. -/
def atLeast (n : Int) (tokens : List τ) : Bool := decide (n ≤ tokens.length)

theorem atLeast_mono {m n : Int} (h : m ≤ n) {tokens : List τ} (hn : atLeast n tokens = true) :
    atLeast m tokens = true := by
  rw [atLeast, decide_eq_true_eq] at hn ⊢
  omega

/-- There is a token that does not satisfy `p`. -/
def escapes (p : τ → Bool) (tokens : List τ) : Bool := tokens.any fun t => !p t

theorem atLeast_one_iff (tokens : List τ) : atLeast 1 tokens = true ↔ tokens ≠ [] := by
  rw [atLeast, decide_eq_true_eq, ← List.length_pos_iff]
  omega

theorem atLeast_one_eq_false_iff (tokens : List τ) : atLeast 1 tokens = false ↔ tokens = [] := by
  cases tokens with
  | nil => exact ⟨fun _ => rfl, fun _ => rfl⟩
  | cons t rest =>
    have hone := (atLeast_one_iff (t :: rest)).mpr (List.cons_ne_nil t rest)
    simp [hone]

theorem isEmpty_remaining_eq_false_iff (s : Input τ) :
    s.remaining.isEmpty = false ↔ atLeast 1 s.remaining.toList = true := by
  rw [atLeast_one_iff, Buffer.isEmpty_eq, List.isEmpty_eq_false_iff]

theorem escapes_iff (p : τ → Bool) (tokens : List τ) :
    escapes p tokens = true ↔ tokens.dropWhile p ≠ [] := by
  induction tokens with
  | nil => simp [escapes]
  | cons t rest ih =>
    cases ht : p t with
    | true =>
      rw [escapes, List.any_cons, ht, List.dropWhile_cons_of_pos ht]
      exact ih
    | false => simp [escapes, ht]

theorem escapes_eq_false_iff (p : τ → Bool) (tokens : List τ) :
    escapes p tokens = false ↔ tokens.dropWhile p = [] := by
  rw [← Bool.not_eq_true, escapes_iff, ne_eq, Classical.not_not]

theorem atLeast_of_escapes {p : τ → Bool} {tokens : List τ} (h : escapes p tokens = true) :
    atLeast 1 tokens = true := by
  rw [atLeast_one_iff]
  rintro rfl
  cases h

section Span

variable (p : τ → Bool) {first : List τ} (second : List τ)

theorem takeWhile_append_right (h : first.dropWhile p = []) :
    (first ++ second).takeWhile p = first.takeWhile p ++ second.takeWhile p := by
  have hall : first.takeWhile p = first := by
    have hsplit := List.takeWhile_append_dropWhile (p := p) (l := first)
    rwa [h, List.append_nil] at hsplit
  rw [List.takeWhile_append, hall, if_pos rfl]

theorem takeWhile_append_left (h : first.dropWhile p ≠ []) :
    (first ++ second).takeWhile p = first.takeWhile p := by
  have hlen : (first.takeWhile p).length ≠ first.length := by
    have hsplit := congrArg List.length (List.takeWhile_append_dropWhile (p := p) (l := first))
    have hpos := List.length_pos_iff.mpr h
    rw [List.length_append] at hsplit
    omega
  rw [List.takeWhile_append, if_neg hlen]

theorem dropWhile_append_right (h : first.dropWhile p = []) :
    (first ++ second).dropWhile p = second.dropWhile p := by
  rw [List.dropWhile_append, h]
  rfl

theorem dropWhile_append_left (h : first.dropWhile p ≠ []) :
    (first ++ second).dropWhile p = first.dropWhile p ++ second := by
  rw [List.dropWhile_append, if_neg (by simpa using h)]

end Span

theorem dropWhile_singleton {p : τ → Bool} {t : τ} (h : p t = true) : [t].dropWhile p = [] := by
  rw [List.dropWhile_cons_of_pos h, List.dropWhile_nil]

/-- Tokens that satisfy `p` make no difference to whether one does not. -/
theorem escapes_append {p : τ → Bool} {tokens : List τ} (h : tokens.dropWhile p = []) :
    (fun rest => escapes p (tokens ++ rest)) = escapes p := by
  have hnone : escapes p tokens = false := (escapes_eq_false_iff p tokens).mpr h
  funext rest
  rw [escapes, List.any_append, ← escapes, hnone, Bool.false_or, escapes]

theorem nil_of_fill_waiting {ends : Bool} {s s' : Input τ} {chunks : List (List τ)}
    (h : s.fill (atLeast 1) ends chunks = .waiting s') : s'.remaining.toList = [] := by
  obtain ⟨hshort, -⟩ := Bool.or_eq_false_iff.mp (of_fill_waiting h).1
  exact (atLeast_one_eq_false_iff _).mp hshort

theorem fill_escapes_then (p : τ → Bool) (ends : Bool) (s : Input τ) (chunks : List (List τ)) :
    s.fill (escapes p) ends chunks =
      (s.fill (atLeast 1) ends chunks).goOn fun s' left => s'.fill (escapes p) ends left := by
  apply fill_then
  intro tokens h
  exact atLeast_of_escapes h

/-- Where nothing remains, one token more than that is one token. -/
theorem map_fill_of_isEmpty {s : Input τ} (h : s.remaining.isEmpty = true) {ends : Bool}
    {chunks : List (List τ)} {f g : Input τ → ρ} :
    ((s.fill (atLeast (s.remaining.size + 1)) ends chunks).map fun s' =>
        if s.remaining.size < s'.remaining.size then f s' else g s') =
      (s.fill (atLeast 1) ends chunks).map fun s' =>
        if s'.remaining.isEmpty then g s' else f s' := by
  have hsize : s.remaining.size = 0 := by
    rw [Buffer.size_eq, s.remaining.isEmpty_iff.mp h]
    rfl
  have htest : ∀ s' : Input τ, (if 0 < s'.remaining.size then f s' else g s') =
      if s'.remaining.isEmpty then g s' else f s' := by
    intro s'
    rw [Buffer.isEmpty]
    cases s'.remaining.size <;> rfl
  simp only [hsize, htest]
  rfl

/-- Consumes everything that remains. -/
def clear (s : Input τ) : Input τ := { s with remaining := .empty }

theorem clear_of_nil {s : Input τ} (h : s.remaining.toList = []) : s.clear = s := by
  ext1
  · ext1
    rw [h]
    rfl
  · rfl
  · rfl

theorem prepend_clear (s : Input τ) : s.clear.prepend s.remaining.toList = s := by
  ext1
  · simp [prepend, clear]
  · rfl
  · rfl

/-- What is made of the next token, if there is one and it satisfies `p`. -/
def next (p : τ → Bool) (message : String) (value : τ → α) (s : Input τ) : Outcome τ α :=
  match s.remaining.toList with
  | [] => .failure s .notEnoughInput
  | t :: rest =>
    if p t then .success { s with remaining := .ofList rest } (value t)
    else .failure s ⟨[], message⟩

section Next

variable (p : τ → Bool) (message : String) (value : τ → α) {s : Input τ}

theorem next_of_nil (h : s.remaining.toList = []) :
    s.next p message value = .failure s .notEnoughInput := by
  rw [next, h]

theorem next_of_cons {t : τ} {rest : List τ} (h : s.remaining.toList = t :: rest) :
    s.next p message value = if p t then .success { s with remaining := .ofList rest } (value t)
      else .failure s ⟨[], message⟩ := by
  rw [next, h]

end Next

/-- The next token, if there is one and it satisfies `p`. -/
def token (p : τ → Bool) : Input τ → Outcome τ τ := next p "satisfy?" id

theorem token_of_nil (p : τ → Bool) {s : Input τ} (h : s.remaining.toList = []) :
    s.token p = .failure s .notEnoughInput := next_of_nil p _ _ h

theorem token_of_cons (p : τ → Bool) {s : Input τ} {t : τ} {rest : List τ}
    (h : s.remaining.toList = t :: rest) :
    s.token p = if p t then .success { s with remaining := .ofList rest } t
      else .failure s ⟨[], "satisfy?"⟩ := next_of_cons p _ _ h

/-- The next `n` tokens, if there are that many and `p` accepts them. -/
def block (n : Int) (p : List τ → Bool) (s : Input τ) : Outcome τ (List τ) :=
  if n ≤ s.remaining.size then
    if p (s.remaining.toList.take n.toNat) then
      .success { s with remaining := .ofList (s.remaining.toList.drop n.toNat) }
        (s.remaining.toList.take n.toNat)
    else .failure s ⟨[], "take-with"⟩
  else .failure s .notEnoughInput

/-- What is behind the run of tokens that satisfy `p`. -/
def behindRun (p : τ → Bool) (s : Input τ) : Input τ :=
  { s with remaining := .ofList (s.remaining.toList.dropWhile p) }

theorem behindRun_of_nil (p : τ → Bool) {s : Input τ} (h : s.remaining.toList = []) :
    s.behindRun p = s := by
  have hclear := clear_of_nil h
  rw [behindRun, h]
  exact hclear

/-- The run of tokens that satisfy `p`, if there is one. -/
def startedRun (p : τ → Bool) (s : Input τ) : Outcome τ (List τ) :=
  if s.remaining.isEmpty then .failure s .notEnoughInput
  else if (s.remaining.toList.takeWhile p).isEmpty then .failure s ⟨[], "take-while1"⟩
  else .success (s.behindRun p) (s.remaining.toList.takeWhile p)

/-- The outcome of a parser that puts what remains to a test, and leaves it. -/
def look (test : Buffer τ → Except Failure α) (s : Input τ) : Outcome τ α :=
  match test s.remaining with
  | .ok a => .success s a
  | .error e => .failure s e

theorem input_look (test : Buffer τ → Except Failure α) (s : Input τ) :
    (s.look test).input = s := by
  unfold look
  split <;> rfl

section Run

variable {p : τ → Bool} {tokens : List τ} (h : tokens.dropWhile p = []) (s : Input τ)

include h

theorem behindRun_prepend : (s.prepend tokens).behindRun p = s.behindRun p := by
  have hdrop := dropWhile_append_right p s.remaining.toList h
  simp only [behindRun, prepend, Buffer.toList_append, Buffer.toList_ofList, hdrop]

theorem takeWhile_prepend : (s.prepend tokens).remaining.toList.takeWhile p =
    tokens.takeWhile p ++ s.remaining.toList.takeWhile p := by
  rw [← takeWhile_append_right p s.remaining.toList h, prepend, Buffer.toList_append,
    Buffer.toList_ofList]

end Run

/-- Tokens with one outside the run, or with nothing behind them, begin with the whole of it. -/
theorem takeWhile_of_escapes {p : τ → Bool} {tokens rest : List τ}
    (h : escapes p tokens = true ∨ rest = []) :
    tokens.takeWhile p = (tokens ++ rest).takeWhile p := by
  rcases h with h | rfl
  · exact (takeWhile_append_left p rest ((escapes_iff p tokens).mp h)).symm
  · rw [List.append_nil]

/-- So many tokens, or tokens with nothing behind them, are so many if all are. -/
theorem le_length_iff_of_atLeast {n : Int} {tokens rest : List τ}
    (h : atLeast n tokens = true ∨ rest = []) :
    n ≤ tokens.length ↔ n ≤ (tokens ++ rest).length := by
  rcases h with h | rfl
  · rw [atLeast, decide_eq_true_eq] at h
    rw [List.length_append]
    omega
  · rw [List.append_nil]

/-- Where everything that remains belongs to a run, a token outside it is looked for in what
follows. -/
theorem fill_escapes {p : τ → Bool} {s : Input τ} (h : s.remaining.toList.dropWhile p = [])
    (ends : Bool) (chunks : List (List τ)) :
    s.fill (escapes p) ends chunks =
      (s.clear.fill (escapes p) ends chunks).onInput (prepend s.remaining.toList) := by
  calc s.fill (escapes p) ends chunks
      = (s.clear.prepend s.remaining.toList).fill (escapes p) ends chunks := by
        rw [prepend_clear]
    _ = (s.clear.fill (fun rest => escapes p (s.remaining.toList ++ rest)) ends
          chunks).onInput (prepend s.remaining.toList) := fill_prepend ..
    _ = _ := by rw [escapes_append h]

theorem prepend_singleton {s : Input τ} {t : τ} {rest : List τ}
    (h : s.remaining.toList = t :: rest) :
    prepend [t] { s with remaining := .ofList rest } = s := by
  ext1
  · ext1
    rw [h]
    simp [prepend]
  · rfl
  · rfl

/-- The first token may be taken before filling, if the test does not need it. -/
theorem fill_of_cons {enough enough' : List τ → Bool} (ends : Bool) {s : Input τ} {t : τ}
    {rest : List τ} (h : s.remaining.toList = t :: rest)
    (hsame : (fun tokens => enough' ([t] ++ tokens)) = enough) (chunks : List (List τ)) :
    s.fill enough' ends chunks =
      (fill enough ends { s with remaining := .ofList rest } chunks).onInput (prepend [t]) := by
  rw [← hsame, ← fill_prepend, prepend_singleton h]

end Input

end Piecemeal
