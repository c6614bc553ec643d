import Mathlib.Order.Bounds.Defs
import Piecemeal.Proofs.Scanning
import Piecemeal.Text.Parsers

/-!
# Longest match with least reading

A scan or a block asks for chunks one at a time and stops at the first point where it can decide, so
it takes the fewest chunks that decide, and the whole of a stream that does not. `Input.Extent` says
how much of a stream that is, `Parser.ReadsFor` that a parser reads just so much and reads its
outcome off the input filled in this way.

To ask for a chunk too many blocks a caller who sends the next one only after an answer, so the
number of chunks is as much a part of the contract as the value. Both are stated here in terms of
the tokens ahead: the value does not depend on where the stream is cut, and how much is read depends
only on where the cuts lie.
-/

namespace Piecemeal

variable {ι : Type} {Γ : ι → Type} {τ α β : Type}

/-! ## Reading until there is enough -/

namespace Input

/-- The chunks that may still come: none once the end has been reported. -/
def future (s : Input τ) (chunks : List (List τ)) : List (List τ) := if s.closed then [] else chunks

/-- The tokens that can still be seen. -/
def outlook (s : Input τ) (chunks : List (List τ)) : List τ := s.ahead (s.future chunks)

/-- The input once the first `k` chunks have arrived, and the end has been reported too if
`ended`. -/
def pull (s : Input τ) (chunks : List (List τ)) (k : Nat) (ended : Bool) : Input τ where
  remaining := s.remaining ++ .ofList (chunks.take k).flatten
  closed := s.closed || ended
  arrived := s.arrived.map (· ++ .ofList (chunks.take k).flatten)

/-- Consumes the first `n` tokens. -/
def consume (n : Nat) (s : Input τ) : Input τ :=
  { s with remaining := .ofList (s.remaining.toList.drop n) }

/-- How much of a stream is read by a reader that stops as soon as the tokens it has are `enough`:
the least number of chunks with which they are, or all chunks and the end, unless it is known, if
they never are. -/
inductive Extent (enough : List τ → Bool) (s : Input τ) (chunks : List (List τ)) :
    Nat → Bool → Prop
  | least {k : Nat} (h : IsLeast {k | enough (s.ahead (chunks.take k)) = true} k) :
      Extent enough s chunks k false
  | all (h : ∀ k, enough (s.ahead (chunks.take k)) = false) :
      Extent enough s chunks chunks.length (!s.closed)

section Pull

variable {enough : List τ → Bool} {s : Input τ} {chunks : List (List τ)} {k : Nat} {ended : Bool}

theorem future_of_open (h : s.closed = false) (chunks : List (List τ)) :
    s.future chunks = chunks := by
  rw [future, h, if_neg Bool.false_ne_true]

theorem future_of_closed (h : s.closed = true) (chunks : List (List τ)) : s.future chunks = [] := by
  rw [future, if_pos h]

theorem sound_future (s : Input τ) (chunks : List (List τ)) : s.Sound true (s.future chunks) := by
  intro h
  exact ⟨rfl, future_of_closed h chunks⟩

theorem future_of_sound (hs : s.Sound true chunks) :
    s.future chunks = chunks := by
  by_cases hclosed : s.closed = true
  · rw [future_of_closed hclosed, (hs hclosed).2]
  · exact future_of_open (Bool.eq_false_iff.mpr hclosed) chunks

theorem length_future_le (s : Input τ) (chunks : List (List τ)) :
    (s.future chunks).length ≤ chunks.length := by
  unfold future
  split
  · exact Nat.zero_le _
  · exact Nat.le_refl _

theorem pull_zero (s : Input τ) (chunks : List (List τ)) : s.pull chunks 0 false = s := by
  ext1 <;> simp [pull]

theorem pull_ended (s : Input τ) (chunks : List (List τ)) : s.pull chunks 0 true = s.close := by
  ext1 <;> simp [pull, close]

theorem pull_after (s : Input τ) (chunk : List τ) (rest : List (List τ)) (k : Nat) (ended : Bool) :
    (s.after [.chunk chunk]).pull rest k ended = s.pull (chunk :: rest) (k + 1) ended := by
  ext1
  · ext1
    simp [pull, after, Reply.tokens]
  · simp [pull, after, Reply.isEnd]
  · simp [pull, after, Reply.tokens, Function.comp_def, Buffer.append_ofList_append]

theorem toList_remaining_pull (s : Input τ) (chunks : List (List τ)) (k : Nat) (ended : Bool) :
    (s.pull chunks k ended).remaining.toList = s.ahead (chunks.take k) := by
  simp [pull, ahead]

theorem ahead_nil (s : Input τ) : s.ahead [] = s.remaining.toList := by
  rw [ahead, List.flatten_nil, List.append_nil]

theorem ahead_take_append (s : Input τ) (chunks : List (List τ)) (k : Nat) :
    s.ahead (chunks.take k) ++ (chunks.drop k).flatten = s.ahead chunks := by
  rw [ahead, ahead, List.append_assoc, ← List.flatten_append, List.take_append_drop]

theorem ahead_after (s : Input τ) (chunk : List τ) (rest : List (List τ)) :
    (s.after [.chunk chunk]).ahead rest = s.ahead (chunk :: rest) := by
  simp [ahead, after, Reply.tokens]

theorem Extent.le_length (h : s.Extent enough chunks k ended) : k ≤ chunks.length := by
  cases h with
  | least h =>
    rcases Nat.le_total k chunks.length with hle | hge
    · exact hle
    · have hk : enough (s.ahead (chunks.take k)) = true := h.1
      apply h.2
      show enough (s.ahead (chunks.take chunks.length)) = true
      rwa [List.take_length, ← List.take_of_length_le hge]
  | all h => exact Nat.le_refl _

theorem Extent.open_of_ended (h : s.Extent enough chunks k ended) :
    (ended && s.closed) = false := by
  cases h with
  | least h => rfl
  | all h => rw [Bool.not_and_self]

/-- Reading stops with enough, or with all that is ahead. -/
theorem Extent.enough_or (h : s.Extent enough chunks k ended) :
    enough (s.ahead (chunks.take k)) = true ∨ (chunks.drop k).flatten = [] := by
  cases h with
  | least h => exact .inl h.1
  | all h => exact .inr (by rw [List.drop_length, List.flatten_nil])

/-- Where there is not enough yet, a chunk is read first. -/
theorem Extent.cons {chunk : List τ} {rest : List (List τ)} (hopen : s.closed = false)
    (hshort : enough s.remaining.toList = false)
    (h : (s.after [.chunk chunk]).Extent enough rest k ended) :
    s.Extent enough (chunk :: rest) (k + 1) ended := by
  have hzero : enough (s.ahead []) = false := by rwa [ahead_nil]
  cases h with
  | least h =>
    refine .least ⟨?_, ?_⟩
    · show enough (s.ahead (chunk :: rest.take k)) = true
      rw [← ahead_after]
      exact h.1
    · intro j hj
      cases j with
      | zero => exact absurd hj (Bool.eq_false_iff.mp hzero)
      | succ j =>
        apply Nat.succ_le_succ
        apply h.2
        show enough ((s.after [.chunk chunk]).ahead (rest.take j)) = true
        rw [ahead_after]
        exact hj
  | all h =>
    have hall : ∀ j, enough (s.ahead ((chunk :: rest).take j)) = false := by
      intro j
      cases j with
      | zero => exact hzero
      | succ j => exact ahead_after s chunk (rest.take j) ▸ h j
    have hsame : (s.after [.chunk chunk]).closed = s.closed := by
      rw [after, hopen]
      rfl
    rw [hsame]
    exact .all hall

theorem extent_nil (hshort : enough s.remaining.toList = false) :
    s.Extent enough [] 0 (!s.closed) := by
  refine .all fun k => ?_
  rwa [List.take_nil, ahead_nil]

theorem extent_of_ready (h : s.ready enough = true) (chunks : List (List τ)) :
    s.Extent enough (s.future chunks) 0 false := by
  cases henough : enough s.remaining.toList with
  | true =>
    refine .least ⟨?_, fun j _ => Nat.zero_le j⟩
    show enough (s.ahead []) = true
    rwa [ahead_nil]
  | false =>
    have hclosed : s.closed = true := by rwa [ready, henough, Bool.false_or] at h
    have hextent := extent_nil henough
    rwa [hclosed, Bool.not_true, ← future_of_closed hclosed chunks] at hextent

/-- Filling reads so much of the stream. -/
theorem exists_fill (enough : List τ → Bool) (s : Input τ) (chunks : List (List τ)) :
    ∃ k ended, s.Extent enough (s.future chunks) k ended ∧
      s.fill enough true chunks = .done (s.pull (s.future chunks) k ended) (chunks.drop k) := by
  induction chunks generalizing s with
  | nil =>
    cases hready : s.ready enough with
    | true =>
      refine ⟨0, false, extent_of_ready hready [], ?_⟩
      rw [fill_of_ready hready, pull_zero, List.drop_zero]
    | false =>
      obtain ⟨hshort, hopen⟩ := Bool.or_eq_false_iff.mp hready
      refine ⟨0, true, ?_, ?_⟩
      · have hextent := extent_nil hshort
        rwa [hopen, ← future_of_open hopen []] at hextent
      · rw [fill_nil hready, if_pos rfl, pull_ended, List.drop_nil]
  | cons chunk rest ih =>
    cases hready : s.ready enough with
    | true =>
      refine ⟨0, false, extent_of_ready hready _, ?_⟩
      rw [fill_of_ready hready, pull_zero, List.drop_zero]
    | false =>
      obtain ⟨hshort, hopen⟩ := Bool.or_eq_false_iff.mp hready
      have hopen' : (s.after [.chunk chunk]).closed = false := by
        rw [after, hopen]
        rfl
      obtain ⟨k, ended, hextent, hfill⟩ := ih (s.after [.chunk chunk])
      rw [future_of_open hopen'] at hextent hfill
      rw [future_of_open hopen, fill_cons hready, hfill, pull_after]
      exact ⟨k + 1, ended, hextent.cons hopen hshort, rfl⟩

end Pull

/-! ## What is consumed -/

/-- `run` is the longest list of tokens that satisfy `p` with which `tokens` begins. -/
structure LongestRun (p : τ → Bool) (tokens run : List τ) : Prop where
  begins : run <+: tokens
  satisfies : ∀ t ∈ run, p t = true
  longest : ∀ other, other <+: tokens → (∀ t ∈ other, p t = true) → other.length ≤ run.length

theorem longestRun_takeWhile (p : τ → Bool) (tokens : List τ) :
    LongestRun p tokens (tokens.takeWhile p) where
  begins := List.takeWhile_prefix p
  satisfies := List.all_eq_true.mp List.all_takeWhile
  longest := by
    rintro other ⟨rest, rfl⟩ hall
    rw [List.takeWhile_append_of_pos hall, List.length_append]
    exact Nat.le_add_right _ _

theorem behindRun_eq_consume (p : τ → Bool) (s : Input τ) :
    s.behindRun p = s.consume (s.remaining.toList.takeWhile p).length := by
  have hdrop : (s.remaining.toList.takeWhile p ++ s.remaining.toList.dropWhile p).drop
      (s.remaining.toList.takeWhile p).length = s.remaining.toList.dropWhile p := List.drop_left
  rw [List.takeWhile_append_dropWhile] at hdrop
  rw [behindRun, consume, hdrop]

end Input

/-! ## Parsers that read no more than they need -/

namespace Parser

open Input

/-- With every large enough budget, and a prompt that has these chunks and then reports the end, the
parser is over with `o` once it has asked for `k` chunks, and for the end too if `ended`. -/
def Pulls (G : Rules Γ τ) (p : Parser Γ τ α) (s : Input τ) (chunks : List (List τ)) (k : Nat)
    (ended : Bool) (o : Outcome τ α) : Prop :=
  ∃ least, ∀ budget, least ≤ budget →
    (p.outcome G budget s).settleWith (.chunks chunks) =
      (.done o, ⟨(chunks.drop k).map .chunk, .ended, k + ended.toNat⟩)

/-- The parser reads on until it has `enough` tokens, and its outcome is read off the input as it is
then. -/
def ReadsFor (G : Rules Γ τ) (p : Parser Γ τ α) (s : Input τ) (chunks : List (List τ))
    (enough : List τ → Bool) (o : Input τ → Outcome τ α) : Prop :=
  ∃ k ended, s.Extent enough (s.future chunks) k ended ∧
    p.Pulls G s chunks k ended (o (s.pull (s.future chunks) k ended))

section ReadsFor

variable {G : Rules Γ τ} {p : Parser Γ τ α} {s : Input τ} {chunks : List (List τ)}
  {enough : List τ → Bool}

theorem pulls_of_halts {k : Nat} {ended : Bool} {o : Outcome τ α}
    (hextent : s.Extent enough (s.future chunks) k ended)
    (hp : p.Halts true G s chunks (.done o (chunks.drop k)))
    (hclosed : o.input.closed = (s.closed || ended)) : p.Pulls G s chunks k ended o := by
  have hle : k ≤ chunks.length := Nat.le_trans hextent.le_length (length_future_le s chunks)
  have hreported : (o.input.closed && !s.closed) = ended := by
    have hopen := hextent.open_of_ended
    rw [hclosed]
    cases hs : s.closed <;> cases he : ended <;> simp_all
  obtain ⟨least, hp⟩ := hp
  refine ⟨least, fun budget hbudget => ?_⟩
  obtain ⟨asked, hasked, hsettled⟩ := exists_settleWith_done (hp budget hbudget)
  rw [hreported, List.length_drop] at hasked
  obtain rfl : asked = k + ended.toNat := by omega
  exact hsettled

/-- What a parser does with the input that it has filled, stated in terms of the tokens ahead. -/
theorem readsFor_of_conclude {o o' : Input τ → Outcome τ α} {onWait : Input τ → Input τ}
    (hp : p.Halts true G s chunks ((s.fill enough true chunks).conclude o onWait))
    (ho : ∀ s' rest, s'.remaining.toList ++ rest = s.outlook chunks →
      enough s'.remaining.toList = true ∨ rest = [] → o s' = o' s')
    (hclosed : ∀ s', (o' s').input.closed = s'.closed) : p.ReadsFor G s chunks enough o' := by
  obtain ⟨k, ended, hextent, hfill⟩ := exists_fill enough s chunks
  have hahead := toList_remaining_pull s (s.future chunks) k ended
  rw [hfill, Halt.conclude, ho _ ((s.future chunks).drop k).flatten] at hp
  · exact ⟨k, ended, hextent, pulls_of_halts hextent hp (hclosed _)⟩
  · rw [hahead]
    exact ahead_take_append s (s.future chunks) k
  · rw [hahead]
    exact hextent.enough_or

theorem readsFor_of_map {o o' : Input τ → Outcome τ α}
    (hp : p.Halts true G s chunks ((s.fill enough true chunks).map o))
    (ho : ∀ s' rest, s'.remaining.toList ++ rest = s.outlook chunks →
      enough s'.remaining.toList = true ∨ rest = [] → o s' = o' s')
    (hclosed : ∀ s', (o' s').input.closed = s'.closed) : p.ReadsFor G s chunks enough o' := by
  rw [Halt.map_eq_conclude] at hp
  exact readsFor_of_conclude hp ho hclosed

end ReadsFor

section Readers

variable (G : Rules Γ τ) (s : Input τ) (chunks : List (List τ))

theorem readsFor_takeWhile (pred : τ → Bool) :
    (takeWhile pred).ReadsFor G s chunks (escapes pred) fun s' =>
      .success (s'.consume ((s.outlook chunks).takeWhile pred).length)
        ((s.outlook chunks).takeWhile pred) := by
  refine readsFor_of_conclude (halts_takeWhile true G s chunks pred) ?_ (fun _ => rfl)
  intro s' rest hw hstop
  rw [behindRun_eq_consume, takeWhile_of_escapes hstop, hw]

theorem readsFor_skipWhile (pred : τ → Bool) :
    (skipWhile pred).ReadsFor G s chunks (escapes pred) fun s' =>
      .success (s'.consume ((s.outlook chunks).takeWhile pred).length) () := by
  refine readsFor_of_conclude (halts_skipWhile true G s chunks pred) ?_ (fun _ => rfl)
  intro s' rest hw hstop
  rw [behindRun_eq_consume, takeWhile_of_escapes hstop, hw]

theorem readsFor_takeWhile1 (pred : τ → Bool) :
    (takeWhile1 pred).ReadsFor G s chunks (escapes pred) fun s' =>
      if ((s.outlook chunks).takeWhile pred).isEmpty then
        .failure s' (if (s.outlook chunks).isEmpty then .notEnoughInput else ⟨[], "take-while1"⟩)
      else .success (s'.consume ((s.outlook chunks).takeWhile pred).length)
        ((s.outlook chunks).takeWhile pred) := by
  refine readsFor_of_conclude (halts_takeWhile1 true G s chunks pred) ?_ ?_
  · intro s' rest hw hstop
    rw [startedRun, behindRun_eq_consume, takeWhile_of_escapes hstop, hw, Buffer.isEmpty_eq]
    cases htokens : s'.remaining.toList with
    | nil =>
      -- no token is outside the run yet, so there is none to come
      rw [htokens] at hstop hw
      obtain rfl : rest = [] := hstop.resolve_left Bool.false_ne_true
      rw [← hw]
      rfl
    | cons t tokens =>
      have hsome : (s.outlook chunks).isEmpty = false := by
        rw [← hw, htokens]
        rfl
      rw [hsome]
      rfl
  · intro s'
    split <;> rfl

theorem readsFor_ensure (n : Int) : (ensure n).ReadsFor G s chunks (atLeast n) fun s' =>
    if n ≤ (s.outlook chunks).length then .success s' s'.remaining
    else .failure s' .notEnoughInput := by
  refine readsFor_of_map (halts_ensure true G s chunks n) ?_ ?_
  · intro s' rest hw hstop
    simp only [Buffer.size_eq, le_length_iff_of_atLeast hstop, hw]
  · intro s'
    split <;> rfl

theorem block_of_atLeast {n : Int} (pred : List τ → Bool) {s' : Input τ} {tokens rest : List τ}
    (hw : s'.remaining.toList ++ rest = tokens)
    (hstop : atLeast n s'.remaining.toList = true ∨ rest = []) :
    s'.block n pred = if n ≤ tokens.length then
      if pred (tokens.take n.toNat) then .success (s'.consume n.toNat) (tokens.take n.toNat)
      else .failure s' ⟨[], "take-with"⟩
    else .failure s' .notEnoughInput := by
  have hiff := le_length_iff_of_atLeast hstop
  rw [block, Buffer.size_eq]
  rw [hw] at hiff
  by_cases hn : n ≤ tokens.length
  · have htake : s'.remaining.toList.take n.toNat = tokens.take n.toNat := by
      have hle := hiff.mpr hn
      rw [← hw, List.take_append_of_le_length (by omega)]
    rw [if_pos hn, if_pos (hiff.mpr hn), htake]
    rfl
  · rw [if_neg hn, if_neg (fun h => hn (hiff.mp h))]

theorem readsFor_takeWith (n : Int) (pred : List τ → Bool) :
    (takeWith n pred).ReadsFor G s chunks (atLeast n) fun s' =>
      if n ≤ (s.outlook chunks).length then
        if pred ((s.outlook chunks).take n.toNat) then
          .success (s'.consume n.toNat) ((s.outlook chunks).take n.toNat)
        else .failure s' ⟨[], "take-with"⟩
      else .failure s' .notEnoughInput := by
  refine readsFor_of_map (halts_takeWith true G s chunks n pred) ?_ ?_
  · intro s' rest hw hstop
    exact block_of_atLeast pred hw hstop
  · intro s'
    split
    · split <;> rfl
    · rfl

theorem readsFor_satisfy (pred : τ → Bool) :
    (satisfy pred).ReadsFor G s chunks (atLeast 1) fun s' =>
      match s.outlook chunks with
      | [] => .failure s' .notEnoughInput
      | t :: _ => if pred t then .success (s'.consume 1) t else .failure s' ⟨[], "satisfy?"⟩ := by
  refine readsFor_of_map (halts_satisfy true G s chunks pred) ?_ ?_
  · intro s' rest hw hstop
    cases htokens : s'.remaining.toList with
    | nil =>
      rw [htokens] at hstop hw
      obtain rfl : rest = [] := hstop.resolve_left Bool.false_ne_true
      rw [token_of_nil pred htokens, ← hw]
      rfl
    | cons t tokens =>
      have hconsume : { s' with remaining := .ofList tokens } = s'.consume 1 := by
        rw [consume, htokens]
        rfl
      rw [token_of_cons pred htokens, hconsume, ← hw, htokens]
      rfl
  · intro s'
    split
    · rfl
    · split <;> rfl

end Readers

theorem readsFor_string (G : Rules Γ Char) (s : Input Char) (chunks : List (List Char))
    (text : String) :
    (Text.string text).ReadsFor G s chunks (atLeast text.toList.length) fun s' =>
      if text.toList.length ≤ (s.outlook chunks).length then
        if (s.outlook chunks).take text.toList.length = text.toList then
          .success (s'.consume text.toList.length) text
        else .failure s' ⟨[], "take-with"⟩
      else .failure s' .notEnoughInput := by
  have hp := halts_map (halts_takeWith true G s chunks text.toList.length (· == text.toList))
    fun _ => text
  rw [Halt.map_map] at hp
  refine readsFor_of_map hp ?_ ?_
  · intro s' rest hw hstop
    rw [block_of_atLeast _ hw hstop]
    simp only [Int.ofNat_le, Int.toNat_natCast, beq_iff_eq]
    split
    · split <;> rfl
    · rfl
  · intro s'
    split
    · split <;> rfl
    · rfl

/-- **Longest match with least reading.** Let `s` be any state, and let the stream go on with any
chunks and then end, or with nothing if `s` knows of the end.

* For every predicate, `takeWhile` takes, and `skipWhile` passes over, the longest run of tokens
  with which the tokens ahead begin; `takeTill` does so with the tokens that fail the predicate, and
  `takeWhile1` fails if the run is empty. They read as many chunks as it takes to have a token
  outside the run.
* For every integer `n`, `ensure`, `take` and `takeWith` read as many chunks as it takes to have `n`
  tokens, and fail if there are fewer; so does `satisfy` with one token, and `string` with as many
  as the text has.

Each leaves what remained and what it has read, without what it has consumed. -/
theorem longest_match_least_reading :
    (∀ (G : Rules Γ τ) (s : Input τ) (chunks : List (List τ)),
      (∀ pred : τ → Bool, ∃ run, LongestRun pred (s.outlook chunks) run ∧
        (takeWhile pred).ReadsFor G s chunks (escapes pred)
          (fun s' => .success (s'.consume run.length) run) ∧
        (skipWhile pred).ReadsFor G s chunks (escapes pred)
          (fun s' => .success (s'.consume run.length) ()) ∧
        (takeWhile1 pred).ReadsFor G s chunks (escapes pred) fun s' =>
          if run.isEmpty then
            .failure s' (if (s.outlook chunks).isEmpty then .notEnoughInput
              else ⟨[], "take-while1"⟩)
          else .success (s'.consume run.length) run) ∧
      (∀ pred : τ → Bool, ∃ run, LongestRun (fun t => !pred t) (s.outlook chunks) run ∧
        (takeTill pred).ReadsFor G s chunks (fun tokens => tokens.any pred)
          fun s' => .success (s'.consume run.length) run) ∧
      (∀ n : Int,
        (ensure n).ReadsFor G s chunks (atLeast n) (fun s' =>
          if n ≤ (s.outlook chunks).length then .success s' s'.remaining
          else .failure s' .notEnoughInput) ∧
        (take n).ReadsFor G s chunks (atLeast n) (fun s' =>
          if n ≤ (s.outlook chunks).length then
            .success (s'.consume n.toNat) ((s.outlook chunks).take n.toNat)
          else .failure s' .notEnoughInput) ∧
        ∀ pred : List τ → Bool, (takeWith n pred).ReadsFor G s chunks (atLeast n) fun s' =>
          if n ≤ (s.outlook chunks).length then
            if pred ((s.outlook chunks).take n.toNat) then
              .success (s'.consume n.toNat) ((s.outlook chunks).take n.toNat)
            else .failure s' ⟨[], "take-with"⟩
          else .failure s' .notEnoughInput) ∧
      ∀ pred : τ → Bool, (satisfy pred).ReadsFor G s chunks (atLeast 1) fun s' =>
        match s.outlook chunks with
        | [] => .failure s' .notEnoughInput
        | t :: _ => if pred t then .success (s'.consume 1) t else .failure s' ⟨[], "satisfy?"⟩) ∧
    ∀ (G : Rules Γ Char) (s : Input Char) (chunks : List (List Char)) (text : String),
      (Text.string text).ReadsFor G s chunks (atLeast text.toList.length) fun s' =>
        if text.toList.length ≤ (s.outlook chunks).length then
          if (s.outlook chunks).take text.toList.length = text.toList then
            .success (s'.consume text.toList.length) text
          else .failure s' ⟨[], "take-with"⟩
        else .failure s' .notEnoughInput := by
  refine ⟨fun G s chunks => ⟨fun pred => ?_, fun pred => ?_, fun n => ?_, ?_⟩, readsFor_string⟩
  · exact ⟨_, longestRun_takeWhile pred _, readsFor_takeWhile G s chunks pred,
      readsFor_skipWhile G s chunks pred, readsFor_takeWhile1 G s chunks pred⟩
  · have hany : escapes (fun t => !pred t) = fun tokens => tokens.any pred := by
      funext tokens
      simp only [escapes, Bool.not_not]
    have hscan := readsFor_takeWhile G s chunks fun t => !pred t
    rw [hany] at hscan
    exact ⟨_, longestRun_takeWhile _ _, hscan⟩
  · exact ⟨readsFor_ensure G s chunks n, readsFor_takeWith G s chunks n _,
      readsFor_takeWith G s chunks n⟩
  · exact readsFor_satisfy G s chunks

-- The run ends inside the second chunk, so the third is left to come.
example : ((takeWhile (· == 1) : Parser Empty.elim Nat (List Nat)).outcome nofun 20
    (.ofList [1] false)).settleWith (.chunks [[1], [1, 2], [1]]) =
      (.done (.success (.ofList [2] false) [1, 1, 1]), ⟨[.chunk [1]], .ended, 2⟩) := by rfl

end Parser

end Piecemeal
