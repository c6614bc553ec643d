import Piecemeal.Records
import Piecemeal.Proofs.Adequacy
import Piecemeal.Proofs.Chunking

/-!
# One turn of a decoder

A decoder faces the tokens it has buffered and those of the chunks that its source has left
(`Decoder.Faces`). Where it faces none, its turn is to stop (`turn_of_nil`). Otherwise it parses a
record, after asking for chunks until there is something to read, and the turn is determined by the
outcome at which the parser's run stops along the chunks (`turn_eq`): a rejection, or a record and
the decoder behind it, which faces what the outcome has left ahead.

A pass is a sequence of turns, and its log is split accordingly (`events_eq`).
-/

namespace Piecemeal

variable {ι : Type} {Γ : ι → Type} {τ α ρ : Type}

/-! ## A source along the chunks -/

namespace Run

theorem along_nil (r : Run τ ρ) : r.along true [] = r.finish.map (Halt.done · []) := by
  induction r with
  | done a => rfl
  | later next ih => exact ih ()
  | await input onEnd onChunk ihEnd _ => exact ihEnd ()
  | exhausted => rfl

/-- Along chunks and the end a run comes to an answer unless it is exhausted. -/
theorem along_ne_waiting (r : Run τ ρ) (chunks : List (List τ)) (input : Input τ) :
    r.along true chunks ≠ some (.waiting input) := by
  induction r generalizing chunks with
  | done a => nofun
  | later next ih => exact ih () chunks
  | await i onEnd onChunk ihEnd ihChunk =>
    cases chunks with
    | nil => exact ihEnd () []
    | cons chunk left => exact ihChunk chunk left
  | exhausted => nofun

end Run

theorem Source.size_chunks (chunks : List (List τ)) :
    Source.size (chunks.map .chunk) = chunks.flatten.length := by
  induction chunks with
  | nil => rfl
  | cons chunk left ih =>
    rw [List.map_cons, Source.size, Delivery.size, ih, List.flatten_cons, List.length_append]

namespace Result

/-- A parse fed from a source has the verdict of its run along the chunks. It has taken those that
are not left, and whether it asked for the end can be read off the path. -/
theorem drawFrom_of_along {r : Run τ (Outcome τ α)} {chunks left : List (List τ)}
    {o : Outcome τ α} (h : r.along true chunks = some (.done o left)) (pulled received : Nat) :
    ∃ taken received' replies,
      drawFrom pulled received (chunks.map .chunk) r.verdicts.settle =
        ⟨.ok (some o.verdict), pulled + taken, received', endReported replies, left.map .chunk⟩ ∧
      left = chunks.drop taken ∧ r.Reaches replies (.done o) := by
  induction r generalizing chunks pulled received with
  | done o' =>
    cases h
    refine ⟨0, received, [], ?_, rfl, .here _⟩
    cases left <;> rfl
  | later next ih =>
    obtain ⟨taken, received', replies, hdrawn, hleft, hpath⟩ := ih () h pulled received
    exact ⟨taken, received', replies, hdrawn, hleft, .later hpath⟩
  | await input onEnd onChunk ihEnd ihChunk =>
    cases chunks with
    | nil =>
      have hend : (onEnd ()).along true [] = some (.done o left) := h
      obtain ⟨replies, hpath, -⟩ := Run.reaches_of_along hend
      rw [Run.along_nil] at hend
      obtain ⟨o', hfinish, ho⟩ := Option.map_eq_some_iff.mp hend
      cases ho
      have hverdict : (onEnd ()).verdicts.finish = some o.verdict := by
        rw [Run.verdicts, Run.finish_bind, hfinish]
        rfl
      refine ⟨0, received, .ended :: replies, ?_, rfl, .ended hpath⟩
      change Drawn.mk (.ok (onEnd ()).verdicts.finish) pulled received true [] = _
      rw [hverdict]
      rfl
    | cons chunk rest =>
      obtain ⟨taken, received', replies, hdrawn, hleft, hpath⟩ :=
        ihChunk chunk h (pulled + 1) (received + chunk.length)
      refine ⟨taken + 1, received', .chunk chunk :: replies, ?_, hleft, .chunk chunk hpath⟩
      refine Eq.trans hdrawn ?_
      rw [Nat.add_assoc, Nat.add_comm 1 taken]
      rfl
  | exhausted => cases h

theorem drawFrom_of_along_none {r : Run τ (Outcome τ α)} {chunks : List (List τ)}
    (h : r.along true chunks = none) (pulled received : Nat) :
    (drawFrom pulled received (chunks.map .chunk) r.verdicts.settle).answer = .ok none := by
  induction r generalizing chunks pulled received with
  | done o => cases h
  | later next ih => exact ih () h pulled received
  | await input onEnd onChunk ihEnd ihChunk =>
    cases chunks with
    | nil =>
      have hend : (onEnd ()).along true [] = none := h
      rw [Run.along_nil] at hend
      have hverdict : (onEnd ()).verdicts.finish = none := by
        rw [Run.verdicts, Run.finish_bind, Option.map_eq_none_iff.mp hend]
        rfl
      exact congrArg Except.ok hverdict
    | cons chunk rest => exact ihChunk chunk h (pulled + 1) (received + chunk.length)
  | exhausted => cases chunks <;> rfl

end Result

theorem Parser.parseInput_eq (G : Rules Γ τ) (budget : Nat) (p : Parser Γ τ α) (s : Input τ) :
    p.parseInput G budget s = (p.outcome G budget s).verdicts.settle := by
  rw [parseInput, start_eq]
  rfl

/-! ## The turn -/

/-- What a decoder makes of an outcome on `given` tokens, with the chunks `left` not pulled. -/
def Outcome.turn (given : Nat) (left : List (List τ)) : Outcome τ α → Turn τ α
  | failure s reason => .raise (.rejected (.ofFailure reason s.remaining.toList))
  | success s value =>
    if given ≤ (s.ahead left).length then .raise (.rejected (.noProgress s.remaining.toList))
    else .record value ⟨s.remaining, s.closed, left.map .chunk⟩

namespace Decoder

/-- The decoder has `tokens` to read: what is buffered, and then the chunks that its source has
left. -/
structure Faces (d : Decoder τ) (chunks : List (List τ)) (tokens : List τ) : Prop where
  source_eq : d.source = chunks.map .chunk
  ended : d.ended = true → chunks = []
  tokens_eq : d.buffered.toList ++ chunks.flatten = tokens

theorem faces_ofSource (chunks : List (List τ)) :
    (ofSource (chunks.map .chunk)).Faces chunks chunks.flatten where
  source_eq := rfl
  ended := nofun
  tokens_eq := by rw [ofSource, Buffer.toList_empty, List.nil_append]

/-- The state in which a decoder starts its parser. -/
def input (d : Decoder τ) : Input τ := ⟨d.buffered, d.ended, none⟩

section Turn

variable {G : Rules Γ τ} {budget : Nat} {p : Parser Γ τ α} {d : Decoder τ}
  {chunks left : List (List τ)} {tokens : List τ}

theorem Faces.sound (h : d.Faces chunks tokens) : d.input.Sound true chunks :=
  fun hended => ⟨rfl, h.ended hended⟩

theorem parseRecord_of_along (hd : d.Faces chunks tokens) {o : Outcome τ α}
    (h : (p.outcome G budget d.input).along true chunks = some (.done o left)) :
    ∃ taken ended, left = chunks.drop taken ∧
      parseRecord G budget p d = (Event.pulls taken ended, o.turn tokens.length left) := by
  obtain ⟨taken, received, replies, hdrawn, hleft, hpath⟩ := Result.drawFrom_of_along h 0 0
  have hsum := Result.received_add_left (chunks.map .chunk) 0 0
    (p.outcome G budget d.input).verdicts.settle
  have hclosed : o.input.closed = (d.ended || endReported replies) :=
    (Parser.recorded_of_reaches hpath).closed
  simp only [hdrawn, Source.size_chunks] at hsum
  refine ⟨taken, endReported replies, hleft, ?_⟩
  rw [parseRecord, hd.source_eq, ← input, Parser.parseInput_eq, hdrawn, Nat.zero_add]
  simp only
  congr 1
  cases o with
  | failure s reason => rfl
  | success s value =>
    -- what was received and what is left add up, so both tests compare with all there was to read
    have htest : d.buffered.size + received ≤ s.remaining.size ↔
        tokens.length ≤ (s.ahead left).length := by
      rw [Input.ahead, ← hd.tokens_eq, List.length_append, List.length_append, Buffer.size_eq,
        Buffer.size_eq]
      omega
    simp only [Outcome.verdict, Outcome.turn, htest]
    split
    · rfl
    · rw [← hclosed]
      rfl

theorem parseRecord_of_along_none (hd : d.Faces chunks tokens)
    (h : (p.outcome G budget d.input).along true chunks = none) :
    (parseRecord G budget p d).2 = .exhausted := by
  have hanswer := Result.drawFrom_of_along_none h 0 0
  rw [parseRecord, hd.source_eq, ← input, Parser.parseInput_eq]
  simp only [hanswer]

/-- Empty chunks are passed over, and a record is parsed from the first one that is not. -/
theorem refill_chunks (G : Rules Γ τ) (budget : Nat) (p : Parser Γ τ α) (pulled : Nat)
    (chunks : List (List τ)) :
    refill G budget p pulled (chunks.map .chunk) =
      match chunks.dropWhile List.isEmpty with
      | [] => (Event.pulls (pulled + chunks.length) true, .stop)
      | first :: left =>
        (Event.pulls (pulled + (chunks.length - left.length)) false ++
            (parseRecord G budget p ⟨.ofList first, false, left.map .chunk⟩).1,
          (parseRecord G budget p ⟨.ofList first, false, left.map .chunk⟩).2) := by
  induction chunks generalizing pulled with
  | nil => rfl
  | cons chunk rest ih =>
    rw [List.map_cons, refill]
    by_cases hempty : chunk.isEmpty = true
    · have hshort := (List.dropWhile_suffix (List.isEmpty (α := τ)) (l := rest)).length_le
      rw [if_pos hempty, ih, List.dropWhile_cons_of_pos hempty]
      cases hdrop : rest.dropWhile List.isEmpty with
      | nil => simp only [List.length_cons, Nat.add_assoc, Nat.add_comm 1]
      | cons first left =>
        rw [hdrop, List.length_cons] at hshort
        have hpulled : pulled + 1 + (rest.length - left.length) =
            pulled + ((chunk :: rest).length - left.length) := by
          rw [List.length_cons]
          omega
        simp only [hpulled]
    · have hpulled : pulled + 1 = pulled + ((chunk :: rest).length - rest.length) := by
        rw [List.length_cons]
        omega
      rw [if_neg hempty, List.dropWhile_cons_of_neg hempty, hpulled]

theorem flatten_dropWhile_isEmpty (chunks : List (List τ)) :
    (chunks.dropWhile List.isEmpty).flatten = chunks.flatten := by
  induction chunks with
  | nil => rfl
  | cons chunk rest ih =>
    by_cases hempty : chunk.isEmpty = true
    · rw [List.dropWhile_cons_of_pos hempty, ih, List.flatten_cons,
        List.isEmpty_iff.mp hempty, List.nil_append]
    · rw [List.dropWhile_cons_of_neg hempty]

theorem dropWhile_isEmpty_eq_nil {chunks : List (List τ)} (h : chunks.flatten = []) :
    chunks.dropWhile List.isEmpty = [] := by
  induction chunks with
  | nil => rfl
  | cons chunk rest ih =>
    obtain ⟨hchunk, hrest⟩ := List.append_eq_nil_iff.mp h
    rw [List.dropWhile_cons_of_pos (List.isEmpty_iff.mpr hchunk), ih hrest]

/-- A decoder that has nothing to read stops. -/
theorem turn_of_nil (G : Rules Γ τ) (budget : Nat) (p : Parser Γ τ α) (hd : d.Faces chunks []) :
    ∃ pulled ended, turn G budget p d = (Event.pulls pulled ended, .stop) := by
  obtain ⟨hbuffered, hchunks⟩ := List.append_eq_nil_iff.mp hd.tokens_eq
  have hempty : (!d.buffered.isEmpty) = false := by
    rw [Buffer.isEmpty_eq, hbuffered]
    rfl
  rw [turn, hempty, if_neg Bool.false_ne_true]
  by_cases hended : d.ended = true
  · rw [if_pos hended]
    exact ⟨0, false, rfl⟩
  · rw [if_neg hended, hd.source_eq, refill_chunks, dropWhile_isEmpty_eq_nil hchunks]
    exact ⟨_, _, rfl⟩

/-- A decoder that has something to read parses a record, perhaps after pulling chunks until the
first that is not empty. -/
theorem exists_ready (G : Rules Γ τ) (p : Parser Γ τ α) (hd : d.Faces chunks tokens)
    (hne : tokens ≠ []) :
    ∃ (ready : Decoder τ) (skipped : Nat), ready.Faces (chunks.drop skipped) tokens ∧
      ∀ budget, turn G budget p d =
        (Event.pulls skipped false ++ (parseRecord G budget p ready).1,
          (parseRecord G budget p ready).2) := by
  by_cases hbuffered : d.buffered.isEmpty = true
  · have hnil : d.buffered.toList = [] := d.buffered.isEmpty_iff.mp hbuffered
    have htokens : chunks.flatten = tokens := by
      have h := hd.tokens_eq
      rwa [hnil, List.nil_append] at h
    have hended : ¬ d.ended = true := by
      intro hended
      rw [hd.ended hended] at htokens
      exact hne htokens.symm
    have hflatten := flatten_dropWhile_isEmpty chunks
    cases hdrop : chunks.dropWhile List.isEmpty with
    | nil =>
      rw [hdrop, htokens] at hflatten
      exact absurd hflatten.symm hne
    | cons first left =>
      have hsuffix : left <:+ chunks := by
        have h := List.dropWhile_suffix (List.isEmpty (α := τ)) (l := chunks)
        rw [hdrop] at h
        exact (List.suffix_cons first left).trans h
      have hleft : chunks.drop (chunks.length - left.length) = left :=
        (List.suffix_iff_eq_drop.mp hsuffix).symm
      refine ⟨⟨.ofList first, false, left.map .chunk⟩, chunks.length - left.length, ?_, ?_⟩
      · rw [hleft]
        refine ⟨rfl, nofun, ?_⟩
        rw [Buffer.toList_ofList, ← List.flatten_cons, ← hdrop, hflatten, htokens]
      · intro n
        rw [turn, hbuffered, Bool.not_true, if_neg Bool.false_ne_true, if_neg hended,
          hd.source_eq, refill_chunks, hdrop]
        simp only [Nat.zero_add]
  · refine ⟨d, 0, hd, ?_⟩
    intro n
    rw [turn, Bool.eq_false_iff.mpr hbuffered]
    rfl

theorem pulls_append (first second : Nat) (ended : Bool) :
    Event.pulls first false ++ Event.pulls second ended =
      (Event.pulls (first + second) ended : List (Event τ α)) := by
  simp only [Event.pulls, Bool.false_eq_true, if_false, List.append_nil]
  rw [← List.append_assoc, List.replicate_append_replicate]

/-- The turn of a decoder that has something to read is determined by where the run of its parser
stops along the chunks. -/
theorem turn_eq (G : Rules Γ τ) (p : Parser Γ τ α) (hd : d.Faces chunks tokens)
    (hne : tokens ≠ []) :
    ∃ s chunks', s.Sound true chunks' ∧ s.ahead chunks' = tokens ∧ ∀ budget,
      (∀ o left, (p.outcome G budget s).along true chunks' = some (.done o left) →
        ∃ taken ended, left = chunks.drop taken ∧
          turn G budget p d = (Event.pulls taken ended, o.turn tokens.length left)) ∧
      ((p.outcome G budget s).along true chunks' = none →
        (turn G budget p d).2 = .exhausted) := by
  obtain ⟨ready, skipped, hready, hturn⟩ := exists_ready G p hd hne
  refine ⟨ready.input, chunks.drop skipped, hready.sound, hready.tokens_eq, ?_⟩
  intro budget
  constructor
  · intro o left h
    obtain ⟨taken, ended, hleft, hrecord⟩ := parseRecord_of_along hready h
    refine ⟨skipped + taken, ended, ?_, ?_⟩
    · rw [hleft, List.drop_drop]
    · rw [hturn budget, hrecord, pulls_append]
  · intro h
    rw [hturn budget]
    exact parseRecord_of_along_none hready h

end Turn

/-! ## The log of a pass -/

section Log

variable (G : Rules Γ τ) (budget : Nat) (p : Parser Γ τ α) (closable : Bool) (limit : Option Nat)

/-- The events of a pass from a given decoder on. -/
def events (d : Decoder τ) : List (Event τ α) :=
  (decode G budget p closable limit .empty d).toList

theorem decode_eq (log : Gather (Event τ α)) (d : Decoder τ) :
    decode G budget p closable limit log d =
      match turn G budget p d with
      | (events, .record value next) =>
        if limit.any (· ≤ 1) then
          ((log.addAll events).add (.record value)).addAll (farewell closable .stopped)
        else decode G budget p closable (limit.map (· - 1))
          ((log.addAll events).add (.record value)) next
      | (events, .stop) => (log.addAll events).addAll (farewell closable .stopped)
      | (events, .raise error) => (log.addAll events).addAll (farewell closable (.raised error))
      | (events, .exhausted) => (log.addAll events).add .exhausted := by
  rw [decode]
  split
  · next h => rw [h]
  · next h => rw [h]
  · next h => rw [h]
  · next h => rw [h]

/-- The log so far comes first and makes no difference to what follows. -/
theorem toList_decode (log : Gather (Event τ α)) (d : Decoder τ) :
    (decode G budget p closable limit log d).toList =
      log.toList ++ events G budget p closable limit d := by
  induction hn : d.unread using Nat.strongRecOn generalizing d log limit with
  | ind n ih =>
    subst hn
    rw [events, decode_eq, decode_eq]
    cases hturn : turn G budget p d with
    | mk happened next =>
      cases next with
      | record value next =>
        have hless := unread_lt hturn
        simp only
        split
        · simp
        · rw [ih _ hless _ _ _ rfl, ih _ hless _ ((Gather.empty.addAll happened).add _) _ rfl]
          simp
      | stop => simp
      | raise error => simp
      | exhausted => simp

/-- A pass is what happens in one turn and then what it leads to. -/
theorem events_eq (d : Decoder τ) :
    events G budget p closable limit d =
      (turn G budget p d).1 ++ match (turn G budget p d).2 with
        | .record value next => .record value ::
          if limit.any (· ≤ 1) then farewell closable .stopped
          else events G budget p closable (limit.map (· - 1)) next
        | .stop => farewell closable .stopped
        | .raise error => farewell closable (.raised error)
        | .exhausted => [.exhausted] := by
  rw [events, decode_eq]
  cases turn G budget p d with
  | mk happened next =>
    cases next with
    | record value next =>
      simp only
      split
      · simp
      · rw [toList_decode]
        simp
    | stop => simp
    | raise error => simp
    | exhausted => simp

end Log

end Decoder

end Piecemeal
