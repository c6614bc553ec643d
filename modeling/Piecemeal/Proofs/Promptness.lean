import Mathlib.Order.Bounds.Defs
import Piecemeal.Proofs.Progress

/-!
# Records as soon as they are complete

`Parser.decodeOpen` looks for records in the first tokens of a stream, without being told of its
end: it stops where nothing is left to read, or where the next record waits for more. A decoder must
not do worse. When it hands over a record before its source has come to the end, the chunks that it
has pulled are just as many as `decodeOpen` needs for that record (`yields_promptly`).

The reason is that a run asks for a chunk only where it cannot go on without (`Run.Decides`): it is
over at the last of the chunks that it was given, and waits with fewer of them. For a seamless
parser that is a fact about the tokens, however they were cut. A turn of the decoder thus
corresponds to one parse of the tokens so far, which is no different if more of them have arrived
(`Parser.Advances`), and a pass to a sequence of them (`Parser.Completes`).
-/

namespace Piecemeal

variable {ι : Type} {Γ : ι → Type} {τ α ρ : Type}

/-! ## Decoding what has arrived -/

/-- Why no further record is found in the first tokens of a stream. -/
inductive Pending (τ : Type)
  /-- Nothing is left to read. -/
  | dry
  /-- The next record waits for more. -/
  | suspended
  | broken (report : Rejection τ)
  | exhausted

/-- All tokens that a source delivers. -/
def Source.tokens (source : Source τ) : List τ :=
  source.flatMap fun
    | .chunk tokens => tokens
    | .fault _ => []

namespace Parser

/-- The records of the first tokens of a stream, of which more may follow, and why there are no
further ones. -/
def decodeOpen (G : Rules Γ τ) (budget : Nat) (p : Parser Γ τ α) (tokens : List τ) :
    List α × Pending τ :=
  if tokens.isEmpty then ([], .dry)
  else
    match (p.parse G budget tokens).showing with
    | none => ([], .exhausted)
    | some (.waiting _ _) => ([], .suspended)
    | some (.rejected failure rest) => ([], .broken (.ofFailure failure rest))
    | some (.accepted value rest) =>
      if _h : tokens.length ≤ rest.length then ([], .broken (.noProgress rest))
      else
        let further := decodeOpen G budget p rest
        (value :: further.1, further.2)
termination_by tokens.length

section DecodeOpen

variable {G : Rules Γ τ} {budget : Nat} {p : Parser Γ τ α} {tokens rest : List τ}

theorem decodeOpen_nil : p.decodeOpen G budget [] = ([], .dry) := by
  rw [decodeOpen]
  rfl

theorem decodeOpen_waiting (hne : tokens ≠ []) {remaining : List τ} {closed : Bool}
    (h : (p.parse G budget tokens).showing = some (.waiting remaining closed)) :
    p.decodeOpen G budget tokens = ([], .suspended) := by
  rw [decodeOpen, if_neg (by simpa using hne), h]

theorem decodeOpen_record {value : α}
    (h : (p.parse G budget tokens).showing = some (.accepted value rest))
    (hless : rest.length < tokens.length) :
    p.decodeOpen G budget tokens =
      (value :: (p.decodeOpen G budget rest).1, (p.decodeOpen G budget rest).2) := by
  have hne : tokens ≠ [] := List.ne_nil_of_length_pos (by omega)
  rw [decodeOpen, if_neg (by simpa using hne), h]
  simp only
  rw [dif_neg (by omega)]

theorem decodeOpen_cases (G : Rules Γ τ) (budget : Nat) (p : Parser Γ τ α) (tokens : List τ) :
    (p.decodeOpen G budget tokens).1 = [] ∨ ∃ value rest,
      (p.parse G budget tokens).showing = some (.accepted value rest) ∧
        rest.length < tokens.length := by
  rw [decodeOpen]
  split
  · exact .inl rfl
  · split
    · exact .inl rfl
    · exact .inl rfl
    · exact .inl rfl
    · next value rest hshown =>
      split
      · exact .inl rfl
      · exact .inr ⟨value, rest, hshown, by omega⟩

theorem showing_parse (G : Rules Γ τ) (budget : Nat) (p : Parser Γ τ α) (tokens : List τ) :
    (p.parse G budget tokens).showing =
      ((p.outcome G budget (.ofList tokens false)).along false []).map Halt.showing := by
  rw [parse_eq]
  exact showing_feedAll _ []

theorem showing_parse_mono {budget' : Nat} (hle : budget ≤ budget') {shown : Showing τ α}
    (h : (p.parse G budget tokens).showing = some shown) :
    (p.parse G budget' tokens).showing = some shown := by
  rw [showing_parse] at h ⊢
  obtain ⟨halt, hrun, hshown⟩ := Option.map_eq_some_iff.mp h
  rw [(p.below_outcome G _ hle).along hrun, Option.map_some, hshown]

/-- A larger budget only finds more. -/
theorem decodeOpen_mono {budget' : Nat} (hle : budget ≤ budget') (tokens : List τ) :
    (p.decodeOpen G budget tokens).1 <+: (p.decodeOpen G budget' tokens).1 := by
  induction hn : tokens.length using Nat.strongRecOn generalizing tokens with
  | ind n ih =>
    subst hn
    rcases decodeOpen_cases G budget p tokens with hnil | ⟨value, rest, hshown, hless⟩
    · rw [hnil]
      exact List.nil_prefix
    · rw [decodeOpen_record hshown hless, decodeOpen_record (showing_parse_mono hle hshown) hless]
      exact List.cons_prefix_cons.mpr ⟨rfl, ih _ hless rest rfl⟩

/-- What a run of a seamless parser comes to along the chunks of an open stream, a parse of all
their tokens shows. -/
theorem eventually_showing (hG : ∀ i, Seamless (G i)) (hp : Seamless p) {s : Input τ}
    (hs : s.closed = false) {chunks : List (List τ)} {halt : Halt τ (Outcome τ α)}
    (hrun : (p.outcome G budget s).along false chunks = some halt) :
    ∃ least, ∀ n, least ≤ n → (p.parse G n (s.ahead chunks)).showing = some halt.showing := by
  have hsound : s.Sound false chunks := by
    intro hclosed
    rw [hs] at hclosed
    cases hclosed
  have halike : Alike false s chunks (.ofList (s.ahead chunks) false) [] := by
    refine ⟨hsound, sound_ofList _ _ _, ?_⟩
    rw [ahead_ofList, List.flatten_nil, List.append_nil]
  obtain ⟨halt', ⟨least, hrun'⟩, hshown⟩ := shows_of_along hG hp halike hrun
  refine ⟨least, fun n hle => ?_⟩
  rw [showing_parse, hrun' n hle, Option.map_some, hshown]

end DecodeOpen

end Parser

/-! ## Chunks that are needed -/

namespace Run

/-- The run is over at the last of the chunks, and waits with fewer of them. -/
structure Decides (r : Run τ ρ) (chunks : List (List τ)) (a : ρ) : Prop where
  done : r.along false chunks = some (.done a [])
  waiting : ∀ m < chunks.length, ∃ s, r.along false (chunks.take m) = some (.waiting s)

theorem Decides.later {next : Unit → Run τ ρ} {chunks : List (List τ)} {a : ρ}
    (h : (next ()).Decides chunks a) : (Run.later next).Decides chunks a :=
  ⟨h.done, h.waiting⟩

theorem Decides.await {input : Input τ} {onEnd : Unit → Run τ ρ} {onChunk : List τ → Run τ ρ}
    {chunk : List τ} {chunks : List (List τ)} {a : ρ} (h : (onChunk chunk).Decides chunks a) :
    (Run.await input onEnd onChunk).Decides (chunk :: chunks) a where
  done := h.done
  waiting m hm := by
    cases m with
    | zero => exact ⟨input, rfl⟩
    | succ m => exact h.waiting m (Nat.lt_of_succ_lt_succ hm)

/-- An answer stands, whatever comes after it. -/
theorem along_append {r : Run τ ρ} {chunks left : List (List τ)} {a : ρ}
    (h : r.along false chunks = some (.done a left)) (more : List (List τ)) :
    r.along false (chunks ++ more) = some (.done a (left ++ more)) := by
  induction r generalizing chunks with
  | done a' =>
    cases h
    rfl
  | later next ih => exact ih () h
  | await input onEnd onChunk ihEnd ihChunk =>
    cases chunks with
    | nil => cases h
    | cons chunk rest => exact ihChunk chunk h
  | exhausted => cases h

end Run

/-- A parse that is fed from a source takes the chunks that it needs for its verdict. -/
theorem Result.decides_of_drawFrom {r : Run τ (Outcome τ α)} {pulled received : Nat}
    {source : Source τ} {verdict : Verdict τ α} {drawn : Drawn τ α}
    (hdrawn : drawFrom pulled received source r.verdicts.settle = drawn)
    (hanswer : drawn.answer = .ok (some verdict)) (hopen : drawn.ended = false) :
    ∃ chunks o, source = chunks.map .chunk ++ drawn.left ∧
      drawn.pulled = pulled + chunks.length ∧
      drawn.received = received + chunks.flatten.length ∧
      r.Decides chunks o ∧ o.verdict = verdict := by
  induction r generalizing pulled received source with
  | done o =>
    have hdone : drawFrom pulled received source (.done o.verdict) =
        ⟨.ok (some o.verdict), pulled, received, false, source⟩ := by
      cases source <;> rfl
    obtain rfl : _ = drawn := hdone.symm.trans hdrawn
    cases hanswer
    exact ⟨[], o, rfl, rfl, rfl, ⟨rfl, nofun⟩, rfl⟩
  | later next ih =>
    obtain ⟨chunks, o, hsource, hpulled, hreceived, hdecides, hverdict⟩ := ih () hdrawn
    exact ⟨chunks, o, hsource, hpulled, hreceived, hdecides.later, hverdict⟩
  | await input onEnd onChunk ihEnd ihChunk =>
    cases source with
    | nil =>
      subst hdrawn
      cases hopen
    | cons delivery left =>
      cases delivery with
      | fault message =>
        subst hdrawn
        cases hanswer
      | chunk tokens =>
        obtain ⟨chunks, o, hsource, hpulled, hreceived, hdecides, hverdict⟩ :=
          ihChunk tokens hdrawn
        refine ⟨tokens :: chunks, o, congrArg (.chunk tokens :: ·) hsource, ?_, ?_,
          hdecides.await, hverdict⟩
        · rw [hpulled, List.length_cons]
          omega
        · rw [hreceived, List.flatten_cons, List.length_append]
          omega
  | exhausted =>
    have hnone : drawFrom pulled received source (.exhausted : Result τ α) =
        ⟨.ok none, pulled, received, false, source⟩ := by
      cases source <;> rfl
    obtain rfl : _ = drawn := hnone.symm.trans hdrawn
    cases hanswer

/-! ## Turn by turn -/

namespace Parser

/-- With every large enough budget: behind the tokens `first` the chunks complete the record `value`
and leave `rest`, whatever else has arrived, and fewer of the chunks do not. -/
structure Advances (G : Rules Γ τ) (p : Parser Γ τ α) (first : List τ) (chunks : List (List τ))
    (value : α) (rest : List τ) : Prop where
  record : ∀ more, ∃ least, ∀ budget, least ≤ budget →
    p.decodeOpen G budget (first ++ chunks.flatten ++ more) =
      (value :: (p.decodeOpen G budget (rest ++ more)).1, (p.decodeOpen G budget (rest ++ more)).2)
  pending : ∀ m < chunks.length, ∃ why least, (why = .dry ∨ why = .suspended) ∧
    ∀ budget, least ≤ budget →
      p.decodeOpen G budget (first ++ (chunks.take m).flatten) = ([], why)

/-- With every large enough budget: behind the tokens `first` the chunks complete the record `value`
after the records `values`, and fewer of the chunks complete some of `values` at most. -/
structure Completes (G : Rules Γ τ) (p : Parser Γ τ α) (first : List τ) (chunks : List (List τ))
    (values : List α) (value : α) : Prop where
  found : ∃ least, ∀ budget, least ≤ budget →
    values ++ [value] <+: (p.decodeOpen G budget (first ++ chunks.flatten)).1
  pending : ∀ m < chunks.length, ∃ fewer why least, fewer <+: values ∧
    (why = .dry ∨ why = .suspended) ∧ ∀ budget, least ≤ budget →
      p.decodeOpen G budget (first ++ (chunks.take m).flatten) = (fewer, why)

section Advances

variable {G : Rules Γ τ} {p : Parser Γ τ α} {first rest : List τ} {chunks : List (List τ)}
  {value : α}

/-- Where there is nothing to read, nothing is found until a chunk has come. -/
theorem Advances.cons (h : Advances G p first chunks value rest) :
    Advances G p [] (first :: chunks) value rest where
  record := h.record
  pending m hm := by
    cases m with
    | zero => exact ⟨.dry, 0, .inl rfl, fun _ _ => decodeOpen_nil⟩
    | succ m => exact h.pending m (Nat.lt_of_succ_lt_succ hm)

theorem Advances.completes (h : Advances G p first chunks value rest) :
    Completes G p first chunks [] value where
  found := by
    obtain ⟨least, hrecord⟩ := h.record []
    refine ⟨least, fun budget hle => ?_⟩
    rw [← List.append_nil (first ++ chunks.flatten), hrecord budget hle]
    exact List.cons_prefix_cons.mpr ⟨rfl, List.nil_prefix⟩
  pending m hm := by
    obtain ⟨why, least, hwhy, hpending⟩ := h.pending m hm
    exact ⟨[], why, least, List.nil_prefix, hwhy, hpending⟩

/-- A record, and then those that are complete with what it leaves and more chunks. -/
theorem Advances.completes_append (h : Advances G p first chunks value rest)
    {chunks' : List (List τ)} {values : List α} {last : α}
    (h' : Completes G p rest chunks' values last) :
    Completes G p first (chunks ++ chunks') (value :: values) last where
  found := by
    obtain ⟨least, hrecord⟩ := h.record chunks'.flatten
    obtain ⟨least', hfound⟩ := h'.found
    refine ⟨max least least', fun budget hle => ?_⟩
    rw [List.flatten_append, ← List.append_assoc, hrecord budget (by omega)]
    exact List.cons_prefix_cons.mpr ⟨rfl, hfound budget (by omega)⟩
  pending m hm := by
    by_cases hfew : m < chunks.length
    · obtain ⟨why, least, hwhy, hpending⟩ := h.pending m hfew
      rw [List.take_append_of_le_length (Nat.le_of_lt hfew)]
      exact ⟨[], why, least, List.nil_prefix, hwhy, hpending⟩
    · rw [List.length_append] at hm
      obtain ⟨fewer, why, least', hfewer, hwhy, hpending⟩ :=
        h'.pending (m - chunks.length) (by omega)
      obtain ⟨least, hrecord⟩ := h.record (chunks'.take (m - chunks.length)).flatten
      refine ⟨value :: fewer, why, max least least', List.cons_prefix_cons.mpr ⟨rfl, hfewer⟩, hwhy,
        fun budget hle => ?_⟩
      rw [List.take_append, List.take_of_length_le (Nat.le_of_not_lt hfew), List.flatten_append,
        ← List.append_assoc, hrecord budget (by omega), hpending budget (by omega)]

/-- A run that decides for a record advances, if the record leaves less than there was. -/
theorem advances_of_decides (hG : ∀ i, Seamless (G i)) (hp : Seamless p) {n : Nat} {s s' : Input τ}
    (hs : s.closed = false) (hne : s.remaining.toList ≠ [])
    (h : (p.outcome G n s).Decides chunks (.success s' value))
    (hless : s'.remaining.toList.length < (s.ahead chunks).length) :
    Advances G p s.remaining.toList chunks value s'.remaining.toList where
  record more := by
    obtain ⟨least, hparse⟩ := eventually_showing hG hp hs (Run.along_append h.done [more])
    have htokens : s.ahead (chunks ++ [more]) = s.remaining.toList ++ chunks.flatten ++ more := by
      simp [Input.ahead]
    have hrest : s'.ahead ([] ++ [more]) = s'.remaining.toList ++ more := by simp [Input.ahead]
    rw [htokens, Halt.showing, hrest] at hparse
    refine ⟨least, fun budget hle => decodeOpen_record (hparse budget hle) ?_⟩
    simp only [Input.ahead, List.length_append] at hless ⊢
    omega
  pending m hm := by
    obtain ⟨input, hrun⟩ := h.waiting m hm
    obtain ⟨least, hparse⟩ := eventually_showing hG hp hs hrun
    refine ⟨.suspended, least, .inr rfl, fun budget hle => ?_⟩
    exact decodeOpen_waiting (List.append_ne_nil_of_left_ne_nil hne _) (hparse budget hle)

end Advances

end Parser

theorem Event.not_ended_of_not_mem_pulls {pulled : Nat} {now : Bool}
    (h : (.ended : Event τ α) ∉ Event.pulls pulled now) : now = false := by
  cases now with
  | false => rfl
  | true => exact absurd (List.mem_append_right _ (List.mem_singleton_self _)) h

namespace Decoder

open Piecemeal.Parser

theorem of_conclude_record {d next : Decoder τ} {drawn : Drawn τ α} {value : α}
    (h : d.conclude drawn = .record value next) : ∃ rest,
      drawn.answer = .ok (some (.accepted value rest)) ∧
      rest.size < d.buffered.size + drawn.received ∧
      next = ⟨rest, d.ended || drawn.ended, drawn.left⟩ := by
  unfold conclude at h
  split at h
  · cases h
  · cases h
  · cases h
  · next value' rest hanswer =>
    split at h
    · cases h
    · next hless =>
      cases h
      exact ⟨rest, hanswer, by omega, rfl⟩

/-- A turn that has pulled some chunks, not the end, and has come to a record: the chunks are those
that the record needs. -/
structure Timely (G : Rules Γ τ) (p : Parser Γ τ α) (d : Decoder τ) (chunks : List (List τ))
    (value : α) (next : Decoder τ) : Prop where
  source_eq : d.source = chunks.map .chunk ++ next.source
  ended : next.ended = false
  advances : Advances G p d.buffered.toList chunks value next.buffered.toList

section Timely

variable {G : Rules Γ τ} {p : Parser Γ τ α} {n : Nat} {d next : Decoder τ}
  {happened : List (Event τ α)} {value : α}

theorem timely_parseRecord (hG : ∀ i, Seamless (G i)) (hp : Seamless p) (hd : d.ended = false)
    (hne : d.buffered.toList ≠ [])
    (h : parseRecord G n p d = (happened, .record value next)) (hopen : .ended ∉ happened) :
    ∃ chunks, happened = Event.pulls chunks.length false ∧ d.Timely G p chunks value next := by
  rw [parseRecord_eq] at h
  obtain ⟨hhappened, hrecord⟩ := Prod.mk.inj h
  obtain ⟨rest, hanswer, hless, hnext⟩ := of_conclude_record hrecord
  subst hhappened
  have hended := Event.not_ended_of_not_mem_pulls hopen
  have hdrawn : Result.drawFrom 0 0 d.source (p.outcome G n d.input).verdicts.settle =
      d.drawn G n p := by
    rw [drawn, parseInput_eq]
  obtain ⟨chunks, o, hsource, hpulled, hreceived, hdecides, hverdict⟩ :=
    Result.decides_of_drawFrom hdrawn hanswer hended
  cases o with
  | failure s reason => cases hverdict
  | success s value' =>
    cases hverdict
    refine ⟨chunks, ?_, ?_, ?_, ?_⟩
    · rw [hpulled, hended, Nat.zero_add]
    · rw [hnext, hsource]
    · rw [hnext, hd, hended]
      rfl
    · rw [hnext]
      apply advances_of_decides hG hp hd hne hdecides
      rw [hreceived, Buffer.size_eq, Buffer.size_eq] at hless
      simpa [Input.ahead, input] using hless

theorem timely_refill (hG : ∀ i, Seamless (G i)) (hp : Seamless p) {source : Source τ}
    {pulled : Nat} (h : refill G n p pulled source = (happened, .record value next))
    (hopen : .ended ∉ happened) :
    ∃ chunks, happened = Event.pulls (pulled + chunks.length) false ∧
      (Decoder.ofSource source).Timely G p chunks value next := by
  induction source generalizing pulled with
  | nil => cases h
  | cons delivery source ih =>
    cases delivery with
    | fault message => cases h
    | chunk tokens =>
      have hpulled : ∀ chunks : List (List τ),
          pulled + 1 + chunks.length = pulled + (tokens :: chunks).length := by
        intro chunks
        rw [List.length_cons]
        omega
      have hsource : ∀ chunks : List (List τ), source = chunks.map .chunk ++ next.source →
          .chunk tokens :: source = (tokens :: chunks).map .chunk ++ next.source := by
        intro chunks hsource
        rw [List.map_cons, List.cons_append, ← hsource]
      by_cases hempty : tokens.isEmpty = true
      · rw [refill, if_pos hempty] at h
        obtain ⟨chunks, hhappened, htimely⟩ := ih h
        have hadvances := htimely.advances
        rw [ofSource, Buffer.toList_empty, ← List.isEmpty_iff.mp hempty] at hadvances
        exact ⟨tokens :: chunks, hpulled chunks ▸ hhappened, hsource chunks htimely.source_eq,
          htimely.ended, hadvances.cons⟩
      · have hne : tokens ≠ [] := fun hnil => hempty (List.isEmpty_iff.mpr hnil)
        rw [refill, if_neg hempty] at h
        cases hrecord : parseRecord G n p ⟨.ofList tokens, false, source⟩ with
        | mk happened' turn =>
          rw [hrecord] at h
          cases h
          obtain ⟨chunks, rfl, htimely⟩ := timely_parseRecord hG hp rfl
            (by rwa [Buffer.toList_ofList]) hrecord fun hmem => hopen (List.mem_append_right _ hmem)
          have hadvances := htimely.advances
          rw [Buffer.toList_ofList] at hadvances
          refine ⟨tokens :: chunks, ?_, hsource chunks htimely.source_eq, htimely.ended,
            hadvances.cons⟩
          rw [pulls_append, hpulled]

/-- The step: a turn pulls the chunks that its record needs. -/
theorem timely_turn (hG : ∀ i, Seamless (G i)) (hp : Seamless p) (hd : d.ended = false)
    (h : d.turn G n p = (happened, .record value next)) (hopen : .ended ∉ happened) :
    ∃ chunks, happened = Event.pulls chunks.length false ∧ d.Timely G p chunks value next := by
  unfold turn at h
  split at h
  · next hsome =>
    refine timely_parseRecord hG hp hd ?_ h hopen
    intro hnil
    rw [d.buffered.isEmpty_iff.mpr hnil] at hsome
    cases hsome
  · next hempty =>
    rw [hd, if_neg Bool.false_ne_true] at h
    obtain ⟨chunks, hhappened, htimely⟩ := timely_refill hG hp h hopen
    have hnil : d.buffered.toList = [] := by
      rw [← d.buffered.isEmpty_iff]
      simpa using hempty
    refine ⟨chunks, ?_, htimely.source_eq, htimely.ended, ?_⟩
    · rw [hhappened, Nat.zero_add]
    · rw [hnil]
      exact htimely.advances

end Timely

end Decoder

/-! ## A whole pass -/

theorem Event.value_mem (before after : List (Event τ α)) (value : α) :
    value ∈ (before ++ .record value :: after).filterMap Event.value? := by
  rw [List.filterMap_append]
  exact List.mem_append_right _ List.mem_cons_self

/-- A record in a log is the one at the end of the first turn, or it is in what follows. -/
theorem Event.record_cases {happened log before after : List (Event τ α)} {first value : α}
    (hquiet : happened.filterMap Event.value? = [])
    (h : happened ++ .record first :: log = before ++ .record value :: after) :
    (before = happened ∧ first = value) ∨
      ∃ before', before = happened ++ .record first :: before' ∧
        log = before' ++ .record value :: after := by
  rcases List.append_eq_append_iff.mp h with ⟨more, rfl, hmore⟩ | ⟨more, rfl, hmore⟩
  · cases more with
    | nil =>
      cases hmore
      exact .inl ⟨List.append_nil _, rfl⟩
    | cons e more =>
      obtain ⟨rfl, hlog⟩ := List.cons.inj hmore
      exact .inr ⟨more, rfl, hlog⟩
  · cases more with
    | nil =>
      cases hmore
      exact .inl ⟨(List.append_nil _).symm, rfl⟩
    | cons e more =>
      obtain ⟨rfl, -⟩ := List.cons.inj hmore
      simp [Event.value?] at hquiet

namespace Decoder

open Piecemeal.Parser

/-- After these events, the chunks pulled from the source of `d` are those that are needed for the
record `value`. -/
def OnTime (G : Rules Γ τ) (p : Parser Γ τ α) (d : Decoder τ) (before : List (Event τ α))
    (value : α) : Prop :=
  ∃ chunks rest, d.source = chunks.map .chunk ++ rest ∧
    before.countP Event.isNext = chunks.length ∧
    Completes G p d.buffered.toList chunks (before.filterMap Event.value?) value

section OnTime

variable {G : Rules Γ τ} {p : Parser Γ τ α} {n : Nat} {d next : Decoder τ}
  {happened : List (Event τ α)} {first value : α}

theorem onTime_of_turn (hG : ∀ i, Seamless (G i)) (hp : Seamless p) (hd : d.ended = false)
    (hturn : d.turn G n p = (happened, .record value next)) (hopen : .ended ∉ happened) :
    d.OnTime G p happened value := by
  obtain ⟨chunks, rfl, htimely⟩ := timely_turn hG hp hd hturn hopen
  refine ⟨chunks, next.source, htimely.source_eq, Event.countP_isNext_pulls _ _, ?_⟩
  rw [Event.filterMap_value?_pulls]
  exact htimely.advances.completes

theorem OnTime.of_turn (hG : ∀ i, Seamless (G i)) (hp : Seamless p) (hd : d.ended = false)
    (hturn : d.turn G n p = (happened, .record first next)) (hopen : .ended ∉ happened)
    {before : List (Event τ α)} (h : next.ended = false → next.OnTime G p before value) :
    d.OnTime G p (happened ++ .record first :: before) value := by
  obtain ⟨chunks, rfl, htimely⟩ := timely_turn hG hp hd hturn hopen
  obtain ⟨chunks', rest, hsource, hcount, hcompletes⟩ := h htimely.ended
  refine ⟨chunks ++ chunks', rest, ?_, ?_, ?_⟩
  · rw [htimely.source_eq, hsource, List.map_append, List.append_assoc]
  · rw [List.countP_append, Event.countP_isNext_pulls, List.countP_cons_of_neg (by nofun), hcount,
      List.length_append]
  · rw [List.filterMap_append, Event.filterMap_value?_pulls]
    exact htimely.advances.completes_append hcompletes

end OnTime

/-- A pass pulls no chunk that it does not need for the record at hand. -/
theorem Pass.onTime {G : Rules Γ τ} (hG : ∀ i, Seamless (G i)) {p : Parser Γ τ α} (hp : Seamless p)
    {n : Nat} {closable : Bool} {limit : Option Nat} {d : Decoder τ}
    {yields : List (α × Decoder τ)} {log before after : List (Event τ α)} {value : α}
    (h : Pass G n p closable limit d yields log) (hd : d.ended = false)
    (hlog : log = before ++ .record value :: after) (hopen : .ended ∉ before) :
    d.OnTime G p before value := by
  have hmem := Event.value_mem before after value
  rw [← hlog, h.values_eq] at hmem
  induction h generalizing before with
  | record hturn hlimit rest ih =>
    rcases Event.record_cases (filterMap_value?_turn hturn) hlog with ⟨rfl, rfl⟩ |
      ⟨before', rfl, hlog'⟩
    · exact onTime_of_turn hG hp hd hturn hopen
    · rw [List.mem_append, not_or] at hopen
      have hmem' := Event.value_mem before' after value
      rw [← hlog', rest.values_eq] at hmem'
      exact .of_turn hG hp hd hturn hopen.1 fun hnext => ih hnext hlog'
        (fun h => hopen.2 (List.mem_cons_of_mem _ h)) hmem'
  | enough hturn hlimit =>
    rcases Event.record_cases (filterMap_value?_turn hturn) hlog with ⟨rfl, rfl⟩ |
      ⟨before', rfl, hlog'⟩
    · exact onTime_of_turn hG hp hd hturn hopen
    · -- the consumer has had enough, so that no record follows
      have hmem' := Event.value_mem before' after value
      rw [← hlog', filterMap_value?_farewell closable rfl] at hmem'
      cases hmem'
  | stop hturn => cases hmem
  | raise hturn => cases hmem
  | exhausted hturn => cases hmem

end Decoder

theorem Source.tokens_take (chunks : List (List τ)) (rest : Source τ) {m : Nat}
    (hm : m ≤ chunks.length) :
    Source.tokens ((chunks.map Delivery.chunk ++ rest).take m) = (chunks.take m).flatten := by
  rw [List.take_append_of_le_length (by rwa [List.length_map]), ← List.map_take, Source.tokens,
    List.flatMap_map]
  exact List.flatMap_id

namespace Parser

/-- **A record is handed over as soon as it is complete.** Let a decoder with a seamless parser hand
over a record before its source has reported the end, and let `i` be the number of records up to
this one. Then the number of chunks pulled by then is the least for which there are `i` records in
the tokens of so many chunks, with any budget. With every large enough budget, the first `i` records
in them are those that were handed over. And with fewer chunks there are only some of the records
before it, and then nothing is left to read or the next one is suspended. -/
theorem yields_promptly {G : Rules Γ τ} (hG : ∀ i, Seamless (G i)) {p : Parser Γ τ α}
    (hp : Seamless p) {n : Nat} {closable : Bool} {limit : Option Nat} {source : Source τ}
    {before after : List (Event τ α)} {value : α}
    (hlog : p.decodeStream G n closable limit source = before ++ .record value :: after)
    (hopen : .ended ∉ before) :
    IsLeast {m | ∃ budget, (before.filterMap Event.value?).length + 1 ≤
      (p.decodeOpen G budget (Source.tokens (source.take m))).1.length}
      (before.countP Event.isNext) ∧
    (∃ least, ∀ budget, least ≤ budget → before.filterMap Event.value? ++ [value] <+:
      (p.decodeOpen G budget (Source.tokens (source.take (before.countP Event.isNext)))).1) ∧
    ∀ m < before.countP Event.isNext, ∃ fewer why least,
      fewer <+: before.filterMap Event.value? ∧ (why = .dry ∨ why = .suspended) ∧
      ∀ budget, least ≤ budget →
        p.decodeOpen G budget (Source.tokens (source.take m)) = (fewer, why) := by
  have hpass := (Decoder.ofSource source).pass G n p closable limit
  obtain ⟨chunks, rest, hsource, hcount, hcompletes⟩ := hpass.onTime hG hp rfl hlog hopen
  have htokens : ∀ m ≤ chunks.length, Source.tokens (source.take m) = (chunks.take m).flatten := by
    intro m hm
    have hsource' : source = chunks.map .chunk ++ rest := hsource
    rw [hsource', Source.tokens_take chunks rest hm]
  have hfound := hcompletes.found
  have hpending := hcompletes.pending
  simp only [Decoder.ofSource, Buffer.toList_empty, List.nil_append] at hfound hpending
  rw [hcount]
  refine ⟨⟨?_, ?_⟩, ?_, ?_⟩
  · obtain ⟨least, hfound⟩ := hfound
    refine ⟨least, ?_⟩
    have hlength := (hfound least (Nat.le_refl least)).length_le
    rw [List.length_append, List.length_singleton] at hlength
    rwa [htokens _ (Nat.le_refl _), List.take_length]
  · rintro m ⟨budget, hm⟩
    apply Nat.le_of_not_lt
    intro hfew
    obtain ⟨fewer, why, least, hfewer, -, hopen⟩ := hpending m hfew
    -- the budget may be too small for all that `fewer` has, but it finds no more
    have hmore := (decodeOpen_mono (G := G) (p := p) (Nat.le_max_left budget least)
      (Source.tokens (source.take m))).length_le
    rw [htokens m (Nat.le_of_lt hfew)] at hm hmore
    rw [hopen _ (Nat.le_max_right budget least)] at hmore
    exact absurd (Nat.le_trans hm (Nat.le_trans hmore hfewer.length_le)) (Nat.not_succ_le_self _)
  · rw [htokens _ (Nat.le_refl _), List.take_length]
    exact hfound
  · intro m hm
    rw [htokens m (Nat.le_of_lt hm)]
    exact hpending m hm

/-- A stream of records that breaks off in the middle of the third. -/
def interrupted : Source Nat :=
  [.chunk [1], .chunk [2, 0, 3], .chunk [], .chunk [0, 4], .fault "lost"]

theorem decodeStream_interrupted : zeroEnded.decodeStream nofun 20 true none interrupted =
    [.next, .next, .record [1, 2], .next, .next] ++ .record [3] ::
      [.next, .closed, .raised (.fault "lost")] := by
  have hfirst : (Decoder.ofSource interrupted).turn nofun 20 zeroEnded = ([.next, .next],
      .record [1, 2] ⟨.ofList [3], false, [.chunk [], .chunk [0, 4], .fault "lost"]⟩) := rfl
  have hsecond : (⟨.ofList [3], false, [.chunk [], .chunk [0, 4], .fault "lost"]⟩ :
      Decoder Nat).turn nofun 20 zeroEnded =
        ([.next, .next], .record [3] ⟨.ofList [4], false, [.fault "lost"]⟩) := rfl
  have hthird : (⟨.ofList [4], false, [.fault "lost"]⟩ : Decoder Nat).turn nofun 20 zeroEnded =
      ([.next], .raise (.fault "lost")) := rfl
  refine (Decoder.events_of_record true hfirst rfl).trans ?_
  rw [Decoder.events_of_record true hsecond rfl, Decoder.events_of_raise true _ hthird]
  rfl

/-- The second record ends in the fourth chunk, and three chunks are not enough for it. -/
theorem yields_promptly_interrupted : Seamless zeroEnded ∧
    zeroEnded.decodeStream nofun 20 true none interrupted =
      [.next, .next, .record [1, 2], .next, .next] ++ .record [3] ::
        [.next, .closed, .raised (.fault "lost")] ∧
    IsLeast {m | ∃ budget, 2 ≤
      (zeroEnded.decodeOpen nofun budget (Source.tokens (interrupted.take m))).1.length} 4 := by
  have hseamless : Seamless zeroEnded := .followedBy (.leaf (.takeWhile1 _)) (.leaf (.skip _))
  have hopen : (.ended : Event Nat (List Nat)) ∉
      [.next, .next, .record [1, 2], .next, .next] := by simp
  exact ⟨hseamless, decodeStream_interrupted,
    (yields_promptly nofun hseamless decodeStream_interrupted hopen).1⟩

end Parser

end Piecemeal
