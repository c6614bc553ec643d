import Piecemeal.Proofs.Delivery
import Piecemeal.Proofs.Turns

/-!
# Turns that come to something

A decoder is as good as its parser: where every parse of records settles (`Parser.Conclusive`), each
turn of the decoder is the same with every large enough budget, and so is the log of a whole pass
(`Conclusive.exists_events`). That rests on the budgets alone; the parser may replace its input.

What a turn asks of the source is said once, by `Asks`: it takes chunks from the front and perhaps
is told of the end, or it comes upon a fault. Where the end is known already, it asks for nothing,
since a parse of closed input does not wait. And a pass is one of `Decoder.Pass`, turn after turn,
so that what holds of passes is proved by induction on them.
-/

namespace Piecemeal

variable {ι : Type} {Γ : ι → Type} {τ α : Type}

/-! ## Larger budgets -/

/-- A parse that was fed from a source and came to something is fed alike with a larger budget. -/
theorem Run.Below.drawFrom {r r' : Parse τ α} (h : r.Below r') {pulled received : Nat}
    {source : Source τ}
    (hanswer : (Result.drawFrom pulled received source r.settle).answer ≠ .ok none) :
    Result.drawFrom pulled received source r'.settle =
      Result.drawFrom pulled received source r.settle := by
  induction h generalizing pulled received source with
  | exhausted r =>
    apply absurd _ hanswer
    cases source <;> rfl
  | done a => rfl
  | later _ ih => exact ih hanswer
  | @await input onEnd onEnd' onChunk onChunk' hend hchunk ihEnd ihChunk =>
    cases source with
    | nil =>
      have hsome : (onEnd ()).finish ≠ none := by
        intro hnone
        exact hanswer (congrArg Except.ok hnone)
      obtain ⟨verdict, hverdict⟩ := Option.ne_none_iff_exists'.mp hsome
      have hsame : (onEnd' ()).finish = (onEnd ()).finish := by
        rw [hverdict, hend.finish hverdict]
      change Drawn.mk (.ok (onEnd' ()).finish) pulled received true [] = _
      rw [hsame]
      rfl
    | cons delivery left =>
      cases delivery with
      | fault message => rfl
      | chunk tokens => exact ihChunk tokens hanswer

namespace Parser

theorem below_start (G : Rules Γ τ) (p : Parser Γ τ α) (s : Input τ) {budget budget' : Nat}
    (hle : budget ≤ budget') : (p.start G budget s).Below (p.start G budget' s) := by
  rw [start_eq, start_eq]
  apply Run.Below.later
  exact (below_outcome G p s hle).bind fun o => Run.below_refl _

/-- Every parse settles: on any tokens, with any chunks to follow and then the end, it comes to a
verdict with some budget. -/
def Conclusive (G : Rules Γ τ) (p : Parser Γ τ α) : Prop :=
  ∀ (tokens : List τ) (closed : Bool) (chunks : List (List τ)), ∃ budget,
    ((p.parseInput G budget (.ofList tokens closed)).push chunks).1 ≠ none

end Parser

namespace Decoder

/-- The parse of a record, fed from the source of a decoder. -/
def drawn (G : Rules Γ τ) (budget : Nat) (p : Parser Γ τ α) (d : Decoder τ) : Drawn τ α :=
  (p.parseInput G budget d.input).drawFrom 0 0 d.source

/-- What a decoder makes of the parse of a record. -/
def conclude (d : Decoder τ) (drawn : Drawn τ α) : Turn τ α :=
  match drawn.answer with
  | .error message => .raise (.fault message)
  | .ok none => .exhausted
  | .ok (some (.rejected failure rest)) => .raise (.rejected (.ofFailure failure rest.toList))
  | .ok (some (.accepted value rest)) =>
    if d.buffered.size + drawn.received ≤ rest.size then
      .raise (.rejected (.noProgress rest.toList))
    else .record value ⟨rest, d.ended || drawn.ended, drawn.left⟩

theorem parseRecord_eq (G : Rules Γ τ) (budget : Nat) (p : Parser Γ τ α) (d : Decoder τ) :
    parseRecord G budget p d =
      (Event.pulls (d.drawn G budget p).pulled (d.drawn G budget p).ended,
        d.conclude (d.drawn G budget p)) := rfl

theorem conclude_ne_exhausted (d : Decoder τ) {drawn : Drawn τ α} (h : drawn.answer ≠ .ok none) :
    d.conclude drawn ≠ .exhausted := by
  unfold conclude
  split
  · nofun
  · next hnone => exact absurd hnone h
  · nofun
  · split
    · nofun
    · nofun

end Decoder

theorem Source.chunks_or_fault (source : Source τ) :
    (∃ chunks : List (List τ), source = chunks.map .chunk) ∨
      ∃ (chunks : List (List τ)) (message : String) (rest : Source τ),
        source = chunks.map .chunk ++ .fault message :: rest := by
  induction source with
  | nil => exact .inl ⟨[], rfl⟩
  | cons delivery rest ih =>
    cases delivery with
    | fault message => exact .inr ⟨[], message, rest, rfl⟩
    | chunk tokens =>
      rcases ih with ⟨chunks, rfl⟩ | ⟨chunks, message, rest', rfl⟩
      · exact .inl ⟨tokens :: chunks, rfl⟩
      · exact .inr ⟨tokens :: chunks, message, rest', rfl⟩

namespace Parser.Conclusive

open Decoder

variable {G : Rules Γ τ} {p : Parser Γ τ α}

/-- A fault cuts a parse short that would have settled without it. -/
theorem exists_answer (hp : Conclusive G p) (tokens : List τ) (closed : Bool)
    (source : Source τ) : ∃ budget,
      ((p.parseInput G budget (.ofList tokens closed)).drawFrom 0 0 source).answer ≠ .ok none := by
  rcases source.chunks_or_fault with ⟨chunks, rfl⟩ | ⟨chunks, message, rest, rfl⟩
  · obtain ⟨budget, hsettled⟩ := hp tokens closed chunks
    refine ⟨budget, ?_⟩
    rw [(Result.drawFrom_chunks 0 0 chunks _).1]
    intro hnone
    exact hsettled (Except.ok.inj hnone)
  · obtain ⟨budget, hsettled⟩ := hp tokens closed (chunks ++ [[]])
    refine ⟨budget, ?_⟩
    rw [Result.drawFrom_fault 0 0 chunks message rest _ [] []]
    split
    · nofun
    · intro hnone
      exact hsettled (Except.ok.inj hnone)

theorem exists_parseRecord (hp : Conclusive G p) (d : Decoder τ) :
    ∃ least happened turn, turn ≠ .exhausted ∧ ∀ budget, least ≤ budget →
      parseRecord G budget p d = (happened, turn) := by
  obtain ⟨least, hanswer⟩ := hp.exists_answer d.buffered.toList d.ended d.source
  rw [Input.ofList, Buffer.ofList_toList] at hanswer
  refine ⟨least, (parseRecord G least p d).1, _, d.conclude_ne_exhausted hanswer, ?_⟩
  intro budget hle
  have hsame : d.drawn G budget p = d.drawn G least p :=
    (below_start G p d.input hle).drawFrom hanswer
  rw [parseRecord_eq, hsame]
  rfl

theorem exists_refill (hp : Conclusive G p) (source : Source τ) (pulled : Nat) :
    ∃ least happened turn, turn ≠ .exhausted ∧ ∀ budget, least ≤ budget →
      refill G budget p pulled source = (happened, turn) := by
  induction source generalizing pulled with
  | nil => exact ⟨0, _, .stop, nofun, fun _ _ => rfl⟩
  | cons delivery source ih =>
    cases delivery with
    | fault message => exact ⟨0, _, .raise (.fault message), nofun, fun _ _ => rfl⟩
    | chunk tokens =>
      by_cases hempty : tokens.isEmpty = true
      · obtain ⟨least, happened, turn, hturn, hrefill⟩ := ih (pulled + 1)
        refine ⟨least, happened, turn, hturn, ?_⟩
        intro budget hle
        rw [refill, if_pos hempty, hrefill budget hle]
      · obtain ⟨least, happened, turn, hturn, hrecord⟩ :=
          hp.exists_parseRecord ⟨.ofList tokens, false, source⟩
        refine ⟨least, Event.pulls (pulled + 1) false ++ happened, turn, hturn, ?_⟩
        intro budget hle
        rw [refill, if_neg hempty, hrecord budget hle]

theorem exists_turn (hp : Conclusive G p) (d : Decoder τ) :
    ∃ least happened turn, turn ≠ .exhausted ∧ ∀ budget, least ≤ budget →
      d.turn G budget p = (happened, turn) := by
  unfold Decoder.turn
  split
  · exact hp.exists_parseRecord d
  · split
    · exact ⟨0, [], .stop, nofun, fun _ _ => rfl⟩
    · exact hp.exists_refill d.source 0

end Parser.Conclusive

/-! ## What a turn asks of the source -/

/-- How a turn leaves the source, with the elements `left` and its end reported if `ended`. -/
def Turn.Leaves (ended : Bool) (left : Source τ) : Turn τ α → Prop
  | record _ next => next.ended = ended ∧ next.source = left
  | stop => ended = true
  | raise (.rejected _) | exhausted => True
  | raise (.fault _) => False

/-- What happens in a turn of a decoder that has `source` left, and knows of its end if `ended`. -/
inductive Asks (ended : Bool) (source : Source τ) : List (Event τ α) × Turn τ α → Prop
  /-- Some chunks are taken, and perhaps the end is reported. -/
  | taken (chunks : List (List τ)) (left : Source τ) (now : Bool) {turn : Turn τ α}
      (hsource : source = chunks.map .chunk ++ left)
      (hnow : now = true → left = [] ∧ ended = false) (hended : ended = true → chunks = [])
      (hturn : turn.Leaves (ended || now) left) :
      Asks ended source (Event.pulls chunks.length now, turn)
  /-- Behind some chunks there is a fault. -/
  | fault (chunks : List (List τ)) (message : String) (rest : Source τ)
      (hsource : source = chunks.map .chunk ++ .fault message :: rest) (hopen : ended = false) :
      Asks ended source (Event.pulls (chunks.length + 1) false, .raise (.fault message))

theorem Asks.cons {source : Source τ} {happened : List (Event τ α)} {turn : Turn τ α}
    (h : Asks false source (happened, turn)) (tokens : List τ) :
    Asks false (.chunk tokens :: source) (Event.pulls 1 false ++ happened, turn) := by
  cases h with
  | taken chunks left now hsource hnow hended hturn =>
    rw [Decoder.pulls_append, Nat.add_comm]
    subst hsource
    exact .taken (tokens :: chunks) left now rfl hnow nofun hturn
  | fault chunks message rest hsource hopen =>
    rw [Decoder.pulls_append, Nat.add_comm]
    subst hsource
    exact .fault (tokens :: chunks) message rest rfl rfl

/-- A parse takes chunks from the front of the source, up to its answer or a fault. -/
theorem Result.drawFrom_cases (pulled received : Nat) (source : Source τ) (r : Result τ α) :
    (∃ (chunks : List (List τ)) (answer : Option (Verdict τ α)),
      source = chunks.map .chunk ++ (r.drawFrom pulled received source).left ∧
      (r.drawFrom pulled received source).answer = .ok answer ∧
      (r.drawFrom pulled received source).pulled = pulled + chunks.length ∧
      ((r.drawFrom pulled received source).ended = true →
        (r.drawFrom pulled received source).left = [])) ∨
    ∃ (chunks : List (List τ)) (message : String) (rest : Source τ),
      source = chunks.map .chunk ++ .fault message :: rest ∧
      (r.drawFrom pulled received source).answer = .error message ∧
      (r.drawFrom pulled received source).pulled = pulled + (chunks.length + 1) ∧
      (r.drawFrom pulled received source).ended = false := by
  fun_induction Result.drawFrom pulled received source r with
  | case1 pulled received left verdict =>
    exact .inl ⟨[], some verdict, rfl, rfl, rfl, fun h => absurd h Bool.false_ne_true⟩
  | case2 pulled received left =>
    exact .inl ⟨[], none, rfl, rfl, rfl, fun h => absurd h Bool.false_ne_true⟩
  | case3 pulled received input onEnd onChunk => exact .inl ⟨[], _, rfl, rfl, rfl, fun _ => rfl⟩
  | case4 pulled received message left => exact .inr ⟨[], message, left, rfl, rfl, rfl, rfl⟩
  | case5 pulled received tokens left input onEnd onChunk ih =>
    rcases ih with ⟨chunks, answer, hsource, hanswer, hpulled, hended⟩ |
      ⟨chunks, message, rest, hsource, hanswer, hpulled, hended⟩
    · refine .inl ⟨tokens :: chunks, answer, congrArg (.chunk tokens :: ·) hsource, hanswer, ?_,
        hended⟩
      rw [hpulled, List.length_cons]
      omega
    · refine .inr ⟨tokens :: chunks, message, rest, congrArg (.chunk tokens :: ·) hsource, hanswer,
        ?_, hended⟩
      rw [hpulled, List.length_cons]
      omega

/-- A parse of closed input leaves the source alone. -/
theorem Parser.drawFrom_of_closed (G : Rules Γ τ) (budget : Nat) (p : Parser Γ τ α) {s : Input τ}
    (hs : s.closed = true) (source : Source τ) : ∃ answer,
      (p.parseInput G budget s).drawFrom 0 0 source = ⟨.ok answer, 0, 0, false, source⟩ := by
  have hquiet : (p.start G budget s).Quiet := quiet_start hs
  refine ⟨(p.start G budget s).finish, ?_⟩
  rw [parseInput, ← Run.settleWith_caller _ 0, hquiet.settleWith]
  cases (p.start G budget s).finish with
  | none => cases source <;> rfl
  | some verdict => cases source <;> rfl

namespace Decoder

theorem leaves_conclude (d : Decoder τ) {drawn : Drawn τ α} {answer : Option (Verdict τ α)}
    (h : drawn.answer = .ok answer) :
    (d.conclude drawn).Leaves (d.ended || drawn.ended) drawn.left := by
  unfold conclude
  split
  · next hfault =>
    rw [h] at hfault
    cases hfault
  · trivial
  · trivial
  · split
    · trivial
    · exact ⟨rfl, rfl⟩

variable (G : Rules Γ τ) (budget : Nat) (p : Parser Γ τ α)

theorem asks_parseRecord (d : Decoder τ) : Asks d.ended d.source (parseRecord G budget p d) := by
  rw [parseRecord_eq]
  by_cases hended : d.ended = true
  · obtain ⟨answer, hdrawn⟩ := Parser.drawFrom_of_closed G budget p (s := d.input) hended d.source
    have hsame : d.drawn G budget p = ⟨.ok answer, 0, 0, false, d.source⟩ := hdrawn
    have hleaves := d.leaves_conclude (congrArg Drawn.answer hsame)
    rw [hsame] at hleaves ⊢
    exact .taken [] d.source false rfl nofun (fun _ => rfl) hleaves
  · have hopen : d.ended = false := Bool.eq_false_iff.mpr hended
    rcases Result.drawFrom_cases 0 0 d.source (p.parseInput G budget d.input) with
      ⟨chunks, answer, hsource, hanswer, hpulled, hnow⟩ |
      ⟨chunks, message, rest, hsource, hanswer, hpulled, hnow⟩
    · have hcount : (d.drawn G budget p).pulled = chunks.length := by
        rw [drawn, hpulled, Nat.zero_add]
      rw [hcount]
      apply Asks.taken chunks _ _ hsource
      · intro h
        exact ⟨hnow h, hopen⟩
      · intro h
        exact absurd h hended
      · exact leaves_conclude d hanswer
    · have hcount : (d.drawn G budget p).pulled = chunks.length + 1 := by
        rw [drawn, hpulled, Nat.zero_add]
      have hturn : d.conclude (d.drawn G budget p) = .raise (.fault message) := by
        rw [conclude, drawn, hanswer]
      rw [hcount, hturn, drawn, hnow]
      exact .fault chunks message rest hsource hopen

theorem asks_refill (source : Source τ) (pulled : Nat) : ∃ happened turn,
    refill G budget p pulled source = (Event.pulls pulled false ++ happened, turn) ∧
      Asks false source (happened, turn) := by
  induction source generalizing pulled with
  | nil =>
    refine ⟨Event.pulls 0 true, .stop, ?_, ?_⟩
    · rw [pulls_append]
      rfl
    · exact .taken [] [] true rfl (fun _ => ⟨rfl, rfl⟩) nofun rfl
  | cons delivery source ih =>
    cases delivery with
    | fault message =>
      refine ⟨Event.pulls 1 false, .raise (.fault message), ?_, .fault [] message source rfl rfl⟩
      rw [pulls_append]
      rfl
    | chunk tokens =>
      by_cases hempty : tokens.isEmpty = true
      · obtain ⟨happened, turn, hrefill, hasks⟩ := ih (pulled + 1)
        refine ⟨Event.pulls 1 false ++ happened, turn, ?_, hasks.cons tokens⟩
        rw [refill, if_pos hempty, hrefill, ← List.append_assoc, pulls_append]
      · have hasks := asks_parseRecord G budget p ⟨.ofList tokens, false, source⟩
        cases hrecord : parseRecord G budget p ⟨.ofList tokens, false, source⟩ with
        | mk happened turn =>
          rw [hrecord] at hasks
          refine ⟨Event.pulls 1 false ++ happened, turn, ?_, hasks.cons tokens⟩
          rw [refill, if_neg hempty, hrecord, ← List.append_assoc, pulls_append]

theorem asks_turn (d : Decoder τ) : Asks d.ended d.source (d.turn G budget p) := by
  unfold turn
  split
  · exact asks_parseRecord G budget p d
  · split
    · next hended =>
      rw [hended]
      exact .taken [] d.source false rfl nofun (fun _ => rfl) rfl
    · next hopen =>
      obtain ⟨happened, turn, hrefill, hasks⟩ := asks_refill G budget p d.source 0
      rw [Bool.eq_false_iff.mpr hopen, hrefill]
      exact hasks

end Decoder

/-! ## The course of a pass -/

namespace Decoder

/-- The records that a pass hands over, each with the decoder behind it. -/
def yields (G : Rules Γ τ) (budget : Nat) (p : Parser Γ τ α) (limit : Option Nat)
    (d : Decoder τ) : List (α × Decoder τ) :=
  match _h : turn G budget p d with
  | (_, .record value next) =>
    (value, next) :: if limit.any (· ≤ 1) then [] else yields G budget p (limit.map (· - 1)) next
  | _ => []
termination_by d.unread
decreasing_by exact unread_lt _h

section Equations

variable {G : Rules Γ τ} {budget : Nat} {p : Parser Γ τ α} {d next : Decoder τ}
  {happened : List (Event τ α)} {value : α} {limit : Option Nat}

theorem yields_of_record (h : d.turn G budget p = (happened, .record value next))
    (hlimit : limit.any (· ≤ 1) = false) :
    d.yields G budget p limit = (value, next) :: next.yields G budget p (limit.map (· - 1)) := by
  rw [yields]
  split
  · next heq =>
    rw [h] at heq
    cases heq
    rw [hlimit]
    rfl
  · next hnone => exact absurd h (hnone _ _ _)

theorem yields_of_enough (h : d.turn G budget p = (happened, .record value next))
    (hlimit : limit.any (· ≤ 1) = true) : d.yields G budget p limit = [(value, next)] := by
  rw [yields]
  split
  · next heq =>
    rw [h] at heq
    cases heq
    rw [hlimit]
    rfl
  · next hnone => exact absurd h (hnone _ _ _)

theorem yields_of_not_record {turn : Turn τ α} (h : d.turn G budget p = (happened, turn))
    (hturn : ∀ value next, turn ≠ .record value next) : d.yields G budget p limit = [] := by
  rw [yields]
  split
  · next heq =>
    rw [h] at heq
    cases heq
    exact absurd rfl (hturn _ _)
  · rfl

theorem events_of_record (closable : Bool)
    (h : d.turn G budget p = (happened, .record value next)) (hlimit : limit.any (· ≤ 1) = false) :
    d.events G budget p closable limit =
      happened ++ .record value :: next.events G budget p closable (limit.map (· - 1)) := by
  rw [events_eq, h]
  simp only [hlimit, Bool.false_eq_true, if_false]

/-- The consumer has had enough. -/
theorem events_of_enough (closable : Bool)
    (h : d.turn G budget p = (happened, .record value next)) (hlimit : limit.any (· ≤ 1) = true) :
    d.events G budget p closable limit =
      happened ++ .record value :: farewell closable .stopped := by
  rw [events_eq, h]
  simp only [hlimit, if_true]

theorem events_of_stop (closable : Bool) (limit : Option Nat)
    (h : d.turn G budget p = (happened, .stop)) :
    d.events G budget p closable limit = happened ++ farewell closable .stopped := by
  rw [events_eq, h]

theorem events_of_raise (closable : Bool) (limit : Option Nat) {error : StreamError τ}
    (h : d.turn G budget p = (happened, .raise error)) :
    d.events G budget p closable limit = happened ++ farewell closable (.raised error) := by
  rw [events_eq, h]

end Equations

/-- A pass from the decoder `d` on, for a consumer that may stop after `limit` records, turn by
turn: the records it hands over, each with the decoder behind it, and its log. -/
inductive Pass (G : Rules Γ τ) (budget : Nat) (p : Parser Γ τ α) (closable : Bool) :
    (limit : Option Nat) → (d : Decoder τ) → List (α × Decoder τ) → List (Event τ α) → Prop
  | record {limit : Option Nat} {d next : Decoder τ} {happened : List (Event τ α)} {value : α}
      {yields : List (α × Decoder τ)} {log : List (Event τ α)}
      (hturn : d.turn G budget p = (happened, .record value next))
      (hlimit : limit.any (· ≤ 1) = false)
      (rest : Pass G budget p closable (limit.map (· - 1)) next yields log) :
      Pass G budget p closable limit d ((value, next) :: yields) (happened ++ .record value :: log)
  /-- The consumer has had enough. -/
  | enough {limit : Option Nat} {d next : Decoder τ} {happened : List (Event τ α)} {value : α}
      (hturn : d.turn G budget p = (happened, .record value next))
      (hlimit : limit.any (· ≤ 1) = true) :
      Pass G budget p closable limit d [(value, next)]
        (happened ++ .record value :: farewell closable .stopped)
  | stop {limit : Option Nat} {d : Decoder τ} {happened : List (Event τ α)}
      (hturn : d.turn G budget p = (happened, .stop)) :
      Pass G budget p closable limit d [] (happened ++ farewell closable .stopped)
  | raise {limit : Option Nat} {d : Decoder τ} {happened : List (Event τ α)}
      {error : StreamError τ} (hturn : d.turn G budget p = (happened, .raise error)) :
      Pass G budget p closable limit d [] (happened ++ farewell closable (.raised error))
  | exhausted {limit : Option Nat} {d : Decoder τ} {happened : List (Event τ α)}
      (hturn : d.turn G budget p = (happened, .exhausted)) :
      Pass G budget p closable limit d [] (happened ++ [.exhausted])

theorem pass (G : Rules Γ τ) (budget : Nat) (p : Parser Γ τ α) (closable : Bool)
    (limit : Option Nat) (d : Decoder τ) :
    Pass G budget p closable limit d (d.yields G budget p limit)
      (d.events G budget p closable limit) := by
  induction hn : d.unread using Nat.strongRecOn generalizing d limit with
  | ind n ih =>
    subst hn
    cases hturn : d.turn G budget p with
    | mk happened turn =>
      cases turn with
      | record value next =>
        cases hlimit : limit.any (· ≤ 1) with
        | true =>
          rw [yields_of_enough hturn hlimit, events_of_enough closable hturn hlimit]
          exact .enough hturn hlimit
        | false =>
          rw [yields_of_record hturn hlimit, events_of_record closable hturn hlimit]
          exact .record hturn hlimit (ih _ (unread_lt hturn) _ next rfl)
      | stop =>
        rw [yields_of_not_record hturn nofun, events_of_stop closable limit hturn]
        exact .stop hturn
      | raise error =>
        rw [yields_of_not_record hturn nofun, events_of_raise closable limit hturn]
        exact .raise hturn
      | exhausted =>
        rw [yields_of_not_record hturn nofun, events_eq, hturn]
        exact .exhausted hturn

end Decoder

/-! ## Passes that come to something -/

theorem Asks.exhausted_not_mem {ended : Bool} {source : Source τ} {happened : List (Event τ α)}
    {turn : Turn τ α} (h : Asks ended source (happened, turn)) : .exhausted ∉ happened := by
  have hpulls : ∀ (n : Nat) (now : Bool), (.exhausted : Event τ α) ∉ Event.pulls n now := by
    intro n now
    cases now <;> simp [Event.pulls]
  cases h with
  | taken chunks left now => exact hpulls _ _
  | fault chunks message rest => exact hpulls _ _

theorem Decoder.mem_farewell {closable : Bool} {e last : Event τ α}
    (h : e ∈ farewell closable last) : e = .closed ∨ e = last := by
  cases closable with
  | false => exact .inr (List.mem_singleton.mp h)
  | true =>
    rcases List.mem_cons.mp h with h | h
    · exact .inl h
    · exact .inr (List.mem_singleton.mp h)

/-- With every large enough budget a pass has the same log. No parse is cut off in it, and it ends
normally or with an error. -/
theorem Parser.Conclusive.exists_events {G : Rules Γ τ} {p : Parser Γ τ α} (hp : Conclusive G p)
    (closable : Bool) (limit : Option Nat) (d : Decoder τ) :
    ∃ least work last, .exhausted ∉ work ++ Decoder.farewell closable last ∧
      (last = .stopped ∨ ∃ error, last = .raised error) ∧
      ∀ budget, least ≤ budget →
        d.events G budget p closable limit = work ++ Decoder.farewell closable last := by
  induction hn : d.unread using Nat.strongRecOn generalizing d limit with
  | ind n ih =>
    subst hn
    obtain ⟨least, happened, turn, hturn, hsame⟩ := hp.exists_turn d
    have hasks := d.asks_turn G least p
    rw [hsame least (Nat.le_refl least)] at hasks
    have hquiet := hasks.exhausted_not_mem
    have hfarewell : ∀ last, last ≠ .exhausted →
        (.exhausted : Event τ α) ∉ Decoder.farewell closable last := by
      intro last hlast hmem
      rcases Decoder.mem_farewell hmem with h | h
      · cases h
      · exact hlast h.symm
    cases turn with
    | record value next =>
      cases hlimit : limit.any (· ≤ 1) with
      | true =>
        refine ⟨least, happened ++ [.record value], .stopped, ?_, .inl rfl, ?_⟩
        · simp [hquiet, hfarewell .stopped nofun]
        · intro budget hle
          rw [Decoder.events_of_enough closable (hsame budget hle) hlimit]
          simp
      | false =>
        have hless := Decoder.unread_lt (hsame least (Nat.le_refl least))
        obtain ⟨least', work, last, hwork, hlast, hrest⟩ := ih _ hless (limit.map (· - 1)) next rfl
        refine ⟨max least least', happened ++ .record value :: work, last, ?_, hlast, ?_⟩
        · obtain ⟨hbefore, hafter⟩ := not_or.mp fun h => hwork (List.mem_append.mpr h)
          simp [hquiet, hbefore, hafter]
        · intro budget hle
          rw [Decoder.events_of_record closable (hsame budget (by omega)) hlimit,
            hrest budget (by omega)]
          simp
    | stop =>
      refine ⟨least, happened, .stopped, ?_, .inl rfl, ?_⟩
      · simp [hquiet, hfarewell .stopped nofun]
      · intro budget hle
        exact Decoder.events_of_stop closable limit (hsame budget hle)
    | raise error =>
      refine ⟨least, happened, .raised error, ?_, .inr ⟨error, rfl⟩, ?_⟩
      · simp [hquiet, hfarewell (.raised error) nofun]
      · intro budget hle
        exact Decoder.events_of_raise closable limit (hsame budget hle)
    | exhausted => exact absurd rfl hturn

end Piecemeal
