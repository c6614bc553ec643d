import Piecemeal.Proofs.Decoding
import Piecemeal.Proofs.Passes

/-!
# Empty chunks

A parser that waits and is handed an empty chunk asks again, in the state it was in. So empty chunks
cannot be seen, not even by parsers that look at the chunks as they come.

Asking again uses up budget, and runs are compared accordingly: `r.Lenient k r'` says that `r'`
behaves like `r`, except perhaps where `r` is exhausted, when any of the empty chunks that `r` was
given are left out and up to `k` others are put in. It holds of the runs of one parser whose budgets
differ by `k` (`lenient_outcome`). Whoever drives a run, a prompt (`Lenient.settled`), a caller who
feeds it (`Lenient.feedAll`) or a source (`Lenient.drawFrom`), then gets the same from both.

`empty_chunks_invisible` says so with the budgets left out, and of decoding a stream.
-/

namespace Piecemeal

variable {ι : Type} {Γ : ι → Type} {τ α β ρ σ : Type}

/-! ## Sequences up to blanks -/

/-- `ys` is `xs` with blank elements left out and `k` blank ones put in. -/
inductive Repadded (blank : β → Bool) : Nat → List β → List β → Prop
  | nil : Repadded blank 0 [] []
  | same {k : Nat} {x : β} {xs ys : List β} (hx : blank x = false) (h : Repadded blank k xs ys) :
      Repadded blank k (x :: xs) (x :: ys)
  | leftOut {k : Nat} {x : β} {xs ys : List β} (hx : blank x = true) (h : Repadded blank k xs ys) :
      Repadded blank k (x :: xs) ys
  | putIn {k : Nat} {y : β} {xs ys : List β} (hy : blank y = true) (h : Repadded blank k xs ys) :
      Repadded blank (k + 1) xs (y :: ys)

/-- What is left of a sequence without its blank elements. -/
def dense (blank : β → Bool) (xs : List β) : List β := xs.filter (!blank ·)

section Dense

variable {blank : β → Bool} {k : Nat} {x : β} {xs ys : List β}

theorem dense_cons_of_blank (hx : blank x = true) : dense blank (x :: xs) = dense blank xs := by
  simp [dense, hx]

theorem dense_cons_of_not_blank (hx : blank x = false) :
    dense blank (x :: xs) = x :: dense blank xs := by
  simp [dense, hx]

theorem Repadded.dense_eq (h : Repadded blank k xs ys) : dense blank xs = dense blank ys := by
  induction h with
  | nil => rfl
  | same hx _ ih => rw [dense_cons_of_not_blank hx, dense_cons_of_not_blank hx, ih]
  | leftOut hx _ ih => rw [dense_cons_of_blank hx, ih]
  | putIn hy _ ih => rw [dense_cons_of_blank hy, ih]

theorem exists_repadded (h : dense blank xs = dense blank ys) : ∃ k, Repadded blank k xs ys := by
  induction xs generalizing ys with
  | nil =>
    induction ys with
    | nil => exact ⟨0, .nil⟩
    | cons y ys ih =>
      cases hy : blank y with
      | true =>
        rw [dense_cons_of_blank hy] at h
        obtain ⟨k, hk⟩ := ih h
        exact ⟨k + 1, .putIn hy hk⟩
      | false =>
        rw [dense_cons_of_not_blank hy] at h
        cases h
  | cons x xs ih =>
    cases hx : blank x with
    | true =>
      rw [dense_cons_of_blank hx] at h
      obtain ⟨k, hk⟩ := ih h
      exact ⟨k, .leftOut hx hk⟩
    | false =>
      rw [dense_cons_of_not_blank hx] at h
      -- the blanks before the partner of `x` are put in
      induction ys with
      | nil => cases h
      | cons y ys ihys =>
        cases hy : blank y with
        | true =>
          rw [dense_cons_of_blank hy] at h
          obtain ⟨k, hk⟩ := ihys h
          exact ⟨k + 1, .putIn hy hk⟩
        | false =>
          rw [dense_cons_of_not_blank hy] at h
          obtain ⟨rfl, hrest⟩ := List.cons.inj h
          obtain ⟨k, hk⟩ := ih hrest
          exact ⟨k, .same hx hk⟩

theorem flatten_dense (chunks : List (List τ)) :
    (dense List.isEmpty chunks).flatten = chunks.flatten := by
  induction chunks with
  | nil => rfl
  | cons chunk left ih =>
    cases hchunk : chunk.isEmpty with
    | true =>
      rw [dense_cons_of_blank hchunk, ih, List.flatten_cons, List.isEmpty_iff.mp hchunk,
        List.nil_append]
    | false => rw [dense_cons_of_not_blank hchunk, List.flatten_cons, List.flatten_cons, ih]

end Dense

def Reply.blank : Reply τ → Bool
  | chunk tokens => tokens.isEmpty
  | ended | handBack => false

def Delivery.blank : Delivery τ → Bool
  | chunk tokens => tokens.isEmpty
  | fault _ => false

/-! ## Runs that put up with empty chunks -/

namespace Run

/-- `r'` behaves like `r`, except perhaps where `r` is exhausted, when empty chunks that `r` was
given are left out and up to `k` others are put in. -/
inductive Lenient : Nat → Run τ ρ → Run τ ρ → Prop
  | exhausted (k : Nat) (r : Run τ ρ) : Lenient k .exhausted r
  | done (k : Nat) (a : ρ) : Lenient k (.done a) (.done a)
  | laterLeft {k : Nat} {next : Unit → Run τ ρ} {r' : Run τ ρ} (h : Lenient k (next ()) r') :
      Lenient k (.later next) r'
  | laterRight {k : Nat} {r : Run τ ρ} {next' : Unit → Run τ ρ} (h : Lenient k r (next' ())) :
      Lenient k r (.later next')
  | await {k : Nat} {input : Input τ} {onEnd onEnd' : Unit → Run τ ρ}
      {onChunk onChunk' : List τ → Run τ ρ}
      (hend : Lenient k (onEnd ()) (onEnd' ()))
      (hchunk : ∀ tokens, tokens ≠ [] → Lenient k (onChunk tokens) (onChunk' tokens))
      (hout : Lenient k (onChunk []) (.await input onEnd' onChunk'))
      (hin : ∀ j, k = j + 1 → Lenient j (.await input onEnd onChunk) (onChunk' [])) :
      Lenient k (.await input onEnd onChunk) (.await input onEnd' onChunk')

variable {k : Nat}

theorem Lenient.later {next next' : Unit → Run τ ρ} (h : Lenient k (next ()) (next' ())) :
    Lenient k (.later next) (.later next') :=
  .laterLeft (.laterRight h)

theorem Lenient.bind {r r' : Run τ ρ} {f f' : ρ → Run τ σ} (h : r.Lenient k r')
    (hf : ∀ j, j ≤ k → ∀ a, (f a).Lenient j (f' a)) : (r.bind f).Lenient k (r'.bind f') := by
  induction h with
  | exhausted k r => exact .exhausted k _
  | done k a => exact hf k (Nat.le_refl k) a
  | laterLeft _ ih => exact .laterLeft (ih hf)
  | laterRight _ ih => exact .laterRight (ih hf)
  | await _ _ _ _ ihEnd ihChunk ihOut ihIn =>
    refine .await (ihEnd hf) (fun tokens hne => ihChunk tokens hne hf) (ihOut hf) ?_
    intro j hj
    exact ihIn j hj fun i hi => hf i (by omega)

theorem Lenient.finish {r r' : Run τ ρ} (h : r.Lenient k r') {a : ρ} (ha : r.finish = some a) :
    r'.finish = some a := by
  induction h with
  | exhausted k r => cases ha
  | done k a => exact ha
  | laterLeft _ ih => exact ih ha
  | laterRight _ ih => exact ih ha
  | await _ _ _ _ ihEnd => exact ihEnd ha

end Run

/-- A request can be made again as often as its budget allows. -/
theorem lenient_request (s : Input τ) (onEnd onChunk : Input τ → ρ) {n m k : Nat}
    (hle : n + k ≤ m) :
    (request s (fun s => .done (onEnd s)) (fun s => .done (onChunk s)) n).Lenient k
      (request s (fun s => .done (onEnd s)) (fun s => .done (onChunk s)) m) := by
  -- leaving out a chunk takes from `n`, putting one in takes from `k` and from `m`
  induction n generalizing k m with
  | zero => exact .exhausted k _
  | succ n ihn =>
    induction k generalizing m with
    | zero =>
      obtain ⟨m, rfl⟩ : ∃ m', m = m' + 1 := ⟨m - 1, by omega⟩
      refine .await (.later (.done _ _)) ?_ (.laterLeft ?_) nofun
      · intro tokens hne
        rw [s.receive?_of_ne_nil hne]
        exact .later (.done _ _)
      · exact ihn (m := m + 1) (by omega)
    | succ k ihk =>
      obtain ⟨m, rfl⟩ : ∃ m', m = m' + 1 := ⟨m - 1, by omega⟩
      refine .await (.later (.done _ _)) ?_ (.laterLeft ?_) ?_
      · intro tokens hne
        rw [s.receive?_of_ne_nil hne]
        exact .later (.done _ _)
      · exact ihn (m := m + 1) (by omega)
      · intro j hj
        obtain rfl : k = j := by omega
        exact .laterRight (ihk (by omega))

namespace Parser

open Run in
theorem lenient_outcome (G : Rules Γ τ) (p : Parser Γ τ α) (s : Input τ) {n m k : Nat}
    (hle : n + k ≤ m) : (p.outcome G n s).Lenient k (p.outcome G m s) := by
  induction n generalizing α s m k with
  | zero => exact .exhausted k _
  | succ n ih =>
    obtain ⟨m, rfl⟩ : ∃ m', m = m' + 1 := ⟨m - 1, by omega⟩
    have hle' : n + k ≤ m := by omega
    cases p with
    | pure value => exact .later (.done k _)
    | fail message => exact .later (.done k _)
    | get => exact .later (.done k _)
    | put tokens => exact .later (.done k _)
    | demandInput =>
      rw [outcome_demandInput, outcome_demandInput]
      split
      · exact .later (.done k _)
      · exact lenient_request s _ _ hle'
    | wantInput =>
      rw [outcome_wantInput, outcome_wantInput]
      split
      · exact .later (.done k _)
      · split
        · exact .later (.done k _)
        · exact lenient_request s _ _ hle'
    | bind p f =>
      rw [outcome_bind, outcome_bind]
      refine (ih p s hle').bind fun j hj o => ?_
      cases o with
      | failure s e => exact .done j _
      | success s b => exact .later (ih (f b) s (by omega))
    | alt p q =>
      rw [outcome_alt, outcome_alt]
      refine (ih p _ hle').bind fun j hj o => ?_
      cases o with
      | failure s' e => exact .later (ih q _ (by omega))
      | success s' a => exact .later (.done j _)
    | lookAhead p =>
      rw [outcome_lookAhead, outcome_lookAhead]
      refine (ih p _ hle').bind fun j hj o => ?_
      cases o with
      | failure s' e => exact .later (.done j _)
      | success s' a => exact .later (.done j _)
    | label p name =>
      rw [outcome_label, outcome_label]
      refine (ih p s hle').bind fun j hj o => ?_
      cases o with
      | failure s' e => exact .later (.done j _)
      | success s' a => exact .done j _
    | loop start body =>
      rw [outcome_loop, outcome_loop]
      refine (ih (body start) s hle').bind fun j hj o => ?_
      cases o with
      | failure s' e => exact .done j _
      | success s' turn =>
        cases turn with
        | inl next => exact .later (ih (.loop next body) s' (by omega))
        | inr a => exact .later (.done j _)
    | rule i => exact .later (ih (G i) s hle')
    | total p => exact ih p s hle'

theorem lenient_start (G : Rules Γ τ) (p : Parser Γ τ α) (s : Input τ) {n m k : Nat}
    (hle : n + k ≤ m) : (p.start G n s).Lenient k (p.start G m s) := by
  rw [start_eq, start_eq]
  apply Run.Lenient.later
  exact (lenient_outcome G p s hle).bind fun j _ o => .done j _

end Parser

/-! ## Those who drive a run -/

/-- What can be seen of a settled run: its answer, or the state in which it waits. -/
def Stage.view : Stage τ ρ → Option (ρ ⊕ Input τ)
  | .done a => some (.inl a)
  | .await input _ _ => some (.inr input)
  | .exhausted => none

theorem Stage.exists_await_of_view {stage : Stage τ ρ} {input : Input τ}
    (h : stage.view = some (.inr input)) : ∃ onEnd onChunk, stage = .await input onEnd onChunk := by
  cases stage with
  | done a => cases h
  | await i onEnd onChunk =>
    cases h
    exact ⟨onEnd, onChunk, rfl⟩
  | exhausted => cases h

namespace Run

variable {k : Nat}

/-- What a run settles to with a prompt, and the replies that the prompt has left. -/
def settled (r : Run τ ρ) (prompt : Prompt τ) : Option ((ρ ⊕ Input τ) × List (Reply τ)) :=
  (r.settleWith prompt).1.view.map fun seen =>
    (seen, dense Reply.blank (r.settleWith prompt).2.replies)

theorem Lenient.settled {r r' : Run τ ρ} (h : r.Lenient k r') {replies replies' : List (Reply τ)}
    (hreplies : Repadded Reply.blank k replies replies') {afterwards : Reply τ} {asked asked' : Nat}
    {seen : (ρ ⊕ Input τ) × List (Reply τ)}
    (hr : r.settled ⟨replies, afterwards, asked⟩ = some seen) :
    r'.settled ⟨replies', afterwards, asked'⟩ = some seen := by
  induction h generalizing replies replies' asked asked' with
  | exhausted k r => cases hr
  | done k a =>
    cases hr
    simp only [Run.settled, settleWith, Stage.view, Option.map_some, hreplies.dense_eq]
  | laterLeft _ ih => exact ih hreplies hr
  | laterRight _ ih => exact ih hreplies hr
  | await _ _ _ _ ihEnd ihChunk ihOut ihIn =>
    cases hreplies with
    | nil =>
      cases afterwards with
      | chunk tokens =>
        by_cases hne : tokens = []
        · subst hne
          exact ihOut .nil hr
        · exact ihChunk tokens hne .nil hr
      | ended => exact ihEnd .nil hr
      | handBack => exact hr
    | @same _ reply replies replies' hreply hrest =>
      cases reply with
      | chunk tokens => exact ihChunk tokens (List.isEmpty_eq_false_iff.mp hreply) hrest hr
      | ended => exact ihEnd hrest hr
      | handBack =>
        cases hr
        simp only [Run.settled, settleWith, Prompt.ask, Stage.view, Option.map_some,
          hrest.dense_eq]
    | @leftOut _ reply replies _ hreply hrest =>
      cases reply with
      | chunk tokens =>
        obtain rfl := List.isEmpty_iff.mp hreply
        exact ihOut hrest hr
      | ended => cases hreply
      | handBack => cases hreply
    | @putIn j reply _ replies' hreply hrest =>
      cases reply with
      | chunk tokens =>
        obtain rfl := List.isEmpty_iff.mp hreply
        exact ihIn j rfl hrest hr
      | ended => cases hreply
      | handBack => cases hreply

theorem exists_settle_eq (stage : Stage τ ρ) : ∃ r : Run τ ρ, r.settle = stage := by
  cases stage with
  | done a => exact ⟨.done a, rfl⟩
  | await input onEnd onChunk => exact ⟨.await input onEnd onChunk, rfl⟩
  | exhausted => exact ⟨.exhausted, rfl⟩

theorem Lenient.feedAll {r r' : Parse τ α} (h : r.Lenient k r') {chunks chunks' : List (List τ)}
    (hchunks : Repadded List.isEmpty k chunks chunks') :
    ∃ fed fed' : Parse τ α, Result.feedAll chunks r.settle = fed.settle ∧
      Result.feedAll chunks' r'.settle = fed'.settle ∧ fed.Lenient 0 fed' := by
  induction h generalizing chunks chunks' with
  | exhausted k r =>
    obtain ⟨fed', hfed'⟩ := exists_settle_eq (Result.feedAll chunks' r.settle)
    exact ⟨.exhausted, fed', Result.feedAll_exhausted chunks, hfed'.symm, .exhausted 0 fed'⟩
  | done k verdict =>
    have hflatten : chunks.flatten = chunks'.flatten := by
      rw [← flatten_dense chunks, hchunks.dense_eq, flatten_dense]
    refine ⟨.done (verdict.extend chunks.flatten), .done (verdict.extend chunks.flatten),
      Result.feedAll_done verdict chunks, ?_, .done 0 _⟩
    rw [hflatten]
    exact Result.feedAll_done verdict chunks'
  | laterLeft _ ih => exact ih hchunks
  | laterRight _ ih => exact ih hchunks
  | await hend hchunk hout hin _ ihChunk ihOut ihIn =>
    cases hchunks with
    | nil => exact ⟨_, _, rfl, rfl, .await hend hchunk hout hin⟩
    | same hx hrest => exact ihChunk _ (List.isEmpty_eq_false_iff.mp hx) hrest
    | leftOut hx hrest =>
      obtain rfl := List.isEmpty_iff.mp hx
      exact ihOut hrest
    | @putIn j y _ ys hy hrest =>
      obtain rfl := List.isEmpty_iff.mp hy
      exact ihIn j rfl hrest

theorem Lenient.view_settle {r r' : Run τ ρ} (h : r.Lenient k r') {seen : ρ ⊕ Input τ}
    (hr : r.settle.view = some seen) : r'.settle.view = some seen := by
  induction h with
  | exhausted k r => cases hr
  | done k a => exact hr
  | laterLeft _ ih => exact ih hr
  | laterRight _ ih => exact ih hr
  | await _ _ _ _ => exact hr

end Run

/-- Two ways of feeding a parse from a source that differ only in empty chunks, taken or left, of
which the second has at most `k` to itself. -/
structure Drawn.Akin (k : Nat) (drawn drawn' : Drawn τ α) : Prop where
  answer_eq : drawn.answer = drawn'.answer
  received_eq : drawn.received = drawn'.received
  ended_eq : drawn.ended = drawn'.ended
  left : ∃ j, j ≤ k ∧ Repadded Delivery.blank j drawn.left drawn'.left

theorem Drawn.Akin.mono {j k : Nat} {drawn drawn' : Drawn τ α} (h : drawn.Akin j drawn')
    (hle : j ≤ k) : drawn.Akin k drawn' := by
  obtain ⟨i, hi, hleft⟩ := h.left
  exact { h with left := ⟨i, Nat.le_trans hi hle, hleft⟩ }

theorem Run.Lenient.drawFrom {r r' : Parse τ α} {k : Nat} (h : r.Lenient k r')
    {source source' : Source τ} (hsource : Repadded Delivery.blank k source source')
    {pulled pulled' received : Nat}
    (hanswer : (Result.drawFrom pulled received source r.settle).answer ≠ .ok none) :
    (Result.drawFrom pulled received source r.settle).Akin k
      (Result.drawFrom pulled' received source' r'.settle) := by
  induction h generalizing source source' pulled pulled' received with
  | exhausted k r =>
    apply absurd _ hanswer
    cases source <;> rfl
  | done k verdict =>
    have hdrawn : ∀ (pulled : Nat) (source : Source τ),
        Result.drawFrom pulled received source (.done verdict) =
          ⟨.ok (some verdict), pulled, received, false, source⟩ := by
      intro pulled source
      cases source <;> rfl
    simp only [Run.settle, hdrawn]
    exact ⟨rfl, rfl, rfl, k, Nat.le_refl k, hsource⟩
  | laterLeft _ ih => exact ih hsource hanswer
  | laterRight _ ih => exact ih hsource hanswer
  | @await k _ onEnd _ _ _ hend _ _ _ _ ihChunk ihOut ihIn =>
    cases hsource with
    | nil =>
      have hsome : (onEnd ()).finish ≠ none := by
        intro hnone
        exact hanswer (congrArg Except.ok hnone)
      obtain ⟨verdict, hverdict⟩ := Option.ne_none_iff_exists'.mp hsome
      have hsame := hverdict.trans (hend.finish hverdict).symm
      exact ⟨congrArg Except.ok hsame, rfl, rfl, 0, Nat.le_refl 0, .nil⟩
    | @same _ delivery left left' hdelivery hrest =>
      cases delivery with
      | fault message => exact ⟨rfl, rfl, rfl, k, Nat.le_refl k, hrest⟩
      | chunk tokens => exact ihChunk tokens (List.isEmpty_eq_false_iff.mp hdelivery) hrest hanswer
    | @leftOut _ delivery left _ hdelivery hrest =>
      cases delivery with
      | fault message => cases hdelivery
      | chunk tokens =>
        obtain rfl := List.isEmpty_iff.mp hdelivery
        exact ihOut hrest hanswer
    | @putIn j delivery _ left' hdelivery hrest =>
      cases delivery with
      | fault message => cases hdelivery
      | chunk tokens =>
        obtain rfl := List.isEmpty_iff.mp hdelivery
        exact (ihIn j rfl hrest hanswer).mono (Nat.le_succ j)

/-! ## Decoders -/

/-- The sources differ only in empty chunks, of which the second has at most `k` to itself. -/
structure Decoder.Akin (k : Nat) (d d' : Decoder τ) : Prop where
  buffered_eq : d.buffered = d'.buffered
  ended_eq : d.ended = d'.ended
  source : ∃ j, j ≤ k ∧ Repadded Delivery.blank j d.source d'.source

inductive Turn.Akin (k : Nat) : Turn τ α → Turn τ α → Prop
  | record (value : α) {next next' : Decoder τ} (h : next.Akin k next') :
      Akin k (.record value next) (.record value next')
  | stop : Akin k .stop .stop
  | raise (error : StreamError τ) : Akin k (.raise error) (.raise error)

/-- What a log says apart from how often the source delivered an element. -/
def Event.account (log : List (Event τ α)) : List (Event τ α) := log.filter (!·.isNext)

theorem Event.account_append (first second : List (Event τ α)) :
    account (first ++ second) = account first ++ account second :=
  List.filter_append ..

theorem Event.account_pulls (pulled : Nat) (ended : Bool) :
    account (pulls pulled ended : List (Event τ α)) = if ended then [.ended] else [] := by
  cases ended <;> simp [account, pulls, isNext]

def Event.isExhausted : Event τ α → Bool
  | exhausted => true
  | _ => false

/-- Two turns come to the same, apart from how often an element was asked for. -/
structure SameTurn (k : Nat) (t t' : List (Event τ α) × Turn τ α) : Prop where
  account_eq : Event.account t.1 = Event.account t'.1
  turn : t.2.Akin k t'.2

namespace Decoder

variable {G : Rules Γ τ} {n m k : Nat} {p : Parser Γ τ α} {d d' : Decoder τ}

theorem Akin.conclude (hd : d.Akin k d') {drawn drawn' : Drawn τ α} (h : drawn.Akin k drawn')
    (hanswer : drawn.answer ≠ .ok none) : (d.conclude drawn).Akin k (d'.conclude drawn') := by
  unfold Decoder.conclude
  rw [← h.answer_eq]
  split
  · exact .raise _
  · next hnone => exact absurd hnone hanswer
  · exact .raise _
  · rw [← h.received_eq, ← hd.buffered_eq]
    split
    · exact .raise _
    · refine .record _ ⟨rfl, ?_, h.left⟩
      rw [hd.ended_eq, h.ended_eq]

theorem Akin.parseRecord (hd : d.Akin k d') (hle : n + k ≤ m)
    (h : (d.parseRecord G n p).2 ≠ .exhausted) :
    SameTurn k (d.parseRecord G n p) (d'.parseRecord G m p) := by
  obtain ⟨j, hj, hsource⟩ := hd.source
  have hanswer : (d.drawn G n p).answer ≠ .ok none := by
    intro hnone
    rw [parseRecord_eq, Decoder.conclude, hnone] at h
    exact h rfl
  have hinput : d'.input = d.input := by
    rw [input, input, hd.buffered_eq, hd.ended_eq]
  have hdrawn : (d.drawn G n p).Akin k (d'.drawn G m p) := by
    have hlenient := Parser.lenient_start G p d.input (show n + j ≤ m by omega)
    rw [Decoder.drawn, Decoder.drawn, hinput]
    exact (hlenient.drawFrom hsource hanswer).mono hj
  rw [parseRecord_eq, parseRecord_eq]
  refine ⟨?_, hd.conclude hdrawn hanswer⟩
  rw [Event.account_pulls, Event.account_pulls, hdrawn.ended_eq]

theorem sameTurn_refill {source source' : Source τ} {j : Nat}
    (hsource : Repadded Delivery.blank j source source') (hj : j ≤ k) (hle : n + k ≤ m)
    (pulled pulled' : Nat) (h : (refill G n p pulled source).2 ≠ .exhausted) :
    SameTurn k (refill G n p pulled source) (refill G m p pulled' source') := by
  induction hsource generalizing pulled pulled' with
  | nil =>
    refine ⟨?_, .stop⟩
    rw [refill, refill, Event.account_pulls, Event.account_pulls]
  | @same j delivery left left' hdelivery hrest ih =>
    cases delivery with
    | fault message =>
      refine ⟨?_, .raise _⟩
      rw [refill, refill, Event.account_pulls, Event.account_pulls]
    | chunk tokens =>
      have hempty : ¬ tokens.isEmpty = true := Bool.eq_false_iff.mp hdelivery
      have hakin : Akin k ⟨.ofList tokens, false, left⟩ ⟨.ofList tokens, false, left'⟩ :=
        ⟨rfl, rfl, j, hj, hrest⟩
      rw [refill, if_neg hempty] at h
      have hsame := hakin.parseRecord hle h
      rw [refill, refill, if_neg hempty, if_neg hempty]
      refine ⟨?_, hsame.turn⟩
      rw [Event.account_append, Event.account_append, Event.account_pulls, Event.account_pulls,
        hsame.account_eq]
  | @leftOut j delivery left source' hdelivery hrest ih =>
    cases delivery with
    | fault message => cases hdelivery
    | chunk tokens =>
      have hempty : tokens.isEmpty = true := hdelivery
      rw [refill, if_pos hempty] at h ⊢
      exact ih hj _ _ h
  | @putIn j delivery source left' hdelivery hrest ih =>
    cases delivery with
    | fault message => cases hdelivery
    | chunk tokens =>
      have hempty : tokens.isEmpty = true := hdelivery
      have hrefill : refill G m p pulled' (.chunk tokens :: left') =
          refill G m p (pulled' + 1) left' := by
        rw [refill, if_pos hempty]
      rw [hrefill]
      exact ih (by omega) _ _ h

theorem Akin.turn (hd : d.Akin k d') (hle : n + k ≤ m) (h : (d.turn G n p).2 ≠ .exhausted) :
    SameTurn k (d.turn G n p) (d'.turn G m p) := by
  unfold Decoder.turn at h ⊢
  rw [← hd.buffered_eq, ← hd.ended_eq]
  split
  · next hbuffered =>
    rw [if_pos hbuffered] at h
    exact hd.parseRecord hle h
  · next hbuffered =>
    rw [if_neg hbuffered] at h
    split
    · exact ⟨rfl, .stop⟩
    · next hended =>
      rw [if_neg hended] at h
      obtain ⟨j, hj, hsource⟩ := hd.source
      exact sameTurn_refill hsource hj hle 0 0 h

theorem Akin.exists_turn (hd : d.Akin k d') (hle : n + k ≤ m) {happened : List (Event τ α)}
    {turn : Turn τ α} (h : d.turn G n p = (happened, turn)) (hturn : turn ≠ .exhausted) :
    ∃ happened' turn', d'.turn G m p = (happened', turn') ∧
      Event.account happened' = Event.account happened ∧ turn.Akin k turn' := by
  have hsame := hd.turn (G := G) (p := p) hle (by rwa [h])
  rw [h] at hsame
  exact ⟨(d'.turn G m p).1, (d'.turn G m p).2, rfl, hsame.account_eq.symm, hsame.turn⟩

/-- A pass that comes to something finds the same from every akin decoder. -/
theorem Pass.account_eq {closable : Bool} {limit : Option Nat} {yields : List (α × Decoder τ)}
    {log : List (Event τ α)} (hpass : Pass G n p closable limit d yields log)
    (hd : d.Akin k d') (hle : n + k ≤ m) (h : .exhausted ∉ log) :
    Event.account (d'.events G m p closable limit) = Event.account log := by
  induction hpass generalizing d' with
  | @record _ _ _ _ value _ _ hturn hlimit _ ih =>
    obtain ⟨happened', turn', hturn', hhappened, hakin⟩ := hd.exists_turn hle hturn nofun
    cases hakin with
    | record _ hnext =>
      have hrest := ih hnext fun hmem => h (by simp [hmem])
      rw [events_of_record closable hturn' hlimit, Event.account_append, Event.account_append,
        hhappened]
      exact congrArg (_ ++ .record value :: ·) hrest
  | enough hturn hlimit =>
    obtain ⟨happened', turn', hturn', hhappened, hakin⟩ := hd.exists_turn hle hturn nofun
    cases hakin with
    | record value hnext =>
      rw [events_of_enough closable hturn' hlimit, Event.account_append, Event.account_append,
        hhappened]
  | stop hturn =>
    obtain ⟨happened', turn', hturn', hhappened, hakin⟩ := hd.exists_turn hle hturn nofun
    cases hakin with
    | stop =>
      rw [events_of_stop closable _ hturn', Event.account_append, Event.account_append, hhappened]
  | raise hturn =>
    obtain ⟨happened', turn', hturn', hhappened, hakin⟩ := hd.exists_turn hle hturn nofun
    cases hakin with
    | raise error =>
      rw [events_of_raise closable _ hturn', Event.account_append, Event.account_append,
        hhappened]
  | exhausted hturn => exact absurd (List.mem_append_right _ (List.mem_singleton_self _)) h

end Decoder

/-! ## Leaving the budgets out -/

/-- The budgets with which something comes of `f` and of `g` may differ, but if something comes of
one then of both, and it is the same. -/
def Concur (f g : Nat → Option β) : Prop :=
  (∀ b, (∃ n, f n = some b) ↔ ∃ n, g n = some b) ∧
    ∀ n m b b', f n = some b → g m = some b' → b = b'

theorem concur_of_forall {f g : Nat → Option β}
    (hfg : ∃ k, ∀ n m b, n + k ≤ m → f n = some b → g m = some b)
    (hgf : ∃ k, ∀ n m b, n + k ≤ m → g n = some b → f m = some b) : Concur f g := by
  obtain ⟨k, hfg⟩ := hfg
  obtain ⟨j, hgf⟩ := hgf
  refine ⟨fun b => ⟨?_, ?_⟩, ?_⟩
  · intro ⟨n, hn⟩
    exact ⟨n + k, hfg n _ b (Nat.le_refl _) hn⟩
  · intro ⟨n, hn⟩
    exact ⟨n + j, hgf n _ b (Nat.le_refl _) hn⟩
  · intro n m b b' hn hm
    have hback := hgf m (max n (m + j)) b' (by omega) hm
    have hb := hfg n (max n (m + j) + k) b (by omega) hn
    have hb' := hfg _ (max n (m + j) + k) b' (Nat.le_refl _) hback
    exact Option.some.inj (hb.symm.trans hb')

/-- What a pass comes to, unless it is cut off. -/
def Event.account? (log : List (Event τ α)) : Option (List (Event τ α)) :=
  if log.any isExhausted then none else some (account log)

theorem Event.account?_eq_some_iff {log found : List (Event τ α)} :
    account? log = some found ↔ .exhausted ∉ account log ∧ account log = found := by
  have hmem : log.any isExhausted = true ↔ .exhausted ∈ account log := by
    rw [account, List.mem_filter, List.any_eq_true]
    constructor
    · intro ⟨e, he, hexhausted⟩
      cases e with
      | exhausted => exact ⟨he, rfl⟩
      | next | ended | record | closed | stopped | raised => cases hexhausted
    · intro ⟨he, _⟩
      exact ⟨.exhausted, he, rfl⟩
  rw [account?, ← hmem]
  split <;> simp_all

namespace Parser

variable (G : Rules Γ τ) (p : Parser Γ τ α)

theorem concur_settled (s : Input τ) {prompt prompt' : Prompt τ}
    (hreplies : dense Reply.blank prompt.replies = dense Reply.blank prompt'.replies)
    (hafterwards : prompt.afterwards = prompt'.afterwards) :
    Concur (fun n => (p.outcome G n s).settled prompt)
      (fun n => (p.outcome G n s).settled prompt') := by
  obtain ⟨replies, afterwards, asked⟩ := prompt
  obtain ⟨replies', afterwards', asked'⟩ := prompt'
  obtain rfl : afterwards = afterwards' := hafterwards
  apply concur_of_forall
  · obtain ⟨k, hk⟩ := exists_repadded hreplies
    exact ⟨k, fun n m seen hle => (lenient_outcome G p s hle).settled hk⟩
  · obtain ⟨k, hk⟩ := exists_repadded hreplies.symm
    exact ⟨k, fun n m seen hle => (lenient_outcome G p s hle).settled hk⟩

/-- Fed parses that are given the same apart from empty chunks can be continued alike. -/
theorem exists_fed (s : Input τ) {chunks chunks' : List (List τ)}
    (h : dense List.isEmpty chunks = dense List.isEmpty chunks') : ∃ k, ∀ n m, n + k ≤ m →
      (∀ seen, ((p.parseInput G n s).feedAll chunks).view = some seen →
        ((p.parseInput G m s).feedAll chunks').view = some seen) ∧
      ∀ verdict, ((p.parseInput G n s).feedAll chunks).finish = some verdict →
        ((p.parseInput G m s).feedAll chunks').finish = some verdict := by
  obtain ⟨k, hk⟩ := exists_repadded h
  refine ⟨k, fun n m hle => ?_⟩
  obtain ⟨fed, fed', hfed, hfed', hlenient⟩ := (lenient_start G p s hle).feedAll hk
  rw [parseInput, parseInput, hfed, hfed', Result.finish_settle, Result.finish_settle]
  exact ⟨fun seen => hlenient.view_settle, fun verdict => hlenient.finish⟩

theorem concur_fed (s : Input τ) {chunks chunks' : List (List τ)}
    (h : dense List.isEmpty chunks = dense List.isEmpty chunks') :
    Concur (fun n => ((p.parseInput G n s).feedAll chunks).view)
        (fun n => ((p.parseInput G n s).feedAll chunks').view) ∧
      Concur (fun n => ((p.parseInput G n s).feedAll chunks).finish)
        (fun n => ((p.parseInput G n s).feedAll chunks').finish) := by
  obtain ⟨k, hk⟩ := exists_fed G p s h
  obtain ⟨j, hj⟩ := exists_fed G p s h.symm
  constructor
  · exact concur_of_forall ⟨k, fun n m seen hle => (hk n m hle).1 seen⟩
      ⟨j, fun n m seen hle => (hj n m hle).1 seen⟩
  · exact concur_of_forall ⟨k, fun n m verdict hle => (hk n m hle).2 verdict⟩
      ⟨j, fun n m verdict hle => (hj n m hle).2 verdict⟩

theorem concur_decodeStream (closable : Bool) (limit : Option Nat) {source source' : Source τ}
    (h : dense Delivery.blank source = dense Delivery.blank source') :
    Concur (fun n => Event.account? (p.decodeStream G n closable limit source))
      (fun n => Event.account? (p.decodeStream G n closable limit source')) := by
  have honward : ∀ {source source' : Source τ},
      dense Delivery.blank source = dense Delivery.blank source' → ∃ k, ∀ n m found, n + k ≤ m →
        Event.account? (p.decodeStream G n closable limit source) = some found →
        Event.account? (p.decodeStream G m closable limit source') = some found := by
    intro source source' h
    obtain ⟨k, hk⟩ := exists_repadded h
    refine ⟨k, fun n m found hle hfound => ?_⟩
    have hakin : (Decoder.ofSource source).Akin k (.ofSource source') :=
      ⟨rfl, rfl, k, Nat.le_refl k, hk⟩
    obtain ⟨hwhole, haccount⟩ := Event.account?_eq_some_iff.mp hfound
    have hsame := (Decoder.pass G n p closable limit (.ofSource source)).account_eq hakin hle
      fun hmem => hwhole (List.mem_filter.mpr ⟨hmem, rfl⟩)
    apply Event.account?_eq_some_iff.mpr
    rw [show Event.account (p.decodeStream G m closable limit source') = _ from hsame]
    exact ⟨hwhole, haccount⟩
  exact concur_of_forall (honward h) (honward h.symm)

/-- **Empty chunks cannot be seen.** Let empty chunks be put in or left out anywhere. A run in any
state that is answered by a prompt comes to the same outcome or suspends in the same state, with the
same replies left. A suspended parse that is fed an empty chunk is suspended in the same state, and
shows the same and comes to the same verdict whatever it is fed after that. A stream of records has
the same records and the same end or error. -/
theorem empty_chunks_invisible (G : Rules Γ τ) (p : Parser Γ τ α) :
    (∀ (s : Input τ) (prompt prompt' : Prompt τ),
      dense Reply.blank prompt.replies = dense Reply.blank prompt'.replies →
      prompt.afterwards = prompt'.afterwards →
      Concur (fun n => (p.outcome G n s).settled prompt)
        (fun n => (p.outcome G n s).settled prompt')) ∧
    (∀ s before n input onEnd onChunk,
      (p.parseInput G n s).feedAll before = .await input onEnd onChunk →
      (∃ least, ∀ m, least ≤ m → ∃ onEnd' onChunk',
        ((p.parseInput G m s).feedAll before).feed [] = .await input onEnd' onChunk') ∧
      ∀ after,
        Concur (fun m => ((((p.parseInput G m s).feedAll before).feed []).feedAll after).view)
          (fun m => (((p.parseInput G m s).feedAll before).feedAll after).view) ∧
        Concur (fun m => ((((p.parseInput G m s).feedAll before).feed []).feedAll after).finish)
          (fun m => (((p.parseInput G m s).feedAll before).feedAll after).finish)) ∧
    ∀ closable limit source source',
      dense Delivery.blank source = dense Delivery.blank source' →
      Concur (fun n => Event.account? (p.decodeStream G n closable limit source))
        (fun n => Event.account? (p.decodeStream G n closable limit source')) := by
  refine ⟨?_, ?_, ?_⟩
  · intro s prompt prompt' hreplies hafterwards
    exact concur_settled G p s hreplies hafterwards
  · intro s before n input onEnd onChunk hsuspended
    have hfeedAll : ∀ (r : Result τ α) (after : List (List τ)),
        ((r.feedAll before).feed []).feedAll after = r.feedAll (before ++ [] :: after) ∧
          (r.feedAll before).feedAll after = r.feedAll (before ++ after) := by
      intro r after
      simp only [Result.feedAll, List.foldl_append, List.foldl_cons, and_self]
    have hblank : ∀ after : List (List τ),
        dense List.isEmpty (before ++ after) = dense List.isEmpty (before ++ [] :: after) := by
      intro after
      simp [dense]
    constructor
    · obtain ⟨k, hk⟩ := exists_fed G p s (hblank [])
      refine ⟨n + k, fun m hle => ?_⟩
      have hview := (hk n m hle).1 (.inr input) (by
        rw [List.append_nil, hsuspended]
        rfl)
      rw [← (hfeedAll _ []).1] at hview
      exact Stage.exists_await_of_view hview
    · intro after
      simp only [(hfeedAll _ after).1, (hfeedAll _ after).2]
      exact concur_fed G p s (hblank after).symm
  · intro closable limit source source' h
    exact concur_decodeStream G p closable limit h

/-- A token, and what has arrived behind it once more was asked for. -/
def glimpse : Parser Empty.elim Nat (Nat × List Nat) :=
  anyToken.bind fun t => (option () demandInput).bind fun _ => get.bind fun rest =>
    pure (t, rest.toList)

theorem decodeStream_glimpse :
    glimpse.decodeStream nofun 20 true none [.chunk [1], .chunk [2], .fault "lost"] =
      [.next, .next, .record (1, [2]), .next, .closed, .raised (.fault "lost")] := by
  have hfirst : (Decoder.ofSource [.chunk [1], .chunk [2], .fault "lost"]).turn nofun 20 glimpse =
      ([.next, .next], .record (1, [2]) ⟨.ofList [2], false, [.fault "lost"]⟩) := rfl
  have hsecond : (⟨.ofList [2], false, [.fault "lost"]⟩ : Decoder Nat).turn nofun 20 glimpse =
      ([.next], .raise (.fault "lost")) := rfl
  refine (Decoder.events_of_record true hfirst rfl).trans ?_
  rw [Decoder.events_of_raise true _ hsecond]
  rfl

/-- The empty chunks come where a token is asked for, where more is asked for in an alternative, and
where a parse is suspended. -/
theorem empty_chunks_invisible_glimpse :
    (dense Reply.blank [.chunk [1], .chunk [2], .handBack] =
        dense Reply.blank [.chunk [], .chunk [1], .chunk [], .chunk [], .chunk [2], .handBack] ∧
      ∃ n, (glimpse.outcome nofun n ⟨.empty, false, some .empty⟩).settled
          ⟨[.chunk [], .chunk [1], .chunk [], .chunk [], .chunk [2], .handBack], .ended, 0⟩ =
        some (.inl (.success ⟨.ofList [2], false, some (.ofList [1] ++ .ofList [2])⟩ (1, [2])),
          [.handBack])) ∧
    (∃ onEnd onChunk, (glimpse.parseInput nofun 20 (.ofList [] false)).feedAll [[1]] =
        .await ⟨.empty, false, some .empty⟩ onEnd onChunk ∧
      ∃ n, ((((glimpse.parseInput nofun n (.ofList [] false)).feedAll [[1]]).feed []).feedAll
        [[], [2, 3]]).view = some (.inl (.accepted (1, [2, 3]) (.ofList [2, 3])))) ∧
    ∃ n, Event.account? (glimpse.decodeStream nofun n true none
        [.chunk [], .chunk [1], .chunk [], .chunk [2], .fault "lost"]) =
      some [.record (1, [2]), .closed, .raised (.fault "lost")] := by
  obtain ⟨hprompt, hfed, hdecode⟩ := empty_chunks_invisible nofun glimpse
  have hreplies : dense Reply.blank [.chunk [1], .chunk [2], .handBack] = dense Reply.blank
      [.chunk [], .chunk [1], .chunk [], .chunk [], .chunk [2], (.handBack : Reply Nat)] := rfl
  have hsettled : (glimpse.outcome nofun 20 ⟨.empty, false, some .empty⟩).settled
      ⟨[.chunk [1], .chunk [2], .handBack], .ended, 0⟩ =
        some (.inl (.success ⟨.ofList [2], false, some (.ofList [1] ++ .ofList [2])⟩ (1, [2])),
          [.handBack]) := rfl
  obtain ⟨onEnd, onChunk, hsuspended⟩ : ∃ onEnd onChunk,
      (glimpse.parseInput nofun 20 (.ofList [] false)).feedAll [[1]] =
        .await ⟨.empty, false, some .empty⟩ onEnd onChunk := ⟨_, _, rfl⟩
  have hview : (((glimpse.parseInput nofun 20 (.ofList [] false)).feedAll [[1]]).feedAll
      [[], [2, 3]]).view = some (.inl (.accepted (1, [2, 3]) (.ofList [2, 3]))) := rfl
  have hfound : Event.account? (glimpse.decodeStream nofun 20 true none
      [.chunk [1], .chunk [2], .fault "lost"]) =
        some [.record (1, [2]), .closed, .raised (.fault "lost")] := by
    rw [decodeStream_glimpse]
    rfl
  have hsource : dense Delivery.blank [.chunk [1], .chunk [2], .fault "lost"] =
      dense Delivery.blank [.chunk [], .chunk [1], .chunk [], .chunk [2],
        (.fault "lost" : Delivery Nat)] := rfl
  refine ⟨⟨hreplies, ?_⟩, ⟨onEnd, onChunk, hsuspended, ?_⟩, ?_⟩
  · exact ((hprompt _ ⟨_, .ended, 0⟩ ⟨_, .ended, 0⟩ hreplies rfl).1 _).mp ⟨20, hsettled⟩
  · exact (((hfed _ _ _ _ _ _ hsuspended).2 [[], [2, 3]]).1.1 _).mpr ⟨20, hview⟩
  · exact ((hdecode true none _ _ hsource).1 _).mp ⟨20, hfound⟩

end Parser

end Piecemeal
