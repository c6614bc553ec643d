import Piecemeal.Proofs.Decoding
import Piecemeal.Proofs.Passes
import Piecemeal.Proofs.Termination

/-!
# Progress of a decoder

A record must leave less than the parser was supplied with, whatever the parser did to its input. So
between two records the tokens that a decoder has left over and those that it has not pulled yet
become fewer (`Pass.unread_decreases`), and there are at most as many records as tokens. The decoder
at a record has pulled what the log up to there says (`Pass.log_at_yield`).

Where every parse settles, a pass is over after at most one event for each element and each token of
its source, and three more (`decoding_progresses`).
-/

namespace Piecemeal

variable {ι : Type} {Γ : ι → Type} {τ α : Type}

/-- A strictly decreasing list of numbers is no longer than its first number. -/
theorem length_le_of_decreasing {n : Nat} {ns : List Nat} (h : (n :: ns).Pairwise (· > ·)) :
    ns.length ≤ n := by
  induction ns generalizing n with
  | nil => exact Nat.zero_le n
  | cons m ns ih =>
    have hless : n > m := List.rel_of_pairwise_cons h List.mem_cons_self
    have hrest := ih (List.Pairwise.of_cons h)
    rw [List.length_cons]
    omega

theorem Event.length_pulls (pulled : Nat) (ended : Bool) :
    (Event.pulls pulled ended : List (Event τ α)).length = pulled + ended.toNat := by
  cases ended <;> simp [pulls]

theorem Asks.exists_pulls {ended : Bool} {source : Source τ} {happened : List (Event τ α)}
    {turn : Turn τ α} (h : Asks ended source (happened, turn)) :
    ∃ pulled now, happened = Event.pulls pulled now ∧ pulled ≤ source.length ∧
      now.toNat ≤ (!ended).toNat := by
  cases h with
  | taken chunks left now hsource hnow hended hturn =>
    refine ⟨chunks.length, now, rfl, ?_, ?_⟩
    · simp [hsource]
    · cases now with
      | false => exact Nat.zero_le _
      | true => simp [(hnow rfl).2]
  | fault chunks message rest hsource hopen =>
    refine ⟨chunks.length + 1, false, rfl, ?_, Nat.zero_le _⟩
    simp [hsource]

/-- The decoder behind a record has pulled what happened before the record. -/
theorem Asks.of_record {ended : Bool} {source : Source τ} {happened : List (Event τ α)} {value : α}
    {next : Decoder τ} (h : Asks ended source (happened, .record value next)) :
    ∃ pulled now, happened = Event.pulls pulled now ∧ next.source = source.drop pulled ∧
      pulled ≤ source.length ∧ now.toNat + (!next.ended).toNat ≤ (!ended).toNat := by
  cases h with
  | taken chunks left now hsource hnow hended hturn =>
    obtain ⟨hnext, hleft⟩ := hturn
    refine ⟨chunks.length, now, rfl, ?_, ?_, ?_⟩
    · rw [hleft, hsource, List.drop_left' (List.length_map _)]
    · simp [hsource]
    · rw [hnext]
      cases now with
      | false => simp
      | true => simp [(hnow rfl).2]

namespace Decoder.Pass

variable {G : Rules Γ τ} {budget : Nat} {p : Parser Γ τ α} {closable : Bool} {limit : Option Nat}
  {d : Decoder τ} {yields : List (α × Decoder τ)} {log : List (Event τ α)}

theorem filterMap_value?_turn {d : Decoder τ} {happened : List (Event τ α)} {turn : Turn τ α}
    (h : d.turn G budget p = (happened, turn)) : happened.filterMap Event.value? = [] := by
  obtain ⟨pulled, now, rfl, -, -⟩ := (h ▸ d.asks_turn G budget p).exists_pulls
  exact Event.filterMap_value?_pulls pulled now

theorem filterMap_value?_farewell (closable : Bool) {last : Event τ α} (h : last.value? = none) :
    (farewell closable last).filterMap Event.value? = [] := by
  cases closable with
  | false => exact List.filterMap_cons_none h
  | true => exact (List.filterMap_cons_none rfl).trans (List.filterMap_cons_none h)

theorem values_eq (h : Pass G budget p closable limit d yields log) :
    log.filterMap Event.value? = yields.map Prod.fst := by
  induction h with
  | record hturn hlimit rest ih =>
    rw [List.filterMap_append, filterMap_value?_turn hturn, List.map_cons, ← ih]
    rfl
  | @enough limit d next happened value hturn hlimit =>
    rw [List.filterMap_append, filterMap_value?_turn hturn]
    exact congrArg (value :: ·) (filterMap_value?_farewell closable rfl)
  | stop hturn =>
    rw [List.filterMap_append, filterMap_value?_turn hturn]
    exact filterMap_value?_farewell closable rfl
  | raise hturn =>
    rw [List.filterMap_append, filterMap_value?_turn hturn]
    exact filterMap_value?_farewell closable rfl
  | exhausted hturn =>
    rw [List.filterMap_append, filterMap_value?_turn hturn]
    rfl

/-- At each record less is left to read than at the one before, and than at the start. -/
theorem unread_decreases (h : Pass G budget p closable limit d yields log) :
    (d.unread :: yields.map (·.2.unread)).Pairwise (· > ·) := by
  induction h with
  | record hturn hlimit rest ih =>
    have hless := unread_lt hturn
    refine List.pairwise_cons.mpr ⟨?_, ih⟩
    intro unread hmem
    rcases List.mem_cons.mp hmem with rfl | hmem
    · exact hless
    · exact Nat.lt_trans (List.rel_of_pairwise_cons ih hmem) hless
  | enough hturn hlimit =>
    have hless := unread_lt hturn
    simpa using hless
  | stop hturn => exact List.pairwise_singleton _ _
  | raise hturn => exact List.pairwise_singleton _ _
  | exhausted hturn => exact List.pairwise_singleton _ _

/-- The decoder at a record has in its source what was not pulled before. -/
theorem log_at_yield (h : Pass G budget p closable limit d yields log) {i : Nat} {value : α}
    {behind : Decoder τ} (hi : yields[i]? = some (value, behind)) : ∃ before after,
      log = before ++ .record value :: after ∧ (before.filterMap Event.value?).length = i ∧
      behind.source = d.source.drop (before.countP Event.isNext) := by
  induction h generalizing i with
  | @record limit d next happened value' yields log hturn hlimit rest ih =>
    obtain ⟨pulled, now, hpulls, hsource, -, -⟩ := (hturn ▸ d.asks_turn G budget p).of_record
    have hvalues := filterMap_value?_turn hturn
    cases i with
    | zero =>
      cases hi
      refine ⟨happened, log, rfl, by rw [hvalues]; rfl, ?_⟩
      rw [hsource, hpulls, Event.countP_isNext_pulls]
    | succ i =>
      obtain ⟨before, after, hlog, hcount, hat⟩ := ih hi
      refine ⟨happened ++ .record value' :: before, after, ?_, ?_, ?_⟩
      · rw [hlog]
        simp
      · rw [List.filterMap_append, hvalues]
        simpa [Event.value?] using hcount
      · rw [hat, hsource, List.drop_drop, List.countP_append, hpulls, Event.countP_isNext_pulls,
          List.countP_cons_of_neg Bool.false_ne_true]
  | @enough limit d next happened value' hturn hlimit =>
    obtain ⟨pulled, now, hpulls, hsource, -, -⟩ := (hturn ▸ d.asks_turn G budget p).of_record
    have hvalues := filterMap_value?_turn hturn
    cases i with
    | zero =>
      cases hi
      refine ⟨happened, _, rfl, by rw [hvalues]; rfl, ?_⟩
      rw [hsource, hpulls, Event.countP_isNext_pulls]
    | succ i => cases hi
  | stop hturn => cases hi
  | raise hturn => cases hi
  | exhausted hturn => cases hi

theorem length_farewell_le (closable : Bool) (last : Event τ α) :
    (farewell closable last).length ≤ 2 := by
  cases closable <;> simp [farewell]

/-- There is one event for each element pulled, one for each record, perhaps one for the end of the
source, and at most two to end the pass. -/
theorem length_le (h : Pass G budget p closable limit d yields log) :
    log.length ≤ d.source.length + d.unread + (!d.ended).toNat + 2 := by
  induction h with
  | @record limit d next happened value yields log hturn hlimit rest ih =>
    obtain ⟨pulled, now, rfl, hsource, hpulled, hended⟩ :=
      (hturn ▸ d.asks_turn G budget p).of_record
    have hless := unread_lt hturn
    rw [hsource, List.length_drop] at ih
    rw [List.length_append, List.length_cons, Event.length_pulls]
    omega
  | @enough limit d next happened value hturn hlimit =>
    obtain ⟨pulled, now, rfl, hpulled, hended⟩ := (hturn ▸ d.asks_turn G budget p).exists_pulls
    have hless := unread_lt hturn
    have hlast := length_farewell_le closable (.stopped : Event τ α)
    rw [List.length_append, List.length_cons, Event.length_pulls]
    omega
  | @stop limit d happened hturn =>
    obtain ⟨pulled, now, rfl, hpulled, hended⟩ := (hturn ▸ d.asks_turn G budget p).exists_pulls
    have hlast := length_farewell_le closable (.stopped : Event τ α)
    rw [List.length_append, Event.length_pulls]
    omega
  | @raise limit d happened error hturn =>
    obtain ⟨pulled, now, rfl, hpulled, hended⟩ := (hturn ▸ d.asks_turn G budget p).exists_pulls
    have hlast := length_farewell_le closable (.raised error : Event τ α)
    rw [List.length_append, Event.length_pulls]
    omega
  | @exhausted limit d happened hturn =>
    obtain ⟨pulled, now, rfl, hpulled, hended⟩ := (hturn ▸ d.asks_turn G budget p).exists_pulls
    rw [List.length_append, Event.length_pulls, List.length_singleton]
    omega

end Decoder.Pass

namespace Parser

/-- Where every run comes to an outcome, every parse settles. -/
theorem conclusive_of_halts {G : Rules Γ τ} {p : Parser Γ τ α}
    (h : ∀ s chunks, s.Sound true chunks → ∃ o left, p.Halts true G s chunks (.done o left)) :
    Conclusive G p := by
  intro tokens closed chunks
  have hhalts : ∃ o left, p.Halts true G (.ofList tokens closed) chunks (.done o left) := by
    cases closed with
    | false => exact h _ chunks nofun
    | true =>
      obtain ⟨o, left, hend⟩ := h (.ofList tokens true) [] fun _ => ⟨rfl, rfl⟩
      exact ⟨o, chunks, (halts_of_closed rfl hend chunks).2⟩
  obtain ⟨o, left, hhalts⟩ := hhalts
  obtain ⟨least, taken, -, hpush⟩ := exists_push_of_halts hhalts
  refine ⟨least, ?_⟩
  rw [hpush least (Nat.le_refl least)]
  nofun

/-- **Decoding makes progress.** Let every parse of records settle; the parser may replace its
input. A pass over a source of finitely many elements is over after finitely many events, with every
large enough budget after the same ones, and ends normally or with an error. It hands over at most
as many records as the source has tokens: at each of them, the tokens left over and those not pulled
yet are fewer than at the one before, and than at the start. -/
theorem decoding_progresses {G : Rules Γ τ} {p : Parser Γ τ α} (hp : Conclusive G p)
    (closable : Bool) (limit : Option Nat) (source : Source τ) :
    (∃ log least,
      (∀ budget, least ≤ budget → p.decodeStream G budget closable limit source = log) ∧
      log.length ≤ source.length + source.size + 3 ∧ .exhausted ∉ log ∧
      ∃ last, log.getLast? = some last ∧ (last = .stopped ∨ ∃ error, last = .raised error)) ∧
    ∀ budget,
      (p.decodeStream G budget closable limit source).filterMap Event.value? =
        ((Decoder.ofSource source).yields G budget p limit).map Prod.fst ∧
      ((p.decodeStream G budget closable limit source).filterMap Event.value?).length ≤
        source.size ∧
      (source.size :: ((Decoder.ofSource source).yields G budget p limit).map
        (·.2.unread)).Pairwise (· > ·) ∧
      ∀ i value behind,
        ((Decoder.ofSource source).yields G budget p limit)[i]? = some (value, behind) →
        ∃ before after,
          p.decodeStream G budget closable limit source = before ++ .record value :: after ∧
          (before.filterMap Event.value?).length = i ∧
          behind.unread = behind.buffered.size +
            Source.size (source.drop (before.countP Event.isNext)) := by
  have hstart : (Decoder.ofSource source).unread = source.size := by
    rw [Decoder.unread, Decoder.ofSource, Buffer.size_eq, Buffer.toList_empty]
    exact Nat.zero_add _
  constructor
  · obtain ⟨least, work, last, hwork, hlast, hevents⟩ :=
      hp.exists_events closable limit (.ofSource source)
    refine ⟨work ++ Decoder.farewell closable last, least, hevents, ?_, hwork, last, ?_, hlast⟩
    · have hpass := (Decoder.ofSource source).pass G least p closable limit
      rw [hevents least (Nat.le_refl least)] at hpass
      have hlength := hpass.length_le
      rw [hstart] at hlength
      exact hlength
    · cases closable <;> simp [Decoder.farewell]
  · intro budget
    have hpass := (Decoder.ofSource source).pass G budget p closable limit
    have hvalues := hpass.values_eq
    have hdecreases := hpass.unread_decreases
    rw [hstart] at hdecreases
    have hcount := length_le_of_decreasing hdecreases
    refine ⟨hvalues, ?_, hdecreases, ?_⟩
    · change (List.filterMap Event.value? (Decoder.events _ _ _ _ _ _)).length ≤ _
      rw [hvalues, List.length_map]
      rwa [List.length_map] at hcount
    · intro i value behind hi
      obtain ⟨before, after, hlog, hindex, hsource⟩ := hpass.log_at_yield hi
      refine ⟨before, after, hlog, hindex, ?_⟩
      rw [Decoder.unread, hsource]
      rfl

/-- A number, after which its multiples are struck from what has arrived. -/
def sieve : Parser Empty.elim Nat Nat :=
  anyToken.bind fun n => get.bind fun rest =>
    (put (.ofList (rest.toList.filter (· % n ≠ 0)))).bind fun _ => pure n

theorem conclusive_sieve : Conclusive nofun sieve := by
  apply conclusive_of_halts
  intro s chunks hs
  obtain ⟨o, left, hhalts, -⟩ := settles_token (views_satisfy fun _ => true) s chunks hs
  cases o with
  | failure s' e => exact ⟨_, left, halts_bind_failure _ hhalts⟩
  | success s' n =>
    exact ⟨_, left, halts_bind hhalts (halts_bind halts_get (halts_bind (halts_put _)
      (halts_pure n)))⟩

/-- What the records of this source leave to read. -/
theorem yields_sieve : ((Decoder.ofSource [.chunk [2, 4, 3], .chunk [], .chunk [3, 9]]).yields
    nofun 12 sieve none).map (fun y => (y.1, y.2.unread)) = [(2, 3), (3, 2), (3, 0)] := by
  have hfirst : (Decoder.ofSource [.chunk [2, 4, 3], .chunk [], .chunk [3, 9]]).turn nofun 12
      sieve = ([.next], .record 2 ⟨.ofList [3], false, [.chunk [], .chunk [3, 9]]⟩) := rfl
  have hsecond : (⟨.ofList [3], false, [.chunk [], .chunk [3, 9]]⟩ : Decoder Nat).turn nofun 12
      sieve = ([], .record 3 ⟨.empty, false, [.chunk [], .chunk [3, 9]]⟩) := rfl
  have hthird : (⟨.empty, false, [.chunk [], .chunk [3, 9]]⟩ : Decoder Nat).turn nofun 12
      sieve = ([.next, .next], .record 3 ⟨.empty, false, []⟩) := rfl
  have hlast : (⟨.empty, false, []⟩ : Decoder Nat).turn nofun 12 sieve = ([.ended], .stop) := rfl
  rw [Decoder.yields_of_record hfirst rfl, Decoder.yields_of_record hsecond rfl,
    Decoder.yields_of_record hthird rfl, Decoder.yields_of_not_record hlast nofun]
  rfl

/-- Two of the five tokens are struck, so that there are fewer records than tokens. -/
theorem decoding_progresses_sieve : Conclusive nofun sieve ∧
    (∃ log least, (∀ budget, least ≤ budget → sieve.decodeStream nofun budget true none
        [.chunk [2, 4, 3], .chunk [], .chunk [3, 9]] = log) ∧ .exhausted ∉ log) ∧
    (sieve.decodeStream nofun 12 true none
      [.chunk [2, 4, 3], .chunk [], .chunk [3, 9]]).filterMap Event.value? = [2, 3, 3] ∧
    [5, 3, 2, 0].Pairwise (· > ·) := by
  obtain ⟨⟨log, least, hlog, -, hquiet, -⟩, hprogress⟩ := decoding_progresses conclusive_sieve true
    none [.chunk [2, 4, 3], .chunk [], .chunk [3, 9]]
  obtain ⟨hvalues, -, hdecreases, -⟩ := hprogress 12
  have hyields := yields_sieve
  refine ⟨conclusive_sieve, ⟨log, least, hlog, hquiet⟩, ?_, ?_⟩
  · have hfirst := congrArg (List.map Prod.fst) hyields
    rw [List.map_map] at hfirst
    exact hvalues.trans hfirst
  · have hunread := congrArg (List.map Prod.snd) hyields
    rw [List.map_map] at hunread
    have h := hdecreases
    rw [show List.map (fun y : Nat × Decoder Nat => y.2.unread) _ = [3, 2, 0] from hunread] at h
    exact h

end Parser

end Piecemeal
