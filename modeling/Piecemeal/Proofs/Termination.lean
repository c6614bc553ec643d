import Piecemeal.Proofs.Delivery
import Piecemeal.Proofs.Guarded
import Piecemeal.Proofs.Turns
import Piecemeal.Proofs.Views

/-!
# Loops that end

A loop over a productive parser has fewer and fewer tokens ahead, counting those that have not
arrived: an attempt that fails gives its tokens back, but then the loop is over. This is what
`Settles` keeps track of. It says that a parser comes to an outcome, and how many tokens a success
has cost, depending on its value, so that the turn with which a loop stops may be free. There is one
rule for each way to build a parser, and so a guarded parser settles (`Guarded.settles`), in
whatever state it is started and however a stream is delivered to it (`guarded_terminates`).
-/

namespace Piecemeal

variable {ι : Type} {Γ : ι → Type} {τ α β σ : Type}

namespace Parser

/-! ## Outcomes and what they cost -/

/-- Along any chunks and then the end, the parser comes to an outcome, and a success with the value
`a` has consumed at least `cost a` of the tokens ahead. -/
def Settles (G : Rules Γ τ) (cost : α → Nat) (p : Parser Γ τ α) : Prop :=
  ∀ s chunks, s.Sound true chunks → ∃ o left, p.Halts true G s chunks (.done o left) ∧
    ∀ s' a, o = .success s' a → (s'.ahead left).length + cost a ≤ (s.ahead chunks).length

section Rules

variable {G : Rules Γ τ} {cost : α → Nat}

/-- A view of the stream settles, since nothing is waited for after the end. -/
theorem Views.settles {p : Parser Γ τ α} {view : List τ → Showing τ α} (hp : Views true G p view)
    (hview : ∀ tokens a rest, view tokens = .accepted a rest →
      rest.length + cost a ≤ tokens.length) : Settles G cost p := by
  intro s chunks hs
  obtain ⟨halt, hhalt, hshown⟩ := hp s chunks hs
  cases halt with
  | waiting input =>
    obtain ⟨least, h⟩ := hhalt
    exact absurd (h least (Nat.le_refl least)) (Run.along_ne_waiting _ _ _)
  | done o left =>
    refine ⟨o, left, hhalt, ?_⟩
    intro s' a ho
    subst ho
    exact hview _ a _ hshown.symm

theorem Settles.mono {cost' : α → Nat} {p : Parser Γ τ α} (hp : Settles G cost' p)
    (h : ∀ a, cost a ≤ cost' a) : Settles G cost p := by
  intro s chunks hs
  obtain ⟨o, left, hhalts, hcost⟩ := hp s chunks hs
  refine ⟨o, left, hhalts, ?_⟩
  intro s' a ho
  have hle := hcost s' a ho
  have hless := h a
  omega

theorem settles_pure {a : α} (h : cost a = 0) : Settles G cost (pure a) := by
  intro s chunks _
  refine ⟨_, _, halts_pure a, ?_⟩
  intro s' a' ho
  cases ho
  omega

theorem settles_fail (message : String) : Settles G cost (fail message) := by
  intro s chunks _
  exact ⟨_, _, halts_fail message, nofun⟩

theorem settles_get : Settles G (fun _ => 0) get := by
  intro s chunks _
  refine ⟨_, _, halts_get, ?_⟩
  intro s' a' ho
  cases ho
  exact Nat.le_refl _

/-- A parser that fills the input and decides on what remains then. -/
theorem settles_of_fill {p : Parser Γ τ α} {enough : Input τ → List τ → Bool}
    {o : Input τ → Input τ → Outcome τ α}
    (hp : ∀ s chunks, p.Halts true G s chunks ((s.fill (enough s) true chunks).map (o s)))
    (ho : ∀ s s' left s'' a, o s s' = .success s'' a →
      (s''.ahead left).length + cost a ≤ (s'.ahead left).length) : Settles G cost p := by
  intro s chunks _
  have hhalts := hp s chunks
  cases hfill : s.fill (enough s) true chunks with
  | waiting s' => cases (Input.of_fill_waiting hfill).2.1
  | done s' left =>
    rw [hfill] at hhalts
    refine ⟨_, left, hhalts, ?_⟩
    rw [← (Input.filled_of_fill hfill).ahead_eq]
    exact ho s s' left

theorem settles_demandInput : Settles G (fun _ => 0) demandInput := by
  refine settles_of_fill (halts_demandInput true G) ?_
  intro s s' left s'' a h
  split at h
  · cases h
    exact Nat.le_refl _
  · cases h

theorem settles_ensure (n : Int) : Settles G (fun _ => 0) (ensure n) := by
  refine settles_of_fill (fun s chunks => halts_ensure true G s chunks n) ?_
  intro s s' left s'' a h
  split at h
  · cases h
    exact Nat.le_refl _
  · cases h

theorem Settles.bind {c : β → Nat} {d : β → α → Nat} {p : Parser Γ τ β}
    {f : β → Parser Γ τ α} (hp : Settles G c p) (hf : ∀ x, Settles G (d x) (f x))
    (hcost : ∀ x a, cost a ≤ c x + d x a) : Settles G cost (p.bind f) := by
  intro s chunks hs
  obtain ⟨o, left, hhalts, hspent⟩ := hp s chunks hs
  cases o with
  | failure s' e => exact ⟨_, left, halts_bind_failure f hhalts, nofun⟩
  | success s' x =>
    obtain ⟨o', left', hhalts', hspent'⟩ := hf x s' left (sound_of_halts hs hhalts)
    refine ⟨o', left', halts_bind hhalts hhalts', ?_⟩
    intro s'' a ho
    have hfirst := hspent s' x rfl
    have hsecond := hspent' s'' a ho
    have htotal := hcost x a
    omega

theorem Settles.map {c : β → Nat} {p : Parser Γ τ β} (hp : Settles G c p) (f : β → α)
    (hcost : ∀ x, cost (f x) ≤ c x) : Settles G cost (p.map f) := by
  refine Settles.bind (d := fun x a => cost a - cost (f x)) hp ?_ ?_
  · intro x
    exact settles_pure (Nat.sub_self _)
  · intro x a
    have hx := hcost x
    omega

theorem Settles.alt {p q : Parser Γ τ α} (hp : Settles G cost p) (hq : Settles G cost q) :
    Settles G cost (p.alt q) := by
  intro s chunks hs
  obtain ⟨o, left, hhalts, hspent⟩ := hp s.checkpoint chunks hs
  cases o with
  | success s' a =>
    refine ⟨_, left, halts_alt hhalts, ?_⟩
    intro s'' a' ho
    cases ho
    exact hspent s' a rfl
  | failure s' e =>
    -- the second alternative has the same tokens ahead as the first had
    obtain ⟨hsound, hahead⟩ := rewind_of_halts hs hhalts
    obtain ⟨o', left', hhalts', hspent'⟩ := hq (s.rewind s') left hsound
    refine ⟨o', left', halts_alt_failure hhalts hhalts', ?_⟩
    intro s'' a ho
    have hle := hspent' s'' a ho
    change _ ≤ ((s.rewind s').ahead left).length at hle
    rwa [show (s.rewind s').ahead left = s.ahead chunks from hahead] at hle

theorem Settles.lookAhead {p : Parser Γ τ α} (hp : Settles G cost p) :
    Settles G (fun _ => 0) p.lookAhead := by
  intro s chunks hs
  obtain ⟨o, left, hhalts, -⟩ := hp s.checkpoint chunks hs
  obtain ⟨-, hahead⟩ := rewind_of_halts hs hhalts
  cases o with
  | success s' a =>
    refine ⟨_, left, halts_lookAhead hhalts, ?_⟩
    intro s'' a' ho
    cases ho
    exact Nat.le_of_eq (congrArg List.length hahead)
  | failure s' e => exact ⟨_, left, halts_lookAhead_failure hhalts, nofun⟩

theorem Settles.label {p : Parser Γ τ α} (hp : Settles G cost p) (name : String) :
    Settles G cost (p.label name) := by
  intro s chunks hs
  obtain ⟨o, left, hhalts, hspent⟩ := hp s chunks hs
  cases o with
  | success s' a => exact ⟨_, left, halts_label name hhalts, hspent⟩
  | failure s' e => exact ⟨_, left, halts_label_failure name hhalts, nofun⟩

theorem Settles.total {p : Parser Γ τ α} (hp : Settles G cost p) : Settles G cost p.total := by
  intro s chunks hs
  obtain ⟨o, left, hhalts, hspent⟩ := hp s chunks hs
  exact ⟨o, left, halts_total hhalts, hspent⟩

/-! ## Loops -/

/-- A turn after which a loop goes on costs a token; the one that ends it may be free. -/
def turnCost : σ ⊕ α → Nat
  | .inl _ => 1
  | .inr _ => 0

theorem settles_loop {body : σ → Parser Γ τ (σ ⊕ α)}
    (hbody : ∀ state, Settles G turnCost (body state)) (start : σ) :
    Settles G (fun _ => 0) (loop start body) := by
  intro s chunks hs
  -- each turn but the last leaves fewer tokens ahead
  induction hlen : (s.ahead chunks).length using Nat.strongRecOn generalizing s chunks start with
  | ind len ih =>
    subst hlen
    obtain ⟨o, left, hhalts, hspent⟩ := hbody start s chunks hs
    cases o with
    | failure s' e => exact ⟨_, left, halts_loop_failure hhalts, nofun⟩
    | success s' turn =>
      have hle := hspent s' turn rfl
      cases turn with
      | inr a =>
        refine ⟨_, left, halts_loop_done hhalts, ?_⟩
        intro s'' a' ho
        cases ho
        exact hle
      | inl next =>
        have hless : (s'.ahead left).length < (s.ahead chunks).length := hle
        obtain ⟨o', left', hhalts', hspent'⟩ :=
          ih _ hless next s' left (sound_of_halts hs hhalts) rfl
        refine ⟨o', left', halts_loop hhalts hhalts', ?_⟩
        intro s'' a ho
        have hrest := hspent' s'' a ho
        omega

/-- Both loops that repeat a parser until it fails have this form. -/
theorem settles_collect {p : Parser Γ τ α} (hp : Settles G (fun _ => 1) p) (add : σ → α → σ)
    (start : σ) :
    Settles G (fun _ => 0) (.loop start fun state => p.optional.bind fun
      | some a => pure (.inl (add state a))
      | none => pure (.inr state)) := by
  refine settles_loop (fun state => ?_) start
  have hfound : Settles G (fun a? : Option α => if a?.isSome then 1 else 0) p.optional := by
    refine Settles.alt (hp.map some ?_) (settles_pure rfl)
    intro a
    exact Nat.le_refl 1
  refine hfound.bind (d := fun a? turn => turnCost turn - if a?.isSome then 1 else 0) ?_ ?_
  · intro a?
    cases a? with
    | some a => exact settles_pure rfl
    | none => exact settles_pure rfl
  · intro a? turn
    omega

theorem settles_manyTill {costq : β → Nat} {p : Parser Γ τ α} {q : Parser Γ τ β}
    (hp : Settles G (fun _ => 1) p) (hq : Settles G costq q) :
    Settles G (fun _ => 0) (p.manyTill q) := by
  refine Settles.map (settles_loop (fun found => Settles.alt ?_ ?_) _) _ fun _ => Nat.le_refl 0
  · exact hq.map _ fun _ => Nat.zero_le _
  · exact hp.map _ fun _ => Nat.le_refl 1

/-- A turn of `takeRest` that goes on takes at least the token whose presence it has found out. -/
theorem settles_takeRest : Settles G (fun _ => 0) (takeRest : Parser Γ τ _) := by
  rw [takeRest_eq]
  refine .total (.map (settles_loop (fun taken => ?_) _) _ fun _ => Nat.le_refl 0)
  refine settles_of_fill (fun s chunks => halts_drainTurn true G s chunks taken) ?_
  intro s s' left s'' turn h
  split at h
  · cases h
    exact Nat.le_refl _
  · next hsome =>
    cases h
    have hpos : 0 < s'.remaining.toList.length := by
      rw [List.length_pos_iff]
      exact fun hnil => hsome (s'.remaining.isEmpty_iff.mpr hnil)
    simp only [Input.ahead, Input.clear, Buffer.toList_empty, List.length_append,
      List.length_nil, turnCost]
    omega

end Rules

/-! ## Guarded parsers settle -/

section Leaves

variable {G : Rules Γ τ}

theorem settles_token {p : τ → Bool} {message : String} {value : τ → α} {q : Parser Γ τ α}
    (hq : Views true G q (tokenView true p message value)) : Settles G (fun _ => 1) q := by
  refine hq.settles ?_
  intro tokens a rest h
  cases tokens with
  | nil => cases h
  | cons t left =>
    rw [tokenView] at h
    split at h
    · cases h
      exact Nat.le_refl _
    · cases h

theorem settles_takeWith (n : Int) (p : List τ → Bool) :
    Settles G (fun _ => n.toNat) (takeWith n p) := by
  refine (views_takeWith n p).settles ?_
  intro tokens a rest h
  split at h
  · next hle =>
    split at h
    · cases h
      rw [List.length_drop]
      omega
    · cases h
  · cases h

theorem rest_of_scanView {p : τ → Bool} {value : List τ → α} {tokens rest : List τ} {a : α}
    (h : scanView true p value tokens = .accepted a rest) : rest = tokens.dropWhile p := by
  unfold scanView at h
  split at h
  · next hempty =>
    cases h
    exact (List.isEmpty_iff.mp hempty).symm
  · cases h
    rfl

theorem settles_scan {p : τ → Bool} {value : List τ → α} {q : Parser Γ τ α}
    (hq : Views true G q (scanView true p value)) : Settles G (fun _ => 0) q := by
  refine hq.settles ?_
  intro tokens a rest h
  rw [rest_of_scanView h]
  exact (List.dropWhile_suffix p).length_le

theorem settles_takeWhile1 (p : τ → Bool) : Settles G (fun _ => 1) (takeWhile1 p) := by
  refine (views_takeWhile1 p).settles ?_
  intro tokens a rest h
  cases tokens with
  | nil => cases h
  | cons t left =>
    rw [scanView1] at h
    split at h
    · next hp =>
      rw [rest_of_scanView h, List.dropWhile_cons_of_pos hp]
      exact Nat.succ_le_succ (List.dropWhile_suffix p).length_le
    · cases h

theorem settles_of_putFreeLeaf {p : Parser Γ τ α} (hp : PutFreeLeaf α p) :
    Settles G (fun _ => 0) p := by
  cases hp with
  | get => exact settles_get
  | demandInput => exact settles_demandInput
  | wantInput =>
    refine views_wantInput.settles ?_
    intro tokens a rest h
    split at h
    · cases h
      exact Nat.zero_le _
    · cases h
      exact Nat.le_refl _
  | satisfy p => exact (settles_token (views_satisfy p)).mono fun _ => Nat.zero_le _
  | skip p => exact (settles_token (views_skip p)).mono fun _ => Nat.zero_le _
  | takeWith n p => exact (settles_takeWith n p).mono fun _ => Nat.zero_le _
  | skipWhile p => exact settles_scan (views_skipWhile p)
  | takeWhile p => exact settles_scan (views_takeWhile p)
  | takeWhile1 p => exact (settles_takeWhile1 p).mono fun _ => Nat.zero_le _
  | takeRest => exact settles_takeRest

theorem settles_of_consumingLeaf {p : Parser Γ τ α} (hp : ConsumingLeaf α p) :
    Settles G (fun _ => 1) p := by
  cases hp with
  | satisfy p => exact settles_token (views_satisfy p)
  | skip p => exact settles_token (views_skip p)
  | takeWith h p => exact (settles_takeWith _ p).mono fun _ => by omega
  | takeWhile1 p => exact settles_takeWhile1 p

end Leaves

theorem Guarded.settles (G : Rules Γ τ) {productive : Bool} {p : Parser Γ τ α}
    (hp : Guarded productive p) : Settles G (fun _ => productive.toNat) p := by
  induction hp with
  | leaf h => exact settles_of_putFreeLeaf h
  | ensure n => exact settles_ensure n
  | consuming h => exact settles_of_consumingLeaf h
  | weaken _ ih => exact ih.mono fun _ => Nat.zero_le _
  | pure value => exact settles_pure rfl
  | fail b message => exact settles_fail message
  | @bind b c _ _ _ _ _ _ ihp ihf =>
    refine ihp.bind ihf ?_
    intro x a
    cases b <;> cases c <;> decide
  | alt _ _ ihp ihq => exact ihp.alt ihq
  | lookAhead _ ih => exact ih.lookAhead
  | label _ name ih => exact ih.label name
  | total _ ih => exact ih.total
  | many _ ih => exact (settles_collect ih Gather.add _).map _ fun _ => Nat.le_refl 0
  | skipMany _ ih => exact settles_collect ih (fun _ _ => ()) ()
  | manyTill _ _ ihp ihq => exact settles_manyTill ihp ihq

end Parser

/-! ## Any state, any delivery -/

theorem Run.Quiet.along {ρ : Type} {r : Run τ ρ} (h : r.Quiet) (ends : Bool)
    (chunks : List (List τ)) : r.along ends chunks = r.finish.map (Halt.done · chunks) := by
  induction h with
  | done a => rfl
  | later _ ih => exact ih
  | exhausted => rfl

namespace Parser

/-- Where the end is known from the start, the chunks are not asked for. -/
theorem halts_of_closed {G : Rules Γ τ} {p : Parser Γ τ α} {s : Input τ} (hs : s.closed = true)
    {o : Outcome τ α} {left : List (List τ)} (h : p.Halts true G s [] (.done o left))
    (chunks : List (List τ)) : left = [] ∧ p.Halts true G s chunks (.done o chunks) := by
  obtain ⟨least, hhalts⟩ := h
  have hfinish : ∀ budget, least ≤ budget →
      left = [] ∧ (p.outcome G budget s).along true chunks = some (.done o chunks) := by
    intro budget hle
    have hquiet : (p.outcome G budget s).Quiet := by
      apply quiet_of_reaches (.here _)
      rw [hs]
      rfl
    have hrun := hhalts budget hle
    rw [hquiet.along] at hrun ⊢
    obtain ⟨o', hanswer, ho⟩ := Option.map_eq_some_iff.mp hrun
    cases ho
    rw [hanswer]
    exact ⟨rfl, rfl⟩
  exact ⟨(hfinish least (Nat.le_refl least)).1, least, fun budget hle => (hfinish budget hle).2⟩

theorem Settles.exists_halts {G : Rules Γ τ} {cost : α → Nat} {p : Parser Γ τ α}
    (hp : Settles G cost p) (s : Input τ) (chunks : List (List τ)) :
    ∃ o left, p.Halts true G s chunks (.done o left) ∧
      ∀ s' a, o = .success s' a → (s'.ahead left).length + cost a ≤ (s.ahead chunks).length := by
  by_cases hclosed : s.closed = true
  · obtain ⟨o, left, hhalts, hspent⟩ := hp s [] fun _ => ⟨rfl, rfl⟩
    obtain ⟨hleft, hunasked⟩ := halts_of_closed hclosed hhalts chunks
    subst hleft
    refine ⟨o, chunks, hunasked, ?_⟩
    intro s' a ho
    have hle := hspent s' a ho
    simp only [Input.ahead, List.flatten_nil, List.append_nil, List.length_append] at hle ⊢
    omega
  · exact hp s chunks fun h => absurd h hclosed

/-- The loop that feeds a parse comes to the verdict at which its run stops along the chunks, and
has taken those that are not left. -/
theorem exists_push_of_halts {G : Rules Γ τ} {p : Parser Γ τ α} {s : Input τ}
    {chunks left : List (List τ)} {o : Outcome τ α} (h : p.Halts true G s chunks (.done o left)) :
    ∃ least taken, left = chunks.drop taken ∧ ∀ budget, least ≤ budget →
      (p.parseInput G budget s).push chunks = (some o.verdict, taken) := by
  obtain ⟨least, hhalts⟩ := h
  have hpush : ∀ budget, least ≤ budget → ∃ taken, left = chunks.drop taken ∧
      taken = chunks.length - left.length ∧
      (p.parseInput G budget s).push chunks = (some o.verdict, taken) := by
    intro budget hle
    obtain ⟨taken, received, replies, hdrawn, hleft, -⟩ :=
      Result.drawFrom_of_along (hhalts budget hle) 0 0
    obtain ⟨hanswer, hpulled⟩ := Result.drawFrom_chunks 0 0 chunks (p.parseInput G budget s)
    have htaken := Result.push_le chunks (p.parseInput G budget s)
    rw [parseInput_eq, hdrawn] at hanswer hpulled
    rw [parseInput_eq] at htaken ⊢
    have hverdict := Except.ok.inj hanswer
    simp only [Nat.zero_add] at hpulled
    refine ⟨taken, hleft, ?_, Prod.ext hverdict.symm hpulled.symm⟩
    rw [hleft, List.length_drop]
    omega
  obtain ⟨taken, hleft, htaken, -⟩ := hpush least (Nat.le_refl least)
  refine ⟨least, taken, hleft, ?_⟩
  intro budget hle
  obtain ⟨taken', -, htaken', h⟩ := hpush budget hle
  rw [h, htaken', htaken]

/-- **Guarded parsers terminate.** Let `p` be an expression without `put` and without rules whose
loops repeat productive parsers only. Started in any state, given any chunks and then the end, by a
prompt or by the caller as it was planned for each of them, `p` comes to a verdict, and with every
large enough budget to the same one. A success leaves no more tokens than there were, counting the
chunks it has not taken, and fewer if `p` is productive. -/
theorem guarded_terminates (G : Rules Γ τ) {productive : Bool} {p : Parser Γ τ α}
    (hp : Guarded productive p) (s : Input τ) (chunks : List (List τ)) :
    ∃ verdict taken least,
      (∀ budget, least ≤ budget →
        (p.parseInput G budget s).push chunks = (some verdict, taken) ∧
        ∀ plan : List (Planned τ), plan.map Planned.event = chunks.map .chunk ++ [.ended] →
          ((p.start G budget s).passage (Planned.prompt plan) (Planned.supplied plan)).stage =
            .done verdict) ∧
      ∀ value rest, verdict = .accepted value rest →
        rest.size + (chunks.drop taken).flatten.length + productive.toNat ≤
          s.remaining.size + chunks.flatten.length := by
  obtain ⟨o, left, hhalts, hspent⟩ := (hp.settles G).exists_halts s chunks
  obtain ⟨least, taken, hleft, hpush⟩ := exists_push_of_halts hhalts
  refine ⟨o.verdict, taken, least, ?_, ?_⟩
  · intro budget hle
    refine ⟨hpush budget hle, ?_⟩
    intro plan hplan
    have hwaits : ∀ replies input onEnd onChunk,
        (p.start G budget s).Reaches replies (.await input onEnd onChunk) → (onEnd ()).Quiet := by
      intro replies input onEnd onChunk h
      exact (waits_of_start h).2
    have hstage := stage_passage_plan hwaits 0 hplan
    rw [← parseInput, hpush budget hle] at hstage
    exact hstage
  · intro value rest hverdict
    cases o with
    | failure s' e => cases hverdict
    | success s' a =>
      cases hverdict
      have hle := hspent s' value rfl
      rw [← hleft]
      simp only [Input.ahead, List.length_append, ← Buffer.size_eq] at hle
      exact hle

end Parser

namespace Text

open Piecemeal.Parser

/-- A number, perhaps with a unit of two letters. -/
def quantity : Parser Empty.elim Char (Binary64 × Option (List Char)) :=
  number.bind fun n => (optional (count 2 letter)).map fun unit => (n, unit)

/-- A name and a list of quantities, perhaps with spaces between the two. -/
def setting : Parser Empty.elim Char (String × List (Binary64 × Option (List Char))) :=
  word.bind fun name => (option () (skipMany1 space)).andThen
    ((between (char (.exactly "[")) (char (.exactly "]"))
      (sepBy quantity (char (.exactly ",")))).map fun values => (name, values))

/-- A comment, which goes to the end of its line, or a setting on a line of its own. -/
def line : Parser Empty.elim Char (Option (String × List (Binary64 × Option (List Char)))) :=
  choice [(string "--").andThen ((manyTill anyChar eol).map fun _ => none),
    (setting.map some).followedBy eol]

def settings : Parser Empty.elim Char
    (List (Option (String × List (Binary64 × Option (List Char))))) :=
  line.many.followedBy endOfInput

theorem guarded_quantity : Guarded true quantity := by
  refine .bind (b := true) (c := false) guarded_number fun n => ?_
  exact .map (.optional (.count 2 guarded_letter)) _

theorem guarded_line : Guarded true line := by
  refine .choice ?_
  intro p hp
  simp only [List.mem_cons, List.not_mem_nil, or_false] at hp
  rcases hp with rfl | rfl
  · refine .andThen (b := true) (c := false) (guarded_string (by decide)) (.map ?_ _)
    exact .manyTill (.consuming (.satisfy _)) guarded_eol
  · refine .followedBy (b := true) (c := true) (.map ?_ _) guarded_eol
    refine .bind (b := true) (c := true) guarded_word fun name => ?_
    refine .andThen (b := false) (c := true) (.option (.skipMany1 (guarded_char _)) _) (.map ?_ _)
    refine .between (a := true) (guarded_char _) (.sepBy guarded_quantity ?_) (guarded_char _)
    exact .andThen (b := true) (guarded_char _) guarded_quantity

theorem guarded_settings : Guarded false settings :=
  .followedBy (.many guarded_line) guarded_endOfInput

/-- The comment and the list of quantities are both cut by the chunks, and the state in which the
parser is started has a record of its own. -/
theorem guarded_terminates_settings : Guarded false settings ∧
    ∃ verdict least, ∀ budget, least ≤ budget →
      ((settings.start nofun budget ⟨.ofList ['-'], false, some .empty⟩).passage
        (Planned.prompt [⟨.chunk ['-', 'x'], true⟩, ⟨.chunk [], false⟩,
          ⟨.chunk ['\n', 'a', '[', '1'], false⟩, ⟨.chunk [',', '2', ']', '\n'], true⟩,
          ⟨.ended, false⟩])
        (Planned.supplied [⟨.chunk ['-', 'x'], true⟩, ⟨.chunk [], false⟩,
          ⟨.chunk ['\n', 'a', '[', '1'], false⟩, ⟨.chunk [',', '2', ']', '\n'], true⟩,
          ⟨.ended, false⟩])).stage = .done verdict := by
  obtain ⟨verdict, taken, least, hsettled, -⟩ := guarded_terminates nofun guarded_settings
    ⟨.ofList ['-'], false, some .empty⟩
    [['-', 'x'], [], ['\n', 'a', '[', '1'], [',', '2', ']', '\n']]
  refine ⟨guarded_settings, verdict, least, ?_⟩
  intro budget hle
  exact (hsettled budget hle).2 _ rfl

end Text

end Piecemeal
