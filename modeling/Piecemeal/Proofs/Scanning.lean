import Piecemeal.Proofs.Asking
import Piecemeal.Proofs.EndOfStream
import Piecemeal.Proofs.Turns

/-!
# Scanning and repeating

A scan passes over whole fragments and joins them at the end; a repetition takes one token at a
time, each from a checkpoint of its own, and stops at the attempt that fails. Yet they take the same
tokens and ask for the same chunks, because both come to what `Input.fill` says of the input they
started from: a repetition of single tokens fills up to the first token outside the run
(`halts_collect`), and so many tokens one by one are a block of that length (`halts_countFrom`).

`InStep` is the sense in which two parsers do the same: with every large enough budget they settle
alike and have asked the prompt equally often. `scanners_agree` says so of each scanner and its
repetition.
-/

namespace Piecemeal

variable {ι : Type} {Γ : ι → Type} {τ α β ρ σ : Type}

open Input

/-! ## Repetition of single tokens -/

/-- The next token if it satisfies `p`, or none. -/
def Input.attempt (p : τ → Bool) (s : Input τ) : Outcome τ (Option τ) :=
  match s.token p with
  | .success s' t => .success s' (some t)
  | .failure _ _ => .success s none

namespace Parser

/-- A repetition that gathers its elements by `add`. -/
def collect (add : σ → α → σ) (start : σ) (p : Parser Γ τ α) : Parser Γ τ σ :=
  loop start fun state => p.optional.bind fun
    | some a => pure (.inl (add state a))
    | none => pure (.inr state)

theorem many_eq (p : Parser Γ τ α) :
    many p = map Gather.toList (collect Gather.add Gather.empty p) := rfl

theorem skipMany_eq (p : Parser Γ τ α) : skipMany p = collect (fun _ _ => ()) () p := rfl

section Repeat

variable (ends : Bool) (G : Rules Γ τ) (s : Input τ) (chunks : List (List τ))

/-- An attempt at a token fills up to one token, and takes it if it satisfies `p`. -/
theorem halts_attempt (p : τ → Bool) :
    (∃ s' left, s.fill (atLeast 1) ends chunks = .done s' left ∧
      (optional (satisfy p)).Halts ends G s chunks (.done (s'.attempt p) left)) ∨
    ∃ s' record, s.fill (atLeast 1) ends chunks = .waiting s' ∧
      (optional (satisfy p)).Halts ends G s chunks (.waiting { s' with arrived := record }) := by
  have hsatisfy := halts_satisfy ends G s.checkpoint chunks p
  rcases fill_record (atLeast 1) ends s chunks with ⟨replies, left, hfill⟩ | ⟨replies, hfill⟩
  · have hfill' : s.checkpoint.fill (atLeast 1) ends chunks =
        .done (s.checkpoint.after replies) left := hfill (some .empty)
    rw [hfill', Halt.map] at hsatisfy
    refine .inl ⟨s.after replies, left, hfill s.arrived, ?_⟩
    have hnone : ∀ e, (satisfy p).Halts ends G s.checkpoint chunks
        (.done (.failure (s.checkpoint.after replies) e) left) →
          (optional (satisfy p)).Halts ends G s chunks
            (.done (.success (s.after replies) none) left) := by
      intro e hfailed
      rw [← s.rewind_after replies]
      exact halts_alt_failure (halts_bind_failure _ hfailed) (halts_pure none)
    cases htokens : (s.after replies).remaining.toList with
    | nil =>
      rw [attempt, token_of_nil p htokens]
      rw [token_of_nil p (show (s.checkpoint.after replies).remaining.toList = [] from htokens)]
        at hsatisfy
      exact hnone _ hsatisfy
    | cons t rest =>
      rw [attempt, token_of_cons p htokens]
      rw [token_of_cons p
        (show (s.checkpoint.after replies).remaining.toList = t :: rest from htokens)] at hsatisfy
      cases ht : p t with
      | false =>
        rw [ht] at hsatisfy
        exact hnone _ hsatisfy
      | true =>
        rw [ht, if_pos rfl] at hsatisfy
        simp only [if_true]
        rw [← s.keep_after replies (.ofList rest)]
        exact halts_alt (halts_bind hsatisfy (halts_pure (some t)))
  · refine .inr ⟨s.after replies, (s.checkpoint.after replies).arrived, hfill s.arrived, ?_⟩
    have hfill' : s.checkpoint.fill (atLeast 1) ends chunks =
        .waiting (s.checkpoint.after replies) := hfill (some .empty)
    rw [hfill'] at hsatisfy
    exact halts_alt_waiting (halts_bind_waiting _ hsatisfy)

/-- A repetition of single tokens fills up to the first token outside the run. -/
theorem halts_collect (p : τ → Bool) (add : σ → τ → σ) (start : σ) :
    (∃ s' left, s.fill (escapes p) ends chunks = .done s' left ∧
      (collect add start (satisfy p)).Halts ends G s chunks (.done (.success (s'.behindRun p)
        ((s'.remaining.toList.takeWhile p).foldl add start)) left)) ∨
    ∃ s' record, s.fill (escapes p) ends chunks = .waiting s' ∧
      (collect add start (satisfy p)).Halts ends G s chunks
        (.waiting { s'.clear with arrived := record }) := by
  -- each turn of the loop but the last takes a token
  induction hlen : (s.ahead chunks).length using Nat.strongRecOn generalizing s chunks start with
  | ind len ih =>
    subst hlen
    have hfill := fill_escapes_then p ends s chunks
    rcases halts_attempt ends G s chunks p with ⟨s', left, hfirst, hturn⟩ |
      ⟨s', record, hfirst, hturn⟩
    · have hfilled := filled_of_fill hfirst
      rw [hfirst, Halt.goOn] at hfill
      cases htokens : s'.remaining.toList with
      | nil =>
        -- the stream is over
        have hclosed := hfilled.closed ((atLeast_one_eq_false_iff _).mpr htokens)
        rw [fill_of_ready (ready_of_closed hclosed)] at hfill
        refine .inl ⟨s', left, hfill, ?_⟩
        rw [attempt, token_of_nil p htokens] at hturn
        rw [htokens, behindRun_of_nil p htokens]
        exact halts_loop_done (halts_bind hturn (halts_pure _))
      | cons t rest =>
        rw [attempt, token_of_cons p htokens] at hturn
        cases ht : p t with
        | false =>
          have hescapes : escapes p s'.remaining.toList = true := by
            rw [htokens, escapes, List.any_cons, ht]
            rfl
          have hrest : s'.behindRun p = s' := by
            have hdrop : s'.remaining.toList.dropWhile p = s'.remaining.toList := by
              rw [htokens, List.dropWhile_cons_of_neg (Bool.eq_false_iff.mp ht)]
            rw [behindRun, hdrop, Buffer.ofList_toList]
          rw [fill_of_ready (ready_of_enough hescapes)] at hfill
          refine .inl ⟨s', left, hfill, ?_⟩
          rw [ht] at hturn
          rw [hrest, htokens, List.takeWhile_cons_of_neg (Bool.eq_false_iff.mp ht)]
          exact halts_loop_done (halts_bind hturn (halts_pure _))
        | true =>
          have hrun := dropWhile_singleton ht
          have hshorter : (Input.ahead { s' with remaining := .ofList rest } left).length <
              (s.ahead chunks).length := by
            rw [← hfilled.ahead_eq]
            simp [Input.ahead, htokens]
          rw [ht, if_pos rfl] at hturn
          rw [fill_of_cons ends htokens (escapes_append hrun)] at hfill
          rcases ih _ hshorter { s' with remaining := .ofList rest } left (add start t) rfl with
            ⟨s'', left', hmore, hloop⟩ | ⟨s'', record, hmore, hloop⟩
          · rw [hmore] at hfill
            refine .inl ⟨_, left', hfill, ?_⟩
            rw [behindRun_prepend hrun, takeWhile_prepend hrun, List.takeWhile_cons_of_pos ht]
            exact halts_loop (halts_bind hturn (halts_pure _)) hloop
          · rw [hmore] at hfill
            exact .inr ⟨_, record, hfill, halts_loop (halts_bind hturn (halts_pure _)) hloop⟩
    · rw [hfirst] at hfill
      refine .inr ⟨s', record, hfill, ?_⟩
      rw [clear_of_nil (nil_of_fill_waiting hfirst)]
      exact halts_loop_waiting (halts_bind_waiting _ hturn)

/-- So many tokens, one by one, are asked for like a block of that length. -/
theorem halts_countFrom (k : Nat) (found : Gather τ) :
    (∃ s' left, s.fill (atLeast k) ends chunks = .done s' left ∧
      ((k ≤ s'.remaining.toList.length ∧ (countFrom anyToken k found).Halts ends G s chunks
        (.done (.success { s' with remaining := .ofList (s'.remaining.toList.drop k) }
          (found.addAll (s'.remaining.toList.take k))) left)) ∨
      (s'.remaining.toList.length < k ∧ s'.closed = true ∧ ∃ s'' e, s''.closed = true ∧
        (countFrom anyToken k found).Halts ends G s chunks (.done (.failure s'' e) left)))) ∨
    ∃ s' s'', s.fill (atLeast k) ends chunks = .waiting s' ∧ s''.closed = s'.closed ∧
      (countFrom anyToken k found).Halts ends G s chunks (.waiting s'') := by
  induction k generalizing s chunks found with
  | zero =>
    have hready : s.ready (atLeast 0) = true := ready_of_enough rfl
    refine .inl ⟨s, chunks, fill_of_ready hready chunks, .inl ⟨Nat.zero_le _, ?_⟩⟩
    rw [List.drop_zero, Buffer.ofList_toList]
    exact halts_pure found
  | succ k ih =>
    have hweaker : ∀ tokens : List τ, atLeast (k + 1 : Nat) tokens = true →
        atLeast 1 tokens = true := fun tokens => atLeast_mono (by omega)
    have hfirst := halts_satisfy ends G s chunks fun _ => true
    have hfill := fill_then hweaker ends s chunks
    cases hone : s.fill (atLeast 1) ends chunks with
    | waiting s' =>
      rw [hone] at hfirst hfill
      exact .inr ⟨s', s', hfill, rfl, halts_bind_waiting _ hfirst⟩
    | done s' left =>
      have hfilled := filled_of_fill hone
      rw [hone] at hfirst hfill
      rw [Halt.map] at hfirst
      rw [Halt.goOn] at hfill
      cases htokens : s'.remaining.toList with
      | nil =>
        -- the stream is over
        have hclosed := hfilled.closed ((atLeast_one_eq_false_iff _).mpr htokens)
        rw [fill_of_ready (ready_of_closed hclosed)] at hfill
        rw [token_of_nil _ htokens] at hfirst
        refine .inl ⟨s', left, hfill, .inr ⟨?_, hclosed, s', _, hclosed,
          halts_bind_failure _ hfirst⟩⟩
        rw [htokens]
        exact Nat.succ_pos k
      | cons t rest =>
        have hsame : (fun tokens => atLeast (k + 1 : Nat) ([t] ++ tokens)) = atLeast k := by
          funext tokens
          simp [atLeast]
        rw [token_of_cons _ htokens, if_pos rfl] at hfirst
        rw [fill_of_cons ends htokens hsame] at hfill
        rcases ih { s' with remaining := .ofList rest } left (found.add t) with
          ⟨s'', left', hmore, ⟨hlen, hcount⟩ | ⟨hlen, hclosed, s₁, e, hs₁, hcount⟩⟩ |
          ⟨s'', s₁, hmore, hs₁, hcount⟩
        · rw [hmore] at hfill
          refine .inl ⟨_, left', hfill, .inl ⟨?_, ?_⟩⟩
          · simp [prepend, hlen]
          · have hremaining : (s''.prepend [t]).remaining.toList = t :: s''.remaining.toList := by
              simp [prepend]
            rw [hremaining, List.drop_succ_cons, List.take_succ_cons]
            exact halts_bind hfirst hcount
        · rw [hmore] at hfill
          refine .inl ⟨_, left', hfill, .inr ⟨?_, hclosed, s₁, e, hs₁, halts_bind hfirst hcount⟩⟩
          simp [prepend, hlen]
        · rw [hmore] at hfill
          exact .inr ⟨_, s₁, hfill, hs₁, halts_bind hfirst hcount⟩

end Repeat

end Parser

/-! ## Parsers in step -/

/-- Both outcomes are the same success, or both are failures in states related by `F`. -/
inductive Outcome.Match (F : Input τ → Input τ → Prop) : Outcome τ α → Outcome τ α → Prop
  | success (s : Input τ) (a : α) : Match F (.success s a) (.success s a)
  | failure {s s' : Input τ} (e e' : Failure) (h : F s s') : Match F (.failure s e) (.failure s' e')

/-- Both stops are outcomes that match, with the same chunks left, or waits in states related by
`W`. -/
inductive Halt.Match (W F : Input τ → Input τ → Prop) :
    Halt τ (Outcome τ α) → Halt τ (Outcome τ α) → Prop
  | done {o o' : Outcome τ α} (h : o.Match F o') (left : List (List τ)) :
      Match W F (.done o left) (.done o' left)
  | waiting {s s' : Input τ} (h : W s s') : Match W F (.waiting s) (.waiting s')

/-- Two runs that were answered by prompts have settled alike, and the prompts were left alike: they
were asked equally often and have the same replies left. -/
inductive Stage.Match (W F : Input τ → Input τ → Prop) :
    Stage τ (Outcome τ α) × Prompt τ → Stage τ (Outcome τ α) × Prompt τ → Prop
  | done {o o' : Outcome τ α} (h : o.Match F o') (prompt : Prompt τ) :
      Match W F (.done o, prompt) (.done o', prompt)
  | await {s s' : Input τ} {onEnd onEnd' : Unit → Run τ (Outcome τ α)}
      {onChunk onChunk' : List τ → Run τ (Outcome τ α)} (h : W s s') (prompt : Prompt τ) :
      Match W F (.await s onEnd onChunk, prompt) (.await s' onEnd' onChunk', prompt)

/-- Has the given chunks, and then reports the end if the stream `ends` there, or else hands back.
-/
def Prompt.ofChunks (ends : Bool) (chunks : List (List τ)) : Prompt τ :=
  ⟨chunks.map .chunk, if ends then .ended else .handBack, 0⟩

/-- The same tokens remain, in the same state of the stream. -/
def Input.Coincide (s s' : Input τ) : Prop := s.remaining = s'.remaining ∧ s.closed = s'.closed

namespace Run

/-- A run that asks nobody once it is told of the end asks for each chunk that it takes, and perhaps
for the end. -/
theorem settleWith_of_along_done {r : Run τ ρ} {ends : Bool} {chunks left : List (List τ)} {a : ρ}
    (hquiet : ∀ replies input onEnd onChunk, r.Reaches replies (.await input onEnd onChunk) →
      (onEnd ()).Quiet)
    (h : r.along ends chunks = some (.done a left)) (last : Reply τ)
    (hlast : ends = true → last = .ended) (asked : Nat) :
    ∃ replies asked', r.Reaches replies (.done a) ∧
      asked' + left.length = asked + chunks.length + (endReported replies).toNat ∧
      r.settleWith ⟨chunks.map .chunk, last, asked⟩ =
        (.done a, ⟨left.map .chunk, last, asked'⟩) := by
  induction r generalizing chunks asked with
  | done a' =>
    cases h
    exact ⟨[], asked, .here _, rfl, rfl⟩
  | later next ih =>
    obtain ⟨replies, asked', hpath, hasked, hsettled⟩ := ih ()
      (fun replies input onEnd onChunk hr => hquiet _ _ _ _ (.later hr)) h asked
    exact ⟨replies, asked', .later hpath, hasked, hsettled⟩
  | await input onEnd onChunk ihEnd ihChunk =>
    cases chunks with
    | cons chunk rest =>
      obtain ⟨replies, asked', hpath, hasked, hsettled⟩ := ihChunk chunk
        (fun replies input onEnd onChunk hr => hquiet _ _ _ _ (.chunk chunk hr)) h (asked + 1)
      refine ⟨.chunk chunk :: replies, asked', .chunk chunk hpath, ?_, hsettled⟩
      rw [hasked, List.length_cons, endReported_cons, Reply.isEnd, Bool.false_or]
      omega
    | nil =>
      cases ends with
      | false => cases h
      | true =>
        have hend : (onEnd ()).along true [] = some (.done a left) := h
        obtain ⟨replies, hpath, -⟩ := reaches_of_along hend
        rw [along_nil] at hend
        obtain ⟨a', hfinish, ha'⟩ := Option.map_eq_some_iff.mp hend
        cases ha'
        have hsettled := (hquiet [] input onEnd onChunk (.here _)).settleWith
          ⟨[], .ended, asked + 1⟩
        rw [hfinish] at hsettled
        rw [hlast rfl]
        exact ⟨.ended :: replies, asked + 1, .ended hpath, rfl, hsettled⟩
  | exhausted => cases h

theorem settleWith_of_along_waiting {r : Run τ ρ} {chunks : List (List τ)} {s : Input τ}
    (h : r.along false chunks = some (.waiting s)) (asked : Nat) :
    ∃ onEnd onChunk, r.settleWith ⟨chunks.map .chunk, .handBack, asked⟩ =
      (.await s onEnd onChunk, ⟨[], .handBack, asked + chunks.length + 1⟩) := by
  induction r generalizing chunks asked with
  | done a => cases h
  | later next ih => exact ih () h asked
  | await input onEnd onChunk _ ihChunk =>
    cases chunks with
    | cons chunk rest =>
      obtain ⟨onEnd', onChunk', hsettled⟩ := ihChunk chunk h (asked + 1)
      refine ⟨onEnd', onChunk', hsettled.trans ?_⟩
      rw [List.length_cons, Nat.add_right_comm asked 1, Nat.add_assoc asked]
    | nil =>
      cases h
      exact ⟨onEnd, onChunk, rfl⟩
  | exhausted => cases h

theorem Quiet.replies_eq_nil {r : Run τ ρ} (h : r.Quiet) {replies : List (Reply τ)} {a : ρ}
    (hr : r.Reaches replies (.done a)) : replies = [] := by
  induction h with
  | done a' =>
    cases hr
    rfl
  | later _ ih =>
    cases hr with
    | later rest => exact ih rest
  | exhausted => cases hr

end Run

namespace Parser

theorem endReported_of_reaches {G : Rules Γ τ} {budget : Nat} {p : Parser Γ τ α} {s : Input τ}
    {replies : List (Reply τ)} {o : Outcome τ α}
    (h : (p.outcome G budget s).Reaches replies (.done o)) :
    endReported replies = (o.input.closed && !s.closed) := by
  have hclosed : o.input.closed = (s.closed || endReported replies) :=
    (recorded_of_reaches h).closed
  rw [hclosed]
  cases hs : s.closed with
  | true =>
    have hquiet : (p.outcome G budget s).Quiet := quiet_of_reaches (.here _) (by rw [hs]; rfl)
    rw [hquiet.replies_eq_nil h]
    rfl
  | false => rw [Bool.false_or, Bool.not_false, Bool.and_true]

/-- With every large enough budget, the two parsers settle alike with a prompt that has these
chunks, and have asked it equally often. They wait only where it hands back. -/
def InStep (W F : Input τ → Input τ → Prop) (G : Rules Γ τ) (s : Input τ) (ends : Bool)
    (chunks : List (List τ)) (p q : Parser Γ τ α) : Prop :=
  ∃ least, ∀ budget, least ≤ budget →
    Stage.Match (fun s s' => ends = false ∧ W s s') F
      ((p.outcome G budget s).settleWith (.ofChunks ends chunks))
      ((q.outcome G budget s).settleWith (.ofChunks ends chunks))

section InStep

variable {W F : Input τ → Input τ → Prop} {G : Rules Γ τ} {s : Input τ} {ends : Bool}
  {chunks : List (List τ)} {p q : Parser Γ τ α}

theorem exists_settleWith_done {o : Outcome τ α} {left : List (List τ)} {budget : Nat}
    (h : (p.outcome G budget s).along ends chunks = some (.done o left)) :
    ∃ asked, asked + left.length = chunks.length + (o.input.closed && !s.closed).toNat ∧
      (p.outcome G budget s).settleWith (.ofChunks ends chunks) =
        (.done o, ⟨left.map .chunk, if ends then .ended else .handBack, asked⟩) := by
  have hlast : ends = true → (if ends then Reply.ended else .handBack : Reply τ) = .ended := by
    intro hends
    rw [if_pos hends]
  obtain ⟨replies, asked, hpath, hasked, hsettled⟩ :=
    Run.settleWith_of_along_done (fun _ _ _ _ => quiet_onEnd) h _ hlast 0
  rw [endReported_of_reaches hpath, Nat.zero_add] at hasked
  exact ⟨asked, hasked, hsettled⟩

theorem inStep_of_match {halt halt' : Halt τ (Outcome τ α)} (hp : p.Halts ends G s chunks halt)
    (hq : q.Halts ends G s chunks halt') (hmatch : halt.Match W F halt')
    (hF : ∀ s s', F s s' → s.closed = s'.closed) : InStep W F G s ends chunks p q := by
  obtain ⟨least, hp⟩ := hp
  obtain ⟨least', hq⟩ := hq
  refine ⟨max least least', fun budget hle => ?_⟩
  replace hp := hp budget (by omega)
  replace hq := hq budget (by omega)
  cases hmatch with
  | @done o o' h left =>
    have hclosed : o.input.closed = o'.input.closed := by
      cases h with
      | success s a => rfl
      | failure e e' h => exact hF _ _ h
    obtain ⟨asked, hasked, hsettled⟩ := exists_settleWith_done hp
    obtain ⟨asked', hasked', hsettled'⟩ := exists_settleWith_done hq
    rw [hclosed] at hasked
    obtain rfl : asked = asked' := by omega
    rw [hsettled, hsettled']
    exact .done h _
  | waiting h =>
    cases ends with
    | true => exact absurd hp (Run.along_ne_waiting _ _ _)
    | false =>
      obtain ⟨onEnd, onChunk, hsettled⟩ := Run.settleWith_of_along_waiting hp 0
      obtain ⟨onEnd', onChunk', hsettled'⟩ := Run.settleWith_of_along_waiting hq 0
      have hprompt : Prompt.ofChunks false chunks = ⟨chunks.map .chunk, .handBack, 0⟩ := rfl
      rw [hprompt, hsettled, hsettled']
      exact .await ⟨rfl, h⟩ _

end InStep

section Scanners

theorem toList_gathered (elements : List α) : (Gather.empty.addAll elements).toList = elements := by
  rw [Gather.toList_addAll, Gather.toList_empty, List.nil_append]

variable (G : Rules Γ τ) (pred : τ → Bool) (s : Input τ) (ends : Bool) (chunks : List (List τ))

theorem halts_many_satisfy :
    (∃ s' left, s.fill (escapes pred) ends chunks = .done s' left ∧
      (many (satisfy pred)).Halts ends G s chunks
        (.done (.success (s'.behindRun pred) (s'.remaining.toList.takeWhile pred)) left)) ∨
    ∃ s' record, s.fill (escapes pred) ends chunks = .waiting s' ∧
      (many (satisfy pred)).Halts ends G s chunks
        (.waiting { s'.clear with arrived := record }) := by
  rw [many_eq]
  rcases halts_collect ends G s chunks pred Gather.add Gather.empty with
    ⟨s', left, hfill, hloop⟩ | ⟨s', record, hfill, hloop⟩
  · refine .inl ⟨s', left, hfill, ?_⟩
    rw [← toList_gathered (s'.remaining.toList.takeWhile pred)]
    exact halts_bind hloop (halts_pure _)
  · exact .inr ⟨s', record, hfill, halts_bind_waiting _ hloop⟩

theorem inStep_takeWhile_many : InStep Coincide (fun _ _ => False) G s ends chunks (takeWhile pred)
    (many (satisfy pred)) := by
  have hscan := halts_takeWhile ends G s chunks pred
  rcases halts_many_satisfy G pred s ends chunks with ⟨s', left, hfill, hmany⟩ |
    ⟨s', record, hfill, hmany⟩
  · rw [hfill] at hscan
    exact inStep_of_match hscan hmany (.done (.success _ _) left) nofun
  · rw [hfill] at hscan
    exact inStep_of_match hscan hmany (.waiting ⟨rfl, rfl⟩) nofun

theorem inStep_skipWhile_skipMany : InStep Coincide (fun _ _ => False) G s ends chunks
    (skipWhile pred) (skipMany (satisfy pred)) := by
  have hscan := halts_skipWhile ends G s chunks pred
  rw [skipMany_eq]
  rcases halts_collect ends G s chunks pred (fun _ _ => ()) () with ⟨s', left, hfill, hmany⟩ |
    ⟨s', record, hfill, hmany⟩
  · rw [hfill] at hscan
    exact inStep_of_match hscan hmany (.done (.success _ _) left) nofun
  · rw [hfill] at hscan
    exact inStep_of_match hscan hmany (.waiting ⟨rfl, rfl⟩) nofun

/-- Both ask for a first token, and go on like `takeWhile` and `many` if it belongs to a run. -/
theorem inStep_takeWhile1_many1 : InStep Coincide Eq G s ends chunks (takeWhile1 pred)
    (many1 (satisfy pred)) := by
  have hsame : ∀ s s' : Input τ, s = s' → s.closed = s'.closed := fun _ _ h => congrArg _ h
  have hfirst := halts_firstInput ends G s chunks
  have htoken := halts_satisfy ends G s chunks pred
  cases hfill : s.fill (atLeast 1) ends chunks with
  | waiting s' =>
    rw [hfill] at hfirst htoken
    exact inStep_of_match (halts_bind halts_get (halts_bind_waiting _ hfirst))
      (halts_bind_waiting _ htoken) (.waiting ⟨rfl, rfl⟩) hsame
  | done s' left =>
    rw [hfill, Halt.map] at hfirst htoken
    cases htokens : s'.remaining.toList with
    | nil =>
      rw [if_pos (s'.remaining.isEmpty_iff.mpr htokens)] at hfirst
      rw [token_of_nil pred htokens] at htoken
      exact inStep_of_match (halts_bind halts_get (halts_bind_failure _ hfirst))
        (halts_bind_failure _ htoken) (.done (.failure _ _ rfl) left) hsame
    | cons t rest =>
      have hsome : ¬ s'.remaining.isEmpty = true := by
        rw [Buffer.isEmpty_eq, htokens]
        exact Bool.false_ne_true
      rw [if_neg hsome] at hfirst
      rw [token_of_cons pred htokens] at htoken
      cases ht : pred t with
      | false =>
        have hnone : s'.remaining.toList.takeWhile pred = [] := by
          rw [htokens, List.takeWhile_cons_of_neg (Bool.eq_false_iff.mp ht)]
        have hscan := halts_scanOnce_failure ends G s' left hnone
        rw [ht] at htoken
        exact inStep_of_match (halts_bind halts_get (halts_bind hfirst hscan))
          (halts_bind_failure _ htoken) (.done (.failure _ _ rfl) left) hsame
      | true =>
        have hrun := dropWhile_singleton ht
        have hscan := halts_scanOnce ends G s' left htokens ht
        rw [fill_of_cons ends htokens (escapes_append hrun)] at hscan
        rw [ht, if_pos rfl] at htoken
        rcases halts_many_satisfy G pred { s' with remaining := .ofList rest } ends left with
          ⟨s'', left', hmore, hmany⟩ | ⟨s'', record, hmore, hmany⟩
        · rw [hmore, Halt.onInput, Halt.conclude, behindRun_prepend hrun, takeWhile_prepend hrun,
            List.takeWhile_cons_of_pos ht] at hscan
          exact inStep_of_match (halts_bind halts_get (halts_bind hfirst hscan))
            (halts_bind htoken (halts_bind hmany (halts_pure _))) (.done (.success _ _) left') hsame
        · rw [hmore] at hscan
          exact inStep_of_match (halts_bind halts_get (halts_bind hfirst hscan))
            (halts_bind htoken (halts_bind_waiting _ hmany)) (.waiting ⟨rfl, rfl⟩) hsame

/-- A block of `n` tokens is taken whole, and `n` tokens are taken one by one, from an input that
was filled up to `n` tokens. -/
theorem inStep_take_count (n : Int) : InStep (fun s s' => s.closed = s'.closed)
    (fun s s' => s.closed = s'.closed) G s ends chunks (take n) (count n anyToken) := by
  have hatLeast : (atLeast n : List τ → Bool) = atLeast n.toNat := by
    funext tokens
    rw [atLeast, atLeast, decide_eq_decide]
    omega
  have hsame : ∀ s s' : Input τ, s.closed = s'.closed → s.closed = s'.closed := fun _ _ h => h
  have htake := halts_takeWith ends G s chunks n fun _ => true
  rw [hatLeast] at htake
  rcases halts_countFrom ends G s chunks n.toNat .empty with
    ⟨s', left, hfill, ⟨hlen, hcount⟩ | ⟨hlen, hclosed, s'', e, hs'', hcount⟩⟩ |
    ⟨s', s'', hfill, hs'', hcount⟩
  · have hsize : n ≤ s'.remaining.size := by
      rw [Buffer.size_eq]
      omega
    rw [hfill, Halt.map, block, if_pos hsize, if_pos rfl,
      ← toList_gathered (s'.remaining.toList.take n.toNat)] at htake
    exact inStep_of_match htake (halts_bind hcount (halts_pure _)) (.done (.success _ _) left) hsame
  · have hsize : ¬ n ≤ s'.remaining.size := by
      rw [Buffer.size_eq]
      omega
    rw [hfill, Halt.map, block, if_neg hsize] at htake
    exact inStep_of_match htake (halts_bind_failure _ hcount)
      (.done (.failure _ _ (hclosed.trans hs''.symm)) left) hsame
  · rw [hfill] at htake
    exact inStep_of_match htake (halts_bind_waiting _ hcount) (.waiting hs''.symm) hsame

end Scanners

/-- **Scanners agree with repetition.** From every input, and with a prompt that has any chunks and
then reports the end or hands back, with every large enough budget:

* `takeWhile` and `many` succeed with the same tokens in the same state, or suspend with the same
  remaining tokens; so do `skipWhile` and `skipMany`;
* `takeWhile1` and `many1` do so too, or fail both, in the same state;
* `take n` and `count n anyToken`, for every integer `n`, succeed with the same tokens in the same
  state, or fail both, or suspend both.

In each pair the two ask the prompt equally often. -/
theorem scanners_agree (G : Rules Γ τ) (pred : τ → Bool) (s : Input τ) (ends : Bool)
    (chunks : List (List τ)) :
    InStep Coincide (fun _ _ => False) G s ends chunks (takeWhile pred) (many (satisfy pred)) ∧
    InStep Coincide (fun _ _ => False) G s ends chunks (skipWhile pred)
      (skipMany (satisfy pred)) ∧
    InStep Coincide Eq G s ends chunks (takeWhile1 pred) (many1 (satisfy pred)) ∧
    ∀ n : Int, InStep (fun s s' => s.closed = s'.closed) (fun s s' => s.closed = s'.closed) G s ends
      chunks (take n) (count n anyToken) :=
  ⟨inStep_takeWhile_many G pred s ends chunks, inStep_skipWhile_skipMany G pred s ends chunks,
    inStep_takeWhile1_many1 G pred s ends chunks, inStep_take_count G s ends chunks⟩

end Parser

end Piecemeal
