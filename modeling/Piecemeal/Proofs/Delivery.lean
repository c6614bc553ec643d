import Piecemeal.Source
import Piecemeal.Proofs.Chunking
import Piecemeal.Proofs.EndOfStream
import Piecemeal.Proofs.Resuming

/-!
# Ways of delivering a stream

The chunks of a stream and its end reach a parse in one of three ways: the caller feeds them, a
prompt answers on the spot, or a source is asked for them. The plain loop is `Result.push`: feed the
next chunk while the parse waits, and tell it of the end when the chunks are used up. Everything
else comes to the same:

* a `Planned` delivery is made by the prompt or left to the caller, event by event; whatever the
  plan, the parse ends as with the loop (`stage_passage_plan`), because nothing is asked for after
  the end;
* a prompt that holds all the chunks takes from them what the loop takes (`settleWith_chunks`);
* so does a source (`drawFrom_chunks`), and one that raises a fault stops the parse just where the
  loop would ask for that element (`drawFrom_fault`).
-/

namespace Piecemeal

variable {ι : Type} {Γ : ι → Type} {τ α : Type}

namespace Result

/-- Feeds a parse the next chunk as long as it waits, and ends it when the chunks are used up. The
answer comes with the number of chunks taken. -/
def push : List (List τ) → Result τ α → Option (Verdict τ α) × Nat
  | _, .done verdict => (some verdict, 0)
  | _, .exhausted => (none, 0)
  | [], .await input onEnd onChunk => (finish (.await input onEnd onChunk), 0)
  | chunk :: left, .await input onEnd onChunk =>
    let (answer, taken) := push left (feed chunk (.await input onEnd onChunk))
    (answer, taken + 1)

theorem push_done (verdict : Verdict τ α) (chunks : List (List τ)) :
    push chunks (.done verdict) = (some verdict, 0) := by
  cases chunks <;> rfl

theorem push_exhausted (chunks : List (List τ)) :
    push chunks (.exhausted : Result τ α) = (none, 0) := by
  cases chunks <;> rfl

theorem push_await (chunk : List τ) (left : List (List τ)) (input : Input τ)
    (onEnd : Unit → Parse τ α) (onChunk : List τ → Parse τ α) :
    push (chunk :: left) (.await input onEnd onChunk) =
      ((push left (onChunk chunk).settle).1, (push left (onChunk chunk).settle).2 + 1) := rfl

theorem push_nil (r : Result τ α) : r.push [] = (r.finish, 0) := by
  cases r <;> rfl

theorem push_le (chunks : List (List τ)) (r : Result τ α) : (r.push chunks).2 ≤ chunks.length := by
  induction chunks generalizing r with
  | nil =>
    rw [push_nil]
    exact Nat.le_refl 0
  | cons chunk left ih =>
    cases r with
    | done verdict => exact Nat.zero_le _
    | exhausted => exact Nat.zero_le _
    | await input onEnd onChunk => exact Nat.succ_le_succ (ih _)

theorem finish_ofAnswer (answer : Option (Verdict τ α)) :
    finish (.ofAnswer answer) = answer := by
  cases answer <;> rfl

end Result

/-! ## Prompt and caller taking turns -/

def Resumption.reply : Resumption τ → Reply τ
  | chunk tokens => .chunk tokens
  | ended => .ended

/-- An event of a stream, delivered by the prompt on the spot or else, once that has handed back
control, by the caller. -/
structure Planned (τ : Type) where
  event : Resumption τ
  onTheSpot : Bool

namespace Planned

def reply (delivery : Planned τ) : Reply τ :=
  if delivery.onTheSpot then delivery.event.reply else .handBack

/-- The prompt's part of a plan. -/
def prompt (plan : List (Planned τ)) : Prompt τ := ⟨plan.map reply, .handBack, 0⟩

/-- The caller's part of a plan. -/
def supplied (plan : List (Planned τ)) : List (Resumption τ) :=
  (plan.filter fun delivery => !delivery.onTheSpot).map event

end Planned

theorem Run.Quiet.stage_passage {r : Parse τ α} (h : r.Quiet) (prompt : Prompt τ)
    (events : List (Resumption τ)) : (r.passage prompt events).stage = .ofAnswer r.finish := by
  rw [passage, h.settleWith]
  cases r.finish with
  | none => rw [Stage.ofAnswer, Stage.resumed_exhausted]
  | some verdict => rw [Stage.ofAnswer, Stage.resumed_done]

/-- However the events are shared between prompt and caller, a parse that is over once it is told of
the end stops where the loop does. -/
theorem stage_passage_plan {r : Parse τ α}
    (hr : ∀ replies input onEnd onChunk, r.Reaches replies (.await input onEnd onChunk) →
      (onEnd ()).Quiet)
    {plan : List (Planned τ)} {chunks : List (List τ)} (asked : Nat)
    (hplan : plan.map Planned.event = chunks.map .chunk ++ [.ended]) :
    (r.passage ⟨plan.map Planned.reply, .handBack, asked⟩ (Planned.supplied plan)).stage =
      .ofAnswer (Result.push chunks r.settle).1 := by
  induction r generalizing plan chunks asked with
  | done verdict =>
    rw [Run.passage, Run.settleWith, Stage.resumed_done, Run.settle, Result.push_done]
    rfl
  | exhausted =>
    rw [Run.passage, Run.settleWith, Stage.resumed_exhausted, Run.settle, Result.push_exhausted]
    rfl
  | later next ih =>
    refine ih () ?_ asked hplan
    intro replies input onEnd onChunk h
    exact hr _ _ _ _ (.later h)
  | await input onEnd onChunk ihEnd ihChunk =>
    cases plan with
    | nil => simp at hplan
    | cons delivery plan =>
      obtain ⟨event, onTheSpot⟩ := delivery
      cases chunks with
      | nil =>
        obtain ⟨hevent, -⟩ := List.cons.inj hplan
        have hquiet : (onEnd ()).Quiet := hr _ _ _ _ (.here _)
        simp only at hevent
        subst hevent
        cases onTheSpot with
        | true => exact hquiet.stage_passage _ _
        | false => exact hquiet.stage_passage _ _
      | cons chunk left =>
        obtain ⟨hevent, hplan⟩ := List.cons.inj hplan
        have hlater : ∀ replies input e c,
            (onChunk chunk).Reaches replies (.await input e c) → (e ()).Quiet := by
          intro replies input e c h
          exact hr _ _ _ _ (.chunk chunk h)
        have hnext := ihChunk chunk hlater (asked + 1) hplan
        simp only at hevent
        subst hevent
        cases onTheSpot with
        | true => exact hnext
        | false => exact hnext

/-! ## A prompt that holds the chunks -/

theorem settleWith_chunks (r : Parse τ α) (chunks : List (List τ)) (asked : Nat) :
    ∃ asked', r.settleWith ⟨chunks.map .chunk, .ended, asked⟩ =
      (.ofAnswer (Result.push chunks r.settle).1,
        ⟨(chunks.drop (Result.push chunks r.settle).2).map .chunk, .ended, asked'⟩) := by
  induction r generalizing chunks asked with
  | done verdict =>
    rw [Run.settle, Result.push_done]
    exact ⟨asked, rfl⟩
  | exhausted =>
    rw [Run.settle, Result.push_exhausted]
    exact ⟨asked, rfl⟩
  | later next ih => exact ih () chunks asked
  | await input onEnd onChunk ihEnd ihChunk =>
    cases chunks with
    | nil =>
      obtain ⟨asked', h⟩ := ihEnd () [] (asked + 1)
      rw [Result.push_nil, Result.finish_settle] at h
      exact ⟨asked', h⟩
    | cons chunk left => exact ihChunk chunk left (asked + 1)

/-! ## A source -/

namespace Result

theorem drawFrom_chunks (pulled received : Nat) (chunks : List (List τ)) (r : Result τ α) :
    (r.drawFrom pulled received (chunks.map .chunk)).answer = .ok (r.push chunks).1 ∧
      (r.drawFrom pulled received (chunks.map .chunk)).pulled = pulled + (r.push chunks).2 := by
  induction chunks generalizing r pulled received with
  | nil => cases r <;> exact ⟨rfl, rfl⟩
  | cons chunk left ih =>
    cases r with
    | done verdict => exact ⟨rfl, rfl⟩
    | exhausted => exact ⟨rfl, rfl⟩
    | await input onEnd onChunk =>
      obtain ⟨hanswer, hpulled⟩ := ih (pulled + 1) (received + chunk.length) (onChunk chunk).settle
      refine ⟨hanswer, hpulled.trans ?_⟩
      rw [push_await]
      omega

/-- The end of the source is asked for where the loop would go on to a further chunk. -/
theorem drawFrom_ended (pulled received : Nat) (chunks : List (List τ)) (r : Result τ α)
    (chunk : List τ) (more : List (List τ)) :
    (r.drawFrom pulled received (chunks.map .chunk)).ended = true ↔
      chunks.length < (r.push (chunks ++ chunk :: more)).2 := by
  induction chunks generalizing r pulled received with
  | nil =>
    cases r with
    | done verdict => exact ⟨nofun, nofun⟩
    | exhausted => exact ⟨nofun, nofun⟩
    | await input onEnd onChunk => exact ⟨fun _ => Nat.succ_pos _, fun _ => rfl⟩
  | cons first left ih =>
    cases r with
    | done verdict => exact ⟨nofun, nofun⟩
    | exhausted => exact ⟨nofun, nofun⟩
    | await input onEnd onChunk =>
      have hnext := ih (pulled + 1) (received + first.length) (onChunk first).settle
      exact hnext.trans Nat.succ_lt_succ_iff.symm

/-- A fault is met where the loop would ask for the chunk in its place. -/
theorem drawFrom_fault (pulled received : Nat) (chunks : List (List τ)) (message : String)
    (rest : Source τ) (r : Result τ α) (chunk : List τ) (more : List (List τ)) :
    (r.drawFrom pulled received (chunks.map .chunk ++ .fault message :: rest)).answer =
      if chunks.length < (r.push (chunks ++ chunk :: more)).2 then .error message
      else .ok (r.push (chunks ++ chunk :: more)).1 := by
  induction chunks generalizing r pulled received with
  | nil => cases r <;> rfl
  | cons first left ih =>
    cases r with
    | done verdict => rfl
    | exhausted => rfl
    | await input onEnd onChunk =>
      have hnext := ih (pulled + 1) (received + first.length) (onChunk first).settle
      refine hnext.trans ?_
      rw [List.cons_append, push_await]
      simp only [List.length_cons, Nat.succ_lt_succ_iff]

end Result

namespace Parser

theorem parseChunks_eq_push (G : Rules Γ τ) (budget : Nat) (p : Parser Γ τ α)
    (chunks : List (List τ)) :
    p.parseChunks G budget chunks = (p.parse G budget []).push chunks := by
  obtain ⟨asked, hsettled⟩ := settleWith_chunks (p.start G budget (.ofList [] false)) chunks 0
  have htaken := Result.push_le chunks (p.parse G budget [])
  rw [parseChunks, Prompt.chunks, Prompt.script, hsettled]
  simp only [Result.finish_ofAnswer, List.length_map, List.length_drop]
  change (((p.parse G budget []).push chunks).1,
    chunks.length - (chunks.length - ((p.parse G budget []).push chunks).2)) = _
  rw [Nat.sub_sub_self htaken]

/-- **All ways of delivery agree.** Let the chunks of a stream and then its end be delivered by a
prompt or by the caller, as it was planned for each of them: the parse ends as with the loop that
feeds one chunk after another while the parse waits and then ends it. Parsing chunks from a prompt
and from a source gives the answer of that loop and takes as many chunks. The source is asked at
most once for more than its chunks, namely where the loop would go on to a further chunk, and a
fault in the place of a chunk is raised where the loop would ask for that chunk. -/
theorem delivery_agrees (G : Rules Γ τ) (budget : Nat) (p : Parser Γ τ α) :
    (∀ (s : Input τ) (chunks : List (List τ)) (plan : List (Planned τ)),
      plan.map Planned.event = chunks.map .chunk ++ [.ended] →
        ((p.start G budget s).passage (Planned.prompt plan) (Planned.supplied plan)).stage =
          .ofAnswer ((p.parseInput G budget s).push chunks).1) ∧
    ∀ chunks : List (List τ),
      p.parseChunks G budget chunks = (p.parse G budget []).push chunks ∧
      (p.parseStream G budget (chunks.map .chunk)).answer =
        .ok ((p.parse G budget []).push chunks).1 ∧
      (p.parseStream G budget (chunks.map .chunk)).pulled =
        ((p.parse G budget []).push chunks).2 ∧
      (p.parseStream G budget (chunks.map .chunk)).pulled +
        (p.parseStream G budget (chunks.map .chunk)).ended.toNat ≤ chunks.length + 1 ∧
      ∀ chunk more,
        ((p.parseStream G budget (chunks.map .chunk)).ended = true ↔
          chunks.length < ((p.parse G budget []).push (chunks ++ chunk :: more)).2) ∧
        ∀ message rest,
          (p.parseStream G budget (chunks.map .chunk ++ .fault message :: rest)).answer =
            if chunks.length < ((p.parse G budget []).push (chunks ++ chunk :: more)).2
            then .error message
            else .ok ((p.parse G budget []).push (chunks ++ chunk :: more)).1 := by
  constructor
  · intro s chunks plan hplan
    refine stage_passage_plan ?_ 0 hplan
    intro replies input onEnd onChunk h
    exact (waits_of_start h).2
  · intro chunks
    obtain ⟨hanswer, hpulled⟩ := Result.drawFrom_chunks 0 0 chunks (p.parse G budget [])
    rw [Nat.zero_add] at hpulled
    refine ⟨parseChunks_eq_push G budget p chunks, hanswer, hpulled, ?_, ?_⟩
    · have hle := Result.push_le chunks (p.parse G budget [])
      have hended := Bool.toNat_le (p.parseStream G budget (chunks.map .chunk)).ended
      have htaken : (p.parseStream G budget (chunks.map .chunk)).pulled ≤ chunks.length :=
        Nat.le_trans (Nat.le_of_eq hpulled) hle
      omega
    · intro chunk more
      refine ⟨Result.drawFrom_ended 0 0 chunks _ chunk more, ?_⟩
      intro message rest
      exact Result.drawFrom_fault 0 0 chunks message rest _ chunk more

/-- All the rest of the stream, unless it begins with a nine: the second alternative sees the
chunks one by one that the first has pulled in. -/
def noNine : Parser Empty.elim Nat (List (List Nat)) :=
  ((satisfy (· == 9)).andThen (fail "nine")).alt takeRest

theorem delivery_agrees_noNine :
    ([⟨.chunk [], true⟩, ⟨.chunk [1, 2], false⟩, ⟨.chunk [3], true⟩, ⟨.ended, false⟩] :
      List (Planned Nat)).map Planned.event = [[], [1, 2], [3]].map .chunk ++ [.ended] ∧
    ∃ verdict, ((noNine.parse nofun 20 []).push [[], [1, 2], [3]]) = (some verdict, 3) ∧
      ((noNine.start nofun 20 (.ofList [] false)).passage
        (Planned.prompt [⟨.chunk [], true⟩, ⟨.chunk [1, 2], false⟩, ⟨.chunk [3], true⟩,
          ⟨.ended, false⟩])
        (Planned.supplied [⟨.chunk [], true⟩, ⟨.chunk [1, 2], false⟩, ⟨.chunk [3], true⟩,
          ⟨.ended, false⟩])).stage = .done verdict := by
  obtain ⟨verdict, hpush⟩ : ∃ verdict,
      ((noNine.parse nofun 20 []).push [[], [1, 2], [3]]) = (some verdict, 3) := ⟨_, rfl⟩
  refine ⟨rfl, verdict, hpush, ?_⟩
  have hstage := (delivery_agrees nofun 20 noNine).1 (.ofList [] false) [[], [1, 2], [3]]
    [⟨.chunk [], true⟩, ⟨.chunk [1, 2], false⟩, ⟨.chunk [3], true⟩, ⟨.ended, false⟩] rfl
  rw [← parse, hpush] at hstage
  exact hstage

end Parser

end Piecemeal
