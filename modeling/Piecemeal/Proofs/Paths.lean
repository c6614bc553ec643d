import Piecemeal.Prompt
import Piecemeal.Proofs.Outcome

/-!
# Paths through a run

A waiting run goes on when it is answered, on the spot by a prompt or later by whoever drives it.
`Run.Reaches r replies r'` says that `r`, answered by `replies` in this order and asking for every
one of them, comes to the node `r'`; a reply that hands control back leaves the run where it waits,
to be answered by the next one. So the replies of a path are all that has happened to the stream,
whoever delivered it:

* `delivered` is what has arrived on a path, and `endReported` whether the end was reported;
* `Run.Meets I Q r` says that `I` holds wherever `r` waits and `Q` wherever it is over, each
  together with the path to that place; there is one rule for each way to build a run (`meets_done`,
  `meets_later`, `meets_request`, `meets_bind`).
-/

namespace Piecemeal

variable {τ ρ σ : Type}

namespace Reply

def tokens : Reply τ → List τ
  | chunk tokens => tokens
  | ended | handBack => []

def isEnd : Reply τ → Bool
  | ended => true
  | chunk _ | handBack => false

end Reply

/-- The tokens that arrive with the given replies. -/
def delivered (replies : List (Reply τ)) : List τ := replies.flatMap Reply.tokens

/-- Whether one of the given replies reports the end of the stream. -/
def endReported (replies : List (Reply τ)) : Bool := replies.any Reply.isEnd

@[simp] theorem delivered_nil : delivered ([] : List (Reply τ)) = [] := rfl

@[simp] theorem delivered_cons (reply : Reply τ) (replies : List (Reply τ)) :
    delivered (reply :: replies) = reply.tokens ++ delivered replies := rfl

@[simp] theorem delivered_append (first second : List (Reply τ)) :
    delivered (first ++ second) = delivered first ++ delivered second := by
  simp [delivered]

@[simp] theorem endReported_nil : endReported ([] : List (Reply τ)) = false := rfl

@[simp] theorem endReported_cons (reply : Reply τ) (replies : List (Reply τ)) :
    endReported (reply :: replies) = (reply.isEnd || endReported replies) := rfl

@[simp] theorem endReported_append (first second : List (Reply τ)) :
    endReported (first ++ second) = (endReported first || endReported second) := by
  simp [endReported]

/-- Replies that leave the stream as it is: control was handed back, or an empty chunk came. -/
def Idle (replies : List (Reply τ)) : Prop := delivered replies = [] ∧ endReported replies = false

theorem idle_nil : Idle ([] : List (Reply τ)) := ⟨rfl, rfl⟩

theorem idle_handBack {replies : List (Reply τ)} (h : Idle replies) : Idle (.handBack :: replies) :=
  h

theorem Idle.append_chunk_nil {idle replies : List (Reply τ)} (h : Idle idle) (h' : Idle replies) :
    Idle (idle ++ .chunk [] :: replies) := by
  constructor
  · simp [h.1, h'.1, Reply.tokens]
  · simp [h.2, h'.2, Reply.isEnd]

namespace Input

/-- The input as the given replies leave it, as long as nothing is consumed. -/
def after (s : Input τ) (replies : List (Reply τ)) : Input τ where
  remaining := s.remaining ++ .ofList (delivered replies)
  closed := s.closed || endReported replies
  arrived := s.arrived.map (· ++ .ofList (delivered replies))

@[simp] theorem after_nil (s : Input τ) : s.after [] = s := by
  ext1 <;> simp [after]

theorem after_append (s : Input τ) (first second : List (Reply τ)) :
    s.after (first ++ second) = (s.after first).after second := by
  ext1
  · simp only [after, delivered_append, Buffer.append_ofList_append]
  · simp only [after, endReported_append, Bool.or_assoc]
  · simp only [after, delivered_append, Buffer.append_ofList_append, Option.map_map,
      Function.comp_def]

theorem after_idle_append (s : Input τ) {idle : List (Reply τ)} (h : Idle idle)
    (replies : List (Reply τ)) : s.after (idle ++ replies) = s.after replies := by
  simp only [after, delivered_append, endReported_append, h.1, h.2, List.nil_append, Bool.false_or]

theorem after_ended (s : Input τ) : s.after [.ended] = s.close := by
  ext1 <;> simp [close, after, Reply.tokens, Reply.isEnd]

theorem after_chunk (s : Input τ) {chunk : List τ} (h : chunk ≠ []) :
    s.receive? chunk = some (s.after [.chunk chunk]) := by
  rw [s.receive?_of_ne_nil h]
  simp [after, Reply.tokens, Reply.isEnd]

end Input

namespace Run

/-- The nodes a run comes to, with the replies it was given on the way. -/
inductive Reaches : Run τ ρ → List (Reply τ) → Run τ ρ → Prop
  | here (r : Run τ ρ) : Reaches r [] r
  | later {next : Unit → Run τ ρ} {replies : List (Reply τ)} {r : Run τ ρ}
      (rest : Reaches (next ()) replies r) : Reaches (.later next) replies r
  | ended {input : Input τ} {onEnd : Unit → Run τ ρ} {onChunk : List τ → Run τ ρ}
      {replies : List (Reply τ)} {r : Run τ ρ} (rest : Reaches (onEnd ()) replies r) :
      Reaches (.await input onEnd onChunk) (.ended :: replies) r
  | chunk {input : Input τ} {onEnd : Unit → Run τ ρ} {onChunk : List τ → Run τ ρ}
      {replies : List (Reply τ)} {r : Run τ ρ} (tokens : List τ)
      (rest : Reaches (onChunk tokens) replies r) :
      Reaches (.await input onEnd onChunk) (.chunk tokens :: replies) r
  | handBack {input : Input τ} {onEnd : Unit → Run τ ρ} {onChunk : List τ → Run τ ρ}
      {replies : List (Reply τ)} {r : Run τ ρ}
      (rest : Reaches (.await input onEnd onChunk) replies r) :
      Reaches (.await input onEnd onChunk) (.handBack :: replies) r

theorem Reaches.trans {r₁ r₂ r₃ : Run τ ρ} {first second : List (Reply τ)}
    (h₁ : Reaches r₁ first r₂) (h₂ : Reaches r₂ second r₃) : Reaches r₁ (first ++ second) r₃ := by
  induction h₁ with
  | here => exact h₂
  | later _ ih => exact .later (ih h₂)
  | ended _ ih => exact .ended (ih h₂)
  | chunk tokens _ ih => exact .chunk tokens (ih h₂)
  | handBack _ ih => exact .handBack (ih h₂)

theorem Reaches.bind {r r' : Run τ ρ} {replies : List (Reply τ)} (h : Reaches r replies r')
    (f : ρ → Run τ σ) : Reaches (r.bind f) replies (r'.bind f) := by
  induction h with
  | here => exact .here _
  | later _ ih => exact .later ih
  | ended _ ih => exact .ended ih
  | chunk tokens _ ih => exact .chunk tokens ih
  | handBack _ ih => exact .handBack ih

/-- A path through `r.bind f` stays inside `r`, or goes through `r` to an answer and on from
there. -/
theorem Reaches.of_bind {r : Run τ ρ} {f : ρ → Run τ σ} {replies : List (Reply τ)} {n : Run τ σ}
    (h : Reaches (r.bind f) replies n) :
    (∃ r', Reaches r replies r' ∧ (∀ a, r' ≠ .done a) ∧ n = r'.bind f) ∨
      ∃ first second a, replies = first ++ second ∧ Reaches r first (.done a) ∧
        Reaches (f a) second n := by
  induction r generalizing replies with
  | done a => exact .inr ⟨[], replies, a, rfl, .here _, h⟩
  | exhausted =>
    cases h
    exact .inl ⟨_, .here _, nofun, rfl⟩
  | later next ih =>
    cases h with
    | here => exact .inl ⟨_, .here _, nofun, rfl⟩
    | later rest =>
      rcases ih () rest with ⟨r', h, hr', rfl⟩ | ⟨first, second, a, rfl, h, hf⟩
      · exact .inl ⟨r', .later h, hr', rfl⟩
      · exact .inr ⟨first, second, a, rfl, .later h, hf⟩
  | await input onEnd onChunk ihEnd ihChunk =>
    -- handing back stays at this node, so the path is inverted by an induction of its own
    induction replies with
    | nil =>
      cases h
      exact .inl ⟨_, .here _, nofun, rfl⟩
    | cons reply replies ih =>
      cases h with
      | ended rest =>
        rcases ihEnd () rest with ⟨r', h, hr', rfl⟩ | ⟨first, second, a, rfl, h, hf⟩
        · exact .inl ⟨r', .ended h, hr', rfl⟩
        · exact .inr ⟨.ended :: first, second, a, rfl, .ended h, hf⟩
      | chunk tokens rest =>
        rcases ihChunk tokens rest with ⟨r', h, hr', rfl⟩ | ⟨first, second, a, rfl, h, hf⟩
        · exact .inl ⟨r', .chunk tokens h, hr', rfl⟩
        · exact .inr ⟨.chunk tokens :: first, second, a, rfl, .chunk tokens h, hf⟩
      | handBack rest =>
        rcases ih rest with ⟨r', h, hr', rfl⟩ | ⟨first, second, a, rfl, h, hf⟩
        · exact .inl ⟨r', .handBack h, hr', rfl⟩
        · exact .inr ⟨.handBack :: first, second, a, rfl, .handBack h, hf⟩

/-! ## What holds along every path -/

/-- Wherever the run waits `I` holds, and wherever it is over `Q` does, both with the replies that
led there. -/
structure Meets (I : List (Reply τ) → Input τ → Prop) (Q : List (Reply τ) → ρ → Prop)
    (r : Run τ ρ) : Prop where
  waits : ∀ {replies input onEnd onChunk},
    r.Reaches replies (.await input onEnd onChunk) → I replies input
  ends : ∀ {replies a}, r.Reaches replies (.done a) → Q replies a

variable {I I' : List (Reply τ) → Input τ → Prop} {Q Q' : List (Reply τ) → ρ → Prop}

theorem meets_mono {r : Run τ ρ} (h : r.Meets I Q) (hI : ∀ replies input, I replies input →
    I' replies input) (hQ : ∀ replies a, Q replies a → Q' replies a) : r.Meets I' Q' :=
  ⟨fun hr => hI _ _ (h.waits hr), fun hr => hQ _ _ (h.ends hr)⟩

theorem meets_exhausted : (exhausted : Run τ ρ).Meets I Q := by
  constructor <;> intros <;> contradiction

theorem meets_done {a : ρ} (h : Q [] a) : (done a).Meets I Q := by
  constructor
  · intro replies input onEnd onChunk hr
    cases hr
  · intro replies a' hr
    cases hr
    exact h

theorem meets_later {next : Unit → Run τ ρ} (h : (next ()).Meets I Q) :
    (later next).Meets I Q := by
  constructor
  · intro replies input onEnd onChunk hr
    cases hr with
    | later rest => exact h.waits rest
  · intro replies a hr
    cases hr with
    | later rest => exact h.ends rest

theorem meets_bind {R : List (Reply τ) → σ → Prop} {r : Run τ ρ} {f : ρ → Run τ σ}
    (hr : r.Meets I Q) (hf : ∀ first a, Q first a →
      (f a).Meets (fun second => I (first ++ second)) (fun second => R (first ++ second))) :
    (r.bind f).Meets I R := by
  constructor
  · intro replies input onEnd onChunk h
    rcases h.of_bind with ⟨r', h', hr', hn⟩ | ⟨first, second, a, rfl, h, hfa⟩
    · cases r' with
      | done a => exact absurd rfl (hr' a)
      | await => cases hn; exact hr.waits h'
      | later => cases hn
      | exhausted => cases hn
    · exact (hf _ _ (hr.ends h)).waits hfa
  · intro replies b h
    rcases h.of_bind with ⟨r', h', hr', hn⟩ | ⟨first, second, a, rfl, h, hfa⟩
    · cases r' with
      | done a => exact absurd rfl (hr' a)
      | await => cases hn
      | later => cases hn
      | exhausted => cases hn
    · exact (hf _ _ (hr.ends h)).ends hfa

/-- A waiting run may be handed back any number of times before it is answered. -/
theorem Reaches.of_await {input : Input τ} {onEnd : Unit → Run τ ρ} {onChunk : List τ → Run τ ρ}
    {replies : List (Reply τ)} {n : Run τ ρ} (h : (await input onEnd onChunk).Reaches replies n) :
    ∃ idle rest, Idle idle ∧ replies = idle ++ rest ∧
      ((rest = [] ∧ n = await input onEnd onChunk) ∨
        (∃ es, rest = .ended :: es ∧ (onEnd ()).Reaches es n) ∨
        ∃ tokens es, rest = .chunk tokens :: es ∧ (onChunk tokens).Reaches es n) := by
  induction replies with
  | nil =>
    cases h
    exact ⟨[], [], idle_nil, rfl, .inl ⟨rfl, rfl⟩⟩
  | cons reply replies ih =>
    cases h with
    | ended rest => exact ⟨[], _, idle_nil, rfl, .inr (.inl ⟨_, rfl, rest⟩)⟩
    | chunk tokens rest => exact ⟨[], _, idle_nil, rfl, .inr (.inr ⟨_, _, rfl, rest⟩)⟩
    | handBack rest =>
      obtain ⟨idle, rest', hidle, rfl, hrest⟩ := ih rest
      exact ⟨.handBack :: idle, rest', idle_handBack hidle, rfl, hrest⟩

theorem meets_await {input : Input τ} {onEnd : Unit → Run τ ρ} {onChunk : List τ → Run τ ρ}
    (hwait : ∀ idle, Idle idle → I idle input)
    (hend : ∀ idle, Idle idle → (onEnd ()).Meets (fun es => I (idle ++ .ended :: es))
      (fun es => Q (idle ++ .ended :: es)))
    (hchunk : ∀ idle tokens, Idle idle → (onChunk tokens).Meets
      (fun es => I (idle ++ .chunk tokens :: es)) (fun es => Q (idle ++ .chunk tokens :: es))) :
    (await input onEnd onChunk).Meets I Q := by
  constructor
  · intro replies i e c h
    obtain ⟨idle, rest, hidle, rfl, ⟨rfl, hn⟩ | ⟨es, rfl, h'⟩ | ⟨tokens, es, rfl, h'⟩⟩ :=
      h.of_await
    · cases hn
      exact (List.append_nil idle).symm ▸ hwait idle hidle
    · exact (hend idle hidle).waits h'
    · exact (hchunk idle tokens hidle).waits h'
  · intro replies a h
    obtain ⟨idle, rest, hidle, rfl, ⟨rfl, hn⟩ | ⟨es, rfl, h'⟩ | ⟨tokens, es, rfl, h'⟩⟩ :=
      h.of_await
    · cases hn
    · exact (hend idle hidle).ends h'
    · exact (hchunk idle tokens hidle).ends h'

/-- A request waits in the state it was made in until a chunk with a token or the end arrives. -/
theorem meets_request {s : Input τ} {onEnd onChunk : Input τ → Run τ ρ} (budget : Nat)
    (hwait : ∀ idle, Idle idle → I idle s)
    (hend : ∀ first, delivered first = [] → endReported first = true →
      (onEnd (s.after first)).Meets (fun es => I (first ++ es)) (fun es => Q (first ++ es)))
    (hchunk : ∀ first, delivered first ≠ [] → endReported first = false →
      (onChunk (s.after first)).Meets (fun es => I (first ++ es)) (fun es => Q (first ++ es))) :
    (request s onEnd onChunk budget).Meets I Q := by
  induction budget generalizing I Q with
  | zero => exact meets_exhausted
  | succ budget ih =>
    refine meets_await hwait (fun idle hidle => meets_later ?_) fun idle tokens hidle => ?_
    · have h := hend (idle ++ [.ended]) (by simp [hidle.1, Reply.tokens]) (by simp [Reply.isEnd])
      rw [s.after_idle_append hidle, s.after_ended] at h
      simpa only [List.append_assoc, List.singleton_append] using h
    · by_cases hne : tokens = []
      · -- the request is made again, and what was answered so far is idle
        subst hne
        have hidle' : Idle (idle ++ [.chunk []]) := hidle.append_chunk_nil idle_nil
        refine meets_later (ih ?_ ?_ ?_)
        · intro more hmore
          exact hwait _ (hidle.append_chunk_nil hmore)
        · intro first hfirst hreported
          have h := hend ((idle ++ [.chunk []]) ++ first)
            (by rw [delivered_append, hidle'.1, hfirst]; rfl) (by simp [hreported])
          rw [s.after_idle_append hidle'] at h
          simpa only [List.append_assoc, List.cons_append, List.nil_append] using h
        · intro first hfirst hreported
          have h := hchunk ((idle ++ [.chunk []]) ++ first) (by simp [hfirst])
            (by simp [hidle.2, hreported, Reply.isEnd])
          rw [s.after_idle_append hidle'] at h
          simpa only [List.append_assoc, List.cons_append, List.nil_append] using h
      · have h := hchunk (idle ++ [.chunk tokens]) (by simp [Reply.tokens, hne])
          (by simp [hidle.2, Reply.isEnd])
        rw [s.after_idle_append hidle] at h
        simp only [s.after_chunk hne]
        refine meets_later ?_
        simpa only [List.append_assoc, List.singleton_append] using h

end Run

/-! ## Asking for input -/

namespace Parser

open Run

variable {ι : Type} {Γ : ι → Type}

/-- Asking for input waits in the state it was asked in, and consumes nothing. -/
theorem meets_demandInput (G : Rules Γ τ) (budget : Nat) (s : Input τ) :
    (demandInput.outcome G budget s).Meets (fun replies i => Idle replies ∧ i = s)
      fun replies o => o.input = s.after replies := by
  cases budget with
  | zero => exact meets_exhausted
  | succ budget =>
    rw [outcome_demandInput]
    split
    · exact meets_later (meets_done s.after_nil.symm)
    · refine meets_request budget (fun idle h => ⟨h, rfl⟩) ?_ ?_
      · exact fun first _ _ => meets_done (by rw [List.append_nil]; rfl)
      · exact fun first _ _ => meets_done (by rw [List.append_nil]; rfl)

theorem meets_wantInput (G : Rules Γ τ) (budget : Nat) (s : Input τ) :
    (wantInput.outcome G budget s).Meets (fun replies i => Idle replies ∧ i = s)
      fun replies o => o.input = s.after replies := by
  cases budget with
  | zero => exact meets_exhausted
  | succ budget =>
    rw [outcome_wantInput]
    split
    · exact meets_later (meets_done s.after_nil.symm)
    · split
      · exact meets_later (meets_done s.after_nil.symm)
      · refine meets_request budget (fun idle h => ⟨h, rfl⟩) ?_ ?_
        · exact fun first _ _ => meets_done (by rw [List.append_nil]; rfl)
        · exact fun first _ _ => meets_done (by rw [List.append_nil]; rfl)

end Parser

end Piecemeal
