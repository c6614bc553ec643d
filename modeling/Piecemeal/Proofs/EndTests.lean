import Piecemeal.Proofs.LeastReading

/-!
# The two tests for the end of the stream

`endOfInput` looks for a token under a checkpoint of its own and is content if there is none, and
`atEnd` asks whether there is input and denies the answer. Yet both ask for chunks until one brings
a token or the end is known, and then answer by what remains, which stays (`Parser.Glances`); so
they agree in every respect, the record included, and neither has anything left to ask when it is
run again (`end_tests_agree`).
-/

namespace Piecemeal

variable {ι : Type} {Γ : ι → Type} {τ α β ρ : Type}

open Input

/-! ## How far a single token is looked for -/

section Extent

variable {s : Input τ} {chunks : List (List τ)} {k : Nat} {ended : Bool}

theorem countP_of_flatten_eq_nil (h : chunks.flatten = []) : chunks.countP (!·.isEmpty) = 0 := by
  rw [List.countP_eq_zero]
  intro chunk hchunk
  simp [List.flatten_eq_nil_iff.mp h chunk hchunk]

/-- A reader who looks for a token takes one chunk that is not empty at most. -/
theorem Input.Extent.countP_le_one (h : s.Extent (atLeast 1) chunks k ended) :
    (chunks.take k).countP (!·.isEmpty) ≤ 1 := by
  have hnone : ∀ {j}, atLeast 1 (s.ahead (chunks.take j)) = false →
      (chunks.take j).countP (!·.isEmpty) = 0 := by
    intro j hj
    rw [atLeast_one_eq_false_iff, ahead, List.append_eq_nil_iff] at hj
    exact countP_of_flatten_eq_nil hj.2
  cases h with
  | all h =>
    rw [hnone (h chunks.length)]
    exact Nat.zero_le 1
  | least h =>
    cases k with
    | zero => exact Nat.zero_le 1
    | succ j =>
      have hshort : atLeast 1 (s.ahead (chunks.take j)) = false := by
        rw [Bool.eq_false_iff]
        intro hj
        exact Nat.not_succ_le_self j (h.2 hj)
      rw [List.take_add_one, List.countP_append, hnone hshort, Nat.zero_add]
      refine Nat.le_trans List.countP_le_length ?_
      cases chunks[j]? with
      | none => exact Nat.zero_le 1
      | some chunk => exact Nat.le_refl 1

/-- A reader who looks for a token and has one takes nothing. -/
theorem Input.Extent.eq_zero (h : s.Extent (atLeast 1) chunks k ended)
    (hs : s.remaining.isEmpty = false) : k = 0 ∧ ended = false := by
  have hzero : atLeast 1 (s.ahead (chunks.take 0)) = true := by
    rw [List.take_zero, ahead_nil]
    exact (isEmpty_remaining_eq_false_iff s).mp hs
  cases h with
  | all h => exact absurd hzero (Bool.eq_false_iff.mp (h 0))
  | least h => exact ⟨Nat.le_zero.mp (h.2 hzero), rfl⟩

theorem Input.Extent.isEmpty_pull (h : s.Extent (atLeast 1) chunks k ended) :
    (s.pull chunks k ended).remaining.isEmpty = (s.ahead chunks).isEmpty := by
  rw [Buffer.isEmpty_eq, toList_remaining_pull, ← ahead_take_append s chunks k]
  rcases h.enough_or with henough | hrest
  · have hne := (atLeast_one_iff _).mp henough
    have hne' := List.append_ne_nil_of_left_ne_nil hne (chunks.drop k).flatten
    rw [List.isEmpty_eq_false_iff.mpr hne, List.isEmpty_eq_false_iff.mpr hne']
  · rw [hrest, List.append_nil]

end Extent

/-! ## Parsers that glance at the input -/

/-- A run that comes to its answer with nothing delivered asks nobody. -/
theorem Run.settleWith_of_along_nil {r : Run τ ρ} {a : ρ} {left : List (List τ)}
    (h : r.along false [] = some (.done a left)) (prompt : Prompt τ) :
    r.settleWith prompt = (.done a, prompt) := by
  induction r with
  | done a' =>
    cases h
    rfl
  | later next ih => exact ih () h
  | await input onEnd onChunk => cases h
  | exhausted => cases h

namespace Parser

section EndTests

variable (ends : Bool) (G : Rules Γ τ) (s : Input τ) (chunks : List (List τ))

theorem glances_atEnd : atEnd.Glances ends G s chunks fun rest => .ok rest.isEmpty := by
  have hwant := glances_wantInput ends G s chunks
  refine (hwant.map (! ·) fun rest => ?_).of_halts fun halt => halts_total
  rw [Except.map, Bool.not_not]

theorem glances_option_endOfInput :
    (option false (map (fun _ => true) endOfInput)).Glances ends G s chunks
      fun rest => .ok rest.isEmpty := by
  have hend := glances_endOfInput ends G s.checkpoint chunks
  refine (hend.map (fun _ => true) fun rest => rfl).option false fun rest => ?_
  cases rest.isEmpty <;> rfl

end EndTests

/-! ## What a glance comes to -/

section Uses

variable {G : Rules Γ τ} {p q : Parser Γ τ α} {s : Input τ} {chunks : List (List τ)}
  {test : Buffer τ → Except Failure α}

theorem inStep_of_glances {ends : Bool} {value : Buffer τ → α}
    (hp : p.Glances ends G s chunks fun rest => .ok (value rest))
    (hq : q.Glances ends G s chunks fun rest => .ok (value rest)) :
    InStep Coincide (fun _ _ => False) G s ends chunks p q := by
  cases hfill : s.fill (atLeast 1) ends chunks with
  | done s' left =>
    exact inStep_of_match (hp.done hfill) (hq.done hfill) (.done (.success _ _) left) nofun
  | waiting s' =>
    obtain ⟨record, hp⟩ := hp.waiting hfill
    obtain ⟨record', hq⟩ := hq.waiting hfill
    exact inStep_of_match hp hq (.waiting ⟨rfl, rfl⟩) nofun

/-- With every large enough budget the parser is over with `o`, and whatever the prompt, it is not
asked. -/
def SettlesUnasked (G : Rules Γ τ) (p : Parser Γ τ α) (s : Input τ) (o : Outcome τ α) : Prop :=
  ∃ least, ∀ budget, least ≤ budget → ∀ prompt,
    (p.outcome G budget s).settleWith prompt = (.done o, prompt)

/-- A parser that glances has nothing to ask where there is a token or the end is known. -/
theorem Glances.settlesUnasked (hp : p.Glances false G s [] test)
    (hready : s.ready (atLeast 1) = true) : p.SettlesUnasked G s (s.look test) := by
  obtain ⟨least, hp⟩ := hp.done (fill_of_ready hready [])
  exact ⟨least, fun budget hle => Run.settleWith_of_along_nil (hp budget hle)⟩

/-- The parser takes `k` chunks, and the end too if `ended`, and comes to `o`. Run again where it
ended, it comes to `o` again and asks nobody. -/
def PullsOnce (G : Rules Γ τ) (p : Parser Γ τ α) (s : Input τ) (chunks : List (List τ)) (k : Nat)
    (ended : Bool) (o : Outcome τ α) : Prop :=
  p.Pulls G s chunks k ended o ∧ p.SettlesUnasked G o.input o

theorem pullsOnce_of_glances (hp : ∀ ends s chunks, p.Glances ends G s chunks test) {k : Nat}
    {ended : Bool} (hextent : s.Extent (atLeast 1) (s.future chunks) k ended)
    (hfill : s.fill (atLeast 1) true chunks =
      .done (s.pull (s.future chunks) k ended) (chunks.drop k)) :
    p.PullsOnce G s chunks k ended ((s.pull (s.future chunks) k ended).look test) := by
  have hready := (filled_of_fill hfill).ready
  have hsame := input_look test (s.pull (s.future chunks) k ended)
  constructor
  · refine pulls_of_halts hextent ((hp true s chunks).done hfill) ?_
    rw [hsame]
    rfl
  · rw [hsame]
    exact (hp false _ []).settlesUnasked hready

end Uses

/-- **The tests for the end agree and never consume.** Let `s` be any state, and let the stream go
on with any chunks and then end, or with nothing if `s` knows of the end. `endOfInput`, `atEnd` and
`wantInput` take the same chunks: as many as it takes to have a token, so that one of them is not
empty at most, and none if a token has arrived already. They leave what remained and what they have
taken, and tell whether there is any token ahead. Run again in the state in which they end, each of
them answers the same and asks nobody.

Moreover `endOfInput` as an option and `atEnd` settle alike, with a stream that ends and with one
that is not over, and have asked equally often. -/
theorem end_tests_agree (G : Rules Γ τ) (s : Input τ) (chunks : List (List τ)) :
    (∃ k ended s', s.Extent (atLeast 1) (s.future chunks) k ended ∧
      ((s.future chunks).take k).countP (!·.isEmpty) ≤ 1 ∧
      (s.remaining.isEmpty = false → k = 0 ∧ ended = false) ∧
      s' = s.pull (s.future chunks) k ended ∧
      endOfInput.PullsOnce G s chunks k ended (if (s.outlook chunks).isEmpty then .success s' ()
        else .failure s' ⟨[], "end-of-input"⟩) ∧
      atEnd.PullsOnce G s chunks k ended (.success s' (s.outlook chunks).isEmpty) ∧
      wantInput.PullsOnce G s chunks k ended (.success s' !(s.outlook chunks).isEmpty)) ∧
    ∀ ends, InStep Coincide (fun _ _ => False) G s ends chunks
      (option false (map (fun _ => true) endOfInput)) atEnd := by
  constructor
  · obtain ⟨k, ended, hextent, hfill⟩ := exists_fill (atLeast 1) s chunks
    have hempty := hextent.isEmpty_pull
    have hend := pullsOnce_of_glances (fun ends => glances_endOfInput ends G) hextent hfill
    have hatEnd := pullsOnce_of_glances (fun ends => glances_atEnd ends G) hextent hfill
    have hwant := pullsOnce_of_glances (fun ends => glances_wantInput ends G) hextent hfill
    refine ⟨k, ended, _, hextent, hextent.countP_le_one, hextent.eq_zero, rfl, ?_, ?_, ?_⟩
    · rw [look, hempty] at hend
      rw [outlook]
      cases h : (s.ahead (s.future chunks)).isEmpty with
      | true => rwa [h] at hend
      | false => rwa [h] at hend
    · rwa [look, hempty] at hatEnd
    · rwa [look, hempty] at hwant
  · intro ends
    exact inStep_of_glances (glances_option_endOfInput ends G s chunks)
      (glances_atEnd ends G s chunks)

/-- With a token there, inside a checkpoint, the test fails and leaves the stream alone. -/
theorem end_tests_agree_buffered :
    (endOfInput : Parser Empty.elim Nat Unit).PullsOnce nofun ⟨.ofList [1], false, some .empty⟩
      [[2]] 0 false (.failure ⟨.ofList [1], false, some .empty⟩ ⟨[], "end-of-input"⟩) := by
  obtain ⟨⟨k, ended, s', -, -, hnone, rfl, hend, -⟩, -⟩ := end_tests_agree
    (nofun : Rules Empty.elim Nat) ⟨.ofList [1], false, some .empty⟩ [[2]]
  obtain ⟨rfl, rfl⟩ := hnone rfl
  rw [pull_zero] at hend
  exact hend

end Parser

end Piecemeal
