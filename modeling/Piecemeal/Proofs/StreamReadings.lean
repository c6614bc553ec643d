import Piecemeal.Proofs.Deliveries
import Piecemeal.Proofs.Reads
import Piecemeal.Text.Parsers

/-!
# Readings that do not depend on the cuts

`Parser.Makes G p tokens r` says that `p` makes the reading `r` of `tokens`, wherever the stream is
cut and however much of it has arrived. A parser that views the stream makes of the tokens what its
view shows (`Views.makes`), and there is one rule for each way to build a parser: what a combined
parser makes of the tokens is put together from what its parts make of them, and a failed
alternative leaves no trace.
-/

namespace Piecemeal

variable {ι : Type} {Γ : ι → Type} {τ α β : Type}

namespace Reading

def rest : Reading τ α → List τ
  | success _ rest | failure _ rest => rest

/-- The outcome that a reading tells of, with the input left as `s`. -/
def leaving (s : Input τ) : Reading τ α → Outcome τ α
  | success a _ => .success s a
  | failure e _ => .failure s e

def showing : Reading τ α → Showing τ α
  | success a rest => .accepted a rest
  | failure e rest => .rejected e rest

theorem exists_done_of_showing {halt : Halt τ (Outcome τ α)} {r : Reading τ α}
    (h : halt.showing = r.showing) :
    ∃ s left, halt = .done (r.leaving s) left ∧ s.ahead left = r.rest := by
  cases r with
  | success a rest =>
    match halt, h with
    | .done (.success s _) left, rfl => exact ⟨s, left, rfl, rfl⟩
  | failure e rest =>
    match halt, h with
    | .done (.failure s _) left, rfl => exact ⟨s, left, rfl, rfl⟩

end Reading

namespace Parser

open Reading

/-- Wherever just these tokens are ahead of a stream that ends after them, the parser stops with the
outcome that `r` tells of and has what `r` leaves ahead. -/
def Makes (G : Rules Γ τ) (p : Parser Γ τ α) (tokens : List τ) (r : Reading τ α) : Prop :=
  ∀ s chunks, s.Sound true chunks → s.ahead chunks = tokens →
    ∃ s' left, p.Halts true G s chunks (.done (r.leaving s') left) ∧ s'.ahead left = r.rest

section Makes

variable {G : Rules Γ τ}

theorem Views.makes {p : Parser Γ τ α} {view : List τ → Showing τ α} (hp : Views true G p view)
    {tokens : List τ} {r : Reading τ α} (h : view tokens = r.showing) : p.Makes G tokens r := by
  intro s chunks hs hahead
  obtain ⟨halt, hhalts, hshown⟩ := hp s chunks hs
  rw [hahead, h] at hshown
  obtain ⟨s', left, rfl, hrest⟩ := exists_done_of_showing hshown
  exact ⟨s', left, hhalts, hrest⟩

theorem makes_pure (a : α) (tokens : List τ) : (pure a).Makes G tokens (success a tokens) :=
  fun s chunks _ hahead => ⟨s, chunks, halts_pure a, hahead⟩

theorem Makes.bind {p : Parser Γ τ β} {f : β → Parser Γ τ α} {tokens middle : List τ} {b : β}
    {r : Reading τ α} (hp : p.Makes G tokens (success b middle)) (hf : (f b).Makes G middle r) :
    (p.bind f).Makes G tokens r := by
  intro s chunks hs hahead
  obtain ⟨s', left, hhalts, hrest⟩ := hp s chunks hs hahead
  obtain ⟨s'', left', hhalts', hrest'⟩ := hf s' left (sound_of_halts hs hhalts) hrest
  exact ⟨s'', left', halts_bind hhalts hhalts', hrest'⟩

theorem Makes.bind_of_failure {p : Parser Γ τ β} {tokens rest : List τ} {e : Failure}
    (hp : p.Makes G tokens (failure e rest)) (f : β → Parser Γ τ α) :
    (p.bind f).Makes G tokens (failure e rest) := by
  intro s chunks hs hahead
  obtain ⟨s', left, hhalts, hrest⟩ := hp s chunks hs hahead
  exact ⟨s', left, halts_bind_failure f hhalts, hrest⟩

theorem Makes.map {p : Parser Γ τ α} {tokens : List τ} {r : Reading τ α}
    (hp : p.Makes G tokens r) (f : α → β) : (p.map f).Makes G tokens (r.map f) := by
  intro s chunks hs hahead
  obtain ⟨s', left, hhalts, hrest⟩ := hp s chunks hs hahead
  cases r with
  | success a rest => exact ⟨s', left, halts_bind hhalts (halts_pure _), hrest⟩
  | failure e rest => exact ⟨s', left, halts_bind_failure _ hhalts, hrest⟩

theorem Makes.alt {p : Parser Γ τ α} {tokens rest : List τ} {a : α}
    (hp : p.Makes G tokens (success a rest)) (q : Parser Γ τ α) :
    (p.alt q).Makes G tokens (success a rest) := by
  intro s chunks hs hahead
  obtain ⟨s', left, hhalts, hrest⟩ := hp s.checkpoint chunks hs hahead
  exact ⟨s.keep s', left, halts_alt hhalts, hrest⟩

/-- Whatever the first alternative has consumed is ahead again for the second. -/
theorem Makes.alt_of_failure {p q : Parser Γ τ α} {tokens rest : List τ} {e : Failure}
    {r : Reading τ α} (hp : p.Makes G tokens (failure e rest)) (hq : q.Makes G tokens r) :
    (p.alt q).Makes G tokens r := by
  intro s chunks hs hahead
  obtain ⟨s', left, hhalts, -⟩ := hp s.checkpoint chunks hs hahead
  obtain ⟨hsound, hback⟩ := rewind_of_halts hs hhalts
  obtain ⟨s'', left', hhalts', hrest⟩ := hq _ left hsound (hback.trans hahead)
  exact ⟨s'', left', halts_alt_failure hhalts hhalts', hrest⟩

theorem Makes.label {p : Parser Γ τ α} {tokens : List τ} {r : Reading τ α}
    (hp : p.Makes G tokens r) (name : String) : (p.label name).Makes G tokens (r.within name) := by
  intro s chunks hs hahead
  obtain ⟨s', left, hhalts, hrest⟩ := hp s chunks hs hahead
  cases r with
  | success a rest => exact ⟨s', left, halts_label name hhalts, hrest⟩
  | failure e rest => exact ⟨s', left, halts_label_failure name hhalts, hrest⟩

section Loop

variable {σ : Type} {body : σ → Parser Γ τ (σ ⊕ α)} {start next : σ} {tokens rest : List τ}

theorem makes_loop {r : Reading τ α}
    (hbody : (body start).Makes G tokens (success (.inl next) rest))
    (hloop : (loop next body).Makes G rest r) : (loop start body).Makes G tokens r := by
  intro s chunks hs hahead
  obtain ⟨s', left, hhalts, hrest⟩ := hbody s chunks hs hahead
  obtain ⟨s'', left', hhalts', hrest'⟩ := hloop s' left (sound_of_halts hs hhalts) hrest
  exact ⟨s'', left', halts_loop hhalts hhalts', hrest'⟩

theorem makes_loop_done {a : α} (hbody : (body start).Makes G tokens (success (.inr a) rest)) :
    (loop start body).Makes G tokens (success a rest) := by
  intro s chunks hs hahead
  obtain ⟨s', left, hhalts, hrest⟩ := hbody s chunks hs hahead
  exact ⟨s', left, halts_loop_done hhalts, hrest⟩

theorem makes_loop_failure {e : Failure}
    (hbody : (body start).Makes G tokens (failure e rest)) :
    (loop start body).Makes G tokens (failure e rest) := by
  intro s chunks hs hahead
  obtain ⟨s', left, hhalts, hrest⟩ := hbody s chunks hs hahead
  exact ⟨s', left, halts_loop_failure hhalts, hrest⟩

end Loop

open Input in
/-- What a parser makes of the tokens that can still be seen is its outcome however they are
delivered. -/
theorem Makes.exists_takes {p : Parser Γ τ α} {s : Input τ} {chunks : List (List τ)}
    {r : Reading τ α} (h : p.Makes G (s.outlook chunks) r) :
    ∃ k ended s', p.Takes G s chunks k ended (r.leaving s') ∧
      s'.ahead ((s.future chunks).drop k) = r.rest := by
  obtain ⟨s', left, hhalts, hrest⟩ := h s _ (s.sound_future chunks) rfl
  obtain ⟨k, -, hleft, htakes⟩ := exists_takes_of_halts hhalts
  exact ⟨k, _, s', htakes, hleft ▸ hrest⟩

end Makes

/-! ## Tokens and scans -/

section Leaves

variable {G : Rules Γ τ} {p : τ → Bool}

theorem tokenView_of_ends (message : String) (value : τ → α) (tokens : List τ) :
    tokenView true p message value tokens = (single [] p message value tokens).showing := by
  cases tokens with
  | nil => rfl
  | cons t rest =>
    rw [tokenView, single]
    split <;> rfl

theorem makes_satisfy (p : τ → Bool) (tokens : List τ) :
    (satisfy p).Makes G tokens (single [] p "satisfy?" (fun t => t) tokens) :=
  (views_satisfy p).makes (tokenView_of_ends _ _ tokens)

theorem makes_skip (p : τ → Bool) (tokens : List τ) :
    (skip p).Makes G tokens (single [] p "skip" (fun _ => ()) tokens) :=
  (views_skip p).makes (tokenView_of_ends _ _ tokens)

theorem makes_takeWith (n : Int) (p : List τ → Bool) (tokens : List τ) :
    (takeWith n p).Makes G tokens (block n p tokens) := by
  refine (views_takeWith n p).makes ?_
  rw [block]
  split
  · split <;> rfl
  · rfl

theorem makes_takeWhile (p : τ → Bool) (tokens : List τ) :
    (takeWhile p).Makes G tokens (success (tokens.takeWhile p) (tokens.dropWhile p)) :=
  (views_takeWhile p).makes (scanView_of_ends id tokens)

theorem makes_skipWhile (p : τ → Bool) (tokens : List τ) :
    (skipWhile p).Makes G tokens (success () (tokens.dropWhile p)) :=
  (views_skipWhile p).makes (scanView_of_ends _ tokens)

theorem makes_takeWhile1 (p : τ → Bool) (tokens : List τ) :
    (takeWhile1 p).Makes G tokens (run [] p "take-while1" (fun run => run) tokens) := by
  refine (views_takeWhile1 p).makes ?_
  cases tokens with
  | nil => rfl
  | cons t rest =>
    rw [scanView1, run, scanView_of_ends]
    split <;> rfl

theorem makes_endOfInput (tokens : List τ) : endOfInput.Makes G tokens
    (if tokens.isEmpty then success () [] else failure ⟨[], "end-of-input"⟩ tokens) := by
  refine views_endOfInput.makes ?_
  split <;> rfl

/-- A run ends at the first token outside it, or where there are no more tokens. -/
theorem span_of_stop {run rest : List τ} (hrun : ∀ t ∈ run, p t = true)
    (hrest : ∀ t ∈ rest.head?, ¬ p t = true) :
    (run ++ rest).takeWhile p = run ∧ (run ++ rest).dropWhile p = rest := by
  rw [List.takeWhile_append_of_pos hrun, List.dropWhile_append_of_pos hrun]
  cases rest with
  | nil => exact ⟨List.append_nil run, rfl⟩
  | cons t rest =>
    have ht : ¬ p t = true := hrest t rfl
    rw [List.takeWhile_cons_of_neg ht, List.dropWhile_cons_of_neg ht, List.append_nil]
    exact ⟨rfl, rfl⟩

theorem makes_takeWhile_of_stop {run rest : List τ} (hrun : ∀ t ∈ run, p t = true)
    (hrest : ∀ t ∈ rest.head?, ¬ p t = true) :
    (takeWhile p).Makes G (run ++ rest) (success run rest) := by
  obtain ⟨htake, hdrop⟩ := span_of_stop hrun hrest
  have hmakes := makes_takeWhile (G := G) p (run ++ rest)
  rwa [htake, hdrop] at hmakes

theorem makes_takeWhile1_of_stop {run rest : List τ} (hne : run ≠ [])
    (hrun : ∀ t ∈ run, p t = true) (hrest : ∀ t ∈ rest.head?, ¬ p t = true) :
    (takeWhile1 p).Makes G (run ++ rest) (success run rest) := by
  obtain ⟨htake, hdrop⟩ := span_of_stop hrun hrest
  obtain ⟨t, others, rfl⟩ := List.exists_cons_of_ne_nil hne
  have hmakes := makes_takeWhile1 (G := G) p (t :: others ++ rest)
  rw [List.cons_append] at htake hdrop
  rwa [List.cons_append, Reading.run, if_pos (hrun t List.mem_cons_self), htake, hdrop] at hmakes

end Leaves

/-! ## Characters -/

section Characters

variable {G : Rules Γ Char}

theorem contains_exactly_iff (text : String) (c : Char) :
    (Text.CharClass.exactly text).contains c = true ↔ text.toList = [c] := by
  rw [Text.CharClass.contains, beq_iff_eq, ← String.toList_inj, Char.toString_eq_singleton,
    String.toList_singleton]

theorem makes_labelled (p : Char → Bool) (name : String) (chars : List Char) :
    (label (satisfy p) name).Makes G chars (single [name] p "satisfy?" (fun c => c) chars) := by
  rw [← List.nil_append [name], ← single_within]
  exact (makes_satisfy p chars).label name

theorem makes_char (k : Text.CharClass) (chars : List Char) : (Text.char k).Makes G chars
    (single ["char " ++ k.describe] (fun c => k.contains c) "satisfy?" (fun c => c) chars) :=
  makes_labelled _ _ chars

theorem exists_char_failure (text : String) {c : Char} (hc : text.toList = [c])
    {chars : List Char} (h : chars.head? ≠ some c) :
    ∃ e, (Text.char (.exactly text)).Makes G chars (failure e chars) := by
  have hchar := makes_char (G := G) (.exactly text) chars
  cases chars with
  | nil => exact ⟨_, hchar⟩
  | cons d rest =>
    have hno : ¬ (Text.CharClass.exactly text).contains d = true := by
      rw [contains_exactly_iff, hc]
      rintro ⟨⟩
      exact h rfl
    rw [single, if_neg hno] at hchar
    exact ⟨_, hchar⟩

theorem join_toString (chars : List Char) :
    Text.join (chars.map Char.toString) = String.ofList chars := by
  rw [← String.toList_inj, Text.join, String.toList_join, List.flatMap_map, String.toList_ofList]
  simp only [Char.toString_eq_singleton, String.toList_singleton]
  exact List.flatMap_singleton' chars

theorem makes_string (text : String) (chars : List Char) : (Text.string text).Makes G chars
    ((block text.toList.length (· == text.toList) chars).map fun _ => text) :=
  (makes_takeWith _ _ chars).map _

end Characters

end Parser

end Piecemeal
