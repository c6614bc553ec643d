import Piecemeal.Proofs.StreamReadings

/-!
# The leftmost match

`manyTill anyChar (string text)` looks for a text. At every place it tries the whole text, and takes
one character where that is not found; an attempt may fail at the last character of the text,
several chunks further on, or at the end of the stream, and the next one starts one character after
the place where it did. So the place where it stops is the leftmost one where the text occurs.

* A repetition up to a terminator makes of the tokens what its parts do, place by place, wherever
  the stream is cut (`makes_manyTill`).
* `Leftmost` is the specification of the search, and `exists_until` shows that going from place to
  place meets it.
-/

namespace Piecemeal

variable {ι : Type} {Γ : ι → Type} {τ α β : Type}

/-! ## Occurrences -/

/-- The block occurs in `tokens` between `before` and `after`, and no further to the left. -/
structure Leftmost (block tokens before after : List τ) : Prop where
  split : tokens = before ++ block ++ after
  least : ∀ before' after', tokens = before' ++ block ++ after' → before.length ≤ before'.length

theorem leftmost_nil (block after : List τ) : Leftmost block (block ++ after) [] after where
  split := rfl
  least _ _ _ := Nat.zero_le _

/-- An occurrence behind the first token is the leftmost one if there is none at that token. -/
theorem Leftmost.cons {block tokens before after : List τ} (h : Leftmost block tokens before after)
    {t : τ} (hmiss : ¬ block <+: t :: tokens) :
    Leftmost block (t :: tokens) (t :: before) after where
  split := by rw [h.split, List.cons_append, List.cons_append]
  least before' after' hsplit := by
    cases before' with
    | nil => exact absurd ⟨after', hsplit.symm⟩ hmiss
    | cons t' before' =>
      have htail := (List.cons.inj hsplit).2
      exact Nat.succ_le_succ (h.least before' after' htail)

theorem Leftmost.isInfix {block tokens before after : List τ}
    (h : Leftmost block tokens before after) : block <:+: tokens :=
  ⟨before, after, h.split.symm⟩

namespace Reading

/-- A search that tries the block first, at every place, and passes over one token where it is not
there, stops at the leftmost occurrence; without one it runs into the end. -/
theorem exists_until {E : List τ → Reading τ β → Prop} {R : List τ → Reading τ τ → Prop}
    {block : List τ} {b : β} (hfound : ∀ rest, E (block ++ rest) (success b rest))
    (hmissed : ∀ tokens, ¬ block <+: tokens → ∃ e, E tokens (failure e tokens))
    (htoken : ∀ t rest, R (t :: rest) (success t rest))
    (hend : R [] (failure .notEnoughInput [])) (tokens : List τ) :
    (∃ before after, Leftmost block tokens before after ∧
      Until E R tokens (success before after)) ∨
    (¬ block <:+: tokens ∧ Until E R tokens (failure .notEnoughInput [])) := by
  induction tokens with
  | nil =>
    by_cases hblock : block <+: []
    · obtain rfl : block = [] := List.prefix_nil.mp hblock
      exact .inl ⟨[], [], leftmost_nil [] [], .stop (hfound [])⟩
    · obtain ⟨e, he⟩ := hmissed [] hblock
      refine .inr ⟨fun hinfix => ?_, .fail he hend⟩
      obtain rfl : block = [] := List.infix_nil.mp hinfix
      exact hblock List.prefix_rfl
  | cons t rest ih =>
    by_cases hblock : block <+: t :: rest
    · obtain ⟨after, hafter⟩ := hblock
      rw [← hafter]
      exact .inl ⟨[], after, leftmost_nil block after, .stop (hfound after)⟩
    · -- whatever the attempt here has passed over, the next one starts with the next token
      obtain ⟨e, he⟩ := hmissed _ hblock
      rcases ih with ⟨before, after, hleftmost, huntil⟩ | ⟨hnone, huntil⟩
      · exact .inl ⟨t :: before, after, hleftmost.cons hblock, .next he (htoken t rest) huntil⟩
      · refine .inr ⟨fun hinfix => ?_, .next he (htoken t rest) huntil⟩
        rcases List.infix_cons_iff.mp hinfix with hprefix | hrest
        · exact hblock hprefix
        · exact hnone hrest

end Reading

namespace Parser

open Reading

/-! ## Searching place by place -/

section Until

variable {G : Rules Γ τ}

/-- One turn of `manyTill`: the terminator, or else one more element. -/
def tillTurn (p : Parser Γ τ α) (q : Parser Γ τ β) (found : Gather α) :
    Parser Γ τ (Gather α ⊕ Gather α) :=
  (q.map fun _ => .inr found).alt (p.map fun a => .inl (found.add a))

theorem manyTill_eq (p : Parser Γ τ α) (q : Parser Γ τ β) :
    p.manyTill q = map Gather.toList (loop .empty (tillTurn p q)) := rfl

theorem makes_tillLoop {p : Parser Γ τ α} {q : Parser Γ τ β} {tokens : List τ}
    {r : Reading τ (List α)} (h : Until (q.Makes G) (p.Makes G) tokens r) (found : Gather α) :
    (loop found (tillTurn p q)).Makes G tokens (r.map found.addAll) := by
  induction h generalizing found with
  | stop hq => exact makes_loop_done ((hq.map _).alt _)
  | fail hq hp => exact makes_loop_failure ((hq.map _).alt_of_failure (hp.map _))
  | @next _ _ _ _ a r hq hp _ ih =>
    rw [map_cons_addAll]
    exact makes_loop ((hq.map _).alt_of_failure (hp.map _)) (ih (found.add a))

/-- A repetition up to a terminator goes from place to place as its parts do. -/
theorem makes_manyTill {p : Parser Γ τ α} {q : Parser Γ τ β} {tokens : List τ}
    {r : Reading τ (List α)} (h : Until (q.Makes G) (p.Makes G) tokens r) :
    (p.manyTill q).Makes G tokens r := by
  have hloop := (makes_tillLoop h .empty).map Gather.toList
  rwa [map_addAll_empty, ← manyTill_eq] at hloop

end Until

/-! ## Searching for a text -/

section Search

variable {G : Rules Γ Char}

theorem makes_string_append (text : String) (rest : List Char) :
    (Text.string text).Makes G (text.toList ++ rest) (success text rest) := by
  have hstring := makes_string (G := G) text (text.toList ++ rest)
  have hle : (text.toList.length : Int) ≤ (text.toList ++ rest).length := by
    rw [List.length_append]
    omega
  rw [block, if_pos hle] at hstring
  simpa [Reading.map] using hstring

theorem makes_string_of_not_prefix {text : String} {tokens : List Char}
    (h : ¬ text.toList <+: tokens) :
    ∃ e, (Text.string text).Makes G tokens (failure e tokens) := by
  have hstring := makes_string (G := G) text tokens
  have hblock : ¬ (tokens.take text.toList.length == text.toList) = true := by
    rw [beq_iff_eq]
    intro htake
    exact h (htake ▸ List.take_prefix _ _)
  rw [block, Int.toNat_natCast, if_neg hblock] at hstring
  split at hstring
  · exact ⟨_, hstring⟩
  · exact ⟨_, hstring⟩

end Search

open Input in
/-- **The leftmost match is found.** Let `s` be any state, and let the stream go on with any chunks
and then end, or with nothing if `s` knows of the end. However this is delivered, looking for a text
comes to an end. If the text occurs among the characters ahead, the search succeeds with those
before its leftmost occurrence, and just those after it are still ahead. If it does not, the search
fails for lack of input and nothing is left. -/
theorem manyTill_string_leftmost (G : Rules Γ Char) (text : String) (s : Input Char)
    (chunks : List (List Char)) :
    ∃ k ended o, (Text.anyChar.manyTill (Text.string text)).Takes G s chunks k ended o ∧
      (text.toList <:+: s.outlook chunks → ∃ s' before, o = .success s' before ∧
        Leftmost text.toList (s.outlook chunks) before (s'.ahead ((s.future chunks).drop k))) ∧
      (¬ text.toList <:+: s.outlook chunks → ∃ s',
        o = .failure s' ⟨["demand-input"], "not enough input"⟩ ∧
        s'.remaining.toList = [] ∧ ((s.future chunks).drop k).flatten = []) := by
  have hs := s.sound_future chunks
  rcases exists_until (makes_string_append (G := G) text) (fun _ => makes_string_of_not_prefix)
      (fun c rest => makes_satisfy (fun _ => true) (c :: rest)) (makes_satisfy (fun _ => true) [])
      (s.outlook chunks) with
    ⟨before, after, hleftmost, huntil⟩ | ⟨hnone, huntil⟩
  · obtain ⟨s', left, hhalts, hahead⟩ := makes_manyTill huntil s _ hs rfl
    obtain ⟨k, -, hleft, htakes⟩ := exists_takes_of_halts hhalts
    refine ⟨k, _, _, htakes, fun _ => ⟨s', before, rfl, ?_⟩, ?_⟩
    · rw [← hleft, hahead]
      exact hleftmost
    · exact fun hnone => absurd hleftmost.isInfix hnone
  · obtain ⟨s', left, hhalts, hahead⟩ := makes_manyTill huntil s _ hs rfl
    obtain ⟨k, -, hleft, htakes⟩ := exists_takes_of_halts hhalts
    refine ⟨k, _, _, htakes, fun hinfix => absurd hinfix hnone, fun _ => ⟨s', rfl, ?_⟩⟩
    rw [← hleft]
    exact List.append_eq_nil_iff.mp hahead

-- The attempt at the first place fails at its last character; the text is split over two chunks.
example : ((Text.anyChar.manyTill (Text.string "aab") : Parser Empty.elim Char _).parseFed nofun 40
    ['a'] [['a', 'a'], [], ['b', 'c']]).showing = some (.accepted ['a'] ['c']) := by rfl

end Parser

end Piecemeal
