import Piecemeal.Proofs.Built

/-!
# Productive parsers

A parser is *productive* if each of its successes has consumed a token. `Guarded true p` says that
`p` is productive for a reason that can be read off the expression, and `Guarded false p` only that
the loops in `p` repeat productive parsers; both exclude `put` and the rules of a grammar, which may
be recursive. What the library derives is productive or guarded where its parts are
(`Guarded.many1`, `Guarded.sepBy`, `Guarded.count`, …).
-/

namespace Piecemeal

variable {ι : Type} {Γ : ι → Type} {τ α β γ : Type}

namespace Parser

inductive ConsumingLeaf : (α : Type) → Parser Γ τ α → Prop
  | satisfy (p : τ → Bool) : ConsumingLeaf _ (satisfy p)
  | skip (p : τ → Bool) : ConsumingLeaf _ (skip p)
  | takeWith {n : Int} (h : 1 ≤ n) (p : List τ → Bool) : ConsumingLeaf _ (takeWith n p)
  | takeWhile1 (p : τ → Bool) : ConsumingLeaf _ (takeWhile1 p)

/-- No part of the expression replaces the input or calls a rule, every loop repeats a parser that
is productive, and, if `productive`, so is the whole. -/
inductive Guarded : (productive : Bool) → {α : Type} → Parser Γ τ α → Prop
  | leaf {α : Type} {p : Parser Γ τ α} (h : PutFreeLeaf α p) : Guarded false p
  | ensure (n : Int) : Guarded false (ensure n : Parser Γ τ (Buffer τ))
  | consuming {α : Type} {p : Parser Γ τ α} (h : ConsumingLeaf α p) : Guarded true p
  | weaken {α : Type} {p : Parser Γ τ α} (hp : Guarded true p) : Guarded false p
  | pure {α : Type} (value : α) : Guarded false (.pure value)
  /-- There is no success. -/
  | fail {α : Type} (b : Bool) (message : String) : Guarded b (.fail message : Parser Γ τ α)
  | bind {b c : Bool} {α β : Type} {p : Parser Γ τ β} {f : β → Parser Γ τ α} (hp : Guarded b p)
      (hf : ∀ x, Guarded c (f x)) : Guarded (b || c) (p.bind f)
  | alt {b : Bool} {α : Type} {p q : Parser Γ τ α} (hp : Guarded b p) (hq : Guarded b q) :
      Guarded b (p.alt q)
  /-- What was consumed is given back. -/
  | lookAhead {b : Bool} {α : Type} {p : Parser Γ τ α} (hp : Guarded b p) :
      Guarded false p.lookAhead
  | label {b : Bool} {α : Type} {p : Parser Γ τ α} (hp : Guarded b p) (name : String) :
      Guarded b (p.label name)
  | total {b : Bool} {α : Type} {p : Parser Γ τ α} (hp : Guarded b p) : Guarded b p.total
  | many {α : Type} {p : Parser Γ τ α} (hp : Guarded true p) : Guarded false p.many
  | skipMany {α : Type} {p : Parser Γ τ α} (hp : Guarded true p) : Guarded false p.skipMany
  | manyTill {b : Bool} {α β : Type} {p : Parser Γ τ α} {q : Parser Γ τ β} (hp : Guarded true p)
      (hq : Guarded b q) : Guarded false (p.manyTill q)

/-! ## Derived combinators -/

namespace Guarded

variable {a b c : Bool} {p : Parser Γ τ α} {q : Parser Γ τ β}

theorem toFalse (hp : Guarded b p) : Guarded false p := by
  cases b with
  | false => exact hp
  | true => exact hp.weaken

theorem map (hp : Guarded b p) (f : α → β) : Guarded b (p.map f) := by
  have h : Guarded (b || false) (p.map f) := hp.bind fun x => .pure (f x)
  rwa [Bool.or_false] at h

theorem andThen (hp : Guarded b p) (hq : Guarded c q) : Guarded (b || c) (p.andThen q) :=
  hp.bind fun _ => hq

theorem followedBy (hp : Guarded b p) (hq : Guarded c q) : Guarded (b || c) (p.followedBy q) :=
  hp.bind fun x => hq.map fun _ => x

theorem between {closing : Parser Γ τ γ} (hq : Guarded a q) (hp : Guarded b p)
    (hc : Guarded c closing) : Guarded (a || (b || c)) (q.between closing p) :=
  hq.andThen (hp.followedBy hc)

theorem option (hp : Guarded b p) (fallback : α) : Guarded false (p.option fallback) :=
  hp.toFalse.alt (.pure fallback)

theorem optional (hp : Guarded b p) : Guarded false p.optional := (hp.map some).option none

theorem choice {ps : List (Parser Γ τ α)} (h : ∀ p ∈ ps, Guarded b p) : Guarded b (choice ps) := by
  fun_induction Parser.choice ps with
  | case1 => exact .fail b _
  | case2 p => exact h p List.mem_cons_self
  | case3 p q rest ih =>
    refine .alt (h p List.mem_cons_self) (ih ?_)
    intro p' hp'
    exact h p' (List.mem_cons_of_mem _ hp')

theorem many1 (hp : Guarded true p) : Guarded true p.many1 := hp.bind fun _ => hp.many.map _

theorem skipMany1 (hp : Guarded true p) : Guarded true p.skipMany1 := hp.andThen hp.skipMany

theorem sepBy1 (hp : Guarded b p) (hpair : Guarded true (q.andThen p)) :
    Guarded b (p.sepBy1 q) := by
  have h : Guarded (b || false) (p.sepBy1 q) := hp.bind fun _ => hpair.many.map _
  rwa [Bool.or_false] at h

theorem sepBy (hp : Guarded b p) (hpair : Guarded true (q.andThen p)) :
    Guarded false (p.sepBy q) :=
  (hp.sepBy1 hpair).option []

theorem countFrom (hp : Guarded b p) (n : Nat) (found : Gather α) :
    Guarded (b && decide (0 < n)) (p.countFrom n found) := by
  induction n generalizing found with
  | zero =>
    have h : Guarded false (p.countFrom 0 found) := .pure found
    simpa using h
  | succ n ih =>
    have h : Guarded (b || false) (p.countFrom (n + 1) found) :=
      hp.bind fun x => (ih (found.add x)).toFalse
    rw [Bool.or_false] at h
    simpa using h

theorem count (n : Int) (hp : Guarded b p) : Guarded (b && decide (1 ≤ n)) (p.count n) := by
  have hpos : decide (1 ≤ n) = decide (0 < n.toNat) := decide_eq_decide.mpr (by omega)
  rw [hpos]
  exact (hp.countFrom n.toNat .empty).map _

end Guarded

theorem guarded_endOfInput : Guarded false (endOfInput : Parser Γ τ Unit) := by
  refine Guarded.bind (b := false) (c := false) (.leaf .get) fun input => ?_
  split
  · refine .bind (b := false) (c := false) ?_ fun more => ?_
    · exact .option (.map (.leaf .demandInput) _) _
    · split
      · exact .fail _ _
      · exact .pure _
  · exact .fail _ _

end Parser

/-! ## Characters -/

namespace Text

open Piecemeal.Parser

theorem guarded_char (k : CharClass) : Guarded true (char k : Parser Γ Char Char) :=
  .label (.consuming (.satisfy _)) _

theorem guarded_letter : Guarded true (letter : Parser Γ Char Char) :=
  .label (.consuming (.satisfy _)) _

theorem guarded_string {s : String} (h : 0 < s.toList.length) :
    Guarded true (string s : Parser Γ Char String) :=
  .map (.consuming (.takeWith (by omega) _)) _

theorem guarded_word : Guarded true (word : Parser Γ Char String) := guarded_letter.many1.map _

theorem guarded_number : Guarded true (number : Parser Γ Char Binary64) := by
  refine .label (.map (.bind (b := true) (c := false) (.consuming (.takeWhile1 _)) ?_) _) _
  intro whole
  refine .bind (b := false) (c := false) ?_ fun _ => .pure _
  exact .option (.map (.andThen (guarded_char _) (.leaf (.takeWhile _))) _) _

theorem guarded_eol : Guarded true (eol : Parser Γ Char Unit) := by
  refine .alt (.andThen (b := true) (guarded_char _) (.pure ())) ?_
  exact .andThen (b := true) (guarded_string (by decide)) (.pure ())

end Text

end Piecemeal
