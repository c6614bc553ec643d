import Piecemeal.Text.Parsers

/-!
# Expressions over a set of leaves

`Built L p` says that the expression `p` is put together from parsers in `L` by the means there are
for combining parsers: sequence with any continuation, alternatives, looking ahead, labels, loops
and the rules of a grammar. A law that the leaves obey and every way of combining keeps is then a
law of every such expression, whatever the grammar. Three sets of leaves are used:

* `Primitive`: with these, every expression is built (`built_primitive`);
* `PutFreeLeaf`: with these, every expression is built in which `put` is not used as such
  (`putFree_endOfInput`);
* `SeamlessLeaf`: of what the library offers, the parsers that cannot tell where the stream was cut
  into chunks, that is all except `get`, `put`, `demandInput`, `ensure` and `takeRest`.

The derived parsers of the library are expressions over the same leaves as their arguments
(`Built.many`, `Built.sepBy`, …), and those over characters are seamless.
-/

namespace Piecemeal.Parser

variable {ι : Type} {Γ : ι → Type} {τ α β γ σ : Type}

/-- Put together from the leaves in `L`. -/
inductive Built (L : (α : Type) → Parser Γ τ α → Prop) : {α : Type} → Parser Γ τ α → Prop
  | leaf {α : Type} {p : Parser Γ τ α} (h : L α p) : Built L p
  | pure {α : Type} (value : α) : Built L (.pure value)
  | fail {α : Type} (message : String) : Built L (.fail message : Parser Γ τ α)
  | bind {α β : Type} {p : Parser Γ τ β} {f : β → Parser Γ τ α} (hp : Built L p)
      (hf : ∀ b, Built L (f b)) : Built L (p.bind f)
  | alt {α : Type} {p q : Parser Γ τ α} (hp : Built L p) (hq : Built L q) : Built L (p.alt q)
  | lookAhead {α : Type} {p : Parser Γ τ α} (hp : Built L p) : Built L p.lookAhead
  | label {α : Type} {p : Parser Γ τ α} (hp : Built L p) (name : String) : Built L (p.label name)
  | loop {σ α : Type} (start : σ) {body : σ → Parser Γ τ (σ ⊕ α)}
      (hbody : ∀ state, Built L (body state)) : Built L (.loop start body)
  | rule (i : ι) : Built L (.rule i)
  | total {α : Type} {p : Parser Γ τ α} (hp : Built L p) : Built L p.total

/-! ## Sets of leaves -/

inductive Primitive : (α : Type) → Parser Γ τ α → Prop
  | get : Primitive _ .get
  | put (tokens : Buffer τ) : Primitive _ (.put tokens)
  | demandInput : Primitive _ .demandInput
  | wantInput : Primitive _ .wantInput

inductive SeamlessLeaf : (α : Type) → Parser Γ τ α → Prop
  | wantInput : SeamlessLeaf _ .wantInput
  | satisfy (p : τ → Bool) : SeamlessLeaf _ (satisfy p)
  | skip (p : τ → Bool) : SeamlessLeaf _ (skip p)
  | takeWith (n : Int) (p : List τ → Bool) : SeamlessLeaf _ (takeWith n p)
  | skipWhile (p : τ → Bool) : SeamlessLeaf _ (skipWhile p)
  | takeWhile (p : τ → Bool) : SeamlessLeaf _ (takeWhile p)
  | takeWhile1 (p : τ → Bool) : SeamlessLeaf _ (takeWhile1 p)
  | endOfInput : SeamlessLeaf _ endOfInput

inductive PutFreeLeaf : (α : Type) → Parser Γ τ α → Prop
  | get : PutFreeLeaf _ .get
  | demandInput : PutFreeLeaf _ .demandInput
  | wantInput : PutFreeLeaf _ .wantInput
  | satisfy (p : τ → Bool) : PutFreeLeaf _ (satisfy p)
  | skip (p : τ → Bool) : PutFreeLeaf _ (skip p)
  | takeWith (n : Int) (p : List τ → Bool) : PutFreeLeaf _ (takeWith n p)
  | skipWhile (p : τ → Bool) : PutFreeLeaf _ (skipWhile p)
  | takeWhile (p : τ → Bool) : PutFreeLeaf _ (takeWhile p)
  | takeWhile1 (p : τ → Bool) : PutFreeLeaf _ (takeWhile1 p)
  | takeRest : PutFreeLeaf _ takeRest

/-- No part of the expression replaces the input. -/
abbrev PutFree (p : Parser Γ τ α) : Prop := Built PutFreeLeaf p

/-- No part of the expression depends on where the stream is cut. -/
abbrev Seamless (p : Parser Γ τ α) : Prop := Built SeamlessLeaf p

theorem built_primitive (p : Parser Γ τ α) : Built Primitive p := by
  induction p with
  | pure value => exact .pure value
  | fail message => exact .fail message
  | get => exact .leaf .get
  | put tokens => exact .leaf (.put tokens)
  | demandInput => exact .leaf .demandInput
  | wantInput => exact .leaf .wantInput
  | bind p f ihp ihf => exact .bind ihp ihf
  | alt p q ihp ihq => exact .alt ihp ihq
  | lookAhead p ih => exact .lookAhead ih
  | label p name ih => exact .label ih name
  | loop start body ih => exact .loop start ih
  | rule i => exact .rule i
  | total p ih => exact .total ih

/-! ## Derived combinators -/

namespace Built

variable {L : (α : Type) → Parser Γ τ α → Prop} {p : Parser Γ τ α} {q : Parser Γ τ β}

/-- Leaves may be expressions over other leaves. -/
theorem subst {L' : (α : Type) → Parser Γ τ α → Prop}
    (hL : ∀ {α : Type} {p : Parser Γ τ α}, L α p → Built L' p) (hp : Built L p) : Built L' p := by
  induction hp with
  | leaf h => exact hL h
  | pure value => exact .pure value
  | fail message => exact .fail message
  | bind _ _ ihp ihf => exact .bind ihp ihf
  | alt _ _ ihp ihq => exact .alt ihp ihq
  | lookAhead _ ih => exact .lookAhead ih
  | label _ name ih => exact .label ih name
  | loop start _ ih => exact .loop start ih
  | rule i => exact .rule i
  | total _ ih => exact .total ih

theorem map (hp : Built L p) (f : α → β) : Built L (p.map f) := hp.bind fun a => .pure (f a)

theorem andThen (hp : Built L p) (hq : Built L q) : Built L (p.andThen q) := hp.bind fun _ => hq

theorem followedBy (hp : Built L p) (hq : Built L q) : Built L (p.followedBy q) :=
  hp.bind fun a => hq.map fun _ => a

theorem between {closing : Parser Γ τ γ} (hq : Built L q) (hc : Built L closing)
    (hp : Built L p) : Built L (q.between closing p) :=
  hq.andThen (hp.followedBy hc)

theorem option (hp : Built L p) (fallback : α) : Built L (p.option fallback) :=
  hp.alt (.pure fallback)

theorem optional (hp : Built L p) : Built L p.optional := (hp.map some).option none

theorem choice {ps : List (Parser Γ τ α)} (h : ∀ p ∈ ps, Built L p) : Built L (choice ps) := by
  fun_induction Parser.choice ps with
  | case1 => exact .fail _
  | case2 p => exact h p (by simp)
  | case3 p q rest ih =>
    exact .alt (h p (by simp)) (ih fun p' hp' => h p' (List.mem_cons_of_mem _ hp'))

theorem many (hp : Built L p) : Built L p.many := by
  refine .map (.loop _ fun found => hp.optional.bind fun a? => ?_) _
  cases a? with
  | none => exact .pure _
  | some a => exact .pure _

theorem many1 (hp : Built L p) : Built L p.many1 := hp.bind fun _ => hp.many.map _

theorem skipMany (hp : Built L p) : Built L p.skipMany := by
  refine .loop _ fun _ => hp.optional.bind fun a? => ?_
  cases a? with
  | none => exact .pure _
  | some a => exact .pure _

theorem skipMany1 (hp : Built L p) : Built L p.skipMany1 := hp.andThen hp.skipMany

theorem sepBy1 (hp : Built L p) (hq : Built L q) : Built L (p.sepBy1 q) :=
  hp.bind fun _ => (hq.andThen hp).many.map _

theorem sepBy (hp : Built L p) (hq : Built L q) : Built L (p.sepBy q) := (hp.sepBy1 hq).option []

theorem manyTill (hp : Built L p) (hq : Built L q) : Built L (p.manyTill q) :=
  .map (.loop _ fun _ => .alt (hq.map _) (hp.map _)) _

theorem count (n : Int) (hp : Built L p) : Built L (p.count n) := by
  refine .map ?_ _
  generalize Gather.empty = found
  induction n.toNat generalizing found with
  | zero => exact .pure found
  | succ n ih => exact hp.bind fun a => ih (found.add a)

end Built

/-! ## Scans, turn by turn -/

/-- One turn of a scan: the run at the head of the input is taken up, and more of it is asked for
where it was all there is. -/
def scanTurn (p : τ → Bool) (next : σ → List τ → σ) (found : σ) : Parser Γ τ (σ ⊕ σ) :=
  get.bind fun input => (put (input.span p).2).bind fun _ =>
    if (input.span p).2.isEmpty then
      wantInput.bind fun more => if more then pure (.inl (next found (input.span p).1))
        else pure (.inr (next found (input.span p).1))
    else pure (.inr (next found (input.span p).1))

theorem skipWhile_eq (p : τ → Bool) :
    (skipWhile p : Parser Γ τ Unit) = total (loop () (scanTurn p fun _ _ => ())) := rfl

theorem takeWhile_eq (p : τ → Bool) :
    (takeWhile p : Parser Γ τ (List τ)) =
      total (map (fun fragments => fragments.toList.flatten)
        (loop Gather.empty (scanTurn p Gather.add))) := rfl

/-- What `takeWhile1` does once there is a token: it scans, unless the run is empty. -/
def scanOnce (p : τ → Bool) : Parser Γ τ (List τ) :=
  get.bind fun input =>
    if (input.span p).1.isEmpty then fail "take-while1"
    else (put (input.span p).2).bind fun _ =>
      if (input.span p).2.isEmpty then map ((input.span p).1 ++ ·) (takeWhile p)
      else pure (input.span p).1

theorem takeWhile1_eq (p : τ → Bool) :
    (takeWhile1 p : Parser Γ τ (List τ)) = get.bind fun buffered =>
      (if buffered.isEmpty then demandInput else pure ()).bind fun _ => scanOnce p := rfl

/-- One turn of `takeRest`: all that has arrived is taken, if the stream goes on. -/
def drainTurn (found : Gather (List τ)) :
    Parser Γ τ (Gather (List τ) ⊕ Gather (List τ)) :=
  wantInput.bind fun more =>
    if more then
      get.bind fun input => (put .empty).bind fun _ => pure (.inl (found.add input.toList))
    else pure (.inr found)

theorem takeRest_eq :
    (takeRest : Parser Γ τ _) = total (map Gather.toList (loop Gather.empty drainTurn)) := rfl

/-! ## Expressions of the library -/

theorem seamless_atEnd : Seamless (atEnd : Parser Γ τ Bool) :=
  Built.total (.map (.leaf .wantInput) _)

end Piecemeal.Parser

namespace Piecemeal.Text

open Piecemeal.Parser

variable {ι : Type} {Γ : ι → Type}

theorem seamless_char (k : CharClass) : Seamless (char k : Parser Γ Char Char) :=
  Built.label (.leaf (.satisfy _)) _

theorem seamless_string (s : String) : Seamless (string s : Parser Γ Char String) :=
  Built.map (.leaf (.takeWith _ _)) _

theorem seamless_word : Seamless (word : Parser Γ Char String) :=
  Built.map (.many1 (.label (.leaf (.satisfy _)) _)) _

theorem seamless_number : Seamless (number : Parser Γ Char Binary64) := by
  refine Built.label (.map (.bind (.leaf (.takeWhile1 _)) fun whole =>
    .bind ?_ fun _ => .pure _) _) _
  exact .option (.map (.andThen (seamless_char _) (.leaf (.takeWhile _))) _) _

theorem seamless_eol : Seamless (eol : Parser Γ Char Unit) :=
  Built.alt (.andThen (seamless_char _) (.pure ())) (.andThen (seamless_string _) (.pure ()))

end Piecemeal.Text
