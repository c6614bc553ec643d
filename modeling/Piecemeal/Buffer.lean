/-!
# Token buffers

A `Buffer τ` is the unread part of a stream. It is stored as a queue of fragments, so that a
fragment arriving at the far end and a token leaving at the near end both cost little, and two
queues with the same tokens are one buffer (`Buffer.ext`). Every operation is therefore determined
by what it does to the list of tokens, and that law is the lemma that stands beside it:

* `toList_append`: appending is concatenation;
* `uncons?_eq`, `splitAt_eq`, `span_eq`, `dropWhile_eq`: taking from the front is the operation on
  lists;
* `size_eq`: the size is the length.
-/

namespace Piecemeal

/-- A queue of tokens: the nearest ones in a list, then the fragments behind them, newest first. -/
structure Queue (τ : Type) where
  front : List τ
  back : List (List τ)
  size : Nat
  size_eq : size = (front ++ back.reverse.flatten).length

namespace Queue

variable {τ : Type}

/-- The tokens, nearest first. -/
def toList (q : Queue τ) : List τ := q.front ++ q.back.reverse.flatten

theorem length_toList (q : Queue τ) : q.toList.length = q.size := q.size_eq.symm

/-- The queue whose tokens are all near. -/
def ofList (tokens : List τ) : Queue τ := ⟨tokens, [], tokens.length, by simp⟩

@[simp] theorem toList_ofList (tokens : List τ) : (ofList tokens).toList = tokens := by
  simp [ofList, toList]

/-- The tokens of `q`, then those of `r`. An empty side leaves the other as it is, so that no empty
fragments pile up. -/
def append (q r : Queue τ) : Queue τ :=
  if r.size = 0 then q
  else if q.size = 0 then r
  else ⟨q.front, r.back ++ r.front :: q.back, q.size + r.size, by
    simp only [q.size_eq, r.size_eq, List.reverse_append, List.reverse_cons, List.flatten_append,
      List.length_append, List.flatten_cons, List.flatten_nil, List.append_assoc, List.length_nil]
    omega⟩

theorem toList_append (q r : Queue τ) : (q.append r).toList = q.toList ++ r.toList := by
  unfold append
  split
  · next h =>
    have : r.toList = [] := List.length_eq_zero_iff.mp (by rw [length_toList, h])
    rw [this, List.append_nil]
  · split
    · next h =>
      have : q.toList = [] := List.length_eq_zero_iff.mp (by rw [length_toList, h])
      rw [this, List.nil_append]
    · simp [toList]

/-- The queue behind the tokens `taken`, with which the near tokens of `q` begin. -/
def behind (q : Queue τ) (taken front : List τ) (h : taken ++ front = q.front) : Queue τ :=
  ⟨front, q.back, q.size - taken.length, by
    rw [q.size_eq, ← h, List.append_assoc, List.length_append]
    omega⟩

@[simp] theorem toList_behind (q : Queue τ) (taken front : List τ) (h : taken ++ front = q.front) :
    (q.behind taken front h).toList = front ++ q.back.reverse.flatten := rfl

/-- The first `n` tokens, or all there are, and what stands behind them. -/
def splitAt (n : Nat) (q : Queue τ) : List τ × Queue τ :=
  match h : q.front.drop n with
  | t :: front => (q.front.take n, q.behind (q.front.take n) (t :: front) (by simp [← h]))
  | [] =>
    let far := q.back.reverse.flatten
    let n := n - q.front.length
    (q.front ++ far.take n, ofList (far.drop n))

theorem splitAt_fst (n : Nat) (q : Queue τ) : (q.splitAt n).1 = q.toList.take n := by
  unfold splitAt toList
  split
  · next h =>
    have : n ≤ q.front.length := by
      have := congrArg List.length h
      rw [List.length_drop, List.length_cons] at this
      omega
    rw [List.take_append_of_le_length this]
  · next h =>
    rw [List.take_append, List.take_of_length_le (List.drop_eq_nil_iff.mp h)]

theorem toList_splitAt_snd (n : Nat) (q : Queue τ) : (q.splitAt n).2.toList = q.toList.drop n := by
  unfold splitAt
  split
  · next h =>
    have : n ≤ q.front.length := by
      have := congrArg List.length h
      rw [List.length_drop, List.length_cons] at this
      omega
    rw [toList_behind, toList, List.drop_append_of_le_length this, ← h]
  · next h =>
    rw [toList_ofList, toList, List.drop_append, h, List.nil_append]

/-- The longest run of tokens at the front that all satisfy `p`, and what stands behind it. -/
def span (p : τ → Bool) (q : Queue τ) : List τ × Queue τ :=
  match h : q.front.dropWhile p with
  | t :: front =>
    let run := q.front.takeWhile p
    (run, q.behind run (t :: front) (by simp [run, ← h, List.takeWhile_append_dropWhile]))
  | [] =>
    let far := q.back.reverse.flatten
    (q.front ++ far.takeWhile p, ofList (far.dropWhile p))

theorem span_fst (p : τ → Bool) (q : Queue τ) : (q.span p).1 = q.toList.takeWhile p := by
  have hl := congrArg List.length (List.takeWhile_append_dropWhile (p := p) (l := q.front))
  unfold span toList
  split
  · next h =>
    rw [h, List.length_append, List.length_cons] at hl
    rw [List.takeWhile_append, if_neg (by omega)]
  · next h =>
    rw [h, List.append_nil] at hl
    rw [List.takeWhile_append, if_pos hl]

theorem toList_span_snd (p : τ → Bool) (q : Queue τ) :
    (q.span p).2.toList = q.toList.dropWhile p := by
  unfold span
  split
  · next h => simp [toList, behind, List.dropWhile_append, h]
  · next h => simp [toList, ofList, List.dropWhile_append, h]

/-- The first token and what stands behind it. -/
def uncons? (q : Queue τ) : Option (τ × Queue τ) :=
  match h : q.front with
  | t :: front => some (t, q.behind [t] front h.symm)
  | [] =>
    match q.back.reverse.flatten with
    | [] => none
    | t :: rest => some (t, ofList rest)

theorem uncons?_eq (q : Queue τ) :
    q.uncons?.map (fun r => (r.1, r.2.toList)) = match q.toList with
      | [] => none
      | t :: rest => some (t, rest) := by
  unfold uncons?
  split
  · next h => simp [toList, behind, h]
  · next h =>
    simp only [toList, h, List.nil_append]
    split <;> simp_all [ofList]

/-- Two queues are alike when they hold the same tokens. -/
instance sameTokens (τ : Type) : Setoid (Queue τ) where
  r q r := q.toList = r.toList
  iseqv := ⟨fun _ => rfl, Eq.symm, Eq.trans⟩

end Queue

/-- The unread tokens of a stream, whatever fragments they came in. -/
def Buffer (τ : Type) : Type := Quotient (Queue.sameTokens τ)

namespace Buffer

variable {τ β : Type}

/-! ## The list view -/

def ofQueue (q : Queue τ) : Buffer τ := Quotient.mk _ q

/-- The tokens, nearest first. -/
def toList (b : Buffer τ) : List τ := Quotient.lift Queue.toList (fun _ _ h => h) b

def ofList (tokens : List τ) : Buffer τ := ofQueue (Queue.ofList tokens)

def empty : Buffer τ := ofList []

instance : Inhabited (Buffer τ) := ⟨empty⟩

@[simp] theorem toList_ofQueue (q : Queue τ) : (ofQueue q).toList = q.toList := rfl

@[simp] theorem toList_ofList (tokens : List τ) : (ofList tokens).toList = tokens := by
  rw [ofList, toList_ofQueue, Queue.toList_ofList]

@[simp] theorem toList_empty : (empty : Buffer τ).toList = [] := toList_ofList []

@[ext] theorem ext {a b : Buffer τ} (h : a.toList = b.toList) : a = b := by
  induction a using Quotient.ind
  induction b using Quotient.ind
  exact Quotient.sound h

@[simp] theorem ofList_toList (b : Buffer τ) : ofList b.toList = b := by
  ext1; simp

theorem ofList_injective {tokens tokens' : List τ} (h : ofList tokens = ofList tokens') :
    tokens = tokens' := by
  simpa using congrArg toList h

theorem ofQueue_eq (q : Queue τ) : ofQueue q = ofList q.toList := by
  ext1; simp

instance [DecidableEq τ] : DecidableEq (Buffer τ) := fun a b =>
  decidable_of_iff (a.toList = b.toList) ⟨ext, congrArg toList⟩

/-- Reads a buffer through its queue. The reading `f` may use the fragments as long as its answer is
the answer of `g` to the list of tokens. -/
def read (g : List τ → β) (f : Queue τ → β) (h : ∀ q, f q = g q.toList) (b : Buffer τ) : β :=
  Quotient.lift f (fun q r hqr => by rw [h, h, show q.toList = r.toList from hqr]) b

theorem read_eq (g : List τ → β) (f : Queue τ → β) (h : ∀ q, f q = g q.toList) (b : Buffer τ) :
    b.read g f h = g b.toList := by
  induction b using Quotient.ind
  exact h _

/-! ## Size -/

def size (b : Buffer τ) : Nat := b.read List.length Queue.size fun q => q.length_toList.symm

theorem size_eq (b : Buffer τ) : b.size = b.toList.length := read_eq ..

def isEmpty (b : Buffer τ) : Bool := b.size == 0

theorem isEmpty_eq (b : Buffer τ) : b.isEmpty = b.toList.isEmpty := by
  rw [isEmpty, size_eq]
  cases b.toList <;> rfl

theorem isEmpty_iff (b : Buffer τ) : b.isEmpty = true ↔ b.toList = [] := by
  simp [isEmpty, size_eq]

/-! ## Joining -/

/-- The tokens of `a`, then those of `b`. -/
def append (a b : Buffer τ) : Buffer τ :=
  Quotient.liftOn₂ a b (fun q r => ofQueue (q.append r)) fun q₁ r₁ q₂ r₂ hq hr => ext (by
    rw [toList_ofQueue, toList_ofQueue, Queue.toList_append, Queue.toList_append,
      show q₁.toList = q₂.toList from hq, show r₁.toList = r₂.toList from hr])

instance : Append (Buffer τ) := ⟨append⟩

@[simp] theorem toList_append (a b : Buffer τ) : (a ++ b).toList = a.toList ++ b.toList := by
  induction a using Quotient.ind
  induction b using Quotient.ind
  exact Queue.toList_append _ _

@[simp] theorem append_ofList_nil (b : Buffer τ) : b ++ ofList [] = b := by
  ext1; simp

@[simp] theorem append_empty (b : Buffer τ) : b ++ empty = b := append_ofList_nil b

@[simp] theorem empty_append (b : Buffer τ) : empty ++ b = b := by
  ext1; simp

theorem append_ofList_append (b : Buffer τ) (first second : List τ) :
    b ++ ofList (first ++ second) = b ++ ofList first ++ ofList second := by
  ext1; simp

/-! ## Taking from the front -/

/-- The first `n` tokens, or all there are, and the buffer behind them. -/
def splitAt (n : Nat) (b : Buffer τ) : List τ × Buffer τ :=
  b.read (fun tokens => (tokens.take n, ofList (tokens.drop n)))
    (fun q => (q.splitAt n).map id ofQueue)
    (fun q => by
      rw [Prod.map, ofQueue_eq, Queue.splitAt_fst, Queue.toList_splitAt_snd, id])

theorem splitAt_eq (n : Nat) (b : Buffer τ) :
    b.splitAt n = (b.toList.take n, ofList (b.toList.drop n)) :=
  read_eq ..

/-- The longest run of tokens at the front that all satisfy `p`, and the buffer behind it. -/
def span (p : τ → Bool) (b : Buffer τ) : List τ × Buffer τ :=
  b.read (fun tokens => (tokens.takeWhile p, ofList (tokens.dropWhile p)))
    (fun q => (q.span p).map id ofQueue)
    (fun q => by rw [Prod.map, ofQueue_eq, Queue.span_fst, Queue.toList_span_snd, id])

theorem span_eq (p : τ → Bool) (b : Buffer τ) :
    b.span p = (b.toList.takeWhile p, ofList (b.toList.dropWhile p)) :=
  read_eq ..

/-- What stands behind the longest run of tokens that all satisfy `p`. -/
def dropWhile (p : τ → Bool) (b : Buffer τ) : Buffer τ := (b.span p).2

theorem dropWhile_eq (p : τ → Bool) (b : Buffer τ) :
    b.dropWhile p = ofList (b.toList.dropWhile p) := by
  rw [dropWhile, span_eq]

/-- The first token and the buffer behind it. -/
def uncons? (b : Buffer τ) : Option (τ × Buffer τ) :=
  b.read
    (fun tokens => match tokens with
      | [] => none
      | t :: rest => some (t, ofList rest))
    (fun q => q.uncons?.map fun r => (r.1, ofQueue r.2))
    (fun q => by
      have h := congrArg (Option.map fun r : τ × List τ => (r.1, ofList r.2)) q.uncons?_eq
      rw [Option.map_map] at h
      simp only [ofQueue_eq]
      refine Eq.trans h ?_
      cases q.toList <;> rfl)

theorem uncons?_eq (b : Buffer τ) :
    b.uncons? = match b.toList with
      | [] => none
      | t :: rest => some (t, ofList rest) :=
  read_eq ..

end Buffer

end Piecemeal
