/-!
# Windows over shared arenas

Another way to keep token sequences: an *arena* is an array that only grows, and a *window* shows a
part of one. Taking a part of a window costs nothing, since it shares the arena. Appending pushes
onto the arena where the window ends at the arena's tip, and copies the window to a new arena
otherwise, so no window ever changes what it shows, although windows share arenas that grow.
-/

namespace Piecemeal.Arena

variable {τ : Type}

/-- The positions from `start` up to `stop` of an arena. -/
structure Window where
  arena : Nat
  start : Nat
  stop : Nat
deriving DecidableEq, Repr

structure Store (τ : Type) where
  arenas : Array (Array τ)

/-- The integer nearest to `n` from `lo` to `hi`. -/
def clamp (n : Int) (lo hi : Nat) : Nat := min (max n lo) hi |>.toNat

namespace Window

def size (w : Window) : Nat := w.stop - w.start

def isEmpty (w : Window) : Bool := w.stop == w.start

/-- The part from position `lo` up to position `hi`. Bounds outside the window are moved to its
ends, and an upper bound below the lower one leaves nothing. -/
def slice (w : Window) (lo hi : Int) : Window :=
  let lo := clamp lo 0 w.size
  let hi := clamp hi lo w.size
  { w with start := w.start + lo, stop := w.start + hi }

def take (w : Window) (n : Int) : Window := w.slice 0 n

def drop (w : Window) (n : Int) : Window := w.slice n w.size

def splitAt (w : Window) (n : Int) : Window × Window := (w.take n, w.drop n)

end Window

namespace Store

def empty : Store τ := ⟨#[]⟩

def arena (s : Store τ) (w : Window) : Array τ := s.arenas.getD w.arena #[]

def toList (s : Store τ) (w : Window) : List τ := ((s.arena w).extract w.start w.stop).toList

/-- The token at position `i` of a window. -/
def get? (s : Store τ) (w : Window) (i : Int) : Option τ :=
  if 0 ≤ i ∧ i < w.size then (s.arena w)[w.start + i.toNat]? else none

/-- How many tokens at the front of a window satisfy `p`. -/
def countWhile (s : Store τ) (w : Window) (p : τ → Bool) : Nat :=
  ((s.toList w).takeWhile p).length

def span (s : Store τ) (w : Window) (p : τ → Bool) : Window × Window :=
  w.splitAt (s.countWhile w p)

def dropWhile (s : Store τ) (w : Window) (p : τ → Bool) : Window := w.drop (s.countWhile w p)

/-- The first token of a window and the window behind it. -/
def uncons? (s : Store τ) (w : Window) : Option (τ × Window) :=
  (s.get? w 0).map fun t => (t, w.drop 1)

/-- A new arena, shown whole. -/
def allocate (s : Store τ) (tokens : List τ) : Window × Store τ :=
  (⟨s.arenas.size, 0, tokens.length⟩, ⟨s.arenas.push tokens.toArray⟩)

/-- A window on the tokens of `w` that ends at the tip of its arena: `w` itself if it does, or else
a copy in a new arena. -/
def atTip (s : Store τ) (w : Window) : Window × Store τ :=
  if w.stop = (s.arena w).size then (w, s) else s.allocate (s.toList w)

def grow (s : Store τ) (i : Nat) (tokens : List τ) : Store τ := ⟨s.arenas.modify i (· ++ tokens)⟩

/-- A window on the tokens of `w` and then `tokens`. -/
def append (s : Store τ) (w : Window) (tokens : List τ) : Window × Store τ :=
  let (tip, s) := s.atTip w
  ({ tip with stop := tip.stop + tokens.length }, s.grow tip.arena tokens)

/-- Pushes the `count` tokens from position `i` of the arena `source` on onto the arena `target`,
which may be the same one. Each token is read when its turn comes. -/
def pushFrom (source target : Nat) : (i count : Nat) → Store τ → Store τ
  | _, 0, s => s
  | i, count + 1, s =>
    match (s.arenas.getD source #[])[i]? with
    | none => s
    | some t => pushFrom source target (i + 1) count (s.grow target [t])

/-- A window on the tokens of `w` and then those of `v`, which are read while the arena grows. -/
def appendWindow (s : Store τ) (w v : Window) : Window × Store τ :=
  let (tip, s) := s.atTip w
  let s := pushFrom v.arena tip.arena v.start v.size s
  ({ tip with stop := (s.arena tip).size }, s)

/-- A window on the tokens of `w` and then those of `v`. Where one of them is empty, it is the other
window itself. -/
def concat (s : Store τ) (w v : Window) : Window × Store τ :=
  if v.isEmpty then (w, s)
  else if w.isEmpty then (v, s)
  else s.appendWindow w v

end Store

end Piecemeal.Arena
