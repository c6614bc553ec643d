import Piecemeal.Arena.Basic

/-!
# Register programs over arenas

A program makes windows, keeps each in a register of its own and asks what the registers show. All
registers share one store.
-/

namespace Piecemeal.Arena

variable {τ : Type}

/-- Tokens given outright, or those that a register shows. -/
inductive Operand (τ : Type)
  | tokens (ts : List τ)
  | register (r : Nat)

/-- An operation on windows held in registers. The windows it makes go to new registers. -/
inductive Instruction (τ : Type)
  | empty
  | load (items : Operand τ)
  | append (r : Nat) (items : Operand τ)
  | concat (r s : Nat)
  | take (r : Nat) (n : Int)
  | drop (r : Nat) (n : Int)
  /-- The part of a window between two bounds, or from one bound on. -/
  | slice (r : Nat) (lo : Int) (hi : Option Int)
  | splitAt (r : Nat) (n : Int)
  | span (r : Nat) (p : τ → Bool)
  | dropWhile (r : Nat) (p : τ → Bool)
  | uncons (r : Nat)
  | size (r : Nat)
  | isEmpty (r : Nat)
  | get (r : Nat) (i : Int)
  | countWhile (r : Nat) (p : τ → Bool)
  | tokens (r : Nat)

inductive Answer (τ : Type)
  | tokens (ts : List τ)
  | pair (first second : List τ)
  | headTail (parts : Option (τ × List τ))
  | token (t : Option τ)
  | number (n : Nat)
  | truth (b : Bool)
deriving DecidableEq

/-- Carries out a program on a machine that carries out an instruction by `step`. -/
def run {μ : Type} (step : μ → Instruction τ → Option (Answer τ × μ)) (m : μ) :
    List (Instruction τ) → Option (List (Answer τ) × μ)
  | [] => some ([], m)
  | i :: rest => do
    let (answer, m) ← step m i
    let (answers, m) ← run step m rest
    return (answer :: answers, m)

structure Machine (τ : Type) where
  store : Store τ
  registers : Array Window

namespace Machine

def initial : Machine τ := ⟨.empty, #[]⟩

def contents (m : Machine τ) : List (List τ) := m.registers.toList.map m.store.toList

/-- Puts a window into a new register and shows it. -/
def keep (m : Machine τ) (made : Window × Store τ) : Answer τ × Machine τ :=
  (.tokens (made.2.toList made.1), ⟨made.2, m.registers.push made.1⟩)

/-- Puts two windows into new registers and shows them. -/
def keepTwo (m : Machine τ) (made : Window × Window) : Answer τ × Machine τ :=
  (.pair (m.store.toList made.1) (m.store.toList made.2),
    { m with registers := (m.registers.push made.1).push made.2 })

/-- Carries out an instruction, if the registers it names exist. -/
def step (m : Machine τ) (i : Instruction τ) : Option (Answer τ × Machine τ) :=
  match i with
  | .empty => some (m.keep (m.store.allocate []))
  | .load (.tokens ts) => some (m.keep (m.store.allocate ts))
  | .load (.register r) => m.registers[r]?.map fun w => m.keep (w, m.store)
  | .append r (.tokens ts) => m.registers[r]?.map fun w => m.keep (m.store.append w ts)
  | .append r (.register s) =>
    m.registers[r]?.bind fun w => m.registers[s]?.map fun v =>
      m.keep (m.store.appendWindow w v)
  | .concat r s =>
    m.registers[r]?.bind fun w => m.registers[s]?.map fun v => m.keep (m.store.concat w v)
  | .take r n => m.registers[r]?.map fun w => m.keep (w.take n, m.store)
  | .drop r n => m.registers[r]?.map fun w => m.keep (w.drop n, m.store)
  | .slice r lo hi =>
    m.registers[r]?.map fun w => m.keep (w.slice lo (hi.getD w.size), m.store)
  | .splitAt r n => m.registers[r]?.map fun w => m.keepTwo (w.splitAt n)
  | .span r p => m.registers[r]?.map fun w => m.keepTwo (m.store.span w p)
  | .dropWhile r p => m.registers[r]?.map fun w => m.keep (m.store.dropWhile w p, m.store)
  | .uncons r =>
    m.registers[r]?.map fun w =>
      match m.store.uncons? w with
      | none => (.headTail none, m)
      | some (t, tail) =>
        (.headTail (some (t, m.store.toList tail)), { m with registers := m.registers.push tail })
  | .size r => m.registers[r]?.map fun w => (.number w.size, m)
  | .isEmpty r => m.registers[r]?.map fun w => (.truth w.isEmpty, m)
  | .get r i => m.registers[r]?.map fun w => (.token (m.store.get? w i), m)
  | .countWhile r p => m.registers[r]?.map fun w => (.number (m.store.countWhile w p), m)
  | .tokens r => m.registers[r]?.map fun w => (.tokens (m.store.toList w), m)

def run (m : Machine τ) (program : List (Instruction τ)) : Option (List (Answer τ) × Machine τ) :=
  Arena.run step m program

end Machine

end Piecemeal.Arena
