import Piecemeal.Arena.Machine

/-!
# Register programs over lists

The same programs with a list of tokens in each register in place of a window. Nothing is shared
here, so nothing can change behind a register's back.
-/

namespace Piecemeal.Arena

variable {τ : Type}

/-- The part of a list between two bounds, which are moved to its ends where they lie outside. -/
def listSlice (tokens : List τ) (lo hi : Int) : List τ :=
  let lo := clamp lo 0 tokens.length
  let hi := clamp hi lo tokens.length
  (tokens.take hi).drop lo

structure ListMachine (τ : Type) where
  registers : List (List τ)

namespace ListMachine

def initial : ListMachine τ := ⟨[]⟩

/-- Puts a list into a new register and shows it. -/
def keep (m : ListMachine τ) (tokens : List τ) : Answer τ × ListMachine τ :=
  (.tokens tokens, ⟨m.registers ++ [tokens]⟩)

/-- Puts two lists into new registers and shows them. -/
def keepTwo (m : ListMachine τ) (first second : List τ) : Answer τ × ListMachine τ :=
  (.pair first second, ⟨m.registers ++ [first, second]⟩)

/-- Carries out an instruction, if the registers it names exist. -/
def step (m : ListMachine τ) (i : Instruction τ) : Option (Answer τ × ListMachine τ) :=
  match i with
  | .empty => some (m.keep [])
  | .load (.tokens ts) => some (m.keep ts)
  | .load (.register r) => m.registers[r]?.map m.keep
  | .append r (.tokens ts) => m.registers[r]?.map fun x => m.keep (x ++ ts)
  | .append r (.register s) | .concat r s =>
    m.registers[r]?.bind fun x => m.registers[s]?.map fun y => m.keep (x ++ y)
  | .take r n => m.registers[r]?.map fun x => m.keep (x.take n.toNat)
  | .drop r n => m.registers[r]?.map fun x => m.keep (x.drop n.toNat)
  | .slice r lo hi => m.registers[r]?.map fun x => m.keep (listSlice x lo (hi.getD x.length))
  | .splitAt r n => m.registers[r]?.map fun x => m.keepTwo (x.take n.toNat) (x.drop n.toNat)
  | .span r p => m.registers[r]?.map fun x => m.keepTwo (x.takeWhile p) (x.dropWhile p)
  | .dropWhile r p => m.registers[r]?.map fun x => m.keep (x.dropWhile p)
  | .uncons r =>
    m.registers[r]?.map fun
      | [] => (.headTail none, m)
      | t :: rest => (.headTail (some (t, rest)), ⟨m.registers ++ [rest]⟩)
  | .size r => m.registers[r]?.map fun x => (.number x.length, m)
  | .isEmpty r => m.registers[r]?.map fun x => (.truth x.isEmpty, m)
  | .get r i => m.registers[r]?.map fun x => (.token (if 0 ≤ i then x[i.toNat]? else none), m)
  | .countWhile r p => m.registers[r]?.map fun x => (.number (x.takeWhile p).length, m)
  | .tokens r => m.registers[r]?.map fun x => (.tokens x, m)

def run (m : ListMachine τ) (program : List (Instruction τ)) :
    Option (List (Answer τ) × ListMachine τ) :=
  Arena.run step m program

end ListMachine

end Piecemeal.Arena
