/-!
# Collecting values

Loops collect their values newest first, so that adding one costs little and a branch that is given
up leaves no trace in the collection it started from.
-/

namespace Piecemeal

/-- A collection under way. -/
structure Gather (α : Type) where
  newestFirst : List α

namespace Gather

variable {α : Type}

def empty : Gather α := ⟨[]⟩

def add (g : Gather α) (a : α) : Gather α := ⟨a :: g.newestFirst⟩

/-- The values in the order in which they were added. -/
def toList (g : Gather α) : List α := g.newestFirst.reverse

@[simp] theorem toList_empty : (empty : Gather α).toList = [] := rfl

@[simp] theorem toList_add (g : Gather α) (a : α) : (g.add a).toList = g.toList ++ [a] := by
  simp [add, toList]

/-- Adds all of a list, in order. -/
def addAll (g : Gather α) (values : List α) : Gather α := values.foldl add g

@[simp] theorem toList_addAll (g : Gather α) (values : List α) :
    (g.addAll values).toList = g.toList ++ values := by
  unfold addAll
  induction values generalizing g with
  | nil => simp
  | cons a rest ih => rw [List.foldl_cons, ih, toList_add, List.append_assoc, List.singleton_append]

end Gather

end Piecemeal
