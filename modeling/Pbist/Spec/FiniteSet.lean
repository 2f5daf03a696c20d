import Pbist.Source.Tree
import Mathlib.Data.Finset.Card
import Mathlib.Data.List.Sort

/-!
# What the tree is for: a finite set

The abstract state is the set of stored keys. Insertion and removal of a batch are union and
difference, and report for each key of the batch whether it made a difference; lookups report
membership. The tree, its nodes, its schedules and its rebuilds do not occur here.

`Op.effect` and `Op.answer` are the two halves of an operation, `setRun` is the run of the abstract
state. They are stated for `Finset`, so membership can be decided and small runs evaluated.
-/

namespace Pbist

variable {T : Type}

/-- The keys that an operation is given. -/
def Op.keys : Op T → List T
  | .insert keys => keys
  | .remove keys => keys
  | .contains keys => keys
  | .containsKey key => [key]
  | .calcTreeSize => []

variable [LinearOrder T]

/-- The operations that the interface allows: the batch is strictly increasing, and the keys lie
in `W`. -/
structure Op.Valid (W : Set T) (op : Op T) : Prop where
  sorted : op.keys.SortedLT
  mem : ∀ x ∈ op.keys, x ∈ W

/-- The stored set after an operation. -/
def Op.effect (S : Finset T) : Op T → Finset T
  | .insert keys => S ∪ keys.toFinset
  | .remove keys => S \ keys.toFinset
  | .contains _ => S
  | .containsKey _ => S
  | .calcTreeSize => S

/-- What an operation returns. -/
def Op.answer (S : Finset T) : Op T → Reply
  | .insert keys => .flags (keys.map fun k ↦ decide (k ∉ S))
  | .remove keys => .flags (keys.map fun k ↦ decide (k ∈ S))
  | .contains keys => .flags (keys.map fun k ↦ decide (k ∈ S))
  | .containsKey key => .flag (decide (key ∈ S))
  | .calcTreeSize => .size S.card

/-- The state of an abstract run: the stored set and the replies so far. -/
structure SetState (T : Type) where
  stored : Finset T
  replies : List Reply

/-- One operation of an abstract run. -/
def SetState.next (x : SetState T) (op : Op T) : SetState T where
  stored := op.effect x.stored
  replies := x.replies ++ [op.answer x.stored]

/-- An abstract run that starts with the given keys. -/
def setRun (keys : List T) (ops : List (Op T)) : SetState T :=
  ops.foldl SetState.next ⟨keys.toFinset, []⟩

end Pbist
