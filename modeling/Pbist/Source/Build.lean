import Pbist.Source.Node
import Pbist.Library.ParallelFor
import Mathlib.Data.Nat.Sqrt

/-!
# Building a tree from sorted keys (`build.h`)

A range of more than `size_threshold` keys is cut into cells of `floor(sqrt(n))` keys with one
representative between neighbouring cells; the last cell is what is left over. Every cell becomes a
child, every separating key a representative of the new node. The arrays of representatives and of
children are raw memory that the loop over the cells fills.

The body of `do_build_from_keys` is a definition of its own, `buildRange`, with the recursive calls
as a parameter; the loop over the cells is `buildCells`.
-/

namespace Pbist

open Checked

variable {T : Type} (A : Arith T) (keys : List T)

/-- `do_build_single_cell`. `build` is the recursive call of `do_build_from_keys`. -/
def doBuildSingleCell (build : ℕ → ℕ → Checked (Option (Node T)))
    (blockSize repSize left right childIdx : ℕ) (cells : Buffer T × Buffer (Option (Node T))) :
    Checked (Buffer T × Buffer (Option (Node T))) :=
  if childIdx < repSize then do
    let startIdx := left + childIdx * (blockSize + 1)
    let endIdx := startIdx + blockSize
    let reps ← Buffer.construct cells.1 childIdx (← get keys endIdx)
    let children ← Buffer.construct cells.2 childIdx (← build startIdx endIdx)
    pure (reps, children)
  else do
    require (childIdx = repSize)
    let startIdx := left + childIdx * (blockSize + 1)
    let endIdx := right
    let children ← Buffer.construct cells.2 childIdx (← build startIdx endIdx)
    pure (cells.1, children)

/-- The cost that `do_build_from_keys` reports for the cells `leftIdx, ..., rightIdx - 1`. -/
def cellsCost (blockSize repSize left right leftIdx rightIdx : ℕ) : Checked ℕ := do
  require (0 ≤ leftIdx ∧ leftIdx < rightIdx ∧ rightIdx ≤ repSize + 1)
  if rightIdx < repSize + 1 then pure ((blockSize + 1) * (← subtract rightIdx leftIdx))
  else do
    require (rightIdx = repSize + 1)
    let startIdx := left + leftIdx * (blockSize + 1)
    subtract right startIdx

/-- The loop of `do_build_from_keys` over the cells, which constructs every cell of the raw arrays
of representatives and of children. `build childIdx` is the recursive call of iteration
`childIdx`. -/
def buildCells (build : ℕ → ℕ → ℕ → Checked (Option (Node T))) (σ : Schedule)
    (blockSize repSize left right : ℕ) : Checked (Buffer T × Buffer (Option (Node T))) := do
  -- the scheduler may ask for the cost of any range of cells; only the assertions matter here
  let _ ← tabulate (repSize + 1) fun leftIdx ↦
    tabulate (repSize + 1 - leftIdx) fun width ↦
      cellsCost blockSize repSize left right leftIdx (leftIdx + width + 1)
  parallelFor σ 0 (repSize + 1)
    (fun childIdx cells ↦
      doBuildSingleCell keys (build childIdx) blockSize repSize left right childIdx cells)
    (Buffer.raw repSize, Buffer.raw (repSize + 1))

/-- The body of `do_build_from_keys`, whose recursive calls are `build`. -/
def buildRange (sizeThreshold : ℕ) (build : ℕ → ℕ → ℕ → Checked (Option (Node T)))
    (σ : Schedule) (left right : ℕ) : Checked (Option (Node T)) := do
  require (left ≤ right)
  if left = right then pure none
  else do
    let keysCount ← subtract right left
    if keysCount ≤ sizeThreshold then do
      let reps ← tabulate keysCount fun repIdx ↦ get keys (repIdx + left)
      pure (some (← Node.new A reps [] keysCount))
    else do
      let blockSize := Nat.sqrt keysCount
      let repSize := keysCount / (blockSize + 1)
      let (reps, children) ← buildCells keys build σ blockSize repSize left right
      pure (some (← Node.new A (← Buffer.freeze reps) (← Buffer.freeze children) keysCount))

/-- `do_build_from_keys`. The recursion runs on fuel. -/
def doBuildFromKeys (sizeThreshold : ℕ) :
    ℕ → Schedule → ℕ → ℕ → Checked (Option (Node T))
  | 0 => fun _ _ _ ↦ .error .outOfFuel
  | fuel + 1 => fun σ ↦ buildRange A keys sizeThreshold
      (fun childIdx ↦ doBuildFromKeys sizeThreshold fuel (σ.sub childIdx)) σ

/-- `build_from_keys`. Every recursive call gets a shorter range, so one more unit of fuel than
there are keys is enough. -/
def buildFromKeys [LinearOrder T] (σ : Schedule) (sizeThreshold : ℕ) :
    Checked (Option (Node T)) := do
  require (← isSorted keys)
  doBuildFromKeys A keys sizeThreshold (keys.length + 1) σ 0 keys.length

end Pbist
