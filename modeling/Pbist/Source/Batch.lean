import Pbist.Source.Build
import Pbist.Source.Flatten
import Pbist.Library.Sorted
import Mathlib.Data.Multiset.MapFold
import Mathlib.Algebra.Order.Group.Multiset

/-!
# Batch operations on a node (`node.h`)

`do_contains`, `do_insert` and `do_remove` take a sorted batch and work on its part between two
borders. At an inner node, a first parallel loop searches every key of the part in the node; a
second one hands every run of keys that belong to the same child to that child. Insertion rebuilds
the subtree before it descends, removal after it.

All loops run in the order of a `Schedule`, and recursive calls on fuel. A rebuild leaves a record
of its size and its occasion; as rebuilds have no order, the records form a multiset.

## How the code is read

* Each procedure is divided as the source divides it: `nonTerminalDoInsert` and its siblings are
  functions of their recursive call `self`, and the bodies of the loops are definitions of their own
  (`markKey`, `insertRange`, `removeRange`, `containsKey`, `containsRange`).
* The first loops of insertion and removal are the same but for the value of the flag that they
  write, the parameter `exist` of `markKeys`. Everything else in which the two differ is written
  twice, as in the source: what becomes of a null child, and when a node is rebuilt.
* A node is a value. What a call does to the node behind its pointer, and the `optional` that it
  returns, are the two parts of an `Outcome`.
-/

namespace Pbist

open Checked

variable {T : Type}

/-- The record of one rebuild, that is of a call of `build_from_keys` in `do_insert` or
`do_remove`. -/
structure Rebuild where
  /-- Whether the rebuilt node was terminal. -/
  terminal : Bool
  /-- The modifications the node had seen before the call that rebuilt it. -/
  modificationsBefore : ℕ
  /-- The number of keys in the batch of that call. -/
  batchSize : ℕ
  /-- The number of keys that the node was rebuilt from. -/
  volume : ℕ
  deriving DecidableEq, Repr

/-- What a call of `do_insert` or `do_remove` leaves behind. -/
structure Outcome (T : Type) where
  /-- The node that the call was made on, with the changes made in place. -/
  node : Node T
  /-- The returned `optional`: the subtree that is to replace the node. -/
  replacement : Option (Option (Node T))
  /-- The rebuilds at the node and below. -/
  rebuilds : Multiset Rebuild

/-- What the pointer to the node holds after the caller has used the returned `optional`. -/
def Outcome.slot (out : Outcome T) : Option (Node T) :=
  out.replacement.getD (some out.node)

namespace Node

/-! ### Ranges of keys for one child -/

/-- `get_range_borders`. -/
def getRangeBorders (node : Node T) (childIdx : List ℤ) : Checked (List ℕ × List ℕ) := do
  require node.isStructureCorrect
  let allIndexes := List.range (childIdx.length + 1)
  -- where a block of equal entries other than -1 begins
  let rangeBegins ← filter (fun curIdx ↦ do
    require (0 ≤ curIdx ∧ curIdx ≤ childIdx.length)
    if curIdx = 0 then pure (decide ((← get childIdx 0) ≠ -1))
    else if 0 < curIdx ∧ curIdx < childIdx.length then
      if (← get childIdx curIdx) ≠ -1 then
        pure (decide ((← get childIdx curIdx) ≠ (← get childIdx (← subtract curIdx 1))))
      else pure false
    else pure false) allIndexes
  -- the index behind such a block, which for the last one is the size of the array
  let rangeEnds ← filter (fun curIdx ↦ do
    require (0 ≤ curIdx ∧ curIdx ≤ childIdx.length)
    if curIdx = 0 then pure false
    else if 0 < curIdx ∧ curIdx < childIdx.length then
      if (← get childIdx (← subtract curIdx 1)) ≠ -1 then
        pure (decide ((← get childIdx curIdx) ≠ (← get childIdx (← subtract curIdx 1))))
      else pure false
    else pure (decide ((← get childIdx (← subtract childIdx.length 1)) ≠ -1))) allIndexes
  require (rangeBegins.length = rangeEnds.length)
  pure (rangeBegins, rangeEnds)

/-- The second loop of the three batch operations: `onRange` gets the child index of a range and its
borders, relative to the part of the batch. -/
def forEachRange {S : Type} (σ : Schedule) (node : Node T) (childIdx : List ℤ)
    (onRange : Schedule → ℕ → ℕ → ℕ → S → Checked S) (s : S) : Checked S := do
  let (rangeBegins, rangeEnds) ← node.getRangeBorders childIdx
  parallelFor σ 0 rangeBegins.length (fun i s ↦ do
    let curRangeBegin ← get rangeBegins i
    let curRangeEnd ← get rangeEnds i
    require (0 ≤ curRangeBegin ∧ curRangeBegin < curRangeEnd ∧ curRangeEnd ≤ childIdx.length)
    let curChildIdx ← get childIdx curRangeBegin
    require (0 ≤ curChildIdx ∧ curChildIdx.toNat < node.children.length)
    onRange (σ.sub i) curChildIdx.toNat curRangeBegin curRangeEnd s) s

/-- The borders of a range in the whole batch, with the assertion on them. -/
def nextBorders (leftBorder rightBorder curRangeBegin curRangeEnd : ℕ) : Checked (ℕ × ℕ) := do
  let nextLeftBorder := leftBorder + curRangeBegin
  let nextRightBorder := leftBorder + curRangeEnd
  require (leftBorder ≤ nextRightBorder ∧ nextLeftBorder < nextRightBorder ∧
    nextRightBorder ≤ rightBorder)
  pure (nextLeftBorder, nextRightBorder)

variable [LinearOrder T] (A : Arith T)

/-! ### Batch contains -/

/-- One key in the first loop of `non_terminal_do_contains`: the result of a key that is found in
the node is written, and the child of any other key (`-1` stands for none). -/
def containsKey (node : Node T) (arr : List T) (leftBorder rightBorder keyIdx : ℕ)
    (s : Buffer Bool × Buffer ℤ) : Checked (Buffer Bool × Buffer ℤ) := do
  require (leftBorder ≤ keyIdx ∧ keyIdx < rightBorder)
  let (searchIdx, found) ← node.doSearch A (← get arr keyIdx)
  if found then do
    require ((← get node.keys searchIdx) = (← get arr keyIdx))
    let result ← Buffer.write s.1 keyIdx (← get node.keysExist searchIdx)
    let childIdx ← Buffer.write s.2 (← subtract keyIdx leftBorder) (-1)
    pure (result, childIdx)
  else do
    let childIdx ← Buffer.write s.2 (← subtract keyIdx leftBorder) (searchIdx : ℤ)
    pure (s.1, childIdx)

/-- The first loop of `non_terminal_do_contains`. -/
def containsKeys (σ : Schedule) (node : Node T) (arr : List T) (leftBorder rightBorder : ℕ)
    (result : Buffer Bool) : Checked (Buffer Bool × List ℤ) := do
  let rangeSize ← subtract rightBorder leftBorder
  let (result, childIdx) ← parallelFor σ leftBorder rightBorder
    (node.containsKey A arr leftBorder rightBorder) (result, (Buffer.raw rangeSize : Buffer ℤ))
  pure (result, ← Buffer.freeze childIdx)

/-- One range in the second loop of `non_terminal_do_contains`. -/
def containsRange
    (self : Schedule → Node T → List T → ℕ → ℕ → Buffer Bool → Checked (Buffer Bool))
    (node : Node T) (arr : List T) (leftBorder rightBorder : ℕ) (σ : Schedule)
    (curChildIdx curRangeBegin curRangeEnd : ℕ) (result : Buffer Bool) :
    Checked (Buffer Bool) := do
  match ← get node.children curChildIdx with
  | some child => do
    let (nextLeftBorder, nextRightBorder) ←
      nextBorders leftBorder rightBorder curRangeBegin curRangeEnd
    self σ child arr nextLeftBorder nextRightBorder result
  | none =>
    -- nothing is stored behind a null pointer
    parallelFor σ curRangeBegin curRangeEnd
      (fun curKeyIdx result ↦ Buffer.write result (leftBorder + curKeyIdx) false) result

/-- `non_terminal_do_contains`. `self` is the recursive call of `do_contains`. -/
def nonTerminalDoContains
    (self : Schedule → Node T → List T → ℕ → ℕ → Buffer Bool → Checked (Buffer Bool))
    (σ : Schedule) (node : Node T) (arr : List T) (leftBorder rightBorder : ℕ)
    (result : Buffer Bool) : Checked (Buffer Bool) := do
  require node.isStructureCorrect
  let (result, childIdx) ← node.containsKeys A (σ.sub 0) arr leftBorder rightBorder result
  node.forEachRange (σ.sub 1) childIdx (node.containsRange self arr leftBorder rightBorder) result

/-- One key in the loop of `do_contains` at a terminal node. -/
def terminalContainsKey (node : Node T) (arr : List T) (leftBorder rightBorder keyIdx : ℕ)
    (result : Buffer Bool) : Checked (Buffer Bool) := do
  require (leftBorder ≤ keyIdx ∧ keyIdx < rightBorder)
  let (searchIdx, found) ← node.doSearch A (← get arr keyIdx)
  if found then do
    require ((← get node.keys searchIdx) = (← get arr keyIdx))
    Buffer.write result keyIdx (← get node.keysExist searchIdx)
  else Buffer.write result keyIdx false

/-- `do_contains`. -/
def doContains :
    ℕ → Schedule → Node T → List T → ℕ → ℕ → Buffer Bool → Checked (Buffer Bool)
  | 0 => fun _ _ _ _ _ _ ↦ .error .outOfFuel
  | fuel + 1 => fun σ node arr leftBorder rightBorder result ↦ do
    require node.isStructureCorrect
    require (arr.length = result.length)
    requireBorders leftBorder rightBorder arr.length
    if ← node.isTerminal then
      parallelFor (σ.sub 0) leftBorder rightBorder
        (node.terminalContainsKey A arr leftBorder rightBorder) result
    else node.nonTerminalDoContains A (doContains fuel) (σ.sub 0) arr leftBorder rightBorder result

/-! ### Batch insert and batch remove -/

/-- One key in the first loop of `non_terminal_do_insert` (`exist = true`) and of
`non_terminal_do_remove` (`exist = false`): the flag of a key that is found in the node is flipped,
and the child of any other key is written. -/
def markKey (exist : Bool) (node : Node T) (keys : List T) (leftBorder rightBorder keyIdx : ℕ)
    (s : List Bool × Buffer ℤ) : Checked (List Bool × Buffer ℤ) := do
  require (leftBorder ≤ keyIdx ∧ keyIdx < rightBorder)
  let (searchIdx, found) ← node.doSearch A (← get keys keyIdx)
  if found then do
    require (searchIdx < node.keys.length)
    require ((← get node.keys searchIdx) = (← get keys keyIdx))
    require ((← get s.1 searchIdx) = !exist)
    let keysExist ← put s.1 searchIdx exist
    let childIdx ← Buffer.write s.2 (← subtract keyIdx leftBorder) (-1)
    pure (keysExist, childIdx)
  else do
    let childIdx ← Buffer.write s.2 (← subtract keyIdx leftBorder) (searchIdx : ℤ)
    pure (s.1, childIdx)

/-- The first loop of `non_terminal_do_insert` and of `non_terminal_do_remove`. -/
def markKeys (exist : Bool) (σ : Schedule) (node : Node T) (keys : List T)
    (leftBorder rightBorder : ℕ) : Checked (List Bool × List ℤ) := do
  let rangeSize ← subtract rightBorder leftBorder
  let (keysExist, childIdx) ← parallelFor σ leftBorder rightBorder
    (node.markKey A exist keys leftBorder rightBorder)
    (node.keysExist, (Buffer.raw rangeSize : Buffer ℤ))
  pure (keysExist, ← Buffer.freeze childIdx)

/-- The children of a node while the second loop runs, and the rebuilds below them so far. -/
abbrev ChildrenState (T : Type) := List (Option (Node T)) × Multiset Rebuild

/-- A child pointer is replaced when the call on the child returned a replacement. -/
def useOutcome (curChildIdx : ℕ) (out : Outcome T) (s : ChildrenState T) :
    Checked (ChildrenState T) := do
  pure (← put s.1 curChildIdx out.slot, s.2 + out.rebuilds)

/-- One range in the second loop of `non_terminal_do_insert`. -/
def insertRange (self : Schedule → Node T → List T → ℕ → ℕ → ℕ → Checked (Outcome T))
    (keys : List T) (sizeThreshold leftBorder rightBorder : ℕ) (σ : Schedule)
    (curChildIdx curRangeBegin curRangeEnd : ℕ) (s : ChildrenState T) :
    Checked (ChildrenState T) := do
  let (nextLeftBorder, nextRightBorder) ←
    nextBorders leftBorder rightBorder curRangeBegin curRangeEnd
  match ← get s.1 curChildIdx with
  | some child => do
    let out ← self σ child keys sizeThreshold nextLeftBorder nextRightBorder
    useOutcome curChildIdx out s
  | none => do
    -- the keys for a null pointer become a subtree of their own
    let built ← doBuildFromKeys A keys sizeThreshold (nextRightBorder - nextLeftBorder + 1) σ
      nextLeftBorder nextRightBorder
    pure (← put s.1 curChildIdx built, s.2)

/-- `non_terminal_do_insert`. `self` is the recursive call of `do_insert`. -/
def nonTerminalDoInsert
    (self : Schedule → Node T → List T → ℕ → ℕ → ℕ → Checked (Outcome T))
    (σ : Schedule) (node : Node T) (keys : List T) (sizeThreshold leftBorder rightBorder : ℕ) :
    Checked (Outcome T) := do
  require node.isStructureCorrect
  let (keysExist, childIdx) ← node.markKeys A true (σ.sub 0) keys leftBorder rightBorder
  let (children, rebuilds) ← node.forEachRange (σ.sub 1) childIdx
    (insertRange A self keys sizeThreshold leftBorder rightBorder) (node.children, 0)
  pure { node := { node with keysExist, children }, replacement := none, rebuilds }

/-- One range in the second loop of `non_terminal_do_remove`. -/
def removeRange (self : Schedule → Node T → List T → ℕ → ℕ → ℕ → Checked (Outcome T))
    (keys : List T) (sizeThreshold leftBorder rightBorder : ℕ) (σ : Schedule)
    (curChildIdx curRangeBegin curRangeEnd : ℕ) (s : ChildrenState T) :
    Checked (ChildrenState T) := do
  let (nextLeftBorder, nextRightBorder) ←
    nextBorders leftBorder rightBorder curRangeBegin curRangeEnd
  match ← get s.1 curChildIdx with
  | some child => do
    let out ← self σ child keys sizeThreshold nextLeftBorder nextRightBorder
    useOutcome curChildIdx out s
  | none => .error .nullPointer

/-- `non_terminal_do_remove`. `self` is the recursive call of `do_remove`. -/
def nonTerminalDoRemove
    (self : Schedule → Node T → List T → ℕ → ℕ → ℕ → Checked (Outcome T))
    (σ : Schedule) (node : Node T) (keys : List T) (sizeThreshold leftBorder rightBorder : ℕ) :
    Checked (Outcome T) := do
  require node.isStructureCorrect
  let (keysExist, childIdx) ← node.markKeys A false (σ.sub 0) keys leftBorder rightBorder
  let (children, rebuilds) ← node.forEachRange (σ.sub 1) childIdx
    (removeRange self keys sizeThreshold leftBorder rightBorder) (node.children, 0)
  pure { node := { node with keysExist, children }, replacement := none, rebuilds }

/-- One key of `all_keys_not_exist`. -/
def keyNotExists (node : Node T) (keys : List T) (leftBorder i : ℕ) : Checked Bool := do
  let (idx, found) ← node.doSearch A (← get keys (leftBorder + i))
  if found then do
    require (idx < node.keys.length)
    require ((← get node.keys idx) = (← get keys (leftBorder + i)))
    pure !(← get node.keysExist idx)
  else pure true

/-- `all_keys_not_exist`. -/
def allKeysNotExist (node : Node T) (keys : List T) (leftBorder rightBorder : ℕ) :
    Checked Bool := do
  require node.isStructureCorrect
  let notExists ← tabulate (← subtract rightBorder leftBorder) (node.keyNotExists A keys leftBorder)
  pure (notExists.foldl (· && ·) true)

/-- `do_insert`. -/
def doInsert (coefficient : ℕ) :
    ℕ → Schedule → Node T → List T → ℕ → ℕ → ℕ → Checked (Outcome T)
  | 0 => fun _ _ _ _ _ _ ↦ .error .outOfFuel
  | fuel + 1 => fun σ node keys sizeThreshold leftBorder rightBorder ↦ do
    require node.isStructureCorrect
    requireBorders leftBorder rightBorder keys.length
    let newKeysCount ← subtract rightBorder leftBorder
    let terminal ← node.isTerminal
    if terminal || node.shouldRebuild coefficient newKeysCount then do
      -- the whole subtree is rebuilt from its keys and the batch, without descending
      require (← node.allKeysNotExist A keys leftBorder rightBorder)
      let curKeys ← node.getKeys node.height (σ.sub 0)
      let allKeys := Sorted.mergeLists curKeys (← slice keys leftBorder rightBorder)
      require (← isSorted allKeys)
      let rebuilt ← buildFromKeys A allKeys (σ.sub 1) sizeThreshold
      pure
        { node
          replacement := some rebuilt
          rebuilds := {⟨terminal, node.modificationsCount, newKeysCount, allKeys.length⟩} }
    else do
      let node := { node with
        modificationsCount := node.modificationsCount + newKeysCount
        curSize := node.curSize + newKeysCount }
      node.nonTerminalDoInsert A (doInsert coefficient fuel) (σ.sub 0) keys sizeThreshold
        leftBorder rightBorder

/-- One key in the loop of `do_remove` at a terminal node. -/
def removeKey (node : Node T) (keys : List T) (removeKeyIdx : ℕ) (keysExist : List Bool) :
    Checked (List Bool) := do
  let (idx, found) ← node.doSearch A (← get keys removeKeyIdx)
  require (found ∧ idx < node.keys.length)
  require ((← get node.keys idx) = (← get keys removeKeyIdx))
  require ((← get keysExist idx) = true)
  put keysExist idx false

/-- The loop of `do_remove` at a terminal node. -/
def terminalDoRemove (σ : Schedule) (node : Node T) (keys : List T) (leftBorder rightBorder : ℕ) :
    Checked (Outcome T) := do
  let keysExist ← parallelFor σ leftBorder rightBorder (node.removeKey A keys) node.keysExist
  pure { node := { node with keysExist }, replacement := none, rebuilds := 0 }

/-- The end of `do_remove`: the node is rebuilt if the modifications call for it. `record` makes the
record of a rebuild from its volume. -/
def rebuildAfterRemove (coefficient : ℕ) (σ : Schedule) (sizeThreshold : ℕ) (record : ℕ → Rebuild)
    (out : Outcome T) : Checked (Outcome T) := do
  if out.node.shouldRebuild coefficient 0 then do
    let curKeys ← out.node.getKeys out.node.height (σ.sub 1)
    require (← isSorted curKeys)
    let rebuilt ← buildFromKeys A curKeys (σ.sub 2) sizeThreshold
    pure
      { node := out.node
        replacement := some rebuilt
        rebuilds := record curKeys.length ::ₘ out.rebuilds }
  else pure out

/-- `do_remove`. -/
def doRemove (coefficient : ℕ) :
    ℕ → Schedule → Node T → List T → ℕ → ℕ → ℕ → Checked (Outcome T)
  | 0 => fun _ _ _ _ _ _ ↦ .error .outOfFuel
  | fuel + 1 => fun σ node keys sizeThreshold leftBorder rightBorder ↦ do
    require node.isStructureCorrect
    requireBorders leftBorder rightBorder keys.length
    let keysCount ← subtract rightBorder leftBorder
    require (keysCount ≤ node.curSize)
    -- the counters change first, so the test at the end counts this batch
    let modificationsBefore := node.modificationsCount
    let node := { node with
      modificationsCount := node.modificationsCount + keysCount
      curSize := ← subtract node.curSize keysCount }
    let terminal ← node.isTerminal
    let out ←
      if terminal then node.terminalDoRemove A (σ.sub 0) keys leftBorder rightBorder
      else
        node.nonTerminalDoRemove A (doRemove coefficient fuel) (σ.sub 0) keys sizeThreshold
          leftBorder rightBorder
    rebuildAfterRemove A coefficient σ sizeThreshold
      (fun volume ↦ ⟨terminal, modificationsBefore, keysCount, volume⟩) out

end Node

end Pbist
