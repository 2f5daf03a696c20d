import Pbist.Source.Node
import Pbist.Library.ParallelFor

/-!
# Reading the keys of a subtree (`node.h`)

The parallel flattening `get_keys`, the two sequential dumps that the tests use, and
`calc_node_size`. Flattening computes for every key and every child where its part of the output
begins, by an exclusive scan over the sizes, and then fills the raw output array in parallel.
Recursive calls run on fuel, the height of the subtree at the least.

## How the code is read

The array that `get_keys` fills is raw memory, a `Buffer`, and is read when all its loops are over;
a cell that was not written by then is a fault. The two loops of `do_get_keys` are the branches of a
fork, either of which may come first, and each of them runs in the order of the schedule. The dumps
are sequential and append to a list, as the code does.
-/

namespace Pbist

open Checked

variable {T : Type}

/-- `scan(..., forward_exclusive_scan)` with `+`. -/
def exclusiveScan (sizes : List ℕ) : List ℕ :=
  (List.range sizes.length).map fun i ↦ (sizes.take i).sum

namespace Node

/-! ### Parallel flattening -/

/-- `get_sizes`. -/
def getSizes (node : Node T) : Checked (List ℕ) := do
  require node.isStructureCorrect
  if ← node.isTerminal then do
    require (node.children.length = 0)
    tabulate node.keys.length fun idx ↦ do pure (← get node.keysExist idx).toNat
  else do
    require (node.keys.length + 1 = node.children.length)
    tabulate (node.keys.length + node.children.length) fun idx ↦ do
      let i := idx / 2
      if idx % 2 = 0 then
        match ← get node.children i with
        | some child => pure child.curSize
        | none => pure 0
      else pure (← get node.keysExist i).toNat

/-- `get_border_idx_by_key_idx`. -/
def getBorderIdxByKeyIdx (node : Node T) (keyIdx : ℕ) : Checked ℕ := do
  require node.isStructureCorrect
  if ← node.isTerminal then pure keyIdx else pure (2 * keyIdx + 1)

/-- One key in the loop of `do_get_keys_from_cur_node`. -/
def getKeyFromCurNode (node : Node T) (borders : List ℕ) (left right keyIdx : ℕ)
    (keysHolder : Buffer T) : Checked (Buffer T) := do
  let borderIdx ← node.getBorderIdxByKeyIdx keyIdx
  require (borderIdx < borders.length)
  let keyPos := left + (← get borders borderIdx)
  let nextKeyPos ←
    if borderIdx + 1 < borders.length then do pure (left + (← get borders (borderIdx + 1)))
    else pure right
  if ← get node.keysExist keyIdx then do
    require (nextKeyPos = keyPos + 1)
    keysHolder.write keyPos (← get node.keys keyIdx)
  else do
    require (nextKeyPos = keyPos)
    pure keysHolder

/-- `do_get_keys_from_cur_node`. -/
def doGetKeysFromCurNode (σ : Schedule) (node : Node T) (borders : List ℕ) (left right : ℕ)
    (keysHolder : Buffer T) : Checked (Buffer T) := do
  require node.isStructureCorrect
  parallelFor σ 0 node.keys.length (node.getKeyFromCurNode borders left right) keysHolder

/-- One child in the loop of `do_get_keys_from_children`. -/
def getKeysFromChild (self : Schedule → Node T → ℕ → ℕ → Buffer T → Checked (Buffer T))
    (σ : Schedule) (node : Node T) (borders : List ℕ) (left right childIdx : ℕ)
    (keysHolder : Buffer T) : Checked (Buffer T) := do
  let borderIdx := 2 * childIdx
  let curLeft := left + (← get borders borderIdx)
  require (borderIdx < borders.length)
  let curRight ←
    if borderIdx < (← subtract borders.length 1) then do
      pure (left + (← get borders (borderIdx + 1)))
    else pure right
  match ← get node.children childIdx with
  | none => pure keysHolder
  | some child => do
    require (child.curSize = (← subtract curRight curLeft))
    if curLeft < curRight then self (σ.sub childIdx) child curLeft curRight keysHolder
    else pure keysHolder

/-- `do_get_keys_from_children`. `self` is the recursive call of `do_get_keys`. -/
def doGetKeysFromChildren (self : Schedule → Node T → ℕ → ℕ → Buffer T → Checked (Buffer T))
    (σ : Schedule) (node : Node T) (borders : List ℕ) (left right : ℕ) (keysHolder : Buffer T) :
    Checked (Buffer T) := do
  require node.isStructureCorrect
  parallelFor σ 0 node.children.length (node.getKeysFromChild self σ borders left right) keysHolder

/-- `do_get_keys`. -/
def doGetKeys : ℕ → Schedule → Node T → ℕ → ℕ → Buffer T → Checked (Buffer T)
  | 0 => fun _ _ _ _ _ ↦ .error .outOfFuel
  | fuel + 1 => fun σ node left right keysHolder ↦ do
    require node.isStructureCorrect
    require (0 ≤ left ∧ left < right ∧ right ≤ keysHolder.length)
    let sizes ← node.getSizes
    require (sizes.length = node.keys.length + node.children.length)
    -- `borders[i]` is the number of stored keys in front of block `i`
    let borders := exclusiveScan sizes
    require (borders.length = sizes.length)
    if ← node.isTerminal then node.doGetKeysFromCurNode (σ.sub 0) borders left right keysHolder
    else do
      require (node.children.length = node.keys.length + 1)
      fork2 (σ.sub 0)
        (node.doGetKeysFromCurNode (σ.sub 1) borders left right)
        (node.doGetKeysFromChildren (doGetKeys fuel) (σ.sub 2) borders left right) keysHolder

/-- `get_keys`. -/
def getKeys (fuel : ℕ) (σ : Schedule) (node : Node T) : Checked (List T) := do
  require node.isStructureCorrect
  if node.curSize = 0 then pure []
  else do
    let keys ← doGetKeys fuel σ node 0 node.curSize (Buffer.raw node.curSize)
    Buffer.freeze keys

/-! ### Sequential dumps and the size -/

/-- One representative key of `do_dump_keys_seq`. -/
def dumpKey (node : Node T) (i : ℕ) (res : List T) : Checked (List T) := do
  if ← get node.keysExist i then pure (res ++ [← get node.keys i]) else pure res

/-- One child pointer of `do_dump_keys_seq`. -/
def dumpChild (self : Node T → List T → Checked (List T)) (node : Node T) (i : ℕ) (res : List T) :
    Checked (List T) := do
  match ← get node.children i with
  | some child => self child res
  | none => pure res

/-- `do_dump_keys_seq`. -/
def doDumpKeysSeq : ℕ → Node T → List T → Checked (List T)
  | 0 => fun _ _ ↦ .error .outOfFuel
  | fuel + 1 => fun node res ↦ do
    require node.isStructureCorrect
    if ← node.isTerminal then do
      require (node.children.length = 0)
      (List.range node.keys.length).foldlM (fun res i ↦ node.dumpKey i res) res
    else do
      require (node.children.length = node.keys.length + 1)
      let res ← (List.range node.keys.length).foldlM (fun res i ↦ do
        node.dumpKey i (← node.dumpChild (doDumpKeysSeq fuel) i res)) res
      node.dumpChild (doDumpKeysSeq fuel) (← subtract node.children.length 1) res

/-- `dump_keys_seq`. -/
def dumpKeysSeq (fuel : ℕ) (node : Node T) : Checked (List T) := do
  require node.isStructureCorrect
  doDumpKeysSeq fuel node []

/-- The dump of one level: for each of its nodes the representative keys with their flags, and
whether the node is terminal. A null pointer is dumped as an empty terminal node. -/
abbrev LevelHolder (T : Type) := List (List (T × Bool) × Bool)

/-- `holder[level].push_back(entry)`, after the level is created if it is the next one. -/
def pushLevel (holder : List (LevelHolder T)) (level : ℕ) (entry : List (T × Bool) × Bool) :
    Checked (List (LevelHolder T)) := do
  let holder ←
    if holder.length < level + 1 then do
      require (holder.length = level)
      pure (holder ++ [[]])
    else pure holder
  put holder level ((← get holder level) ++ [entry])

/-- One key of the entry that `do_dump_keys_by_level_seq` writes for a node. -/
def dumpEntry (node : Node T) (i : ℕ) : Checked (T × Bool) := do
  pure (← get node.keys i, ← get node.keysExist i)

/-- One child pointer of `do_dump_keys_by_level_seq`. -/
def dumpChildByLevel
    (self : Node T → List (LevelHolder T) → ℕ → Checked (List (LevelHolder T))) (node : Node T)
    (level : ℕ) (holder : List (LevelHolder T)) (i : ℕ) : Checked (List (LevelHolder T)) := do
  match ← get node.children i with
  | some child => self child holder (level + 1)
  | none => pushLevel holder (level + 1) ([], true)

/-- `do_dump_keys_by_level_seq`. -/
def doDumpKeysByLevelSeq :
    ℕ → Node T → List (LevelHolder T) → ℕ → Checked (List (LevelHolder T))
  | 0 => fun _ _ _ ↦ .error .outOfFuel
  | fuel + 1 => fun node holder level ↦ do
    require node.isStructureCorrect
    let curNodeHolder ← tabulate node.keys.length node.dumpEntry
    let terminal ← node.isTerminal
    let holder ← pushLevel holder level (curNodeHolder, terminal)
    if terminal then do
      require (node.children.length = 0)
      pure holder
    else do
      require (node.keys.length + 1 = node.children.length)
      (List.range node.children.length).foldlM
        (node.dumpChildByLevel (doDumpKeysByLevelSeq fuel) level) holder

/-- `dump_keys_by_level_seq`. -/
def dumpKeysByLevelSeq (fuel : ℕ) (node : Node T) : Checked (List (LevelHolder T)) := do
  require node.isStructureCorrect
  doDumpKeysByLevelSeq fuel node [] 0

/-- `calc_node_size`. -/
def calcNodeSize : ℕ → Node T → Checked ℕ
  | 0 => fun _ ↦ .error .outOfFuel
  | fuel + 1 => fun node ↦ do
    require node.isStructureCorrect
    let keysExist ← tabulate node.keys.length fun idx ↦ do pure (← get node.keysExist idx).toNat
    let thisKeysCount := keysExist.foldl (· + ·) 0
    let subtreeSizes ← tabulate node.children.length fun idx ↦ do
      match ← get node.children idx with
      | none => pure 0
      | some child => calcNodeSize fuel child
    let totalSize := subtreeSizes.foldl (· + ·) 0 + thisKeysCount
    require (totalSize = node.curSize)
    pure totalSize

end Node

end Pbist
