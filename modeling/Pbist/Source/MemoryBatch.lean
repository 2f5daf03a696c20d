import Pbist.Source.Memory

/-!
# Batches on the tree in memory

`do_contains`, `do_insert` and `do_remove` on a node at an address, the operations of `ist_internal`
on them, and whole runs from the constructor to the destructor. `do_insert` and `do_remove` return
the optional that the source returns: a pointer that is to replace the node, which the caller then
deletes.

The programs at the end are what the results are about: `run` is a whole run, `runToTree` stops
before the destructor, `runAndGetKeys` flattens the tree at the end, `checkRun` has phases in which
several users look up keys at the same time, and `checkUsers` has users with trees of their own. The
last two assert the replies that the abstract set gives, so a wrong reply is a fault.
-/

namespace Pbist

open Checked

namespace Mem

variable {T : Type} [LinearOrder T]

/-! ### Ranges of keys for one child -/

/-- The array `child_idx` of a batch operation: `body` gets its block and fills it, one key of the
batch after the other. -/
def childIdxLoop (leftBorder rightBorder : ℕ) (body : ℕ → ℕ → Code T Unit) : Code T (List ℤ) := do
  let rangeSize ← lift (subtract rightBorder leftBorder)
  let childIdx ← newArray rangeSize
  Prog.parallel (body childIdx) leftBorder rangeSize
  takeArray Val.index? childIdx rangeSize

/-- `get_range_borders`. -/
def getRangeBorders (p : ℕ) (childIdx : List ℤ) : Code T (List ℕ × List ℕ) := do
  let h ← getHeader p
  lift (h.shape.getRangeBorders childIdx)

/-- One range in the second loop of the three batch operations: `onRange` gets the child index of
the range and its borders, relative to the part of the batch. -/
def onRangeAt (p : ℕ) (childIdx : List ℤ) (onRange : ℕ → ℕ → ℕ → Code T Unit)
    (rangeBegins rangeEnds : List ℕ) (i : ℕ) : Code T Unit := do
  let curRangeBegin ← lift (get rangeBegins i)
  let curRangeEnd ← lift (get rangeEnds i)
  assert (0 ≤ curRangeBegin ∧ curRangeBegin < curRangeEnd ∧ curRangeEnd ≤ childIdx.length)
  let curChildIdx ← lift (get childIdx curRangeBegin)
  let h ← getHeader p
  assert (0 ≤ curChildIdx ∧ curChildIdx.toNat < h.childrenSize)
  onRange curChildIdx.toNat curRangeBegin curRangeEnd

/-- The second loop of the three batch operations. -/
def forEachRange (p : ℕ) (childIdx : List ℤ) (onRange : ℕ → ℕ → ℕ → Code T Unit) :
    Code T Unit := do
  let borders ← getRangeBorders p childIdx
  Prog.parallel (onRangeAt p childIdx onRange borders.1 borders.2) 0 borders.1.length

section Contains

variable (A : Arith T) (arr : List T)

/-! ### Batch contains -/

/-- One key in the first loop of `non_terminal_do_contains`. -/
def containsKey (p result leftBorder rightBorder childIdx keyIdx : ℕ) : Code T Unit := do
  assert (leftBorder ≤ keyIdx ∧ keyIdx < rightBorder)
  let key ← lift (get arr keyIdx)
  let found ← doSearch A p key
  let idx ← lift (subtract keyIdx leftBorder)
  if found.2 then do
    let h ← getHeader p
    let nodeKey ← lift (get h.keys found.1)
    assert (nodeKey = key)
    let exist ← Prog.readAs Val.flag? (p, .keysExist found.1)
    Prog.store (result, .entry keyIdx) (.flag exist)
    Prog.store (childIdx, .entry idx) (.index (-1))
  else Prog.store (childIdx, .entry idx) (.index found.1)

/-- One range in the second loop of `non_terminal_do_contains`. -/
def containsRange (self : ℕ → ℕ → ℕ → Code T Unit) (p result leftBorder rightBorder : ℕ)
    (curChildIdx curRangeBegin curRangeEnd : ℕ) : Code T Unit := do
  match ← Prog.readAs Val.pointer? (p, .children curChildIdx) with
  | some child => do
    let borders ← lift (Node.nextBorders leftBorder rightBorder curRangeBegin curRangeEnd)
    self child borders.1 borders.2
  | none =>
    Prog.parallel
      (fun curKeyIdx ↦ Prog.store (result, .entry (leftBorder + curKeyIdx)) (.flag false))
      curRangeBegin (curRangeEnd - curRangeBegin)

/-- `non_terminal_do_contains`. `self` is the recursive call of `do_contains`. -/
def nonTerminalDoContains (self : ℕ → ℕ → ℕ → Code T Unit) (p result leftBorder rightBorder : ℕ) :
    Code T Unit := do
  checkStructure p
  let childIdx ← childIdxLoop leftBorder rightBorder
    (containsKey A arr p result leftBorder rightBorder)
  forEachRange p childIdx (containsRange self p result leftBorder rightBorder)

/-- One key in the loop of `do_contains` at a terminal node. -/
def terminalContainsKey (p result leftBorder rightBorder keyIdx : ℕ) : Code T Unit := do
  assert (leftBorder ≤ keyIdx ∧ keyIdx < rightBorder)
  let key ← lift (get arr keyIdx)
  let found ← doSearch A p key
  if found.2 then do
    let h ← getHeader p
    let nodeKey ← lift (get h.keys found.1)
    assert (nodeKey = key)
    let exist ← Prog.readAs Val.flag? (p, .keysExist found.1)
    Prog.store (result, .entry keyIdx) (.flag exist)
  else Prog.store (result, .entry keyIdx) (.flag false)

/-- `do_contains`, for a result array of `size` entries. -/
def doContains (result size : ℕ) : ℕ → ℕ → ℕ → ℕ → Code T Unit
  | 0 => fun _ _ _ ↦ .fault
  | fuel + 1 => fun p leftBorder rightBorder ↦ do
    checkStructure p
    assert (arr.length = size)
    lift (Node.requireBorders leftBorder rightBorder arr.length)
    if ← isTerminal p then
      Prog.parallel (terminalContainsKey A arr p result leftBorder rightBorder) leftBorder
        (rightBorder - leftBorder)
    else
      nonTerminalDoContains A arr (doContains result size fuel) p result leftBorder rightBorder

end Contains

section Update

variable (A : Doubles T)

/-! ### Batch insert and batch remove -/

/-- One key in the first loop of `non_terminal_do_insert` (`exist = true`) and of
`non_terminal_do_remove` (`exist = false`). -/
def markKey (exist : Bool) (keys : List T) (p leftBorder rightBorder childIdx keyIdx : ℕ) :
    Code T Unit := do
  assert (leftBorder ≤ keyIdx ∧ keyIdx < rightBorder)
  let key ← lift (get keys keyIdx)
  let found ← doSearch A.toArith p key
  let idx ← lift (subtract keyIdx leftBorder)
  if found.2 then do
    let h ← getHeader p
    assert (found.1 < h.keys.length)
    let nodeKey ← lift (get h.keys found.1)
    assert (nodeKey = key)
    let flag ← Prog.readAs Val.flag? (p, .keysExist found.1)
    assert (flag = !exist)
    Prog.store (p, .keysExist found.1) (.flag exist)
    Prog.store (childIdx, .entry idx) (.index (-1))
  else Prog.store (childIdx, .entry idx) (.index found.1)

/-- The caller of `do_insert` or `do_remove` uses the returned optional: the old subtree behind the
pointer `l` is deleted, and the pointer replaced. -/
def useOptional (l : Loc Part) : Option (Option ℕ) → Code T Unit
  | none => pure ()
  | some subtree => do
    let old ← Prog.readAs Val.pointer? l
    delete maxDepth old
    Prog.store l (.pointer subtree)

/-- One range in the second loop of `non_terminal_do_insert`. -/
def insertRange (self : ℕ → ℕ → ℕ → Code T (Option (Option ℕ))) (keys : List T)
    (sizeThreshold p leftBorder rightBorder curChildIdx curRangeBegin curRangeEnd : ℕ) :
    Code T Unit := do
  let borders ← lift (Node.nextBorders leftBorder rightBorder curRangeBegin curRangeEnd)
  match ← Prog.readAs Val.pointer? (p, .children curChildIdx) with
  | some child => do
    let insertRes ← self child borders.1 borders.2
    useOptional (p, .children curChildIdx) insertRes
  | none => do
    let built ← doBuildFromKeys A keys sizeThreshold (borders.2 - borders.1 + 1) borders.1 borders.2
    Prog.store (p, .children curChildIdx) (.pointer built)

/-- One range in the second loop of `non_terminal_do_remove`. -/
def removeRange (self : ℕ → ℕ → ℕ → Code T (Option (Option ℕ)))
    (p leftBorder rightBorder curChildIdx curRangeBegin curRangeEnd : ℕ) : Code T Unit := do
  let borders ← lift (Node.nextBorders leftBorder rightBorder curRangeBegin curRangeEnd)
  match ← Prog.readAs Val.pointer? (p, .children curChildIdx) with
  | some child => do
    let removeRes ← self child borders.1 borders.2
    useOptional (p, .children curChildIdx) removeRes
  | none => .fault

/-- `non_terminal_do_insert` and `non_terminal_do_remove`: the flags, and then the ranges. -/
def nonTerminalUpdate (exist : Bool) (onRange : ℕ → ℕ → ℕ → Code T Unit) (keys : List T)
    (p leftBorder rightBorder : ℕ) : Code T Unit := do
  checkStructure p
  let childIdx ← childIdxLoop leftBorder rightBorder
    (markKey A exist keys p leftBorder rightBorder)
  forEachRange p childIdx onRange

/-- `non_terminal_do_insert`. `self` is the recursive call of `do_insert`. -/
def nonTerminalDoInsert (self : ℕ → ℕ → ℕ → Code T (Option (Option ℕ))) (keys : List T)
    (sizeThreshold p leftBorder rightBorder : ℕ) : Code T Unit :=
  nonTerminalUpdate A true (insertRange A self keys sizeThreshold p leftBorder rightBorder) keys p
    leftBorder rightBorder

/-- `non_terminal_do_remove`. `self` is the recursive call of `do_remove`. -/
def nonTerminalDoRemove (self : ℕ → ℕ → ℕ → Code T (Option (Option ℕ))) (keys : List T)
    (p leftBorder rightBorder : ℕ) : Code T Unit :=
  nonTerminalUpdate A false (removeRange self p leftBorder rightBorder) keys p leftBorder
    rightBorder

/-- One key of `all_keys_not_exist`. -/
def keyNotExists (keys : List T) (p leftBorder i : ℕ) : Code T Bool := do
  let key ← lift (get keys (leftBorder + i))
  let found ← doSearch A.toArith p key
  if found.2 then do
    let h ← getHeader p
    assert (found.1 < h.keys.length)
    let nodeKey ← lift (get h.keys found.1)
    assert (nodeKey = key)
    let exist ← Prog.readAs Val.flag? (p, .keysExist found.1)
    pure !exist
  else pure true

/-- `all_keys_not_exist`. -/
def allKeysNotExist (keys : List T) (p leftBorder rightBorder : ℕ) : Code T Bool := do
  checkStructure p
  let size ← lift (subtract rightBorder leftBorder)
  let notExists ← tabulateArray .flag Val.flag? size (keyNotExists A keys p leftBorder)
  pure (notExists.foldl (· && ·) true)

/-- `modifications_count` grows by `n`. -/
def addModifications (p n : ℕ) : Code T Unit := do
  let old ← Prog.readAs Val.count? (p, .modificationsCount)
  Prog.store (p, .modificationsCount) (.count (old + n))

/-- `do_insert` at a node that is rebuilt from its keys and the batch. -/
def rebuildWithBatch (keys : List T) (sizeThreshold p leftBorder rightBorder : ℕ) :
    Code T (Option (Option ℕ)) := do
  let notExist ← allKeysNotExist A keys p leftBorder rightBorder
  assert (notExist = true)
  let curKeys ← getKeys p
  let newKeys ← lift (slice keys leftBorder rightBorder)
  let allKeys := Sorted.mergeLists curKeys newKeys
  let sorted ← lift (isSorted allKeys)
  assert (sorted = true)
  let built ← buildFromKeys A allKeys sizeThreshold
  pure (some built)

/-- `do_insert` at a node that stays. -/
def insertInPlace (self : ℕ → ℕ → ℕ → Code T (Option (Option ℕ))) (keys : List T)
    (sizeThreshold p leftBorder rightBorder newKeysCount : ℕ) : Code T Unit := do
  addModifications p newKeysCount
  let curSize ← Prog.readAs Val.count? (p, .curSize)
  Prog.store (p, .curSize) (.count (curSize + newKeysCount))
  nonTerminalDoInsert A self keys sizeThreshold p leftBorder rightBorder

/-- `do_insert`. -/
def doInsert (coefficient : ℕ) (keys : List T) (sizeThreshold : ℕ) :
    ℕ → ℕ → ℕ → ℕ → Code T (Option (Option ℕ))
  | 0 => fun _ _ _ ↦ .fault
  | fuel + 1 => fun p leftBorder rightBorder ↦ do
    checkStructure p
    lift (Node.requireBorders leftBorder rightBorder keys.length)
    let newKeysCount ← lift (subtract rightBorder leftBorder)
    let terminal ← isTerminal p
    let rebuild ← (if terminal then pure true else shouldRebuild coefficient p newKeysCount)
    if rebuild then rebuildWithBatch A keys sizeThreshold p leftBorder rightBorder
    else do
      insertInPlace A (doInsert coefficient keys sizeThreshold fuel) keys sizeThreshold p
        leftBorder rightBorder newKeysCount
      pure none

/-- One key in the loop of `do_remove` at a terminal node. -/
def removeKey (keys : List T) (p removeKeyIdx : ℕ) : Code T Unit := do
  let key ← lift (get keys removeKeyIdx)
  let found ← doSearch A.toArith p key
  let h ← getHeader p
  assert (found.2 = true ∧ found.1 < h.keys.length)
  let nodeKey ← lift (get h.keys found.1)
  assert (nodeKey = key)
  let flag ← Prog.readAs Val.flag? (p, .keysExist found.1)
  assert (flag = true)
  Prog.store (p, .keysExist found.1) (.flag false)

/-- The changes of `do_remove` at the node and below. The counters change first, so the test at the
end counts this batch. -/
def removeInPlace (self : ℕ → ℕ → ℕ → Code T (Option (Option ℕ))) (keys : List T)
    (p leftBorder rightBorder keysCount : ℕ) : Code T Unit := do
  let curSize ← Prog.readAs Val.count? (p, .curSize)
  assert (keysCount ≤ curSize)
  addModifications p keysCount
  let newSize ← lift (subtract curSize keysCount)
  Prog.store (p, .curSize) (.count newSize)
  let terminal ← isTerminal p
  if terminal then Prog.parallel (removeKey A keys p) leftBorder (rightBorder - leftBorder)
  else nonTerminalDoRemove A self keys p leftBorder rightBorder

/-- The end of `do_remove`: the node is rebuilt if the modifications call for it. -/
def rebuildAfterRemove (coefficient sizeThreshold p : ℕ) : Code T (Option (Option ℕ)) := do
  let rebuild ← shouldRebuild coefficient p 0
  if rebuild then do
    let curKeys ← getKeys p
    let sorted ← lift (isSorted curKeys)
    assert (sorted = true)
    let built ← buildFromKeys A curKeys sizeThreshold
    pure (some built)
  else pure none

/-- `do_remove`. -/
def doRemove (coefficient : ℕ) (keys : List T) (sizeThreshold : ℕ) :
    ℕ → ℕ → ℕ → ℕ → Code T (Option (Option ℕ))
  | 0 => fun _ _ _ ↦ .fault
  | fuel + 1 => fun p leftBorder rightBorder ↦ do
    checkStructure p
    lift (Node.requireBorders leftBorder rightBorder keys.length)
    let keysCount ← lift (subtract rightBorder leftBorder)
    removeInPlace A (doRemove coefficient keys sizeThreshold fuel) keys p leftBorder rightBorder
      keysCount
    rebuildAfterRemove A coefficient sizeThreshold p

/-! ### The tree -/

/-- The constructor of `ist_internal`. -/
def newTree (keys : List T) (sizeThreshold : ℕ) : Code T ℕ := do
  let root ← buildFromKeys A keys sizeThreshold
  Prog.new [(.root, .pointer root), (.sizeThreshold, .count sizeThreshold)]

/-- The destructor, and the end of the object. -/
def deleteTree (tree : ℕ) : Code T Unit := do
  let root ← Prog.readAs Val.pointer? (tree, .root)
  delete maxDepth root
  Prog.release (tree, .root)
  Prog.release (tree, .sizeThreshold)

/-- The loop of the single-key `contains`. -/
def containsLoop (searchKey : T) : ℕ → Option ℕ → Code T Bool
  | _, none => pure false
  | 0, some _ => .fault
  | fuel + 1, some curNode => do
    let h ← getHeader curNode
    assert (h.keys.length = h.existSize)
    let found ← doSearch A.toArith curNode searchKey
    if found.2 then do
      let key ← lift (get h.keys found.1)
      assert (key = searchKey)
      Prog.readAs Val.flag? (curNode, .keysExist found.1)
    else if ← isTerminal curNode then do
      assert (h.childrenSize = 0)
      pure false
    else do
      assert (0 < h.childrenSize)
      assert (0 ≤ found.1 ∧ found.1 < h.childrenSize)
      let child ← Prog.readAs Val.pointer? (curNode, .children found.1)
      containsLoop searchKey fuel child

/-- `contains` for a single key. -/
def containsSingle (tree : ℕ) (searchKey : T) : Code T Bool := do
  let root ← Prog.readAs Val.pointer? (tree, .root)
  containsLoop A searchKey maxDepth root

/-- `contains` for a batch; it returns the block of the array of answers. -/
def contains (tree : ℕ) (keys : List T) : Code T ℕ := do
  let sorted ← lift (isSorted keys)
  assert (sorted = true)
  if keys.length = 0 then newArray 0
  else do
    match ← Prog.readAs Val.pointer? (tree, .root) with
    | none => fillArray keys.length false
    | some root => do
      let result ← newArray keys.length
      doContains A.toArith keys result keys.length maxDepth root 0 keys.length
      pure result

/-- The loop of `insert` that negates the answers. -/
def negateFlag (result idx : ℕ) : Code T Unit := do
  let flag ← Prog.readAs Val.flag? (result, .entry idx)
  Prog.store (result, .entry idx) (.flag !flag)

/-- `filteri` over a batch, by the flags in an array. -/
def selectKeys (keys : List T) (result : ℕ) : Code T (List T) := do
  let flags ← readArray Val.flag? result keys.length
  pure (Ist.selectKeys keys flags)

/-- The end of `insert` and of `remove`: the keys that make a difference are passed on to the root,
and the optional that `update` returns is used. -/
def updateRoot (update : List T → ℕ → ℕ → ℕ → Code T (Option (Option ℕ))) (tree root : ℕ)
    (keys : List T) : Code T Unit :=
  if 0 < keys.length then do
    let res ← update keys root 0 keys.length
    useOptional (tree, .root) res
  else pure ()

/-- `insert`; it returns the block of the array of answers. -/
def insert (coefficient tree : ℕ) (keys : List T) : Code T ℕ := do
  let sorted ← lift (isSorted keys)
  assert (sorted = true)
  if keys.length = 0 then newArray 0
  else do
    let sizeThreshold ← Prog.readAs Val.count? (tree, .sizeThreshold)
    match ← Prog.readAs Val.pointer? (tree, .root) with
    | none => do
      let root ← buildFromKeys A keys sizeThreshold
      Prog.store (tree, .root) (.pointer root)
      fillArray keys.length true
    | some root => do
      let result ← contains A tree keys
      Prog.parallel (negateFlag result) 0 keys.length
      let insertKeys ← selectKeys keys result
      updateRoot (fun keys ↦ doInsert A coefficient keys sizeThreshold maxDepth) tree root
        insertKeys
      pure result

/-- `remove`; it returns the block of the array of answers. -/
def remove (coefficient tree : ℕ) (keys : List T) : Code T ℕ := do
  let sorted ← lift (isSorted keys)
  assert (sorted = true)
  if keys.length = 0 then newArray 0
  else do
    let sizeThreshold ← Prog.readAs Val.count? (tree, .sizeThreshold)
    match ← Prog.readAs Val.pointer? (tree, .root) with
    | none => fillArray keys.length false
    | some root => do
      let result ← contains A tree keys
      let removeKeys ← selectKeys keys result
      updateRoot (fun keys ↦ doRemove A coefficient keys sizeThreshold maxDepth) tree root
        removeKeys
      pure result

/-- `calc_tree_size`. -/
def calcTreeSize (tree : ℕ) : Code T ℕ := do
  match ← Prog.readAs Val.pointer? (tree, .root) with
  | none => pure 0
  | some root => calcNodeSize maxDepth root

/-- `get_keys` of the root; nothing for a null root. -/
def treeGetKeys (tree : ℕ) : Code T (List T) := do
  match ← Prog.readAs Val.pointer? (tree, .root) with
  | none => pure []
  | some root => getKeys root

/-! ### Runs -/

/-- One operation of a run, whose user reads the answers and frees them. -/
def runOp (coefficient tree : ℕ) : Op T → Code T Reply
  | .insert keys => do
    let result ← insert A coefficient tree keys
    let flags ← takeArray Val.flag? result keys.length
    pure (.flags flags)
  | .remove keys => do
    let result ← remove A coefficient tree keys
    let flags ← takeArray Val.flag? result keys.length
    pure (.flags flags)
  | .contains keys => do
    let result ← contains A tree keys
    let flags ← takeArray Val.flag? result keys.length
    pure (.flags flags)
  | .containsKey key => do
    let flag ← containsSingle A tree key
    pure (.flag flag)
  | .calcTreeSize => do
    let size ← calcTreeSize tree
    pure (.size size)

/-- The operations of a run, with the replies so far. -/
def runOps (coefficient tree : ℕ) : List (Op T) → List Reply → Code T (List Reply)
  | [], replies => pure replies
  | op :: ops, replies => do
    let reply ← runOp A coefficient tree op
    runOps coefficient tree ops (replies ++ [reply])

/-- A run that keeps its tree, from the constructor on; it returns the object and the replies. -/
def runToTree (coefficient sizeThreshold : ℕ) (keys : List T) (ops : List (Op T)) :
    Code T (ℕ × List Reply) := do
  let tree ← newTree A keys sizeThreshold
  let replies ← runOps A coefficient tree ops []
  pure (tree, replies)

/-- A whole run, from the constructor to the destructor. -/
def run (coefficient sizeThreshold : ℕ) (keys : List T) (ops : List (Op T)) :
    Code T (List Reply) := do
  let r ← runToTree A coefficient sizeThreshold keys ops
  deleteTree r.1
  pure r.2

/-- A run whose user reads all keys before the destructor. -/
def runAndGetKeys (coefficient sizeThreshold : ℕ) (keys : List T) (ops : List (Op T)) :
    Code T (List T) := do
  let r ← runToTree A coefficient sizeThreshold keys ops
  let stored ← treeGetKeys r.1
  deleteTree r.1
  pure stored

end Update

end Mem

end Pbist
