import Pbist.Source.Tree
import Pbist.Library.Interleaving

/-!
# The tree in memory

The same code once more, as programs on a shared memory: nodes have addresses, `new` allocates and
`delete` frees them, and the threads of a parallel loop read and write the cells of nodes and arrays
one access at a time. What a node never changes after its construction (`keys`, `id`,
`initial_size` and the sizes of its arrays) is one cell, its header, which every member function and
every body of a loop reads for itself. A batch is a value, for nobody writes to it. The arrays that
parallel loops fill are blocks of raw cells; when such a loop is over, its array is read and freed.

`std::sqrt` is a parameter like the rounding of the other operations on doubles. Recursion on
pointers runs on fuel, `maxDepth` at the most; to run out of it is a fault.

## How this relates to the checked functions

The definitions have the names of those in the modules before, in the namespace `Mem`, and follow
the same lines of the source. What is a value there is a block of cells here, what is a schedule
there are the interleavings of the accesses of all threads here. That both compute the same is
proved of each pair of functions, not assumed.
-/

namespace Pbist

open Checked

/-- The arithmetic of the template together with `std::sqrt`. -/
structure Doubles (T : Type) extends Arith T where
  sqrt : ℚ → ℚ

namespace Mem

/-- The members of `ist_internal_node` that the constructor sets for good. -/
structure Header (T : Type) where
  keys : List T
  /-- `keys_exist.size()`. -/
  existSize : ℕ
  /-- `children.size()`. -/
  childrenSize : ℕ
  id : List ℕ
  initialSize : ℕ

/-- The cells of a node, of an array and of the tree. -/
inductive Part
  | header
  | curSize
  | modificationsCount
  | keysExist (i : ℕ)
  | children (i : ℕ)
  | entry (i : ℕ)
  | root
  | sizeThreshold
  deriving DecidableEq, Repr

/-- What a cell may hold. -/
inductive Val (T : Type)
  /-- Raw memory. -/
  | raw
  | header (h : Header T)
  /-- A `uint64_t`. -/
  | count (n : ℕ)
  /-- An `int64_t`. -/
  | index (z : ℤ)
  | flag (b : Bool)
  | key (k : T)
  | pointer (p : Option ℕ)

/-- A program on the memory of the tree. -/
abbrev Code (T : Type) := Prog Part (Val T)

/-- The recursion depth that no tree of `int32_t` keys reaches. -/
def maxDepth : ℕ :=
  2 ^ 32

variable {T : Type}

section Access

namespace Val

def header? : Val T → Option (Header T)
  | header h => some h
  | _ => none

def count? : Val T → Option ℕ
  | count n => some n
  | _ => none

def index? : Val T → Option ℤ
  | index z => some z
  | _ => none

def flag? : Val T → Option Bool
  | flag b => some b
  | _ => none

def key? : Val T → Option T
  | key k => some k
  | _ => none

def pointer? : Val T → Option (Option ℕ)
  | pointer p => some p
  | _ => none

end Val

/-- A computation on values. -/
def lift {α : Type} : Checked α → Code T α
  | .ok a => pure a
  | .error _ => .fault

/-- `assert(p)`. -/
def assert (p : Prop) [Decidable p] : Code T Unit :=
  if p then pure () else .fault

/-- An array of `n` raw cells. -/
def newArray (n : ℕ) : Code T ℕ :=
  Prog.new ((List.range n).map fun i ↦ (.entry i, .raw))

/-- The contents of an array. -/
def readArray {α : Type} (get : Val T → Option α) (arr n : ℕ) : Code T (List α) :=
  Prog.iterate (fun i l ↦ do pure (l ++ [← Prog.readAs get (arr, .entry i)])) 0 n []

/-- The array is freed. -/
def freeArray (arr n : ℕ) : Code T Unit :=
  Prog.iterate (fun i _ ↦ Prog.release (arr, .entry i)) 0 n ()

/-- The contents of an array that is not used any more. -/
def takeArray {α : Type} (get : Val T → Option α) (arr n : ℕ) : Code T (List α) := do
  let l ← readArray get arr n
  freeArray arr n
  pure l

/-- `parray(n, f)`: the entries are computed in parallel. -/
def tabulateArray {α : Type} (put : α → Val T) (get : Val T → Option α) (n : ℕ)
    (f : ℕ → Code T α) : Code T (List α) := do
  let arr ← newArray n
  Prog.parallel (fun i ↦ do Prog.store (arr, .entry i) (put (← f i))) 0 n
  takeArray get arr n

/-- `parray(raw, n, b)`. -/
def fillArray (n : ℕ) (b : Bool) : Code T ℕ := do
  let arr ← newArray n
  Prog.parallel (fun i ↦ Prog.store (arr, .entry i) (.flag b)) 0 n
  pure arr

end Access

/-! ### Nodes -/

/-- A node with these arrays. -/
def Header.shape (h : Header T) : Node T where
  keys := h.keys
  keysExist := List.replicate h.existSize false
  children := List.replicate h.childrenSize none
  id := h.id
  initialSize := h.initialSize
  curSize := 0
  modificationsCount := 0

/-- `is_structure_correct`. -/
abbrev Header.isStructureCorrect (h : Header T) : Prop :=
  h.shape.isStructureCorrect

/-- What is constant in the node at `p`. -/
def getHeader (p : ℕ) : Code T (Header T) :=
  Prog.readAs Val.header? (p, .header)

/-- `assert(is_structure_correct())`. -/
def checkStructure (p : ℕ) : Code T Unit := do
  let h ← getHeader p
  assert h.isStructureCorrect

/-- `is_terminal`. -/
def isTerminal (p : ℕ) : Code T Bool := do
  checkStructure p
  let h ← getHeader p
  pure (decide (h.childrenSize = 0))

/-- `should_rebuild`, for an arbitrary coefficient; the code has `coefficient = 4`. -/
def shouldRebuild (coefficient p modificationsCount : ℕ) : Code T Bool := do
  let old ← Prog.readAs Val.count? (p, .modificationsCount)
  let h ← getHeader p
  pure (decide (h.initialSize < coefficient * (modificationsCount + old)))

/-- `do_search`. -/
def doSearch [LinearOrder T] (A : Arith T) (p : ℕ) (key : T) : Code T (ℕ × Bool) := do
  let h ← getHeader p
  if h.id.length = 0 then lift (binarySearch h.keys key)
  else lift (interpolationSearch A h.keys key h.id)

/-! ### Construction and destruction -/

section Build

variable (A : Doubles T) (keys : List T)

/-- The cells of a new node. -/
def newCells (keys : List T) (children : List (Option ℕ)) (keysCount : ℕ) (id : List ℕ) :
    List (Part × Val T) :=
  [(.header, .header ⟨keys, keys.length, children.length, id, keysCount⟩),
    (.curSize, .count keysCount), (.modificationsCount, .count 0)] ++
    (List.range keys.length).map (fun i ↦ (.keysExist i, .flag true)) ++
    (List.range children.length).map fun i ↦ (.children i, .pointer (children[i]?.getD none))

/-- `new ist_internal_node`. -/
def newNode (keys : List T) (children : List (Option ℕ)) (keysCount : ℕ) : Code T ℕ := do
  let id ← if 50 ≤ keysCount then lift (buildId A.toArith keys keys.length) else pure []
  assert (0 < keys.length)
  assert (children.length = 0 ∨ children.length = keys.length + 1)
  Prog.new (newCells keys children keysCount id)

/-- `do_build_single_cell`. `build` is the recursive call of `do_build_from_keys`. -/
def doBuildSingleCell (build : ℕ → ℕ → Code T (Option ℕ))
    (reps children blockSize repSize left right childIdx : ℕ) : Code T Unit :=
  if childIdx < repSize then do
    let startIdx := left + childIdx * (blockSize + 1)
    let endIdx := startIdx + blockSize
    let curRep ← lift (get keys endIdx)
    Prog.store (reps, .entry childIdx) (.key curRep)
    let child ← build startIdx endIdx
    Prog.store (children, .entry childIdx) (.pointer child)
  else do
    assert (childIdx = repSize)
    let startIdx := left + childIdx * (blockSize + 1)
    let endIdx := right
    let child ← build startIdx endIdx
    Prog.store (children, .entry childIdx) (.pointer child)

/-- `do_build_from_keys`. -/
def doBuildFromKeys (sizeThreshold : ℕ) : ℕ → ℕ → ℕ → Code T (Option ℕ)
  | 0 => fun _ _ ↦ .fault
  | fuel + 1 => fun left right ↦ do
    assert (left ≤ right)
    if left = right then pure none
    else do
      let keysCount ← lift (subtract right left)
      if keysCount ≤ sizeThreshold then do
        let reps ← tabulateArray .key Val.key? keysCount fun repIdx ↦
          lift (get keys (repIdx + left))
        let node ← newNode A reps [] keysCount
        pure (some node)
      else do
        let blockSize ← lift (toU64 (A.sqrt (A.round (keysCount : ℚ))))
        let repSize := keysCount / (blockSize + 1)
        -- the scheduler may ask for the cost of any range of cells; only the assertions matter here
        let _ ← lift (tabulate (repSize + 1) fun leftIdx ↦
          tabulate (repSize + 1 - leftIdx) fun width ↦
            cellsCost blockSize repSize left right leftIdx (leftIdx + width + 1))
        let reps ← newArray repSize
        let children ← newArray (repSize + 1)
        Prog.parallel (doBuildSingleCell keys (doBuildFromKeys sizeThreshold fuel) reps children
          blockSize repSize left right) 0 (repSize + 1)
        let reps ← takeArray Val.key? reps repSize
        let children ← takeArray Val.pointer? children (repSize + 1)
        let node ← newNode A reps children keysCount
        pure (some node)

/-- `build_from_keys`. -/
def buildFromKeys [LinearOrder T] (sizeThreshold : ℕ) : Code T (Option ℕ) := do
  let sorted ← lift (isSorted keys)
  assert (sorted = true)
  doBuildFromKeys A keys sizeThreshold (keys.length + 1) 0 keys.length

end Build

/-- The memory of a node is freed. -/
def freeNode (p : ℕ) (h : Header T) : Code T Unit := do
  Prog.iterate (fun i _ ↦ Prog.release (p, .keysExist i)) 0 h.existSize ()
  Prog.iterate (fun i _ ↦ Prog.release (p, .children i)) 0 h.childrenSize ()
  Prog.release (p, .curSize)
  Prog.release (p, .modificationsCount)
  Prog.release (p, .header)

/-- `delete`, with `~ist_internal_node`. -/
def delete : ℕ → Option ℕ → Code T Unit
  | _, none => pure ()
  | 0, some _ => .fault
  | fuel + 1, some p => do
    let h ← getHeader p
    Prog.iterate (fun i _ ↦ do
      let child ← Prog.readAs Val.pointer? (p, .children i)
      delete fuel child) 0 h.childrenSize ()
    freeNode p h

/-! ### Flattening and counting -/

/-- `keys_exist[idx]` as a number. -/
def existCount (p idx : ℕ) : Code T ℕ := do
  let exist ← Prog.readAs Val.flag? (p, .keysExist idx)
  pure exist.toNat

/-- One entry of `get_sizes` at an inner node. -/
def getSize (p idx : ℕ) : Code T ℕ := do
  let i := idx / 2
  if idx % 2 = 0 then do
    match ← Prog.readAs Val.pointer? (p, .children i) with
    | some child => Prog.readAs Val.count? (child, .curSize)
    | none => pure 0
  else existCount p i

/-- `get_sizes`. -/
def getSizes (p : ℕ) : Code T (List ℕ) := do
  checkStructure p
  let h ← getHeader p
  if ← isTerminal p then do
    assert (h.childrenSize = 0)
    tabulateArray .count Val.count? h.keys.length (existCount p)
  else do
    assert (h.keys.length + 1 = h.childrenSize)
    tabulateArray .count Val.count? (h.keys.length + h.childrenSize) (getSize p)

/-- `get_border_idx_by_key_idx`. -/
def getBorderIdxByKeyIdx (p keyIdx : ℕ) : Code T ℕ := do
  checkStructure p
  if ← isTerminal p then pure keyIdx else pure (2 * keyIdx + 1)

/-- `left + borders[idx]`. -/
def borderAt (borders : List ℕ) (left idx : ℕ) : Code T ℕ := do
  let border ← lift (get borders idx)
  pure (left + border)

/-- One key in the loop of `do_get_keys_from_cur_node`. -/
def getKeyFromCurNode (p keysHolder : ℕ) (borders : List ℕ) (left right keyIdx : ℕ) :
    Code T Unit := do
  let borderIdx ← getBorderIdxByKeyIdx p keyIdx
  assert (borderIdx < borders.length)
  let keyPos ← borderAt borders left borderIdx
  let nextKeyPos ← (if borderIdx + 1 < borders.length then borderAt borders left (borderIdx + 1)
    else pure right)
  let exist ← Prog.readAs Val.flag? (p, .keysExist keyIdx)
  if exist then do
    assert (nextKeyPos = keyPos + 1)
    let h ← getHeader p
    let key ← lift (get h.keys keyIdx)
    Prog.store (keysHolder, .entry keyPos) (.key key)
  else assert (nextKeyPos = keyPos)

/-- `do_get_keys_from_cur_node`. -/
def doGetKeysFromCurNode (p keysHolder : ℕ) (borders : List ℕ) (left right : ℕ) :
    Code T Unit := do
  checkStructure p
  let h ← getHeader p
  Prog.parallel (getKeyFromCurNode p keysHolder borders left right) 0 h.keys.length

/-- One child in the loop of `do_get_keys_from_children`. -/
def getKeysFromChild (self : ℕ → ℕ → ℕ → Code T Unit) (p : ℕ) (borders : List ℕ)
    (left right childIdx : ℕ) : Code T Unit := do
  let borderIdx := 2 * childIdx
  let curLeft ← borderAt borders left borderIdx
  assert (borderIdx < borders.length)
  let last ← lift (subtract borders.length 1)
  let curRight ← (if borderIdx < last then borderAt borders left (borderIdx + 1) else pure right)
  match ← Prog.readAs Val.pointer? (p, .children childIdx) with
  | none => pure ()
  | some child => do
    let curSize ← Prog.readAs Val.count? (child, .curSize)
    let width ← lift (subtract curRight curLeft)
    assert (curSize = width)
    if curLeft < curRight then self child curLeft curRight else pure ()

/-- `do_get_keys_from_children`. `self` is the recursive call of `do_get_keys`. -/
def doGetKeysFromChildren (self : ℕ → ℕ → ℕ → Code T Unit) (p : ℕ) (borders : List ℕ)
    (left right : ℕ) : Code T Unit := do
  checkStructure p
  let h ← getHeader p
  Prog.parallel (getKeysFromChild self p borders left right) 0 h.childrenSize

/-- `do_get_keys`, for an output array `keysHolder` of `size` entries. -/
def doGetKeys (keysHolder size : ℕ) : ℕ → ℕ → ℕ → ℕ → Code T Unit
  | 0 => fun _ _ _ ↦ .fault
  | fuel + 1 => fun p left right ↦ do
    checkStructure p
    assert (0 ≤ left ∧ left < right ∧ right ≤ size)
    let sizes ← getSizes p
    let h ← getHeader p
    assert (sizes.length = h.keys.length + h.childrenSize)
    let borders := exclusiveScan sizes
    assert (borders.length = sizes.length)
    if ← isTerminal p then doGetKeysFromCurNode p keysHolder borders left right
    else do
      assert (h.childrenSize = h.keys.length + 1)
      Prog.fork (doGetKeysFromCurNode p keysHolder borders left right)
        (doGetKeysFromChildren (doGetKeys keysHolder size fuel) p borders left right)

/-- `get_keys`. -/
def getKeys (p : ℕ) : Code T (List T) := do
  checkStructure p
  let curSize ← Prog.readAs Val.count? (p, .curSize)
  if curSize = 0 then pure []
  else do
    let keysHolder ← newArray curSize
    doGetKeys keysHolder curSize maxDepth p 0 curSize
    takeArray Val.key? keysHolder curSize

/-- `calc_node_size`. -/
def calcNodeSize : ℕ → ℕ → Code T ℕ
  | 0 => fun _ ↦ .fault
  | fuel + 1 => fun p ↦ do
    checkStructure p
    let h ← getHeader p
    let keysExist ← tabulateArray .count Val.count? h.keys.length (existCount p)
    let thisKeysCount := keysExist.foldl (· + ·) 0
    let subtreeSizes ← tabulateArray .count Val.count? h.childrenSize fun idx ↦ do
      match ← Prog.readAs Val.pointer? (p, .children idx) with
      | none => pure 0
      | some child => calcNodeSize fuel child
    let totalSize := subtreeSizes.foldl (· + ·) 0 + thisKeysCount
    let curSize ← Prog.readAs Val.count? (p, .curSize)
    assert (totalSize = curSize)
    pure totalSize

end Mem

end Pbist
