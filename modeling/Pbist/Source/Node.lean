import Pbist.Source.Search

/-!
# The nodes of the tree (`node.h`, `build_id` of `build.h`)

A node holds its representative keys, a flag for each of them that says whether the key is stored or
only a tombstone, its children, the interpolation index `id`, and three counters. A child is `none`
for a null pointer. This module has the structure, its constructor and the predicates on it; the
member functions follow in the modules after it.

## How the code is read

* The assertions of the constructor are checks, and so is the dereference of the first and the last
  key in `build_id`. `is_terminal` asserts that the arrays of a node have matching lengths.
* The constructor builds the index for 50 keys or more, and `do_search` uses it if there is one; the
  constant is that of the code.
* The coefficient of `should_rebuild` is a parameter, which the code sets to 4. The results that
  depend on its value say so.
-/

namespace Pbist

open Checked

/-- `ist_internal_node`. -/
structure Node (T : Type) where
  /-- Representative keys. -/
  keys : List T
  /-- Whether the representative key is stored in the tree. -/
  keysExist : List Bool
  /-- Empty for a terminal node; otherwise one child more than there are keys. -/
  children : List (Option (Node T))
  /-- The interpolation index; empty for a small node. -/
  id : List ℕ
  /-- The number of keys the node was built from. -/
  initialSize : ℕ
  /-- The number of stored keys in the subtree. -/
  curSize : ℕ
  /-- The number of keys inserted or removed through the node since it was built. -/
  modificationsCount : ℕ

variable {T : Type}

/-- `is_sorted(arr, true)` of `utils.h`: neighbours are compared, and the comparisons reduced. -/
def isSorted [LT T] [DecidableLT T] (arr : List T) : Checked Bool :=
  if arr.length = 0 then pure true
  else do
    let isCorrect ← tabulate (← subtract arr.length 1) fun i ↦ do
      pure (decide ((← get arr i) < (← get arr (i + 1))))
    pure (isCorrect.foldl (· && ·) true)

section BuildId

variable (A : Arith T)

/-- `std::lower_bound(keys.begin(), keys.end(), frac)`: the index of the first key that is not below
`frac`, and the size when there is none. -/
def lowerBound (keys : List T) (frac : ℚ) : ℕ :=
  keys.findIdx fun key ↦ decide (¬ A.toDouble key < frac)

/-- `build_id`. -/
def buildId (keys : List T) (idSize : ℕ) : Checked (List ℕ) := do
  require (1 ≤ keys.length)
  let min := A.toDouble (← get keys 0)
  let max := A.toDouble (← get keys (← subtract keys.length 1))
  let range := A.round (max - min)
  tabulate idSize fun i ↦ do
    let frac := A.round (min + A.round (A.round (range * A.round (i : ℚ)) / A.round (idSize : ℚ)))
    let it := lowerBound A keys frac
    require (it ≠ keys.length)
    pure it

/-- The constructor of `ist_internal_node`. -/
def Node.new (keys : List T) (children : List (Option (Node T))) (keysCount : ℕ) :
    Checked (Node T) := do
  let id ← if 50 ≤ keysCount then buildId A keys keys.length else pure []
  require (0 < keys.length)
  require (children.length = 0 ∨ children.length = keys.length + 1)
  pure
    { keys
      keysExist := List.replicate keys.length true
      children
      id
      initialSize := keysCount
      curSize := keysCount
      modificationsCount := 0 }

end BuildId

namespace Node

/-- `is_structure_correct`. -/
def isStructureCorrect (node : Node T) : Prop :=
  node.keys.length = node.keysExist.length ∧ 1 ≤ node.keys.length ∧
    (node.children.length = 0 ∨ node.children.length = node.keys.length + 1)

instance (node : Node T) : Decidable node.isStructureCorrect :=
  inferInstanceAs (Decidable (_ ∧ _ ∧ _))

/-- `is_terminal`. -/
def isTerminal (node : Node T) : Checked Bool := do
  require node.isStructureCorrect
  pure (decide (node.children.length = 0))

/-- `should_rebuild`, for an arbitrary coefficient; the code has `coefficient = 4`. -/
def shouldRebuild (coefficient : ℕ) (node : Node T) (modificationsCount : ℕ) : Bool :=
  decide (node.initialSize < coefficient * (modificationsCount + node.modificationsCount))

/-- `do_search`. -/
def doSearch [LinearOrder T] (A : Arith T) (node : Node T) (key : T) : Checked (ℕ × Bool) :=
  if node.id.length = 0 then binarySearch node.keys key
  else interpolationSearch A node.keys key node.id

/-- A chained assertion `0 <= left < right <= size`. C++ compares the truth value of
`0 <= left < right` with `size`; the second check is the intended reading. -/
def requireBorders (left right size : ℕ) : Checked Unit := do
  require ((decide ((decide (0 ≤ left)).toNat < right)).toNat ≤ size)
  require (0 ≤ left ∧ left < right ∧ right ≤ size)

/-! ### Recursion over a tree -/

mutual

/-- The fold over a tree: what `f` makes of a node and of the results for its children. -/
def foldTree {β : Type*} (f : Node T → List (Option β) → β) : Node T → β
  | ⟨keys, keysExist, children, id, initialSize, curSize, modificationsCount⟩ =>
    f ⟨keys, keysExist, children, id, initialSize, curSize, modificationsCount⟩
      (foldChildren f children)

/-- The results of the fold for a list of child pointers. -/
def foldChildren {β : Type*} (f : Node T → List (Option β) → β) :
    List (Option (Node T)) → List (Option β)
  | [] => []
  | none :: children => none :: foldChildren f children
  | some child :: children => some (foldTree f child) :: foldChildren f children

end

theorem foldChildren_eq {β : Type*} (f : Node T → List (Option β) → β)
    (children : List (Option (Node T))) :
    foldChildren f children = children.map (Option.map (foldTree f)) := by
  induction children with
  | nil => rfl
  | cons child children ih => cases child <;> simp [foldChildren, ih]

theorem foldTree_eq {β : Type*} (f : Node T → List (Option β) → β) (node : Node T) :
    foldTree f node = f node (node.children.map (Option.map (foldTree f))) := by
  cases node
  rw [foldTree, foldChildren_eq]

theorem sizeOf_lt_of_child {node child : Node T} (h : some child ∈ node.children) :
    sizeOf child < sizeOf node := by
  have hmem := List.sizeOf_lt_of_mem h
  have hsome : sizeOf (some child) = 1 + sizeOf child := rfl
  have hchildren : sizeOf node.children < sizeOf node := by
    cases node
    simp only [mk.sizeOf_spec]
    omega
  omega

/-- Induction over a tree. -/
theorem induction {motive : Node T → Prop}
    (step : ∀ node, (∀ child, some child ∈ node.children → motive child) → motive node)
    (node : Node T) : motive node :=
  step node fun child _ ↦ induction step child
termination_by sizeOf node
decreasing_by exact sizeOf_lt_of_child ‹_›

/-- The number of nodes on the longest path down from the node. -/
def height : Node T → ℕ :=
  foldTree fun _ heights ↦ (heights.map (·.getD 0)).foldr max 0 + 1

end Node

/-- The height of the subtree behind a pointer. -/
def slotHeight (slot : Option (Node T)) : ℕ :=
  (slot.map Node.height).getD 0

end Pbist
