import Pbist.Source.Batch
import Pbist.Library.Machine

/-!
# The tree (`tree.h`) and its runs

`ist_internal` owns a root pointer and the size threshold. A run of the tree is the constructor
followed by a sequence of operations; its state records, besides the tree, what the operations
returned, the rebuilds, and the number of keys that were passed on to `root->do_insert` or
`root->do_remove`.

## How the code is read

* A tree is a value, and an operation returns the new one. The copies of a batch that `insert` and
  `remove` filter (`filteri`) are lists.
* `runOp` chooses the member function by the operation. A run takes its schedule apart: operation
  number `n` gets a part of its own, so the orders in different operations are unrelated.
* The counts in the state are for the results about cost. No operation reads them.
-/

namespace Pbist

open Checked

variable {T : Type}

/-- `ist_internal`. -/
structure Ist (T : Type) where
  root : Option (Node T)
  sizeThreshold : ℕ

/-- What an operation leaves behind. -/
structure Step (T R : Type) where
  /-- The returned value. -/
  result : R
  tree : Ist T
  /-- The number of keys passed to `do_insert` or `do_remove` of the root. -/
  passed : ℕ
  rebuilds : Multiset Rebuild

variable [LinearOrder T] (A : Arith T)

namespace Ist

/-- The constructor. -/
def new (σ : Schedule) (keys : List T) (sizeThreshold : ℕ) : Checked (Ist T) := do
  pure ⟨← buildFromKeys A keys σ sizeThreshold, sizeThreshold⟩

/-- The loop of the single-key `contains`, with the number of nodes that it visits. -/
def containsLoop (searchKey : T) : ℕ → Option (Node T) → Checked (Bool × ℕ)
  | _, none => .ok (false, 0)
  | 0, some _ => .error .outOfFuel
  | fuel + 1, some curNode => do
    require (curNode.keys.length = curNode.keysExist.length)
    let (idx, found) ← curNode.doSearch A searchKey
    if found then do
      require ((← get curNode.keys idx) = searchKey)
      pure (← get curNode.keysExist idx, 1)
    else if ← curNode.isTerminal then do
      require (curNode.children.length = 0)
      pure (false, 1)
    else do
      require (0 < curNode.children.length)
      require (0 ≤ idx ∧ idx < curNode.children.length)
      let (answer, visited) ← containsLoop searchKey fuel (← get curNode.children idx)
      pure (answer, visited + 1)

/-- `contains` for a single key. -/
def containsKey (tree : Ist T) (searchKey : T) : Checked Bool := do
  pure (← containsLoop A searchKey (slotHeight tree.root) tree.root).1

/-- `contains` for a batch. -/
def contains (σ : Schedule) (tree : Ist T) (keys : List T) : Checked (List Bool) := do
  require (← isSorted keys)
  if keys.length = 0 then pure []
  else match tree.root with
    | none => pure (List.replicate keys.length false)
    | some root => do
      let result ← root.doContains A root.height σ keys 0 keys.length (Buffer.raw keys.length)
      Buffer.freeze result

/-- The keys of a batch whose entry in `result` is true: `filteri` over the batch. -/
def selectKeys (keys : List T) (result : List Bool) : List T :=
  ((keys.zip result).filter (·.2)).map (·.1)

/-- `insert`. -/
def insert (coefficient : ℕ) (σ : Schedule) (tree : Ist T) (keys : List T) :
    Checked (Step T (List Bool)) := do
  require (← isSorted keys)
  if keys.length = 0 then pure ⟨[], tree, 0, 0⟩
  else match tree.root with
    | none => do
      let root ← buildFromKeys A keys (σ.sub 0) tree.sizeThreshold
      pure ⟨List.replicate keys.length true, { tree with root }, 0, 0⟩
    | some root => do
      let result ← tree.contains A (σ.sub 0) keys
      require (result.length = keys.length)
      let result ← parallelFor (σ.sub 1) 0 result.length
        (fun idx result ↦ do put result idx !(← get result idx)) result
      let insertKeys := selectKeys keys result
      if 0 < insertKeys.length then do
        let out ← root.doInsert A coefficient root.height (σ.sub 2) insertKeys tree.sizeThreshold
          0 insertKeys.length
        pure ⟨result, { tree with root := out.slot }, insertKeys.length, out.rebuilds⟩
      else pure ⟨result, tree, 0, 0⟩

/-- `remove`. -/
def remove (coefficient : ℕ) (σ : Schedule) (tree : Ist T) (keys : List T) :
    Checked (Step T (List Bool)) := do
  require (← isSorted keys)
  if keys.length = 0 then pure ⟨[], tree, 0, 0⟩
  else match tree.root with
    | none => pure ⟨List.replicate keys.length false, tree, 0, 0⟩
    | some root => do
      let result ← tree.contains A (σ.sub 0) keys
      require (result.length = keys.length)
      let removeKeys := selectKeys keys result
      if 0 < removeKeys.length then do
        let out ← root.doRemove A coefficient root.height (σ.sub 1) removeKeys tree.sizeThreshold
          0 removeKeys.length
        pure ⟨result, { tree with root := out.slot }, removeKeys.length, out.rebuilds⟩
      else pure ⟨result, tree, 0, 0⟩

/-- `calc_tree_size`. -/
def calcTreeSize (tree : Ist T) : Checked ℕ :=
  match tree.root with
  | none => pure 0
  | some root => root.calcNodeSize root.height

/-- `dump_keys_seq` of the root; nothing for a null root. -/
def dumpKeys (tree : Ist T) : Checked (List T) :=
  match tree.root with
  | none => pure []
  | some root => root.dumpKeysSeq root.height

/-- `get_keys` of the root; nothing for a null root. -/
def getKeys (σ : Schedule) (tree : Ist T) : Checked (List T) :=
  match tree.root with
  | none => pure []
  | some root => root.getKeys root.height σ

end Ist

/-! ### Runs -/

/-- An operation on the tree. -/
inductive Op (T : Type)
  | insert (keys : List T)
  | remove (keys : List T)
  | contains (keys : List T)
  | containsKey (key : T)
  | calcTreeSize

/-- What an operation returns. -/
inductive Reply
  | flags (result : List Bool)
  | flag (result : Bool)
  | size (result : ℕ)
  deriving DecidableEq, Repr

/-- The state of a run. -/
structure RunState (T : Type) where
  tree : Ist T
  /-- What the operations so far returned. -/
  replies : List Reply
  /-- The number of keys passed to `do_insert` or `do_remove` of the root so far. -/
  passed : ℕ
  /-- The rebuilds so far. -/
  rebuilds : Multiset Rebuild

/-- The state after an operation that returned `reply`. -/
def RunState.record {R : Type} (s : RunState T) (reply : R → Reply) (step : Step T R) :
    RunState T :=
  { tree := step.tree
    replies := s.replies ++ [reply step.result]
    passed := s.passed + step.passed
    rebuilds := s.rebuilds + step.rebuilds }

/-- One operation of a run. -/
def runOp (coefficient : ℕ) (σ : Schedule) (s : RunState T) : Op T → Checked (RunState T)
  | .insert keys => do pure (s.record .flags (← s.tree.insert A coefficient σ keys))
  | .remove keys => do pure (s.record .flags (← s.tree.remove A coefficient σ keys))
  | .contains keys => do pure (s.record .flags ⟨← s.tree.contains A σ keys, s.tree, 0, 0⟩)
  | .containsKey key => do pure (s.record .flag ⟨← s.tree.containsKey A key, s.tree, 0, 0⟩)
  | .calcTreeSize => do pure (s.record .size ⟨← s.tree.calcTreeSize, s.tree, 0, 0⟩)

/-- A run of the tree from its constructor. -/
def run (coefficient sizeThreshold : ℕ) (σ : Schedule) (keys : List T) (ops : List (Op T)) :
    Checked (RunState T) := do
  let tree ← Ist.new A (σ.sub 0) keys sizeThreshold
  Machine.runFrom (fun n s op ↦ runOp A coefficient ((σ.sub 1).sub n) s op) 0 ⟨tree, [], 0, 0⟩ ops

end Pbist
