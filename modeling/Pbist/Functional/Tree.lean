import Pbist.Functional.Volume
import Pbist.Spec.FiniteSet
import Mathlib.Data.Finset.Sort

/-!
# The tree as a finite set

The operations of the tree without loops and checks: an update hands the keys that make a difference
to the root. `Represents W tree S` says that `tree` is well formed and stores the set `S`; every
operation answers as the abstract set does, and keeps the relation.

The relation holds after construction (`Represents.start`) and is kept by every operation
(`Represents.next`), which is the step of the induction over runs. Nothing here depends on the
coefficient of `should_rebuild`, which may be any number in any operation.
-/

namespace Pbist

open Sorted

variable {T : Type} [LinearOrder T]

/-! ### The functional operations -/

namespace Ist

/-- Membership of the keys of a batch. -/
def membership (tree : Ist T) (keys : List T) : List Bool :=
  keys.map fun k ↦ decide (k ∈ slotLive tree.root)

/-- Whether the keys of a batch make a difference. -/
def flags (exist : Bool) (tree : Ist T) (keys : List T) : List Bool :=
  keys.map fun k ↦ decide (k ∈ slotLive tree.root) != exist

/-- The keys of a batch that make a difference. -/
def effective (exist : Bool) (tree : Ist T) (keys : List T) : List T :=
  keys.filter fun k ↦ decide (k ∈ slotLive tree.root) != exist

/-- Insertion (`exist = true`) or removal (`exist = false`) of a batch. -/
def updated (A : Arith T) (c : ℕ) (exist : Bool) (tree : Ist T) (keys : List T) :
    Step T (List Bool) where
  result := tree.flags exist keys
  tree :=
    { tree with
      root := (slotUpdated A c tree.sizeThreshold exist tree.root (tree.effective exist keys)).1 }
  passed := if tree.root.isSome then (tree.effective exist keys).length else 0
  rebuilds := (slotUpdated A c tree.sizeThreshold exist tree.root (tree.effective exist keys)).2

end Ist

/-- One operation of a run, without checks. -/
def RunState.next (A : Arith T) (c : ℕ) (s : RunState T) : Op T → RunState T
  | .insert keys => s.record .flags (s.tree.updated A c true keys)
  | .remove keys => s.record .flags (s.tree.updated A c false keys)
  | .contains keys => s.record .flags ⟨s.tree.membership keys, s.tree, 0, 0⟩
  | .containsKey key => s.record .flag ⟨decide (key ∈ slotLive s.tree.root), s.tree, 0, 0⟩
  | .calcTreeSize => s.record .size ⟨slotSize s.tree.root, s.tree, 0, 0⟩

/-- The state before the first operation. -/
def RunState.start (A : Arith T) (t : ℕ) (keys : List T) : RunState T :=
  ⟨⟨buildTree A t keys, t⟩, [], 0, 0⟩

variable {A : Arith T} {c t : ℕ} {exist : Bool} {W : Set T} {tree : Ist T} {keys : List T}
  {S : Finset T}

namespace Ist

theorem mem_effective {x : T} :
    x ∈ tree.effective exist keys ↔ x ∈ keys ∧ (x ∈ slotLive tree.root ↔ exist = false) := by
  rw [effective, List.mem_filter, bne_iff_ne]
  cases exist <;> simp

/-- The keys that make a difference form a batch for the root. -/
theorem admissible_effective (h : keys.SortedLT) (hmem : ∀ x ∈ keys, x ∈ W) :
    Admissible exist W (slotLive tree.root) (tree.effective exist keys) where
  sorted := (h.pairwise.sublist List.filter_sublist).sortedLT
  mem _ hx := hmem _ (mem_effective.1 hx).1
  stored_iff _ hx := (mem_effective.1 hx).2

/-- An update without effective keys leaves the tree as it is. -/
theorem updated_of_effective_eq_nil (h : tree.effective exist keys = []) :
    tree.updated A c exist keys = ⟨tree.flags exist keys, tree, 0, 0⟩ := by
  rw [updated, h, slotUpdated_nil, List.length_nil, ite_self]

/-- An update of an empty tree. -/
theorem updated_of_root_eq_none (h : tree.root = none) (hne : keys ≠ []) :
    tree.updated A c exist keys =
      ⟨List.replicate keys.length exist,
        { tree with root := if exist then buildTree A tree.sizeThreshold keys else none },
        0, 0⟩ := by
  have hflags : tree.flags exist keys = List.replicate keys.length exist := by
    rw [flags, h, slotLive_none]
    cases exist <;> simp
  cases exist with
  | true =>
    have heffective : tree.effective true keys = keys := by
      rw [effective, h, slotLive_none]
      simp
    rw [updated, heffective, hflags, h, slotUpdated_none hne]
    rfl
  | false =>
    have heffective : tree.effective false keys = [] := by
      rw [effective, h, slotLive_none]
      simp
    rw [updated_of_effective_eq_nil heffective, hflags, ← h]
    rfl

/-- An update of a tree that is not empty. -/
theorem updated_of_root_eq_some {root : Node T} (h : tree.root = some root)
    (hne : tree.effective exist keys ≠ []) :
    tree.updated A c exist keys =
      ⟨tree.flags exist keys,
        { tree with
          root := (Pbist.updated A c tree.sizeThreshold exist root
            (tree.effective exist keys)).slot },
        (tree.effective exist keys).length,
        (Pbist.updated A c tree.sizeThreshold exist root
          (tree.effective exist keys)).rebuilds⟩ := by
  rw [updated, h, slotUpdated_some hne]
  rfl

end Ist

/-! ### The tree represents a set -/

/-- The tree is well formed over `W` and stores the set `S`. -/
structure Ist.Represents (t : ℕ) (W : Set T) (tree : Ist T) (S : Finset T) : Prop where
  sizeThreshold : tree.sizeThreshold = t
  inv : SlotInv t W tree.root
  mem_iff : ∀ x, x ∈ slotLive tree.root ↔ x ∈ S

namespace Ist.Represents

theorem live_eq (h : tree.Represents t W S) : slotLive tree.root = S.sort := by
  refine List.SortedLT.eq_of_mem_iff h.inv.sortedLT_live ?_ fun x ↦ ?_
  · exact S.sortedLT_sort
  · rw [h.mem_iff, Finset.mem_sort]

theorem card_eq (h : tree.Represents t W S) : slotSize tree.root = S.card := by
  rw [← h.inv.length_live, h.live_eq, Finset.length_sort]

theorem start (hA : A.Exact) (ht : 1 ≤ t) (hkeys : keys.SortedLT) (hmem : ∀ x ∈ keys, x ∈ W) :
    (RunState.start A t keys).tree.Represents t W keys.toFinset where
  sizeThreshold := rfl
  inv := slotInv_buildTree hA ht hkeys hmem
  mem_iff x := by
    rw [RunState.start, slotLive_buildTree, List.mem_toFinset]

/-- What an update does behind the root pointer. -/
theorem slotSpec (hA : A.Exact) (ht : 1 ≤ t) (h : tree.Represents t W S) (hkeys : keys.SortedLT)
    (hmem : ∀ x ∈ keys, x ∈ W) :
    SlotSpec t exist W tree.root (tree.effective exist keys)
      (tree.updated A c exist keys).tree.root := by
  have hthreshold := h.sizeThreshold
  subst hthreshold
  exact h.inv.slotSpec hA ht (admissible_effective hkeys hmem)

/-- An update adds or takes away the keys of the batch. -/
theorem update (hA : A.Exact) (ht : 1 ≤ t) (h : tree.Represents t W S) (hkeys : keys.SortedLT)
    (hmem : ∀ x ∈ keys, x ∈ W) :
    (tree.updated A c exist keys).tree.Represents t W
      (if exist then S ∪ keys.toFinset else S \ keys.toFinset) := by
  have hspec := @slotSpec T _ A c t exist W tree keys S hA ht h hkeys hmem
  refine ⟨h.sizeThreshold, hspec.inv, fun x ↦ ?_⟩
  rw [hspec.mem_live]
  have hold := h.mem_iff x
  cases exist <;> by_cases hx : x ∈ keys <;> by_cases hS : x ∈ S <;>
    simp [mem_effective, hold, hx, hS]

/-- **An operation answers as the abstract set does, and keeps the relation.** -/
theorem next (hA : A.Exact) (ht : 1 ≤ t) {s : RunState T} {x : SetState T}
    (h : s.tree.Represents t W x.stored ∧ s.replies = x.replies) {op : Op T} (hop : op.Valid W) :
    (s.next A c op).tree.Represents t W (x.next op).stored ∧
      (s.next A c op).replies = (x.next op).replies := by
  obtain ⟨h, hreplies⟩ := h
  have hmem : ∀ k, decide (k ∈ slotLive s.tree.root) = decide (k ∈ x.stored) := fun k ↦
    decide_eq_decide.2 (h.mem_iff k)
  cases op with
  | insert keys =>
    refine ⟨@update T _ A c t true W s.tree keys x.stored hA ht h hop.sorted hop.mem, ?_⟩
    simp [RunState.next, RunState.record, SetState.next, Op.answer, updated, flags, hreplies, hmem]
  | remove keys =>
    refine ⟨@update T _ A c t false W s.tree keys x.stored hA ht h hop.sorted hop.mem, ?_⟩
    simp [RunState.next, RunState.record, SetState.next, Op.answer, updated, flags, hreplies, hmem]
  | contains keys =>
    refine ⟨h, ?_⟩
    simp [RunState.next, RunState.record, SetState.next, Op.answer, membership, hreplies, hmem]
  | containsKey key =>
    refine ⟨h, ?_⟩
    simp [RunState.next, RunState.record, SetState.next, Op.answer, hreplies, hmem]
  | calcTreeSize =>
    refine ⟨h, ?_⟩
    simp [RunState.next, RunState.record, SetState.next, Op.answer, hreplies, h.card_eq]

end Ist.Represents

end Pbist
