import Pbist.Runs.Reachable
import Mathlib.Algebra.Order.Group.Int

/-!
# What holds of every node of a reachable tree

Three invariants over whole runs: the representation invariant, the bounds that the rebuild policy
gives on sizes and tombstones, and the logarithmic height. They are stated for every node of the
tree with its interval, in terms of the fields of the node alone.

## The three results, and what each rests on

* `reachable_wellFormed` rests on the representation invariant that every update keeps, whatever its
  coefficient (`Node.Inv.slotSpec_updated`).
* `reachable_tidy` rests on the coefficient 4 besides. The bounds of `Node.Policy` at a node come
  from its own counters, which are reset whenever the node is rebuilt, and the null pointers from
  what is stored (`Node.Inv.everywhere_live_iff`).
* `reachable_balanced` is a consequence of the policy: the children of a node stay near the square
  root of its initial size, so the height is logarithmic (`height_le_log`). The number of nodes that
  a lookup visits is that of the loop of the code.
-/

namespace Pbist

open Checked Sorted

section Node

variable {T : Type} [LinearOrder T]

/-- The representation invariant of a node with interval `I` in a tree with size threshold `t`. -/
structure Node.WellFormed (t : ℕ) (I : Set T) (node : Node T) : Prop where
  exist_length : node.keys.length = node.keysExist.length
  keys_pos : 1 ≤ node.keys.length
  children_length : node.children.length = 0 ∨ node.children.length = node.keys.length + 1
  sorted : node.keys.SortedLT
  /-- All keys of the subtree, live or dead, lie in the inherited interval. -/
  inherited : ∀ x ∈ node.allKeys, x ∈ I
  /-- All keys below child `i`, live or dead, lie strictly between keys `i - 1` and `i`. -/
  between : ∀ (i : ℕ) (child : Node T), node.children[i]? = some (some child) →
    ∀ x ∈ child.allKeys, (∀ k, 0 < i → node.keys[i - 1]? = some k → k < x) ∧
      ∀ k, node.keys[i]? = some k → x < k
  nodup : node.allKeys.Nodup
  isTerminal_eq : node.isTerminal = .ok (decide (node.initialSize ≤ t))
  id_length_eq_zero : node.id.length = 0 ↔ node.initialSize < 50
  id_entries : 50 ≤ node.initialSize →
    node.id.length = node.keys.length ∧ ∀ j ∈ node.id, j < node.keys.length
  curSize_eq : node.curSize = node.keysExist.count true + (node.children.map slotSize).sum
  curSize_eq_live : node.curSize = node.live.length
  calcNodeSize_eq : node.calcNodeSize node.height = .ok node.curSize

theorem Node.Inv.wellFormed {t : ℕ} {node : Node T} {I : Set T}
    (h : node.Inv t I) : node.WellFormed t I where
  exist_length := h.here.exist_length.symm
  keys_pos := h.here.keys_pos
  children_length := h.here.children_length
  sorted := h.here.sorted
  inherited := Inv.allKeys_mem h
  between i child hchild x hx := (mem_gap_iff_neighbours h.here.sorted (h.here.index_le hchild)).1
    (Inv.allKeys_mem (h.child hchild) x hx).2
  nodup := Inv.nodup_allKeys h
  isTerminal_eq := by
    rw [h.here.isTerminal_eq, decide_eq_decide.2 h.here.terminal_iff]
  id_length_eq_zero := by
    have hpos := h.here.keys_pos
    rw [h.here.id_length]
    split <;> omega
  id_entries hbig := by
    rw [h.here.id_length, if_pos hbig]
    exact ⟨rfl, h.here.id_entries⟩
  curSize_eq := h.here.curSize_eq
  curSize_eq_live := (Inv.length_live h).symm
  calcNodeSize_eq := Inv.calcNodeSize_eq h le_rfl

/-- The bounds of the rebuild policy for a node with interval `I`, in a tree that stores `S`. -/
structure Node.Tidy (S : Finset T) (I : Set T) (node : Node T) : Prop where
  modifications : 4 * node.modificationsCount ≤ node.initialSize
  drift : |(node.curSize : ℤ) - node.initialSize| ≤ node.modificationsCount
  curSize_ge : 3 * node.initialSize ≤ 4 * node.curSize
  curSize_le : 4 * node.curSize ≤ 5 * node.initialSize
  curSize_pos : 1 ≤ node.curSize
  tombstones_le : node.tombstones ≤ node.modificationsCount
  tombstones_le_third : 3 * node.tombstones ≤ node.live.length
  /-- A child pointer is null exactly when the tree stores no key in the interval of the child. -/
  null_iff : ∀ (i : ℕ) (slot : Option (Node T)), node.children[i]? = some slot →
    (slot = none ↔ ∀ x ∈ I ∩ gap node.keys i, x ∉ S)

theorem Node.Policy.exists_live {t : ℕ} {I : Set T} {node : Node T}
    (hpolicy : node.Policy) (h : node.Inv t I) : ∃ x, x ∈ node.live := by
  have hpos := hpolicy.curSize_pos
  rw [← Inv.length_live h] at hpos
  exact List.exists_mem_of_ne_nil _ (List.ne_nil_of_length_pos hpos)

theorem Node.Policy.tidy {t : ℕ} {S : Finset T} {I : Set T} {node : Node T}
    (hpolicy : node.Everywhere (fun _ node ↦ node.Policy) I) (h : node.Inv t I)
    (hS : ∀ x ∈ I, x ∈ S ↔ x ∈ node.live) : node.Tidy S I := by
  obtain ⟨-, hmods, hgrown, hshrunk, htombs, -⟩ := hpolicy.here
  refine ⟨hmods, abs_le.2 ⟨by omega, by omega⟩, by omega, by omega,
    hpolicy.here.curSize_pos, htombs, by rw [Inv.length_live h]; omega,
    fun i slot hslot ↦ ⟨?_, fun hnone ↦ ?_⟩⟩
  · rintro rfl x ⟨hx, hgap⟩ hxS
    obtain ⟨hkeys, hrank⟩ := (mem_gap_iff h.here.sorted (h.here.index_le hslot)).1 hgap
    obtain ⟨slot, hslot', hlive⟩ :=
      (Inv.mem_live_of_notMem h hkeys).1 ((hS x hx).1 hxS)
    rw [hrank, hslot] at hslot'
    rw [← Option.some.inj hslot'] at hlive
    simp at hlive
  · rcases slot with - | child
    · rfl
    · -- a child that is not null stores a key
      obtain ⟨x, hx⟩ := (hpolicy.child hslot).here.exists_live (h.child hslot)
      have hmem := h.slotLive_mem hslot hx
      have hlive : x ∈ node.live :=
        mem_live.2 (.inr ⟨child, List.mem_of_getElem? hslot, hx⟩)
      exact absurd ((hS x hmem.1).2 hlive) (hnone x hmem)

/-- The size and height bounds of a node. -/
structure Node.Balanced (node : Node T) : Prop where
  children : node.children.length ≠ 0 → ∀ child, some child ∈ node.children →
    child.initialSize ≤ Nat.sqrt node.initialSize + node.modificationsCount ∧
      child.curSize ≤ Nat.sqrt node.initialSize + node.modificationsCount
  modifications : Nat.sqrt node.initialSize + node.modificationsCount ≤
    Nat.sqrt node.initialSize + node.initialSize / 4
  height : node.height ≤ Nat.log 2 node.initialSize + 1

theorem Node.Policy.balanced {t : ℕ} {I : Set T} {node : Node T} (ht : 1 ≤ t)
    (hpolicy : node.Everywhere (fun _ node ↦ node.Policy) I) (h : node.Inv t I) :
    node.Balanced where
  children _ child hchild := hpolicy.here.children child hchild
  modifications := by
    have := hpolicy.here.modifications
    omega
  height := height_le_log ht h hpolicy

end Node

variable {lo hi : ℤ} {t : ℕ} {keys : List I32} {ops : List (Op I32)}

/-- **The representation invariant holds in every reachable state**, at every node. -/
theorem reachable_wellFormed (ov : Overflow) (h : ValidRun lo hi t keys ops) (σ : Schedule) :
    ∃ s, run (int32 ov) 4 t σ keys ops = .ok s ∧
      SlotEverywhere (Node.WellFormed t) (window lo hi) s.tree.root := by
  refine ⟨_, h.run_eq ov 4 σ, fun root hroot ↦ ?_⟩
  exact ((h.represents ov 4).inv root hroot).subtrees.imp fun I node hinv ↦
    Node.Inv.wellFormed hinv

theorem reachable_wellFormed_sample :
    ∃ s, run (int32 .trapping) 4 1 .reversed sampleKeys sampleOps = .ok s ∧
      SlotEverywhere (Node.WellFormed 1) (window 0 9) s.tree.root ∧ SampleShape s.tree.root := by
  obtain ⟨s, hrun, hwellFormed⟩ :=
    reachable_wellFormed .trapping (validRun_sample le_rfl) .reversed
  exact ⟨s, hrun, hwellFormed, sampleShape_of_run hrun⟩

/-- **The rebuild policy bounds sizes and tombstones in every reachable state**, at every node; no
subtree is empty. -/
theorem reachable_tidy (ov : Overflow) (h : ValidRun lo hi t keys ops) (σ : Schedule) :
    ∃ s, run (int32 ov) 4 t σ keys ops = .ok s ∧
      SlotEverywhere (Node.Tidy (setRun keys ops).stored) (window lo hi) s.tree.root ∧
      (s.tree.root = none ↔ (setRun keys ops).stored = ∅) := by
  have hrep := h.represents ov 4
  have hpolicy := h.policy ov
  refine ⟨_, h.run_eq ov 4 σ, fun root hroot ↦ ?_, fun hroot ↦ ?_, fun hempty ↦ ?_⟩
  · have hinv : root.Inv t (window lo hi) := hrep.inv root hroot
    have hstored : ∀ x ∈ window lo hi, x ∈ (setRun keys ops).stored ↔ x ∈ root.live := by
      intro x _
      rw [← hrep.mem_iff, hroot, slotLive_some]
    exact ((hinv.subtrees.and (hpolicy root hroot).subtrees).and
      (hinv.everywhere_live_iff (S := (setRun keys ops).stored) hstored)).imp
        fun I node ⟨⟨hinv, hpolicy⟩, hS⟩ ↦ Node.Policy.tidy hpolicy hinv hS
  · refine Finset.eq_empty_of_forall_notMem fun x hx ↦ ?_
    rw [← hrep.mem_iff, hroot] at hx
    simp at hx
  · rcases hroot : (finalState (int32 ov) 4 t keys ops).tree.root with - | root
    · rfl
    · obtain ⟨x, hx⟩ := (hpolicy root hroot).here.exists_live (hrep.inv root hroot)
      have hmem := (hrep.mem_iff x).1 (by rwa [hroot])
      rw [hempty] at hmem
      simp at hmem

theorem reachable_tidy_sample :
    ∃ s, run (int32 .trapping) 4 1 .reversed sampleKeys sampleOps = .ok s ∧
      SlotEverywhere (Node.Tidy sampleStored.toFinset) (window 0 9) s.tree.root ∧
      SampleShape s.tree.root := by
  obtain ⟨s, hrun, htidy, -⟩ := reachable_tidy .trapping (validRun_sample le_rfl) .reversed
  exact ⟨s, hrun, setRun_sample ▸ htidy, sampleShape_of_run hrun⟩

/-- **The tree is shallow in every reachable state**, and a lookup visits no more nodes than the
tree is high. -/
theorem reachable_balanced (ov : Overflow) (h : ValidRun lo hi t keys ops) (σ : Schedule) :
    ∃ s, run (int32 ov) 4 t σ keys ops = .ok s ∧
      SlotEverywhere (fun _ node ↦ node.Balanced) (window lo hi) s.tree.root ∧
      slotHeight s.tree.root ≤ Nat.log 2 (4 * (setRun keys ops).stored.card / 3) + 1 ∧
      ∀ key, ∃ visited ≤ slotHeight s.tree.root,
        Ist.containsLoop (int32 ov) key (slotHeight s.tree.root) s.tree.root =
          .ok (decide (key ∈ (setRun keys ops).stored), visited) := by
  have hrep := h.represents ov 4
  have hpolicy := h.policy ov
  refine ⟨_, h.run_eq ov 4 σ, fun root hroot ↦ ?_, h.height_le ov, fun key ↦ ?_⟩
  · have hinv : root.Inv t (window lo hi) := hrep.inv root hroot
    exact (hinv.subtrees.and (hpolicy root hroot).subtrees).imp
      fun I node ⟨hinv, hpolicy⟩ ↦ Node.Policy.balanced h.sizeThreshold hpolicy hinv
  · obtain ⟨visited, hvisited, hloop⟩ := Ist.containsLoop_eq (int32_exactOn ov h.width) key
      subset_rfl hrep.inv le_rfl
    exact ⟨visited, hvisited, by rw [hloop, decide_eq_decide.2 (hrep.mem_iff key)]⟩

/-- The sample run leaves four keys, so the tree has at most three levels. -/
theorem reachable_balanced_sample :
    ∃ s, run (int32 .trapping) 4 1 .reversed sampleKeys sampleOps = .ok s ∧
      SlotEverywhere (fun _ node ↦ node.Balanced) (window 0 9) s.tree.root ∧
      slotHeight s.tree.root ≤ 3 ∧ SampleShape s.tree.root := by
  obtain ⟨s, hrun, hbalanced, hheight, -⟩ :=
    reachable_balanced .trapping (validRun_sample le_rfl) .reversed
  rw [setRun_sample, show sampleStored.toFinset.card = 4 by decide] at hheight
  exact ⟨s, hrun, hbalanced, hheight, sampleShape_of_run hrun⟩

end Pbist
