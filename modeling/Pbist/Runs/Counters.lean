import Pbist.Runs.Invariants
import Pbist.Search.Interpolation

/-!
# The counters of a node

`modifications_count` only grows until its node is rebuilt, and a run may have any number of
operations. The rebuild policy still bounds it, so no counter of a node and no sum or product that
an update computes from one leaves `uint64_t`. That is why the counters can be natural numbers here.
-/

namespace Pbist

/-- The counters of a node, and what an update by `n` keys computes from them, fit. -/
structure Node.CountersFit {T : Type} (n : ℕ) (node : Node T) : Prop where
  initialSize : node.initialSize < 2 ^ 33
  /-- The size after an insertion, and the length of the array that a rebuild merges into. -/
  curSize : node.curSize + n ≤ 2 ^ 33
  modificationsCount : node.modificationsCount + n < 2 ^ 33
  /-- The product that `should_rebuild` compares with `initial_size`. -/
  shouldRebuild : 4 * (n + node.modificationsCount) < 2 ^ 35

/-- A node of `int32_t` keys that keeps the policy has small counters. -/
theorem Node.Policy.countersFit {t n : ℕ} {I : Set I32} {node : Node I32} (hpolicy : node.Policy)
    (h : node.Inv t I) (hn : n ≤ 2 ^ 32) : node.CountersFit n := by
  have hlive := length_le_of_sortedLT (Inv.sortedLT_live h)
  have hcur := Inv.length_live h
  have hmods := hpolicy.modifications
  have hshrunk := hpolicy.shrunk
  exact ⟨by omega, by omega, by omega, by omega⟩

/-- **No counter overflows, however long a run is**: at every node of a reachable tree, whatever
batch comes next. -/
theorem counters_fit (ov : Overflow) {lo hi : ℤ} {t : ℕ} {keys batch : List I32}
    {ops : List (Op I32)} (h : ValidRun lo hi t keys ops) (hbatch : batch.SortedLT) (σ : Schedule) :
    ∃ s, run (int32 ov) 4 t σ keys ops = .ok s ∧
      SlotEverywhere (fun _ node ↦ node.CountersFit batch.length) (window lo hi) s.tree.root := by
  have hn := length_le_of_sortedLT hbatch
  refine ⟨_, h.run_eq ov 4 σ, fun root hroot ↦ ?_⟩
  have hinv : root.Inv t (window lo hi) := (h.represents ov 4).inv root hroot
  exact (hinv.subtrees.and (h.policy ov root hroot).subtrees).imp
    fun I node ⟨hinv, hpolicy⟩ ↦ hpolicy.here.countersFit hinv hn

theorem counters_fit_sample :
    ∃ s, run (int32 .trapping) 4 1 .reversed sampleKeys sampleOps = .ok s ∧
      SlotEverywhere (fun _ node ↦ node.CountersFit 2) (window 0 9) s.tree.root ∧
      SampleShape s.tree.root := by
  obtain ⟨s, hrun, hfit⟩ := counters_fit .trapping (validRun_sample le_rfl)
    (show ([2, 4].map I32.small).SortedLT by decide) .reversed
  exact ⟨s, hrun, hfit, sampleShape_of_run hrun⟩

end Pbist
