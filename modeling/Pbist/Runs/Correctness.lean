import Pbist.Runs.Reachable

/-!
# Runs of the tree answer as a finite set does

The main results about what users of the tree see: a valid run returns what the abstract set
returns, never fails a check, and neither the schedule nor the coefficient of `should_rebuild` nor
the size threshold can be noticed.

## The main results, and what each rests on

* `run_refines_set` and `run_has_no_fault` are the two halves of `ValidRun.run_eq`: the checked run
  is the functional run, which represents the abstract set. That there is no fault includes the
  functions that only read a tree.
* `tuning_is_invisible` rests on the first, for both runs at once, and on nothing that the two runs
  have in common: replies and contents are functions of the abstract set, in which neither the
  coefficient nor the threshold occurs.
-/

namespace Pbist

variable {lo hi : ℤ} {t t' : ℕ} {keys : List I32} {ops : List (Op I32)}

/-- **A run refines the abstract set.** In every order of the parallel loops, a valid run returns
the replies of the abstract run, and leaves a tree that stores the abstract set. -/
theorem run_refines_set (ov : Overflow) (h : ValidRun lo hi t keys ops) (σ : Schedule) :
    ∃ s, run (int32 ov) 4 t σ keys ops = .ok s ∧
      s.replies = (setRun keys ops).replies ∧
      ∀ x, x ∈ slotLive s.tree.root ↔ x ∈ (setRun keys ops).stored :=
  ⟨_, h.run_eq ov 4 σ, h.replies_eq ov 4, (h.represents ov 4).mem_iff⟩

theorem run_refines_set_sample :
    ∃ s, run (int32 .trapping) 4 1 .reversed sampleKeys sampleOps = .ok s ∧
      s.replies = [.flags [false, true], .flags [true], .flags [false, true], .flag true, .size 5,
        .flags [true]] ∧
      ∀ x, x ∈ slotLive s.tree.root ↔ x ∈ sampleStored := by
  obtain ⟨s, hrun, hreplies, hstored⟩ :=
    run_refines_set .trapping (validRun_sample le_rfl) .reversed
  refine ⟨s, hrun, hreplies.trans (by decide), fun x ↦ ?_⟩
  rw [hstored, setRun_sample, List.mem_toFinset]

/-- **No check ever fails**: neither an assertion nor an array access, a subtraction, a read of raw
memory or a null pointer, in any order of the parallel loops, and whether overflow wraps or traps.
The same holds for the functions that read a tree. -/
theorem run_has_no_fault (ov : Overflow) (h : ValidRun lo hi t keys ops) (σ : Schedule) :
    ∃ s, run (int32 ov) 4 t σ keys ops = .ok s ∧
      (∃ size, s.tree.calcTreeSize = .ok size) ∧
      (∃ dump, s.tree.dumpKeys = .ok dump) ∧
      (∀ σ', ∃ dump, s.tree.getKeys σ' = .ok dump) ∧
      ∀ root, s.tree.root = some root →
        ∃ levels, root.dumpKeysByLevelSeq root.height = .ok levels := by
  have hrep := h.represents ov 4
  exact ⟨_, h.run_eq ov 4 σ, ⟨_, hrep.calcTreeSize_eq⟩, ⟨_, hrep.dumpKeys_eq⟩,
    fun σ' ↦ ⟨_, hrep.getKeys_eq σ'⟩,
    fun root hroot ↦ Node.Inv.dumpKeysByLevelSeq_isOk (hrep.inv root hroot) le_rfl⟩

theorem run_has_no_fault_sample :
    ∃ s, run (int32 .trapping) 4 2 .sequential sampleKeys sampleOps = .ok s ∧
      ∃ size, s.tree.calcTreeSize = .ok size := by
  obtain ⟨s, hrun, hsize, -⟩ :=
    run_has_no_fault .trapping (validRun_sample (t := 2) (by decide)) .sequential
  exact ⟨s, hrun, hsize⟩

/-- **Tuning cannot be noticed.** Two runs with different coefficients of `should_rebuild` (0, that
is no rebuild of an inner node, included) and different size thresholds have returned the same
replies after every step, and then their trees hold the same keys in the same order. -/
theorem tuning_is_invisible (ov : Overflow) (c c' : ℕ) (h : ValidRun lo hi t keys ops)
    (h' : ValidRun lo hi t' keys ops) (σ σ' : Schedule) :
    ∀ pre, pre <+: ops → ∃ s s', run (int32 ov) c t σ keys pre = .ok s ∧
      run (int32 ov) c' t' σ' keys pre = .ok s' ∧ s.replies = s'.replies ∧
      ∃ dump, s.tree.dumpKeys = .ok dump ∧ s'.tree.dumpKeys = .ok dump ∧
        ∀ τ, s.tree.getKeys τ = .ok dump ∧ s'.tree.getKeys τ = .ok dump := by
  intro pre hpre
  have hrun := h.beginning hpre
  have hrun' := h'.beginning hpre
  have hrep := hrun.represents ov c
  have hrep' := hrun'.represents ov c'
  exact ⟨_, _, hrun.run_eq ov c σ, hrun'.run_eq ov c' σ',
    (hrun.replies_eq ov c).trans (hrun'.replies_eq ov c').symm, _, hrep.dumpKeys_eq,
    hrep'.dumpKeys_eq, fun τ ↦ ⟨hrep.getKeys_eq τ, hrep'.getKeys_eq τ⟩⟩

theorem tuning_is_invisible_sample :
    ∃ s s', run (int32 .trapping) 0 1 .sequential sampleKeys sampleOps = .ok s ∧
      run (int32 .trapping) 4 3 .reversed sampleKeys sampleOps = .ok s' ∧
      s.replies = s'.replies := by
  obtain ⟨s, s', hrun, hrun', hreplies, -⟩ := tuning_is_invisible .trapping 0 4
    (validRun_sample le_rfl) (validRun_sample (t := 3) (by decide)) .sequential .reversed sampleOps
    List.prefix_rfl
  exact ⟨s, s', hrun, hrun', hreplies⟩

end Pbist
