import Pbist.Runs.Reachable

/-!
# The volume of the rebuilds of a run

The potential of a state is five times the sum of all modification counters. In every step, the
volume of the rebuilds and the change of the potential are paid by the keys that are passed to the
root, each of which contributes `5 * H + t + 1` for trees of height at most `H`. Summed over a run,
this bounds the volume of all rebuilds.

`rebuild_volume_le` is the main result. It rests on `Node.Inv.slotCost_updated` for one update, and
on the induction over the run that `ValidRun.spent_le` makes. The bound for each inner rebuild,
which compares its volume with the modifications that led to it, comes from the rebuild policy.
-/

namespace Pbist

section Step

variable {T : Type} [LinearOrder T] {A : Arith T} {t H : ℕ} {exist : Bool} {W : Set T}
  {tree : Ist T} {keys : List T} {S : Finset T}

/-- The volume of the rebuilds of a run so far, and its potential. -/
def RunState.spent (s : RunState T) : ℕ :=
  volume s.rebuilds + 5 * slotModifications s.tree.root

/-- An update is paid by the keys that it passes to the root. -/
theorem Ist.Represents.volume_updated (hA : A.Exact) (ht : 1 ≤ t) (h : tree.Represents t W S)
    (hpolicy : SlotEverywhere (fun _ node ↦ node.Policy) W tree.root) (hkeys : keys.SortedLT)
    (hmem : ∀ x ∈ keys, x ∈ W) (hH : slotHeight tree.root ≤ H) :
    volume (tree.updated A 4 exist keys).rebuilds +
        5 * slotModifications (tree.updated A 4 exist keys).tree.root ≤
      5 * slotModifications tree.root +
        (tree.updated A 4 exist keys).passed * (5 * H + t + 1) := by
  have hthreshold := h.sizeThreshold
  subst hthreshold
  have hadm : Admissible exist W (slotLive tree.root) (tree.effective exist keys) :=
    Ist.admissible_effective hkeys hmem
  have hcost := h.inv.slotCost hA ht hpolicy hadm hH
  rcases hroot : tree.root with - | root
  · -- a tree that is built from nothing has no modifications
    rcases eq_or_ne keys [] with rfl | hne
    · rw [Ist.updated_of_effective_eq_nil rfl, hroot]
      exact Nat.zero_le _
    · rw [Ist.updated_of_root_eq_none hroot hne]
      cases exist with
      | true => simp [slotModifications_buildTree]
      | false => exact Nat.zero_le _
  · rw [hroot] at hcost
    rw [Ist.updated, hroot]
    exact hcost.volume

/-- An update leaves only rebuilds of inner nodes that are paid by modifications. -/
theorem Ist.Represents.paid_updated (hA : A.Exact) (ht : 1 ≤ t) (h : tree.Represents t W S)
    (hpolicy : SlotEverywhere (fun _ node ↦ node.Policy) W tree.root) (hkeys : keys.SortedLT)
    (hmem : ∀ x ∈ keys, x ∈ W) :
    ∀ r ∈ (tree.updated A 4 exist keys).rebuilds, r.Paid := by
  have hthreshold := h.sizeThreshold
  subst hthreshold
  exact (h.inv.slotCost hA ht hpolicy (Ist.admissible_effective hkeys hmem) le_rfl).paid

variable {s : RunState T} {op : Op T}

/-- **A step is paid by the keys that it passes to the root.** -/
theorem spent_next (hA : A.Exact) (ht : 1 ≤ t) (h : s.tree.Represents t W S)
    (hpolicy : SlotEverywhere (fun _ node ↦ node.Policy) W s.tree.root) (hop : op.Valid W)
    (hH : slotHeight s.tree.root ≤ H) (hspent : s.spent ≤ s.passed * (5 * H + t + 1)) :
    (s.next A 4 op).spent ≤ (s.next A 4 op).passed * (5 * H + t + 1) := by
  have hupdate : ∀ exist (keys : List T), keys.SortedLT → (∀ x ∈ keys, x ∈ W) →
      (s.record .flags (s.tree.updated A 4 exist keys)).spent ≤
        (s.record .flags (s.tree.updated A 4 exist keys)).passed * (5 * H + t + 1) := by
    intro exist keys hkeys hmem
    have hvolume := @Ist.Represents.volume_updated T _ A t H exist W s.tree keys S hA ht h hpolicy
      hkeys hmem hH
    simp only [RunState.spent, RunState.record, volume_add, Nat.add_mul] at hspent ⊢
    omega
  cases op with
  | insert keys => exact hupdate true keys hop.sorted hop.mem
  | remove keys => exact hupdate false keys hop.sorted hop.mem
  | contains keys => simpa [RunState.spent, RunState.next, RunState.record] using hspent
  | containsKey key => simpa [RunState.spent, RunState.next, RunState.record] using hspent
  | calcTreeSize => simpa [RunState.spent, RunState.next, RunState.record] using hspent

theorem paid_next (hA : A.Exact) (ht : 1 ≤ t) (h : s.tree.Represents t W S)
    (hpolicy : SlotEverywhere (fun _ node ↦ node.Policy) W s.tree.root) (hop : op.Valid W)
    (hpaid : ∀ r ∈ s.rebuilds, r.Paid) : ∀ r ∈ (s.next A 4 op).rebuilds, r.Paid := by
  have hupdate : ∀ exist (keys : List T), keys.SortedLT → (∀ x ∈ keys, x ∈ W) →
      ∀ r ∈ (s.record .flags (s.tree.updated A 4 exist keys)).rebuilds, r.Paid := by
    intro exist keys hkeys hmem r hr
    rcases Multiset.mem_add.1 hr with hr | hr
    · exact hpaid r hr
    · exact h.paid_updated hA ht hpolicy hkeys hmem r hr
  cases op with
  | insert keys => exact hupdate true keys hop.sorted hop.mem
  | remove keys => exact hupdate false keys hop.sorted hop.mem
  | contains keys => simpa [RunState.next, RunState.record] using hpaid
  | containsKey key => simpa [RunState.next, RunState.record] using hpaid
  | calcTreeSize => simpa [RunState.next, RunState.record] using hpaid

end Step

variable {lo hi : ℤ} {t : ℕ} {keys : List I32} {ops : List (Op I32)}

/-- A run is paid by the keys that it passes to the root. -/
theorem ValidRun.spent_le (ov : Overflow) {H : ℕ} (h : ValidRun lo hi t keys ops)
    (hH : ∀ pre, pre <+: ops →
      slotHeight (finalState (int32 ov) 4 t keys pre).tree.root ≤ H) :
    (finalState (int32 ov) 4 t keys ops).spent ≤
      (finalState (int32 ov) 4 t keys ops).passed * (5 * H + t + 1) := by
  induction ops using List.reverseRecOn with
  | nil =>
    show 0 + 5 * slotModifications (buildTree (int32 ov) t keys) ≤ _
    rw [slotModifications_buildTree]
    exact Nat.zero_le _
  | append_singleton ops op ih =>
    have hpre : ops <+: ops ++ [op] := List.prefix_append ops [op]
    have h' := h.beginning hpre
    rw [finalState_concat]
    exact spent_next (int32_exact ov) h.sizeThreshold (h'.represents ov 4) (h'.policy ov)
      (h.ops op (by simp)) (hH ops hpre) (ih h' fun pre hpre' ↦ hH pre (hpre'.trans hpre))

/-- The rebuilds of inner nodes of a run are paid by modifications. -/
theorem ValidRun.paid (ov : Overflow) (h : ValidRun lo hi t keys ops) :
    ∀ r ∈ (finalState (int32 ov) 4 t keys ops).rebuilds, r.Paid := by
  induction ops using List.reverseRecOn with
  | nil =>
    intro r hr
    exact absurd hr (Multiset.notMem_zero r)
  | append_singleton ops op ih =>
    have h' := h.beginning (List.prefix_append ops [op])
    rw [finalState_concat]
    exact paid_next (int32_exact ov) h.sizeThreshold (h'.represents ov 4) (h'.policy ov)
      (h.ops op (by simp)) (ih h')

/-- **Rebuilding is cheap over a whole run.** At every point of a run in which no tree is higher
than `H`, the volume of all rebuilds so far is at most `5 * H + t + 1` for every key that was passed
to the root; and every rebuild of an inner node is from fewer than five times as many keys as were
inserted or removed through the node since it was built. -/
theorem rebuild_volume_le (ov : Overflow) (h : ValidRun lo hi t keys ops) (σ : Schedule) {H : ℕ}
    (hH : ∀ pre, pre <+: ops → ∀ s, run (int32 ov) 4 t σ keys pre = .ok s →
      slotHeight s.tree.root ≤ H) :
    ∀ pre, pre <+: ops → ∃ s, run (int32 ov) 4 t σ keys pre = .ok s ∧
      volume s.rebuilds ≤ s.passed * (5 * H + t + 1) ∧
      ∀ r ∈ s.rebuilds, r.terminal = false →
        r.volume < 5 * (r.modificationsBefore + r.batchSize) := by
  intro pre hpre
  have h' := h.beginning hpre
  have hspent := h'.spent_le (H := H) ov fun pre' hpre' ↦
    hH pre' (hpre'.trans hpre) _ ((h'.beginning hpre').run_eq ov 4 σ)
  exact ⟨_, h'.run_eq ov 4 σ, (Nat.le_add_right _ _).trans hspent, h'.paid ov⟩

/-- The trees of the sample run have at most 6 keys, and so at most 4 levels. -/
theorem rebuild_volume_le_sample :
    ∃ s, run (int32 .trapping) 4 1 .sequential sampleKeys sampleOps = .ok s ∧
      volume s.rebuilds ≤ s.passed * 22 := by
  have hcard : ∀ pre ∈ sampleOps.inits, (setRun sampleKeys pre).stored.card ≤ 6 := by decide
  obtain ⟨s, hrun, hvolume, -⟩ := rebuild_volume_le .trapping (validRun_sample le_rfl) .sequential
    (H := 4) (fun pre hpre s hs ↦ by
      have h := (validRun_sample (t := 1) le_rfl).beginning hpre
      rw [h.run_eq .trapping 4 .sequential, Except.ok.injEq] at hs
      rw [← hs]
      refine (h.height_le .trapping).trans (Nat.succ_le_succ ?_)
      calc Nat.log 2 (4 * (setRun sampleKeys pre).stored.card / 3) ≤ Nat.log 2 8 :=
            Nat.log_mono_right (by have := hcard pre ((List.mem_inits _ _).2 hpre); omega)
        _ ≤ 3 := by decide) sampleOps List.prefix_rfl
  exact ⟨s, hrun, hvolume⟩

end Pbist
