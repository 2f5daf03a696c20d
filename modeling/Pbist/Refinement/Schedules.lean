import Pbist.Refinement.Update

/-!
# The order of the iterations does not matter

The batch operations on a well-formed inner node run two loops each, and the same freedom is in
every call for a child. All orders lead to the same node, the same returned `optional` and the same
result array, because no two iterations touch the same thing: ranges belong to different children,
and keys to different flags and to different result slots.

`order_is_irrelevant` states the outcome and the reason for it. That there is one outcome follows
from `doContains_eq` and `doUpdate_eq`, whose right sides do not mention a schedule. The reason,
that no two iterations write to the same place, is stated of the ranges and of the array of flags.
-/

namespace Pbist

open Checked Sorted Runs

variable {T : Type} [LinearOrder T] {A : Arith T} {c t : ℕ} {I W : Set T}

namespace Node

variable {node : Node T} {keys : List T} {left right : ℕ}

section Loops

variable (hA : A.ExactOn W) (hI : I ⊆ W) (h : node.Inv t I)

include hA hI h

/-- Every order of the iterations of `do_contains` gives the same result array, in which each slot
of the range was written once and no other slot was. -/
theorem Inv.doContains_schedule {fuel : ℕ} (hfuel : node.height ≤ fuel) (hlt : left < right)
    (hright : right ≤ keys.length) (hsorted : (part keys left right).SortedLT)
    {result : Buffer Bool} (hresult : keys.length = result.length) :
    ∃ result', (∀ σ, node.doContains A fuel σ keys left right result = .ok result') ∧
      ∀ (i : ℕ) (cell : Cell Bool), result[i]? = some cell → ∃ cell', result'[i]? = some cell' ∧
        cell'.writes = cell.writes + if left ≤ i ∧ i < right then 1 else 0 := by
  refine ⟨_, fun σ ↦ h.doContains_answerAt hA hI hfuel σ hlt hright hresult hsorted,
    fun i cell hcell ↦ ?_⟩
  rw [getElem?_updateOn, hcell]
  refine ⟨_, rfl, ?_⟩
  dsimp only
  by_cases hi : left ≤ i ∧ i < right
  · rw [if_pos (Finset.mem_Ico.2 hi), if_pos hi]
    rfl
  · rw [if_neg (mt Finset.mem_Ico.1 hi), if_neg hi, Nat.add_zero]

/-- The first loops compute the same array of child indices in every order, and the ranges of this
array belong to different children. -/
theorem Inv.ranges_distinct (hlt : left < right) (hright : right ≤ keys.length)
    (hsorted : (part keys left right).SortedLT) :
    ∃ childIdx begins ends,
      (∀ σ (result : Buffer Bool), keys.length = result.length →
        ∃ result', node.containsKeys A σ keys left right result = .ok (result', childIdx)) ∧
      (∀ exist, Admissible exist I node.live (part keys left right) →
        ∃ flags, ∀ σ, node.markKeys A exist σ keys left right = .ok (flags, childIdx)) ∧
      node.getRangeBorders childIdx = .ok (begins, ends) ∧
      begins.length = ends.length ∧
      ∀ (i j b b' : ℕ), begins[i]? = some b → begins[j]? = some b' → i ≠ j →
        childIdx[b]? ≠ childIdx[b']? := by
  have hne : routing node.keys (part keys left right) ≠ [] :=
    List.ne_nil_of_length_pos (by rw [routing, List.length_map, length_part hright]; omega)
  refine ⟨routing node.keys (part keys left right), _, _, fun σ result hresult ↦ ?_,
    fun exist hb ↦ ⟨_, fun σ ↦ h.markKeys_eq hA hI hb hlt.le hright⟩,
    getRangeBorders_eq h.here.isStructureCorrect hne, by simp, fun i j b b' hi hj hij ↦ ?_⟩
  · have hlen : right ≤ result.length := hresult ▸ hright
    have hloop := h.containsKeys_eq hA hI (σ := σ) hlt.le hright hlen answers_answerAt
      (Finset.disjoint_empty_left _)
    simp only [updateOn_empty] at hloop
    exact ⟨_, hloop⟩
  · rw [List.getElem?_map, Option.map_eq_some_iff] at hi hj
    obtain ⟨r, hr, rfl⟩ := hi
    obtain ⟨s, hs, rfl⟩ := hj
    obtain ⟨hilt, rfl⟩ := List.getElem?_eq_some_iff.1 hr
    obtain ⟨hjlt, rfl⟩ := List.getElem?_eq_some_iff.1 hs
    have hpair := List.pairwise_iff_getElem.1
      (grouped_routing h.here.sorted hsorted).pairwise_ne
    rcases Nat.lt_or_gt_of_ne hij with hlt' | hlt'
    · exact hpair i j hilt hjlt hlt'
    · exact (hpair j i hjlt hilt hlt').symm

/-- Two keys of a batch that are found in the node are found at different indices. -/
theorem Inv.entries_distinct (hsorted : (part keys left right).SortedLT) {i j a b : ℕ} {x y : T}
    (hi : left ≤ i ∧ i < right) (hj : left ≤ j ∧ j < right) (hij : i ≠ j)
    (hx : keys[i]? = some x) (hy : keys[j]? = some y)
    (hxa : node.doSearch A x = .ok (a, true)) (hyb : node.doSearch A y = .ok (b, true)) :
    a ≠ b := by
  rw [h.here.doSearch_eq hA hI, Except.ok.injEq, Prod.mk.injEq, decide_eq_true_eq] at hxa hyb
  rintro rfl
  obtain rfl := rank_inj h.here.sorted hxa.2 hyb.2 (hxa.1.trans hyb.1.symm)
  exact hij (part_inj hsorted.nodup hi.1 hi.2 hj.1 hj.2 hx hy)

end Loops

end Node

/-- **The order of the iterations does not matter.** On a well-formed node with `int32_t` keys,
every order of the loops of a batch operation, at the node and in all calls below it, leads to the
same outcome as index order. No two ranges belong to the same child, no two keys of the batch to
the same flag, and every result slot of the range is written once. -/
theorem order_is_irrelevant (ov : Overflow) (c : ℕ) {lo hi : ℤ} (hwidth : hi - lo ≤ 2 ^ 31 - 1)
    {t : ℕ} (ht : 1 ≤ t) {node : Node I32} (h : node.Inv t (window lo hi)) {fuel : ℕ}
    (hfuel : node.height ≤ fuel) {keys : List I32} {left right : ℕ} (hlt : left < right)
    (hright : right ≤ keys.length) (hsorted : (part keys left right).SortedLT) :
    (∀ result : Buffer Bool, keys.length = result.length →
      ∃ result', (∀ σ, node.doContains (int32 ov) fuel σ keys left right result = .ok result') ∧
        ∀ (i : ℕ) (cell : Cell Bool), result[i]? = some cell → ∃ cell', result'[i]? = some cell' ∧
          cell'.writes = cell.writes + if left ≤ i ∧ i < right then 1 else 0) ∧
    (Admissible true (window lo hi) node.live (part keys left right) →
      ∃ out, ∀ σ, node.doInsert (int32 ov) c fuel σ keys t left right = .ok out) ∧
    (Admissible false (window lo hi) node.live (part keys left right) →
      ∃ out, ∀ σ, node.doRemove (int32 ov) c fuel σ keys t left right = .ok out) ∧
    (∃ childIdx begins ends,
      (∀ σ (result : Buffer Bool), keys.length = result.length → ∃ result',
        node.containsKeys (int32 ov) σ keys left right result = .ok (result', childIdx)) ∧
      (∀ exist, Admissible exist (window lo hi) node.live (part keys left right) →
        ∃ flags, ∀ σ, node.markKeys (int32 ov) exist σ keys left right = .ok (flags, childIdx)) ∧
      node.getRangeBorders childIdx = .ok (begins, ends) ∧
      begins.length = ends.length ∧
      ∀ (i j b b' : ℕ), begins[i]? = some b → begins[j]? = some b' → i ≠ j →
        childIdx[b]? ≠ childIdx[b']?) ∧
    ∀ (i j a b : ℕ) (x y : I32), left ≤ i ∧ i < right → left ≤ j ∧ j < right → i ≠ j →
      keys[i]? = some x → keys[j]? = some y →
      node.doSearch (int32 ov) x = .ok (a, true) → node.doSearch (int32 ov) y = .ok (b, true) →
      a ≠ b := by
  have hA := int32_exactOn ov hwidth
  exact ⟨fun result hresult ↦
      h.doContains_schedule hA subset_rfl hfuel hlt hright hsorted hresult,
    fun hb ↦ ⟨_, fun σ ↦ h.doInsert_eq hA ht subset_rfl hfuel hlt hright hb⟩,
    fun hb ↦ ⟨_, fun σ ↦ h.doRemove_eq hA ht subset_rfl hfuel hlt hright hb⟩,
    h.ranges_distinct hA subset_rfl hlt hright hsorted,
    fun i j a b x y hi hj hij hx hy hxa hyb ↦
      h.entries_distinct hA subset_rfl hsorted hi hj hij hx hy hxa hyb⟩

/-- Inserting 3 and 7, of which 3 is revived, and removing both stored keys. -/
theorem order_is_irrelevant_sample :
    (∃ out, ∀ σ, sampleNode.doInsert (int32 .trapping) 4 sampleNode.height σ
      [.small 3, .small 7] 2 0 2 = .ok out) ∧
    ∃ out, ∀ σ, sampleNode.doRemove (int32 .trapping) 4 sampleNode.height σ
      [.small 2, .small 5] 2 0 2 = .ok out := by
  have hinsert : Admissible true (window 0 9) sampleNode.live
      (part [.small 3, .small 7] 0 2) := by
    rw [live_sampleNode]
    exact ⟨by decide, show ∀ k ∈ [I32.small 3, .small 7], 0 ≤ k.1 ∧ k.1 ≤ 9 by decide,
      by decide⟩
  have hremove : Admissible false (window 0 9) sampleNode.live
      (part [.small 2, .small 5] 0 2) := by
    rw [live_sampleNode]
    exact ⟨by decide, show ∀ k ∈ [I32.small 2, .small 5], 0 ≤ k.1 ∧ k.1 ≤ 9 by decide,
      by decide⟩
  exact ⟨(order_is_irrelevant .trapping 4 (by decide) (by decide) inv_sampleNode le_rfl
      (by decide) (by decide) hinsert.sorted).2.1 hinsert,
    (order_is_irrelevant .trapping 4 (by decide) (by decide) inv_sampleNode le_rfl
      (by decide) (by decide) hremove.sorted).2.2.1 hremove⟩

end Pbist
