import Pbist.Functional.Policy
import Mathlib.Algebra.BigOperators.Ring.List

/-!
# The volume of rebuilds

The volume of a rebuild is the number of keys it rebuilds from. Every key of a batch pays a share
for each level of the tree, and five times the modification counters of the tree is the potential
that inner rebuilds are paid from: a node is rebuilt from fewer than five times as many keys as were
modified through it. Terminal nodes, which every insertion rebuilds, are paid by the keys directly.

`Node.Inv.slotCost_updated` is by induction on the tree. A key is charged once for each node that it
passes, and the part of the batch that a child gets is charged there; the sum over the children is
that over the batch because the segments make up the batch.
-/

namespace Pbist

open Sorted

variable {T : Type}

/-- The total volume of rebuilds. -/
def volume (rebuilds : Multiset Rebuild) : ℕ :=
  (rebuilds.map Rebuild.volume).sum

@[simp] theorem volume_zero : volume 0 = 0 := rfl

@[simp] theorem volume_add (r s : Multiset Rebuild) : volume (r + s) = volume r + volume s := by
  rw [volume, Multiset.map_add, Multiset.sum_add]
  rfl

@[simp] theorem volume_cons (r : Rebuild) (s : Multiset Rebuild) :
    volume (r ::ₘ s) = r.volume + volume s := by
  rw [volume, Multiset.map_cons, Multiset.sum_cons]
  rfl

theorem volume_sum (l : List (Multiset Rebuild)) : volume l.sum = (l.map volume).sum := by
  induction l with
  | nil => rfl
  | cons r l ih => rw [List.sum_cons, volume_add, ih, List.map_cons, List.sum_cons]

/-- The sum of the modification counters behind a pointer. -/
def slotModifications (slot : Option (Node T)) : ℕ :=
  slotSum (fun node ↦ node.modificationsCount) slot

theorem slotModifications_some (node : Node T) : slotModifications (some node) =
    node.modificationsCount + (node.children.map slotModifications).sum :=
  Node.sumTree_eq (fun node ↦ node.modificationsCount) node

theorem slotModifications_buildTree {A : Arith T} {t : ℕ} (keys : List T) :
    slotModifications (buildTree A t keys) = 0 :=
  slotSum_buildTree (fun _ _ _ ↦ rfl) keys

/-- A rebuild of an inner node is paid by the modifications since it was built. -/
def Rebuild.Paid (r : Rebuild) : Prop :=
  r.terminal = false → r.volume < 5 * (r.modificationsBefore + r.batchSize)

variable [LinearOrder T] {A : Arith T} {t : ℕ} {exist : Bool} {I : Set T} {node : Node T}
  {batch : List T}

/-- What an update behind a pointer of height at most `h` costs. -/
structure SlotCost (t h : ℕ) (old : Option (Node T)) (batch : List T)
    (new : Option (Node T) × Multiset Rebuild) : Prop where
  volume : volume new.2 + 5 * slotModifications new.1 ≤
    5 * slotModifications old + batch.length * (5 * h + t + 1)
  paid : ∀ r ∈ new.2, r.Paid

/-- What an update costs at a pointer, from what it costs at a node. -/
theorem slotCost_slotUpdated {c h : ℕ} {slot : Option (Node T)}
    (hnode : ∀ node, slot = some node → batch ≠ [] →
      SlotCost t h slot batch
        ((updated A c t exist node batch).slot, (updated A c t exist node batch).rebuilds)) :
    SlotCost t h slot batch (slotUpdated A c t exist slot batch) := by
  rcases eq_or_ne batch [] with rfl | hne
  · rw [slotUpdated_nil]
    exact ⟨by simp, fun r hr ↦ by simp at hr⟩
  rcases slot with - | node
  · rw [slotUpdated_none hne]
    refine ⟨?_, fun r hr ↦ by simp at hr⟩
    cases exist with
    | true => simp [slotModifications_buildTree]
    | false => exact (Nat.zero_le _)
  · rw [slotUpdated_some hne]
    exact hnode node rfl hne

/-- The costs at the children of a node add up. -/
theorem Node.volume_rebuildsBelow {c h : ℕ}
    (hparts : ∀ p ∈ node.parts batch, SlotCost t h p.1 p.2 (slotUpdated A c t exist p.1 p.2))
    (hsegments : ((node.parts batch).map fun p ↦ p.2.length).sum ≤ batch.length) :
    volume (node.rebuildsBelow A c t exist batch) +
        5 * ((node.inPlace A c t exist batch).children.map slotModifications).sum ≤
      5 * (node.children.map slotModifications).sum + batch.length * (5 * h + t + 1) := by
  have hsum := List.sum_le_sum fun p hp ↦ (hparts p hp).volume
  rw [List.sum_map_add, List.sum_map_add, List.sum_map_mul_left, List.sum_map_mul_left,
    List.sum_map_mul_right] at hsum
  rw [rebuildsBelow, volume_sum, List.map_map, ← map_fst_parts node batch, List.map_map]
  show _ + 5 * (((node.parts batch).map fun p ↦
    (slotUpdated A c t exist p.1 p.2).1).map slotModifications).sum ≤ _
  rw [List.map_map]
  exact hsum.trans (Nat.add_le_add_left (Nat.mul_le_mul_right _ hsegments) _)

theorem Node.mem_rebuildsBelow {c : ℕ} {r : Rebuild}
    (hr : r ∈ node.rebuildsBelow A c t exist batch) :
    ∃ p ∈ node.parts batch, r ∈ (slotUpdated A c t exist p.1 p.2).2 := by
  rw [rebuildsBelow] at hr
  generalize node.parts batch = parts at hr ⊢
  induction parts with
  | nil => simp at hr
  | cons p parts ih =>
    rw [List.map_cons, List.sum_cons, Multiset.mem_add] at hr
    rcases hr with hr | hr
    · exact ⟨p, List.mem_cons_self, hr⟩
    · obtain ⟨q, hq, hr⟩ := ih hr
      exact ⟨q, List.mem_cons_of_mem _ hq, hr⟩

/-- A node that is rebuilt has lost or gained few keys since it was built. -/
theorem Node.Policy.length_adjust_le (h : node.Inv t I) (hpolicy : node.Policy) :
    (adjust exist node.live batch).length ≤
      node.initialSize + node.modificationsCount + batch.length := by
  have hlen := @Pbist.length_adjust_le T _ exist node.live batch
  have := hpolicy.grown
  rw [Inv.length_live h] at hlen
  omega

/-- The share of a key for one more level. -/
theorem share_succ (n h t : ℕ) : n * (5 * (h + 1) + t + 1) = n * (5 * h + t + 1) + 5 * n := by
  rw [← Nat.mul_comm n 5, ← Nat.mul_add]
  congr 1
  omega

section Parts

variable {h : ℕ} (hinv : node.Inv t I) (hb : Admissible exist I node.live batch)
  (hparts : ∀ p ∈ node.parts batch, SlotCost t h p.1 p.2 (slotUpdated A 4 t exist p.1 p.2))

include hinv hb hparts

/-- What the updates of the children cost, if the update descends. -/
theorem Node.Inv.volume_rebuildsBelow (hexist : exist = true → node.children.length ≠ 0) :
    volume (node.rebuildsBelow A 4 t exist batch) +
        5 * ((node.inPlace A 4 t exist batch).children.map slotModifications).sum ≤
      5 * (node.children.map slotModifications).sum + batch.length * (5 * h + t + 1) := by
  have := hinv.here.sum_segments (hb.mem_keys_of_terminal hexist)
  exact Node.volume_rebuildsBelow hparts (by omega)

omit hinv hb in
theorem Node.paid_rebuildsBelow : ∀ r ∈ node.rebuildsBelow A 4 t exist batch, r.Paid := by
  intro r hr
  obtain ⟨p, hp, hr⟩ := mem_rebuildsBelow hr
  exact (hparts p hp).paid r hr

/-- What an update costs that rebuilds the node. Without the policy's limit on the modifications it
is an insertion into a terminal node, which the keys pay for directly. -/
theorem Node.Inv.slotCost_rebuilt (hpolicy : node.Policy) (hne : batch ≠ [])
    (hwhen : exist = true ∧ node.children.length = 0 ∨
      node.initialSize < 4 * (node.modificationsCount + batch.length)) :
    SlotCost t (h + 1) (some node) batch
      (buildTree A t (adjust exist node.live batch),
        node.rebuildFrom batch (adjust exist node.live batch) ::ₘ
          if exist then 0 else node.rebuildsBelow A 4 t exist batch) := by
  have hlen : 1 ≤ batch.length := List.length_pos_iff.2 hne
  have hvolume := @Policy.length_adjust_le T _ t exist I node batch hinv hpolicy
  constructor
  · show volume (_ ::ₘ _) + 5 * slotModifications (buildTree _ _ _) ≤ _
    rw [volume_cons, slotModifications_buildTree, slotModifications_some, share_succ]
    simp only [rebuildFrom]
    rcases hwhen with ⟨rfl, hterm⟩ | hwhen
    · have hsmall := hinv.here.terminal_iff.1 hterm
      have hmul : t + 1 ≤ batch.length * (5 * h + t + 1) :=
        (Nat.le_mul_of_pos_left _ hlen).trans (Nat.mul_le_mul_left _ (by omega))
      simp only [if_true, volume_zero]
      omega
    · cases exist with
      | true =>
        simp only [if_true, volume_zero]
        omega
      | false =>
        -- a removal descends before it rebuilds
        have := hinv.volume_rebuildsBelow hb hparts (by simp)
        simp only [Bool.false_eq_true, if_false]
        omega
  · intro r hr
    rcases Multiset.mem_cons.1 hr with rfl | hr
    · intro hterm
      simp only [rebuildFrom, decide_eq_false_iff_not] at hterm ⊢
      rcases hwhen with ⟨-, hterm'⟩ | hwhen
      · exact absurd hterm' hterm
      · omega
    · cases exist with
      | true => simp at hr
      | false => exact paid_rebuildsBelow hparts r hr

/-- What an update costs that leaves the node in place: its keys are counted at the node. -/
theorem Node.Inv.slotCost_inPlace (hexist : exist = true → node.children.length ≠ 0) :
    SlotCost t (h + 1) (some node) batch
      (some (node.inPlace A 4 t exist batch), node.rebuildsBelow A 4 t exist batch) where
  volume := by
    have hbelow := hinv.volume_rebuildsBelow hb hparts hexist
    have hmods : (node.inPlace A 4 t exist batch).modificationsCount =
      node.modificationsCount + batch.length := rfl
    show volume (node.rebuildsBelow A 4 t exist batch) + 5 * slotModifications (some _) ≤ _
    rw [slotModifications_some, slotModifications_some, share_succ, hmods]
    omega
  paid := paid_rebuildsBelow hparts

end Parts

/-- **What an update with the coefficient 4 costs.** -/
theorem Node.Inv.slotCost_updated (hA : A.Exact) (ht : 1 ≤ t) :
    ∀ {node : Node T} {I : Set T} {batch : List T} {h : ℕ}, node.Inv t I →
      node.Everywhere (fun _ node ↦ node.Policy) I → Admissible exist I node.live batch →
      batch ≠ [] → node.height ≤ h →
      SlotCost t h (some node) batch
        ((updated A 4 t exist node batch).slot, (updated A 4 t exist node batch).rebuilds) := by
  intro node
  induction node using Node.induction with
  | step node ih =>
    intro I batch h hinv hpolicy hb hne hheight
    obtain ⟨h, rfl⟩ : ∃ h', h = h' + 1 := by
      have := height_eq node
      exact ⟨h - 1, by omega⟩
    -- what the updates of the children cost, one level further down
    have hparts : ∀ p ∈ node.parts batch,
        SlotCost t h p.1 p.2 (slotUpdated A 4 t exist p.1 p.2) := by
      intro p hp
      obtain ⟨i, hslot, -, hadm⟩ := hinv.admissible_parts hb hp
      refine slotCost_slotUpdated fun child hchild hne' ↦ ?_
      rw [hchild] at hslot hadm ⊢
      have hmem := List.mem_of_getElem? hslot
      have := slotHeight_lt hmem
      rw [slotHeight_some] at this
      exact ih child hmem (hinv.child hslot) (hpolicy.child hslot) hadm hne' (by omega)
    rcases hinv.updated_cases (c := 4) hA ht hb with
      ⟨hwhen, heq, hrebuilds⟩ | ⟨-, hexist, heq, hrebuilds⟩
    · rw [heq, hrebuilds]
      exact hinv.slotCost_rebuilt hb hparts hpolicy.here hne hwhen
    · rw [heq, hrebuilds]
      exact hinv.slotCost_inPlace hb hparts hexist

/-- What an update with the coefficient 4 costs at a pointer. -/
theorem SlotInv.slotCost (hA : A.Exact) (ht : 1 ≤ t) {slot : Option (Node T)} {h : ℕ}
    (hinv : SlotInv t I slot) (hpolicy : SlotEverywhere (fun _ node ↦ node.Policy) I slot)
    (hb : Admissible exist I (slotLive slot) batch) (hheight : slotHeight slot ≤ h) :
    SlotCost t h slot batch (slotUpdated A 4 t exist slot batch) :=
  slotCost_slotUpdated fun node hnode hne ↦ by
    subst hnode
    exact Node.Inv.slotCost_updated hA ht (hinv node rfl) (hpolicy node rfl) hb hne hheight

end Pbist
