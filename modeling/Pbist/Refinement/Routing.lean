import Pbist.Functional.Update
import Pbist.Library.Runs
import Pbist.Library.ParallelFor

/-!
# Searching in a node and routing a batch

In a well-formed node `do_search` returns the rank of a key, whichever of the two searches it uses.
So the array of child indices that the first loops fill is `routing`: the rank for a key that is
not in the node, and -1 for a key that is. As ranks are monotone and a key of the node separates
what lies below it from what lies above it, the keys for one child form a single run of this array;
`forEachRange_eq` is the resulting rule for the second loops.

## The main results

* `Node.rangeBorders_exact` is about `get_range_borders` alone, for any array of child indices.
* `Node.Local.doSearch_eq` says what the search of a node returns; it hides which of the two
  searches was used.
* `parallelFor_routing` and `Node.Local.forEachRange_eq` are the rules for the first and the second
  loops of the batch operations. Lookups and updates instantiate them with what they do to a key and
  to a child, so that the bookkeeping of borders is done once.
-/

namespace Pbist

open Checked Sorted Runs

variable {T : Type} [LinearOrder T]

/-- The entry of `child_idx` for a key. -/
def childOf (keys : List T) (x : T) : ℤ :=
  if x ∈ keys then -1 else rank keys x

/-- The array `child_idx` for a batch. -/
def routing (keys batch : List T) : List ℤ :=
  batch.map (childOf keys)

theorem childOf_eq_iff {keys : List T} {x : T} {i : ℕ} :
    childOf keys x = i ↔ x ∉ keys ∧ rank keys x = i := by
  rw [childOf]
  split
  · rename_i hx
    refine iff_of_false (by omega) fun h ↦ h.1 hx
  · rename_i hx
    simp [hx]

theorem childOf_ne_iff {keys : List T} {x : T} : childOf keys x ≠ -1 ↔ x ∉ keys := by
  rw [childOf]
  split
  · rename_i hx
    simp [hx]
  · rename_i hx
    exact iff_of_true (by omega) hx

/-- **The rule for the loops over the keys.** `g D` describes what the loop does to the node or to
the result while the keys at the positions in `D` are done; besides, every iteration writes one
entry of the array of child indices. -/
theorem parallelFor_routing {S : Type} {keys arr : List T} {left right : ℕ}
    (hright : right ≤ arr.length) {σ : Schedule}
    {body : ℕ → S × Buffer ℤ → Checked (S × Buffer ℤ)} (g : Finset ℕ → S)
    (step : ∀ (D : Finset ℕ) (i : ℕ) (hi : i < arr.length) (cs : Buffer ℤ),
      D ⊆ Finset.Ico left right → left ≤ i → i < right → i ∉ D →
      body i (g D, cs) = (do
        let cs ← Buffer.write cs (i - left) (childOf keys arr[i])
        pure (g (insert i D), cs))) :
    ∃ cs, parallelFor σ left right body (g ∅, Buffer.raw (right - left)) =
        .ok (g (Finset.Ico left right), cs) ∧
      Buffer.freeze cs = .ok (routing keys (part arr left right)) := by
  let entry : ℕ → ℤ := fun j ↦ ((arr[left + j]?).map (childOf keys)).getD 0
  -- after the positions in `D`, exactly the entries at their offsets from `left` are written
  have hloop := @parallelFor_eq _ σ left right body
    (fun D ↦ (g D, Buffer.writeOn entry (D.image (· - left)) (Buffer.raw (right - left))))
    fun D i hD hlo hhi hnot ↦ by
      have hi : i < arr.length := by omega
      have hentry : entry (i - left) = childOf keys arr[i] := by
        show ((arr[left + (i - left)]?).map (childOf keys)).getD 0 = _
        rw [Nat.add_sub_cancel' hlo, List.getElem?_eq_getElem hi]
        rfl
      have hfresh : i - left ∉ D.image (· - left) := by
        intro hmem
        obtain ⟨j, hj, heq⟩ := Finset.mem_image.1 hmem
        have := (Finset.mem_Ico.1 (hD hj)).1
        exact hnot ((show j = i by omega) ▸ hj)
      rw [step D i hi _ hD hlo hhi hnot, Buffer.write_writeOn
        (by rw [Buffer.length_raw]; omega) hfresh hentry, ok_bind, Finset.image_insert, pure_eq_ok]
  simp only [Finset.image_empty, updateOn_empty] at hloop
  refine ⟨_, hloop, ?_⟩
  rw [Buffer.freeze_writeOn_raw fun j hj ↦ Finset.mem_image.2
    ⟨left + j, Finset.mem_Ico.2 ⟨by omega, by omega⟩, by omega⟩]
  refine congrArg Except.ok (List.ext_getElem? fun j ↦ ?_)
  rcases Nat.lt_or_ge j (right - left) with hj | hj
  · rw [List.getElem?_map, List.getElem?_range hj, routing, List.getElem?_map,
      getElem?_part (by omega), List.getElem?_eq_getElem (by omega), Option.map_some,
      Option.map_some]
    show some (((arr[left + j]?).map (childOf keys)).getD 0) = _
    rw [List.getElem?_eq_getElem (by omega)]
    rfl
  · rw [List.getElem?_eq_none (by simpa using hj),
      List.getElem?_eq_none (by rw [routing, List.length_map, length_part hright]; exact hj)]

/-- The keys for one child are not interrupted by other keys. -/
theorem grouped_routing {keys batch : List T} (h : keys.SortedLT) (hb : batch.SortedLT) :
    Grouped (-1) (routing keys batch) := by
  intro i j k c hij hjk hc hi hk
  rw [routing, List.getElem?_map, Option.map_eq_some_iff] at hi hk
  obtain ⟨x, hx, rfl⟩ := hi
  obtain ⟨z, hz, hzx⟩ := hk
  obtain ⟨hi', rfl⟩ := List.getElem?_eq_some_iff.1 hx
  obtain ⟨hk', rfl⟩ := List.getElem?_eq_some_iff.1 hz
  have hxkeys := childOf_ne_iff.1 hc
  have hzkeys := childOf_ne_iff.1 (hzx ▸ hc)
  have hrank : rank keys batch[i] = rank keys batch[k] := by
    have : childOf keys batch[i] = rank keys batch[i] := childOf_eq_iff.2 ⟨hxkeys, rfl⟩
    rw [← hzx] at this
    exact (childOf_eq_iff.1 this).2.symm
  have hj : j < batch.length := hjk.trans hk'
  have hxy : batch[i] ≤ batch[j] := hb.getElem_le_getElem_iff.2 hij.le
  have hyz : batch[j] ≤ batch[k] := hb.getElem_le_getElem_iff.2 hjk.le
  rw [routing, List.getElem?_map, List.getElem?_eq_getElem hj, Option.map_some,
    childOf_eq_iff.2 (routed_between h hxy hyz hzkeys hrank), childOf_eq_iff.2 ⟨hxkeys, rfl⟩]

/-! ### Borders of ranges -/

section Borders

variable {node : Node T} {childIdx : List ℤ}

omit [LinearOrder T] in
/-- **`get_range_borders` computes the borders of the runs.** -/
theorem Node.getRangeBorders_eq (h : node.isStructureCorrect) (hne : childIdx ≠ []) :
    node.getRangeBorders childIdx =
      .ok ((runs (-1) childIdx).map Prod.fst, (runs (-1) childIdx).map Prod.snd) := by
  have hlen : 0 < childIdx.length := List.length_pos_iff.2 hne
  rw [getRangeBorders, require_of h, ok_bind]
  dsimp only
  rw [filter_of_ok (q := beginsAt (-1) childIdx),
    filter_beginsAt, ok_bind, filter_of_ok (q := endsAt (-1) childIdx), filter_endsAt, ok_bind,
    require_of (by rw [List.length_map, List.length_map]), ok_bind, pure_eq_ok]
  · intro i hi
    have hi' := List.mem_range.1 hi
    rw [require_of ⟨Nat.zero_le _, by omega⟩, ok_bind]
    rcases i with - | i
    · rfl
    · rw [if_neg (Nat.succ_ne_zero i), endsAt, List.getElem?_eq_getElem (by omega)]
      simp only [subtract_of_le (show 1 ≤ i + 1 by omega), ok_bind, Nat.add_sub_cancel,
        get_of_lt (show i < childIdx.length by omega)]
      rcases Nat.lt_or_ge (i + 1) childIdx.length with hlt | hge
      · rw [if_pos ⟨Nat.succ_pos i, hlt⟩, get_of_lt hlt, ok_bind, List.getElem?_eq_getElem hlt]
        by_cases hblank : childIdx[i] = -1 <;> simp [hblank]
      · have heq : i + 1 = childIdx.length := by omega
        rw [if_neg (by omega), subtract_of_le hlen, ok_bind, List.getElem?_eq_none hge]
        simp only [← heq, Nat.add_sub_cancel, get_of_lt (show i < childIdx.length by omega)]
        simp
  · intro i hi
    have hi' := List.mem_range.1 hi
    rw [require_of ⟨Nat.zero_le _, by omega⟩, ok_bind, beginsAt]
    rcases Nat.lt_or_ge i childIdx.length with hlt | hge
    · rw [List.getElem?_eq_getElem hlt]
      rcases Nat.eq_zero_or_pos i with rfl | hpos
      · rw [if_pos rfl, get_of_lt hlt]
        simp
      · rw [if_neg (by omega), if_pos ⟨hpos, hlt⟩, get_of_lt hlt, ok_bind,
          subtract_of_le (show 1 ≤ i from hpos), ok_bind, ok_bind,
          get_of_lt (show i - 1 < childIdx.length by omega), ok_bind,
          List.getElem?_eq_getElem (show i - 1 < childIdx.length by omega)]
        by_cases hblank : childIdx[i] = -1
        · simp [hblank]
        · simp [hblank, Nat.pos_iff_ne_zero.1 hpos, eq_comm]
    · rw [if_neg (by omega), if_neg (by omega), List.getElem?_eq_none hge]
      rfl

omit [LinearOrder T] in
/-- **The ranges are the maximal blocks of equal child indices.** Whatever the array, sorted or not,
the begins and the ends that `get_range_borders` filters out belong together by their positions: the
`i`-th of each bound a block of equal entries other than -1 that is as long as possible, the blocks
do not overlap, and every position whose entry is not -1 lies in exactly one of them. -/
theorem Node.rangeBorders_exact (h : node.isStructureCorrect) (hne : childIdx ≠ []) :
    ∃ begins ends, node.getRangeBorders childIdx = .ok (begins, ends) ∧
      begins.length = ends.length ∧
      (∀ (i b e : ℕ), begins[i]? = some b → ends[i]? = some e →
        IsRun (-1) childIdx b e ∧ e ≤ childIdx.length ∧
          ∀ b', begins[i + 1]? = some b' → e ≤ b') ∧
      ∀ p : ℕ, (∃ idx ≠ -1, childIdx[p]? = some idx) ↔
        ∃! i : ℕ, ∃ b e, begins[i]? = some b ∧ ends[i]? = some e ∧ b ≤ p ∧ p < e := by
  have hborders : ∀ {i b e : ℕ}, ((runs (-1) childIdx).map Prod.fst)[i]? = some b →
      ((runs (-1) childIdx).map Prod.snd)[i]? = some e →
      ∃ hi : i < (runs (-1) childIdx).length, (runs (-1) childIdx)[i] = (b, e) := by
    intro i b e hb he
    rw [List.getElem?_map, Option.map_eq_some_iff] at hb he
    obtain ⟨r, hr, rfl⟩ := hb
    obtain ⟨s, hs, rfl⟩ := he
    obtain rfl := Option.some.inj (hr.symm.trans hs)
    obtain ⟨hi, rfl⟩ := List.getElem?_eq_some_iff.1 hr
    exact ⟨hi, rfl⟩
  refine ⟨_, _, getRangeBorders_eq h hne, by rw [List.length_map, List.length_map],
    fun i b e hb he ↦ ?_, fun p ↦ ⟨?_, ?_⟩⟩
  · obtain ⟨hi, hr⟩ := hborders hb he
    have hmem : (b, e) ∈ runs (-1) childIdx := hr ▸ List.getElem_mem hi
    refine ⟨isRun_of_mem hmem, runs_le_length hmem, fun b' hb' ↦ ?_⟩
    rw [List.getElem?_map, Option.map_eq_some_iff] at hb'
    obtain ⟨s, hs, rfl⟩ := hb'
    obtain ⟨hj, rfl⟩ := List.getElem?_eq_some_iff.1 hs
    have hle := List.pairwise_iff_getElem.1 (runs_pairwise childIdx) i (i + 1) hi hj
      (Nat.lt_succ_self i)
    rwa [hr] at hle
  · rintro ⟨idx, hidx, hp⟩
    obtain ⟨r, hr, hrp⟩ := runs_cover childIdx hp hidx
    obtain ⟨i, hi, rfl⟩ := List.getElem_of_mem hr
    refine ⟨i, ⟨_, _, ?_, ?_, hrp⟩, ?_⟩
    · rw [List.getElem?_map, List.getElem?_eq_getElem hi, Option.map_some]
    · rw [List.getElem?_map, List.getElem?_eq_getElem hi, Option.map_some]
    · rintro j ⟨b, e, hb, he, hpj⟩
      obtain ⟨hj, hrj⟩ := hborders hb he
      exact runs_unique hj hi (by rwa [hrj]) hrp
  · rintro ⟨i, ⟨b, e, hb, he, hp⟩, -⟩
    obtain ⟨hi, hr⟩ := hborders hb he
    obtain ⟨idx, hidx, hblock⟩ := (isRun_of_mem (hr ▸ List.getElem_mem hi)).block
    exact ⟨idx, hidx, hblock p hp.1 hp.2⟩

/-- An array that is not sorted, in which the blocks of one child index are separated. -/
theorem Node.rangeBorders_exact_unsorted :
    ∃ begins ends, (⟨[4], [true], [], [], 1, 1, 0⟩ : Node ℕ).getRangeBorders
        [2, 2, -1, 0, 2] = .ok (begins, ends) ∧ begins.length = ends.length := by
  obtain ⟨begins, ends, hrun, hlen, -⟩ := @rangeBorders_exact ℕ ⟨[4], [true], [], [], 1, 1, 0⟩
    [2, 2, -1, 0, 2] (by decide) (by decide)
  exact ⟨begins, ends, hrun, hlen⟩

end Borders

section Node

variable {A : Arith T} {t : ℕ} {I W : Set T} {node : Node T} {batch : List T}

/-! ### Searching in a node -/

/-- **`do_search` returns the rank of the key and whether it is there.** -/
theorem Node.Local.doSearch_eq (hA : A.ExactOn W) (hI : I ⊆ W) (h : node.Local t I) (key : T) :
    node.doSearch A key = .ok (rank node.keys key, decide (key ∈ node.keys)) := by
  have hmem : ∀ x ∈ node.keys, x ∈ W := fun x hx ↦ hI (h.keys_mem x hx)
  have hpos : 0 < node.keys.length := h.keys_pos
  have hsize : node.keys.length ≤ 2 ^ 63 := hA.length_le _ h.sorted hmem
  have hid := h.id_length
  rw [doSearch]
  split
  · exact binarySearch_eq h.sorted h.keys_ne_nil key
  · rename_i hne
    have hlen : node.id.length = node.keys.length := by
      split at hid
      · exact hid
      · exact absurd hid hne
    exact interpolationSearch_of_entries hA h.sorted hpos hmem (by omega) (by omega) h.id_entries

/-! ### The loops over the ranges -/

/-- The children that get keys of a batch. -/
def touched (keys batch : List T) : Finset ℕ :=
  (Finset.range (keys.length + 1)).filter fun i ↦ segment keys i batch ≠ []

theorem mem_touched {keys : List T} {i : ℕ} :
    i ∈ touched keys batch ↔ ∃ x ∈ batch, x ∉ keys ∧ rank keys x = i := by
  rw [touched, Finset.mem_filter, Finset.mem_range]
  constructor
  · rintro ⟨-, hne⟩
    obtain ⟨x, hx⟩ := List.exists_mem_of_ne_nil _ hne
    obtain ⟨hbatch, hkeys, hrank⟩ := mem_segment.1 hx
    exact ⟨x, hbatch, hkeys, hrank⟩
  · rintro ⟨x, hbatch, hkeys, rfl⟩
    refine ⟨Nat.lt_succ_of_le (rank_le_length _ _), fun hnil ↦ ?_⟩
    have := mem_segment.2 ⟨hbatch, hkeys, rfl⟩
    rw [hnil] at this
    simp at this

/-- A run of the routing array belongs to one child, and covers the keys for that child. -/
theorem run_child {keys : List T} (h : keys.SortedLT) (hb : batch.SortedLT) {r : ℕ × ℕ}
    (hr : r ∈ runs (-1) (routing keys batch)) :
    ∃ i ∈ touched keys batch, (routing keys batch)[r.1]? = some (i : ℤ) ∧
      ∀ m (hm : m < batch.length), childOf keys batch[m] = i ↔ r.1 ≤ m ∧ m < r.2 := by
  obtain ⟨c, hc, hne, -⟩ := runs_left hr
  have hr1 := hc
  rw [routing, List.getElem?_map, Option.map_eq_some_iff] at hc
  obtain ⟨x, hx, rfl⟩ := hc
  have hkeys := childOf_ne_iff.1 hne
  have hchild : childOf keys x = rank keys x := childOf_eq_iff.2 ⟨hkeys, rfl⟩
  refine ⟨rank keys x, mem_touched.2 ⟨x, List.mem_of_getElem? hx, hkeys, rfl⟩,
    by rw [hr1, hchild], fun m hm ↦ ?_⟩
  rw [← (grouped_routing h hb).mem_run_iff hr, hr1, hchild, routing, List.getElem?_map,
    List.getElem?_eq_getElem hm, Option.map_some, Option.some_inj]

/-- The range of the keys for a child is its segment. -/
theorem segment_eq_part {keys : List T} {i b e : ℕ} (hle : b ≤ e)
    (hrange : ∀ m (hm : m < batch.length), childOf keys batch[m] = i ↔ b ≤ m ∧ m < e) :
    segment keys i batch = part batch b e :=
  filter_eq_take_drop hle fun m hm ↦ by
    rw [← hrange m hm, childOf_eq_iff, decide_eq_true_eq]

/-- The child that run `j` of the routing array belongs to. -/
def runChild (keys batch : List T) (j : ℕ) : ℕ :=
  ((((runs (-1) (routing keys batch))[j]?).bind fun r ↦ (routing keys batch)[r.1]?).getD 0).toNat

section RunChild

variable {keys : List T} (h : keys.SortedLT) (hb : batch.SortedLT)

include h hb

theorem runChild_spec {j : ℕ} (hj : j < (runs (-1) (routing keys batch)).length) :
    (routing keys batch)[(runs (-1) (routing keys batch))[j].1]? =
        some (runChild keys batch j : ℤ) ∧
      runChild keys batch j ∈ touched keys batch ∧
      ∀ m (hm : m < batch.length), childOf keys batch[m] = runChild keys batch j ↔
        (runs (-1) (routing keys batch))[j].1 ≤ m ∧ m < (runs (-1) (routing keys batch))[j].2 := by
  obtain ⟨i, htouched, hi, hseg⟩ := run_child h hb (List.getElem_mem hj)
  have heq : runChild keys batch j = i := by
    rw [runChild, List.getElem?_eq_getElem hj, Option.bind_some, hi, Option.getD_some,
      Int.toNat_natCast]
  rw [heq]
  exact ⟨hi, htouched, hseg⟩

/-- Two runs never belong to the same child. -/
theorem runChild_injOn {j k : ℕ} (hj : j < (runs (-1) (routing keys batch)).length)
    (hk : k < (runs (-1) (routing keys batch)).length)
    (heq : runChild keys batch j = runChild keys batch k) : j = k := by
  by_contra hcon
  have hpair := List.pairwise_iff_getElem.1 (grouped_routing h hb).pairwise_ne
  have hjchild := (runChild_spec h hb hj).1
  have hkchild := (runChild_spec h hb hk).1
  rw [heq] at hjchild
  rcases Nat.lt_or_gt_of_ne hcon with hlt | hlt
  · exact hpair j k hj hk hlt (hjchild.trans hkchild.symm)
  · exact hpair k j hk hj hlt (hkchild.trans hjchild.symm)

/-- Every child that gets keys has a run. -/
theorem image_runChild :
    (Finset.Ico 0 (runs (-1) (routing keys batch)).length).image (runChild keys batch) =
      touched keys batch := by
  ext i
  rw [Finset.mem_image]
  constructor
  · rintro ⟨j, hj, rfl⟩
    exact (runChild_spec h hb (Finset.mem_Ico.1 hj).2).2.1
  · intro hi
    obtain ⟨x, hx, hkeys, rfl⟩ := mem_touched.1 hi
    obtain ⟨m, hm⟩ := List.getElem?_of_mem hx
    have hcm : (routing keys batch)[m]? = some (rank keys x : ℤ) := by
      rw [routing, List.getElem?_map, hm, Option.map_some, childOf_eq_iff.2 ⟨hkeys, rfl⟩]
    obtain ⟨r, hr, hrm⟩ := runs_cover _ hcm (show (rank keys x : ℤ) ≠ -1 by omega)
    obtain ⟨j, hj, rfl⟩ := List.getElem_of_mem hr
    refine ⟨j, Finset.mem_Ico.2 ⟨Nat.zero_le _, hj⟩, ?_⟩
    have := ((grouped_routing h hb).mem_run_iff hr).2 hrm
    rw [hcm, (runChild_spec h hb hj).1] at this
    exact_mod_cast (Option.some.inj this).symm

end RunChild

/-- **The rule for the loops over the ranges.** The state after the children in `D` got their
segments is described by `f D`; then the loop gives every child its segment. -/
theorem Node.Local.forEachRange_eq {S : Type} (h : node.Local t I)
    (hinner : node.children.length = node.keys.length + 1) (hb : batch.SortedLT) (hne : batch ≠ [])
    {σ : Schedule} (onRange : Schedule → ℕ → ℕ → ℕ → S → Checked S) (f : Finset ℕ → S)
    (step : ∀ (D : Finset ℕ) (σ : Schedule) (i b e : ℕ), i ∉ D → i ∈ touched node.keys batch →
      b < e → e ≤ batch.length →
      (∀ m (hm : m < batch.length), childOf node.keys batch[m] = i ↔ b ≤ m ∧ m < e) →
      onRange σ i b e (f D) = .ok (f (insert i D))) :
    node.forEachRange σ (routing node.keys batch) onRange (f ∅) =
      .ok (f (touched node.keys batch)) := by
  have hlen : (routing node.keys batch).length = batch.length := by rw [routing, List.length_map]
  have hnil : routing node.keys batch ≠ [] :=
    List.ne_nil_of_length_pos (by rw [hlen]; exact List.length_pos_iff.2 hne)
  rw [forEachRange, getRangeBorders_eq h.isStructureCorrect hnil, ok_bind]
  dsimp only
  rw [List.length_map, ← image_runChild h.sorted hb,
    ← Finset.image_empty (runChild node.keys batch)]
  -- the loop runs over the runs; two of them never meet at a child
  refine parallelFor_eq (fun D ↦ f (D.image (runChild node.keys batch))) fun D j hD _ hj hnot ↦ ?_
  obtain ⟨hget, htouched, hseg⟩ := runChild_spec h.sorted hb hj
  have hrun := List.getElem_mem hj
  have hblock := (runs_block _ _ hrun).1
  have hle := runs_le_length hrun
  have hidx := Finset.mem_range.1 (Finset.mem_filter.1 htouched).1
  have hfresh : runChild node.keys batch j ∉ D.image (runChild node.keys batch) := by
    rintro hmem
    obtain ⟨k, hk, heq⟩ := Finset.mem_image.1 hmem
    exact hnot (runChild_injOn h.sorted hb (Finset.mem_Ico.1 (hD hk)).2 hj heq ▸ hk)
  rw [get_of_lt (by simpa using hj), ok_bind, get_of_lt (by simpa using hj), ok_bind]
  simp only [List.getElem_map]
  rw [require_of ⟨Nat.zero_le _, hblock, hle⟩, ok_bind, get_of_getElem? hget, ok_bind,
    require_of ⟨Int.natCast_nonneg _, by rw [Int.toNat_natCast]; omega⟩, ok_bind,
    Int.toNat_natCast, step _ _ _ _ _ hfresh htouched hblock (hlen ▸ hle) hseg,
    Finset.image_insert]

end Node

end Pbist
