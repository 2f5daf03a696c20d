import Pbist.Memory.Reading
import Pbist.Source.MemoryBatch
import Pbist.Refinement.Contains

/-!
# Searching and routing in memory

`do_search` and the two loops that the batch operations have in common, as rules: what the body of a
loop does with the piece of one iteration gives what the loop does with all pieces. The first loops
have one iteration for each key of the batch, the second loops one for each child that gets keys.
-/

namespace Pbist

namespace Mem

open Checked Assertion Sorted Runs

open scoped Pointwise

variable {T : Type} [LinearOrder T] {s : Memory Part (Val T)} {node : Node T} {p t : ℕ}
  {I W : Set T} {A : Doubles T} {left right : ℕ} {arr batch : List T}

/-- **`do_search` returns the rank of the key**, with whichever index the node has. -/
theorem SharedHeader.doSearch (h : SharedHeader s p node) (hA : A.AdequateOn W)
    (hlocal : node.Local t I) (hI : I ⊆ W) (key : T) :
    Gives s 0 (doSearch A.toArith p key) (rank node.keys key, decide (key ∈ node.keys)) 0 := by
  refine h.bind fun hd hof ↦ ?_
  rw [hof.keys_eq]
  split
  · rw [binarySearch_eq hlocal.sorted hlocal.keys_ne_nil]
    exact Gives.ret
  · rename_i hne
    obtain ⟨hid, hentries⟩ := hof.id_entries.resolve_left fun hnil ↦ hne (by rw [hnil]; rfl)
    rw [hA.interpolationSearch_eq hlocal.sorted hlocal.keys_ne_nil
      (fun x hx ↦ hI (hlocal.keys_mem x hx)) hid hentries]
    exact Gives.ret

/-! ### The loops over the keys -/

omit [LinearOrder T] in
/-- The pieces of an array of raw cells, shifted to the positions of a part of the batch. -/
theorem entriesAt_range_eq {c : ℕ} {v : ℕ → Val T} :
    entriesAt c (Finset.range (right - left)) v =
      ∑ i ∈ Finset.Ico left right, pointsTo (c, .entry (i - left)) (v (i - left)) := by
  rw [entriesAt, Finset.sum_Ico_eq_sum_range]
  exact Finset.sum_congr rfl fun i _ ↦ by rw [Nat.add_sub_cancel_left]

/-- **The rule for the loops over the keys.** Besides what it does with its own piece, every
iteration writes one entry of the array of child indices. -/
theorem childIdxLoop_spec {keys : List T} (hle : left ≤ right) (hright : right ≤ arr.length)
    {body : ℕ → ℕ → Code T Unit} {P Q : ℕ → Assertion Part (Val T)}
    (hbody : ∀ (c i : ℕ) (hi : i < arr.length), left ≤ i → i < right →
      Gives s (pointsTo (c, .entry (i - left)) .raw + P i) (body c i) ()
        (pointsTo (c, .entry (i - left)) (.index (childOf keys arr[i])) + Q i)) :
    Gives s (∑ i ∈ Finset.Ico left right, P i) (childIdxLoop left right body)
      (routing keys (part arr left right)) (∑ i ∈ Finset.Ico left right, Q i) := by
  let entry : ℕ → Val T := fun j ↦ .index (((arr[left + j]?).map (childOf keys)).getD 0)
  rw [childIdxLoop, subtract_of_le hle, lift_ok, Prog.pure_bind]
  refine (newArray_spec _).seq _ (zero_add _).symm fun c ↦ ?_
  have hentry : ∀ i (hi : i < arr.length), left ≤ i →
      entry (i - left) = .index (childOf keys arr[i]) := by
    intro i hi hlo
    show Val.index (((arr[left + (i - left)]?).map (childOf keys)).getD 0) = _
    rw [Nat.add_sub_cancel' hlo, List.getElem?_eq_getElem hi]
    rfl
  have hloop := @Gives.parallel _ _ s (body c)
    (fun i ↦ pointsTo (c, .entry (i - left)) Val.raw + P i)
    (fun i ↦ pointsTo (c, .entry (i - left)) (entry (i - left)) + Q i) (right - left) left
    fun i hlo hhi ↦ by
      have hi : i < arr.length := by omega
      rw [hentry i hi hlo]
      exact hbody c i hi hlo (by omega)
  rw [Nat.add_sub_cancel' hle, Finset.sum_add_distrib, Finset.sum_add_distrib,
    ← entriesAt_range_eq (v := fun _ ↦ .raw), ← entriesAt_range_eq (v := entry)] at hloop
  have hlen : (routing keys (part arr left right)).length = right - left := by
    rw [routing, List.length_map, length_part hright]
  have htake : Gives s (entriesAt c (Finset.range (right - left)) entry)
      (takeArray Val.index? c (right - left)) (routing keys (part arr left right)) 0 :=
    takeArray_spec hlen fun j a ha ↦ by
      have hj := (List.getElem?_eq_some_iff.1 ha).1
      rw [routing, List.getElem?_map, getElem?_part (by omega)] at ha
      show some (((arr[left + j]?).map (childOf keys)).getD 0) = _
      rw [ha, Option.getD_some]
  have hframe := htake.frame (∑ i ∈ Finset.Ico left right, Q i)
  rw [zero_add] at hframe
  exact hloop.bind hframe

/-! ### The loops over the ranges -/

omit [LinearOrder T] in
/-- `get_range_borders`. -/
theorem SharedHeader.getRangeBorders (h : SharedHeader s p node) (hlocal : node.isStructureCorrect)
    {childIdx : List ℤ} (hne : childIdx ≠ []) :
    Gives s 0 (getRangeBorders p childIdx)
      ((runs (-1) childIdx).map Prod.fst, (runs (-1) childIdx).map Prod.snd) 0 := by
  refine h.bind fun hd hof ↦ ?_
  rw [Node.getRangeBorders_eq (hof.isStructureCorrect_iff.2 hlocal) hne]
  exact Gives.ret

/-- **The rule for the loops over the ranges.** Every child that gets keys has one iteration. -/
theorem SharedHeader.forEachRange (h : SharedHeader s p node) (hlocal : node.Local t I)
    (hinner : node.children.length = node.keys.length + 1) (hb : batch.SortedLT) (hne : batch ≠ [])
    {onRange : ℕ → ℕ → ℕ → Code T Unit} {P Q : ℕ → Assertion Part (Val T)} {D : Finset ℕ}
    (hD : touched node.keys batch ⊆ D)
    (hrest : ∀ i ∈ D, i ∉ touched node.keys batch → P i = Q i)
    (hstep : ∀ i b e : ℕ, i ∈ touched node.keys batch → b < e → e ≤ batch.length →
      (∀ m (hm : m < batch.length), childOf node.keys batch[m] = i ↔ b ≤ m ∧ m < e) →
      Gives s (P i) (onRange i b e) () (Q i)) :
    Gives s (∑ i ∈ D, P i) (forEachRange p (routing node.keys batch) onRange) ()
      (∑ i ∈ D, Q i) := by
  have hlen : (routing node.keys batch).length = batch.length := by rw [routing, List.length_map]
  have hnil : routing node.keys batch ≠ [] :=
    List.ne_nil_of_length_pos (by rw [hlen]; exact List.length_pos_iff.2 hne)
  refine (h.getRangeBorders hlocal.isStructureCorrect hnil).andThen ?_
  dsimp only
  rw [List.length_map]
  have hloop := @Gives.parallel_image _ _ s ℕ _
    (onRangeAt p (routing node.keys batch) onRange
      ((runs (-1) (routing node.keys batch)).map Prod.fst)
      ((runs (-1) (routing node.keys batch)).map Prod.snd)) P Q 0
    (runs (-1) (routing node.keys batch)).length D (runChild node.keys batch)
    (fun j hj k hk heq ↦ ?_) (fun j _ hj ↦ ?_) fun i hi hnot ↦ hrest i hi ?_
  · exact hloop
  · rw [Finset.coe_Ico, Set.mem_Ico, Nat.zero_add] at hj hk
    exact runChild_injOn hlocal.sorted hb hj.2 hk.2 heq
  · rw [Nat.zero_add] at hj
    obtain ⟨hget, htouched, hrange⟩ := runChild_spec hlocal.sorted hb hj
    have hrun := List.getElem_mem hj
    have hblock := (runs_block _ _ hrun).1
    have hle := runs_le_length hrun
    have hidx := Finset.mem_range.1 (Finset.mem_filter.1 htouched).1
    refine ⟨hD htouched, ?_⟩
    rw [onRangeAt, get_of_lt (by simpa using hj), lift_ok, Prog.pure_bind,
      get_of_lt (by simpa using hj), lift_ok, Prog.pure_bind]
    simp only [List.getElem_map]
    rw [assert_of ⟨Nat.zero_le _, hblock, hle⟩, Prog.pure_bind, get_of_getElem? hget, lift_ok,
      Prog.pure_bind]
    refine h.bind fun hd hof ↦ ?_
    rw [assert_of ⟨Int.natCast_nonneg _, by rw [Int.toNat_natCast, hof.childrenSize_eq]; omega⟩,
      Prog.pure_bind, Int.toNat_natCast]
    exact hstep _ _ _ htouched hblock (hlen ▸ hle) hrange
  · rwa [Nat.zero_add, image_runChild hlocal.sorted hb] at hnot

end Mem

end Pbist
