import Pbist.Functional.Build
import Pbist.Source.Build

/-!
# `build_from_keys` builds `buildTree`

The loop over the cells writes every representative and every child once, in whatever order it
runs, and the recursion ends because every cell is shorter than its range.
-/

namespace Pbist

open Checked Sorted

variable {T : Type} [LinearOrder T] {A : Arith T} {t : ℕ}

/-- `reduce` with `&&`. -/
theorem foldl_and_eq_true {l : List Bool} {b : Bool} :
    l.foldl (· && ·) b = true ↔ b = true ∧ ∀ a ∈ l, a = true := by
  induction l generalizing b with
  | nil => simp
  | cons a l ih => rw [List.foldl_cons, ih, Bool.and_eq_true, List.forall_mem_cons, and_assoc]

theorem foldl_and_true (l : List ℕ) : (l.map fun _ ↦ true).foldl (· && ·) true = true :=
  foldl_and_eq_true.2 ⟨rfl, by simp⟩

/-- **`is_sorted`** finds out whether an array is strictly increasing. -/
theorem isSorted_eq (arr : List T) : isSorted arr = .ok (decide arr.SortedLT) := by
  rw [isSorted]
  split
  · rename_i hnil
    rw [List.length_eq_zero_iff.1 hnil]
    rfl
  · rename_i hne
    have htable : tabulate (arr.length - 1) (fun i ↦ do
        pure (decide ((← get arr i) < (← get arr (i + 1))))) =
          .ok ((List.range (arr.length - 1)).map fun i ↦
            decide (∀ h : i + 1 < arr.length, arr[i] < arr[i + 1])) := by
      refine tabulate_of_ok fun i hi ↦ ?_
      have hlt : i + 1 < arr.length := by omega
      rw [get_of_lt (show i < arr.length by omega), ok_bind, get_of_lt hlt, ok_bind, pure_eq_ok]
      exact congrArg Except.ok (decide_eq_decide.2 ⟨fun h _ ↦ h, fun h ↦ h hlt⟩)
    rw [subtract_of_le (by omega), ok_bind, htable, ok_bind, pure_eq_ok]
    refine congrArg Except.ok (Bool.eq_iff_iff.2 ?_)
    rw [foldl_and_eq_true, decide_eq_true_iff, List.sortedLT_iff_isChain, List.isChain_iff_getElem]
    simp only [true_and, List.mem_map, List.mem_range, forall_exists_index, and_imp,
      forall_apply_eq_imp_iff₂, decide_eq_true_iff]
    exact ⟨fun h i hi ↦ h i (by omega) hi, fun h i _ ↦ h i⟩

theorem isSorted_of_sortedLT {arr : List T} (h : arr.SortedLT) : isSorted arr = .ok true := by
  rw [isSorted_eq, decide_eq_true h]

/-- The constructor makes a fresh node. -/
theorem Node.new_eq (hA : A.Exact) {keys : List T} (h : keys.SortedLT) (hlen : 0 < keys.length)
    {children : List (Option (Node T))}
    (hchildren : children.length = 0 ∨ children.length = keys.length + 1) (keysCount : ℕ) :
    Node.new A keys children keysCount = .ok (freshNode A keys children keysCount) := by
  rw [Node.new, freshNode]
  split
  · simp only [(buildId_eq hA h hlen _).1, require_of hlen, require_of hchildren, ok_bind,
      pure_eq_ok]
  · simp only [require_of hlen, require_of hchildren, ok_bind, pure_eq_ok]

section Cells

variable {keys : List T} {left right : ℕ}

omit [LinearOrder T] in
/-- The costs of all ranges of cells are defined. -/
theorem cellsCost_isOk {blockSize repSize leftIdx rightIdx : ℕ}
    (hle : left + repSize * (blockSize + 1) ≤ right) (hlt : leftIdx < rightIdx)
    (hright : rightIdx ≤ repSize + 1) :
    cellsCost blockSize repSize left right leftIdx rightIdx =
      .ok (if rightIdx < repSize + 1 then (blockSize + 1) * (rightIdx - leftIdx)
        else right - (left + leftIdx * (blockSize + 1))) := by
  rw [cellsCost, require_of ⟨Nat.zero_le _, hlt, hright⟩, ok_bind]
  split
  · rw [subtract_of_le hlt.le, ok_bind, pure_eq_ok]
  · have hmul : leftIdx * (blockSize + 1) ≤ repSize * (blockSize + 1) :=
      Nat.mul_le_mul_right _ (by omega)
    rw [require_of (show rightIdx = repSize + 1 by omega), ok_bind, subtract_of_le (by omega)]

omit [LinearOrder T] in
/-- The costs that the loop over the cells may ask for are all defined. -/
theorem cellsCosts_isOk {blockSize repSize : ℕ} (hle : left + repSize * (blockSize + 1) ≤ right) :
    ∃ costs, tabulate (repSize + 1) (fun leftIdx ↦ tabulate (repSize + 1 - leftIdx) fun width ↦
      cellsCost blockSize repSize left right leftIdx (leftIdx + width + 1)) = .ok costs :=
  ⟨_, tabulate_of_ok fun _ hleft ↦ tabulate_of_ok fun _ hwidth ↦
    cellsCost_isOk hle (by omega) (by omega)⟩

omit [LinearOrder T] in
/-- Cell `i` of a range is the part of the array that `do_build_single_cell` builds from. -/
theorem cell_part {b i : ℕ} (hi : left + i * (b + 1) ≤ right) :
    cell b i (part keys left right) =
      part keys (left + i * (b + 1)) (min (left + i * (b + 1) + b) right) := by
  rw [cell, part, part, List.drop_take, List.drop_drop, List.take_take]
  congr 1
  omega

omit [LinearOrder T] in
theorem getElem?_part_getD {i : ℕ} (x : T) (h : left + i < right) (hright : right ≤ keys.length) :
    (part keys left right)[i]? = some (keys[left + i]?.getD x) := by
  rw [getElem?_part h, List.getElem?_eq_getElem (by omega)]
  rfl

omit [LinearOrder T] in
/-- The keys of a range, as a terminal node copies them. -/
theorem tabulate_part (hright : right ≤ keys.length) :
    tabulate (right - left) (fun i ↦ get keys (i + left)) = .ok (part keys left right) := by
  rcases Nat.lt_or_ge left right with hlt | hge
  · have x : T := keys[left]
    rw [tabulate_of_ok (g := fun i ↦ (keys[left + i]?).getD x) fun i hi ↦ by
      rw [get_getD (by omega) x, Nat.add_comm]]
    refine congrArg Except.ok (List.ext_getElem? fun i ↦ ?_)
    rcases Nat.lt_or_ge i (right - left) with hi | hi
    · rw [getElem?_part_getD x (by omega) hright, List.getElem?_map, List.getElem?_range hi]
      rfl
    · rw [List.getElem?_eq_none (by simpa using hi),
        List.getElem?_eq_none (by rwa [length_part hright])]
  · rw [Nat.sub_eq_zero_of_le hge, part, Nat.sub_eq_zero_of_le hge, List.take_zero]
    rfl

omit [LinearOrder T] in
/-- The representatives of a range, as the loop writes them. -/
theorem cellReps_part {b r : ℕ} (x : T) (h : left + r * (b + 1) ≤ right)
    (hright : right ≤ keys.length) :
    cellReps b r (part keys left right) =
      (List.range r).map fun i ↦ (keys[left + (i * (b + 1) + b)]?).getD x := by
  have hlen : r * (b + 1) ≤ (part keys left right).length := by
    rw [length_part hright]
    omega
  apply List.ext_getElem?
  intro i
  rcases Nat.lt_or_ge i r with hi | hi
  · have hmul : (i + 1) * (b + 1) ≤ r * (b + 1) := Nat.mul_le_mul_right _ hi
    rw [Nat.succ_mul] at hmul
    rw [getElem?_cellReps hlen i hi, getElem?_part_getD x (by omega) hright, List.getElem?_map,
      List.getElem?_range hi]
    rfl
  · rw [List.getElem?_eq_none (by rwa [length_cellReps hlen]),
      List.getElem?_eq_none (by simpa using hi)]

/-- The arrays of representatives and of children when the cells in `D` are built: `x` stands for
what lies outside `keys`. -/
def cellsOn (A : Arith T) (t : ℕ) (keys : List T) (left right b r : ℕ) (x : T) (D : Finset ℕ) :
    Buffer T × Buffer (Option (Node T)) :=
  (Buffer.writeOn (fun i ↦ (keys[left + (i * (b + 1) + b)]?).getD x) (D.filter (· < r))
      (Buffer.raw r),
    Buffer.writeOn (fun i ↦ buildTree A t (cell b i (part keys left right))) D
      (Buffer.raw (r + 1)))

omit [LinearOrder T] in
/-- One more cell. -/
theorem doBuildSingleCell_eq {b r i : ℕ} {build : ℕ → ℕ → Checked (Option (Node T))} (x : T)
    {D : Finset ℕ} (h : left + r * (b + 1) ≤ right) (hlast : right ≤ left + r * (b + 1) + b)
    (hright : right ≤ keys.length) (hi : i < r + 1) (hD : i ∉ D)
    (hbuild : build (left + i * (b + 1)) (min (left + i * (b + 1) + b) right) =
      .ok (buildTree A t (cell b i (part keys left right)))) :
    doBuildSingleCell keys build b r left right i (cellsOn A t keys left right b r x D) =
      .ok (cellsOn A t keys left right b r x (insert i D)) := by
  have hmul : i * (b + 1) ≤ r * (b + 1) := Nat.mul_le_mul_right _ (by omega)
  have hchild := Buffer.construct_writeOn_raw
    (v := fun i ↦ buildTree A t (cell b i (part keys left right))) hi hD rfl
  rw [doBuildSingleCell, cellsOn, cellsOn]
  split
  · rename_i hir
    have hmul : (i + 1) * (b + 1) ≤ r * (b + 1) := Nat.mul_le_mul_right _ hir
    rw [Nat.succ_mul] at hmul
    rw [min_eq_left (by omega)] at hbuild
    have hget : get keys (left + i * (b + 1) + b) =
        .ok ((keys[left + (i * (b + 1) + b)]?).getD x) := by
      rw [get_getD (by omega) x, Nat.add_assoc]
    have hrep := Buffer.construct_writeOn_raw (D := D.filter (· < r))
      (v := fun i ↦ (keys[left + (i * (b + 1) + b)]?).getD x) hir
      (fun hmem ↦ hD (Finset.mem_filter.1 hmem).1) rfl
    simp only [hget, ok_bind, hrep, hbuild, hchild, pure_eq_ok]
    rw [Finset.filter_insert, if_pos hir]
  · -- the last cell, which has no representative behind it
    rename_i hir
    obtain rfl : i = r := by omega
    rw [min_eq_right (by omega)] at hbuild
    simp only [require_of, ok_bind, hbuild, hchild, pure_eq_ok]
    rw [Finset.filter_insert, if_neg hir]

omit [LinearOrder T] in
/-- The loop over the cells fills the arrays of representatives and of children. -/
theorem buildCells_eq {σ : Schedule} {b r : ℕ}
    {build : ℕ → ℕ → ℕ → Checked (Option (Node T))} (x : T) (h : left + r * (b + 1) ≤ right)
    (hlast : right ≤ left + r * (b + 1) + b) (hright : right ≤ keys.length)
    (hbuild : ∀ i ≤ r, build i (left + i * (b + 1)) (min (left + i * (b + 1) + b) right) =
      .ok (buildTree A t (cell b i (part keys left right)))) :
    buildCells keys build σ b r left right =
      .ok (Buffer.writeOn (fun i ↦ (keys[left + (i * (b + 1) + b)]?).getD x) (Finset.range r)
          (Buffer.raw r),
        Buffer.writeOn (fun i ↦ buildTree A t (cell b i (part keys left right)))
          (Finset.Ico 0 (r + 1)) (Buffer.raw (r + 1))) := by
  have hloop := @parallelFor_eq _ σ 0 (r + 1)
    (fun i cells ↦ doBuildSingleCell keys (build i) b r left right i cells)
    (cellsOn A t keys left right b r x)
    fun D i _ _ hi hD ↦ doBuildSingleCell_eq x h hlast hright hi hD (hbuild i (by omega))
  simp only [cellsOn, Finset.filter_empty, updateOn_empty] at hloop
  obtain ⟨costs, hcosts⟩ := cellsCosts_isOk h
  rw [buildCells, hcosts, ok_bind, hloop]
  congr 3
  ext i
  simp only [Finset.mem_filter, Finset.mem_Ico, Finset.mem_range]
  omega

end Cells

/-- The body of `do_build_from_keys` builds `buildTree` of the range, if its recursive calls do so
for the shorter ranges in it. -/
theorem buildRange_eq (hA : A.Exact) {keys : List T} (ht : 1 ≤ t)
    {build : ℕ → ℕ → ℕ → Checked (Option (Node T))} {σ : Schedule} {left right : ℕ}
    (hle : left ≤ right) (hright : right ≤ keys.length) (hsorted : (part keys left right).SortedLT)
    (hbuild : ∀ i lo hi, left ≤ lo → lo ≤ hi → hi ≤ right → hi - lo < right - left →
      build i lo hi = .ok (buildTree A t (part keys lo hi))) :
    buildRange A keys t build σ left right = .ok (buildTree A t (part keys left right)) := by
  have hlen : (part keys left right).length = right - left := length_part hright
  rw [buildRange, require_of hle, ok_bind]
  split
  · rename_i heq
    rw [List.length_eq_zero_iff.1 (hlen.trans (by omega)), buildTree_nil]
    rfl
  rename_i hne
  rw [subtract_of_le hle, ok_bind]
  have hnil : part keys left right ≠ [] := List.ne_nil_of_length_pos (by omega)
  split
  · rename_i hsmall
    rw [tabulate_part hright, ok_bind, Node.new_eq hA hsorted (by omega) (.inl rfl), ok_bind,
      buildTree_terminal hnil (.inl (by omega)), hlen, pure_eq_ok]
  · rename_i hbig
    have hle' := repCount_mul_le (right - left)
    have hlt' := lt_repCount_mul (right - left)
    rw [Nat.succ_mul] at hlt'
    -- as the range has two keys at least, every cell is shorter
    have hsqrt : Nat.sqrt (right - left) < right - left := Nat.sqrt_lt_self (by omega)
    obtain ⟨x, -⟩ := List.exists_mem_of_ne_nil _ hnil
    have hloop := @buildCells_eq T A t keys left right σ (Nat.sqrt (right - left))
      (repCount (right - left)) build x (by omega) (by omega) hright fun i hi ↦ by
        have hmul : i * (Nat.sqrt (right - left) + 1) ≤
          repCount (right - left) * (Nat.sqrt (right - left) + 1) := Nat.mul_le_mul_right _ hi
        have hcell := @cell_part _ keys left right (Nat.sqrt (right - left)) i
          (show left + _ ≤ right by omega)
        rw [hcell]
        exact hbuild i _ _ (by omega) (by omega) (by omega) (by omega)
    -- all cells of both arrays were written, so they can be read now
    have hreps := cellReps_part (b := Nat.sqrt (right - left)) (r := repCount (right - left)) x
      (show left + _ ≤ right by omega) hright
    have hcount : 0 < repCount (right - left) := repCount_pos (by omega)
    have hrepsLen : (cellReps (Nat.sqrt (right - left)) (repCount (right - left))
        (part keys left right)).length = repCount (right - left) :=
      length_cellReps (hle'.trans_eq hlen.symm)
    dsimp only
    rw [hloop, ok_bind]
    dsimp only
    rw [Buffer.freeze_writeOn_raw fun i hi ↦ Finset.mem_range.2 hi, ok_bind,
      Buffer.freeze_writeOn_raw fun i hi ↦ Finset.mem_Ico.2 ⟨Nat.zero_le _, hi⟩, ok_bind, ← hreps,
      Node.new_eq hA (sortedLT_cellReps hsorted (by omega)) (by omega)
        (.inr (by simp [hrepsLen])), ok_bind, buildTree_inner (by omega), hlen, pure_eq_ok]

/-- **`do_build_from_keys` builds `buildTree`** of the range, in every order of its loops. Every
recursive call gets a shorter range, which the fuel pays for. -/
theorem doBuildFromKeys_eq (hA : A.Exact) {keys : List T} (ht : 1 ≤ t) {fuel : ℕ} {σ : Schedule}
    {left right : ℕ} (hle : left ≤ right) (hright : right ≤ keys.length)
    (hsorted : (part keys left right).SortedLT) (hfuel : right - left < fuel) :
    doBuildFromKeys A keys t fuel σ left right = .ok (buildTree A t (part keys left right)) := by
  induction fuel generalizing σ left right with
  | zero => omega
  | succ fuel ih =>
    refine buildRange_eq hA ht hle hright hsorted fun i lo hi hlo hlohi hhi hshorter ↦
      ih hlohi (hhi.trans hright) ?_ (by omega)
    have hsub : part keys lo hi = part (part keys left right) (lo - left) (hi - left) := by
      rw [part_part keys (by omega), Nat.add_sub_cancel' hlo, Nat.add_sub_cancel' (hlo.trans hlohi)]
    rw [hsub]
    exact (hsorted.pairwise.sublist (part_sublist _ _ _)).sortedLT

/-- **`build_from_keys` builds `buildTree`.** -/
theorem buildFromKeys_eq (hA : A.Exact) {keys : List T} (h : keys.SortedLT) (ht : 1 ≤ t)
    (σ : Schedule) : buildFromKeys A keys σ t = .ok (buildTree A t keys) := by
  rw [buildFromKeys, isSorted_of_sortedLT h, ok_bind, require_of rfl, ok_bind,
    doBuildFromKeys_eq hA ht (Nat.zero_le _) le_rfl (by rwa [part_self]) (by omega), part_self]

end Pbist
