import Mathlib.Data.List.Sort
import Mathlib.Data.Set.Basic
import Mathlib.Algebra.BigOperators.Group.List.Basic
import Mathlib.Algebra.Ring.Nat
import Mathlib.Algebra.Order.BigOperators.Group.List

/-!
# Strictly increasing lists

A strictly increasing list `l` cuts its order into the entries of `l` and the gaps between them.
The `rank` of `x` is the number of entries below `x`: the index of `x` when `x` is an entry, and
otherwise the number of the gap that `x` lies in (`mem_gap_iff`).

A strictly increasing batch is routed to the gaps. `segment l i batch` is the part of the batch that
lies in gap `i`; it is a contiguous part of the batch (`routed_between`, `filter_eq_take_drop`), and
together with the entries of `l` the segments make up the whole batch (`sum_length_segment`).

## What is proved of them

* `lt_rank_iff` and `rank_le_iff` turn comparisons of keys into comparisons of indices; they are
  what the proofs about searching use.
* `mem_gap_iff` and `mem_segment_iff` are the same for gaps, and are what the proofs about routing
  use. `mem_gap_iff_neighbours` says it by the two keys next to the gap.
* `adjust` adds a batch to a list or takes it away, and `length_adjust` counts; this is what an
  update does to the stored keys of a subtree.
* `sortedLT_flatten` puts increasing blocks together, if each lies before the next.
-/

namespace Sorted

open List

variable {T : Type*} [LinearOrder T] {l : List T}

/-- Whether a key is in a list is decided with the order. -/
instance decidableMem (x : T) (l : List T) : Decidable (x ∈ l) :=
  inferInstance

/-! ### Rank -/

/-- The number of entries below `x`. -/
def rank (l : List T) (x : T) : ℕ :=
  l.countP (· < x)

theorem rank_le_length (l : List T) (x : T) : rank l x ≤ l.length :=
  countP_le_length

theorem rank_mono (l : List T) {x y : T} (h : x ≤ y) : rank l x ≤ rank l y :=
  countP_mono_left fun a _ ha ↦ by
    simp only [decide_eq_true_eq] at ha ⊢
    exact ha.trans_le h

/-- The entries below `x` are the ones at the indices below its rank. -/
theorem lt_rank_iff (h : l.SortedLT) {x : T} {i : ℕ} (hi : i < l.length) :
    i < rank l x ↔ l[i] < x := by
  induction l generalizing i with
  | nil => simp at hi
  | cons a l ih =>
    obtain ⟨ha, hl⟩ := pairwise_cons.1 h.pairwise
    rcases lt_or_ge a x with hax | hax
    · rw [rank, countP_cons_of_pos (by simpa using hax)]
      cases i with
      | zero => simp [hax]
      | succ i =>
        rw [Nat.add_lt_add_iff_right, getElem_cons_succ]
        exact ih hl.sortedLT (by simpa using hi)
    · -- all entries are at least `a`, so none is below `x`
      have hge : ∀ b ∈ a :: l, ¬ b < x := by
        intro b hb
        rcases mem_cons.1 hb with rfl | hb
        · exact not_lt.2 hax
        · exact not_lt.2 (hax.trans (ha b hb).le)
      have hrank : rank (a :: l) x = 0 :=
        countP_eq_zero.2 fun b hb ↦ by simpa using hge b hb
      rw [hrank]
      simpa using hge _ (getElem_mem hi)

theorem rank_le_iff (h : l.SortedLT) {x : T} {i : ℕ} (hi : i < l.length) :
    rank l x ≤ i ↔ x ≤ l[i] := by
  rw [← not_lt, lt_rank_iff h hi, not_lt]

/-- The rank is the only index that splits the list at `x`. -/
theorem rank_eq_of_split (h : l.SortedLT) {x : T} {i : ℕ} (hi : i ≤ l.length)
    (hlt : ∀ j (hj : j < l.length), j < i → l[j] < x)
    (hge : ∀ j (hj : j < l.length), i ≤ j → x ≤ l[j]) : rank l x = i := by
  apply le_antisymm
  · rcases hi.eq_or_lt with rfl | hi
    · exact rank_le_length l x
    · exact (rank_le_iff h hi).2 (hge i hi le_rfl)
  · by_contra hcon
    have hr : rank l x < l.length := by omega
    have := (lt_rank_iff h hr).2 (hlt _ hr (by omega))
    omega

theorem getElem_lt_of_lt_rank (h : l.SortedLT) {x : T} {i : ℕ} (hi : i < rank l x)
    (hlt : i < l.length) : l[i] < x :=
  (lt_rank_iff h hlt).1 hi

theorem rank_getElem (h : l.SortedLT) {i : ℕ} (hi : i < l.length) : rank l l[i] = i :=
  rank_eq_of_split h hi.le
    (fun _ _ hlt ↦ h.getElem_lt_getElem_iff.2 hlt) fun _ _ hle ↦ h.getElem_le_getElem_iff.2 hle

/-- An entry sits at its rank. -/
theorem getElem?_rank (h : l.SortedLT) {x : T} (hx : x ∈ l) : l[rank l x]? = some x := by
  obtain ⟨i, hi, rfl⟩ := getElem_of_mem hx
  rw [rank_getElem h hi, getElem?_eq_getElem hi]

theorem rank_lt_length (h : l.SortedLT) {x : T} (hx : x ∈ l) : rank l x < l.length :=
  (List.getElem?_eq_some_iff.1 (getElem?_rank h hx)).1

theorem rank_inj (h : l.SortedLT) {x y : T} (hx : x ∈ l) (hy : y ∈ l)
    (heq : rank l x = rank l y) : x = y := by
  have := getElem?_rank h hx
  rw [heq, getElem?_rank h hy] at this
  exact (Option.some.inj this).symm

/-- A value is an entry exactly when it sits at its rank. -/
theorem mem_iff_getElem?_rank (h : l.SortedLT) {x : T} : x ∈ l ↔ l[rank l x]? = some x :=
  ⟨getElem?_rank h, mem_of_getElem?⟩

/-! ### Gaps -/

/-- The gap in front of entry `i`: above the first `i` entries and below all others. -/
def gap (l : List T) (i : ℕ) : Set T :=
  {x | (∀ k ∈ l.take i, k < x) ∧ ∀ k ∈ l.drop i, x < k}

theorem mem_gap_iff (h : l.SortedLT) {x : T} {i : ℕ} (hi : i ≤ l.length) :
    x ∈ gap l i ↔ x ∉ l ∧ rank l x = i := by
  constructor
  · rintro ⟨hlt, hgt⟩
    refine ⟨fun hx ↦ ?_, rank_eq_of_split h hi (fun j hj hji ↦ ?_) fun j hj hij ↦ ?_⟩
    · rw [← take_append_drop i l, mem_append] at hx
      exact hx.elim (fun hx ↦ lt_irrefl _ (hlt x hx)) fun hx ↦ lt_irrefl _ (hgt x hx)
    · exact hlt _ (mem_take_iff_getElem.2 ⟨j, by omega, rfl⟩)
    · exact (hgt _ (mem_drop_iff_getElem.2 ⟨j - i, by omega, by
        simp only [Nat.add_sub_cancel' hij]⟩)).le
  · rintro ⟨hx, rfl⟩
    refine ⟨fun k hk ↦ ?_, fun k hk ↦ ?_⟩
    · obtain ⟨j, hj, rfl⟩ := mem_take_iff_getElem.1 hk
      exact getElem_lt_of_lt_rank h (show j < rank l x by omega) (by omega)
    · obtain ⟨j, hj, rfl⟩ := mem_drop_iff_getElem.1 hk
      have hle : rank l x ≤ rank l x + j := Nat.le_add_right _ _
      refine lt_of_le_of_ne ((rank_le_iff h (by omega)).1 hle) fun heq ↦ hx ?_
      rw [heq]
      exact getElem_mem _

/-- A gap lies strictly between its neighbouring entries. -/
theorem mem_gap_iff_neighbours (h : l.SortedLT) {x : T} {i : ℕ} (hi : i ≤ l.length) :
    x ∈ gap l i ↔ (∀ k, 0 < i → l[i - 1]? = some k → k < x) ∧ ∀ k, l[i]? = some k → x < k := by
  constructor
  · rintro ⟨hlt, hgt⟩
    refine ⟨fun k hpos hk ↦ hlt k ?_, fun k hk ↦ hgt k ?_⟩
    · obtain ⟨hlen, rfl⟩ := List.getElem?_eq_some_iff.1 hk
      exact mem_take_iff_getElem.2 ⟨i - 1, by omega, rfl⟩
    · obtain ⟨hlen, rfl⟩ := List.getElem?_eq_some_iff.1 hk
      exact mem_drop_iff_getElem.2 ⟨0, by omega, rfl⟩
  · rintro ⟨hlt, hgt⟩
    refine ⟨fun k hk ↦ ?_, fun k hk ↦ ?_⟩
    · obtain ⟨j, hj, rfl⟩ := mem_take_iff_getElem.1 hk
      have hlast : i - 1 < l.length := by omega
      calc l[j] ≤ l[i - 1] := h.getElem_le_getElem_iff.2 (by omega)
        _ < x := hlt _ (by omega) (getElem?_eq_getElem hlast)
    · obtain ⟨j, hj, rfl⟩ := mem_drop_iff_getElem.1 hk
      have hfirst : i < l.length := by omega
      calc x < l[i] := hgt _ (getElem?_eq_getElem hfirst)
        _ ≤ l[i + j] := h.getElem_le_getElem_iff.2 (by omega)

/-- Different gaps are disjoint. -/
theorem gap_injective (h : l.SortedLT) {x : T} {i j : ℕ} (hi : i ≤ l.length) (hj : j ≤ l.length)
    (hxi : x ∈ gap l i) (hxj : x ∈ gap l j) : i = j :=
  ((mem_gap_iff h hi).1 hxi).2.symm.trans ((mem_gap_iff h hj).1 hxj).2

/-- The place of `x` among the gaps and the entries: gap `i` has place `2 * i`, entry `i` has place
`2 * i + 1`. -/
def place (l : List T) (x : T) : ℕ :=
  if x ∈ l then 2 * rank l x + 1 else 2 * rank l x

theorem place_getElem (h : l.SortedLT) {i : ℕ} (hi : i < l.length) : place l l[i] = 2 * i + 1 := by
  rw [place, if_pos (getElem_mem hi), rank_getElem h hi]

theorem place_of_mem_gap (h : l.SortedLT) {x : T} {i : ℕ} (hi : i ≤ l.length) (hx : x ∈ gap l i) :
    place l x = 2 * i := by
  obtain ⟨hmem, hrank⟩ := (mem_gap_iff h hi).1 hx
  rw [place, if_neg hmem, hrank]

/-- Places are ordered as the values are. -/
theorem lt_of_place_lt (h : l.SortedLT) {x y : T} (hlt : place l x < place l y) : x < y := by
  by_contra hcon
  have hyx : y ≤ x := not_lt.1 hcon
  have hrank := rank_mono l hyx
  rw [place, place] at hlt
  split_ifs at hlt with hx hy hy <;> try omega
  -- an entry `y` below `x` raises the rank of `x`
  have hne : y ≠ x := fun heq ↦ hx (heq ▸ hy)
  obtain ⟨hlen, hval⟩ := List.getElem?_eq_some_iff.1 (getElem?_rank h hy)
  have : rank l y < rank l x := (lt_rank_iff h hlen).2 (by
    rw [hval]
    exact lt_of_le_of_ne hyx hne)
  omega

/-! ### Segments of a batch -/

/-- The part of `batch` that lies in gap `i`. -/
def segment (l : List T) (i : ℕ) (batch : List T) : List T :=
  batch.filter fun x ↦ x ∉ l ∧ rank l x = i

theorem segment_sublist (l : List T) (i : ℕ) (batch : List T) : segment l i batch <+ batch :=
  filter_sublist

theorem mem_segment {i : ℕ} {batch : List T} {x : T} :
    x ∈ segment l i batch ↔ x ∈ batch ∧ x ∉ l ∧ rank l x = i := by
  simp [segment]

theorem mem_segment_iff (h : l.SortedLT) {i : ℕ} (hi : i ≤ l.length) {batch : List T} {x : T} :
    x ∈ segment l i batch ↔ x ∈ batch ∧ x ∈ gap l i := by
  rw [mem_segment, mem_gap_iff h hi]

theorem sortedLT_segment {i : ℕ} {batch : List T} (h : batch.SortedLT) :
    (segment l i batch).SortedLT :=
  (h.pairwise.sublist (segment_sublist l i batch)).sortedLT

theorem sum_range_indicator (r n : ℕ) :
    ((range n).map fun i ↦ if r = i then 1 else 0).sum = if r < n then 1 else 0 := by
  induction n with
  | zero => simp
  | succ n ih =>
    rw [range_succ, map_append, sum_append, ih]
    simp only [map_cons, map_nil, sum_cons, sum_nil]
    split_ifs <;> omega

/-- Every value of a batch is an entry or lies in exactly one segment. -/
theorem sum_length_segment (l : List T) (batch : List T) :
    ((range (l.length + 1)).map fun i ↦ (segment l i batch).length).sum +
      (batch.filter (· ∈ l)).length = batch.length := by
  induction batch with
  | nil => simp [segment]
  | cons x batch ih =>
    by_cases hx : x ∈ l
    · have hseg : ∀ i, segment l i (x :: batch) = segment l i batch := fun i ↦ by simp [segment, hx]
      simp only [hseg, filter_cons, hx, decide_true, if_true, length_cons]
      omega
    · -- `x` adds one to the segment of its rank
      have hseg : ∀ i, (segment l i (x :: batch)).length =
          (segment l i batch).length + if rank l x = i then 1 else 0 := by
        intro i
        by_cases hi : rank l x = i <;> simp [segment, hx, hi]
      have hone : ((range (l.length + 1)).map fun i ↦ if rank l x = i then 1 else 0).sum = 1 := by
        rw [sum_range_indicator, if_pos (Nat.lt_succ_of_le (rank_le_length l x))]
      simp only [hseg, sum_map_add, hone, filter_cons, hx, decide_false, length_cons]
      simp only [Bool.false_eq_true, if_false]
      omega

/-- Between two values of a batch that lie in the same gap, all values lie in that gap. -/
theorem routed_between (h : l.SortedLT) {x y z : T} (hxy : x ≤ y) (hyz : y ≤ z) (hz : z ∉ l)
    (heq : rank l x = rank l z) : y ∉ l ∧ rank l y = rank l x := by
  have hrank : rank l y = rank l x :=
    le_antisymm ((rank_mono l hyz).trans heq.ge) (rank_mono l hxy)
  refine ⟨fun hy ↦ ?_, hrank⟩
  -- an entry between two values separates them
  have hlt : y < z := lt_of_le_of_ne hyz fun hcon ↦ hz (hcon ▸ hy)
  have hlen := rank_lt_length h hy
  have hval : l[rank l y] = y := (List.getElem?_eq_some_iff.1 (getElem?_rank h hy)).2
  have : rank l y < rank l z := (lt_rank_iff h hlen).2 (by rwa [hval])
  omega

/-- A filter that keeps exactly the indices of an interval is that part of the list. -/
theorem filter_eq_take_drop {α : Type*} {p : α → Bool} {l : List α} {lo hi : ℕ} (hlo : lo ≤ hi)
    (hp : ∀ i (h : i < l.length), p l[i] = true ↔ lo ≤ i ∧ i < hi) :
    l.filter p = (l.drop lo).take (hi - lo) := by
  have hsplit : l = l.take lo ++ ((l.drop lo).take (hi - lo) ++ l.drop hi) := by
    have : l.drop hi = (l.drop lo).drop (hi - lo) := by
      rw [drop_drop, Nat.add_sub_cancel' hlo]
    rw [this, take_append_drop, take_append_drop]
  have hfront : (l.take lo).filter p = [] := filter_eq_nil_iff.2 fun a ha ↦ by
    obtain ⟨i, hi', rfl⟩ := mem_take_iff_getElem.1 ha
    rw [hp i (by omega)]
    omega
  have hmid : ((l.drop lo).take (hi - lo)).filter p = (l.drop lo).take (hi - lo) :=
    filter_eq_self.2 fun a ha ↦ by
      obtain ⟨i, hi', rfl⟩ := mem_take_iff_getElem.1 ha
      rw [length_drop] at hi'
      rw [getElem_drop, hp _ (by omega)]
      omega
  have hback : (l.drop hi).filter p = [] := filter_eq_nil_iff.2 fun a ha ↦ by
    obtain ⟨i, hi', rfl⟩ := mem_drop_iff_getElem.1 ha
    rw [hp _ (by omega)]
    omega
  conv_lhs => rw [hsplit]
  rw [filter_append, filter_append, hfront, hmid, hback, nil_append, append_nil]

/-! ### Merging -/

/-- The stable merge of two lists. -/
def mergeLists (l l' : List T) : List T :=
  l.merge l' fun a b ↦ decide (a ≤ b)

@[simp] theorem mem_mergeLists {l l' : List T} {x : T} :
    x ∈ mergeLists l l' ↔ x ∈ l ∨ x ∈ l' :=
  mem_merge

@[simp] theorem length_mergeLists (l l' : List T) :
    (mergeLists l l').length = l.length + l'.length :=
  length_merge _ _ _

/-- Disjoint strictly increasing lists merge into a strictly increasing list. -/
theorem sortedLT_mergeLists {l l' : List T} (h : l.SortedLT) (h' : l'.SortedLT)
    (hdisj : ∀ x ∈ l, x ∉ l') : (mergeLists l l').SortedLT := by
  have hle : (mergeLists l l').Pairwise (· ≤ ·) :=
    Pairwise.merge h.sortedLE.pairwise h'.sortedLE.pairwise
  have hnodup : (mergeLists l l').Nodup :=
    (merge_perm_append _).nodup_iff.2 (h.nodup.append h'.nodup fun x hx hx' ↦ hdisj x hx hx')
  exact hle.sortedLE.sortedLT_of_nodup hnodup

/-! ### Adding and taking away -/

/-- The list with the entries of a batch added (`add = true`) or taken away (`add = false`). -/
def adjust (add : Bool) (l batch : List T) : List T :=
  if add then mergeLists l batch else l.filter (· ∉ batch)

theorem mem_adjust {add : Bool} {batch : List T} {x : T} :
    x ∈ adjust add l batch ↔ if x ∈ batch then add = true else x ∈ l := by
  cases add <;> by_cases hx : x ∈ batch <;> simp [adjust, hx]

section Adjust

variable {add : Bool} {batch : List T} (h : l.SortedLT) (hb : batch.SortedLT)
  (hnew : ∀ x ∈ batch, (x ∈ l ↔ add = false))

include h hb hnew

theorem sortedLT_adjust : (adjust add l batch).SortedLT := by
  cases add with
  | true => exact sortedLT_mergeLists h hb fun x hx hx' ↦ by simpa [hx] using hnew x hx'
  | false => exact (h.pairwise.sublist filter_sublist).sortedLT

theorem length_adjust :
    (adjust add l batch).length + (if add then 0 else batch.length) =
      l.length + if add then batch.length else 0 := by
  cases add with
  | true => simp [adjust]
  | false =>
    have hfilter : l.filter (· ∈ batch) = batch := by
      refine SortedLT.eq_of_mem_iff (h.pairwise.sublist filter_sublist).sortedLT hb fun x ↦ ?_
      simpa using fun hx ↦ (hnew x hx).2 rfl
    have hsplit := length_eq_length_filter_add (l := l) (f := (· ∈ batch))
    rw [hfilter] at hsplit
    simp only [adjust, Bool.false_eq_true, if_false, decide_not]
    omega

end Adjust

/-! ### Joining blocks -/

/-- Blocks that are strictly increasing and ordered among each other join to a strictly increasing
list. -/
theorem sortedLT_flatten {bs : List (List T)} (h : ∀ b ∈ bs, b.SortedLT)
    (hpair : bs.Pairwise fun b c ↦ ∀ x ∈ b, ∀ y ∈ c, x < y) : bs.flatten.SortedLT :=
  (pairwise_flatten.2 ⟨fun b hb ↦ (h b hb).pairwise, hpair⟩).sortedLT

end Sorted
