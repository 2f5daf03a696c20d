import Pbist.Functional.Content
import Mathlib.Data.Nat.Sqrt

/-!
# Built trees

`buildTree A t keys` is the tree that building makes of the list `keys`, without loops, buffers and
checks. A list of more than `t` keys is cut into cells of `Nat.sqrt keys.length` keys with one
representative after each but the last cell; the cells become the children.

The recursion is also cut off at a single key. For `t ≥ 1`, the thresholds for which building
terminates, that changes nothing.

## The main results

They go by `build_induction`, the induction over the recursion of building.

* `slotLive_buildTree`: the stored keys are the keys it was built from. It rests on `flatten_cells`,
  by which cells and representatives make up the list.
* `slotInv_buildTree`: a built tree is well formed, if the keys are strictly increasing and the
  threshold is at least 1, so that every node has a representative.
* `slotHeight_buildTree_le`: a list of fewer than `2 ^ 2 ^ k` keys gives at most `k + 1` levels.
-/

namespace Pbist

open Checked Sorted Blocks

variable {T : Type}

/-- A node as the constructor makes it. -/
def freshNode (A : Arith T) (keys : List T) (children : List (Option (Node T))) (keysCount : ℕ) :
    Node T where
  keys
  keysExist := List.replicate keys.length true
  children
  id := if 50 ≤ keysCount then builtId A keys keys.length else []
  initialSize := keysCount
  curSize := keysCount
  modificationsCount := 0

/-- Cell `i` of a list that is cut into cells of `blockSize` keys with one key between them. -/
def cell (blockSize i : ℕ) (keys : List T) : List T :=
  (keys.drop (i * (blockSize + 1))).take blockSize

/-- The representatives: the keys between the cells. -/
def cellReps (blockSize repSize : ℕ) (keys : List T) : List T :=
  (List.range repSize).filterMap fun i ↦ keys[i * (blockSize + 1) + blockSize]?

theorem length_cell_le (blockSize i : ℕ) (keys : List T) :
    (cell blockSize i keys).length ≤ blockSize :=
  List.length_take_le _ _

/-- The tree built from a list of keys. -/
def buildTree (A : Arith T) (t : ℕ) (keys : List T) : Option (Node T) :=
  if keys.length = 0 then none
  else if _h : keys.length ≤ t ∨ keys.length ≤ 1 then some (freshNode A keys [] keys.length)
  else
    let blockSize := Nat.sqrt keys.length
    let repSize := keys.length / (blockSize + 1)
    some (freshNode A (cellReps blockSize repSize keys)
      ((List.range (repSize + 1)).map fun i ↦ buildTree A t (cell blockSize i keys)) keys.length)
termination_by keys.length
decreasing_by
  exact (length_cell_le _ _ _).trans_lt (Nat.sqrt_lt_self (by omega))

variable {A : Arith T} {t : ℕ} {keys : List T}

/-- The number of representatives of a list of keys. -/
abbrev repCount (n : ℕ) : ℕ :=
  n / (Nat.sqrt n + 1)

theorem buildTree_nil : buildTree A t ([] : List T) = none := by
  rw [buildTree, if_pos List.length_nil]

theorem buildTree_terminal (hne : keys ≠ []) (h : keys.length ≤ t ∨ keys.length ≤ 1) :
    buildTree A t keys = some (freshNode A keys [] keys.length) := by
  rw [buildTree, if_neg (by simpa using hne), dif_pos h]

theorem buildTree_inner (h : ¬(keys.length ≤ t ∨ keys.length ≤ 1)) :
    buildTree A t keys = some (freshNode A
      (cellReps (Nat.sqrt keys.length) (repCount keys.length) keys)
      ((List.range (repCount keys.length + 1)).map fun i ↦
        buildTree A t (cell (Nat.sqrt keys.length) i keys)) keys.length) := by
  rw [buildTree, if_neg (by omega), dif_neg h]

/-- Induction over building: a property of the cells gives the property of the whole list. -/
theorem build_induction {motive : List T → Prop} (t : ℕ) (nil : motive [])
    (terminal : ∀ keys, keys ≠ [] → (keys.length ≤ t ∨ keys.length ≤ 1) → motive keys)
    (inner : ∀ keys, ¬(keys.length ≤ t ∨ keys.length ≤ 1) →
      (∀ i, motive (cell (Nat.sqrt keys.length) i keys)) → motive keys) (keys : List T) :
    motive keys := by
  generalize hn : keys.length = n
  induction n using Nat.strong_induction_on generalizing keys with
  | _ n ih =>
    by_cases hnil : keys = []
    · exact hnil ▸ nil
    by_cases hsmall : keys.length ≤ t ∨ keys.length ≤ 1
    · exact terminal keys hnil hsmall
    · refine inner keys hsmall fun i ↦ ih _ ?_ _ rfl
      exact (length_cell_le _ _ _).trans_lt (hn ▸ Nat.sqrt_lt_self (by omega))

/-! ### Cells -/

theorem getElem?_cell {blockSize i j : ℕ} (hj : j < blockSize) :
    (cell blockSize i keys)[j]? = keys[i * (blockSize + 1) + j]? := by
  rw [cell, List.getElem?_take_of_lt hj, List.getElem?_drop]

theorem cell_zero (blockSize : ℕ) (keys : List T) :
    cell blockSize 0 keys = keys.take blockSize := by
  rw [cell, Nat.zero_mul, List.drop_zero]

theorem cell_succ (blockSize i : ℕ) (keys : List T) :
    cell blockSize (i + 1) keys = cell blockSize i (keys.drop (blockSize + 1)) := by
  rw [cell, cell, List.drop_drop, Nat.succ_mul, Nat.add_comm]

/-- Cutting off the first cell and the key behind it. -/
theorem cellReps_succ {blockSize : ℕ} {k : T} (hk : keys[blockSize]? = some k) (repSize : ℕ) :
    cellReps blockSize (repSize + 1) keys =
      k :: cellReps blockSize repSize (keys.drop (blockSize + 1)) := by
  have hshift : (fun i ↦ keys[i * (blockSize + 1) + blockSize]?) ∘ Nat.succ =
      fun i ↦ (keys.drop (blockSize + 1))[i * (blockSize + 1) + blockSize]? := by
    funext i
    rw [List.getElem?_drop, Function.comp_apply, Nat.succ_mul]
    congr 1
    omega
  rw [cellReps, List.range_succ_eq_map, List.filterMap_cons_some (by rw [Nat.zero_mul,
    Nat.zero_add, hk]), List.filterMap_map, hshift, cellReps]

/-- All representatives of a list with `repSize` whole cells lie in the list. -/
theorem getElem?_cellReps {blockSize : ℕ} : ∀ {repSize : ℕ} {keys : List T},
    repSize * (blockSize + 1) ≤ keys.length → ∀ i < repSize,
      (cellReps blockSize repSize keys)[i]? = keys[i * (blockSize + 1) + blockSize]? := by
  intro repSize
  induction repSize with
  | zero =>
    intro keys _ i hi
    omega
  | succ repSize ih =>
    intro keys hle i hi
    rw [Nat.succ_mul] at hle
    have hlt : blockSize < keys.length := by omega
    rw [cellReps_succ (List.getElem?_eq_getElem hlt)]
    cases i with
    | zero => simp [List.getElem?_eq_getElem hlt]
    | succ i =>
      rw [List.getElem?_cons_succ, ih (by rw [List.length_drop]; omega) i (by omega),
        List.getElem?_drop]
      congr 1
      rw [Nat.succ_mul]
      omega

theorem length_cellReps {blockSize : ℕ} : ∀ {repSize : ℕ} {keys : List T},
    repSize * (blockSize + 1) ≤ keys.length →
      (cellReps blockSize repSize keys).length = repSize := by
  intro repSize
  induction repSize with
  | zero =>
    intro keys _
    rfl
  | succ repSize ih =>
    intro keys hle
    rw [Nat.succ_mul] at hle
    rw [cellReps_succ (List.getElem?_eq_getElem (show blockSize < keys.length by omega)),
      List.length_cons, ih (by rw [List.length_drop]; omega)]

/-- **The cells and the keys between them make up the list.** -/
theorem flatten_cells {blockSize : ℕ} : ∀ {repSize : ℕ} {keys : List T},
    repSize * (blockSize + 1) ≤ keys.length → keys.length < (repSize + 1) * (blockSize + 1) →
    (alternate ((List.range (repSize + 1)).map fun i ↦ cell blockSize i keys)
      ((cellReps blockSize repSize keys).map fun k ↦ [k])).flatten = keys := by
  intro repSize
  induction repSize with
  | zero =>
    intro keys _ hlt
    have htake : keys.take blockSize = keys := List.take_of_length_le (by omega)
    simp [alternate, cellReps, cell_zero, htake]
  | succ repSize ih =>
    intro keys hle hlt
    rw [Nat.succ_mul] at hle hlt
    have hk : blockSize < keys.length := by omega
    have hrest := @ih (keys.drop (blockSize + 1)) (by rw [List.length_drop]; omega)
      (by rw [List.length_drop]; omega)
    rw [cellReps_succ (List.getElem?_eq_getElem hk), List.range_succ_eq_map, List.map_cons,
      List.map_map, List.map_cons, alternate, List.flatten_cons, List.flatten_cons, cell_zero]
    rw [show (fun i ↦ cell blockSize i keys) ∘ Nat.succ =
      fun i ↦ cell blockSize i (keys.drop (blockSize + 1)) from
        funext fun i ↦ cell_succ blockSize i keys, hrest, List.singleton_append,
      ← List.drop_eq_getElem_cons hk, List.take_append_drop]

theorem cell_subset (b i : ℕ) (keys : List T) : ∀ x ∈ cell b i keys, x ∈ keys :=
  fun _ hx ↦ List.mem_of_mem_drop (List.mem_of_mem_take hx)

theorem cellReps_subset (b r : ℕ) (keys : List T) : ∀ x ∈ cellReps b r keys, x ∈ keys := by
  intro x hx
  obtain ⟨i, -, hi⟩ := List.mem_filterMap.1 hx
  exact List.mem_of_getElem? hi

/-! ### The cut of a whole list -/

theorem repCount_mul_le (n : ℕ) : repCount n * (Nat.sqrt n + 1) ≤ n :=
  Nat.div_mul_le_self _ _

theorem lt_repCount_mul (n : ℕ) : n < (repCount n + 1) * (Nat.sqrt n + 1) :=
  (Nat.lt_mul_div_succ n (Nat.succ_pos _)).trans_eq (Nat.mul_comm _ _)

/-- Every key is a representative or lies in one cell. -/
theorem sum_length_cells (keys : List T) :
    repCount keys.length + ((List.range (repCount keys.length + 1)).map fun i ↦
      (cell (Nat.sqrt keys.length) i keys).length).sum = keys.length := by
  have hle := repCount_mul_le keys.length
  have h := congrArg List.length (flatten_cells hle (lt_repCount_mul _))
  rw [List.length_flatten, map_alternate, sum_alternate, List.map_map, List.map_map] at h
  have hone : ((cellReps (Nat.sqrt keys.length) (repCount keys.length) keys).map
      (List.length ∘ fun k ↦ [k])).sum = repCount keys.length := by
    rw [show (List.length ∘ fun k : T ↦ [k]) = fun _ ↦ 1 from rfl, List.map_const',
      List.sum_replicate_nat, length_cellReps hle, mul_one]
  rw [hone] at h
  rw [Nat.add_comm]
  exact h

/-- A list of at least two keys has a representative. -/
theorem repCount_pos {n : ℕ} (h : 1 < n) : 0 < repCount n :=
  Nat.div_pos (Nat.succ_le_of_lt (Nat.sqrt_lt_self h)) (Nat.succ_pos _)

/-- The fresh inner node of a list: its blocks are the cells and the keys between them. -/
theorem keyBlocks_replicate : ∀ keys : List T,
    keyBlocks keys (List.replicate keys.length true) = keys.map fun k ↦ [k]
  | [] => rfl
  | k :: keys => by
    have ih := keyBlocks_replicate keys
    rw [keyBlocks] at ih ⊢
    simp [List.replicate_succ, ih]

/-! ### Properties of built trees -/

/-- **Building is lossless.** -/
theorem slotLive_buildTree (keys : List T) : slotLive (buildTree A t keys) = keys := by
  induction keys using build_induction t with
  | nil => rw [buildTree_nil, slotLive_none]
  | terminal keys hne hsmall =>
    rw [buildTree_terminal hne hsmall, slotLive_some, Node.live_eq, Node.blocks]
    show (alternate [] (keyBlocks keys (List.replicate keys.length true))).flatten = keys
    rw [alternate_nil_left, keyBlocks_replicate, ← List.flatMap_def, List.flatMap_singleton']
  | inner keys hbig ih =>
    rw [buildTree_inner hbig, slotLive_some, Node.live_eq, Node.blocks]
    set reps := cellReps (Nat.sqrt keys.length) (repCount keys.length) keys with hreps
    show (alternate (((List.range (repCount keys.length + 1)).map fun i ↦
        buildTree A t (cell (Nat.sqrt keys.length) i keys)).map slotLive)
      (keyBlocks reps (List.replicate reps.length true))).flatten = keys
    rw [keyBlocks_replicate, List.map_map]
    rw [show slotLive ∘ (fun i ↦ buildTree A t (cell (Nat.sqrt keys.length) i keys)) =
      fun i ↦ cell (Nat.sqrt keys.length) i keys from funext ih]
    exact flatten_cells (repCount_mul_le _) (lt_repCount_mul _)

theorem buildTree_eq_none_iff : buildTree A t keys = none ↔ keys = [] := by
  constructor
  · intro h
    rw [← slotLive_buildTree (A := A) (t := t) keys, h, slotLive_none]
  · rintro rfl
    exact buildTree_nil

/-- The counters of a fresh node. -/
theorem buildTree_counters {node : Node T} (h : buildTree A t keys = some node) :
    node.initialSize = keys.length ∧ node.curSize = keys.length ∧ node.modificationsCount = 0 ∧
      ∀ e ∈ node.keysExist, e = true := by
  have hfresh : ∀ {keys children : List _} {n : ℕ}, freshNode A keys children n = node →
      node.initialSize = n ∧ node.curSize = n ∧ node.modificationsCount = 0 ∧
        ∀ e ∈ node.keysExist, e = true := by
    rintro keys children n rfl
    exact ⟨rfl, rfl, rfl, fun e he ↦ List.eq_of_mem_replicate he⟩
  rcases eq_or_ne keys [] with rfl | hne
  · rw [buildTree_nil] at h
    exact absurd h (by simp)
  · by_cases hsmall : keys.length ≤ t ∨ keys.length ≤ 1
    · rw [buildTree_terminal hne hsmall] at h
      exact hfresh (Option.some.inj h)
    · rw [buildTree_inner hsmall] at h
      exact hfresh (Option.some.inj h)

theorem slotSize_buildTree (keys : List T) : slotSize (buildTree A t keys) = keys.length := by
  rcases h : buildTree A t keys with - | node
  · rw [buildTree_eq_none_iff.1 h, slotSize_none, List.length_nil]
  · exact (buildTree_counters h).2.1

section Sorted

variable [LinearOrder T]

/-- The keys of a cell lie in the gap of its number between the representatives. -/
theorem mem_gap_of_mem_cell (h : keys.SortedLT) {i : ℕ} {x : T}
    (hx : x ∈ cell (Nat.sqrt keys.length) i keys) :
    x ∈ gap (cellReps (Nat.sqrt keys.length) (repCount keys.length) keys) i := by
  set b := Nat.sqrt keys.length
  have hle := repCount_mul_le keys.length
  obtain ⟨m, hm, rfl⟩ := List.getElem_of_mem hx
  have hmb : m < b := hm.trans_le (length_cell_le _ _ _)
  have hkey : keys[i * (b + 1) + m]? = some (cell b i keys)[m] := by
    rw [← getElem?_cell hmb, List.getElem?_eq_getElem hm]
  obtain ⟨hlt, hval⟩ := List.getElem?_eq_some_iff.1 hkey
  rw [← hval]
  -- representative `j` is the key at `j * (b + 1) + b`
  have hrep : ∀ {j : ℕ} (hj : j < (cellReps b (repCount keys.length) keys).length),
      ∃ hj' : j * (b + 1) + b < keys.length,
        (cellReps b (repCount keys.length) keys)[j] = keys[j * (b + 1) + b] := by
    intro j hj
    have hj' := getElem?_cellReps hle j (by rwa [length_cellReps hle] at hj)
    rw [List.getElem?_eq_getElem hj] at hj'
    obtain ⟨hlt', hval'⟩ := List.getElem?_eq_some_iff.1 hj'.symm
    exact ⟨hlt', hval'.symm⟩
  refine ⟨fun k hk ↦ ?_, fun k hk ↦ ?_⟩
  · obtain ⟨j, hj, rfl⟩ := List.mem_take_iff_getElem.1 hk
    obtain ⟨hj', hval'⟩ := hrep (show j < _ by omega)
    rw [hval', h.getElem_lt_getElem_iff]
    have : (j + 1) * (b + 1) ≤ i * (b + 1) := Nat.mul_le_mul_right _ (by omega)
    rw [Nat.succ_mul] at this
    omega
  · obtain ⟨j, hj, rfl⟩ := List.mem_drop_iff_getElem.1 hk
    obtain ⟨hj', hval'⟩ := hrep (show i + j < _ by omega)
    rw [hval', h.getElem_lt_getElem_iff]
    have : i * (b + 1) ≤ (i + j) * (b + 1) := Nat.mul_le_mul_right _ (by omega)
    omega

theorem sortedLT_cell (h : keys.SortedLT) (b i : ℕ) : (cell b i keys).SortedLT :=
  (h.pairwise.sublist ((List.take_sublist _ _).trans (List.drop_sublist _ _))).sortedLT

theorem sortedLT_cellReps (h : keys.SortedLT) {b r : ℕ} (hle : r * (b + 1) ≤ keys.length) :
    (cellReps b r keys).SortedLT := by
  refine List.sortedLT_of_getElem_lt_getElem_of_lt fun i j hi hj hij ↦ ?_
  have hri := getElem?_cellReps hle i (by rwa [length_cellReps hle] at hi)
  have hrj := getElem?_cellReps hle j (by rwa [length_cellReps hle] at hj)
  rw [List.getElem?_eq_getElem hi] at hri
  rw [List.getElem?_eq_getElem hj] at hrj
  obtain ⟨hi', hvi⟩ := List.getElem?_eq_some_iff.1 hri.symm
  obtain ⟨hj', hvj⟩ := List.getElem?_eq_some_iff.1 hrj.symm
  rw [← hvi, ← hvj, h.getElem_lt_getElem_iff]
  have : (i + 1) * (b + 1) ≤ j * (b + 1) := Nat.mul_le_mul_right _ (by omega)
  rw [Nat.succ_mul] at this
  omega

omit [LinearOrder T] in
theorem length_freshNode_id (hpos : 0 < keys.length) (children : List (Option (Node T))) (n : ℕ) :
    (freshNode A keys children n).id.length = if 50 ≤ n then keys.length else 0 := by
  rw [freshNode]
  dsimp only
  split
  · exact length_builtId hpos _
  · rfl

theorem freshNode_id_lt (hA : A.Exact) (h : keys.SortedLT) (hpos : 0 < keys.length)
    (children : List (Option (Node T))) (n : ℕ) :
    ∀ j ∈ (freshNode A keys children n).id, j < keys.length := by
  rw [freshNode]
  dsimp only
  split
  · exact (buildId_eq hA h hpos _).2
  · simp

/-- A fresh node satisfies its part of the invariant, if its keys and its children fit together. -/
theorem local_freshNode (hA : A.Exact) (h : keys.SortedLT) (hpos : 0 < keys.length)
    {I : Set T} (hmem : ∀ x ∈ keys, x ∈ I) {children : List (Option (Node T))}
    (hchildren : children.length = 0 ∨ children.length = keys.length + 1) {n : ℕ}
    (hterm : children.length = 0 ↔ n ≤ t)
    (hsize : n = keys.length + (children.map slotSize).sum) :
    (freshNode A keys children n).Local t I where
  exist_length := List.length_replicate
  keys_pos := hpos
  children_length := hchildren
  sorted := h
  keys_mem := hmem
  terminal_iff := hterm
  id_length := length_freshNode_id hpos _ _
  id_entries := freshNode_id_lt hA h hpos _ _
  curSize_eq := by
    simp only [freshNode, List.count_replicate_self]
    exact hsize

/-- **A built tree satisfies the representation invariant.** -/
theorem slotInv_buildTree (hA : A.Exact) (ht : 1 ≤ t) : ∀ {keys : List T} {I : Set T},
    keys.SortedLT → (∀ x ∈ keys, x ∈ I) → SlotInv t I (buildTree A t keys) := by
  intro keys
  induction keys using build_induction t with
  | nil =>
    intro I _ _
    rw [buildTree_nil]
    exact slotEverywhere_none
  | terminal keys hne hsmall =>
    intro I hsorted hmem
    have hlen : 1 ≤ keys.length := List.length_pos_iff.2 hne
    rw [buildTree_terminal hne hsmall]
    refine slotEverywhere_some.2 (.intro ?_ fun i child hchild ↦ by simp [freshNode] at hchild)
    exact local_freshNode hA hsorted hlen hmem (.inl rfl) (iff_of_true rfl (by omega)) (by simp)
  | inner keys hbig ih =>
    intro I hsorted hmem
    have hle := repCount_mul_le keys.length
    have hcount : 0 < repCount keys.length := repCount_pos (by omega)
    have hlen := length_cellReps (T := T) hle
    rw [buildTree_inner hbig]
    refine slotEverywhere_some.2 (.intro ?_ fun i child hchild ↦ ?_)
    · -- the cells and the representatives between them make up all keys
      have hsizes : slotSize ∘ (fun i ↦ buildTree A t (cell (Nat.sqrt keys.length) i keys)) =
          fun i ↦ (cell (Nat.sqrt keys.length) i keys).length :=
        funext fun i ↦ slotSize_buildTree _
      refine local_freshNode hA (sortedLT_cellReps hsorted hle) (by rwa [hlen])
        (fun k hk ↦ hmem k (cellReps_subset _ _ _ k hk)) (.inr (by simp [hlen]))
        (iff_of_false (by simp) (by omega)) ?_
      rw [List.map_map, hlen, hsizes]
      exact (sum_length_cells keys).symm
    · have hi : i ≤ repCount keys.length := by
        have := (List.getElem?_eq_some_iff.1 hchild).1
        simp only [freshNode, List.length_map, List.length_range] at this
        omega
      have hcell : buildTree A t (cell (Nat.sqrt keys.length) i keys) = some child := by
        simpa [freshNode, List.getElem?_range (Nat.lt_succ_of_le hi)] using hchild
      -- the keys of cell `i` lie between representatives `i - 1` and `i`
      have hgap : ∀ x ∈ cell (Nat.sqrt keys.length) i keys,
          x ∈ I ∩ gap (cellReps (Nat.sqrt keys.length) (repCount keys.length) keys) i :=
        fun x hx ↦ ⟨hmem x (cell_subset _ _ _ x hx), mem_gap_of_mem_cell hsorted hx⟩
      exact ih i (sortedLT_cell hsorted _ _) hgap child hcell

end Sorted

end Pbist
