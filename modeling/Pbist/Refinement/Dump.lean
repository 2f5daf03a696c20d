import Pbist.Refinement.Flatten

/-!
# Dumping and counting a well-formed subtree

The sequential dump returns the stored keys, as `get_keys` does, and `calc_node_size` returns
`cur_size`. Of the dump by levels it is proved that it never leaves out a level.

## The main results

`Inv.doDumpKeysSeq_eq` and `Inv.calcNodeSize_eq` go by induction on the tree. `Inv.flatten_eq_dump`
compares the two ways to read a subtree, the parallel one that fills a buffer at computed offsets
and the sequential one that appends; each is equal to the stored keys, and the buffer that the
parallel one itself returns has each cell written once.
-/

namespace Pbist

open Checked Sorted Blocks

variable {T : Type} [LinearOrder T] {t : ℕ} {I : Set T}

namespace Node

/-! ### The sequential dump -/

omit [LinearOrder T] in
/-- A loop that appends a list in each iteration. -/
theorem foldlM_append {step : List T → ℕ → Checked (List T)} {g : ℕ → List T} :
    ∀ {l : List ℕ}, (∀ i ∈ l, ∀ res, step res i = .ok (res ++ g i)) →
      ∀ res, l.foldlM step res = .ok (res ++ l.flatMap g)
  | [], _, res => by simp
  | i :: l, h, res => by
    rw [List.foldlM_cons, h i List.mem_cons_self, ok_bind,
      foldlM_append (fun j hj ↦ h j (List.mem_cons_of_mem _ hj)), List.flatMap_cons,
      List.append_assoc]

omit [LinearOrder T] in
theorem map_range_getD {l : List (List T)} :
    ((List.range l.length).map fun i ↦ (l[i]?).getD []) = l := by
  apply List.ext_getElem?
  intro i
  rcases Nat.lt_or_ge i l.length with hi | hi
  · rw [List.getElem?_map, List.getElem?_range hi, Option.map_some, List.getElem?_eq_getElem hi,
      Option.getD_some]
  · rw [List.getElem?_eq_none (by simpa using hi), List.getElem?_eq_none hi]

theorem Local.dumpKey_eq {node : Node T} (h : node.Local t I) {i : ℕ} (hi : i < node.keys.length)
    (res : List T) :
    node.dumpKey i res = .ok (res ++ ((keyBlocks node.keys node.keysExist)[i]?).getD []) := by
  have he : i < node.keysExist.length := by rwa [h.exist_length]
  rw [dumpKey, get_of_lt he, ok_bind, getElem?_keyBlocks hi he, Option.getD_some]
  split
  · rw [get_of_lt hi, ok_bind, pure_eq_ok]
  · rw [List.append_nil, pure_eq_ok]

/-- **`dump_keys_seq` appends the stored keys.** -/
theorem Inv.doDumpKeysSeq_eq : ∀ {node : Node T} {I : Set T}, node.Inv t I →
    ∀ {fuel : ℕ}, node.height ≤ fuel →
      ∀ res, doDumpKeysSeq fuel node res = .ok (res ++ node.live) := by
  intro node
  induction node using Node.induction with
  | step node ih =>
    intro I h fuel hfuel res
    have hlocal := h.here
    have hheight := height_eq node
    obtain ⟨fuel, rfl⟩ : ∃ f, fuel = f + 1 := ⟨fuel - 1, by omega⟩
    have hchild : ∀ {i : ℕ}, i < node.children.length → ∀ res,
        node.dumpChild (doDumpKeysSeq fuel) i res =
          .ok (res ++ ((node.children.map slotLive)[i]?).getD []) := by
      intro i hi res
      rw [dumpChild, get_of_lt hi, ok_bind, List.getElem?_map, List.getElem?_eq_getElem hi]
      rcases hslot : node.children[i] with - | child
      · simp
      · have hmem : some child ∈ node.children := hslot ▸ List.getElem_mem hi
        have hlt := slotHeight_lt hmem
        rw [slotHeight_some] at hlt
        exact ih child hmem (h.child (hslot ▸ List.getElem?_eq_getElem hi)) (by omega) res
    simp only [doDumpKeysSeq, require_of hlocal.isStructureCorrect, ok_bind, hlocal.isTerminal_eq]
    split
    · rename_i hterm
      have hlen := of_decide_eq_true hterm
      have hloop := @foldlM_append T (fun res i ↦ node.dumpKey i res) _
        (List.range node.keys.length) fun i hi res ↦ hlocal.dumpKey_eq (List.mem_range.1 hi) res
      rw [require_of hlen, ok_bind, hloop, live_eq, blocks, List.length_eq_zero_iff.1 hlen,
        List.map_nil, alternate_nil_left, ← hlocal.length_keyBlocks, List.flatMap_def,
        map_range_getD]
    · rename_i hterm
      have hlen : node.children.length = node.keys.length + 1 :=
        hlocal.children_length.resolve_left (by simpa using hterm)
      have hloop := @foldlM_append T
        (fun res i ↦ do node.dumpKey i (← node.dumpChild (doDumpKeysSeq fuel) i res)) _
        (List.range node.keys.length) fun i hi res ↦ by
          have hi' := List.mem_range.1 hi
          rw [hchild (by omega), ok_bind, hlocal.dumpKey_eq hi', List.append_assoc]
      rw [require_of hlen, ok_bind, hloop, ok_bind, subtract_of_le (by omega), ok_bind,
        hchild (by omega), hlen, Nat.add_sub_cancel, live_eq, blocks,
        flatten_alternate (by rw [List.length_map, hlocal.length_keyBlocks, hlen]),
        hlocal.length_keyBlocks, List.append_assoc]

theorem Inv.dumpKeysSeq_eq {node : Node T} (h : node.Inv t I) {fuel : ℕ}
    (hfuel : node.height ≤ fuel) : node.dumpKeysSeq fuel = .ok node.live := by
  rw [dumpKeysSeq, require_of h.here.isStructureCorrect, ok_bind, h.doDumpKeysSeq_eq hfuel,
    List.nil_append]

/-- **Parallel flattening equals sequential dumping, and fills its buffer exactly.** `get_keys` and
`dump_keys_seq` return the same keys, strictly increasing and as many as `cur_size` says, and
`do_get_keys` writes them into its part of the buffer, each position once and no other position,
whatever the order of the loops. -/
theorem Inv.flatten_eq_dump {node : Node T} (h : node.Inv t I) {fuel : ℕ}
    (hfuel : node.height ≤ fuel) :
    ∃ keys : List T, node.dumpKeysSeq fuel = .ok keys ∧ (∀ σ, node.getKeys fuel σ = .ok keys) ∧
      keys.SortedLT ∧ keys.length = node.curSize ∧
      ∀ (σ : Schedule) (left : ℕ) (holder : Buffer T), 0 < node.curSize →
        left + node.curSize ≤ holder.length →
        ∃ holder', doGetKeys fuel σ node left (left + node.curSize) holder = .ok holder' ∧
          Buffer.WrittenOnce (fun i key ↦ keys[i - left]? = some key) left (left + node.curSize)
            holder holder' := by
  have hlen := Inv.length_live h
  refine ⟨node.live, h.dumpKeysSeq_eq hfuel, h.getKeys_eq hfuel, Inv.sortedLT_live h, hlen,
    fun σ left holder hpos hholder ↦ ?_⟩
  obtain ⟨x, -⟩ := List.exists_mem_of_ne_nil node.keys h.here.keys_ne_nil
  -- position `i` gets the stored key `i - left`; `x` stands for what lies outside
  have hvalue : ∀ i, left ≤ i → i < left + node.curSize →
      node.live[i - left]? = some ((node.live[i - left]?).getD x) := by
    intro i hlo hhi
    rw [List.getElem?_eq_getElem (by omega), Option.getD_some]
  have hholds : node.Holds left fun i ↦ (node.live[i - left]?).getD x := by
    intro j hj
    show node.live[j]? = some ((node.live[left + j - left]?).getD x)
    rw [Nat.add_sub_cancel_left]
    have hget := hvalue (left + j) (by omega) (by omega)
    rwa [Nat.add_sub_cancel_left] at hget
  have hfill := h.doGetKeys_eq (σ := σ) hfuel hholds hpos hholder (Finset.disjoint_empty_left _)
  simp only [updateOn_empty, Finset.empty_union] at hfill
  exact ⟨_, hfill, Buffer.writtenOnce_writeOn hvalue⟩

/-- The sample node has a tombstone and a null child. -/
theorem Inv.flatten_eq_dump_sample :
    sampleNode.dumpKeysSeq sampleNode.height = .ok [.small 2, .small 5] ∧
      sampleNode.getKeys sampleNode.height .reversed = .ok [.small 2, .small 5] := by
  obtain ⟨keys, hdump, hget, -⟩ := Inv.flatten_eq_dump inv_sampleNode le_rfl
  have hkeys := Inv.dumpKeysSeq_eq inv_sampleNode le_rfl
  rw [hdump, Except.ok.injEq, live_sampleNode] at hkeys
  exact ⟨hkeys ▸ hdump, hkeys ▸ hget .reversed⟩

/-! ### The size -/

omit [LinearOrder T] in
theorem sum_map_toNat (flags : List Bool) : (flags.map Bool.toNat).sum = flags.count true := by
  induction flags with
  | nil => rfl
  | cons flag flags ih => cases flag <;> simp [ih, Nat.add_comm]

/-- **`calc_node_size` returns `cur_size`.** -/
theorem Inv.calcNodeSize_eq : ∀ {node : Node T} {I : Set T}, node.Inv t I →
    ∀ {fuel : ℕ}, node.height ≤ fuel → calcNodeSize fuel node = .ok node.curSize := by
  intro node
  induction node using Node.induction with
  | step node ih =>
    intro I h fuel hfuel
    have hlocal := h.here
    have hheight := height_eq node
    obtain ⟨fuel, rfl⟩ : ∃ f, fuel = f + 1 := ⟨fuel - 1, by omega⟩
    have hsize : (node.children.map slotSize).sum + (node.keysExist.map Bool.toNat).sum =
        node.curSize := by
      rw [hlocal.curSize_eq, Nat.add_comm, sum_map_toNat]
    simp only [calcNodeSize, require_of hlocal.isStructureCorrect, ok_bind]
    rw [tabulate_get hlocal.exist_length.symm fun flag _ ↦ pure_eq_ok flag.toNat, ok_bind,
      tabulate_get (g := slotSize) rfl fun slot hslot ↦ by
        rcases slot with - | child
        · rfl
        · obtain ⟨i, hi⟩ := List.getElem?_of_mem hslot
          have hlt := slotHeight_lt hslot
          rw [slotHeight_some] at hlt
          exact ih child hslot (h.child hi) (by omega),
      ok_bind, ← List.sum_eq_foldl_nat, ← List.sum_eq_foldl_nat, hsize, require_of rfl, ok_bind,
      pure_eq_ok]

/-! ### The dump by levels -/

omit [LinearOrder T] in
/-- `push_back` on a level that exists or is the next one. -/
theorem pushLevel_isOk {holder : List (LevelHolder T)} {level : ℕ} (h : level ≤ holder.length)
    (entry : List (T × Bool) × Bool) :
    ∃ holder', pushLevel holder level entry = .ok holder' ∧ holder.length ≤ holder'.length ∧
      level < holder'.length := by
  rw [pushLevel]
  split
  · rename_i hlt
    have heq : holder.length = level := by omega
    simp only [require_of heq, ok_bind, pure_eq_ok]
    rw [get_of_lt (by simp; omega), ok_bind, put_of_lt (by simp; omega)]
    exact ⟨_, rfl, by simp, by simp; omega⟩
  · simp only [pure_eq_ok, ok_bind]
    rw [get_of_lt (by omega), ok_bind, put_of_lt (by omega)]
    exact ⟨_, rfl, by simp, by rw [List.length_set]; omega⟩

/-- A node has a flag for every key to dump. -/
theorem Local.dumpEntry_isOk {node : Node T} {I : Set T} (h : node.Local t I) :
    ∃ entries, tabulate node.keys.length node.dumpEntry = .ok entries := by
  obtain ⟨x, -⟩ := List.exists_mem_of_ne_nil node.keys h.keys_ne_nil
  refine ⟨_, tabulate_of_ok
    (g := fun i ↦ ((node.keys[i]?).getD x, (node.keysExist[i]?).getD true)) fun i hi ↦ ?_⟩
  rw [dumpEntry, get_getD hi x, ok_bind, get_getD (by rwa [h.exist_length]) true, ok_bind,
    pure_eq_ok]

/-- The dump of a subtree from `level` on succeeds, and keeps the levels that exist. -/
def DumpsFrom (level : ℕ) (dump : List (LevelHolder T) → Checked (List (LevelHolder T))) : Prop :=
  ∀ holder : List (LevelHolder T), level ≤ holder.length →
    ∃ holder', dump holder = .ok holder' ∧ holder.length ≤ holder'.length ∧ level < holder'.length

omit [LinearOrder T] in
/-- One child in the dump by levels. -/
theorem dumpChildByLevel_isOk {node : Node T} {level i : ℕ}
    {self : Node T → List (LevelHolder T) → ℕ → Checked (List (LevelHolder T))}
    (hself : ∀ child, some child ∈ node.children →
      DumpsFrom (level + 1) fun holder ↦ self child holder (level + 1))
    (hi : i < node.children.length) :
    DumpsFrom (level + 1) fun holder ↦ node.dumpChildByLevel self level holder i := by
  intro holder hlevel
  simp only [dumpChildByLevel, get_of_lt hi, ok_bind]
  rcases hslot : node.children[i] with - | child
  · exact pushLevel_isOk hlevel ([], true)
  · exact hself child (hslot ▸ List.getElem_mem hi) holder hlevel

/-- The dump by levels never creates a level before the one above it. -/
theorem Inv.doDumpKeysByLevelSeq_isOk : ∀ {node : Node T} {I : Set T}, node.Inv t I →
    ∀ {fuel : ℕ}, node.height ≤ fuel → ∀ level,
      DumpsFrom level fun holder ↦ doDumpKeysByLevelSeq fuel node holder level := by
  intro node
  induction node using Node.induction with
  | step node ih =>
    intro I h fuel hfuel level holder hlevel
    have hlocal := h.here
    have hheight := height_eq node
    obtain ⟨fuel, rfl⟩ : ∃ f, fuel = f + 1 := ⟨fuel - 1, by omega⟩
    obtain ⟨curNode, hcurNode⟩ := hlocal.dumpEntry_isOk
    obtain ⟨holder', hpush, hle, hlt⟩ := pushLevel_isOk hlevel
      (curNode, decide (node.children.length = 0))
    simp only [doDumpKeysByLevelSeq, require_of hlocal.isStructureCorrect, ok_bind, hcurNode,
      hlocal.isTerminal_eq, hpush]
    split
    · rename_i hterm
      rw [require_of (of_decide_eq_true hterm), ok_bind]
      exact ⟨holder', rfl, hle, hlt⟩
    · rename_i hterm
      have hlen : node.children.length = node.keys.length + 1 :=
        hlocal.children_length.resolve_left (by simpa using hterm)
      have hself : ∀ child, some child ∈ node.children →
          DumpsFrom (level + 1) fun holder ↦
            doDumpKeysByLevelSeq fuel child holder (level + 1) := by
        intro child hchild
        obtain ⟨i, hi⟩ := List.getElem?_of_mem hchild
        have hheight' := slotHeight_lt hchild
        rw [slotHeight_some] at hheight'
        exact ih child hchild (h.child hi) (by omega) (level + 1)
      -- the loop keeps the levels that exist, and so may push on the next level
      obtain ⟨holder₂, heq, hle₂⟩ := @foldlM_isOk _ _
        (node.dumpChildByLevel (doDumpKeysByLevelSeq fuel) level)
        (fun holder ↦ holder'.length ≤ holder.length)
        (List.range node.children.length) (fun i hi holder₁ hle₁ ↦ by
          obtain ⟨holder₂, heq, hle₂, -⟩ :=
            dumpChildByLevel_isOk hself (List.mem_range.1 hi) holder₁ (by omega)
          exact ⟨holder₂, heq, hle₁.trans hle₂⟩) holder' le_rfl
      rw [require_of hlen.symm, ok_bind]
      exact ⟨holder₂, heq, hle.trans hle₂, hlt.trans_le hle₂⟩

theorem Inv.dumpKeysByLevelSeq_isOk {node : Node T} (h : node.Inv t I) {fuel : ℕ}
    (hfuel : node.height ≤ fuel) : ∃ levels, node.dumpKeysByLevelSeq fuel = .ok levels := by
  obtain ⟨levels, heq, -⟩ := h.doDumpKeysByLevelSeq_isOk hfuel 0 [] le_rfl
  rw [dumpKeysByLevelSeq, require_of h.here.isStructureCorrect, ok_bind]
  exact ⟨levels, heq⟩

end Node

end Pbist
