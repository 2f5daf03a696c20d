import Pbist.Functional.Content
import Pbist.Source.Flatten

/-!
# Flattening a well-formed subtree

`get_keys` returns the stored keys, `live`. Its loops store the blocks of a node at the offsets that
the exclusive scan computes; the blocks have the sizes that the scan adds up because `cur_size` is
exact.

## How the proof goes

The state of the loops is described by the set of positions that are written. `keySpans` and
`childSpans` are the positions that the two loops write; they are disjoint, and together they are
the range of the subtree (`Inv.keySpans_union_childSpans`). `Inv.doGetKeys_eq` is the induction on
the tree, for any buffer and any set of positions that were written before.
-/

namespace Pbist

open Checked Sorted Blocks

variable {T : Type} [LinearOrder T] {A : Arith T} {t : ℕ} {I : Set T}

namespace Node

variable {node : Node T}

theorem Local.length_blocks (h : node.Local t I) :
    node.blocks.length = node.keys.length + node.children.length := by
  rw [blocks, length_alternate, List.length_map, keyBlocks, List.length_zipWith, h.exist_length,
    min_self, Nat.add_comm]

omit [LinearOrder T] in
/-- The block of key `i`. -/
theorem getElem?_keyBlocks {i : ℕ} (hi : i < node.keys.length) (he : i < node.keysExist.length) :
    (keyBlocks node.keys node.keysExist)[i]? =
      some (if node.keysExist[i] then [node.keys[i]] else []) := by
  rw [keyBlocks, List.getElem?_zipWith, List.getElem?_eq_getElem hi, List.getElem?_eq_getElem he]

theorem Local.length_keyBlocks (h : node.Local t I) :
    (keyBlocks node.keys node.keysExist).length = node.keys.length := by
  rw [keyBlocks, List.length_zipWith, h.exist_length, min_self]

/-- The index among the blocks of the block of key `i`. -/
def keyBlockIdx (node : Node T) (i : ℕ) : ℕ :=
  if node.children.length = 0 then i else 2 * i + 1

theorem Local.getElem?_blocks_key (h : node.Local t I) {i : ℕ} (hi : i < node.keys.length)
    (he : i < node.keysExist.length) : node.blocks[node.keyBlockIdx i]? =
      some (if node.keysExist[i] then [node.keys[i]] else []) := by
  rw [← getElem?_keyBlocks hi he, keyBlockIdx, blocks]
  rcases h.children_length with hlen | hlen
  · rw [if_pos hlen, List.length_eq_zero_iff.1 hlen, List.map_nil, alternate_nil_left]
  · rw [if_neg (by omega)]
    exact getElem?_alternate_odd (by rw [List.length_map, h.length_keyBlocks, hlen]) i

theorem Local.getElem?_blocks_child (h : node.Local t I) {i : ℕ} {slot : Option (Node T)}
    (hslot : node.children[i]? = some slot) : node.blocks[2 * i]? = some (slotLive slot) := by
  have hlt := (List.getElem?_eq_some_iff.1 hslot).1
  rcases h.children_length with hlen | hlen
  · omega
  · rw [blocks, getElem?_alternate_even (by rw [List.length_map, h.length_keyBlocks, hlen]),
      List.getElem?_map, hslot, Option.map_some]

/-- The size of the block of key `i`. -/
theorem Local.getElem?_sizes_key (h : node.Local t I) {i : ℕ} (hi : i < node.keys.length) :
    (node.blocks.map List.length)[node.keyBlockIdx i]? =
      some (node.keysExist[i]?.getD false).toNat := by
  have hi' : i < node.keysExist.length := by rwa [h.exist_length]
  rw [List.getElem?_map, h.getElem?_blocks_key hi hi', List.getElem?_eq_getElem hi']
  rcases hflag : node.keysExist[i] <;> simp

/-- The size of the block of child `i`. -/
theorem Inv.getElem?_sizes_child (h : node.Inv t I) {i : ℕ} (hi : i < node.children.length) :
    (node.blocks.map List.length)[2 * i]? = some (slotSize (node.children[i]?.getD none)) := by
  have hslot : node.children[i]? = some node.children[i] := List.getElem?_eq_getElem hi
  rw [List.getElem?_map, h.here.getElem?_blocks_child hslot, hslot, Option.map_some,
    (h.slot hslot).length_live, Option.getD_some]

/-- `get_sizes` computes the lengths of the blocks. -/
theorem Inv.getSizes_eq (h : node.Inv t I) :
    node.getSizes = .ok (node.blocks.map List.length) := by
  have hlocal := h.here
  rw [getSizes, require_of hlocal.isStructureCorrect, ok_bind, hlocal.isTerminal_eq, ok_bind]
  rcases hlocal.children_length with hlen | hlen
  · -- a terminal node: one size for each key
    rw [if_pos (by simpa using hlen), require_of hlen, ok_bind,
      tabulate_get hlocal.exist_length.symm fun flag _ ↦ pure_eq_ok flag.toNat]
    refine congrArg Except.ok (List.ext_getElem? fun i ↦ ?_)
    rcases Nat.lt_or_ge i node.keys.length with hi | hi
    · have hkey := hlocal.getElem?_sizes_key hi
      rw [keyBlockIdx, if_pos hlen] at hkey
      rw [hkey, List.getElem?_map, List.getElem?_eq_getElem (by rwa [hlocal.exist_length])]
      rfl
    · rw [List.getElem?_eq_none (by rwa [List.length_map, hlocal.exist_length]),
        List.getElem?_eq_none (by rw [List.length_map, hlocal.length_blocks]; omega)]
  · -- an inner node: the sizes of children at even and of keys at odd indices
    rw [if_neg (by simp [hlen]), require_of hlen.symm, ok_bind,
      tabulate_of_ok (g := fun i ↦ if i % 2 = 0 then slotSize (node.children[i / 2]?.getD none)
        else (node.keysExist[i / 2]?.getD false).toNat) fun i hi ↦ by
        split
        · simp only [get_getD (show i / 2 < node.children.length by omega) none, ok_bind]
          rcases node.children[i / 2]?.getD none with - | child <;> rfl
        · simp only [get_getD (show i / 2 < node.keysExist.length by
            rw [hlocal.exist_length]; omega) false, ok_bind, pure_eq_ok]]
    refine congrArg Except.ok (List.ext_getElem? fun i ↦ ?_)
    rcases Nat.lt_or_ge i (node.keys.length + node.children.length) with hi | hi
    · rw [List.getElem?_map, List.getElem?_range hi, Option.map_some]
      obtain ⟨j, rfl | rfl⟩ : ∃ j, i = 2 * j ∨ i = 2 * j + 1 := ⟨i / 2, by omega⟩
      · rw [if_pos (by omega), Nat.mul_div_cancel_left _ (by omega),
          h.getElem?_sizes_child (by omega)]
      · have hkey := hlocal.getElem?_sizes_key (i := j) (by omega)
        rw [keyBlockIdx, if_neg (by omega)] at hkey
        rw [hkey, if_neg (by omega), show (2 * j + 1) / 2 = j by omega]
    · rw [List.getElem?_eq_none (by simpa using hi),
        List.getElem?_eq_none (by rw [List.length_map, hlocal.length_blocks]; omega)]

/-! ### Flattening -/

theorem Inv.length_flatten_blocks (h : node.Inv t I) :
    node.blocks.flatten.length = node.curSize := by
  rw [← live_eq, Inv.length_live h]

omit [LinearOrder T] in
theorem length_borders (node : Node T) :
    (exclusiveScan (node.blocks.map List.length)).length = node.blocks.length := by
  rw [exclusiveScan, List.length_map, List.length_range, List.length_map]

omit [LinearOrder T] in
/-- The exclusive scan computes the offsets of the blocks. -/
theorem get_borders {i : ℕ} (hi : i < node.blocks.length) :
    get (exclusiveScan (node.blocks.map List.length)) i = .ok (offset node.blocks i) := by
  refine get_of_getElem? ?_
  rw [exclusiveScan, List.getElem?_map, List.getElem?_range (by simpa using hi), Option.map_some,
    offset, List.map_take]

/-- Behind the last block the range ends. -/
theorem Inv.offset_end (h : node.Inv t I) {i : ℕ} (hi : ¬i < node.blocks.length)
    (hi' : i ≤ node.blocks.length) : offset node.blocks i = node.curSize := by
  rw [show i = node.blocks.length by omega, offset_length, h.length_flatten_blocks]

theorem Inv.offset_le (h : node.Inv t I) {i : ℕ} (hi : i ≤ node.blocks.length) :
    offset node.blocks i ≤ node.curSize := by
  rw [← h.length_flatten_blocks, ← offset_length]
  exact offset_mono _ hi

theorem Local.getBorderIdxByKeyIdx_eq (h : node.Local t I) (i : ℕ) :
    node.getBorderIdxByKeyIdx i = .ok (node.keyBlockIdx i) := by
  rw [getBorderIdxByKeyIdx, require_of h.isStructureCorrect, ok_bind, h.isTerminal_eq, ok_bind,
    keyBlockIdx]
  simp only [decide_eq_true_eq]
  split <;> rfl

/-- The border behind block `i - 1`, as both loops compute it. -/
theorem Inv.nextBorder_eq (h : node.Inv t I) (left : ℕ) {i : ℕ} (hi : i ≤ node.blocks.length)
    {S : Type} {k : ℕ → Checked S} :
    (if i < node.blocks.length then do
        let border ← get (exclusiveScan (node.blocks.map List.length)) i
        let next ← pure (left + border)
        k next
      else do
        let next ← pure (left + node.curSize)
        k next) = k (left + offset node.blocks i) := by
  split
  · rename_i hlt
    rw [get_borders hlt, ok_bind, pure_eq_ok, ok_bind]
  · rename_i hge
    rw [h.offset_end hge hi, pure_eq_ok, ok_bind]

/-- `v` holds the stored keys of the node at the positions from `left` on. -/
def Holds (node : Node T) (left : ℕ) (v : ℕ → T) : Prop :=
  ∀ j < node.curSize, node.live[j]? = some (v (left + j))

/-- The blocks of a node are where the offsets say. -/
theorem Inv.getElem?_block (h : node.Inv t I) {left : ℕ} {v : ℕ → T} (hv : node.Holds left v)
    {i j : ℕ} {block : List T} (hblock : node.blocks[i]? = some block) (hj : j < block.length) :
    block[j]? = some (v (left + offset node.blocks i + j)) := by
  have hi := (List.getElem?_eq_some_iff.1 hblock).1
  have hsucc := offset_succ hblock
  have hle := h.offset_le (i := i + 1) (Nat.succ_le_of_lt hi)
  rw [← getElem?_flatten_offset hblock hj, ← live_eq, hv _ (by omega), Nat.add_assoc]

section Loops

variable {σ : Schedule} {left : ℕ} {v : ℕ → T} {holder : Buffer T} {E : Finset ℕ}

/-- The positions of the keys of the node itself. -/
def keySpans (node : Node T) (left : ℕ) : Finset ℕ :=
  (Finset.Ico 0 node.keys.length).biUnion fun i ↦ span node.blocks left (node.keyBlockIdx i)

/-- The positions of the keys below the children. -/
def childSpans (node : Node T) (left : ℕ) : Finset ℕ :=
  (Finset.Ico 0 node.children.length).biUnion fun i ↦ span node.blocks left (2 * i)

/-- A stored key is written to the place of its block, which has no other position. -/
theorem Inv.getKeyFromCurNode_eq (h : node.Inv t I) (hv : node.Holds left v)
    (hholder : left + node.curSize ≤ holder.length) {i : ℕ} (hi : i < node.keys.length)
    (hE : Disjoint E (span node.blocks left (node.keyBlockIdx i))) :
    node.getKeyFromCurNode (exclusiveScan (node.blocks.map List.length)) left
        (left + node.curSize) i (Buffer.writeOn v E holder) =
      .ok (Buffer.writeOn v (E ∪ span node.blocks left (node.keyBlockIdx i)) holder) := by
  have hlocal := h.here
  have hflag : i < node.keysExist.length := by rwa [hlocal.exist_length]
  have hblock := hlocal.getElem?_blocks_key hi hflag
  have hidx : node.keyBlockIdx i < node.blocks.length := (List.getElem?_eq_some_iff.1 hblock).1
  have hle := h.offset_le (i := node.keyBlockIdx i + 1) (Nat.succ_le_of_lt hidx)
  have hsucc := offset_succ hblock
  rw [span_eq hblock] at hE ⊢
  rw [getKeyFromCurNode, hlocal.getBorderIdxByKeyIdx_eq, ok_bind, length_borders,
    require_of hidx, ok_bind, get_borders hidx, ok_bind]
  rw [h.nextBorder_eq left (Nat.succ_le_of_lt hidx), get_of_lt hflag, ok_bind]
  by_cases hexist : node.keysExist[i] = true
  · simp only [if_pos hexist, List.length_singleton, Nat.Ico_succ_singleton] at hsucc hblock hE ⊢
    have hval : node.keys[i] = v (left + offset node.blocks (node.keyBlockIdx i)) := by
      simpa using h.getElem?_block hv hblock (j := 0) (by simp)
    rw [require_of (by rw [hsucc, Nat.add_assoc]), ok_bind, get_of_lt hi, ok_bind,
      Buffer.write_writeOn (by omega) (Finset.disjoint_singleton_right.1 hE) hval.symm,
      Finset.union_comm, Finset.insert_eq]
  · simp only [if_neg hexist, List.length_nil, Nat.add_zero, Finset.Ico_self, Finset.union_empty]
      at hsucc ⊢
    rw [require_of (by rw [hsucc]), ok_bind, pure_eq_ok]

theorem Inv.doGetKeysFromCurNode_eq (h : node.Inv t I) (hv : node.Holds left v)
    (hholder : left + node.curSize ≤ holder.length) (hE : Disjoint E (node.keySpans left)) :
    node.doGetKeysFromCurNode σ (exclusiveScan (node.blocks.map List.length)) left
        (left + node.curSize) (Buffer.writeOn v E holder) =
      .ok (Buffer.writeOn v (E ∪ node.keySpans left) holder) := by
  rw [doGetKeysFromCurNode, require_of h.here.isStructureCorrect, ok_bind]
  refine parallelFor_union (fun E ↦ Buffer.writeOn v E holder)
    (fun i ↦ span node.blocks left (node.keyBlockIdx i)) (fun i j _ _ _ _ hij ↦ ?_)
    (fun i _ hi ↦ ?_) fun i E' _ hi hE' ↦ h.getKeyFromCurNode_eq hv hholder hi hE'
  · refine disjoint_span fun heq ↦ hij ?_
    rw [keyBlockIdx, keyBlockIdx] at heq
    split at heq <;> omega
  · exact (Finset.disjoint_biUnion_right _ _ _).1 hE i (Finset.mem_Ico.2 ⟨Nat.zero_le _, hi⟩)

/-- What the loop over the children asks of the recursive call. -/
def FillsChild (node : Node T) (holder : Buffer T) (v : ℕ → T)
    (self : Schedule → Node T → ℕ → ℕ → Buffer T → Checked (Buffer T)) : Prop :=
  ∀ child, some child ∈ node.children → ∀ (σ : Schedule) (left : ℕ) (E : Finset ℕ),
    child.Holds left v → 0 < child.curSize → left + child.curSize ≤ holder.length →
    Disjoint E (Finset.Ico left (left + child.curSize)) →
    self σ child left (left + child.curSize) (Buffer.writeOn v E holder) =
      .ok (Buffer.writeOn v (E ∪ Finset.Ico left (left + child.curSize)) holder)

/-- A child is flattened into the place of its block. -/
theorem Inv.getKeysFromChild_eq (h : node.Inv t I) (hv : node.Holds left v)
    (hholder : left + node.curSize ≤ holder.length)
    {self : Schedule → Node T → ℕ → ℕ → Buffer T → Checked (Buffer T)}
    (hself : node.FillsChild holder v self) {i : ℕ} (hi : i < node.children.length)
    (hE : Disjoint E (span node.blocks left (2 * i))) :
    node.getKeysFromChild self σ (exclusiveScan (node.blocks.map List.length)) left
        (left + node.curSize) i (Buffer.writeOn v E holder) =
      .ok (Buffer.writeOn v (E ∪ span node.blocks left (2 * i)) holder) := by
  have hslot : node.children[i]? = some node.children[i] := List.getElem?_eq_getElem hi
  have hblock := h.here.getElem?_blocks_child hslot
  have hidx : 2 * i < node.blocks.length := (List.getElem?_eq_some_iff.1 hblock).1
  have hle := h.offset_le (i := 2 * i + 1) (Nat.succ_le_of_lt hidx)
  have hsucc := offset_succ hblock
  -- the two loops of the source test for the last border in different ways
  have hlast : (2 * i < node.blocks.length - 1) = (2 * i + 1 < node.blocks.length) :=
    propext (by omega)
  rw [span_eq hblock] at hE ⊢
  rw [(h.slot hslot).length_live] at hsucc hE ⊢
  simp only [getKeysFromChild, get_borders hidx, ok_bind, length_borders, require_of hidx,
    subtract_of_le (show 1 ≤ node.blocks.length by omega), hlast]
  rw [h.nextBorder_eq left (Nat.succ_le_of_lt hidx), get_of_getElem? hslot, ok_bind]
  rcases hchild : node.children[i] with - | child
  · simp only [slotSize_none, Nat.add_zero, Finset.Ico_self, Finset.union_empty, pure_eq_ok]
  · rw [hchild, slotSize_some] at hsucc hE
    rw [hchild] at hslot hblock
    have hright : left + offset node.blocks (2 * i + 1) =
        left + offset node.blocks (2 * i) + child.curSize := by
      rw [hsucc, Nat.add_assoc]
    simp only [hright, slotSize_some]
    rw [subtract_of_le (by omega), ok_bind, require_of (by omega), ok_bind]
    split
    · refine hself child (List.mem_of_getElem? hslot) _ _ _ (fun j hj ↦ ?_) (by omega) (by omega)
        hE
      have hlen := Inv.length_live (h.child hslot)
      exact h.getElem?_block hv hblock (hj.trans_eq hlen.symm)
    · rw [show child.curSize = 0 by omega, Nat.add_zero, Finset.Ico_self, Finset.union_empty,
        pure_eq_ok]

theorem Inv.doGetKeysFromChildren_eq (h : node.Inv t I) (hv : node.Holds left v)
    (hholder : left + node.curSize ≤ holder.length) (hE : Disjoint E (node.childSpans left))
    {self : Schedule → Node T → ℕ → ℕ → Buffer T → Checked (Buffer T)}
    (hself : node.FillsChild holder v self) :
    node.doGetKeysFromChildren self σ (exclusiveScan (node.blocks.map List.length)) left
        (left + node.curSize) (Buffer.writeOn v E holder) =
      .ok (Buffer.writeOn v (E ∪ node.childSpans left) holder) := by
  rw [doGetKeysFromChildren, require_of h.here.isStructureCorrect, ok_bind]
  refine parallelFor_union (fun E ↦ Buffer.writeOn v E holder)
    (fun i ↦ span node.blocks left (2 * i)) (fun i j _ _ _ _ hij ↦ disjoint_span (by omega))
    (fun i _ hi ↦ ?_) fun i E' _ hi hE' ↦ h.getKeysFromChild_eq hv hholder hself hi hE'
  exact (Finset.disjoint_biUnion_right _ _ _).1 hE i (Finset.mem_Ico.2 ⟨Nat.zero_le _, hi⟩)

/-- The positions of a subtree are those of the keys of its root and of its children. -/
theorem Inv.keySpans_union_childSpans (h : node.Inv t I) (left : ℕ) :
    node.keySpans left ∪ node.childSpans left = Finset.Ico left (left + node.curSize) := by
  have hblocks := h.here.length_blocks
  rw [← h.length_flatten_blocks, ← offset_length, ← biUnion_span]
  ext p
  simp only [keySpans, childSpans, Finset.mem_union, Finset.mem_biUnion, Finset.mem_Ico,
    Finset.mem_range, keyBlockIdx]
  constructor
  · rintro (⟨i, hi, hp⟩ | ⟨i, hi, hp⟩)
    · refine ⟨_, ?_, hp⟩
      rcases h.here.children_length with hlen | hlen
      · rw [if_pos hlen]
        omega
      · rw [if_neg (by omega)]
        omega
    · refine ⟨_, ?_, hp⟩
      rcases h.here.children_length with hlen | hlen <;> omega
  · rintro ⟨i, hi, hp⟩
    rcases h.here.children_length with hlen | hlen
    · exact .inl ⟨i, by omega, by rwa [if_pos hlen]⟩
    · obtain ⟨j, rfl | rfl⟩ : ∃ j, i = 2 * j ∨ i = 2 * j + 1 := ⟨i / 2, by omega⟩
      · exact .inr ⟨j, by omega, hp⟩
      · exact .inl ⟨j, by omega, by rwa [if_neg (by omega)]⟩

omit [LinearOrder T] in
theorem disjoint_keySpans_childSpans (node : Node T) (left : ℕ) :
    Disjoint (node.keySpans left) (node.childSpans left) := by
  refine (Finset.disjoint_biUnion_left _ _ _).2 fun i _ ↦
    (Finset.disjoint_biUnion_right _ _ _).2 fun j hj ↦ disjoint_span ?_
  have hlt := (Finset.mem_Ico.1 hj).2
  rw [keyBlockIdx, if_neg (by omega)]
  omega

end Loops

/-- **`do_get_keys` writes the stored keys of the subtree into their range**, each position once and
no other position. -/
theorem Inv.doGetKeys_eq : ∀ {node : Node T} {I : Set T}, node.Inv t I →
    ∀ {fuel : ℕ} {σ : Schedule} {left : ℕ} {v : ℕ → T} {holder : Buffer T} {E : Finset ℕ},
      node.height ≤ fuel → node.Holds left v → 0 < node.curSize →
      left + node.curSize ≤ holder.length → Disjoint E (Finset.Ico left (left + node.curSize)) →
      doGetKeys fuel σ node left (left + node.curSize) (Buffer.writeOn v E holder) =
        .ok (Buffer.writeOn v (E ∪ Finset.Ico left (left + node.curSize)) holder) := by
  intro node
  induction node using Node.induction with
  | step node ih =>
    intro I h fuel σ left v holder E hfuel hv hpos hholder hE
    have hlocal := h.here
    have hheight := height_eq node
    obtain ⟨fuel, rfl⟩ : ∃ f, fuel = f + 1 := ⟨fuel - 1, by omega⟩
    have hunion := h.keySpans_union_childSpans left
    have hdisj := disjoint_keySpans_childSpans node left
    rw [← hunion, Finset.disjoint_union_right] at hE
    -- the induction hypothesis is what the loop over the children asks of the recursive call
    have hself : node.FillsChild holder v (doGetKeys fuel) := by
      intro child hchild σ left E hv hpos hholder hE
      obtain ⟨i, hi⟩ := List.getElem?_of_mem hchild
      have hlt := slotHeight_lt hchild
      rw [slotHeight_some] at hlt
      exact ih child hchild (h.child hi) (by omega) hv hpos hholder hE
    have hsizes :
        (node.blocks.map List.length).length = node.keys.length + node.children.length := by
      rw [List.length_map, hlocal.length_blocks]
    rw [← hunion]
    simp only [doGetKeys, require_of hlocal.isStructureCorrect, ok_bind, h.getSizes_eq,
      require_of hsizes, require_of ((length_borders node).trans (List.length_map _).symm),
      hlocal.isTerminal_eq,
      require_of (show 0 ≤ left ∧ left < left + node.curSize ∧ left + node.curSize ≤
        (Buffer.writeOn v E holder).length from ⟨by omega, by omega, by rwa [length_updateOn]⟩)]
    split
    · rename_i hterm
      have hchildren : node.childSpans left = ∅ := by
        rw [childSpans, of_decide_eq_true hterm]
        rfl
      rw [h.doGetKeysFromCurNode_eq hv hholder hE.1, hchildren, Finset.union_empty]
    · rename_i hterm
      have hlen : node.children.length = node.keys.length + 1 :=
        hlocal.children_length.resolve_left (by simpa using hterm)
      rw [require_of hlen, ok_bind]
      -- both branches write to positions of their own, so their order does not matter
      exact fork2_union (fun E ↦ Buffer.writeOn v E holder) hdisj hE.1 hE.2
        (fun E' hE' ↦ h.doGetKeysFromCurNode_eq hv hholder hE')
        fun E' hE' ↦ h.doGetKeysFromChildren_eq hv hholder hE' hself

/-- **`get_keys` returns the stored keys.** -/
theorem Inv.getKeys_eq {node : Node T} (h : node.Inv t I) {fuel : ℕ} (hfuel : node.height ≤ fuel)
    (σ : Schedule) : node.getKeys fuel σ = .ok node.live := by
  have hlen := Inv.length_live h
  rw [getKeys, require_of h.here.isStructureCorrect, ok_bind]
  split
  · rename_i hzero
    rw [List.length_eq_zero_iff.1 (hlen.trans hzero)]
    rfl
  · rename_i hpos
    obtain ⟨x, -⟩ := List.exists_mem_of_ne_nil node.keys h.here.keys_ne_nil
    have hholds : node.Holds 0 fun p ↦ (node.live[p]?).getD x := by
      intro j hj
      show node.live[j]? = some ((node.live[0 + j]?).getD x)
      rw [Nat.zero_add, List.getElem?_eq_getElem (by omega), Option.getD_some]
    have hfill := @Inv.doGetKeys_eq T _ t node I h fuel σ 0 _ (Buffer.raw node.curSize) ∅ hfuel
      hholds (by omega) (by rw [Buffer.length_raw, Nat.zero_add]) (Finset.disjoint_empty_left _)
    simp only [updateOn_empty, Nat.zero_add, Finset.empty_union] at hfill
    rw [hfill, ok_bind,
      Buffer.freeze_writeOn_raw fun i hi ↦ Finset.mem_Ico.2 ⟨Nat.zero_le _, hi⟩]
    refine congrArg Except.ok (List.ext_getElem? fun i ↦ ?_)
    rcases Nat.lt_or_ge i node.curSize with hi | hi
    · rw [List.getElem?_map, List.getElem?_range hi, hholds i hi, Option.map_some, Nat.zero_add]
    · rw [List.getElem?_eq_none (by simpa using hi), List.getElem?_eq_none (by omega)]

end Node

end Pbist
