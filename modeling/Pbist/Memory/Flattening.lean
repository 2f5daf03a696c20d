import Pbist.Memory.Reading

/-!
# Flattening a tree in memory

`do_get_keys` fills a range of an array with the stored keys of a subtree. Every iteration of its
loops owns the span of one block; the spans of the keys and those of the children make up the range.

The offsets are those of the checked function (`borderAt_eq`, `nextBorder_eq`), and the spans those
of `Blocks.span`. As these are disjoint and make up the range, the piece of the range is the sum of
the pieces of the iterations, and the rule for parallel loops applies.
-/

namespace Pbist

namespace Mem

open Checked Assertion Sorted Blocks

open scoped Pointwise

variable {T : Type} [LinearOrder T] {s : Memory Part (Val T)} {node : Node T} {p t : ℕ} {I : Set T}
  {keysHolder left : ℕ} {v : ℕ → T}

/-- The borders of the blocks of a node. -/
abbrev bordersOf (node : Node T) : List ℕ :=
  exclusiveScan (node.blocks.map List.length)

omit [LinearOrder T] in
theorem borderAt_eq {i : ℕ} (hi : i < node.blocks.length) :
    (borderAt (bordersOf node) left i : Code T ℕ) = pure (left + offset node.blocks i) := by
  rw [borderAt, Node.get_borders hi, lift_ok, Prog.pure_bind]

/-- The border behind block `i - 1`, as both loops compute it. -/
theorem nextBorder_eq (hinv : node.Inv t I) {i : ℕ} (hi : i ≤ node.blocks.length) :
    (if i < (bordersOf node).length then borderAt (bordersOf node) left i
      else pure (left + node.curSize) : Code T ℕ) = pure (left + offset node.blocks i) := by
  rw [Node.length_borders]
  split
  · exact borderAt_eq ‹_›
  · rename_i hge
    rw [hinv.offset_end hge hi]

namespace Stored

variable (h : Stored s node p) (hinv : node.Inv t I) (hv : node.Holds left v)

include h hinv hv

/-- A stored key is written to the place of its block, which has no other position. -/
theorem getKeyFromCurNode {i : ℕ} (hi : i < node.keys.length) :
    Fills s keysHolder (.key ∘ v) (span node.blocks left (node.keyBlockIdx i))
      (getKeyFromCurNode p keysHolder (bordersOf node) left (left + node.curSize) i) := by
  have hlocal := hinv.here
  have hflag : i < node.keysExist.length := by rwa [hlocal.exist_length]
  have hblock := hlocal.getElem?_blocks_key hi hflag
  have hidx : node.keyBlockIdx i < node.blocks.length := (List.getElem?_eq_some_iff.1 hblock).1
  have hsucc := offset_succ hblock
  rw [span_eq hblock, Mem.getKeyFromCurNode]
  refine (h.getBorderIdxByKeyIdx i _ (hlocal.getBorderIdxByKeyIdx_eq i)).andThen ?_
  rw [assert_of (by rwa [Node.length_borders]), Prog.pure_bind, borderAt_eq hidx, Prog.pure_bind,
    nextBorder_eq hinv (Nat.succ_le_of_lt hidx), Prog.pure_bind]
  refine (h.readFlag i _ (get_of_lt hflag)).andThen ?_
  by_cases hexist : node.keysExist[i] = true
  · rw [if_pos hexist] at hblock hsucc ⊢
    have hval : v (left + offset node.blocks (node.keyBlockIdx i)) = node.keys[i] := by
      simpa using (hinv.getElem?_block hv hblock (j := 0) (by simp)).symm
    rw [List.length_singleton] at hsucc ⊢
    rw [assert_of (by rw [hsucc, Nat.add_assoc]), Prog.pure_bind, Nat.Ico_succ_singleton,
      if_pos hexist]
    refine h.header.bind fun hd hof ↦ ?_
    rw [hof.keys_eq, get_of_lt hi, lift_ok, Prog.pure_bind]
    exact Fills.store (congrArg Val.key hval)
  · rw [if_neg hexist] at hsucc ⊢
    rw [List.length_nil, Nat.add_zero] at hsucc ⊢
    rw [if_neg hexist, Finset.Ico_self, hsucc]
    exact Fills.none (assert_of rfl)

/-- The loop over the keys of the node. -/
theorem doGetKeysFromCurNode :
    Fills s keysHolder (.key ∘ v) (node.keySpans left)
      (doGetKeysFromCurNode p keysHolder (bordersOf node) left (left + node.curSize)) := by
  refine (h.header.checkStructure _ (require_of hinv.here.isStructureCorrect)).andThen ?_
  refine h.header.bind fun hd hof ↦ ?_
  have hloop := @Fills.parallel _ s keysHolder (.key ∘ v)
    (fun i ↦ span node.blocks left (node.keyBlockIdx i)) 0 node.keys.length
    (Mem.getKeyFromCurNode p keysHolder (bordersOf node) left (left + node.curSize))
    (fun i j hij ↦ disjoint_span fun heq ↦ hij ?_)
    fun i _ hi ↦ h.getKeyFromCurNode hinv hv (by omega)
  · rw [Nat.zero_add] at hloop
    rw [hof.keys_eq]
    exact hloop
  · rw [Node.keyBlockIdx, Node.keyBlockIdx] at heq
    split at heq <;> omega

/-- What the loop over the children asks of the recursive call. -/
def FillsChildren (s : Memory Part (Val T)) (node : Node T) (keysHolder size : ℕ) (v : ℕ → T)
    (self : ℕ → ℕ → ℕ → Code T Unit) : Prop :=
  ∀ (i : ℕ) (child : Node T), node.children[i]? = some (some child) → ∀ a left,
    Stored s child a → child.Holds left v → 0 < child.curSize → left + child.curSize ≤ size →
    Fills s keysHolder (.key ∘ v) (Finset.Ico left (left + child.curSize))
      (self a left (left + child.curSize))

variable {self : ℕ → ℕ → ℕ → Code T Unit} {size : ℕ}
  (hself : FillsChildren s node keysHolder size v self) (hsize : left + node.curSize ≤ size)

include hself hsize

/-- A child is flattened into the place of its block. -/
theorem getKeysFromChild {i : ℕ} (hi : i < node.children.length) :
    Fills s keysHolder (.key ∘ v) (span node.blocks left (2 * i))
      (getKeysFromChild self p (bordersOf node) left (left + node.curSize) i) := by
  have hslot : node.children[i]? = some node.children[i] := List.getElem?_eq_getElem hi
  have hblock := hinv.here.getElem?_blocks_child hslot
  have hidx : 2 * i < node.blocks.length := (List.getElem?_eq_some_iff.1 hblock).1
  have hsucc := offset_succ hblock
  have hle := hinv.offset_le (i := 2 * i + 1) (Nat.succ_le_of_lt hidx)
  -- the two loops of the source test for the last border in different ways
  have hlast : (2 * i < (bordersOf node).length - 1) = (2 * i + 1 < (bordersOf node).length) :=
    propext (by rw [Node.length_borders]; omega)
  rw [span_eq hblock, Mem.getKeysFromChild]
  rw [(hinv.slot hslot).length_live] at hsucc ⊢
  rw [borderAt_eq hidx, Prog.pure_bind, assert_of (by rwa [Node.length_borders]), Prog.pure_bind,
    subtract_of_le (by rw [Node.length_borders]; omega), lift_ok, Prog.pure_bind,
    if_congr (iff_of_eq hlast) rfl rfl, nextBorder_eq hinv (Nat.succ_le_of_lt hidx),
    Prog.pure_bind, hsucc]
  rcases hchild : node.children[i] with - | child
  · rw [hchild] at hslot
    refine Gives.andThen (Gives.readShared (h.child_none hslot) rfl) ?_
    rw [slotSize_none, Nat.add_zero, Finset.Ico_self]
    exact Fills.none rfl
  · rw [hchild] at hslot hblock hsucc
    rw [slotSize_some] at hsucc ⊢
    obtain ⟨a, ha, hstored⟩ := h.child_some hslot
    refine Gives.andThen (Gives.readShared ha rfl) ?_
    dsimp only
    refine Gives.andThen (Gives.readShared hstored.curSize rfl) ?_
    rw [← Nat.add_assoc, subtract_of_le (Nat.le_add_right _ _), lift_ok, Prog.pure_bind,
      Nat.add_sub_cancel_left, assert_of rfl, Prog.pure_bind]
    split
    · refine hself i child hslot a _ hstored (fun j hj ↦ ?_) (by omega) (by omega)
      have hlen := Node.Inv.length_live (hinv.child hslot)
      exact hinv.getElem?_block hv hblock (hj.trans_eq hlen.symm)
    · rw [show child.curSize = 0 by omega, Nat.add_zero, Finset.Ico_self]
      exact Fills.none rfl

/-- The loop over the children. -/
theorem doGetKeysFromChildren :
    Fills s keysHolder (.key ∘ v) (node.childSpans left)
      (doGetKeysFromChildren self p (bordersOf node) left (left + node.curSize)) := by
  refine (h.header.checkStructure _ (require_of hinv.here.isStructureCorrect)).andThen ?_
  refine h.header.bind fun hd hof ↦ ?_
  have hloop := @Fills.parallel _ s keysHolder (.key ∘ v)
    (fun i ↦ span node.blocks left (2 * i)) 0 node.children.length
    (Mem.getKeysFromChild self p (bordersOf node) left (left + node.curSize))
    (fun i j hij ↦ disjoint_span (by omega))
    fun i _ hi ↦ h.getKeysFromChild hinv hv hself hsize (by omega)
  rw [Nat.zero_add] at hloop
  rw [hof.childrenSize_eq]
  exact hloop

end Stored

/-- **`do_get_keys` fills its range with the stored keys of the subtree.** -/
theorem doGetKeys_fills {size fuel : ℕ} : ∀ {node : Node T} {p : ℕ} {I : Set T} {left : ℕ},
    Stored s node p → node.Inv t I → node.height ≤ fuel → node.Holds left v → 0 < node.curSize →
    left + node.curSize ≤ size →
    Fills s keysHolder (.key ∘ v) (Finset.Ico left (left + node.curSize))
      (doGetKeys keysHolder size fuel p left (left + node.curSize)) := by
  induction fuel with
  | zero =>
    intro node p I left _ _ hfuel
    have hheight := Node.height_eq node
    omega
  | succ fuel ih =>
    intro node p I left h hinv hfuel hv hpos hsize
    have hlocal := hinv.here
    have hself :
        Stored.FillsChildren s node keysHolder size v (doGetKeys keysHolder size fuel) := by
      intro i child hchild a l hstored hv' hpos' hsize'
      have hlt := Node.slotHeight_lt (List.mem_of_getElem? hchild)
      rw [slotHeight_some] at hlt
      exact ih hstored (hinv.child hchild) (by omega) hv' hpos' hsize'
    have hsizes :
        (node.blocks.map List.length).length = node.keys.length + node.children.length := by
      rw [List.length_map, hlocal.length_blocks]
    rw [doGetKeys]
    refine (h.header.checkStructure _ (require_of hlocal.isStructureCorrect)).andThen ?_
    rw [assert_of (⟨by omega, by omega, hsize⟩ :
      0 ≤ left ∧ left < left + node.curSize ∧ left + node.curSize ≤ size), Prog.pure_bind]
    refine (h.getSizes _ hinv.getSizes_eq).andThen (h.header.bind fun hd hof ↦ ?_)
    rw [hof.keys_eq, hof.childrenSize_eq, assert_of hsizes, Prog.pure_bind]
    dsimp only
    rw [assert_of ((Node.length_borders node).trans (List.length_map _).symm), Prog.pure_bind]
    refine (h.header.isTerminal _ hlocal.isTerminal_eq).andThen ?_
    rw [← hinv.keySpans_union_childSpans left]
    split
    · rename_i hterm
      have hchildren : node.childSpans left = ∅ := by
        rw [Node.childSpans, of_decide_eq_true hterm]
        rfl
      rw [hchildren, Finset.union_empty]
      exact h.doGetKeysFromCurNode hinv hv
    · rename_i hterm
      have hlen : node.children.length = node.keys.length + 1 :=
        hlocal.children_length.resolve_left (by simpa using hterm)
      rw [assert_of hlen, Prog.pure_bind,
        entriesAt_union (Node.disjoint_keySpans_childSpans node left),
        entriesAt_union (Node.disjoint_keySpans_childSpans node left)]
      exact Gives.fork (h.doGetKeysFromCurNode hinv hv)
        (h.doGetKeysFromChildren hinv hv hself hsize)

/-- **`get_keys` returns the stored keys**, and its array is freed. -/
theorem Stored.getKeys (h : Stored s node p) (hinv : node.Inv t I)
    (hfuel : node.height ≤ maxDepth) : Gives s 0 (getKeys p) node.live 0 := by
  have hlen := Node.Inv.length_live hinv
  refine (h.header.checkStructure _ (require_of hinv.here.isStructureCorrect)).andThen ?_
  refine Gives.andThen (Gives.readShared h.curSize rfl) ?_
  split
  · rename_i hzero
    rw [List.length_eq_zero_iff.1 (hlen.trans hzero)]
    exact Gives.ret
  · rename_i hpos
    obtain ⟨x, -⟩ := List.exists_mem_of_ne_nil node.keys hinv.here.keys_ne_nil
    have hholds : node.Holds 0 fun p ↦ (node.live[p]?).getD x := by
      intro j hj
      show node.live[j]? = some ((node.live[0 + j]?).getD x)
      rw [Nat.zero_add, List.getElem?_eq_getElem (by omega), Option.getD_some]
    refine (newArray_spec _).bind fun keysHolder ↦ ?_
    have hfill := @doGetKeys_fills T _ s t keysHolder _ node.curSize maxDepth node p I 0 h hinv
      hfuel hholds (by omega) (by omega)
    rw [Nat.zero_add, ← Finset.range_eq_Ico] at hfill
    refine hfill.bind (takeArray_spec hlen fun i a ha ↦ ?_)
    rw [Function.comp_apply, ha]
    rfl

end Mem

end Pbist
