import Pbist.Functional.Policy
import Pbist.Refinement.Build
import Pbist.Refinement.Dump
import Mathlib.Logic.Relation

/-!
# The recursion of building

`do_build_from_keys` on a range calls itself on the ranges of the cells, which `cellRange` lists as
`do_build_single_cell` computes them. Two things are proved of this recursion. It ends, on ever
shorter ranges and with a representative for every node, exactly when the size threshold is at least
1 or there are no keys: with the threshold 0 a single key is one cell of its own range. Where it
ends it is lossless, and the cells and the representatives tile every range.

## The main results, and what each rests on

* `calls_iff`: the recursive calls of `do_build_from_keys` are those that `BuildCall` lists. The one
  direction is that the body depends on no other call (`buildRange_congr`), the other that it
  returns only if all of them do (`exists_of_buildRange_eq_ok`). It is about the body of the
  function with arbitrary functions in the place of the recursive calls, and needs no fuel.
* `buildsProperly_iff` rests on the ranges of the cells being shorter than that of their caller
  (`cellRange_shrinks`), which needs two keys, and for the threshold 0 on the first cell of a range
  with keys having keys again (`doBuildFromKeys_zero_ne_ok`).
* `build_tiles` is about the tree that is returned. `Tiles` follows this tree from the root and
  `FillsCells` says of each inner node how its range was divided: by counting (`existsUnique_uses`),
  and by the run of the loop that fills the arrays of the node (`exists_buildCells`). A cell that
  was constructed before may not be constructed again (`Buffer.construct`), so each is constructed
  once.
-/

namespace Pbist

open Checked Sorted

/-! ### Ranges and cells -/

/-- `block_size` of a range. -/
def blockSize (range : ℕ × ℕ) : ℕ :=
  Nat.sqrt (range.2 - range.1)

/-- `rep_size` of a range. -/
def repSize (range : ℕ × ℕ) : ℕ :=
  repCount (range.2 - range.1)

/-- `start_idx` and `end_idx` of child `childIdx` of a range. -/
def cellRange (range : ℕ × ℕ) (childIdx : ℕ) : ℕ × ℕ :=
  let startIdx := range.1 + childIdx * (blockSize range + 1)
  (startIdx, if childIdx < repSize range then startIdx + blockSize range else range.2)

/-- The index of the key that becomes representative `repIdx` of a range. -/
def repIndex (range : ℕ × ℕ) (repIdx : ℕ) : ℕ :=
  range.1 + repIdx * (blockSize range + 1) + blockSize range

/-- The recursive calls: on a range of more than `t` keys, `do_build_from_keys` calls itself for
every cell and makes no other call (`calls_iff`). -/
inductive BuildCall (t : ℕ) (range : ℕ × ℕ) : ℕ × ℕ → Prop
  | cell (hbig : t < range.2 - range.1) (childIdx : ℕ) (h : childIdx ≤ repSize range) :
      BuildCall t range (cellRange range childIdx)

/-- The ranges that a call of `do_build_from_keys` on `range` reaches. -/
abbrev BuildReaches (t : ℕ) (range sub : ℕ × ℕ) : Prop :=
  Relation.ReflTransGen (BuildCall t) range sub

/-- The number of representatives that a call of `do_build_from_keys` hands to the constructor. -/
def repsPassed (t : ℕ) (range : ℕ × ℕ) : ℕ :=
  if range.2 - range.1 ≤ t then range.2 - range.1 else repSize range

section Ranges

variable {range : ℕ × ℕ}

theorem repSize_mul_le (range : ℕ × ℕ) :
    repSize range * (blockSize range + 1) ≤ range.2 - range.1 :=
  repCount_mul_le _

theorem lt_repSize_mul (range : ℕ × ℕ) :
    range.2 - range.1 < repSize range * (blockSize range + 1) + (blockSize range + 1) :=
  (lt_repCount_mul _).trans_eq (Nat.succ_mul _ _)

theorem cellRange_start_le {childIdx : ℕ} (hrange : range.1 ≤ range.2)
    (h : childIdx ≤ repSize range) : (cellRange range childIdx).1 ≤ range.2 := by
  have hmul : childIdx * (blockSize range + 1) ≤ repSize range * (blockSize range + 1) :=
    Nat.mul_le_mul_right _ h
  have hle := repSize_mul_le range
  rw [cellRange]
  dsimp only
  omega

/-- Every cell but the last one has exactly `block_size` keys. -/
theorem cellRange_of_lt {childIdx : ℕ} (h : childIdx < repSize range) :
    (cellRange range childIdx).2 = (cellRange range childIdx).1 + blockSize range ∧
      (cellRange range childIdx).2 = repIndex range childIdx := by
  rw [cellRange, repIndex, if_pos h]
  exact ⟨rfl, rfl⟩

theorem repIndex_lt {repIdx : ℕ} (h : repIdx < repSize range) :
    repIndex range repIdx < range.2 := by
  have hmul : (repIdx + 1) * (blockSize range + 1) ≤ repSize range * (blockSize range + 1) :=
    Nat.mul_le_mul_right _ h
  have hle := repSize_mul_le range
  rw [Nat.succ_mul] at hmul
  rw [repIndex]
  omega

/-- The last cell has what is left over, at most `block_size` keys. -/
theorem cellRange_last (range : ℕ × ℕ) : (cellRange range (repSize range)).2 = range.2 ∧
    range.2 ≤ (cellRange range (repSize range)).1 + blockSize range := by
  have hlt := lt_repSize_mul range
  rw [cellRange, if_neg (lt_irrefl _)]
  dsimp only
  omega

/-- A cell lies in its range and has at most `block_size` keys. -/
theorem cellRange_spec {childIdx : ℕ} (hrange : range.1 ≤ range.2) (h : childIdx ≤ repSize range) :
    range.1 ≤ (cellRange range childIdx).1 ∧
      (cellRange range childIdx).1 ≤ (cellRange range childIdx).2 ∧
      (cellRange range childIdx).2 ≤ range.2 ∧
      (cellRange range childIdx).2 ≤ (cellRange range childIdx).1 + blockSize range := by
  have hstart := cellRange_start_le hrange h
  refine ⟨Nat.le_add_right _ _, ?_⟩
  rcases h.lt_or_eq with hlt | rfl
  · obtain ⟨hend, hrep⟩ := cellRange_of_lt hlt
    have := repIndex_lt hlt
    omega
  · obtain ⟨hend, hlast⟩ := cellRange_last range
    omega

/-- The range of a cell of at least two keys is shorter than the range. -/
theorem cellRange_shrinks {childIdx : ℕ} (hrange : 1 < range.2 - range.1)
    (h : childIdx ≤ repSize range) :
    (cellRange range childIdx).2 - (cellRange range childIdx).1 < range.2 - range.1 := by
  have hspec := cellRange_spec (by omega) h
  have hsqrt : blockSize range < range.2 - range.1 := Nat.sqrt_lt_self hrange
  omega

/-- What is reached from a range lies in it. -/
theorem BuildReaches.within {t : ℕ} {sub : ℕ × ℕ} (h : BuildReaches t range sub)
    (hrange : range.1 ≤ range.2) : range.1 ≤ sub.1 ∧ sub.1 ≤ sub.2 ∧ sub.2 ≤ range.2 := by
  induction h with
  | refl => exact ⟨le_rfl, hrange, le_rfl⟩
  | tail _ hcall ih =>
    obtain ⟨-, childIdx, hchild⟩ := hcall
    have hspec := cellRange_spec ih.2.1 hchild
    omega

/-! ### The cells tile the range -/

/-- What index `i` of a range is used for: `.inl j` for representative `j`, `.inr j` for child
`j`. -/
inductive Uses (range : ℕ × ℕ) (i : ℕ) : ℕ ⊕ ℕ → Prop
  | rep (repIdx : ℕ) (h : repIdx < repSize range) (hi : i = repIndex range repIdx) :
      Uses range i (.inl repIdx)
  | cell (childIdx : ℕ) (h : childIdx ≤ repSize range) (hlo : (cellRange range childIdx).1 ≤ i)
      (hhi : i < (cellRange range childIdx).2) : Uses range i (.inr childIdx)

/-- The use of an index, by its offset from the beginning of the range: the last offset of a block
of `block_size + 1` keys is that of the representative. -/
theorem Uses.offset (hrange : range.1 ≤ range.2) {i : ℕ} {use : ℕ ⊕ ℕ} (h : Uses range i use) :
    use = if (i - range.1) % (blockSize range + 1) = blockSize range then
        .inl ((i - range.1) / (blockSize range + 1))
      else .inr ((i - range.1) / (blockSize range + 1)) := by
  have hdecompose : ∀ {j m : ℕ}, i - range.1 = m + j * (blockSize range + 1) →
      m < blockSize range + 1 →
      (i - range.1) % (blockSize range + 1) = m ∧ (i - range.1) / (blockSize range + 1) = j := by
    intro j m heq hm
    rw [heq, Nat.add_mul_mod_self_right, Nat.mod_eq_of_lt hm,
      Nat.add_mul_div_right _ _ (Nat.succ_pos _), Nat.div_eq_of_lt hm, Nat.zero_add]
    exact ⟨rfl, rfl⟩
  cases h with
  | rep j hj hi =>
    rw [repIndex] at hi
    obtain ⟨hmod, hdiv⟩ := hdecompose (j := j) (m := blockSize range) (by omega) (by omega)
    rw [if_pos hmod, hdiv]
  | cell j hj hlo hhi =>
    have hspec := cellRange_spec hrange hj
    have hstart : (cellRange range j).1 = range.1 + j * (blockSize range + 1) := rfl
    obtain ⟨hmod, hdiv⟩ := hdecompose (j := j) (m := i - (cellRange range j).1) (by omega)
      (by omega)
    rw [if_neg (by omega), hdiv]

/-- **Every index of a range is used exactly once**, for a representative or inside one cell. -/
theorem existsUnique_uses {i : ℕ} (hlo : range.1 ≤ i) (hhi : i < range.2) :
    ∃! use, Uses range i use := by
  refine existsUnique_of_exists_of_unique ?_ fun use use' h h' ↦
    (h.offset (hlo.trans hhi.le)).trans (h'.offset (hlo.trans hhi.le)).symm
  have hdecompose := Nat.div_add_mod' (i - range.1) (blockSize range + 1)
  have hmod : (i - range.1) % (blockSize range + 1) < blockSize range + 1 :=
    Nat.mod_lt _ (Nat.succ_pos _)
  set q := (i - range.1) / (blockSize range + 1)
  set m := (i - range.1) % (blockSize range + 1)
  have hq : q ≤ repSize range := by
    have hlt := lt_repSize_mul range
    rw [← Nat.succ_mul] at hlt
    exact Nat.lt_succ_iff.1 (lt_of_mul_lt_mul_right (show q * (blockSize range + 1) < _ by omega)
      (Nat.zero_le _))
  by_cases hrep : m = blockSize range ∧ q < repSize range
  · refine ⟨.inl q, .rep q hrep.2 ?_⟩
    rw [repIndex]
    omega
  · have hstart : (cellRange range q).1 = range.1 + q * (blockSize range + 1) := rfl
    refine ⟨.inr q, .cell q hq (by omega) ?_⟩
    rcases hq.lt_or_eq with hlt | heq
    · have hend := (cellRange_of_lt hlt).1
      omega
    · have hend := (cellRange_last range).1
      rw [← heq] at hend
      omega

end Ranges

/-! ### The calls that the code makes -/

section Calls

variable {T : Type} {A : Arith T} {keys : List T} {t : ℕ} {range sub : ℕ × ℕ} {σ σ' : Schedule}
  {build build' : ℕ → ℕ → ℕ → Checked (Option (Node T))}

/-- `do_build_from_keys` on `range` calls itself on `sub`: what its body returns depends on what the
calls on `sub` return. -/
def Calls (A : Arith T) (keys : List T) (t : ℕ) (range sub : ℕ × ℕ) : Prop :=
  ∃ (σ : Schedule) (build build' : ℕ → ℕ → ℕ → Checked (Option (Node T))),
    (∀ childIdx lo hi, (lo, hi) ≠ sub → build childIdx lo hi = build' childIdx lo hi) ∧
      buildRange A keys t build σ range.1 range.2 ≠ buildRange A keys t build' σ range.1 range.2

/-- The iteration for a child calls `do_build_from_keys` for the range of its cell only. -/
theorem doBuildSingleCell_congr {build build' : ℕ → ℕ → Checked (Option (Node T))} {childIdx : ℕ}
    (h : build (cellRange range childIdx).1 (cellRange range childIdx).2 =
      build' (cellRange range childIdx).1 (cellRange range childIdx).2) :
    doBuildSingleCell keys build (blockSize range) (repSize range) range.1 range.2 childIdx =
      doBuildSingleCell keys build' (blockSize range) (repSize range) range.1 range.2 childIdx := by
  funext cells
  rw [cellRange] at h
  rw [doBuildSingleCell, doBuildSingleCell]
  split
  · rename_i hlt
    rw [if_pos hlt] at h
    dsimp only at h ⊢
    rw [h]
  · rename_i hge
    rw [if_neg hge] at h
    dsimp only at h ⊢
    rw [h]

/-- The iteration for a child returns only if its call does. -/
theorem exists_of_doBuildSingleCell_eq_ok {build : ℕ → ℕ → Checked (Option (Node T))}
    {childIdx : ℕ} {cells cells' : Buffer T × Buffer (Option (Node T))}
    (h : doBuildSingleCell keys build (blockSize range) (repSize range) range.1 range.2 childIdx
      cells = .ok cells') :
    ∃ child, build (cellRange range childIdx).1 (cellRange range childIdx).2 = .ok child := by
  rw [cellRange]
  rw [doBuildSingleCell] at h
  split at h
  · rename_i hlt
    simp only [bind_eq_ok] at h
    obtain ⟨-, -, -, -, child, hchild, -⟩ := h
    exact ⟨child, by rw [if_pos hlt]; exact hchild⟩
  · rename_i hge
    simp only [bind_eq_ok] at h
    obtain ⟨-, -, child, hchild, -⟩ := h
    exact ⟨child, by rw [if_neg hge]; exact hchild⟩

/-- The body of `do_build_from_keys` on a range that is cut into cells. -/
theorem buildRange_of_lt (hbig : t < range.2 - range.1) :
    buildRange A keys t build σ range.1 range.2 = (do
      let cells ← buildCells keys build σ (blockSize range) (repSize range) range.1 range.2
      pure (some (← Node.new A (← Buffer.freeze cells.1) (← Buffer.freeze cells.2)
        (range.2 - range.1)))) := by
  rw [buildRange, require_of (show range.1 ≤ range.2 by omega), ok_bind, if_neg (by omega),
    subtract_of_le (by omega), ok_bind, if_neg (by omega)]
  rfl

/-- The body of `do_build_from_keys` on other ranges makes no recursive calls. -/
theorem buildRange_of_le (hsmall : range.2 - range.1 ≤ t) :
    buildRange A keys t build σ range.1 range.2 =
      buildRange A keys t build' σ' range.1 range.2 := by
  rw [buildRange, buildRange]
  by_cases hle : range.1 ≤ range.2
  · rw [require_of hle, ok_bind, ok_bind, subtract_of_le hle, ok_bind, ok_bind, if_pos hsmall,
      if_pos hsmall]
  · rw [require, if_neg hle]
    rfl

/-- The body of `do_build_from_keys` depends on the calls in `BuildCall` only. -/
theorem buildRange_congr (h : ∀ childIdx sub, BuildCall t range sub →
      build childIdx sub.1 sub.2 = build' childIdx sub.1 sub.2) :
    buildRange A keys t build σ range.1 range.2 = buildRange A keys t build' σ range.1 range.2 := by
  rcases Nat.lt_or_ge t (range.2 - range.1) with hbig | hsmall
  · have hcells : buildCells keys build σ (blockSize range) (repSize range) range.1 range.2 =
        buildCells keys build' σ (blockSize range) (repSize range) range.1 range.2 := by
      rw [buildCells, buildCells]
      refine bind_congr fun _ ↦ congrFun (parallelFor_congr fun i _ hi ↦ ?_) _
      exact doBuildSingleCell_congr (h i _ (.cell hbig i (Nat.lt_succ_iff.1 hi)))
    rw [buildRange_of_lt hbig, buildRange_of_lt hbig, hcells]
  · exact buildRange_of_le hsmall

/-- **The body of `do_build_from_keys` returns only if all calls in `BuildCall` do.** -/
theorem exists_of_buildRange_eq_ok {slot : Option (Node T)}
    (h : buildRange A keys t build σ range.1 range.2 = .ok slot) (hcall : BuildCall t range sub) :
    ∃ childIdx child, build childIdx sub.1 sub.2 = .ok child := by
  obtain ⟨hbig, childIdx, hchild⟩ := hcall
  rw [buildRange_of_lt hbig] at h
  obtain ⟨cells, hcells, -⟩ := bind_eq_ok.1 h
  obtain ⟨-, -, hloop⟩ := bind_eq_ok.1 hcells
  obtain ⟨cells₁, cells₂, hbody⟩ :=
    exists_of_parallelFor_eq_ok hloop (Nat.zero_le childIdx) (Nat.lt_succ_of_le hchild)
  exact ⟨childIdx, exists_of_doBuildSingleCell_eq_ok hbody⟩

/-- The code makes no calls but those in `BuildCall`. -/
theorem Calls.buildCall (h : Calls A keys t range sub) : BuildCall t range sub := by
  obtain ⟨σ, build, build', hagree, hne⟩ := h
  by_contra hcall
  exact hne (buildRange_congr fun childIdx sub' hcall' ↦
    hagree childIdx _ _ fun heq ↦ hcall (heq ▸ hcall'))

/-- **The recursive calls of `do_build_from_keys` are those in `BuildCall`**: where all calls return
trees, the failure of one of them is noticed. -/
theorem calls_iff [LinearOrder T] (hA : A.Exact) (ht : 1 ≤ t) (hle : range.1 ≤ range.2)
    (hright : range.2 ≤ keys.length) (hsorted : (part keys range.1 range.2).SortedLT) :
    Calls A keys t range sub ↔ BuildCall t range sub := by
  refine ⟨Calls.buildCall, fun hcall ↦ ?_⟩
  let build : ℕ → ℕ → ℕ → Checked (Option (Node T)) :=
    fun _ lo hi ↦ .ok (buildTree A t (part keys lo hi))
  refine ⟨.sequential, build, fun childIdx lo hi ↦
    if (lo, hi) = sub then .error .outOfFuel else build childIdx lo hi,
    fun childIdx lo hi hne ↦ (if_neg hne).symm, fun heq ↦ ?_⟩
  have hrun : buildRange A keys t build .sequential range.1 range.2 = _ :=
    buildRange_eq hA ht hle hright hsorted fun _ _ _ _ _ _ _ ↦ rfl
  obtain ⟨childIdx, child, hchild⟩ := exists_of_buildRange_eq_ok (heq.symm.trans hrun) hcall
  rw [if_pos rfl] at hchild
  exact nomatch hchild

/-- With the threshold 0 no call on a range with keys returns: the first cell of every such range
has keys again. -/
theorem doBuildFromKeys_zero_ne_ok {fuel : ℕ} : ∀ {σ : Schedule} {range : ℕ × ℕ}
    {slot : Option (Node T)}, range.1 < range.2 →
      doBuildFromKeys A keys 0 fuel σ range.1 range.2 ≠ .ok slot := by
  induction fuel with
  | zero =>
    intro σ range slot _ h
    exact absurd h (by simp [doBuildFromKeys])
  | succ fuel ih =>
    intro σ range slot hlt h
    have hsqrt : 0 < blockSize range := Nat.sqrt_pos.2 (by omega)
    -- the first cell has a key again, and a recursive call with less fuel cannot return for it
    have hkeys : (cellRange range 0).1 < (cellRange range 0).2 := by
      rw [cellRange]
      split <;> omega
    obtain ⟨childIdx, child, hchild⟩ :=
      exists_of_buildRange_eq_ok h (.cell (by omega) 0 (Nat.zero_le _))
    exact ih hkeys hchild

/-- With the threshold 0, the only cell of a single key is the range of its caller. -/
theorem buildCall_single (i : ℕ) : BuildCall 0 (i, i + 1) (i, i + 1) := by
  have hrep : repSize (i, i + 1) = 0 := by
    rw [repSize]
    simp
  have hcell : cellRange (i, i + 1) 0 = (i, i + 1) := by
    rw [cellRange, hrep]
    simp
  have hcall := @BuildCall.cell 0 (i, i + 1) (by simp) 0 (Nat.zero_le _)
  rwa [hcell] at hcall

end Calls

section Build

variable {T : Type} [LinearOrder T] {A : Arith T} {keys : List T} {t : ℕ}

/-! ### Termination -/

omit [LinearOrder T] in
theorem part_eq_nil_iff {left right : ℕ} (hle : left ≤ right) (hright : right ≤ keys.length) :
    part keys left right = [] ↔ left = right := by
  rw [← List.length_eq_zero_iff, length_part hright]
  omega

/-- Building from `keys` with the threshold `t` is well-founded: given more fuel than there are keys
it returns, in every order of its loops and with a key in every node; every recursive call gets a
shorter range than its caller; and every call on a range with keys has a representative for the node
that it constructs. -/
structure BuildsProperly (A : Arith T) (t : ℕ) (keys : List T) : Prop where
  returns : ∃ slot, (∀ (σ : Schedule) (fuel : ℕ), keys.length < fuel →
      doBuildFromKeys A keys t fuel σ 0 keys.length = .ok slot) ∧
    SlotEverywhere (fun _ node ↦ 0 < node.keys.length) Set.univ slot
  /-- The recursive calls below are those that the code makes. -/
  calls : ∀ range sub, BuildReaches t (0, keys.length) range →
    (Calls A keys t range sub ↔ BuildCall t range sub)
  shrinks : ∀ range sub, BuildReaches t (0, keys.length) range → BuildCall t range sub →
    sub.2 - sub.1 < range.2 - range.1
  represented : ∀ range, BuildReaches t (0, keys.length) range → range.1 < range.2 →
    0 < repsPassed t range ∧ ∀ (σ : Schedule) (fuel : ℕ), range.2 - range.1 < fuel →
      ∃ node, doBuildFromKeys A keys t fuel σ range.1 range.2 = .ok (some node) ∧
        node.keys.length = repsPassed t range

omit [LinearOrder T] in
/-- A node that is built from a range has the representatives that were passed. -/
theorem length_keys_of_buildTree (ht : 1 ≤ t) {range : ℕ × ℕ} (hright : range.2 ≤ keys.length)
    {node : Node T} (h : buildTree A t (part keys range.1 range.2) = some node) :
    node.keys.length = repsPassed t range := by
  have hlen : (part keys range.1 range.2).length = range.2 - range.1 := length_part hright
  have hne : part keys range.1 range.2 ≠ [] := fun hnil ↦ by
    rw [hnil, buildTree_nil] at h
    exact nomatch h
  rw [repsPassed]
  split
  · rename_i hsmall
    rw [buildTree_terminal hne (.inl (by omega))] at h
    exact Option.some.inj h ▸ hlen
  · rename_i hbig
    rw [buildTree_inner (by omega)] at h
    exact Option.some.inj h ▸ (length_cellReps (repCount_mul_le _)).trans (by rw [hlen, repSize])

namespace BuildsProperly

/-- With a threshold of at least 1, a range that is cut into cells has two keys at least. -/
theorem of_one_le (hA : A.Exact) (h : keys.SortedLT) (ht : 1 ≤ t) : BuildsProperly A t keys where
  returns := by
    refine ⟨buildTree A t keys, fun σ fuel hfuel ↦ ?_, fun root hroot ↦ ?_⟩
    · have hrun := doBuildFromKeys_eq (σ := σ) hA ht (Nat.zero_le _) le_rfl (by rwa [part_self])
        hfuel
      rwa [part_self] at hrun
    · exact (slotInv_buildTree hA ht h (fun x _ ↦ Set.mem_univ x) root hroot).imp
        fun _ _ hlocal ↦ hlocal.keys_pos
  calls range sub hreach := by
    have hwithin := hreach.within (Nat.zero_le _)
    exact calls_iff hA ht hwithin.2.1 hwithin.2.2
      (h.pairwise.sublist (part_sublist keys _ _)).sortedLT
  shrinks range sub _ hcall := by
    obtain ⟨hbig, childIdx, hchild⟩ := hcall
    exact cellRange_shrinks (by omega) hchild
  represented range hreach hlt := by
    have hright : range.2 ≤ keys.length := (hreach.within (Nat.zero_le _)).2.2
    refine ⟨?_, fun σ fuel hfuel ↦ ?_⟩
    · rw [repsPassed]
      split
      · omega
      · exact repCount_pos (by omega)
    · obtain ⟨node, hnode⟩ : ∃ node, buildTree A t (part keys range.1 range.2) = some node :=
        Option.ne_none_iff_exists'.1 <|
          mt ((buildTree_eq_none_iff.trans (part_eq_nil_iff hlt.le hright)).1) hlt.ne
      exact ⟨node, (doBuildFromKeys_eq hA ht hlt.le hright
        (h.pairwise.sublist (part_sublist keys _ _)).sortedLT hfuel).trans (congrArg _ hnode),
        length_keys_of_buildTree ht hright hnode⟩

/-- Without keys, the only call is that on the empty range. -/
theorem nil : BuildsProperly A t [] := by
  have hempty : ∀ range, BuildReaches t (0, 0) range → range.1 = range.2 := by
    intro range hreach
    have := hreach.within le_rfl
    omega
  have hcall : ∀ range sub, BuildReaches t (0, 0) range → ¬BuildCall t range sub := by
    rintro range sub hreach ⟨hbig, -, -⟩
    have := hempty range hreach
    omega
  refine ⟨⟨none, fun σ fuel hfuel ↦ ?_, slotEverywhere_none⟩, fun range sub hreach ↦ ?_,
    fun range sub hreach h ↦ ?_, fun range hreach hlt ↦ ?_⟩
  · obtain ⟨fuel, rfl⟩ : ∃ f, fuel = f + 1 := ⟨fuel - 1, by omega⟩
    rfl
  · exact ⟨Calls.buildCall, fun h ↦ absurd h (hcall range sub hreach)⟩
  · exact absurd h (hcall range sub hreach)
  · exact absurd (hempty range hreach) hlt.ne

/-- With the threshold 0 and keys, not even the first call returns. -/
theorem one_le_or_eq_nil (h : BuildsProperly A t keys) : 1 ≤ t ∨ keys = [] := by
  obtain ⟨slot, hrun, -⟩ := h.returns
  by_contra hcon
  obtain ⟨ht, hne⟩ := not_or.1 hcon
  obtain rfl : t = 0 := by omega
  have hlt : (0, keys.length).1 < (0, keys.length).2 := List.length_pos_iff.2 hne
  exact doBuildFromKeys_zero_ne_ok hlt (hrun .sequential _ (Nat.lt_succ_self _))

end BuildsProperly

/-- **Building is well-founded exactly when the threshold is at least 1 or there are no keys.** -/
theorem buildsProperly_iff (hA : A.Exact) (h : keys.SortedLT) :
    BuildsProperly A t keys ↔ 1 ≤ t ∨ keys = [] := by
  refine ⟨fun hbuild ↦ hbuild.one_le_or_eq_nil, ?_⟩
  rintro (ht | rfl)
  · exact .of_one_le hA h ht
  · exact .nil

/-- Three keys with the smallest good threshold. -/
theorem buildsProperly_iff_three :
    BuildsProperly (int32 .trapping) 1 ([1, 2, 3].map I32.small) :=
  (buildsProperly_iff (int32_exact .trapping) (by decide)).2 (.inl le_rfl)

/-- A single key with the threshold 0: the call on its range calls itself, and never returns. -/
theorem not_buildsProperly_single :
    ¬BuildsProperly (int32 .trapping) 0 [I32.small 1] ∧ BuildCall 0 (0, 1) (0, 1) ∧
      ∀ fuel σ slot, doBuildFromKeys (int32 .trapping) [I32.small 1] 0 fuel σ 0 1 ≠ .ok slot :=
  ⟨fun h ↦ absurd (h.shrinks (0, 1) (0, 1) .refl (buildCall_single 0)) (lt_irrefl _),
    buildCall_single 0, fun _ _ _ ↦ doBuildFromKeys_zero_ne_ok (show (0, 1).1 < (0, 1).2 by decide)⟩

/-! ### Losslessness and tiling -/

/-- A node of a tree that was just built: all its keys are stored, it is ordered as a search tree,
and both its sizes are the number of keys below it. -/
structure Node.Built (node : Node T) : Prop where
  exist_length : node.keysExist.length = node.keys.length
  exist : ∀ e ∈ node.keysExist, e = true
  sorted : node.keys.SortedLT
  /-- All keys below child `i` lie strictly between keys `i - 1` and `i`. -/
  between : ∀ (i : ℕ) (child : Node T), node.children[i]? = some (some child) →
    ∀ x ∈ child.allKeys, (∀ k, 0 < i → node.keys[i - 1]? = some k → k < x) ∧
      ∀ k, node.keys[i]? = some k → x < k
  initialSize_eq : node.initialSize = node.live.length
  curSize_eq : node.curSize = node.live.length

theorem built_buildTree (hA : A.Exact) (ht : 1 ≤ t) (h : keys.SortedLT) :
    SlotEverywhere (fun _ node ↦ node.Built) Set.univ (buildTree A t keys) := by
  intro root hroot
  have hinv : root.Inv t Set.univ := slotInv_buildTree hA ht h (fun x _ ↦ Set.mem_univ x) root hroot
  have hfresh := @everywhere_buildTree T _ A t
    (fun _ node ↦ node.initialSize = node.curSize ∧ ∀ e ∈ node.keysExist, e = true)
    (fun I keys node hnode ↦ by
      obtain ⟨hinitial, hcur, -, hexist⟩ := buildTree_counters hnode
      exact ⟨hinitial.trans hcur.symm, hexist⟩) keys Set.univ root hroot
  refine (hinv.subtrees.and hfresh).imp fun I node ⟨hinv, hsize, hexist⟩ ↦ ?_
  have hlive := Node.Inv.length_live hinv
  exact
    { exist_length := hinv.here.exist_length
      exist := hexist
      sorted := hinv.here.sorted
      between := fun i child hchild x hx ↦
        (mem_gap_iff_neighbours hinv.here.sorted (hinv.here.index_le hchild)).1
          (Node.Inv.allKeys_mem (hinv.child hchild) x hx).2
      initialSize_eq := hsize.trans hlive.symm
      curSize_eq := hlive.symm }

/-- How `do_build_from_keys` makes `node` of a range that is cut into cells: every index of the
range has exactly one use, all cells but the last have exactly `block_size` keys, and the node gets
the arrays that the loop over the cells constructs, every cell of them exactly once. -/
structure FillsCells (A : Arith T) (t : ℕ) (keys : List T) (range : ℕ × ℕ) (node : Node T) :
    Prop where
  once : ∀ i, range.1 ≤ i → i < range.2 → ∃! use, Uses range i use
  within : ∀ i use, Uses range i use → range.1 ≤ i ∧ i < range.2
  regular : ∀ childIdx < repSize range,
    (cellRange range childIdx).2 = (cellRange range childIdx).1 + blockSize range
  last : (cellRange range (repSize range)).2 ≤
    (cellRange range (repSize range)).1 + blockSize range
  reps_length : node.keys.length = repSize range
  children_length : node.children.length = repSize range + 1
  /-- The representatives of the node are the keys between the cells. -/
  rep : ∀ repIdx < repSize range, node.keys[repIdx]? = keys[repIndex range repIdx]?
  /-- A child of the node has the keys of its cell, and it is null when the cell is empty. -/
  child : ∀ childIdx ≤ repSize range, ∃ child, node.children[childIdx]? = some child ∧
    slotLive child = part keys (cellRange range childIdx).1 (cellRange range childIdx).2 ∧
    (child = none ↔ (cellRange range childIdx).1 = (cellRange range childIdx).2)
  /-- The node is what the function returns, and has the contents of the arrays that its loop
  fills. -/
  loop : ∀ (σ : Schedule) (fuel : ℕ), range.2 - range.1 ≤ fuel →
    doBuildFromKeys A keys t (fuel + 1) σ range.1 range.2 = .ok (some node) ∧
    ∃ cells, buildCells keys (fun childIdx ↦ doBuildFromKeys A keys t fuel (σ.sub childIdx)) σ
        (blockSize range) (repSize range) range.1 range.2 = .ok cells ∧
      Buffer.WrittenOnce (fun repIdx rep ↦ keys[repIndex range repIdx]? = some rep)
        0 (repSize range) (Buffer.raw (repSize range)) cells.1 ∧
      Buffer.WrittenOnce (fun childIdx child ↦ ∀ τ, doBuildFromKeys A keys t fuel τ
          (cellRange range childIdx).1 (cellRange range childIdx).2 = .ok child)
        0 (repSize range + 1) (Buffer.raw (repSize range + 1)) cells.2 ∧
      Buffer.freeze cells.1 = .ok node.keys ∧ Buffer.freeze cells.2 = .ok node.children

/-- What `do_build_from_keys` makes of a range, at all levels of the tree: null of an empty range, a
terminal node of a range of at most `t` keys, and otherwise an inner node whose children are made of
the cells in the same way. -/
inductive Tiles (A : Arith T) (t : ℕ) (keys : List T) : ℕ × ℕ → Option (Node T) → Prop
  | null {range : ℕ × ℕ} (h : range.1 = range.2) : Tiles A t keys range none
  | terminal {range : ℕ × ℕ} {node : Node T} (hlt : range.1 < range.2)
      (hsmall : range.2 - range.1 ≤ t) (hkeys : node.keys = part keys range.1 range.2)
      (hchildren : node.children = []) : Tiles A t keys range (some node)
  | inner {range : ℕ × ℕ} {node : Node T} (hbig : t < range.2 - range.1)
      (hcells : FillsCells A t keys range node)
      (below : ∀ childIdx child, node.children[childIdx]? = some child →
        Tiles A t keys (cellRange range childIdx) child) : Tiles A t keys range (some node)

theorem getElem?_map_range {α : Type} {f : ℕ → α} {n i : ℕ} (h : i < n) :
    ((List.range n).map f)[i]? = some (f i) := by
  rw [List.getElem?_map, List.getElem?_range h, Option.map_some]

omit [LinearOrder T] in
/-- The keys of a cell are those of its range. -/
theorem cell_eq_part {range : ℕ × ℕ} {childIdx : ℕ} (hrange : range.1 ≤ range.2)
    (h : childIdx ≤ repSize range) :
    (cellRange range childIdx).2 =
        min (range.1 + childIdx * (blockSize range + 1) + blockSize range) range.2 ∧
      cell (blockSize range) childIdx (part keys range.1 range.2) =
        part keys (cellRange range childIdx).1 (cellRange range childIdx).2 := by
  have hspec := cellRange_spec hrange h
  have hstart : (cellRange range childIdx).1 =
    range.1 + childIdx * (blockSize range + 1) := rfl
  have hend : (cellRange range childIdx).2 =
      min (range.1 + childIdx * (blockSize range + 1) + blockSize range) range.2 := by
    rcases h.lt_or_eq with hlt | rfl
    · have := cellRange_of_lt hlt
      omega
    · have := cellRange_last range
      omega
  refine ⟨hend, ?_⟩
  rw [cell_part (by omega), hend]
  rfl

/-- An index is used only if it lies in the range. -/
theorem Uses.within {range : ℕ × ℕ} (hrange : range.1 ≤ range.2) {i : ℕ} {use : ℕ ⊕ ℕ}
    (h : Uses range i use) : range.1 ≤ i ∧ i < range.2 := by
  cases h with
  | rep j hj hi =>
    have := repIndex_lt hj
    rw [hi]
    exact ⟨Nat.le_add_right_of_le (Nat.le_add_right _ _), this⟩
  | cell j hj hlo hhi =>
    have := cellRange_spec hrange hj
    omega

section Cells

variable (hA : A.Exact) (ht : 1 ≤ t) {range : ℕ × ℕ} (hbig : t < range.2 - range.1)
  (hright : range.2 ≤ keys.length) (hsorted : (part keys range.1 range.2).SortedLT)

include hbig hright

omit [LinearOrder T] in
/-- The node of a range that is cut into cells. -/
theorem buildTree_range (ht : 1 ≤ t) : buildTree A t (part keys range.1 range.2) =
    some (freshNode A (cellReps (blockSize range) (repSize range) (part keys range.1 range.2))
      ((List.range (repSize range + 1)).map fun childIdx ↦
        buildTree A t (cell (blockSize range) childIdx (part keys range.1 range.2)))
      (range.2 - range.1)) := by
  have hlen : (part keys range.1 range.2).length = range.2 - range.1 := length_part hright
  rw [buildTree_inner (by omega), hlen]
  rfl

include hA ht hsorted

/-- The recursive call for a cell returns the tree of its keys. -/
theorem doBuildFromKeys_cellRange {fuel childIdx : ℕ} (hfuel : range.2 - range.1 ≤ fuel)
    (h : childIdx ≤ repSize range) (τ : Schedule) :
    doBuildFromKeys A keys t fuel τ (cellRange range childIdx).1 (cellRange range childIdx).2 =
      .ok (buildTree A t (cell (blockSize range) childIdx (part keys range.1 range.2))) := by
  have hrange : range.1 ≤ range.2 := by omega
  have hspec := cellRange_spec hrange h
  -- the cell is shorter than its range, so the fuel is enough
  have hshrinks := cellRange_shrinks (by omega) h
  have hcell := (@cell_eq_part T keys _ _ hrange h).2
  rw [hcell]
  exact doBuildFromKeys_eq hA ht (by omega) (by omega) (hcell ▸ sortedLT_cell hsorted _ _)
    (by omega)

/-- The loop over the cells constructs every representative and every child once. -/
theorem exists_buildCells {fuel : ℕ} (hfuel : range.2 - range.1 ≤ fuel) (σ : Schedule) :
    ∃ cells, buildCells keys (fun childIdx ↦ doBuildFromKeys A keys t fuel (σ.sub childIdx)) σ
        (blockSize range) (repSize range) range.1 range.2 = .ok cells ∧
      Buffer.WrittenOnce (fun repIdx rep ↦ keys[repIndex range repIdx]? = some rep)
        0 (repSize range) (Buffer.raw (repSize range)) cells.1 ∧
      Buffer.WrittenOnce (fun childIdx child ↦ ∀ τ, doBuildFromKeys A keys t fuel τ
          (cellRange range childIdx).1 (cellRange range childIdx).2 = .ok child)
        0 (repSize range + 1) (Buffer.raw (repSize range + 1)) cells.2 ∧
      Buffer.freeze cells.1 =
        .ok (cellReps (blockSize range) (repSize range) (part keys range.1 range.2)) ∧
      Buffer.freeze cells.2 = .ok ((List.range (repSize range + 1)).map fun childIdx ↦
        buildTree A t (cell (blockSize range) childIdx (part keys range.1 range.2))) := by
  have hrange : range.1 ≤ range.2 := by omega
  have hle := repSize_mul_le range
  have hlt := lt_repSize_mul range
  have hbuild : ∀ i ≤ repSize range, ∀ τ, doBuildFromKeys A keys t fuel τ (cellRange range i).1
      (cellRange range i).2 = _ := fun i hi τ ↦
    doBuildFromKeys_cellRange hA ht hbig hright hsorted hfuel hi τ
  obtain ⟨x, -⟩ := List.exists_mem_of_ne_nil (part keys range.1 range.2)
    (mt (part_eq_nil_iff hrange hright).1 (by omega))
  have hloop := @buildCells_eq T A t keys range.1 range.2 σ (blockSize range) (repSize range)
    (fun i ↦ doBuildFromKeys A keys t fuel (σ.sub i)) x (by omega) (by omega) hright
    fun i hi ↦ by
      have hend := (@cell_eq_part T keys _ _ hrange hi).1
      rw [← hend]
      exact hbuild i hi _
  refine ⟨_, hloop, ?_, Buffer.writtenOnce_writeOn fun i _ hi ↦ hbuild i (Nat.le_of_lt_succ hi),
    ?_, Buffer.freeze_writeOn_raw fun i hi ↦ Finset.mem_Ico.2 ⟨Nat.zero_le _, hi⟩⟩
  · rw [Finset.range_eq_Ico]
    refine Buffer.writtenOnce_writeOn fun i _ hi ↦ ?_
    have hrep := repIndex_lt hi
    rw [repIndex, Nat.add_assoc] at hrep ⊢
    rw [List.getElem?_eq_getElem (by omega), Option.getD_some]
  · rw [Buffer.freeze_writeOn_raw fun i hi ↦ Finset.mem_range.2 hi,
      cellReps_part x (by omega) hright]

theorem fillsCells {node : Node T} (hnode : buildTree A t (part keys range.1 range.2) = some node) :
    FillsCells A t keys range node := by
  have hrange : range.1 ≤ range.2 := by omega
  have hle := repSize_mul_le range
  have hlen : (part keys range.1 range.2).length = range.2 - range.1 := length_part hright
  have hfresh := hnode
  rw [buildTree_range hbig hright ht] at hfresh
  obtain rfl := Option.some.inj hfresh
  exact
    { once := fun _ hlo hhi ↦ existsUnique_uses hlo hhi
      within := fun _ _ huse ↦ huse.within hrange
      regular := fun _ h ↦ (cellRange_of_lt h).1
      last := by
        have := cellRange_last range
        omega
      reps_length := length_cellReps (by omega)
      children_length := (List.length_map _).trans List.length_range
      rep := fun i hi ↦ by
        have hrep := repIndex_lt hi
        rw [repIndex, Nat.add_assoc] at hrep ⊢
        exact (getElem?_cellReps (by omega) i hi).trans (getElem?_part hrep)
      child := fun i hi ↦ by
        have hspec := cellRange_spec hrange hi
        refine ⟨_, getElem?_map_range (Nat.lt_succ_of_le hi), ?_, ?_⟩
        · rw [slotLive_buildTree, (cell_eq_part hrange hi).2]
        · rw [buildTree_eq_none_iff, (cell_eq_part hrange hi).2,
            part_eq_nil_iff hspec.2.1 (hspec.2.2.1.trans hright)]
      loop := fun σ fuel hfuel ↦ ⟨hnode ▸ doBuildFromKeys_eq hA ht hrange hright hsorted
        (Nat.lt_succ_of_le hfuel), exists_buildCells hA ht hbig hright hsorted hfuel σ⟩ }

end Cells

/-- What is built from a range is made of its cells, at all levels of the tree. -/
theorem tiles_buildTree (hA : A.Exact) (ht : 1 ≤ t) (h : keys.SortedLT) {range : ℕ × ℕ}
    (hrange : range.1 ≤ range.2) (hright : range.2 ≤ keys.length) :
    Tiles A t keys range (buildTree A t (part keys range.1 range.2)) := by
  generalize hn : range.2 - range.1 = n
  induction n using Nat.strong_induction_on generalizing range with
  | _ n ih =>
    have hsorted := (h.pairwise.sublist (part_sublist keys range.1 range.2)).sortedLT
    rcases hrange.eq_or_lt with heq | hlt
    · rw [(part_eq_nil_iff hrange hright).2 heq, buildTree_nil]
      exact .null heq
    rcases Nat.lt_or_ge t (range.2 - range.1) with hbig | hsmall
    · have hnode := @buildTree_range T A keys t range hbig hright ht
      rw [hnode]
      refine .inner hbig (fillsCells hA ht hbig hright hsorted hnode) fun i child hchild ↦ ?_
      -- child `i` is the tree of cell `i`, which is shorter than the range
      have hi : i < repSize range + 1 := by
        simpa [freshNode] using (List.getElem?_eq_some_iff.1 hchild).1
      obtain rfl := Option.some.inj ((getElem?_map_range hi).symm.trans hchild)
      have hi' := Nat.le_of_lt_succ hi
      have hspec := cellRange_spec hrange hi'
      rw [(cell_eq_part hrange hi').2]
      exact ih _ (hn ▸ cellRange_shrinks (by omega) hi') hspec.2.1 (hspec.2.2.1.trans hright) rfl
    · have hne : part keys range.1 range.2 ≠ [] := mt (part_eq_nil_iff hrange hright).1 hlt.ne
      rw [buildTree_terminal hne (.inl ((length_part hright).trans_le hsmall))]
      exact .terminal hlt hsmall rfl rfl

/-- **Building is lossless and tiles its range.** For a threshold of at least 1,
`do_build_from_keys` returns null exactly on an empty range, and otherwise a tree of built nodes
whose sequential dump is the range; at every inner node of this tree, each index of the range has
exactly one use and each cell of the raw arrays is constructed exactly once. -/
theorem build_tiles (hA : A.Exact) (ht : 1 ≤ t) (h : keys.SortedLT) {left right : ℕ}
    (hle : left ≤ right) (hright : right ≤ keys.length) :
    ∃ slot, (∀ (σ : Schedule) (fuel : ℕ), right - left < fuel →
        doBuildFromKeys A keys t fuel σ left right = .ok slot) ∧
      (slot = none ↔ left = right) ∧
      SlotEverywhere (fun _ node ↦ node.Built) Set.univ slot ∧
      (∀ root, slot = some root → root.dumpKeysSeq root.height = .ok (part keys left right)) ∧
      Tiles A t keys (left, right) slot := by
  have hpart : (part keys left right).SortedLT :=
    (h.pairwise.sublist (part_sublist keys left right)).sortedLT
  refine ⟨buildTree A t (part keys left right),
    fun σ fuel hfuel ↦ doBuildFromKeys_eq hA ht hle hright hpart hfuel, ?_,
    built_buildTree hA ht hpart, fun root hroot ↦ ?_,
    @tiles_buildTree T _ A keys t hA ht h (left, right) hle hright⟩
  · rw [buildTree_eq_none_iff, part_eq_nil_iff hle hright]
  · have hinv : root.Inv t Set.univ :=
      slotInv_buildTree hA ht hpart (fun x _ ↦ Set.mem_univ x) root hroot
    have hlive := slotLive_buildTree (A := A) (t := t) (part keys left right)
    rw [hroot, slotLive_some] at hlive
    rw [← hlive]
    exact Node.Inv.dumpKeysSeq_eq hinv le_rfl

/-- Six keys out of seven with the threshold 1: the root has the two keys 0 and 1 in its first cell,
and the cell of its third child is empty. -/
theorem build_tiles_seven :
    ∃ root, (∀ σ fuel, 6 < fuel → doBuildFromKeys (int32 .trapping)
        ([0, 1, 2, 3, 4, 5, 6].map I32.small) 1 fuel σ 0 6 = .ok (some root)) ∧
      root.keys[1]? = some (.small 5) ∧ root.children[2]? = some none ∧
      ∃ child, root.children[0]? = some child ∧ slotLive child = [.small 0, .small 1] := by
  obtain ⟨slot, hrun, hnone, -, -, htiles⟩ := build_tiles (int32_exact .trapping)
    (show 1 ≤ 1 by decide) (show ([0, 1, 2, 3, 4, 5, 6].map I32.small).SortedLT by decide)
    (show 0 ≤ 6 by decide) (by decide)
  have hblock : blockSize (0, 6) = 2 := (Nat.eq_sqrt.2 (by decide)).symm
  have hrep : repSize (0, 6) = 2 := by
    show 6 / (blockSize (0, 6) + 1) = 2
    rw [hblock]
  obtain _ | ⟨-, hsmall⟩ | ⟨-, hcells⟩ := htiles
  · exact absurd (hnone.1 rfl) (by decide)
  · exact absurd hsmall (by decide)
  refine ⟨_, hrun, ?_, ?_, ?_⟩
  · rw [hcells.rep 1 (by omega), repIndex, hblock]
    rfl
  · obtain ⟨child, hchild, -, hempty⟩ := hcells.child 2 (by omega)
    rw [cellRange, hblock, hrep] at hempty
    rw [hchild, hempty.2 rfl]
  · obtain ⟨child, hchild, hlive, -⟩ := hcells.child 0 (by omega)
    rw [cellRange, hblock, hrep] at hlive
    exact ⟨child, hchild, hlive.trans (by decide)⟩

end Build

end Pbist
