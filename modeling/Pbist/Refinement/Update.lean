import Pbist.Refinement.Build
import Pbist.Refinement.Contains
import Pbist.Refinement.Flatten

/-!
# `do_insert` and `do_remove` are `updated`

For a batch that may be inserted or removed, no assertion of the two procedures fails, and whatever
the order of their loops, they leave behind the outcome that the functional update computes.

## How the proof goes

The two procedures differ in when they test for a rebuild, and share their loops. `Inv.markKeys_eq`
is the first loop, `Inv.forEachRange_update` the second one for any treatment of a range that
updates its child (`UpdatesChildren`). `Inv.doInsert_eq` and `Inv.doRemove_eq` put them together, by
induction on the tree: the recursive calls are on children.
-/

namespace Pbist

open Checked Sorted

variable {T : Type} [LinearOrder T] {A : Arith T} {c t : ℕ} {exist : Bool} {I W : Set T}

namespace Node

variable {node : Node T} {keys : List T} {left right : ℕ}

/-! ### The loop over the keys -/

/-- The indices in the node of the keys at the positions in `D`. -/
def markedAt (node : Node T) (keys : List T) (D : Finset ℕ) : Finset ℕ :=
  (node.foundAt keys D).image fun i ↦ ((keys[i]?).map (rank node.keys)).getD 0

theorem mem_markedAt {D : Finset ℕ} {j : ℕ} : j ∈ node.markedAt keys D ↔
    ∃ i ∈ D, ∃ x ∈ node.keys, keys[i]? = some x ∧ rank node.keys x = j := by
  rw [markedAt, Finset.mem_image]
  constructor
  · rintro ⟨i, hi, rfl⟩
    obtain ⟨hD, x, hx, hget⟩ := Finset.mem_filter.1 hi
    exact ⟨i, hD, x, hx, hget, by rw [hget]; rfl⟩
  · rintro ⟨i, hD, x, hx, hget, rfl⟩
    exact ⟨i, Finset.mem_filter.2 ⟨hD, x, hx, hget⟩, by rw [hget]; rfl⟩

theorem markedAt_insert_of_mem {D : Finset ℕ} {i : ℕ} {x : T} (hget : keys[i]? = some x)
    (hx : x ∈ node.keys) :
    node.markedAt keys (insert i D) = insert (rank node.keys x) (node.markedAt keys D) := by
  rw [markedAt, foundAt, Finset.filter_insert, if_pos ⟨x, hx, hget⟩, Finset.image_insert, hget]
  rfl

theorem markedAt_insert_of_notMem {D : Finset ℕ} {i : ℕ} {x : T} (hget : keys[i]? = some x)
    (hx : x ∉ node.keys) : node.markedAt keys (insert i D) = node.markedAt keys D := by
  rw [markedAt, foundAt, Finset.filter_insert, if_neg]
  · rfl
  · rintro ⟨y, hy, hyx⟩
    exact hx (Option.some.inj (hget.symm.trans hyx) ▸ hy)

section Loops

variable (hA : A.ExactOn W) (hI : I ⊆ W) (h : node.Inv t I)
  (hb : Admissible exist I node.live (part keys left right))

omit [LinearOrder T] in
theorem set_flag {f : ℕ → Bool → Bool} {D : Finset ℕ} {l : List Bool} {i : ℕ} (hi : i < l.length)
    (hf : ∀ a, f i a = exist) :
    (updateOn f D l).set i exist = updateOn f (insert i D) l :=
  set_updateOn (List.getElem?_eq_getElem hi) (hf _)

include h hb

/-- Two keys of the batch never share a flag. -/
theorem Inv.rank_notMem_markedAt {D : Finset ℕ} {i : ℕ} (hD : D ⊆ Finset.Ico left right)
    (hlo : left ≤ i) (hhi : i < right) (hi : i ∉ D) {x : T} (hget : keys[i]? = some x)
    (hx : x ∈ node.keys) : rank node.keys x ∉ node.markedAt keys D := by
  intro hmem
  obtain ⟨j, hj, y, hy, hget', hrank⟩ := mem_markedAt.1 hmem
  obtain rfl := rank_inj h.here.sorted hy hx hrank
  obtain ⟨hjlo, hjhi⟩ := Finset.mem_Ico.1 (hD hj)
  exact hi (part_inj hb.sorted.nodup hlo hhi hjlo hjhi hget hget' ▸ hj)

/-- What the loops find at the index of a key of the batch in the node: the key itself and, as no
other key of the batch shares it, its flag from before the batch; writing the flag marks it. -/
theorem Inv.flag_at {D : Finset ℕ} {i : ℕ} (hD : D ⊆ Finset.Ico left right) (hlo : left ≤ i)
    (hhi : i < right) (hi : i ∉ D) {x : T} (hget : keys[i]? = some x) (hx : x ∈ node.keys) :
    rank node.keys x < node.keys.length ∧
      get node.keys (rank node.keys x) = .ok x ∧
      get (updateOn (fun _ _ ↦ exist) (node.markedAt keys D) node.keysExist)
        (rank node.keys x) = .ok (!exist) ∧
      put (updateOn (fun _ _ ↦ exist) (node.markedAt keys D) node.keysExist)
        (rank node.keys x) exist =
          .ok (updateOn (fun _ _ ↦ exist) (node.markedAt keys (insert i D)) node.keysExist) := by
  have hrank := getElem?_rank h.here.sorted hx
  have hk := rank_lt_length h.here.sorted hx
  have he : rank node.keys x < node.keysExist.length := by rwa [h.here.exist_length]
  obtain ⟨hlt, rfl⟩ := List.getElem?_eq_some_iff.1 hget
  have hfresh := h.rank_notMem_markedAt hb hD hlo hhi hi hget hx
  have hflag := h.flag_of_mem_batch hb hrank (getElem_mem_part hlo hhi hlt)
  rw [← getElem?_updateOn_of_notMem (f := fun _ _ ↦ exist) hfresh] at hflag
  refine ⟨hk, get_of_getElem? hrank, get_of_getElem? hflag, ?_⟩
  rw [put_of_lt (by rwa [length_updateOn]), set_flag he fun _ ↦ rfl,
    markedAt_insert_of_mem hget hx]

omit hb in
/-- Marking the flags of all keys that are found gives the flags of the functional update. -/
theorem Inv.updateOn_markedAt (hright : right ≤ keys.length) :
    updateOn (fun _ _ ↦ exist) (node.markedAt keys (Finset.Ico left right)) node.keysExist =
      node.markedFlags exist (part keys left right) := by
  apply List.ext_getElem?
  intro j
  rcases Nat.lt_or_ge j node.keys.length with hj | hj
  · have hk : node.keys[j]? = some node.keys[j] := List.getElem?_eq_getElem hj
    have hflag : j < node.keysExist.length := by rwa [h.here.exist_length]
    have hmarked : j ∈ node.markedAt keys (Finset.Ico left right) ↔
        node.keys[j] ∈ part keys left right := by
      rw [mem_markedAt]
      constructor
      · rintro ⟨i, hi, x, hx, hget, hrank⟩
        obtain ⟨hlt, rfl⟩ := List.getElem?_eq_some_iff.1 hget
        obtain ⟨hlo, hhi⟩ := Finset.mem_Ico.1 hi
        have : node.keys[j] = keys[i] := by
          refine rank_inj h.here.sorted (List.getElem_mem hj) hx ?_
          rw [rank_getElem h.here.sorted hj, hrank]
        rw [this]
        exact getElem_mem_part hlo hhi hlt
      · intro hmem
        obtain ⟨m, hm⟩ := List.getElem?_of_mem hmem
        have hlt := (List.getElem?_eq_some_iff.1 hm).1
        rw [length_part hright] at hlt
        rw [getElem?_part (by omega)] at hm
        exact ⟨left + m, Finset.mem_Ico.2 ⟨by omega, by omega⟩, _, List.getElem_mem hj, hm,
          rank_getElem h.here.sorted hj⟩
    rw [getElem?_markedFlags h.here hk, getElem?_updateOn, List.getElem?_eq_getElem hflag]
    by_cases hmem : node.keys[j] ∈ part keys left right
    · rw [if_pos hmem, Option.map_some, if_pos (hmarked.2 hmem)]
    · rw [if_neg hmem, Option.map_some, if_neg (mt hmarked.1 hmem)]
  · rw [List.getElem?_eq_none (by rw [length_updateOn, h.here.exist_length]; exact hj),
      List.getElem?_eq_none (by rw [length_markedFlags exist _ h.here]; exact hj)]

include hA hI

/-- **The first loop of the two procedures marks the flags** of the keys that it finds. -/
theorem Inv.markKeys_eq {σ : Schedule} (hle : left ≤ right) (hright : right ≤ keys.length) :
    node.markKeys A exist σ keys left right =
      .ok (node.markedFlags exist (part keys left right),
        routing node.keys (part keys left right)) := by
  rw [markKeys, subtract_of_le hle, ok_bind]
  obtain ⟨cs, hloop, hfreeze⟩ := @parallelFor_routing T _ _ node.keys keys left right hright σ
    (node.markKey A exist keys left right)
    (fun D ↦ updateOn (fun _ _ ↦ exist) (node.markedAt keys D) node.keysExist)
    fun D i hi cs hD hlo hhi hnot ↦ by
      have hget : keys[i]? = some keys[i] := List.getElem?_eq_getElem hi
      rw [markKey, require_of ⟨hlo, hhi⟩, ok_bind, get_of_lt hi, ok_bind]
      by_cases hmem : keys[i] ∈ node.keys
      · -- the key is found in the node, and has no child
        obtain ⟨hk, hkey, hflag, hput⟩ := h.flag_at hb hD hlo hhi hnot hget hmem
        rw [h.here.doSearch_eq hA hI, decide_eq_true hmem, ok_bind]
        simp only [if_true]
        rw [require_of hk, ok_bind, hkey, ok_bind, ok_bind, require_of rfl, ok_bind, hflag, ok_bind,
          require_of rfl, ok_bind, hput, ok_bind, subtract_of_le hlo, ok_bind, childOf,
          if_pos hmem]
      · -- the search ends at the child of the key
        rw [h.here.doSearch_eq hA hI, decide_eq_false hmem, ok_bind]
        simp only [Bool.false_eq_true, if_false]
        rw [subtract_of_le hlo, ok_bind, childOf, if_neg hmem, markedAt_insert_of_notMem hget hmem]
  have hempty : updateOn (fun _ _ ↦ exist) (node.markedAt keys ∅) node.keysExist =
      node.keysExist := by
    rw [markedAt, foundAt, Finset.filter_empty, Finset.image_empty, updateOn_empty]
  rw [hempty] at hloop
  rw [hloop, ok_bind]
  dsimp only
  rw [hfreeze, ok_bind, pure_eq_ok, h.updateOn_markedAt hright]

/-- The loop of `do_remove` at a terminal node. -/
theorem Inv.terminalDoRemove_eq {σ : Schedule} (hexist : exist = false)
    (hterm : node.children.length = 0) (hright : right ≤ keys.length) {mods size : ℕ} :
    ({ node with modificationsCount := mods, curSize := size } : Node T).terminalDoRemove A σ keys
        left right =
      .ok
        { node :=
            { node with
              keysExist := node.markedFlags exist (part keys left right)
              modificationsCount := mods
              curSize := size }
          replacement := none
          rebuilds := 0 } := by
  subst hexist
  have hloop := @parallelFor_eq _ σ left right
    (node.removeKey A keys)
    (fun D ↦ updateOn (fun _ _ ↦ false) (node.markedAt keys D) node.keysExist)
    fun D i hD hlo hhi hnot ↦ by
      have hi : i < keys.length := by omega
      have hget : keys[i]? = some keys[i] := List.getElem?_eq_getElem hi
      -- a terminal node stores no keys but its own, so the key is found
      have hmem : keys[i] ∈ node.keys :=
        hb.mem_keys_of_terminal (by simp) hterm _ (getElem_mem_part hlo hhi hi)
      obtain ⟨hk, hkey, hflag, hput⟩ := h.flag_at hb hD hlo hhi hnot hget hmem
      rw [removeKey, get_of_lt hi, ok_bind, h.here.doSearch_eq hA hI, decide_eq_true hmem, ok_bind]
      dsimp only
      rw [require_of ⟨rfl, hk⟩, ok_bind, hkey, ok_bind, ok_bind, require_of rfl, ok_bind, hflag,
        ok_bind, require_of (show (!false) = true from rfl), ok_bind, hput]
  have hempty : updateOn (fun _ _ ↦ false) (node.markedAt keys ∅) node.keysExist =
      node.keysExist := by
    rw [markedAt, foundAt, Finset.filter_empty, Finset.image_empty, updateOn_empty]
  rw [hempty, h.updateOn_markedAt hright] at hloop
  have hremove : parallelFor σ left right
      (({ node with modificationsCount := mods, curSize := size } : Node T).removeKey A keys)
      node.keysExist = .ok (node.markedFlags false (part keys left right)) := hloop
  rw [terminalDoRemove, hremove, ok_bind, pure_eq_ok]

/-- None of the keys to insert is stored in the node. -/
theorem Inv.allKeysNotExist_eq (hexist : exist = true) (hle : left ≤ right)
    (hright : right ≤ keys.length) : node.allKeysNotExist A keys left right = .ok true := by
  subst hexist
  have htable : ∀ i < right - left, node.keyNotExists A keys left i = .ok true := by
    intro i hi
    have hlt : left + i < keys.length := by omega
    rw [keyNotExists, get_of_lt hlt, ok_bind]
    rcases h.doSearch_cases hA hI keys[left + i] with
      ⟨j, hk, he, hsearch, -, hval, hflag⟩ | ⟨hsearch, -⟩
    · have hlive := hb.stored_iff _ (getElem_mem_part (by omega) (by omega) hlt)
      have hnot : keys[left + i] ∉ node.live := fun hcon ↦ absurd (hlive.1 hcon) (by simp)
      rw [hsearch, ok_bind]
      simp only [if_true]
      rw [require_of hk, ok_bind, get_of_lt hk, ok_bind, hval, ok_bind, require_of rfl, ok_bind,
        get_of_lt he, ok_bind, hflag, decide_eq_false hnot]
      rfl
    · rw [hsearch, ok_bind]
      rfl
  rw [allKeysNotExist, require_of h.here.isStructureCorrect, ok_bind, subtract_of_le hle, ok_bind,
    tabulate_of_ok (g := fun _ ↦ true) htable, ok_bind, foldl_and_true, pure_eq_ok]

end Loops

/-! ### The loop over the ranges -/

section Ranges

variable {batch : List T}

/-- The state of the loop over the ranges when the children in `D` are done. -/
def childrenState (A : Arith T) (c t : ℕ) (exist : Bool) (node : Node T) (batch : List T)
    (D : Finset ℕ) : ChildrenState T :=
  (updateOn (fun i slot ↦ (slotUpdated A c t exist slot (segment node.keys i batch)).1) D
      node.children,
    ∑ i ∈ D, (slotUpdated A c t exist ((node.children[i]?).getD none)
      (segment node.keys i batch)).2)

/-- The state after the update of child `i` with its segment. -/
def updateChild (A : Arith T) (c t : ℕ) (exist : Bool) (i : ℕ) (slot : Option (Node T))
    (segment : List T) (s : ChildrenState T) : ChildrenState T :=
  (s.1.set i (slotUpdated A c t exist slot segment).1,
    s.2 + (slotUpdated A c t exist slot segment).2)

/-- One more child is done. -/
theorem updateChild_childrenState {D : Finset ℕ} {i : ℕ} (hi : i ∉ D) {slot : Option (Node T)}
    (hslot : node.children[i]? = some slot) :
    updateChild A c t exist i slot (segment node.keys i batch)
        (childrenState A c t exist node batch D) =
      childrenState A c t exist node batch (insert i D) := by
  rw [updateChild, childrenState, childrenState, Finset.sum_insert hi, hslot, Option.getD_some,
    set_updateOn hslot rfl, add_comm]

/-- All children that get keys are done. -/
theorem childrenState_touched (hinner : node.children.length = node.keys.length + 1) :
    childrenState A c t exist node batch (touched node.keys batch) =
      ((node.parts batch).map fun p ↦ (slotUpdated A c t exist p.1 p.2).1,
        node.rebuildsBelow A c t exist batch) := by
  have huntouched : ∀ i < node.children.length, i ∉ touched node.keys batch →
      segment node.keys i batch = [] := by
    intro i hi hnot
    by_contra hne
    exact hnot (Finset.mem_filter.2 ⟨Finset.mem_range.2 (by omega), hne⟩)
  refine Prod.ext (List.ext_getElem? fun i ↦ ?_) ?_
  · rw [childrenState, getElem?_updateOn, List.getElem?_map, getElem?_parts, Option.map_map]
    rcases hslot : node.children[i]? with - | slot
    · rfl
    · simp only [Option.map_some, Function.comp_apply]
      split
      · rfl
      · rename_i hnot
        rw [huntouched i (List.getElem?_eq_some_iff.1 hslot).1 hnot, slotUpdated_nil]
  · have hparts : node.parts batch = (List.range node.children.length).map fun i ↦
        ((node.children[i]?).getD none, segment node.keys i batch) := by
      apply List.ext_getElem?
      intro i
      rw [getElem?_parts, List.getElem?_map]
      rcases Nat.lt_or_ge i node.children.length with hi | hi
      · rw [List.getElem?_range hi, Option.map_some, List.getElem?_eq_getElem hi, Option.map_some,
          Option.getD_some]
      · rw [List.getElem?_eq_none hi, List.getElem?_eq_none (by simpa using hi)]
        rfl
    have hrange : touched node.keys batch ⊆ Finset.range node.children.length := by
      rw [hinner]
      exact Finset.filter_subset _ _
    rw [childrenState, rebuildsBelow, hparts, List.map_map,
      Finset.sum_subset hrange fun i hi hnot ↦ by
        rw [huntouched i (Finset.mem_range.1 hi) hnot, slotUpdated_nil]]
    show ∑ i ∈ Finset.range node.children.length, _ = _
    rw [Finset.sum_eq_multiset_sum, Finset.range_val, ← Multiset.coe_range, Multiset.map_coe,
      Multiset.sum_coe, List.map_map]
    rfl

/-- **The loop over the ranges updates the children**, if one iteration updates its child. -/
theorem Inv.forEachRange_update (h : node.Inv t I)
    (hinner : node.children.length = node.keys.length + 1) (hb : batch.SortedLT) (hne : batch ≠ [])
    {σ : Schedule} (onRange : Schedule → ℕ → ℕ → ℕ → ChildrenState T → Checked (ChildrenState T))
    (hstep : ∀ (s : ChildrenState T) (σ : Schedule) (i b e : ℕ) (slot : Option (Node T)),
      node.children[i]? = some slot → s.1[i]? = some slot → b < e → e ≤ batch.length →
      segment node.keys i batch = part batch b e →
      onRange σ i b e s = .ok (updateChild A c t exist i slot (segment node.keys i batch) s)) :
    node.forEachRange σ (routing node.keys batch) onRange (node.children, 0) =
      .ok ((node.parts batch).map fun p ↦ (slotUpdated A c t exist p.1 p.2).1,
        node.rebuildsBelow A c t exist batch) := by
  have hloop := h.here.forEachRange_eq hinner hb hne (σ := σ) onRange
    (childrenState A c t exist node batch) fun D σ i b e hfresh htouched hbe he hrange ↦ by
      have hi := Finset.mem_range.1 (Finset.mem_filter.1 htouched).1
      have hi' : i < node.children.length := by omega
      have hslot : node.children[i]? = some node.children[i] := List.getElem?_eq_getElem hi'
      have hcur : (childrenState A c t exist node batch D).1[i]? =
          some node.children[i] := by
        rw [childrenState, getElem?_updateOn_of_notMem hfresh, hslot]
      rw [hstep _ σ i b e _ hslot hcur hbe he (segment_eq_part hbe.le hrange),
        updateChild_childrenState hfresh hslot]
  rw [childrenState_touched hinner] at hloop
  have hempty : childrenState A c t exist node batch ∅ = (node.children, 0) := by
    rw [childrenState, updateOn_empty, Finset.sum_empty]
  rwa [hempty] at hloop

omit [LinearOrder T] in
theorem useOutcome_eq {i : ℕ} {out : Outcome T} {s : ChildrenState T} (hi : i < s.1.length) :
    useOutcome i out s = .ok (s.1.set i out.slot, s.2 + out.rebuilds) := by
  rw [useOutcome, put_of_lt hi, ok_bind, pure_eq_ok]

end Ranges

/-! ### The procedures -/

/-- The recursive call for a child updates the child with its segment. -/
def UpdatesChildren (A : Arith T) (c t : ℕ) (exist : Bool) (node : Node T) (keys : List T)
    (left right : ℕ) (self : Schedule → Node T → List T → ℕ → ℕ → ℕ → Checked (Outcome T)) : Prop :=
  ∀ (σ : Schedule) (i : ℕ) (child : Node T), node.children[i]? = some (some child) →
    ∀ b e : ℕ, b < e → left + e ≤ right →
      segment node.keys i (part keys left right) = part keys (left + b) (left + e) →
      self σ child keys t (left + b) (left + e) =
        .ok (updated A c t exist child (segment node.keys i (part keys left right)))

section Procedures

variable {self : Schedule → Node T → List T → ℕ → ℕ → ℕ → Checked (Outcome T)}

/-- One iteration of the loop over the ranges, at a child that is not null. -/
theorem UpdatesChildren.step
    (hself : UpdatesChildren A c t exist node keys left right self) (hright : right ≤ keys.length)
    {σ : Schedule} {s : ChildrenState T} {i b e : ℕ} {child : Node T}
    (hslot : node.children[i]? = some (some child)) (hcur : s.1[i]? = some (some child))
    (hbe : b < e) (he : e ≤ (part keys left right).length)
    (hseg : segment node.keys i (part keys left right) = part (part keys left right) b e) :
    (do
      let out ← self σ child keys t (left + b) (left + e)
      useOutcome i out s) =
      .ok (updateChild A c t exist i (some child)
        (segment node.keys i (part keys left right)) s) := by
  have hlen : (part keys left right).length = right - left := length_part hright
  have hne : segment node.keys i (part keys left right) ≠ [] := by
    rw [hseg]
    exact List.ne_nil_of_length_pos (by rw [length_part he]; omega)
  rw [hself σ i child hslot b e hbe (by omega) (by rw [hseg, part_part keys (by omega)]), ok_bind,
    useOutcome_eq (List.getElem?_eq_some_iff.1 hcur).1, updateChild, slotUpdated_some hne]

section OneRange

variable {σ : Schedule} {s : ChildrenState T} {i b e : ℕ} {slot : Option (Node T)}
  (hslot : node.children[i]? = some slot) (hcur : s.1[i]? = some slot)
  (hright : right ≤ keys.length) (hbe : b < e) (he : e ≤ (part keys left right).length)
  (hseg : segment node.keys i (part keys left right) = part (part keys left right) b e)

include hslot hcur hright hbe he hseg

/-- One range of the second loop of `non_terminal_do_insert`. -/
theorem insertRange_eq (hA : A.Exact) (ht : 1 ≤ t) (hsorted : (part keys left right).SortedLT)
    (hself : UpdatesChildren A c t true node keys left right self) :
    insertRange A self keys t left right σ i b e s =
      .ok (updateChild A c t true i slot (segment node.keys i (part keys left right)) s) := by
  have hlen : (part keys left right).length = right - left := length_part hright
  rw [insertRange, nextBorders_eq hbe (by omega), ok_bind]
  dsimp only
  rw [get_of_getElem? hcur, ok_bind]
  rcases slot with - | child
  · -- a null pointer gets a tree that is built from its keys
    have hpart : segment node.keys i (part keys left right) = part keys (left + b) (left + e) := by
      rw [hseg, part_part keys (by omega)]
    have hne : segment node.keys i (part keys left right) ≠ [] := by
      rw [hseg]
      exact List.ne_nil_of_length_pos (by rw [length_part he]; omega)
    dsimp only
    rw [doBuildFromKeys_eq hA ht (by omega) (by omega) (hpart ▸ sortedLT_segment hsorted)
      (by omega), ok_bind, put_of_lt (List.getElem?_eq_some_iff.1 hcur).1, ok_bind, updateChild,
      slotUpdated_none hne, hpart, pure_eq_ok, if_pos rfl, add_zero]
  · exact hself.step hright hslot hcur hbe he hseg

/-- One range of the second loop of `non_terminal_do_remove`. -/
theorem Inv.removeRange_eq (h : node.Inv t I)
    (hb : Admissible false I node.live (part keys left right))
    (hself : UpdatesChildren A c t false node keys left right self) :
    removeRange self keys t left right σ i b e s =
      .ok (updateChild A c t false i slot (segment node.keys i (part keys left right)) s) := by
  have hlen : (part keys left right).length = right - left := length_part hright
  rw [removeRange, nextBorders_eq hbe (by omega), ok_bind]
  dsimp only
  rw [get_of_getElem? hcur, ok_bind]
  rcases slot with - | child
  · -- the keys of a segment are stored below its child, so the child is not null
    have hadm := h.admissible_segment hb hslot
    have hne : segment node.keys i (part keys left right) ≠ [] := by
      rw [hseg]
      exact List.ne_nil_of_length_pos (by rw [length_part he]; omega)
    obtain ⟨x, hx⟩ := List.exists_mem_of_ne_nil _ hne
    simpa using (hadm.stored_iff x hx).2 rfl
  · exact hself.step hright hslot hcur hbe he hseg

end OneRange

variable (hA : A.ExactOn W) (hI : I ⊆ W) (ht : 1 ≤ t) (h : node.Inv t I)
  (hlt : left < right) (hright : right ≤ keys.length)
  (hb : Admissible exist I node.live (part keys left right))

include hA hI h hlt hright hb

/-- The two loops of the procedures at an inner node, if one iteration of the second one updates its
child. The counters of the node, which are changed before, play no role. -/
theorem Inv.loops_eq {σ : Schedule} (hinner : node.children.length = node.keys.length + 1)
    (mods size : ℕ)
    (onRange : Schedule → ℕ → ℕ → ℕ → ChildrenState T → Checked (ChildrenState T))
    (hstep : ∀ (s : ChildrenState T) (σ : Schedule) (i b e : ℕ) (slot : Option (Node T)),
      node.children[i]? = some slot → s.1[i]? = some slot → b < e →
      e ≤ (part keys left right).length →
      segment node.keys i (part keys left right) = part (part keys left right) b e →
      onRange σ i b e s =
        .ok (updateChild A c t exist i slot (segment node.keys i (part keys left right)) s)) :
    ({ node with modificationsCount := mods, curSize := size } : Node T).markKeys A exist
        (σ.sub 0) keys left right =
      .ok (node.markedFlags exist (part keys left right),
        routing node.keys (part keys left right)) ∧
    ({ node with modificationsCount := mods, curSize := size } : Node T).forEachRange (σ.sub 1)
        (routing node.keys (part keys left right)) onRange (node.children, 0) =
      .ok ((node.parts (part keys left right)).map fun p ↦ (slotUpdated A c t exist p.1 p.2).1,
        node.rebuildsBelow A c t exist (part keys left right)) := by
  have hne : part keys left right ≠ [] :=
    List.ne_nil_of_length_pos (by rw [length_part hright]; omega)
  exact ⟨h.markKeys_eq hA hI hb hlt.le hright,
    h.forEachRange_update hinner hb.sorted hne onRange hstep⟩

include ht in
theorem Inv.nonTerminalDoInsert_eq {σ : Schedule} (hexist : exist = true)
    (hinner : node.children.length = node.keys.length + 1) (mods size : ℕ)
    (hself : UpdatesChildren A c t exist node keys left right self) :
    ({ node with modificationsCount := mods, curSize := size } : Node T).nonTerminalDoInsert A self
        σ keys t left right =
      .ok
        { node :=
            { node with
              keysExist := node.markedFlags exist (part keys left right)
              children := (node.parts (part keys left right)).map fun p ↦
                (slotUpdated A c t exist p.1 p.2).1
              modificationsCount := mods
              curSize := size }
          replacement := none
          rebuilds := node.rebuildsBelow A c t exist (part keys left right) } := by
  subst hexist
  obtain ⟨hmark, hloop⟩ := h.loops_eq hA hI hlt hright hb (σ := σ) hinner mods size
    (insertRange A self keys t left right)
    fun s σ i b e slot hslot hcur hbe he hseg ↦
      insertRange_eq hslot hcur hright hbe he hseg hA.toExact ht hb.sorted hself
  have hcorrect : ({ node with modificationsCount := mods, curSize := size } :
      Node T).isStructureCorrect := h.here.isStructureCorrect
  rw [nonTerminalDoInsert, require_of hcorrect, ok_bind, hmark, ok_bind]
  dsimp only
  rw [hloop]
  rfl

theorem Inv.nonTerminalDoRemove_eq {σ : Schedule} (hexist : exist = false)
    (hinner : node.children.length = node.keys.length + 1) (mods size : ℕ)
    (hself : UpdatesChildren A c t exist node keys left right self) :
    ({ node with modificationsCount := mods, curSize := size } : Node T).nonTerminalDoRemove A self
        σ keys t left right =
      .ok
        { node :=
            { node with
              keysExist := node.markedFlags exist (part keys left right)
              children := (node.parts (part keys left right)).map fun p ↦
                (slotUpdated A c t exist p.1 p.2).1
              modificationsCount := mods
              curSize := size }
          replacement := none
          rebuilds := node.rebuildsBelow A c t exist (part keys left right) } := by
  subst hexist
  obtain ⟨hmark, hloop⟩ := h.loops_eq hA hI hlt hright hb (σ := σ) hinner mods size
    (removeRange self keys t left right)
    fun s σ i b e slot hslot hcur hbe he hseg ↦
      h.removeRange_eq hslot hcur hright hbe he hseg hb hself
  have hcorrect : ({ node with modificationsCount := mods, curSize := size } :
      Node T).isStructureCorrect := h.here.isStructureCorrect
  rw [nonTerminalDoRemove, require_of hcorrect, ok_bind, hmark, ok_bind]
  dsimp only
  rw [hloop]
  rfl

end Procedures

/-- A procedure that updates all subtrees of less height updates the children of a node. -/
theorem Inv.updatesChildren (hI : I ⊆ W) (h : node.Inv t I)
    (hb : Admissible exist I node.live (part keys left right)) (hright : right ≤ keys.length)
    {fuel : ℕ} (hfuel : node.height ≤ fuel + 1)
    {self : Schedule → Node T → List T → ℕ → ℕ → ℕ → Checked (Outcome T)}
    (hself : ∀ child, some child ∈ node.children → ∀ {J : Set T}, J ⊆ W → child.Inv t J →
      ∀ {σ : Schedule} {l r : ℕ}, child.height ≤ fuel → l < r → r ≤ keys.length →
        Admissible exist J child.live (part keys l r) →
        self σ child keys t l r = .ok (updated A c t exist child (part keys l r))) :
    UpdatesChildren A c t exist node keys left right self := by
  intro σ i child hslot b e hbe he hseg
  have hmem := List.mem_of_getElem? hslot
  have hheight := slotHeight_lt hmem
  rw [slotHeight_some] at hheight
  rw [hseg]
  exact hself child hmem (fun x hx ↦ hI hx.1) (h.child hslot) (by omega) (by omega) (by omega)
    (hseg ▸ h.admissible_segment hb hslot)

/-- **`do_insert` is the functional insertion**, in every order of its loops. -/
theorem Inv.doInsert_eq (hA : A.ExactOn W) (ht : 1 ≤ t) : ∀ {node : Node T} {I : Set T}, I ⊆ W →
    node.Inv t I → ∀ {fuel : ℕ} {σ : Schedule} {keys : List T} {left right : ℕ},
      node.height ≤ fuel → left < right → right ≤ keys.length →
      Admissible true I node.live (part keys left right) →
      doInsert A c fuel σ node keys t left right =
        .ok (updated A c t true node (part keys left right)) := by
  intro node
  induction node using Node.induction with
  | step node ih =>
    intro I hI h fuel σ keys left right hfuel hlt hright hb
    have hlocal := h.here
    have hheight := height_eq node
    have hlen : (part keys left right).length = right - left := length_part hright
    obtain ⟨fuel, rfl⟩ : ∃ f, fuel = f + 1 := ⟨fuel - 1, by omega⟩
    -- the merge of two sorted arrays without a common key, as the assertion on it asks
    have hmerge : (mergeLists node.live (part keys left right)).SortedLT :=
      sortedLT_adjust (Inv.sortedLT_live h) hb.sorted hb.stored_iff
    rw [updated_eq]
    simp only [doInsert, require_of hlocal.isStructureCorrect, ok_bind,
      requireBorders_eq hlt hright, subtract_of_le hlt.le, hlocal.isTerminal_eq, Bool.or_eq_true,
      decide_eq_true_eq, hlen, true_and]
    split
    · rw [h.allKeysNotExist_eq hA hI hb rfl hlt.le hright, ok_bind, require_of rfl, ok_bind,
        h.getKeys_eq le_rfl, ok_bind, slice_of_le hlt.le hright, ok_bind,
        isSorted_of_sortedLT hmerge, ok_bind, require_of rfl, ok_bind,
        buildFromKeys_eq hA.toExact hmerge ht, ok_bind, pure_eq_ok, rebuildFrom, hlen]
    · rename_i hkeep
      have hinner : node.children.length = node.keys.length + 1 :=
        hlocal.children_length.resolve_left fun hzero ↦ hkeep (.inl hzero)
      have hself : UpdatesChildren A c t true node keys left right (doInsert A c fuel) :=
        h.updatesChildren hI hb hright hfuel fun child hmem _ hJ hinv ↦ ih child hmem hJ hinv
      rw [h.nonTerminalDoInsert_eq hA hI ht hlt hright hb rfl hinner _ _ hself]
      simp [inPlace, markedWith, hlen]

/-- The changes in place at a terminal node. -/
theorem Inv.removeInPlace_terminal (hA : A.ExactOn W) (hI : I ⊆ W) (h : node.Inv t I)
    (hright : right ≤ keys.length) (hb : Admissible false I node.live (part keys left right))
    (hterm : node.children.length = 0) (σ : Schedule) :
    ({ node with
        modificationsCount := node.modificationsCount + (right - left)
        curSize := node.curSize - (right - left) } : Node T).terminalDoRemove A σ keys left right =
      .ok { node := node.inPlace A c t false (part keys left right)
            replacement := none
            rebuilds := node.rebuildsBelow A c t false (part keys left right) } := by
  have hlen : (part keys left right).length = right - left := length_part hright
  have hnil : node.children = [] := List.length_eq_zero_iff.1 hterm
  rw [h.terminalDoRemove_eq hA hI hb rfl hterm hright]
  simp [inPlace, markedWith, rebuildsBelow, parts, hnil, hlen]

/-- The changes in place at an inner node and below. -/
theorem Inv.removeInPlace_inner (hA : A.ExactOn W) (hI : I ⊆ W) (h : node.Inv t I)
    (hlt : left < right) (hright : right ≤ keys.length)
    (hb : Admissible false I node.live (part keys left right))
    {self : Schedule → Node T → List T → ℕ → ℕ → ℕ → Checked (Outcome T)}
    (hself : UpdatesChildren A c t false node keys left right self)
    (hinner : node.children.length ≠ 0) (σ : Schedule) :
    ({ node with
        modificationsCount := node.modificationsCount + (right - left)
        curSize := node.curSize - (right - left) } : Node T).nonTerminalDoRemove A self σ keys t
        left right =
      .ok { node := node.inPlace A c t false (part keys left right)
            replacement := none
            rebuilds := node.rebuildsBelow A c t false (part keys left right) } := by
  have hlen : (part keys left right).length = right - left := length_part hright
  rw [h.nonTerminalDoRemove_eq hA hI hlt hright hb rfl (h.here.children_length.resolve_left hinner)
    _ _ hself]
  simp [inPlace, markedWith, hlen]

/-- The rebuild after the changes in place. -/
theorem Inv.rebuildAfterRemove_eq (hA : A.Exact) (ht : 1 ≤ t) (h : node.Inv t I)
    (hright : right ≤ keys.length) (hb : Admissible false I node.live (part keys left right))
    (σ : Schedule) :
    rebuildAfterRemove A c σ t
        (fun volume ↦ ⟨decide (node.children.length = 0), node.modificationsCount, right - left,
          volume⟩)
        { node := node.inPlace A c t false (part keys left right)
          replacement := none
          rebuilds := node.rebuildsBelow A c t false (part keys left right) } =
      .ok (updated A c t false node (part keys left right)) := by
  have hlen : (part keys left right).length = right - left := length_part hright
  have hinv : (node.inPlace A c t false (part keys left right)).Inv t I :=
    (h.slotSpec_inPlace hA ht hb (by simp)).inv _ rfl
  rw [updated_eq, rebuildAfterRemove]
  simp only [Bool.false_eq_true, false_and, if_false, true_and]
  split
  · rw [hinv.getKeys_eq le_rfl, ok_bind, isSorted_of_sortedLT (Inv.sortedLT_live hinv), ok_bind,
      require_of rfl, ok_bind, buildFromKeys_eq hA (Inv.sortedLT_live hinv) ht, ok_bind,
      pure_eq_ok, rebuildFrom, hlen]
  · rfl

/-- **`do_remove` is the functional removal**, in every order of its loops. -/
theorem Inv.doRemove_eq (hA : A.ExactOn W) (ht : 1 ≤ t) : ∀ {node : Node T} {I : Set T}, I ⊆ W →
    node.Inv t I → ∀ {fuel : ℕ} {σ : Schedule} {keys : List T} {left right : ℕ},
      node.height ≤ fuel → left < right → right ≤ keys.length →
      Admissible false I node.live (part keys left right) →
      doRemove A c fuel σ node keys t left right =
        .ok (updated A c t false node (part keys left right)) := by
  intro node
  induction node using Node.induction with
  | step node ih =>
    intro I hI h fuel σ keys left right hfuel hlt hright hb
    have hlocal := h.here
    have hheight := height_eq node
    have hlen : (part keys left right).length = right - left := length_part hright
    obtain ⟨fuel, rfl⟩ : ∃ f, fuel = f + 1 := ⟨fuel - 1, by omega⟩
    -- the assertion on `cur_size`: the keys to remove are all stored
    have hcount : right - left ≤ node.curSize := hlen ▸ h.length_le_curSize hb
    have hself : UpdatesChildren A c t false node keys left right (doRemove A c fuel) :=
      h.updatesChildren hI hb hright hfuel fun child hmem _ hJ hinv ↦ ih child hmem hJ hinv
    have hterminal : ({ node with
        modificationsCount := node.modificationsCount + (right - left)
        curSize := node.curSize - (right - left) } : Node T).isTerminal =
        .ok (decide (node.children.length = 0)) := hlocal.isTerminal_eq
    simp only [doRemove, require_of hlocal.isStructureCorrect, ok_bind,
      requireBorders_eq hlt hright, subtract_of_le hlt.le, require_of hcount,
      subtract_of_le hcount, hterminal, decide_eq_true_eq]
    split
    · rename_i hterm
      rw [h.removeInPlace_terminal hA hI hright hb hterm, ok_bind]
      exact h.rebuildAfterRemove_eq hA.toExact ht hright hb σ
    · rename_i hinner
      rw [h.removeInPlace_inner hA hI hlt hright hb hself hinner, ok_bind]
      exact h.rebuildAfterRemove_eq hA.toExact ht hright hb σ

/-- `do_insert` (`exist = true`) or `do_remove` (`exist = false`). -/
def doUpdate (A : Arith T) (exist : Bool) (c fuel : ℕ) (σ : Schedule) (node : Node T)
    (keys : List T) (sizeThreshold leftBorder rightBorder : ℕ) : Checked (Outcome T) :=
  if exist then doInsert A c fuel σ node keys sizeThreshold leftBorder rightBorder
  else doRemove A c fuel σ node keys sizeThreshold leftBorder rightBorder

/-- Both updates are the functional update. -/
theorem Inv.doUpdate_eq (hA : A.ExactOn W) (ht : 1 ≤ t) (hI : I ⊆ W) (h : node.Inv t I) {fuel : ℕ}
    (hfuel : node.height ≤ fuel) (hlt : left < right) (hright : right ≤ keys.length)
    (hb : Admissible exist I node.live (part keys left right)) (σ : Schedule) :
    node.doUpdate A exist c fuel σ keys t left right =
      .ok (updated A c t exist node (part keys left right)) := by
  rw [doUpdate]
  cases exist with
  | true => exact h.doInsert_eq hA ht hI hfuel hlt hright hb
  | false => exact h.doRemove_eq hA ht hI hfuel hlt hright hb

end Node

end Pbist
