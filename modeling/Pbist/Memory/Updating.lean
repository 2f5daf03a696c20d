import Pbist.Memory.Building
import Pbist.Memory.Flattening
import Pbist.Memory.Lookup
import Pbist.Refinement.Update

/-!
# Updating a tree in memory

`do_insert` and `do_remove` own the subtree that they are called on. While the loop over the keys
runs, each of its iterations owns one flag at most, and the keys of a batch are different; in the
loop over the ranges, each owns one child. The header is shared all the time.

## How the proof goes

It follows that for the checked functions, with pieces of memory in the place of values. `markFlags`
and `markKeys_gives` are the loop over the keys, `updateChildren_gives` the loop over the ranges for
any treatment of a range, and `useOptional_gives` what a caller does with the pointer that it gets.
`doInsert_spec` and `doRemove_spec` put them together, by induction on the fuel. What is returned is
the outcome of `updated`, so everything that is proved of it holds in memory as well.
-/

namespace Pbist

namespace Mem

open Checked Assertion Sorted

open scoped Pointwise

variable {T α : Type} [LinearOrder T] {s : Memory Part (Val T)} {node : Node T} {p t c : ℕ}
  {I W : Set T} {A : Doubles T} {left right : ℕ} {keys : List T} {exist : Bool}

/-! ### Flags -/

/-- The flags of the node at `p` with indices in `D`. -/
def flagsOn (p : ℕ) (flags : List Bool) (D : Finset ℕ) : Assertion Part (Val T) :=
  ∑ j ∈ D, flagAt p flags j

section Loops

variable (hinv : node.Inv t I) (hb : Admissible exist I node.live (part keys left right))

omit [LinearOrder T] in
theorem sum_flagsOn_eq {f : ℕ → Finset ℕ} {flags : List Bool} {D : Finset ℕ}
    (h : ∀ i ∈ D, ∀ j ∈ D, i ≠ j → Disjoint (f i) (f j)) :
    ∑ i ∈ D, flagsOn (T := T) p flags (f i) = flagsOn p flags (D.biUnion f) :=
  (Finset.sum_biUnion h).symm

theorem biUnion_markedAt (node : Node T) (keys : List T) (D : Finset ℕ) :
    (D.biUnion fun i ↦ node.markedAt keys {i}) = node.markedAt keys D := by
  ext j
  simp [Node.mem_markedAt]

theorem markedAt_empty (node : Node T) (keys : List T) : node.markedAt keys ∅ = ∅ := by
  rw [Node.markedAt, Node.foundAt, Finset.filter_empty, Finset.image_empty]

include hinv hb

/-- Two keys of the batch never share a flag. -/
theorem disjoint_markedAt {i j : ℕ} (hi : i ∈ Finset.Ico left right)
    (hj : j ∈ Finset.Ico left right) (hij : i ≠ j) :
    Disjoint (node.markedAt keys {i}) (node.markedAt keys {j}) := by
  refine Finset.disjoint_left.2 fun m hmi hmj ↦ ?_
  obtain ⟨i', hi', x, hx, hget, hrank⟩ := Node.mem_markedAt.1 hmi
  obtain rfl := Finset.mem_singleton.1 hi'
  obtain ⟨hlo, hhi⟩ := Finset.mem_Ico.1 hi
  refine hinv.rank_notMem_markedAt hb (Finset.singleton_subset_iff.2 hj) hlo hhi
    (fun hmem ↦ hij (Finset.mem_singleton.1 hmem)) hget hx ?_
  rwa [hrank]

/-- **The rule for the loops that mark flags**: each iteration only needs the flag of its key. -/
theorem markFlags {x : Code T α} {a : α} (hright : right ≤ keys.length)
    (h : Gives s
      (∑ i ∈ Finset.Ico left right, flagsOn p node.keysExist (node.markedAt keys {i})) x a
      (∑ i ∈ Finset.Ico left right,
        flagsOn p (node.markedFlags exist (part keys left right)) (node.markedAt keys {i}))) :
    Gives s (flagsAt p node.keysExist) x a
      (flagsAt p (node.markedFlags exist (part keys left right))) := by
  have hmarked := @Node.Inv.updateOn_markedAt T _ t exist I node keys left right hinv hright
  have hlen : (node.markedFlags exist (part keys left right)).length = node.keysExist.length := by
    rw [Node.length_markedFlags exist _ hinv.here, hinv.here.exist_length]
  have hsub : node.markedAt keys (Finset.Ico left right) ⊆ Finset.range node.keysExist.length := by
    intro j hj
    obtain ⟨i, -, x, hx, -, rfl⟩ := Node.mem_markedAt.1 hj
    rw [Finset.mem_range, hinv.here.exist_length]
    exact rank_lt_length hinv.here.sorted hx
  -- the flags that no key of the batch belongs to stay as they are
  have hrest : flagsOn (T := T) p (node.markedFlags exist (part keys left right))
        (Finset.range node.keysExist.length \ node.markedAt keys (Finset.Ico left right)) =
      flagsOn p node.keysExist
        (Finset.range node.keysExist.length \ node.markedAt keys (Finset.Ico left right)) :=
    Finset.sum_congr rfl fun j hj ↦ by
      rw [flagAt, flagAt, ← hmarked, getElem?_updateOn_of_notMem (Finset.mem_sdiff.1 hj).2]
  rw [sum_flagsOn_eq fun i hi j hj ↦ disjoint_markedAt hinv hb hi hj,
    sum_flagsOn_eq fun i hi j hj ↦ disjoint_markedAt hinv hb hi hj, biUnion_markedAt] at h
  rw [flagsAt, flagsAt, hlen, ← Finset.sum_sdiff hsub, ← Finset.sum_sdiff hsub]
  have hframe := h.frameLeft (flagsOn p node.keysExist
    (Finset.range node.keysExist.length \ node.markedAt keys (Finset.Ico left right)))
  nth_rewrite 2 [← hrest] at hframe
  exact hframe

/-- The flag of a key of the batch that is in the node, before and after the loop. -/
theorem flagsOn_of_mem {i : ℕ} (hi : i < keys.length) (hlo : left ≤ i) (hhi : i < right)
    (hmem : keys[i] ∈ node.keys) :
    flagsOn (T := T) p node.keysExist (node.markedAt keys {i}) =
        pointsTo (p, .keysExist (rank node.keys keys[i])) (.flag !exist) ∧
      flagsOn (T := T) p (node.markedFlags exist (part keys left right))
          (node.markedAt keys {i}) =
        pointsTo (p, .keysExist (rank node.keys keys[i])) (.flag exist) := by
  have hget : keys[i]? = some keys[i] := List.getElem?_eq_getElem hi
  have hkey := getElem?_rank hinv.here.sorted hmem
  have hpart : keys[i] ∈ part keys left right := getElem_mem_part hlo hhi hi
  have hmarked : node.markedAt keys {i} = {rank node.keys keys[i]} := by
    have hinsert := node.markedAt_insert_of_mem (D := ∅) hget hmem
    rwa [insert_empty_eq, markedAt_empty, insert_empty_eq] at hinsert
  rw [hmarked, flagsOn, flagsOn, Finset.sum_singleton, Finset.sum_singleton, flagAt, flagAt,
    hinv.flag_of_mem_batch hb hkey hpart, Node.getElem?_markedFlags hinv.here hkey, if_pos hpart]
  exact ⟨rfl, rfl⟩

omit hinv hb in
theorem markedAt_of_notMem {i : ℕ} (hi : i < keys.length) (hmem : keys[i] ∉ node.keys) :
    node.markedAt keys {i} = ∅ := by
  have hinsert := node.markedAt_insert_of_notMem (D := ∅) (List.getElem?_eq_getElem hi) hmem
  rwa [insert_empty_eq, markedAt_empty] at hinsert

variable (hA : A.AdequateOn W) (hI : I ⊆ W) (hheader : SharedHeader s p node)

include hA hI hheader

/-- One key in the first loop of the two procedures. -/
theorem markKey_gives {cells i : ℕ} (hi : i < keys.length) (hlo : left ≤ i) (hhi : i < right) :
    Gives s (pointsTo (cells, .entry (i - left)) .raw +
        flagsOn p node.keysExist (node.markedAt keys {i}))
      (markKey A exist keys p left right cells i) ()
      (pointsTo (cells, .entry (i - left)) (.index (childOf node.keys keys[i])) +
        flagsOn p (node.markedFlags exist (part keys left right)) (node.markedAt keys {i})) := by
  rw [markKey, assert_of ⟨hlo, hhi⟩, Prog.pure_bind, get_of_lt hi, lift_ok, Prog.pure_bind]
  refine (hheader.doSearch hA hinv.here hI keys[i]).andThen ?_
  rw [subtract_of_le hlo, lift_ok, Prog.pure_bind]
  dsimp only
  by_cases hmem : keys[i] ∈ node.keys
  · obtain ⟨hbefore, hafter⟩ := @flagsOn_of_mem T _ node p t I left right keys exist hinv hb i hi
      hlo hhi hmem
    rw [decide_eq_true hmem, if_pos rfl, hbefore, hafter, childOf, if_pos hmem]
    refine hheader.bind fun hd hof ↦ ?_
    rw [hof.keys_eq, assert_of (rank_lt_length hinv.here.sorted hmem), Prog.pure_bind,
      get_of_getElem? (getElem?_rank hinv.here.sorted hmem), lift_ok, Prog.pure_bind,
      assert_of rfl, Prog.pure_bind]
    refine Gives.seq (Gives.readAs (flag?_flag _)) _ (add_comm _ _) ?_
    rw [assert_of rfl, Prog.pure_bind]
    refine Gives.store.seq _ rfl ?_
    rw [add_comm]
    exact Gives.store.frame _
  · rw [decide_eq_false hmem, if_neg Bool.false_ne_true, markedAt_of_notMem hi hmem, childOf,
      if_neg hmem, flagsOn, flagsOn, Finset.sum_empty, Finset.sum_empty, add_zero, add_zero]
    exact Gives.store

/-- **The first loop of the two procedures marks the flags** of the keys that it finds. -/
theorem markKeys_gives (hle : left ≤ right) (hright : right ≤ keys.length) :
    Gives s (flagsAt p node.keysExist)
      (childIdxLoop left right (markKey A exist keys p left right))
      (routing node.keys (part keys left right))
      (flagsAt p (node.markedFlags exist (part keys left right))) :=
  markFlags hinv hb hright (childIdxLoop_spec hle hright fun _ _ hi hlo hhi ↦
    markKey_gives hinv hb hA hI hheader hi hlo hhi)

/-- The loop of `do_remove` at a terminal node. -/
theorem removeKeys_gives (hexist : exist = false) (hterm : node.children.length = 0)
    (hle : left ≤ right) (hright : right ≤ keys.length) :
    Gives s (flagsAt p node.keysExist)
      (Prog.parallel (removeKey A keys p) left (right - left)) ()
      (flagsAt p (node.markedFlags exist (part keys left right))) := by
  subst hexist
  have hloop := @Gives.parallel _ _ s (removeKey A keys p)
    (fun i ↦ flagsOn p node.keysExist (node.markedAt keys {i}))
    (fun i ↦ flagsOn p (node.markedFlags false (part keys left right)) (node.markedAt keys {i}))
    (right - left) left fun i hlo hhi ↦ by
      rw [Nat.add_sub_cancel' hle] at hhi
      have hi : i < keys.length := by omega
      -- a terminal node stores no keys but its own, so the key is found
      have hmem : keys[i] ∈ node.keys :=
        hb.mem_keys_of_terminal (by simp) hterm _ (getElem_mem_part hlo hhi hi)
      obtain ⟨hbefore, hafter⟩ := @flagsOn_of_mem T _ node p t I left right keys false hinv hb i hi
        hlo hhi hmem
      rw [removeKey, get_of_lt hi, lift_ok, Prog.pure_bind]
      refine (hheader.doSearch hA hinv.here hI keys[i]).andThen (hheader.bind fun hd hof ↦ ?_)
      rw [hof.keys_eq, assert_of ⟨decide_eq_true hmem, rank_lt_length hinv.here.sorted hmem⟩,
        Prog.pure_bind, get_of_getElem? (getElem?_rank hinv.here.sorted hmem), lift_ok,
        Prog.pure_bind, assert_of rfl, Prog.pure_bind, hbefore, hafter]
      refine Gives.bind (Gives.readAs (flag?_flag _)) ?_
      rw [assert_of (show (!false) = true from rfl), Prog.pure_bind]
      exact Gives.store
  rw [Nat.add_sub_cancel' hle] at hloop
  exact markFlags hinv hb hright hloop

end Loops

/-! ### The loop over the ranges -/

section Outcome

omit [LinearOrder T]

/-- The subtree behind a returned `optional`. -/
def replacementAt : Option (Option (Node T)) → Option (Option ℕ) → Assertion Part (Val T)
  | none, none => 0
  | some slot, some q => ownedAt slot q
  | _, _ => ∅

/-- What a procedure leaves behind that returned `res`. -/
def outcomeAt (p : ℕ) (out : Outcome T) (res : Option (Option ℕ)) : Assertion Part (Val T) :=
  nodeAt out.node p + replacementAt out.replacement res

/-- **The caller of a procedure uses what it returns**: the old subtree is freed if there is a new
one. -/
theorem useOptional_gives {l : Loc Part} {out : Outcome T} {res : Option (Option ℕ)}
    (h : out.replacement ≠ none → out.node.height ≤ maxDepth) :
    Gives s (pointsTo l (.pointer (some p)) + outcomeAt p out res) (useOptional l res) ()
      (slotAt l out.slot) := by
  obtain ⟨node, replacement, rebuilds⟩ := out
  rw [outcomeAt]
  rcases replacement with - | slot <;> rcases res with - | q
  · rw [replacementAt, add_zero]
    exact Gives.ret.spec fun m hm ↦ ⟨rfl, Set.mem_iUnion.2 ⟨some p, hm⟩⟩
  · rw [replacementAt, Set.add_empty, Set.add_empty]
    · exact Set.empty_subset _
    · simp
    · simp
  · rw [replacementAt, Set.add_empty, Set.add_empty]
    · exact Set.empty_subset _
    · simp
    · simp
  · have hdelete : Gives s (nodeAt node p) (delete maxDepth (some p)) () 0 :=
      @delete_gives T s maxDepth (some node) (some p) (h (by simp))
    refine Gives.seq (Gives.readAs (pointer?_pointer _)) _ rfl ?_
    refine hdelete.consume (pointsTo l (.pointer (some p)) + ownedAt slot q) (by
      rw [replacementAt]
      ac_rfl) ?_
    exact storePointer

end Outcome

section Ranges

variable {batch : List T} {E : Arith T}

theorem length_slots :
    ((node.parts batch).map fun q ↦ (slotUpdated E c t exist q.1 q.2).1).length =
      node.children.length := by
  rw [List.length_map, Node.parts, List.length_mapIdx]

/-- **The loop over the ranges updates the children**, if one iteration updates its child. -/
theorem updateChildren_gives (hheader : SharedHeader s p node) (hinv : node.Inv t I)
    (hinner : node.children.length = node.keys.length + 1) (hb : batch.SortedLT) (hne : batch ≠ [])
    {onRange : ℕ → ℕ → ℕ → Code T Unit}
    (hstep : ∀ (i b e : ℕ) (slot : Option (Node T)), node.children[i]? = some slot → b < e →
      e ≤ batch.length → segment node.keys i batch = part batch b e →
      Gives s (slotAt (p, .children i) slot) (onRange i b e) ()
        (slotAt (p, .children i) (slotUpdated E c t exist slot (segment node.keys i batch)).1)) :
    Gives s (slotsAt p node.children) (forEachRange p (routing node.keys batch) onRange) ()
      (slotsAt p ((node.parts batch).map fun q ↦ (slotUpdated E c t exist q.1 q.2).1)) := by
  have hparts : ∀ (i : ℕ) (slot : Option (Node T)), node.children[i]? = some slot →
      ((node.parts batch).map fun q ↦ (slotUpdated E c t exist q.1 q.2).1)[i]? =
        some (slotUpdated E c t exist slot (segment node.keys i batch)).1 := by
    intro i slot hslot
    rw [List.getElem?_map, Node.getElem?_parts, hslot, Option.map_some, Option.map_some]
  rw [slotsAt, slotsAt, length_slots]
  refine hheader.forEachRange hinv.here hinner hb hne (fun i hi ↦ ?_) (fun i hi hnot ↦ ?_)
    fun i b e htouched hbe he hrange ↦ ?_
  · have hlt := Finset.mem_range.1 (Finset.mem_filter.1 hi).1
    exact Finset.mem_range.2 (by omega)
  · -- a child that gets no keys stays as it is
    have hi := Finset.mem_range.1 hi
    have hseg : segment node.keys i batch = [] := by
      by_contra hcon
      exact hnot (Finset.mem_filter.2 ⟨Finset.mem_range.2 (by omega), hcon⟩)
    have hslot : node.children[i]? = some node.children[i] := List.getElem?_eq_getElem hi
    rw [hparts i _ hslot, hslot, hseg, slotUpdated_nil]
  · have hi := Finset.mem_range.1 (Finset.mem_filter.1 htouched).1
    have hslot : node.children[i]? = some node.children[i] :=
      List.getElem?_eq_getElem (by omega)
    rw [hparts i _ hslot, hslot, Option.getD_some, Option.getD_some]
    exact hstep i b e _ hslot hbe he (segment_eq_part hbe.le hrange)

/-- What the loop over the ranges asks of the recursive call. -/
def UpdatesChildren (s : Memory Part (Val T)) (E : Arith T) (c t : ℕ) (exist : Bool)
    (node : Node T) (keys : List T) (left right : ℕ)
    (self : ℕ → ℕ → ℕ → Code T (Option (Option ℕ))) : Prop :=
  ∀ (i : ℕ) (child : Node T), node.children[i]? = some (some child) → ∀ a b e : ℕ, b < e →
    left + e ≤ right →
    segment node.keys i (part keys left right) = part keys (left + b) (left + e) →
    ((updated E c t exist child (part keys (left + b) (left + e))).replacement ≠ none →
      (updated E c t exist child (part keys (left + b) (left + e))).node.height ≤ maxDepth) ∧
    Spec s (nodeAt child a) (self a (left + b) (left + e))
      (outcomeAt a (updated E c t exist child (part keys (left + b) (left + e))))

variable {self : ℕ → ℕ → ℕ → Code T (Option (Option ℕ))} {i b e : ℕ} {slot : Option (Node T)}
  (hslot : node.children[i]? = some slot) (hright : right ≤ keys.length) (hbe : b < e)
  (he : e ≤ (part keys left right).length)
  (hseg : segment node.keys i (part keys left right) = part (part keys left right) b e)

include hslot hright hbe he hseg

/-- One range, at a child that is not null. -/
theorem UpdatesChildren.step (hself : UpdatesChildren s E c t exist node keys left right self)
    {child : Node T} (hchild : slot = some child) {a : ℕ} :
    Gives s (pointsTo (p, .children i) (.pointer (some a)) + nodeAt child a) (do
        let res ← self a (left + b) (left + e)
        useOptional (p, .children i) res) ()
      (slotAt (p, .children i)
        (slotUpdated E c t exist slot (segment node.keys i (part keys left right))).1) := by
  subst hchild
  have hlen : (part keys left right).length = right - left := length_part hright
  have hpart : segment node.keys i (part keys left right) = part keys (left + b) (left + e) := by
    rw [hseg, part_part keys (by omega)]
  have hne : segment node.keys i (part keys left right) ≠ [] := by
    rw [hseg]
    exact List.ne_nil_of_length_pos (by rw [length_part he]; omega)
  obtain ⟨hheight, hspec⟩ := hself i child hslot a b e hbe (by omega) hpart
  rw [slotUpdated_some hne, hpart]
  refine hspec.seq _ (add_comm _ _) fun res ↦ ?_
  rw [add_comm]
  exact useOptional_gives hheight

/-- One range of the second loop of `non_terminal_do_insert`. -/
theorem insertRange_gives (hA : A.AdequateOn W) (ht : 1 ≤ t)
    (hsorted : (part keys left right).SortedLT) (hmem : ∀ x ∈ part keys left right, x ∈ W)
    (hself : UpdatesChildren s A.reference c t true node keys left right self) :
    Gives s (slotAt (p, .children i) slot)
      (insertRange A self keys t p left right i b e) ()
      (slotAt (p, .children i)
        (slotUpdated A.reference c t true slot
          (segment node.keys i (part keys left right))).1) := by
  have hlen : (part keys left right).length = right - left := length_part hright
  rw [insertRange, Node.nextBorders_eq hbe (by omega), lift_ok, Prog.pure_bind]
  rw [← add_zero (slotAt (p, .children i) slot)]
  refine readSlot (fun hnone ↦ ?_) fun child a hchild ↦ by
    rw [add_zero]
    exact hself.step hslot hright hbe he hseg hchild
  -- a null pointer gets a tree that is built from its keys
  subst hnone
  have hpart : segment node.keys i (part keys left right) = part keys (left + b) (left + e) := by
    rw [hseg, part_part keys (by omega)]
  have hne : segment node.keys i (part keys left right) ≠ [] := by
    rw [hseg]
    exact List.ne_nil_of_length_pos (by rw [length_part he]; omega)
  rw [slotUpdated_none hne, if_pos rfl, hpart, add_zero]
  exact storeBuilt (doBuildFromKeys_spec hA ht (by omega) (by omega)
    (hpart ▸ sortedLT_segment hsorted)
    (fun x hx ↦ hmem x (List.mem_of_mem_filter (hpart ▸ hx))) (by omega))

/-- One range of the second loop of `non_terminal_do_remove`. -/
theorem removeRange_gives (hinv : node.Inv t I)
    (hb : Admissible false I node.live (part keys left right))
    (hself : UpdatesChildren s E c t false node keys left right self) :
    Gives s (slotAt (p, .children i) slot) (removeRange self p left right i b e) ()
      (slotAt (p, .children i)
        (slotUpdated E c t false slot (segment node.keys i (part keys left right))).1) := by
  have hlen : (part keys left right).length = right - left := length_part hright
  rw [removeRange, Node.nextBorders_eq hbe (by omega), lift_ok, Prog.pure_bind]
  rw [← add_zero (slotAt (p, .children i) slot)]
  refine readSlot (fun hnone ↦ ?_) fun child a hchild ↦ by
    rw [add_zero]
    exact hself.step hslot hright hbe he hseg hchild
  -- the keys of a segment are stored below its child, so the child is not null
  subst hnone
  have hadm := hinv.admissible_segment hb hslot
  have hne : segment node.keys i (part keys left right) ≠ [] := by
    rw [hseg]
    exact List.ne_nil_of_length_pos (by rw [length_part he]; omega)
  obtain ⟨x, hx⟩ := List.exists_mem_of_ne_nil _ hne
  simpa using (hadm.stored_iff x hx).2 rfl

end Ranges

/-! ### The procedures -/

/-- None of the keys to insert is stored in the node. -/
theorem allKeysNotExist_gives (h : Stored s node p) (hA : A.AdequateOn W) (hI : I ⊆ W)
    (hinv : node.Inv t I) (hb : Admissible true I node.live (part keys left right))
    (hle : left ≤ right) (hright : right ≤ keys.length) :
    Gives s 0 (allKeysNotExist A keys p left right) true 0 := by
  have hkey : ∀ i < right - left, Gives s 0 (keyNotExists A keys p left i) true 0 := by
    intro i hi
    have hlt : left + i < keys.length := by omega
    rw [keyNotExists, get_of_lt hlt, lift_ok, Prog.pure_bind]
    refine (h.header.doSearch hA hinv.here hI keys[left + i]).andThen ?_
    dsimp only
    by_cases hmem : keys[left + i] ∈ node.keys
    · have hlive := hb.stored_iff _ (getElem_mem_part (by omega) (by omega) hlt)
      have hnot : keys[left + i] ∉ node.live := fun hcon ↦ absurd (hlive.1 hcon) (by simp)
      have hflag := getElem?_keysExist_rank hinv hmem
      rw [decide_eq_false hnot] at hflag
      rw [decide_eq_true hmem, if_pos rfl]
      refine h.header.bind fun hd hof ↦ ?_
      rw [hof.keys_eq, assert_of (rank_lt_length hinv.here.sorted hmem), Prog.pure_bind,
        get_of_getElem? (getElem?_rank hinv.here.sorted hmem), lift_ok, Prog.pure_bind,
        assert_of rfl, Prog.pure_bind]
      exact Gives.andThen (Gives.readShared (h.flag hflag) rfl) Gives.ret
    · rw [decide_eq_false hmem, if_neg Bool.false_ne_true]
      exact Gives.ret
  refine (h.header.checkStructure _ (require_of hinv.here.isStructureCorrect)).andThen ?_
  rw [subtract_of_le hle, lift_ok, Prog.pure_bind]
  refine (tabulateArray_spec flag?_flag (l := List.replicate (right - left) true)
    (List.length_replicate ..) fun i a ha ↦ ?_).andThen ?_
  · obtain ⟨hi, rfl⟩ := List.getElem?_eq_some_iff.1 ha
    rw [List.getElem_replicate]
    exact hkey i (by simpa using hi)
  · rw [foldl_and_eq_true.2 ⟨rfl, fun a ha ↦ List.eq_of_mem_replicate ha⟩]
    exact Gives.ret

/-- The part of a node that the updates in place change: everything but the header. -/
def bodyAt (p : ℕ) (node : Node T) : Assertion Part (Val T) :=
  countersAt p node + (flagsAt p node.keysExist + slotsAt p node.children)

omit [LinearOrder T] in
theorem nodeAt_eq_body (node : Node T) (p : ℕ) : nodeAt node p = bodyAt p node + headerAt p node :=
  nodeAt_eq node p

/-- An update in place does not change the header. -/
theorem headerAt_markedWith {batch : List T} {children : List (Option (Node T))}
    (hlocal : node.Local t I) (hlen : children.length = node.children.length) :
    headerAt p (node.markedWith exist batch children) = headerAt p node := by
  have hflags : (node.markedFlags exist batch).length = node.keysExist.length := by
    rw [Node.length_markedFlags exist _ hlocal, hlocal.exist_length]
  have hof : ∀ hd : Header T, hd.Of (node.markedWith exist batch children) ↔ hd.Of node :=
    fun hd ↦ ⟨fun h ↦ ⟨h.keys_eq, h.existSize_eq.trans hflags, h.childrenSize_eq.trans hlen,
        h.initialSize_eq, h.id_entries⟩,
      fun h ↦ ⟨h.keys_eq, h.existSize_eq.trans hflags.symm, h.childrenSize_eq.trans hlen.symm,
        h.initialSize_eq, h.id_entries⟩⟩
  exact Set.iUnion_congr_of_surjective _ (Equiv.subtypeEquivRight hof).surjective fun _ ↦ rfl

omit [LinearOrder T] in
/-- The counters of the node change. -/
theorem addModifications_gives {n : ℕ} :
    Gives s (pointsTo (p, .modificationsCount) (.count c)) (addModifications (T := T) p n) ()
      (pointsTo (p, .modificationsCount) (.count (c + n))) :=
  Gives.bind (Gives.readAs (count?_count c)) Gives.store

section Procedures

variable {E : Arith T} {self : ℕ → ℕ → ℕ → Code T (Option (Option ℕ))}
  (hA : A.AdequateOn W) (hI : I ⊆ W) (ht : 1 ≤ t) (hinv : node.Inv t I)
  (hlt : left < right) (hright : right ≤ keys.length)
  (hb : Admissible exist I node.live (part keys left right))

include hA hI hinv hlt hright hb

/-- The two loops of the procedures at an inner node, if one iteration of the second one updates its
child. -/
theorem nonTerminalUpdate_gives (hheader : SharedHeader s p node)
    (hinner : node.children.length = node.keys.length + 1)
    {onRange : ℕ → ℕ → ℕ → Code T Unit}
    (hstep : ∀ (i b e : ℕ) (slot : Option (Node T)), node.children[i]? = some slot → b < e →
      e ≤ (part keys left right).length →
      segment node.keys i (part keys left right) = part (part keys left right) b e →
      Gives s (slotAt (p, .children i) slot) (onRange i b e) ()
        (slotAt (p, .children i)
          (slotUpdated E c t exist slot (segment node.keys i (part keys left right))).1)) :
    Gives s (flagsAt p node.keysExist + slotsAt p node.children)
      (nonTerminalUpdate A exist onRange keys p left right) ()
      (flagsAt p (node.markedFlags exist (part keys left right)) +
        slotsAt p ((node.parts (part keys left right)).map fun q ↦
          (slotUpdated E c t exist q.1 q.2).1)) := by
  have hne : part keys left right ≠ [] :=
    List.ne_nil_of_length_pos (by rw [length_part hright]; omega)
  refine (hheader.checkStructure _ (require_of hinv.here.isStructureCorrect)).andThen ?_
  refine (markKeys_gives hinv hb hA hI hheader hlt.le hright).seq _ rfl ?_
  exact (updateChildren_gives hheader hinv hinner hb.sorted hne hstep).frameLeft _

end Procedures

/-- A node that is to be replaced can be deleted. -/
theorem height_updated_le (hA : A.AdequateOn W) (hI : I ⊆ W) (ht : 1 ≤ t) (hinv : node.Inv t I)
    {batch : List T} (hb : Admissible exist I node.live batch)
    (h : (updated A.reference c t exist node batch).replacement ≠ none) :
    (updated A.reference c t exist node batch).node.height ≤ maxDepth := by
  rcases Pbist.updated_cases A.reference c t exist node batch with
    ⟨rfl, -, heq⟩ | ⟨-, -, heq⟩ | ⟨rfl, -, heq⟩
  · rw [heq]
    exact hA.height_le hI hinv
  · exact absurd (congrArg Outcome.replacement heq) h
  · rw [heq]
    exact hA.height_le hI ((hinv.slotSpec_inPlace hA.exact_reference ht hb (by simp)).inv _ rfl)

/-- A procedure that updates all subtrees of less height updates the children of a node. -/
theorem updatesChildren_of (hA : A.AdequateOn W) (hI : I ⊆ W) (ht : 1 ≤ t) (hinv : node.Inv t I)
    (hb : Admissible exist I node.live (part keys left right)) (hright : right ≤ keys.length)
    {fuel : ℕ} (hfuel : node.height ≤ fuel + 1)
    {self : ℕ → ℕ → ℕ → Code T (Option (Option ℕ))}
    (hself : ∀ {child : Node T} {a : ℕ} {J : Set T} {l r : ℕ}, J ⊆ W → child.Inv t J →
      child.height ≤ fuel → l < r → r ≤ keys.length →
      Admissible exist J child.live (part keys l r) →
      Spec s (nodeAt child a) (self a l r)
        (outcomeAt a (updated A.reference c t exist child (part keys l r)))) :
    UpdatesChildren s A.reference c t exist node keys left right self := by
  intro i child hslot a b e hbe he hseg
  have hmem := List.mem_of_getElem? hslot
  have hheight := Node.slotHeight_lt hmem
  rw [slotHeight_some] at hheight
  have hadm := hinv.admissible_segment hb hslot
  rw [hseg] at hadm
  exact ⟨height_updated_le hA (fun x hx ↦ hI hx.1) ht (hinv.child hslot) hadm,
    hself (fun x hx ↦ hI hx.1) (hinv.child hslot) (by omega) (by omega) (by omega) hadm⟩

/-- A subtree is built and returned, beside the old one. -/
theorem returnBuilt (hA : A.AdequateOn W) (ht : 1 ≤ t) {newKeys : List T} (h : newKeys.SortedLT)
    (hmem : ∀ x ∈ newKeys, x ∈ W) :
    Spec s (nodeAt node p) (do
        let sorted ← lift (isSorted newKeys)
        assert (sorted = true)
        let built ← buildFromKeys A newKeys t
        pure (some built)) fun res ↦
      nodeAt node p + replacementAt (some (buildTree A.reference t newKeys)) res := by
  rw [isSorted_of_sortedLT h, lift_ok, Prog.pure_bind, assert_of rfl, Prog.pure_bind]
  exact (buildFromKeys_spec hA ht h hmem).seq _ (zero_add _).symm fun q ↦
    Spec.ret (add_comm _ _).subset

/-- A rebuild from the keys of the node and the batch. -/
theorem rebuildWithBatch_spec (hA : A.AdequateOn W) (hI : I ⊆ W) (ht : 1 ≤ t) (hinv : node.Inv t I)
    (hlt : left < right) (hright : right ≤ keys.length)
    (hb : Admissible true I node.live (part keys left right)) :
    Spec s (nodeAt node p) (rebuildWithBatch A keys t p left right) fun res ↦
      nodeAt node p + replacementAt
        (some (buildTree A.reference t (mergeLists node.live (part keys left right)))) res := by
  have hmerge : (mergeLists node.live (part keys left right)).SortedLT :=
    sortedLT_adjust (Node.Inv.sortedLT_live hinv) hb.sorted hb.stored_iff
  refine (readNode fun s' h ↦
    allKeysNotExist_gives h hA hI hinv hb hlt.le hright).bind ?_
  rw [assert_of rfl, Prog.pure_bind]
  refine (readNode fun s' h ↦ h.getKeys hinv (hA.height_le hI hinv)).bind ?_
  rw [slice_of_le hlt.le hright, lift_ok, Prog.pure_bind]
  refine returnBuilt hA ht hmerge fun x hx ↦ hI ?_
  rcases mem_mergeLists.1 hx with hlive | hbatch
  · exact Node.Inv.live_mem hinv hlive
  · exact hb.mem x hbatch

/-- What is left to show when the cells of the node are changed and its header is not. -/
theorem inPlace_of_body {E : Arith T} {batch : List T} {x : Code T Unit}
    (hlocal : node.Local t I)
    (h : ∀ s' : Memory Part (Val T), SharedHeader s' p node →
      Gives s' (bodyAt p node) x () (bodyAt p (node.inPlace E c t exist batch))) :
    Gives s (nodeAt node p) x () (nodeAt (node.inPlace E c t exist batch) p) := by
  have hheader : headerAt p (node.inPlace E c t exist batch) = headerAt p node :=
    headerAt_markedWith hlocal length_slots
  rw [nodeAt_eq_body, nodeAt_eq_body, hheader]
  exact Gives.share fun r hr ↦ h (s + r) (sharedHeader_of_mem hr (Multiset.le_add_left _ _))

/-- The cells of the node after an update in place by `n` keys. -/
theorem bodyAt_inPlace (E : Arith T) {batch : List T} {n : ℕ} (hn : batch.length = n) :
    bodyAt p (node.inPlace E c t exist batch) =
      pointsTo (p, .curSize)
          (.count (if exist then node.curSize + n else node.curSize - n)) +
        pointsTo (p, .modificationsCount) (.count (node.modificationsCount + n)) +
        (flagsAt p (node.markedFlags exist batch) +
          slotsAt p ((node.parts batch).map fun q ↦ (slotUpdated E c t exist q.1 q.2).1)) := by
  rw [← hn]
  rfl

/-- The insertion at an inner node that is not rebuilt. -/
theorem insertInPlace_gives (hA : A.AdequateOn W) (hI : I ⊆ W) (ht : 1 ≤ t) (hinv : node.Inv t I)
    (hlt : left < right) (hright : right ≤ keys.length)
    (hb : Admissible true I node.live (part keys left right))
    (hinner : node.children.length = node.keys.length + 1)
    {self : ℕ → ℕ → ℕ → Code T (Option (Option ℕ))}
    (hself : ∀ s' : Memory Part (Val T),
      UpdatesChildren s' A.reference c t true node keys left right self) :
    Gives s (nodeAt node p) (insertInPlace A self keys t p left right (right - left)) ()
      (nodeAt (node.inPlace A.reference c t true (part keys left right)) p) := by
  have hlen : (part keys left right).length = right - left := length_part hright
  refine inPlace_of_body hinv.here fun s' hheader ↦ ?_
  have hloops := nonTerminalUpdate_gives hA hI hinv hlt hright hb hheader hinner
    fun i b e slot hslot hbe he hseg ↦ insertRange_gives (p := p) hslot hright hbe he hseg hA ht
      hb.sorted (fun x hx ↦ hI (hb.mem x hx)) (hself s')
  rw [bodyAt_inPlace _ hlen, bodyAt, countersAt, if_pos rfl]
  refine addModifications_gives.seq (pointsTo (p, .curSize) (.count node.curSize) +
    (flagsAt p node.keysExist + slotsAt p node.children)) (by ac_rfl) ?_
  refine Gives.seq (Gives.readAs (count?_count node.curSize)) (pointsTo (p, .modificationsCount) _ +
    (flagsAt p node.keysExist + slotsAt p node.children)) (by ac_rfl) ?_
  refine Gives.store.seq _ rfl ?_
  rw [← add_assoc]
  exact hloops.frameLeft _

/-- **`do_insert` is the functional insertion**, in every interleaving of its threads. -/
theorem doInsert_spec (hA : A.AdequateOn W) (ht : 1 ≤ t) {fuel : ℕ} : ∀ {node : Node T} {p : ℕ}
    {I : Set T} {left right : ℕ}, I ⊆ W → node.Inv t I → node.height ≤ fuel → left < right →
      right ≤ keys.length → Admissible true I node.live (part keys left right) →
      Spec s (nodeAt node p) (doInsert A c keys t fuel p left right)
        (outcomeAt p (updated A.reference c t true node (part keys left right))) := by
  induction fuel generalizing s with
  | zero =>
    intro node p I left right _ _ hfuel
    have hheight := Node.height_eq node
    omega
  | succ fuel ih =>
    intro node p I left right hI hinv hfuel hlt hright hb
    have hlocal := hinv.here
    have hlen : (part keys left right).length = right - left := length_part hright
    have heq := updated_eq A.reference c t true node (part keys left right)
    rw [doInsert]
    dsimp only
    refine (readNode fun s' h ↦ h.header.checkStructure _
      (require_of hlocal.isStructureCorrect)).bind ?_
    rw [Node.requireBorders_eq hlt hright, lift_ok, Prog.pure_bind, subtract_of_le hlt.le, lift_ok,
      Prog.pure_bind]
    refine (readNode fun s' h ↦ h.header.isTerminal _ hlocal.isTerminal_eq).bind ?_
    refine Gives.bind (readNode fun s' h ↦ (?_ : Gives s' 0 _
      (decide (node.children.length = 0) || node.shouldRebuild c (right - left)) 0)) ?_
    · split
      · rename_i hterm
        rw [hterm, Bool.true_or]
        exact Gives.ret
      · rename_i hterm
        rw [Bool.eq_false_iff.2 hterm, Bool.false_or]
        exact h.shouldRebuild c (right - left)
    split
    · rename_i hrebuild
      rw [if_pos ⟨rfl, by simpa [hlen] using hrebuild⟩] at heq
      rw [heq]
      exact rebuildWithBatch_spec hA hI ht hinv hlt hright hb
    · rename_i hkeep
      have hinner : node.children.length = node.keys.length + 1 :=
        hlocal.children_length.resolve_left fun hzero ↦ hkeep (by simp [hzero])
      rw [if_neg (fun hcon ↦ hkeep (by simpa [hlen] using hcon.2)), if_neg (by simp)] at heq
      rw [heq]
      refine (insertInPlace_gives hA hI ht hinv hlt hright hb hinner fun s' ↦
        updatesChildren_of hA hI ht hinv hb hright hfuel ih).bind (Spec.ret ?_)
      rw [outcomeAt, replacementAt, add_zero]

/-- The changes of `do_remove` at the node and below. -/
theorem removeInPlace_gives (hA : A.AdequateOn W) (hI : I ⊆ W) (hinv : node.Inv t I)
    (hlt : left < right) (hright : right ≤ keys.length)
    (hb : Admissible false I node.live (part keys left right))
    {self : ℕ → ℕ → ℕ → Code T (Option (Option ℕ))}
    (hself : ∀ s' : Memory Part (Val T),
      UpdatesChildren s' A.reference c t false node keys left right self) :
    Gives s (nodeAt node p) (removeInPlace A self keys p left right (right - left)) ()
      (nodeAt (node.inPlace A.reference c t false (part keys left right)) p) := by
  have hlen : (part keys left right).length = right - left := length_part hright
  -- the assertion on `cur_size`: the keys to remove are all stored
  have hcount : right - left ≤ node.curSize := hlen ▸ hinv.length_le_curSize hb
  refine inPlace_of_body hinv.here fun s' hheader ↦ ?_
  rw [bodyAt_inPlace _ hlen, bodyAt, countersAt, if_neg Bool.false_ne_true]
  refine Gives.seq (Gives.readAs (count?_count node.curSize)) (pointsTo (p, .modificationsCount) _ +
    (flagsAt p node.keysExist + slotsAt p node.children)) (by ac_rfl) ?_
  rw [assert_of hcount, Prog.pure_bind]
  refine addModifications_gives.seq (pointsTo (p, .curSize) (.count node.curSize) +
    (flagsAt p node.keysExist + slotsAt p node.children)) (by ac_rfl) ?_
  rw [subtract_of_le hcount, lift_ok, Prog.pure_bind]
  refine Gives.store.seq (pointsTo (p, .modificationsCount) _ +
    (flagsAt p node.keysExist + slotsAt p node.children)) (by ac_rfl) ?_
  refine (hheader.isTerminal _ hinv.here.isTerminal_eq).andThen ?_
  rw [← add_assoc]
  refine Gives.frameLeft ?_ _
  split
  · rename_i hterm
    have hnil : node.children = [] := List.length_eq_zero_iff.1 (of_decide_eq_true hterm)
    have hloop := removeKeys_gives hinv hb hA hI hheader rfl (of_decide_eq_true hterm) hlt.le hright
    rw [Node.parts, hnil]
    exact hloop.frame _
  · rename_i hinner
    exact nonTerminalUpdate_gives hA hI hinv hlt hright hb hheader
      (hinv.here.children_length.resolve_left (by simpa using hinner))
      fun i b e slot hslot hbe he hseg ↦
        removeRange_gives hslot hright hbe he hseg hinv hb (hself s')

/-- **`do_remove` is the functional removal**, in every interleaving of its threads. -/
theorem doRemove_spec (hA : A.AdequateOn W) (ht : 1 ≤ t) {fuel : ℕ} : ∀ {node : Node T} {p : ℕ}
    {I : Set T} {left right : ℕ}, I ⊆ W → node.Inv t I → node.height ≤ fuel → left < right →
      right ≤ keys.length → Admissible false I node.live (part keys left right) →
      Spec s (nodeAt node p) (doRemove A c keys t fuel p left right)
        (outcomeAt p (updated A.reference c t false node (part keys left right))) := by
  induction fuel generalizing s with
  | zero =>
    intro node p I left right _ _ hfuel
    have hheight := Node.height_eq node
    omega
  | succ fuel ih =>
    intro node p I left right hI hinv hfuel hlt hright hb
    have hlen : (part keys left right).length = right - left := length_part hright
    have heq := updated_eq A.reference c t false node (part keys left right)
    have hinv' : (node.inPlace A.reference c t false (part keys left right)).Inv t I :=
      (hinv.slotSpec_inPlace hA.exact_reference ht hb (by simp)).inv _ rfl
    rw [doRemove]
    dsimp only
    refine (readNode fun s' h ↦ h.header.checkStructure _
      (require_of hinv.here.isStructureCorrect)).bind ?_
    rw [Node.requireBorders_eq hlt hright, lift_ok, Prog.pure_bind, subtract_of_le hlt.le, lift_ok,
      Prog.pure_bind]
    refine (removeInPlace_gives hA hI hinv hlt hright hb fun s' ↦
      updatesChildren_of hA hI ht hinv hb hright hfuel ih).bind ?_
    refine (readNode fun s' h ↦ h.shouldRebuild c 0).bind ?_
    rw [if_neg (by simp)] at heq
    split
    · rename_i hrebuild
      rw [if_pos ⟨rfl, hrebuild⟩] at heq
      rw [heq]
      refine (readNode fun s' h ↦ h.getKeys hinv' (hA.height_le hI hinv')).bind ?_
      exact returnBuilt hA ht (Node.Inv.sortedLT_live hinv') fun x hx ↦
        hI (Node.Inv.live_mem hinv' hx)
    · rename_i hkeep
      rw [if_neg fun hcon ↦ hkeep hcon.2] at heq
      rw [heq]
      refine Spec.ret ?_
      rw [outcomeAt, replacementAt, add_zero]

end Mem

end Pbist
