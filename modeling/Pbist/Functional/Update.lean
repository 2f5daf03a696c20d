import Pbist.Functional.Build
import Pbist.Source.Batch
import Mathlib.Data.Bool.Count

/-!
# Updates

`updated A c t exist node batch` is the outcome of inserting (`exist = true`) or removing
(`exist = false`) the keys of `batch` in a subtree, without loops, borders and checks; `c` is the
coefficient of `should_rebuild`. A node hands every child its segment of the batch, the keys that
lie in the gap of the child. Insertion rebuilds before it descends, removal afterwards.

`updated_cases` says all that an update can do at a node; what updates preserve is proved from it,
here for the representation invariant and for the stored keys.

## The main results

* `updated_cases` is the case distinction that every invariant is proved by: a rebuild before the
  descent (insertion), a change in place, or a rebuild after the descent (removal).
* `Node.Inv.slotSpec_updated` is the invariant and the contents, by induction on the tree. The batch
  of a child is its segment of the batch, which is admissible again (`Node.Inv.admissible_segment`).
* `replacement_updated_eq_none_iff` says when a node stays in place.
-/

namespace Pbist

open Sorted

variable {T : Type} [LinearOrder T]

/-! ### The functional update -/

namespace Node

/-- The flags of a node after `exist` was written to the flag of every key in the batch. -/
def markedFlags (exist : Bool) (node : Node T) (batch : List T) : List Bool :=
  List.zipWith (fun key flag ↦ if key ∈ batch then exist else flag) node.keys node.keysExist

/-- A node after the changes that an update makes in place. -/
def markedWith (exist : Bool) (node : Node T) (batch : List T) (children : List (Option (Node T))) :
    Node T :=
  { node with
    keysExist := node.markedFlags exist batch
    children
    curSize := if exist then node.curSize + batch.length else node.curSize - batch.length
    modificationsCount := node.modificationsCount + batch.length }

/-- The children of a node, each with its segment of the batch. -/
def parts (node : Node T) (batch : List T) : List (Option (Node T) × List T) :=
  node.children.mapIdx fun i slot ↦ (slot, segment node.keys i batch)

end Node

/-- What an update does at a pointer, when `update` is what it does at the node behind it: a pointer
that gets no keys stays as it is, and the keys for a null pointer become a new subtree. -/
def slotUpdatedBy (A : Arith T) (t : ℕ) (exist : Bool) (update : Option (List T → Outcome T))
    (slot : Option (Node T)) (batch : List T) : Option (Node T) × Multiset Rebuild :=
  if batch = [] then (slot, 0)
  else match update with
    | some update => ((update batch).slot, (update batch).rebuilds)
    | none => (if exist then buildTree A t batch else none, 0)

/-- The record of a rebuild of `node` from `keys`. -/
def Node.rebuildFrom (node : Node T) (batch keys : List T) : Rebuild where
  terminal := decide (node.children.length = 0)
  modificationsBefore := node.modificationsCount
  batchSize := batch.length
  volume := keys.length

/-- One step of `updated`: `updates` are the updates of the children. -/
def updateStep (A : Arith T) (c t : ℕ) (exist : Bool) (node : Node T)
    (updates : List (Option (List T → Outcome T))) (batch : List T) : Outcome T :=
  if exist = true ∧ (node.children.length = 0 ∨ node.shouldRebuild c batch.length = true) then
    let keys := mergeLists node.live batch
    { node
      replacement := some (buildTree A t keys)
      rebuilds := {node.rebuildFrom batch keys} }
  else
    let slots := ((node.parts batch).zip updates).map fun p ↦
      slotUpdatedBy A t exist p.2 p.1.1 p.1.2
    let marked := node.markedWith exist batch (slots.map (·.1))
    let below := (slots.map (·.2)).sum
    if exist = false ∧ marked.shouldRebuild c 0 = true then
      { node := marked
        replacement := some (buildTree A t marked.live)
        rebuilds := node.rebuildFrom batch marked.live ::ₘ below }
    else { node := marked, replacement := none, rebuilds := below }

/-- The outcome of an update. -/
def updated (A : Arith T) (c t : ℕ) (exist : Bool) : Node T → List T → Outcome T :=
  Node.foldTree (updateStep A c t exist)

variable (A : Arith T) (c t : ℕ) (exist : Bool)

/-- What an update does at a pointer. -/
def slotUpdated (slot : Option (Node T)) (batch : List T) : Option (Node T) × Multiset Rebuild :=
  slotUpdatedBy A t exist (slot.map (updated A c t exist)) slot batch

/-- A node after the changes that an update makes in place, at the node and below. -/
def Node.inPlace (node : Node T) (batch : List T) : Node T :=
  node.markedWith exist batch
    ((node.parts batch).map fun p ↦ (slotUpdated A c t exist p.1 p.2).1)

/-- The rebuilds below a node. -/
def Node.rebuildsBelow (node : Node T) (batch : List T) : Multiset Rebuild :=
  ((node.parts batch).map fun p ↦ (slotUpdated A c t exist p.1 p.2).2).sum

variable {A c t exist}

section Slot

variable {slot : Option (Node T)} {node : Node T} {batch : List T}

theorem slotUpdated_nil : slotUpdated A c t exist slot [] = (slot, 0) := by
  simp [slotUpdated, slotUpdatedBy]

theorem slotUpdated_none (h : batch ≠ []) :
    slotUpdated A c t exist none batch = (if exist then buildTree A t batch else none, 0) :=
  if_neg h

theorem slotUpdated_some (h : batch ≠ []) : slotUpdated A c t exist (some node) batch =
    ((updated A c t exist node batch).slot, (updated A c t exist node batch).rebuilds) :=
  if_neg h

end Slot

namespace Node

variable {node : Node T} {batch : List T}

theorem map_fst_parts (node : Node T) (batch : List T) :
    (node.parts batch).map Prod.fst = node.children := by
  apply List.ext_getElem?
  intro i
  rw [List.getElem?_map, parts, List.getElem?_mapIdx, Option.map_map]
  exact congrFun Option.map_id _

theorem getElem?_parts (node : Node T) (batch : List T) (i : ℕ) :
    (node.parts batch)[i]? = (node.children[i]?).map fun slot ↦ (slot, segment node.keys i batch) :=
  List.getElem?_mapIdx

theorem mem_parts {p : Option (Node T) × List T} (hp : p ∈ node.parts batch) :
    ∃ i : ℕ, node.children[i]? = some p.1 ∧ p.2 = segment node.keys i batch := by
  obtain ⟨i, hi⟩ := List.getElem?_of_mem hp
  rw [getElem?_parts] at hi
  obtain ⟨slot, hslot, rfl⟩ := Option.map_eq_some_iff.1 hi
  exact ⟨i, hslot, rfl⟩

end Node

/-- The step of an update, with the updates of the children filled in. -/
theorem updated_eq (A : Arith T) (c t : ℕ) (exist : Bool) (node : Node T) (batch : List T) :
    updated A c t exist node batch =
      if exist = true ∧ (node.children.length = 0 ∨ node.shouldRebuild c batch.length = true) then
        { node
          replacement := some (buildTree A t (mergeLists node.live batch))
          rebuilds := {node.rebuildFrom batch (mergeLists node.live batch)} }
      else if exist = false ∧ (node.inPlace A c t exist batch).shouldRebuild c 0 = true then
        { node := node.inPlace A c t exist batch
          replacement := some (buildTree A t (node.inPlace A c t exist batch).live)
          rebuilds := node.rebuildFrom batch (node.inPlace A c t exist batch).live ::ₘ
            node.rebuildsBelow A c t exist batch }
      else
        { node := node.inPlace A c t exist batch
          replacement := none
          rebuilds := node.rebuildsBelow A c t exist batch } := by
  have hslots : ((node.parts batch).zip (node.children.map (Option.map (updated A c t exist)))).map
      (fun p ↦ slotUpdatedBy A t exist p.2 p.1.1 p.1.2) =
        (node.parts batch).map fun p ↦ slotUpdated A c t exist p.1 p.2 := by
    have hzip : (node.parts batch).zip
        (((node.parts batch).map Prod.fst).map (Option.map (updated A c t exist))) =
          (node.parts batch).map fun p ↦ (p, p.1.map (updated A c t exist)) := by
      have hpairs := List.zip_map' (f := id)
        (g := fun p : Option (Node T) × List T ↦ p.1.map (updated A c t exist))
        (l := node.parts batch)
      rw [List.map_id] at hpairs
      rw [List.map_map]
      exact hpairs
    rw [← Node.map_fst_parts node batch, hzip, List.map_map]
    rfl
  have hfst : (((node.parts batch).map fun p ↦ slotUpdated A c t exist p.1 p.2).map (·.1)) =
      (node.parts batch).map fun p ↦ (slotUpdated A c t exist p.1 p.2).1 := List.map_map
  have hsnd : (((node.parts batch).map fun p ↦ slotUpdated A c t exist p.1 p.2).map (·.2)) =
      (node.parts batch).map fun p ↦ (slotUpdated A c t exist p.1 p.2).2 := List.map_map
  rw [updated, Node.foldTree_eq, updateStep,
    show Node.foldTree (updateStep A c t exist) = updated A c t exist from rfl]
  simp only [hslots, hfst, hsnd]
  rfl

/-- **All that an update can do at a node.** -/
theorem updated_cases (A : Arith T) (c t : ℕ) (exist : Bool) (node : Node T) (batch : List T) :
    (exist = true ∧ (node.children.length = 0 ∨ node.shouldRebuild c batch.length = true) ∧
      updated A c t exist node batch =
        { node
          replacement := some (buildTree A t (mergeLists node.live batch))
          rebuilds := {node.rebuildFrom batch (mergeLists node.live batch)} }) ∨
    ((exist = true → node.children.length ≠ 0 ∧ node.shouldRebuild c batch.length = false) ∧
      (exist = false → (node.inPlace A c t exist batch).shouldRebuild c 0 = false) ∧
      updated A c t exist node batch =
        { node := node.inPlace A c t exist batch
          replacement := none
          rebuilds := node.rebuildsBelow A c t exist batch }) ∨
    (exist = false ∧ (node.inPlace A c t exist batch).shouldRebuild c 0 = true ∧
      updated A c t exist node batch =
        { node := node.inPlace A c t exist batch
          replacement := some (buildTree A t (node.inPlace A c t exist batch).live)
          rebuilds := node.rebuildFrom batch (node.inPlace A c t exist batch).live ::ₘ
            node.rebuildsBelow A c t exist batch }) := by
  rw [updated_eq]
  split_ifs with hbefore hafter
  · exact .inl ⟨hbefore.1, hbefore.2, rfl⟩
  · exact .inr (.inr ⟨hafter.1, hafter.2, rfl⟩)
  · refine .inr (.inl ⟨fun h ↦ ?_, fun h ↦ ?_, rfl⟩)
    · simpa [h] using hbefore
    · simpa [h] using hafter

omit [LinearOrder T] in
/-- An insertion tests before it counts the modifications, a removal afterwards; both tests are the
same. -/
theorem Node.shouldRebuild_batch (c : ℕ) (node : Node T) (batch : List T) :
    node.shouldRebuild c batch.length =
      decide (node.initialSize < c * (node.modificationsCount + batch.length)) := by
  rw [shouldRebuild, Nat.add_comm]

theorem Node.shouldRebuild_inPlace (A : Arith T) (c t : ℕ) (exist : Bool) (node : Node T)
    (batch : List T) : (node.inPlace A c t exist batch).shouldRebuild c 0 =
      decide (node.initialSize < c * (node.modificationsCount + batch.length)) := by
  rw [shouldRebuild, Nat.zero_add]
  rfl

/-- When an update leaves a node in place. -/
theorem replacement_updated_eq_none_iff {node : Node T} {batch : List T} :
    (updated A c t exist node batch).replacement = none ↔
      (exist = true → node.children.length ≠ 0) ∧
        c * (node.modificationsCount + batch.length) ≤ node.initialSize := by
  rcases updated_cases A c t exist node batch with
    ⟨rfl, hwhen, heq⟩ | ⟨hinsert, hremove, heq⟩ | ⟨rfl, hwhen, heq⟩
  · rw [node.shouldRebuild_batch, decide_eq_true_iff] at hwhen
    simp only [heq, reduceCtorEq, false_iff]
    rintro ⟨hinner, hle⟩
    exact hwhen.elim (hinner trivial) hle.not_gt
  · simp only [heq, true_iff]
    cases exist with
    | true => simpa [node.shouldRebuild_batch] using hinsert rfl
    | false => simpa [node.shouldRebuild_inPlace] using hremove rfl
  · rw [node.shouldRebuild_inPlace, decide_eq_true_iff] at hwhen
    simp only [heq, reduceCtorEq, false_iff]
    exact fun ⟨_, hle⟩ ↦ hle.not_gt hwhen

/-! ### Segments and flags -/

/-- A batch that an update with `exist` may get, in an interval with the stored keys `stored`: keys
to insert are not stored, keys to remove are. -/
structure Admissible (exist : Bool) (I : Set T) (stored batch : List T) : Prop where
  sorted : batch.SortedLT
  mem : ∀ x ∈ batch, x ∈ I
  stored_iff : ∀ x ∈ batch, (x ∈ stored ↔ exist = false)

namespace Node

variable {node : Node T} {batch : List T} {I : Set T}

/-- The segment for a child is a batch for the child. -/
theorem Inv.admissible_segment (h : node.Inv t I) (hb : Admissible exist I node.live batch)
    {i : ℕ} {slot : Option (Node T)} (hslot : node.children[i]? = some slot) :
    Admissible exist (I ∩ gap node.keys i) (slotLive slot) (segment node.keys i batch) where
  sorted := sortedLT_segment hb.sorted
  mem x hx := by
    obtain ⟨hbatch, hgap⟩ := (mem_segment_iff h.here.sorted (h.here.index_le hslot)).1 hx
    exact ⟨hb.mem x hbatch, hgap⟩
  stored_iff x hx := by
    obtain ⟨hbatch, hkeys, rfl⟩ := mem_segment.1 hx
    rw [← hb.stored_iff x hbatch, Inv.mem_live_of_notMem h hkeys]
    constructor
    · exact fun hlive ↦ ⟨slot, hslot, hlive⟩
    · rintro ⟨slot', hslot', hlive⟩
      rwa [Option.some.inj (hslot.symm.trans hslot')]

/-- There are no more keys to remove than are stored. -/
theorem Inv.length_le_curSize (h : node.Inv t I) (hb : Admissible false I node.live batch) :
    batch.length ≤ node.curSize := by
  have hcount := length_adjust (Inv.sortedLT_live h) hb.sorted hb.stored_iff
  rw [Inv.length_live h] at hcount
  simp only [Bool.false_eq_true, if_false] at hcount
  omega

theorem Inv.admissible_parts (h : node.Inv t I) (hb : Admissible exist I node.live batch)
    {p : Option (Node T) × List T} (hp : p ∈ node.parts batch) :
    ∃ i : ℕ, node.children[i]? = some p.1 ∧ SlotInv t (I ∩ gap node.keys i) p.1 ∧
      Admissible exist (I ∩ gap node.keys i) (slotLive p.1) p.2 := by
  obtain ⟨i, hslot, hseg⟩ := mem_parts hp
  exact ⟨i, hslot, h.slot hslot, hseg ▸ h.admissible_segment hb hslot⟩

/-- A flag that an update marks had the opposite value. -/
theorem Inv.flag_of_mem_batch (h : node.Inv t I) (hb : Admissible exist I node.live batch)
    {i : ℕ} {k : T} (hk : node.keys[i]? = some k) (hmem : k ∈ batch) :
    node.keysExist[i]? = some (!exist) := by
  have hlive := Inv.mem_live_of_getElem? h hk
  rw [hb.stored_iff k hmem] at hlive
  obtain ⟨hi, -⟩ := List.getElem?_eq_some_iff.1 hk
  have he : i < node.keysExist.length := by rwa [h.here.exist_length]
  have hflag : node.keysExist[i]? = some node.keysExist[i] := List.getElem?_eq_getElem he
  rw [hflag] at hlive ⊢
  cases exist <;> simpa using hlive

theorem length_markedFlags (exist : Bool) (batch : List T) (h : node.Local t I) :
    (node.markedFlags exist batch).length = node.keys.length := by
  rw [markedFlags, List.length_zipWith, h.exist_length, min_self]

theorem getElem?_markedFlags (h : node.Local t I) {i : ℕ} {k : T} (hk : node.keys[i]? = some k) :
    (node.markedFlags exist batch)[i]? =
      if k ∈ batch then some exist else node.keysExist[i]? := by
  obtain ⟨hi, -⟩ := List.getElem?_eq_some_iff.1 hk
  have he : i < node.keysExist.length := by rwa [h.exist_length]
  have hflag : node.keysExist[i]? = some node.keysExist[i] := List.getElem?_eq_getElem he
  rw [markedFlags, List.getElem?_zipWith, hk, hflag]
  exact apply_ite some _ _ _

theorem count_mark {batch : List T} : ∀ {keys : List T} {flags : List Bool},
    flags.length = keys.length →
    (∀ (i : ℕ) (k : T), keys[i]? = some k → k ∈ batch → flags[i]? = some (!exist)) →
    (List.zipWith (fun key flag ↦ if key ∈ batch then exist else flag) keys flags).count exist =
      flags.count exist + (keys.filter (· ∈ batch)).length
  | [], [], _, _ => rfl
  | [], _ :: _, h, _ => by simp at h
  | _ :: _, [], h, _ => by simp at h
  | k :: keys, e :: flags, h, hflag => by
    have ih := @count_mark batch keys flags (by simpa using h)
      fun i k hk hmem ↦ by simpa using hflag (i + 1) k (by simpa using hk) hmem
    by_cases hk : k ∈ batch
    · obtain rfl : e = !exist := by simpa using hflag 0 k rfl hk
      simp only [List.zipWith_cons_cons, if_pos hk, List.count_cons_self, ih,
        List.filter_cons_of_pos (p := (· ∈ batch)) (decide_eq_true hk), List.length_cons]
      rw [List.count_cons_of_ne (by simp)]
      omega
    · simp only [List.zipWith_cons_cons, List.count_cons, ih, List.filter_cons, hk,
        decide_false, Bool.false_eq_true, if_false]
      omega

/-- An update adds to the flags with the new value as many as it finds keys in the node. -/
theorem Inv.count_markedFlags (h : node.Inv t I) (hb : Admissible exist I node.live batch) :
    (node.markedFlags exist batch).count exist =
      node.keysExist.count exist + (batch.filter (· ∈ node.keys)).length := by
  have hfilter : batch.filter (· ∈ node.keys) = node.keys.filter (· ∈ batch) := by
    refine List.SortedLT.eq_of_mem_iff (hb.sorted.pairwise.sublist List.filter_sublist).sortedLT
      (h.here.sorted.pairwise.sublist List.filter_sublist).sortedLT fun x ↦ ?_
    simp [and_comm]
  rw [hfilter]
  exact count_mark h.here.exist_length fun i k hk hmem ↦ h.flag_of_mem_batch hb hk hmem

/-- The segments and the keys found in the node make up the batch. -/
theorem Local.sum_segments (h : node.Local t I)
    (hterm : node.children.length = 0 → ∀ x ∈ batch, x ∈ node.keys) :
    ((node.parts batch).map fun p ↦ p.2.length).sum + (batch.filter (· ∈ node.keys)).length =
      batch.length := by
  have hmap : (node.parts batch).map (fun p ↦ p.2.length) =
      (List.range node.children.length).map fun i ↦ (segment node.keys i batch).length := by
    apply List.ext_getElem?
    intro i
    rw [List.getElem?_map, getElem?_parts, List.getElem?_map]
    rcases Nat.lt_or_ge i node.children.length with hi | hi
    · rw [List.getElem?_eq_getElem hi, List.getElem?_range hi]
      rfl
    · rw [List.getElem?_eq_none hi, List.getElem?_eq_none (by simpa using hi)]
      rfl
  rw [hmap]
  rcases h.children_length with hlen | hlen
  · rw [hlen, List.filter_eq_self.2 fun x hx ↦ decide_eq_true (hterm hlen x hx)]
    simp
  · rw [hlen]
    exact sum_length_segment node.keys batch

end Node

/-! ### The representation invariant and the stored keys -/

/-- What an update leaves behind a pointer with interval `I`: a well-formed subtree with the keys of
the batch added or taken away. -/
structure SlotSpec (t : ℕ) (exist : Bool) (I : Set T) (old : Option (Node T))
    (batch : List T) (new : Option (Node T)) : Prop where
  inv : SlotInv t I new
  live : slotLive new = adjust exist (slotLive old) batch

namespace SlotSpec

variable {I : Set T} {old new : Option (Node T)} {batch : List T}

theorem mem_live (h : SlotSpec t exist I old batch new) {x : T} :
    x ∈ slotLive new ↔ if x ∈ batch then exist = true else x ∈ slotLive old := by
  rw [h.live, mem_adjust]

/-- A well-formed subtree with the right keys. -/
theorem of_mem_live (hinv : SlotInv t I new) (hold : SlotInv t I old)
    (hb : Admissible exist I (slotLive old) batch)
    (hmem : ∀ x, x ∈ slotLive new ↔ if x ∈ batch then exist = true else x ∈ slotLive old) :
    SlotSpec t exist I old batch new where
  inv := hinv
  live := List.SortedLT.eq_of_mem_iff hinv.sortedLT_live
    (sortedLT_adjust hold.sortedLT_live hb.sorted hb.stored_iff) fun x ↦ by rw [hmem, mem_adjust]

/-- How an update changes `cur_size`. -/
theorem size (h : SlotSpec t exist I old batch new) (hold : SlotInv t I old)
    (hb : Admissible exist I (slotLive old) batch) :
    slotSize new + (if exist then 0 else batch.length) =
      slotSize old + if exist then batch.length else 0 := by
  rw [← h.inv.length_live, ← hold.length_live, h.live]
  exact length_adjust hold.sortedLT_live hb.sorted hb.stored_iff

end SlotSpec

section Spec

variable {I : Set T} {node : Node T} {batch : List T}

/-- The batch of a rebuild before an insertion: the subtree built from all keys. -/
theorem slotSpec_rebuild (hA : A.Exact) (ht : 1 ≤ t) {old : Option (Node T)}
    (hold : SlotInv t I old) (hb : Admissible exist I (slotLive old) batch) :
    SlotSpec t exist I old batch (buildTree A t (adjust exist (slotLive old) batch)) where
  inv := slotInv_buildTree hA ht (sortedLT_adjust hold.sortedLT_live hb.sorted hb.stored_iff)
    fun x hx ↦ by
      rw [mem_adjust] at hx
      split at hx
      · exact hb.mem x ‹_›
      · exact hold.live_mem hx
  live := slotLive_buildTree _

/-- The changes in place keep `cur_size` right, if the updates of the children do. -/
theorem Node.Inv.curSize_markedWith (h : node.Inv t I)
    (hb : Admissible exist I node.live batch)
    (hterm : node.children.length = 0 → ∀ x ∈ batch, x ∈ node.keys)
    {new : Option (Node T) × List T → Option (Node T)}
    (hnew : ∀ p ∈ node.parts batch, slotSize (new p) + (if exist then 0 else p.2.length) =
      slotSize p.1 + if exist then p.2.length else 0) :
    (node.markedWith exist batch ((node.parts batch).map new)).curSize =
      (node.markedFlags exist batch).count true +
        (((node.parts batch).map new).map slotSize).sum := by
  have hcount := h.count_markedFlags hb
  have hsegments := h.here.sum_segments hterm
  have hold := h.here.curSize_eq
  have hflags := h.here.exist_length
  have hmarked := length_markedFlags exist batch h.here
  rw [← List.count_true_add_count_false] at hflags hmarked
  have hchildren : (node.children.map slotSize).sum =
      ((node.parts batch).map fun p ↦ slotSize p.1).sum := by
    rw [← map_fst_parts node batch, List.map_map]
    rfl
  rw [hchildren] at hold
  rw [List.map_map, markedWith]
  cases exist with
  | true =>
    have hsum : ((node.parts batch).map (slotSize ∘ new)).sum =
        ((node.parts batch).map fun p ↦ slotSize p.1).sum +
          ((node.parts batch).map fun p ↦ p.2.length).sum := by
      rw [← List.sum_map_add]
      exact congrArg List.sum (List.map_congr_left fun p hp ↦ by simpa using hnew p hp)
    simp only [if_true]
    omega
  | false =>
    have hsum : ((node.parts batch).map (slotSize ∘ new)).sum +
        ((node.parts batch).map fun p ↦ p.2.length).sum =
          ((node.parts batch).map fun p ↦ slotSize p.1).sum := by
      rw [← List.sum_map_add]
      exact congrArg List.sum (List.map_congr_left fun p hp ↦ by simpa using hnew p hp)
    simp only [Bool.false_eq_true, if_false]
    omega

/-- The child pointers after changes in place. -/
theorem Node.getElem?_children_markedWith (new : Option (Node T) × List T → Option (Node T))
    (i : ℕ) : (node.markedWith exist batch ((node.parts batch).map new)).children[i]? =
      (node.children[i]?).map fun slot ↦ new (slot, segment node.keys i batch) := by
  rw [markedWith, List.getElem?_map, getElem?_parts, Option.map_map]
  rfl

section Marked

variable (new : Option (Node T) × List T → Option (Node T)) (h : node.Inv t I)
  (hb : Admissible exist I node.live batch)
  (hterm : node.children.length = 0 → ∀ x ∈ batch, x ∈ node.keys)
  (hnew : ∀ (i : ℕ) (slot : Option (Node T)), node.children[i]? = some slot →
    SlotSpec t exist (I ∩ gap node.keys i) slot (segment node.keys i batch)
      (new (slot, segment node.keys i batch)))

include h hb hterm hnew

/-- The changes in place keep the representation invariant, if the updates of the children do. -/
theorem Node.Inv.inv_markedWith :
    (node.markedWith exist batch ((node.parts batch).map new)).Inv t I := by
  have hlength : ((node.parts batch).map new).length = node.children.length := by
    rw [List.length_map, parts, List.length_mapIdx]
  have hsize := h.curSize_markedWith hb hterm fun p hp ↦ show slotSize (new p) + _ = _ by
    obtain ⟨i, hslot, hseg⟩ := mem_parts hp
    have hspec := hnew i p.1 hslot
    rw [← hseg] at hspec
    exact hspec.size (h.slot hslot) (hseg ▸ h.admissible_segment hb hslot)
  refine .intro ?_ fun i child hi ↦ ?_
  · exact
      { exist_length := length_markedFlags exist batch h.here
        keys_pos := h.here.keys_pos
        children_length := hlength ▸ h.here.children_length
        sorted := h.here.sorted
        keys_mem := h.here.keys_mem
        terminal_iff := hlength ▸ h.here.terminal_iff
        id_length := h.here.id_length
        id_entries := h.here.id_entries
        curSize_eq := hsize }
  · rw [getElem?_children_markedWith] at hi
    obtain ⟨slot, hslot, heq⟩ := Option.map_eq_some_iff.1 hi
    exact (hnew i slot hslot).inv child heq

/-- The keys that are stored after the changes in place. -/
theorem Node.Inv.mem_live_markedWith (x : T) :
    x ∈ (node.markedWith exist batch ((node.parts batch).map new)).live ↔
      if x ∈ batch then exist = true else x ∈ node.live := by
  have hinv := h.inv_markedWith new hb hterm hnew
  by_cases hx : x ∈ node.keys
  · -- a representative key
    have hrank := getElem?_rank h.here.sorted hx
    rw [Inv.mem_live_of_getElem? hinv hrank, Inv.mem_live_of_getElem? h hrank]
    show (node.markedFlags exist batch)[_]? = some true ↔ _
    rw [getElem?_markedFlags h.here hrank]
    split <;> simp
  · -- a key of the child of its gap
    have hkeys : (node.markedWith exist batch ((node.parts batch).map new)).keys = node.keys := rfl
    rw [Inv.mem_live_of_notMem hinv hx, Inv.mem_live_of_notMem h hx, hkeys,
      getElem?_children_markedWith]
    rcases hslot : node.children[rank node.keys x]? with - | slot
    · have hnil : node.children.length = 0 := by
        have := List.getElem?_eq_none_iff.1 hslot
        have := rank_le_length node.keys x
        rcases h.here.children_length with hlen | hlen <;> omega
      have hxb : x ∉ batch := fun hxb ↦ hx (hterm hnil x hxb)
      simp [hxb]
    · have hmem := (hnew _ slot hslot).mem_live (x := x)
      have hseg : x ∈ segment node.keys (rank node.keys x) batch ↔ x ∈ batch := by
        simp [mem_segment, hx]
      simp only [Option.map_some, Option.some.injEq, exists_eq_left', hmem, hseg]

/-- The changes in place do what an update should do, if the updates of the children do. -/
theorem Node.Inv.slotSpec_markedWith :
    SlotSpec t exist I (some node) batch
      (some (node.markedWith exist batch ((node.parts batch).map new))) :=
  .of_mem_live (slotEverywhere_some.2 (h.inv_markedWith new hb hterm hnew))
    (slotEverywhere_some.2 h) hb (h.mem_live_markedWith new hb hterm hnew)

end Marked

/-- Where an update works in place at a terminal node, it finds all its keys in the node. -/
theorem Admissible.mem_keys_of_terminal (hb : Admissible exist I node.live batch)
    (hexist : exist = true → node.children.length ≠ 0) (hterm : node.children.length = 0) :
    ∀ x ∈ batch, x ∈ node.keys := by
  intro x hx
  have hlive : x ∈ node.live := (hb.stored_iff x hx).2 (by
    cases exist with
    | true => exact absurd hterm (hexist rfl)
    | false => rfl)
  rcases Node.mem_live.1 hlive with ⟨i, hi, -⟩ | ⟨child, hchild, -⟩
  · exact List.mem_of_getElem? hi
  · rw [List.length_eq_zero_iff.1 hterm] at hchild
    simp at hchild

/-- What an update does at a pointer, from what it does at a node. -/
theorem slotSpec_slotUpdated (hA : A.Exact) (ht : 1 ≤ t) {slot : Option (Node T)}
    (h : SlotInv t I slot) (hb : Admissible exist I (slotLive slot) batch)
    (hnode : ∀ node, slot = some node → batch ≠ [] →
      SlotSpec t exist I slot batch (updated A c t exist node batch).slot) :
    SlotSpec t exist I slot batch (slotUpdated A c t exist slot batch).1 := by
  rcases eq_or_ne batch [] with rfl | hne
  · rw [slotUpdated_nil]
    exact .of_mem_live h h hb fun x ↦ by simp
  rcases slot with - | node
  · rw [slotUpdated_none hne]
    cases exist with
    | true => simpa [adjust, mergeLists] using slotSpec_rebuild (A := A) hA ht h hb
    | false =>
      -- there are no keys to remove behind a null pointer
      obtain ⟨x, hx⟩ := List.exists_mem_of_ne_nil batch hne
      simpa using (hb.stored_iff x hx).2 rfl
  · rw [slotUpdated_some hne]
    exact hnode node rfl hne

/-- **An update keeps the representation invariant, and adds or takes away the keys of the
batch.** -/
theorem Node.Inv.slotSpec_updated (hA : A.Exact) (ht : 1 ≤ t) :
    ∀ {node : Node T} {I : Set T} {batch : List T}, node.Inv t I →
      Admissible exist I node.live batch →
      SlotSpec t exist I (some node) batch (updated A c t exist node batch).slot := by
  intro node
  induction node using Node.induction with
  | step node ih =>
    intro I batch h hb
    -- whatever happens afterwards, the changes in place are right
    have hinPlace : (exist = true → node.children.length ≠ 0) →
        SlotSpec t exist I (some node) batch (some (node.inPlace A c t exist batch)) :=
      fun hexist ↦ Inv.slotSpec_markedWith (fun p ↦ (slotUpdated A c t exist p.1 p.2).1) h hb
        (hb.mem_keys_of_terminal hexist) fun i slot hslot ↦ by
          refine slotSpec_slotUpdated hA ht (h.slot hslot) (h.admissible_segment hb hslot)
            fun child heq _ ↦ ?_
          subst heq
          exact ih child (List.mem_of_getElem? hslot) (h.child hslot)
            (h.admissible_segment hb hslot)
    -- a rebuild before an insertion, an update in place, a rebuild after a removal
    rcases updated_cases A c t exist node batch with
      ⟨rfl, -, heq⟩ | ⟨hexist, -, heq⟩ | ⟨rfl, -, heq⟩
    · rw [heq]
      exact slotSpec_rebuild hA ht (slotEverywhere_some.2 h) hb
    · rw [heq]
      exact hinPlace fun he ↦ (hexist he).1
    · rw [heq]
      have hspec := hinPlace (by simp)
      have hlive := hspec.live
      rw [slotLive_some] at hlive
      show SlotSpec t false I (some node) batch
        (buildTree A t (node.inPlace A c t false batch).live)
      rw [hlive]
      exact slotSpec_rebuild hA ht (slotEverywhere_some.2 h) hb

/-- What an update does at a pointer. -/
theorem SlotInv.slotSpec (hA : A.Exact) (ht : 1 ≤ t) {slot : Option (Node T)} (h : SlotInv t I slot)
    (hb : Admissible exist I (slotLive slot) batch) :
    SlotSpec t exist I slot batch (slotUpdated A c t exist slot batch).1 :=
  slotSpec_slotUpdated hA ht h hb fun node heq _ ↦ by
    subst heq
    exact Node.Inv.slotSpec_updated hA ht (h node rfl) hb

theorem Node.Inv.slotSpec_inPlace (hA : A.Exact) (ht : 1 ≤ t) (h : node.Inv t I)
    (hb : Admissible exist I node.live batch) (hexist : exist = true → node.children.length ≠ 0) :
    SlotSpec t exist I (some node) batch (some (node.inPlace A c t exist batch)) :=
  Inv.slotSpec_markedWith (fun p ↦ (slotUpdated A c t exist p.1 p.2).1) h hb
    (hb.mem_keys_of_terminal hexist) fun _ _ hslot ↦
      (h.slot hslot).slotSpec hA ht (h.admissible_segment hb hslot)

/-- **All that an update can do at a well-formed node:** it rebuilds the node from the new keys, or
it leaves the node in place. -/
theorem Node.Inv.updated_cases (hA : A.Exact) (ht : 1 ≤ t) (h : node.Inv t I)
    (hb : Admissible exist I node.live batch) :
    ((exist = true ∧ node.children.length = 0 ∨
        node.initialSize < c * (node.modificationsCount + batch.length)) ∧
      (updated A c t exist node batch).slot = buildTree A t (adjust exist node.live batch) ∧
      (updated A c t exist node batch).rebuilds =
        node.rebuildFrom batch (adjust exist node.live batch) ::ₘ
          if exist then 0 else node.rebuildsBelow A c t exist batch) ∨
    (c * (node.modificationsCount + batch.length) ≤ node.initialSize ∧
      (exist = true → node.children.length ≠ 0) ∧
      (updated A c t exist node batch).slot = some (node.inPlace A c t exist batch) ∧
      (updated A c t exist node batch).rebuilds = node.rebuildsBelow A c t exist batch) := by
  rcases Pbist.updated_cases A c t exist node batch with
    ⟨rfl, hwhen, heq⟩ | ⟨hinsert, hremove, heq⟩ | ⟨rfl, hwhen, heq⟩
  · refine .inl ⟨?_, by rw [heq]; rfl, by rw [heq]; rfl⟩
    rw [node.shouldRebuild_batch] at hwhen
    simpa using hwhen
  · refine .inr ⟨?_, fun he ↦ (hinsert he).1, by rw [heq]; rfl, by rw [heq]⟩
    cases exist with
    | true => simpa [node.shouldRebuild_batch] using (hinsert rfl).2
    | false => simpa [node.shouldRebuild_inPlace] using hremove rfl
  · have hlive := (h.slotSpec_inPlace (c := c) hA ht hb (by simp)).live
    rw [slotLive_some, slotLive_some] at hlive
    rw [hlive] at heq
    refine .inl ⟨.inr ?_, by rw [heq]; rfl, by rw [heq]; rfl⟩
    simpa [node.shouldRebuild_inPlace] using hwhen

end Spec

end Pbist
