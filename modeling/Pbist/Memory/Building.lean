import Pbist.Memory.Routing
import Pbist.Refinement.Build

/-!
# Building and deleting in memory

`do_build_from_keys` starts from nothing and leaves behind the built tree, `delete` takes a subtree
and leaves nothing. Every cell of a range is built by a thread of its own, which owns two entries of
the arrays of representatives and of children.

`doBuildFromKeys_spec` goes by induction on the fuel, as the result about the checked function does;
`doBuildSingleCell_gives` is one iteration of its loop. `delete_gives` has the height of the tree as
its fuel. The trees are those of `buildTree` except for the indices of the nodes, which rounded
doubles may have computed (`Header.Of`).
-/

namespace Pbist

namespace Mem

open Checked Assertion Sorted

open scoped Pointwise

variable {T : Type} {s : Memory Part (Val T)} {node : Node T} {p t n : ℕ}

/-! ### Lists of subtrees -/

/-- The subtrees of a list behind the pointers of a list. -/
def ownedList (slots : List (Option (Node T))) (children : List (Option ℕ)) :
    Assertion Part (Val T) :=
  ∑ i ∈ Finset.range slots.length,
    ownedAt (slots[i]?.getD none) (children[i]?.getD none)

theorem ownedList_nil (children : List (Option ℕ)) :
    ownedList ([] : List (Option (Node T))) children = 0 :=
  Finset.sum_range_zero _

/-- The cells of a block whose fields are numbered. -/
theorem sum_numbered (f : ℕ → Part) (v : ℕ → Val T) (b n : ℕ) :
    (((List.range n).map fun i ↦ (f i, v i)).map fun c ↦ pointsTo (b, c.1) c.2).sum =
      ∑ i ∈ Finset.range n, pointsTo (b, f i) (v i) := by
  rw [List.map_map, Finset.sum_eq_multiset_sum, Finset.range_val, ← Multiset.coe_range,
    Multiset.map_coe, Multiset.sum_coe]
  rfl

/-- A pointer is stored, and what is behind it belongs to the cell from then on. -/
theorem storePointer {l : Loc Part} {w : Val T} {slot : Option (Node T)} {q : Option ℕ} :
    Gives s (pointsTo l w + ownedAt slot q) (Prog.store l (.pointer q)) () (slotAt l slot) :=
  (Gives.store.frame _).spec fun _ hm ↦ ⟨rfl, Set.mem_iUnion.2 ⟨q, hm⟩⟩

/-- A subtree is built, and a pointer to it stored. -/
theorem storeBuilt {l : Loc Part} {w : Val T} {slot : Option (Node T)} {x : Code T (Option ℕ)}
    (h : Spec s 0 x fun q ↦ ownedAt slot q) :
    Gives s (pointsTo l w) (do Prog.store l (.pointer (← x))) () (slotAt l slot) :=
  h.seq _ (zero_add _).symm fun q ↦ by
    rw [add_comm]
    exact storePointer

/-! ### Construction -/

variable {E : Arith T} {keys : List T} {slots : List (Option (Node T))} {children : List (Option ℕ)}
  {keysCount : ℕ}

theorem nodup_newCells {id : List ℕ} :
    ((newCells keys children keysCount id).map Prod.fst).Nodup := by
  have hflags : (((List.range keys.length).map fun i ↦
      (Part.keysExist i, (Val.flag true : Val T))).map Prod.fst).Nodup := by
    rw [List.map_map]
    exact List.nodup_range.map fun i j heq ↦ Part.keysExist.inj heq
  have hchildren : (((List.range children.length).map fun i ↦
      (Part.children i, (Val.pointer (children[i]?.getD none) : Val T))).map Prod.fst).Nodup := by
    rw [List.map_map]
    exact List.nodup_range.map fun i j heq ↦ Part.children.inj heq
  rw [newCells, List.map_append, List.map_append, List.nodup_append, List.nodup_append]
  refine ⟨⟨by simp, hflags, ?_⟩, hchildren, ?_⟩
  · simp
  · simp

/-- Pointers to subtrees, and the subtrees. -/
theorem pointers_add_ownedList_subset (l : ℕ → Loc Part) (hlen : children.length = slots.length) :
    (∑ i ∈ Finset.range children.length, pointsTo (l i) (.pointer (children[i]?.getD none))) +
        ownedList slots children ⊆
      ∑ i ∈ Finset.range slots.length, slotAt (l i) (slots[i]?.getD none) := by
  rw [hlen, ownedList, ← Finset.sum_add_distrib]
  exact Set.finsetSum_subset_finsetSum _ _ _ fun i _ m hm ↦ Set.mem_iUnion.2 ⟨_, hm⟩

/-- The cells of a new node, with what is behind its child pointers. -/
theorem newCells_spec {id : List ℕ} (hlen : children.length = slots.length)
    (hof : (⟨keys, keys.length, children.length, id, keysCount⟩ : Header T).Of
      (freshNode E keys slots keysCount)) :
    Spec s (ownedList slots children) (Prog.new (newCells keys children keysCount id)) fun p ↦
      nodeAt (freshNode E keys slots keysCount) p := by
  have hnew := (@Spec.new _ _ s (newCells keys children keysCount id) nodup_newCells).frame
    (ownedList slots children)
  rw [zero_add] at hnew
  refine hnew.weaken fun p ↦ ?_
  rw [newCells, List.map_append, List.map_append, List.sum_append, List.sum_append, sum_numbered,
    sum_numbered, nodeAt_eq]
  have hflags : flagsAt p (freshNode E keys slots keysCount).keysExist =
      ∑ i ∈ Finset.range keys.length, pointsTo (p, .keysExist i) (Val.flag (T := T) true) := by
    rw [flagsAt, freshNode, List.length_replicate]
    refine Finset.sum_congr rfl fun i hi ↦ ?_
    rw [flagAt, List.getElem?_replicate, if_pos (Finset.mem_range.1 hi)]
    rfl
  have hheader : pointsTo (p, .header)
      (.header ⟨keys, keys.length, children.length, id, keysCount⟩) ⊆
        headerAt p (freshNode E keys slots keysCount) :=
    Set.subset_iUnion_of_subset ⟨_, hof⟩ subset_rfl
  have hslots := pointers_add_ownedList_subset (fun i ↦ (p, Part.children i)) hlen
  rw [List.map_cons, List.map_cons, List.map_singleton, List.sum_cons, List.sum_cons,
    List.sum_singleton, hflags]
  have hcounters : countersAt p (freshNode E keys slots keysCount) =
      pointsTo (p, .curSize) (.count keysCount) + pointsTo (p, .modificationsCount) (.count 0) :=
    rfl
  refine subset_trans (subset_of_eq ?_)
    (Set.add_subset_add (Set.add_subset_add_left (Set.add_subset_add_left hslots)) hheader)
  rw [hcounters]
  dsimp only
  ac_rfl

variable [LinearOrder T] {A : Doubles T} {W : Set T}

/-- **The constructor makes a fresh node** of its keys and its children. -/
theorem newNode_spec (hA : A.AdequateOn W) (h : keys.SortedLT) (hmem : ∀ x ∈ keys, x ∈ W)
    (hpos : 0 < keys.length) (hlen : children.length = slots.length)
    (hslots : slots.length = 0 ∨ slots.length = keys.length + 1) :
    Spec s (ownedList slots children) (newNode A keys children keysCount) fun p ↦
      nodeAt (freshNode A.reference keys slots keysCount) p := by
  obtain ⟨id, hbuilt, hid, hentries⟩ :=
    hA.buildId_isOk keys h (List.ne_nil_of_length_pos hpos) hmem
  rw [newNode, assert_of hpos, assert_of (hlen ▸ hslots), hbuilt, lift_ok]
  split
  · exact newCells_spec hlen
      ⟨rfl, (List.length_replicate ..).symm, hlen, rfl, .inr ⟨hid, hentries⟩⟩
  · exact newCells_spec hlen ⟨rfl, (List.length_replicate ..).symm, hlen, rfl, .inl rfl⟩

/-! ### Building -/

/-- The entries of the arrays of a range that one cell fills: its representative, unless it is the
last one, and its subtree. -/
def cellRepAt (reps repSize : ℕ) (v : ℕ → Val T) (i : ℕ) : Assertion Part (Val T) :=
  if i < repSize then pointsTo (reps, .entry i) (v i) else 0

omit [LinearOrder T] in
theorem sum_cellRepAt (reps repSize : ℕ) (v : ℕ → Val T) :
    ∑ i ∈ Finset.range (repSize + 1), cellRepAt reps repSize v i =
      entriesAt reps (Finset.range repSize) v := by
  rw [Finset.sum_range_succ, cellRepAt, if_neg (lt_irrefl _), add_zero, entriesAt]
  exact Finset.sum_congr rfl fun i hi ↦ if_pos (Finset.mem_range.1 hi)

omit [LinearOrder T] in
/-- One cell of a range. -/
theorem doBuildSingleCell_gives {b r i left right reps cells : ℕ}
    {build : ℕ → ℕ → Code T (Option ℕ)} (x : T) (h : left + r * (b + 1) ≤ right)
    (hlast : right ≤ left + r * (b + 1) + b) (hright : right ≤ keys.length) (hi : i < r + 1)
    (hbuild : Spec s 0 (build (left + i * (b + 1)) (min (left + i * (b + 1) + b) right)) fun q ↦
      ownedAt (buildTree E t (cell b i (part keys left right))) q) :
    Gives s (cellRepAt reps r (fun _ ↦ .raw) i + pointsTo (cells, .entry i) .raw)
      (doBuildSingleCell keys build reps cells b r left right i) ()
      (cellRepAt reps r (fun i ↦ .key ((keys[left + (i * (b + 1) + b)]?).getD x)) i +
        slotAt (cells, .entry i) (buildTree E t (cell b i (part keys left right)))) := by
  rw [doBuildSingleCell]
  split
  · rename_i hir
    have hmul : (i + 1) * (b + 1) ≤ r * (b + 1) := Nat.mul_le_mul_right _ hir
    rw [Nat.succ_mul] at hmul
    rw [min_eq_left (by omega)] at hbuild
    have hget : get keys (left + i * (b + 1) + b) =
        .ok ((keys[left + (i * (b + 1) + b)]?).getD x) := by
      rw [get_getD (by omega) x, Nat.add_assoc]
    dsimp only
    rw [hget, lift_ok, Prog.pure_bind, cellRepAt, if_pos hir, cellRepAt, if_pos hir]
    exact Gives.store.seq _ rfl ((storeBuilt hbuild).frameLeft _)
  · -- the last cell, which has no representative behind it
    rename_i hir
    obtain rfl : i = r := by omega
    rw [min_eq_right (by omega)] at hbuild
    rw [assert_of rfl, Prog.pure_bind, cellRepAt, if_neg hir, cellRepAt, if_neg hir, zero_add,
      zero_add]
    exact storeBuilt hbuild

omit [LinearOrder T] in
/-- The loop over the cells fills the arrays of representatives and of children. -/
theorem doBuildCells_gives {b r left right reps cells : ℕ}
    {build : ℕ → ℕ → Code T (Option ℕ)} (x : T) (h : left + r * (b + 1) ≤ right)
    (hlast : right ≤ left + r * (b + 1) + b) (hright : right ≤ keys.length)
    (hbuild : ∀ i ≤ r,
      Spec s 0 (build (left + i * (b + 1)) (min (left + i * (b + 1) + b) right)) fun q ↦
        ownedAt (buildTree E t (cell b i (part keys left right))) q) :
    Gives s (entriesAt reps (Finset.range r) (fun _ ↦ .raw) +
        entriesAt cells (Finset.range (r + 1)) fun _ ↦ .raw)
      (Prog.parallel (doBuildSingleCell keys build reps cells b r left right) 0 (r + 1)) ()
      (entriesAt reps (Finset.range r) (fun i ↦ .key ((keys[left + (i * (b + 1) + b)]?).getD x)) +
        ∑ i ∈ Finset.range (r + 1),
          slotAt (cells, .entry i) (buildTree E t (cell b i (part keys left right)))) := by
  have hloop := @Gives.parallel _ _ s (doBuildSingleCell keys build reps cells b r left right)
    (fun i ↦ cellRepAt reps r (fun _ ↦ Val.raw) i + pointsTo (cells, .entry i) .raw)
    (fun i ↦ cellRepAt reps r (fun i ↦ .key ((keys[left + (i * (b + 1) + b)]?).getD x)) i +
      slotAt (cells, .entry i) (buildTree E t (cell b i (part keys left right)))) (r + 1) 0
    fun i _ hi ↦ doBuildSingleCell_gives x h hlast hright (by omega) (hbuild i (by omega))
  rw [Nat.zero_add, ← Finset.range_eq_Ico, Finset.sum_add_distrib, Finset.sum_add_distrib,
    sum_cellRepAt, sum_cellRepAt] at hloop
  exact hloop

omit [LinearOrder T] in
/-- The pointers are taken out of an array of pointers to subtrees. -/
theorem takePointers_spec {cells n : ℕ} {slot : ℕ → Option (Node T)} :
    Spec s (∑ i ∈ Finset.range n, slotAt (cells, .entry i) (slot i))
      (takeArray Val.pointer? cells n) fun children ↦
        {m | children.length = n ∧ m ∈ ownedList ((List.range n).map slot) children} := by
  -- the address behind every pointer
  refine (Spec.iUnion (P := fun f : ℕ → Option ℕ ↦ ∑ i ∈ Finset.range n,
    (pointsTo (cells, Part.entry i) (Val.pointer (f i)) + ownedAt (slot i) (f i))) fun f ↦
      ?_).strengthen fun m hm ↦ Set.mem_iUnion.2 (exists_of_mem_sum_iUnion hm)
  have htake := (@takeArray_spec T (Option ℕ) s cells n (fun i ↦ .pointer (f i)) Val.pointer?
    ((List.range n).map f) (by simp) fun i q hq ↦ by
      rw [List.getElem?_map, Option.map_eq_some_iff] at hq
      obtain ⟨j, hj, rfl⟩ := hq
      obtain ⟨_, rfl⟩ := List.getElem?_eq_some_iff.1 hj
      rw [List.getElem_range, pointer?_pointer]).frame
    (∑ i ∈ Finset.range n, ownedAt (slot i) (f i))
  rw [Finset.sum_add_distrib]
  refine htake.spec fun m hm ↦ ⟨by simp, ?_⟩
  rw [zero_add] at hm
  rw [ownedList, List.length_map, List.length_range]
  rwa [Finset.sum_congr rfl fun i hi ↦ by
    rw [List.getElem?_map, List.getElem?_map, List.getElem?_range (Finset.mem_range.1 hi),
      Option.map_some, Option.map_some, Option.getD_some, Option.getD_some]]

/-- A terminal node of a range. -/
theorem buildTerminal_spec (hA : A.AdequateOn W) (hright : right ≤ keys.length)
    (hlt : left < right) (hsorted : (part keys left right).SortedLT)
    (hmem : ∀ x ∈ part keys left right, x ∈ W) :
    Spec s 0 (do
      let reps ← tabulateArray .key Val.key? (right - left) fun repIdx ↦
        lift (get keys (repIdx + left))
      let node ← newNode A reps [] (right - left)
      pure (some node)) fun q ↦
        ownedAt (some (freshNode A.reference (part keys left right) [] (right - left))) q := by
  have hlen : (part keys left right).length = right - left := length_part hright
  have hreps : Simulates s (tabulateArray .key Val.key? (right - left) fun repIdx ↦
      lift (get keys (repIdx + left))) _ :=
    .tabulate key?_key fun i _ ↦ .lift (get keys (i + left))
  refine (hreps _ (tabulate_part hright)).andThen ?_
  rw [← ownedList_nil []]
  have hnew := @newNode_spec T s (part keys left right) [] [] (right - left) _ A W hA hsorted
    hmem (by omega) rfl (.inl rfl)
  exact hnew.bind fun p ↦ Spec.ret subset_rfl

/-- An inner node of a range: its arrays are allocated, filled by the cells and read. -/
theorem buildInner_spec (hA : A.AdequateOn W) {b r : ℕ} {build : ℕ → ℕ → Code T (Option ℕ)} (x : T)
    (hr : 0 < r) (h : left + r * (b + 1) ≤ right) (hlast : right ≤ left + r * (b + 1) + b)
    (hright : right ≤ keys.length) (hsorted : (part keys left right).SortedLT)
    (hmem : ∀ x ∈ part keys left right, x ∈ W)
    (hbuild : ∀ i ≤ r,
      Spec s 0 (build (left + i * (b + 1)) (min (left + i * (b + 1) + b) right)) fun q ↦
        ownedAt (buildTree A.reference t (cell b i (part keys left right))) q) :
    Spec s 0 (do
      let reps ← newArray r
      let children ← newArray (r + 1)
      Prog.parallel (doBuildSingleCell keys build reps children b r left right) 0 (r + 1)
      let reps ← takeArray Val.key? reps r
      let children ← takeArray Val.pointer? children (r + 1)
      let node ← newNode A reps children (right - left)
      pure (some node)) fun q ↦
        ownedAt (some (freshNode A.reference (cellReps b r (part keys left right))
          ((List.range (r + 1)).map fun i ↦
            buildTree A.reference t (cell b i (part keys left right))) (right - left))) q := by
  have hlen : (part keys left right).length = right - left := length_part hright
  have hreps := cellReps_part (b := b) (r := r) x h hright
  have hmul : r * (b + 1) ≤ (part keys left right).length := by omega
  have hrepsLen : (cellReps b r (part keys left right)).length = r := length_cellReps hmul
  refine (newArray_spec _).bind fun reps ↦ ?_
  refine (newArray_spec _).seq _ (zero_add _).symm fun cells ↦ ?_
  rw [add_comm]
  refine (doBuildCells_gives x h hlast hright hbuild).bind ?_
  -- both arrays are full, so they can be read now
  refine (takeArray_spec (l := cellReps b r (part keys left right)) hrepsLen
    fun i a ha ↦ ?_).seq _ rfl ?_
  · rw [hreps, List.getElem?_map, Option.map_eq_some_iff] at ha
    obtain ⟨j, hj, rfl⟩ := ha
    obtain ⟨_, rfl⟩ := List.getElem?_eq_some_iff.1 hj
    rw [List.getElem_range, key?_key]
  rw [zero_add]
  refine takePointers_spec.bind fun children m hm ↦ ?_
  obtain ⟨hchildren, hm⟩ := hm
  refine (newNode_spec hA (sortedLT_cellReps hsorted hmul)
    (fun x hx ↦ hmem x (cellReps_subset _ _ _ x hx)) (by omega) (by simpa using hchildren)
    (.inr (by simp [hrepsLen]))).bind (fun p ↦ Spec.ret ?_) hm
  exact subset_rfl

/-- **`do_build_from_keys` builds the tree of its range**, from nothing. -/
theorem doBuildFromKeys_spec (hA : A.AdequateOn W) (ht : 1 ≤ t) {fuel : ℕ} : ∀ {left right : ℕ},
    left ≤ right → right ≤ keys.length → (part keys left right).SortedLT →
    (∀ x ∈ part keys left right, x ∈ W) → right - left < fuel →
    Spec s 0 (doBuildFromKeys A keys t fuel left right) fun q ↦
      ownedAt (buildTree A.reference t (part keys left right)) q := by
  induction fuel with
  | zero =>
    intro left right _ _ _ _ hfuel
    omega
  | succ fuel ih =>
    intro left right hle hright hsorted hmem hfuel
    have hlen : (part keys left right).length = right - left := length_part hright
    rw [doBuildFromKeys]
    dsimp only
    rw [assert_of hle, Prog.pure_bind]
    split
    · rename_i heq
      rw [List.length_eq_zero_iff.1 (hlen.trans (by omega)), buildTree_nil]
      exact Spec.ret subset_rfl
    rename_i hne
    rw [subtract_of_le hle, lift_ok, Prog.pure_bind]
    have hnil : part keys left right ≠ [] := List.ne_nil_of_length_pos (by omega)
    split
    · rename_i hsmall
      rw [buildTree_terminal hnil (.inl (by omega)), hlen]
      exact buildTerminal_spec hA hright (by omega) hsorted hmem
    · rename_i hbig
      have hle' := repCount_mul_le (right - left)
      have hlt' := lt_repCount_mul (right - left)
      obtain ⟨costs, hcosts⟩ := @cellsCosts_isOk left right (Nat.sqrt (right - left))
        (repCount (right - left)) (by omega)
      rw [Nat.succ_mul] at hlt'
      obtain ⟨x, -⟩ := List.exists_mem_of_ne_nil _ hnil
      have hblock := hA.blockSize_eq _ hsorted hnil hmem
      rw [hlen] at hblock
      rw [hblock, lift_ok, Prog.pure_bind, hcosts, lift_ok, Prog.pure_bind,
        buildTree_inner (by omega), hlen]
      refine buildInner_spec (r := repCount (right - left)) hA x (repCount_pos (by omega))
        (by omega) (by omega) hright hsorted hmem fun i hi ↦ ?_
      -- as the range has two keys at least, every cell is shorter, which the fuel pays for
      have hsqrt : Nat.sqrt (right - left) < right - left := Nat.sqrt_lt_self (by omega)
      have hmul : i * (Nat.sqrt (right - left) + 1) ≤
        repCount (right - left) * (Nat.sqrt (right - left) + 1) := Nat.mul_le_mul_right _ hi
      have hcell := @cell_part _ keys left right (Nat.sqrt (right - left)) i
        (show left + _ ≤ right by omega)
      have hmem' := cell_subset (Nat.sqrt (right - left)) i (part keys left right)
      rw [hcell] at hmem' ⊢
      exact ih (by omega) (by omega) (hcell ▸ sortedLT_cell hsorted _ _)
        (fun x hx ↦ hmem x (hmem' x hx)) (by omega)

/-- **`build_from_keys` builds the tree of a batch**, from nothing. -/
theorem buildFromKeys_spec (hA : A.AdequateOn W) (ht : 1 ≤ t) (h : keys.SortedLT)
    (hmem : ∀ x ∈ keys, x ∈ W) :
    Spec s 0 (buildFromKeys A keys t) fun q ↦ ownedAt (buildTree A.reference t keys) q := by
  have hbuild := @doBuildFromKeys_spec T s t keys _ A W hA ht (keys.length + 1) 0 keys.length
    (Nat.zero_le _) le_rfl (by rwa [part_self]) (by rwa [part_self]) (by omega)
  rw [part_self] at hbuild
  rwa [buildFromKeys, isSorted_of_sortedLT h, lift_ok, Prog.pure_bind, assert_of rfl,
    Prog.pure_bind]

/-! ### Deleting -/

omit [LinearOrder T]

/-- The children of a node that are deleted, with the pointers to them. -/
def deletedAt (p n : ℕ) : Assertion Part (Val T) :=
  ∑ i ∈ Finset.range n, ⋃ q : Option ℕ, pointsTo (p, .children i) (.pointer q)

/-- The cells of a node are freed when its children are deleted. -/
theorem freeNode_gives {hd : Header T} (hof : hd.Of node) :
    Gives s (countersAt p node + (flagsAt p node.keysExist + deletedAt p node.children.length) +
      pointsTo (p, .header) (.header hd)) (freeNode p hd) () 0 := by
  have hflags : Gives s (flagsAt p node.keysExist) (Prog.iterate (fun i _ ↦
      Prog.release (p, Part.keysExist i)) 0 hd.existSize ()) () 0 := by
    have hloop := @Gives.iterateEach _ _ s (fun i _ ↦ Prog.release (p, Part.keysExist i))
      (flagAt p node.keysExist) (fun _ ↦ 0) hd.existSize 0 fun i _ _ ↦ Gives.release
    rw [Nat.zero_add, ← Finset.range_eq_Ico, Finset.sum_const_zero] at hloop
    rw [hof.existSize_eq] at hloop ⊢
    exact hloop
  have hchildren : Gives s (deletedAt p node.children.length) (Prog.iterate (fun i _ ↦
      Prog.release (p, Part.children i)) 0 hd.childrenSize ()) () 0 := by
    have hloop := @Gives.iterateEach _ _ s (fun i _ ↦ Prog.release (p, Part.children i))
      (fun i ↦ ⋃ q : Option ℕ, pointsTo (p, Part.children i) (Val.pointer (T := T) q))
      (fun _ ↦ 0) hd.childrenSize 0 fun i _ _ ↦ Spec.iUnion fun q ↦ Gives.release
    rw [Nat.zero_add, ← Finset.range_eq_Ico, Finset.sum_const_zero] at hloop
    rw [hof.childrenSize_eq] at hloop ⊢
    exact hloop
  rw [freeNode, countersAt]
  refine hflags.consume (deletedAt p node.children.length + (pointsTo (p, .curSize) _ +
    (pointsTo (p, .modificationsCount) _ + pointsTo (p, .header) _))) (by ac_rfl) ?_
  refine hchildren.consume _ rfl ?_
  exact Gives.release.consume _ rfl (Gives.release.consume _ rfl Gives.release)

/-- The child at a pointer is deleted. -/
theorem deleteAt_gives {fuel : ℕ} {l : Loc Part} {slot : Option (Node T)}
    (h : ∀ q, Gives s (ownedAt slot q) (delete fuel q) () 0) :
    Gives s (slotAt l slot) (Prog.readAs Val.pointer? l >>= delete fuel) ()
      (⋃ q : Option ℕ, pointsTo l (.pointer q)) := by
  refine Spec.iUnion fun q ↦ ?_
  have hread : Gives s (pointsTo l (.pointer q)) (Prog.readAs Val.pointer? l) q
      (pointsTo l (Val.pointer (T := T) q)) := Gives.readAs rfl
  refine hread.seq _ rfl (((h q).frameLeft _).weaken fun _ m hm ↦ ⟨rfl, ?_⟩)
  rw [add_zero] at hm
  exact Set.mem_iUnion.2 ⟨q, hm.2⟩

/-- **`delete` frees a subtree**, and nothing else. -/
theorem delete_gives {fuel : ℕ} : ∀ {slot : Option (Node T)} {q : Option ℕ},
    slotHeight slot ≤ fuel → Gives s (ownedAt slot q) (delete fuel q) () 0 := by
  induction fuel with
  | zero =>
    intro slot q hfuel
    rcases slot with - | node
    · rcases q with - | p
      · exact Gives.ret
      · exact fun m hm ↦ absurd hm (Set.notMem_empty m)
    · have hheight := Node.height_eq node
      rw [slotHeight_some] at hfuel
      omega
  | succ fuel ih =>
    intro slot q hfuel
    rcases slot with - | node <;> rcases q with - | p
    · exact Gives.ret
    · exact fun m hm ↦ absurd hm (Set.notMem_empty m)
    · exact fun m hm ↦ absurd hm (Set.notMem_empty m)
    · rw [ownedAt_some, nodeAt_eq, add_comm]
      refine readHeader fun hd hof ↦ ?_
      have hloop := @Gives.iterateEach _ _ s
        (fun i _ ↦ Prog.readAs Val.pointer? (p, Part.children i) >>= delete fuel)
        (fun i ↦ slotAt (p, .children i) (node.children[i]?.getD none))
        (fun i ↦ ⋃ q : Option ℕ, pointsTo (p, .children i) (.pointer q)) hd.childrenSize 0
        fun i _ hi ↦ deleteAt_gives fun q ↦ ih ?_
      · rw [Nat.zero_add, ← Finset.range_eq_Ico] at hloop
        rw [hof.childrenSize_eq] at hloop ⊢
        have hchildren :
            Gives s (slotsAt p node.children) _ () (deletedAt p node.children.length) :=
          hloop
        refine hchildren.seq (countersAt p node + (flagsAt p node.keysExist +
          pointsTo (p, .header) (.header hd))) (by ac_rfl) ?_
        refine (freeNode_gives hof).strengthen (subset_of_eq ?_)
        ac_rfl
      · rw [slotHeight_some] at hfuel
        rw [Nat.zero_add, hof.childrenSize_eq] at hi
        rw [List.getElem?_eq_getElem hi, Option.getD_some]
        have hlt := Node.slotHeight_lt (List.getElem_mem hi)
        omega

end Mem

end Pbist
