import Pbist.Memory.Updating
import Pbist.Refinement.Tree

/-!
# The operations of the tree in memory

`treeAt tree ist` are the pieces of memory that consist of the object `ist` at address `tree` with
all its nodes. The lookups get the tree as a shared piece; an update owns it. An array of answers is
handed over to the user.

The results are one rule for each member function of `ist_internal`. Those of the lookups leave the
shared tree alone and can be used by any number of threads; those of the updates replace the piece
`treeAt tree ist` by that of the functional update.
-/

namespace Pbist

namespace Mem

open Checked Assertion Sorted

open scoped Pointwise

variable {T α : Type} {s : Memory Part (Val T)} {tree t c : ℕ} {ist : Ist T} {W : Set T}

/-- The object at `tree`, with all its nodes. -/
def treeAt (tree : ℕ) (ist : Ist T) : Assertion Part (Val T) :=
  slotAt (tree, .root) ist.root + pointsTo (tree, .sizeThreshold) (.count ist.sizeThreshold)

/-- The object at `tree` may be read, with all its nodes. -/
structure StoredTree (s : Memory Part (Val T)) (ist : Ist T) (tree : ℕ) : Prop where
  root_none : ist.root = none → ((tree, Part.root), Val.pointer none) ∈ s
  root_some : ∀ root, ist.root = some root →
    ∃ a, ((tree, Part.root), Val.pointer (some a)) ∈ s ∧ Stored s root a

/-- An array of answers. -/
def answersAt (result : ℕ) (answers : List Bool) : Assertion Part (Val T) :=
  entriesAt result (Finset.range answers.length) fun i ↦ .flag (answers[i]?.getD false)

/-- What is owned may be read. -/
theorem storedTree_of_mem {m : Memory Part (Val T)} (h : m ∈ treeAt tree ist) (hs : m ≤ s) :
    StoredTree s ist tree := by
  obtain ⟨x, hx, y, -, rfl⟩ := h
  obtain ⟨a, hpointer, hbelow⟩ :=
    exists_addr_of_mem_slotAt hx ((Multiset.le_add_right x y).trans hs)
  refine ⟨fun hroot ↦ ?_, fun root hroot ↦ ⟨a, ?_, ?_⟩⟩
  · rwa [hroot] at hpointer
  · rwa [hroot] at hpointer
  · obtain ⟨m', hm', hle'⟩ := hbelow root hroot
    exact stored_of_mem hm' hle'

/-- A program that only reads a tree it owns. -/
theorem readTree {x : Code T α} {a : α}
    (h : ∀ s' : Memory Part (Val T), StoredTree s' ist tree → Gives s' 0 x a 0) :
    Gives s (treeAt tree ist) x a (treeAt tree ist) :=
  Gives.readOnly fun r hr ↦ h (s + r) (storedTree_of_mem hr (Multiset.le_add_left _ _))

/-- The user takes the answers out of their array. -/
theorem takeAnswers {result n : ℕ} {answers : List Bool} (h : answers.length = n) :
    Gives s (answersAt result answers) (takeArray Val.flag? result n) answers 0 := by
  subst h
  exact takeArray_spec rfl fun i a ha ↦ by rw [ha, Option.getD_some, flag?_flag]

theorem answersAt_replicate (result n : ℕ) (b : Bool) :
    answersAt (T := T) result (List.replicate n b) =
      entriesAt result (Finset.range n) fun _ ↦ .flag b := by
  rw [answersAt, List.length_replicate]
  refine entriesAt_congr fun i hi ↦ ?_
  rw [List.getElem?_replicate, if_pos (Finset.mem_range.1 hi), Option.getD_some]

theorem newAnswers : Spec s 0 (newArray 0) fun result ↦ answersAt (T := T) result [] :=
  newArray_spec 0

/-- An array of equal answers. -/
theorem fillAnswers (n : ℕ) (b : Bool) :
    Spec s 0 (fillArray n b) fun result ↦ answersAt (T := T) result (List.replicate n b) :=
  (fillArray_spec n b).weaken fun result ↦ (answersAt_replicate result n b).symm.subset

variable [LinearOrder T] {A : Doubles T} {keys : List T} {S : Finset T}

/-! ### Construction and destruction -/

/-- **The constructor builds the tree**, from nothing. -/
theorem newTree_spec (hA : A.AdequateOn W) (ht : 1 ≤ t) (h : keys.SortedLT)
    (hmem : ∀ x ∈ keys, x ∈ W) :
    Spec s 0 (newTree A keys t) fun tree ↦ treeAt tree ⟨buildTree A.reference t keys, t⟩ := by
  refine (buildFromKeys_spec hA ht h hmem).bind fun q ↦ ?_
  have hnew := (@Spec.new _ _ s [(Part.root, Val.pointer (T := T) q), (.sizeThreshold, .count t)]
    (by simp)).frame (ownedAt (buildTree A.reference t keys) q)
  rw [zero_add] at hnew
  refine hnew.weaken fun tree ↦ ?_
  rw [List.map_cons, List.map_singleton, List.sum_cons, List.sum_singleton]
  refine subset_trans (add_right_comm _ _ _).subset (Set.add_subset_add_right fun m hm ↦ ?_)
  exact Set.mem_iUnion.2 ⟨q, hm⟩

omit [LinearOrder T] in
/-- **The destructor frees the tree**, and nothing else. -/
theorem deleteTree_gives (h : slotHeight ist.root ≤ maxDepth) :
    Gives s (treeAt tree ist) (deleteTree tree) () 0 := by
  refine readSlot (fun hroot ↦ ?_) fun root a hroot ↦ ?_
  · rw [delete]
    exact Gives.release.consume _ rfl Gives.release
  · rw [hroot] at h
    refine (@delete_gives T s maxDepth (some root) (some a) h).consume
      (pointsTo (tree, .root) _ + pointsTo (tree, .sizeThreshold) _) (by
        rw [ownedAt_some]
        ac_rfl) ?_
    exact Gives.release.consume _ rfl Gives.release

/-! ### Lookups -/

theorem containsLoop_none (key : T) (fuel : ℕ) :
    containsLoop A key fuel none = pure false := by
  cases fuel <;> rfl

/-- The loop goes on at a child, or ends at a null pointer. -/
theorem containsLoop_child {node : Node T} {p fuel i : ℕ} {slot : Option (Node T)} {key : T}
    (h : Stored s node p) (hslot : node.children[i]? = some slot)
    (hself : ∀ child a, slot = some child → Stored s child a →
      Gives s 0 (containsLoop A key fuel (some a)) (decide (key ∈ child.live)) 0) :
    Gives s 0 (do
      let child ← Prog.readAs Val.pointer? (p, .children i)
      containsLoop A key fuel child) (decide (key ∈ slotLive slot)) 0 := by
  rcases slot with - | child
  · refine Gives.andThen (Gives.readShared (h.child_none hslot) rfl) ?_
    rw [containsLoop_none, slotLive_none, decide_eq_false List.not_mem_nil]
    exact Gives.ret
  · obtain ⟨a, ha, hstored⟩ := h.child_some hslot
    exact Gives.andThen (Gives.readShared ha rfl) (hself child a rfl hstored)

/-- The loop of the single-key `contains`. -/
theorem containsLoop_gives (hA : A.AdequateOn W) (key : T) {fuel : ℕ} : ∀ {node : Node T} {p : ℕ}
    {I : Set T}, Stored s node p → I ⊆ W → node.Inv t I → node.height ≤ fuel →
      Gives s 0 (containsLoop A key fuel (some p)) (decide (key ∈ node.live)) 0 := by
  induction fuel with
  | zero =>
    intro node p I _ _ _ hfuel
    have hheight := Node.height_eq node
    omega
  | succ fuel ih =>
    intro node p I h hI hinv hfuel
    have hlocal := hinv.here
    rw [containsLoop]
    refine h.header.bind fun hd hof ↦ ?_
    rw [assert_of (by rw [hof.keys_eq, hof.existSize_eq, hlocal.exist_length]), Prog.pure_bind]
    refine (h.header.doSearch hA hlocal hI key).andThen ?_
    dsimp only
    by_cases hmem : key ∈ node.keys
    · rw [decide_eq_true hmem, if_pos rfl, hof.keys_eq,
        get_of_getElem? (getElem?_rank hlocal.sorted hmem), lift_ok, Prog.pure_bind, assert_of rfl,
        Prog.pure_bind]
      exact Gives.readShared (h.flag (getElem?_keysExist_rank hinv hmem)) rfl
    · -- the key can only be stored below the child that the search names
      have hlive := Node.Inv.mem_live_of_notMem hinv hmem
      rw [decide_eq_false hmem, if_neg Bool.false_ne_true]
      refine (h.header.isTerminal _ hlocal.isTerminal_eq).andThen ?_
      split
      · rename_i hterm
        rw [List.length_eq_zero_iff.1 (of_decide_eq_true hterm)] at hlive
        rw [assert_of (hof.childrenSize_eq.trans (of_decide_eq_true hterm)), Prog.pure_bind,
          decide_eq_false (by simp [hlive])]
        exact Gives.ret
      · rename_i hterm
        have hinner := hlocal.children_length.resolve_left (by simpa using hterm)
        have hlt : rank node.keys key < node.children.length := by
          have := rank_le_length node.keys key
          omega
        have hslot := List.getElem?_eq_getElem hlt
        rw [hof.childrenSize_eq, assert_of (by omega), Prog.pure_bind,
          assert_of ⟨Nat.zero_le _, hlt⟩, Prog.pure_bind]
        have hmem' : key ∈ slotLive node.children[rank node.keys key] ↔ key ∈ node.live := by
          rw [hlive, hslot]
          simp
        rw [← decide_eq_decide.2 hmem']
        refine containsLoop_child h hslot fun child a hchild hstored ↦ ?_
        rw [hchild] at hslot
        have hheight := Node.slotHeight_lt (List.mem_of_getElem? hslot)
        rw [slotHeight_some] at hheight
        exact ih hstored (fun x hx ↦ hI hx.1) (hinv.child hslot) (by omega)

section Lookups

variable (h : StoredTree s ist tree) (hA : A.AdequateOn W) (hinv : SlotInv t W ist.root)

include h hA hinv

/-- **The single-key `contains`** finds out whether the key is stored. -/
theorem containsSingle_gives (key : T) :
    Gives s 0 (containsSingle A tree key) (decide (key ∈ slotLive ist.root)) 0 := by
  rcases hroot : ist.root with - | root
  · refine Gives.andThen (Gives.readShared (h.root_none hroot) rfl) ?_
    rw [slotLive_none, decide_eq_false List.not_mem_nil]
    exact Gives.ret
  · obtain ⟨a, ha, hstored⟩ := h.root_some root hroot
    exact Gives.andThen (Gives.readShared ha rfl) (containsLoop_gives hA key hstored subset_rfl
      (hinv root hroot) (hA.height_le subset_rfl (hinv root hroot)))

/-- **The batch `contains`** returns the membership of every key. -/
theorem contains_spec (hkeys : keys.SortedLT) :
    Spec s 0 (contains A tree keys) fun result ↦ answersAt result (ist.membership keys) := by
  rw [contains, isSorted_of_sortedLT hkeys, lift_ok, Prog.pure_bind, assert_of rfl, Prog.pure_bind]
  split
  · rename_i hnil
    rw [List.length_eq_zero_iff.1 hnil]
    exact newAnswers
  rename_i hne
  rcases hroot : ist.root with - | root
  · have hflags : ist.membership keys = List.replicate keys.length false := by
      rw [Ist.membership, hroot]
      simp
    refine Gives.andThen (Gives.readShared (h.root_none hroot) rfl) ?_
    rw [hflags]
    exact fillAnswers _ _
  · obtain ⟨a, ha, hstored⟩ := h.root_some root hroot
    refine Gives.andThen (Gives.readShared ha rfl) ((newArray_spec _).bind fun result ↦ ?_)
    have hfill := @doContains_fills T _ s t W A keys result (root.answerAt keys) hA maxDepth root a
      W 0 keys.length hstored subset_rfl (hinv root hroot)
      (hA.height_le subset_rfl (hinv root hroot)) (by omega) le_rfl (by rwa [part_self])
      Node.answers_answerAt
    rw [← Finset.range_eq_Ico] at hfill
    refine hfill.bind (Spec.ret (Eq.subset ?_))
    rw [answersAt, Ist.membership, List.length_map]
    refine entriesAt_congr fun i hi ↦ ?_
    rw [Function.comp_apply, Node.answerAt, List.getElem?_map, hroot, slotLive_some]

/-- `calc_tree_size` counts the stored keys. -/
theorem calcTreeSize_gives : Gives s 0 (calcTreeSize tree) (slotSize ist.root) 0 := by
  rcases hroot : ist.root with - | root
  · exact Gives.andThen (Gives.readShared (h.root_none hroot) rfl) Gives.ret
  · obtain ⟨a, ha, hstored⟩ := h.root_some root hroot
    exact Gives.andThen (Gives.readShared ha rfl) (hstored.calcNodeSize _
      (Node.Inv.calcNodeSize_eq (hinv root hroot)
        (hA.height_le subset_rfl (hinv root hroot))))

/-- `get_keys` of the root returns the stored keys. -/
theorem treeGetKeys_gives : Gives s 0 (treeGetKeys tree) (slotLive ist.root) 0 := by
  rcases hroot : ist.root with - | root
  · exact Gives.andThen (Gives.readShared (h.root_none hroot) rfl) Gives.ret
  · obtain ⟨a, ha, hstored⟩ := h.root_some root hroot
    exact Gives.andThen (Gives.readShared ha rfl)
      (hstored.getKeys (hinv root hroot) (hA.height_le subset_rfl (hinv root hroot)))

end Lookups

/-! ### Updates -/

omit [LinearOrder T] in
/-- The loop of `insert` that negates the answers. -/
theorem negate_gives {result n : ℕ} {answers : List Bool} (h : answers.length = n) :
    Gives s (answersAt (T := T) result answers) (Prog.parallel (negateFlag result) 0 n) ()
      (answersAt result (answers.map (!·))) := by
  subst h
  have hloop := @Gives.parallel _ _ s (negateFlag (T := T) result)
    (fun i ↦ pointsTo (result, .entry i) (.flag (answers[i]?.getD false)))
    (fun i ↦ pointsTo (result, .entry i) (.flag ((answers.map (!·))[i]?.getD false)))
    answers.length 0 fun i _ hi ↦ by
      rw [Nat.zero_add] at hi
      rw [List.getElem?_map, List.getElem?_eq_getElem hi, Option.map_some, Option.getD_some,
        Option.getD_some]
      exact Gives.bind (Gives.readAs (flag?_flag _)) Gives.store
  rw [Nat.zero_add, ← Finset.range_eq_Ico] at hloop
  rw [answersAt, answersAt, List.length_map]
  exact hloop

omit [LinearOrder T] in
/-- The keys whose answer is true. -/
theorem selectKeys_gives {result : ℕ} {answers : List Bool} (h : answers.length = keys.length) :
    Gives s (answersAt result answers) (selectKeys keys result) (Ist.selectKeys keys answers)
      (answersAt result answers) := by
  have hread := @readArray_spec T Bool s result keys.length
    (fun i ↦ .flag (answers[i]?.getD false)) Val.flag? answers h
    fun i a ha ↦ by rw [ha, Option.getD_some, flag?_flag]
  rw [← h] at hread
  rw [selectKeys, ← h]
  exact hread.bind Gives.ret

/-- The tree while its root pointer is known. -/
def rootedAt (tree : ℕ) (ist : Ist T) (root : Node T) (a : ℕ) : Assertion Part (Val T) :=
  pointsTo (tree, .root) (.pointer (some a)) + nodeAt root a +
    pointsTo (tree, .sizeThreshold) (.count ist.sizeThreshold)

omit [LinearOrder T] in
theorem rootedAt_subset {root : Node T} (hroot : ist.root = some root) (a : ℕ) :
    rootedAt tree ist root a ⊆ treeAt tree ist := by
  rw [treeAt, hroot]
  exact Set.add_subset_add_right fun m hm ↦ Set.mem_iUnion.2 ⟨some a, hm⟩

section Updates

variable {exist : Bool} (hA : A.AdequateOn W) (h : ist.Represents t W S) (hkeys : keys.SortedLT)

include hA h hkeys

/-- The answers of an update, while the root pointer is known. -/
theorem contains_rooted {root : Node T} (hroot : ist.root = some root) (a : ℕ) :
    Spec s (rootedAt tree ist root a) (contains A tree keys) fun result ↦
      answersAt result (ist.membership keys) + rootedAt tree ist root a := by
  have hshare := Spec.share (P := 0) (s := s) (R := rootedAt tree ist root a) fun r hr ↦
    contains_spec (storedTree_of_mem (rootedAt_subset hroot a hr) (Multiset.le_add_left r s)) hA
      h.inv hkeys
  rwa [zero_add] at hshare

variable (ht : 1 ≤ t) (hmem : ∀ x ∈ keys, x ∈ W)

include ht hmem

/-- The keys that make a difference are passed on to the root. -/
theorem updateRoot_gives {root : Node T} (hroot : ist.root = some root) {a : ℕ}
    {update : List T → ℕ → ℕ → ℕ → Code T (Option (Option ℕ))}
    (hupdate : ∀ {batch : List T}, 0 < batch.length →
      Admissible exist W root.live (part batch 0 batch.length) →
      Spec s (nodeAt root a) (update batch a 0 batch.length)
        (outcomeAt a (updated A.reference c t exist root (part batch 0 batch.length)))) :
    Gives s (rootedAt tree ist root a) (updateRoot update tree a (ist.effective exist keys)) ()
      (treeAt tree (ist.updated A.reference c exist keys).tree) := by
  have hb : Admissible exist W (slotLive ist.root) (ist.effective exist keys) :=
    Ist.admissible_effective hkeys hmem
  rw [hroot, slotLive_some] at hb
  have hthreshold := h.sizeThreshold
  subst hthreshold
  rw [updateRoot]
  split
  · rename_i hpos
    rw [Ist.updated_of_root_eq_some hroot (List.ne_nil_of_length_pos hpos)]
    have hspec := hupdate hpos (by rwa [part_self])
    rw [part_self] at hspec
    refine hspec.seq (pointsTo (tree, .root) (.pointer (some a)) +
      pointsTo (tree, .sizeThreshold) (.count ist.sizeThreshold)) (by
        rw [rootedAt]
        ac_rfl) fun res ↦ ?_
    have huse := (@useOptional_gives T s a (tree, .root) _ res
      (height_updated_le (c := c) hA subset_rfl ht (h.inv root hroot) hb)).frame
        (pointsTo (tree, .sizeThreshold) (.count ist.sizeThreshold))
    refine huse.strengthen (Eq.subset ?_)
    ac_rfl
  · rename_i hzero
    rw [Ist.updated_of_effective_eq_nil (List.length_eq_zero_iff.1 (by omega))]
    exact Gives.ret.spec fun m hm ↦ ⟨rfl, rootedAt_subset hroot a hm⟩

/-- **`insert` is the functional insertion**: it leaves the tree and the array of answers. -/
theorem insert_spec : Spec s (treeAt tree ist) (insert A c tree keys) fun result ↦
    answersAt result (ist.updated A.reference c true keys).result +
      treeAt tree (ist.updated A.reference c true keys).tree := by
  have hthreshold := h.sizeThreshold
  rw [insert, isSorted_of_sortedLT hkeys, lift_ok, Prog.pure_bind, assert_of rfl, Prog.pure_bind]
  split
  · rename_i hnil
    rw [List.length_eq_zero_iff.1 hnil, Ist.updated_of_effective_eq_nil rfl]
    exact newAnswers.beside _
  rename_i hlen
  have hne : keys ≠ [] := fun hnil ↦ hlen (by rw [hnil, List.length_nil])
  refine Gives.seq (Gives.readAs (count?_count ist.sizeThreshold)) (slotAt (tree, .root) ist.root)
    (add_comm _ _) ?_
  rw [add_comm]
  refine readSlot (fun hroot ↦ ?_) fun root a hroot ↦ ?_
  · rw [Ist.updated_of_root_eq_none hroot hne, if_pos rfl, hthreshold]
    refine ((buildFromKeys_spec hA ht hkeys hmem).beside _).bind fun q ↦ ?_
    refine storePointer.seq (pointsTo (tree, .sizeThreshold) (.count t)) (by ac_rfl) ?_
    exact (fillAnswers _ _).beside _
  · have hlen' : (ist.membership keys).length = keys.length := by
      rw [Ist.membership, List.length_map]
    refine (contains_rooted hA h hkeys hroot a).bind fun result ↦ ?_
    refine (negate_gives hlen').seq _ rfl ?_
    rw [Ist.map_not_membership]
    refine (selectKeys_gives (by rw [Ist.flags, List.length_map])).seq _ rfl ?_
    rw [Ist.selectKeys_flags, hthreshold]
    refine (updateRoot_gives hA h hkeys ht hmem hroot fun hpos hb ↦
      doInsert_spec hA ht subset_rfl (h.inv root hroot) (hA.height_le subset_rfl (h.inv root hroot))
        hpos le_rfl hb).seq _ (add_comm _ _) ?_
    exact Spec.ret (add_comm _ _).subset

/-- **`remove` is the functional removal**: it leaves the tree and the array of answers. -/
theorem remove_spec : Spec s (treeAt tree ist) (remove A c tree keys) fun result ↦
    answersAt result (ist.updated A.reference c false keys).result +
      treeAt tree (ist.updated A.reference c false keys).tree := by
  have hthreshold := h.sizeThreshold
  rw [remove, isSorted_of_sortedLT hkeys, lift_ok, Prog.pure_bind, assert_of rfl, Prog.pure_bind]
  split
  · rename_i hnil
    rw [List.length_eq_zero_iff.1 hnil, Ist.updated_of_effective_eq_nil rfl]
    exact newAnswers.beside _
  rename_i hlen
  have hne : keys ≠ [] := fun hnil ↦ hlen (by rw [hnil, List.length_nil])
  refine Gives.seq (Gives.readAs (count?_count ist.sizeThreshold)) (slotAt (tree, .root) ist.root)
    (add_comm _ _) ?_
  rw [add_comm]
  refine readSlot (fun hroot ↦ ?_) fun root a hroot ↦ ?_
  · have htree : ({ ist with root := none } : Ist T) = ist := by rw [← hroot]
    rw [Ist.updated_of_root_eq_none hroot hne, if_neg Bool.false_ne_true, htree]
    refine ((fillAnswers _ _).beside _).weaken fun result ↦
      Set.add_subset_add_left (Set.add_subset_add_right fun m hm ↦ ?_)
    rw [hroot]
    exact Set.mem_iUnion.2 ⟨none, by rwa [ownedAt_none, add_zero]⟩
  · have hlen' : (ist.membership keys).length = keys.length := by
      rw [Ist.membership, List.length_map]
    refine (contains_rooted hA h hkeys hroot a).bind fun result ↦ ?_
    refine (selectKeys_gives hlen').seq _ rfl ?_
    rw [Ist.membership_eq_flags, Ist.selectKeys_flags, hthreshold]
    refine (updateRoot_gives hA h hkeys ht hmem hroot fun hpos hb ↦
      doRemove_spec hA ht subset_rfl (h.inv root hroot) (hA.height_le subset_rfl (h.inv root hroot))
        hpos le_rfl hb).seq _ (add_comm _ _) ?_
    exact Spec.ret (add_comm _ _).subset

end Updates

end Mem

end Pbist
