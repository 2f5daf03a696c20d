import Pbist.Functional.Tree
import Pbist.Refinement.Dump
import Pbist.Refinement.Update

/-!
# The tree and its runs

On a tree that represents a set, every operation of `ist_internal` returns without a fault, and
does what the functional operation does, whatever the order of its loops. So a run on valid
operations is the functional run (`run_eq`), and ends in a tree that represents the stored set.

## The main results, and what each rests on

* `Ist.contains_eq`, `Ist.insert_eq` and `Ist.remove_eq` rest on the results about `do_contains`,
  `do_insert` and `do_remove`, and on the batch that is passed on being one that these admit
  (`Ist.admissible_effective`).
* `Node.Inv.doContains_eq_containsLoop` compares two functions of the code directly, the batch
  lookup and the loop of the single-key lookup, slot by slot.
* `run_eq` is the induction over a run (`Machine.Refines.runFrom_eq`), for every arithmetic that is
  exact on the keys. It is what all results about runs are derived from.
-/

namespace Pbist

open Checked

variable {T : Type} [LinearOrder T] {A : Arith T} {c t : ℕ} {exist : Bool} {I W : Set T}
  {tree : Ist T} {keys : List T} {S : Finset T}

namespace Ist

/-! ### Lookups -/

/-- **The single-key `contains`** finds out whether the key is stored, and visits no more nodes than
the tree is high. -/
theorem containsLoop_eq (hA : A.ExactOn W) (key : T) : ∀ {fuel : ℕ} {I : Set T}
    {slot : Option (Node T)}, I ⊆ W → SlotInv t I slot → slotHeight slot ≤ fuel →
      ∃ visited ≤ slotHeight slot,
        containsLoop A key fuel slot = .ok (decide (key ∈ slotLive slot), visited) := by
  intro fuel
  induction fuel with
  | zero =>
    intro I slot _ _ hfuel
    rcases slot with - | node
    · exact ⟨0, le_rfl, rfl⟩
    · rw [slotHeight_some, Node.height_eq] at hfuel
      omega
  | succ fuel ih =>
    intro I slot hI h hfuel
    rcases slot with - | node
    · exact ⟨0, le_rfl, rfl⟩
    have hinv : node.Inv t I := h node rfl
    have hlocal := hinv.here
    have hheight := node.height_eq
    rw [slotHeight_some] at hfuel ⊢
    rw [containsLoop, require_of hlocal.exist_length.symm, ok_bind, slotLive_some]
    rcases hinv.doSearch_cases hA hI key with
      ⟨i, hk, he, hsearch, -, hval, hflag⟩ | ⟨hsearch, hkeys⟩
    · refine ⟨1, by omega, ?_⟩
      rw [hsearch, ok_bind]
      simp only [if_true]
      rw [get_of_lt hk, ok_bind, hval, require_of rfl, ok_bind, get_of_lt he, ok_bind, hflag,
        pure_eq_ok]
    · -- the key can only be stored below the child that the search names
      have hlive := Node.Inv.mem_live_of_notMem hinv hkeys
      rw [hsearch, ok_bind]
      simp only [Bool.false_eq_true, if_false, hlocal.isTerminal_eq, ok_bind, decide_eq_true_eq]
      split
      · rename_i hterm
        refine ⟨1, by omega, ?_⟩
        rw [List.length_eq_zero_iff.1 hterm] at hlive
        rw [require_of hterm, ok_bind, pure_eq_ok, decide_eq_false (by simp [hlive])]
      · rename_i hterm
        have hinner := hlocal.children_length.resolve_left hterm
        have hlt : Sorted.rank node.keys key < node.children.length := by
          have := Sorted.rank_le_length node.keys key
          omega
        have hslot := List.getElem?_eq_getElem hlt
        have hchildHeight := Node.slotHeight_lt (List.getElem_mem hlt)
        obtain ⟨visited, hvisited, hloop⟩ := ih (fun x hx ↦ hI hx.1) (hinv.slot hslot) (by omega)
        refine ⟨visited + 1, by omega, ?_⟩
        have hmem : key ∈ slotLive node.children[Sorted.rank node.keys key] ↔ key ∈ node.live := by
          rw [hlive, hslot]
          simp
        rw [require_of (by omega), ok_bind, require_of ⟨Nat.zero_le _, hlt⟩, ok_bind, get_of_lt hlt,
          ok_bind, hloop, ok_bind, pure_eq_ok, decide_eq_decide.2 hmem]

/-- **Batch lookup equals single-key lookup, slot by slot.** On a well-formed node, `do_contains`
writes each slot of its range exactly once, with the answer that the loop of the single-key
`contains` finds from this node, and no other slot. -/
theorem doContains_eq_containsLoop (ov : Overflow) {lo hi : ℤ} (hwidth : hi - lo ≤ 2 ^ 31 - 1)
    {node : Node I32} (h : node.Inv t (window lo hi)) {fuel : ℕ} (hfuel : node.height ≤ fuel)
    {arr : List I32} (harr : arr.SortedLT) {left right : ℕ} (hlt : left < right)
    (hright : right ≤ arr.length) {result : Buffer Bool} (hresult : arr.length = result.length)
    (σ : Schedule) :
    ∃ result', node.doContains (int32 ov) fuel σ arr left right result = .ok result' ∧
      Buffer.WrittenOnce (fun i answer ↦ ∃ key visited, arr[i]? = some key ∧
          containsLoop (int32 ov) key fuel (some node) = .ok (answer, visited))
        left right result result' := by
  have hA := int32_exactOn ov hwidth
  have hpart : (part arr left right).SortedLT :=
    (harr.pairwise.sublist (part_sublist arr left right)).sortedLT
  refine ⟨_, h.doContains_answerAt hA subset_rfl hfuel σ hlt hright hresult hpart,
    Buffer.writtenOnce_writeOn fun i _ hi ↦ ?_⟩
  have hkey : arr[i]? = some arr[i] := List.getElem?_eq_getElem (by omega)
  obtain ⟨visited, -, hloop⟩ :=
    containsLoop_eq hA arr[i] subset_rfl (slotEverywhere_some.2 h)
      (show slotHeight (some node) ≤ fuel from hfuel)
  refine ⟨arr[i], visited, hkey, ?_⟩
  rw [hloop, Node.answerAt, hkey]
  rfl

/-- Looking up 3, 4 and 5 in the sample node, of which 3 is a tombstone. -/
theorem doContains_eq_containsLoop_sample :
    ∃ result', sampleNode.doContains (int32 .wrapping) sampleNode.height .reversed
      [.small 3, .small 4, .small 5] 0 3 (Buffer.raw 3) = .ok result' ∧ result'.length = 3 := by
  obtain ⟨result', hrun, hwritten⟩ := doContains_eq_containsLoop .wrapping (by decide)
    inv_sampleNode le_rfl (show [I32.small 3, .small 4, .small 5].SortedLT by decide)
    (show 0 < 3 by decide) le_rfl (Buffer.length_raw 3).symm .reversed
  exact ⟨result', hrun, hwritten.length_eq⟩

namespace Represents

variable (hA : A.ExactOn W) (h : tree.Represents t W S)

include hA h

theorem containsKey_eq (key : T) :
    tree.containsKey A key = .ok (decide (key ∈ slotLive tree.root)) := by
  obtain ⟨visited, -, hloop⟩ := containsLoop_eq hA key subset_rfl h.inv le_rfl
  rw [containsKey, hloop, ok_bind, pure_eq_ok]

/-- **The batch `contains`** returns the membership of every key. -/
theorem contains_eq (hkeys : keys.SortedLT) (σ : Schedule) :
    tree.contains A σ keys = .ok (tree.membership keys) := by
  rw [contains, isSorted_of_sortedLT hkeys, ok_bind, require_of rfl, ok_bind]
  split
  · rename_i hnil
    rw [List.length_eq_zero_iff.1 hnil]
    rfl
  rename_i hne
  rcases hroot : tree.root with - | root
  · refine congrArg Except.ok ?_
    rw [membership, hroot]
    simp
  have hinv : root.Inv t W := h.inv root hroot
  dsimp only
  rw [hinv.doContains_answerAt hA subset_rfl le_rfl σ (by omega) le_rfl
    (Buffer.length_raw _).symm (by rwa [part_self]), ok_bind,
    Buffer.freeze_writeOn_raw fun i hi ↦ Finset.mem_Ico.2 ⟨Nat.zero_le _, hi⟩]
  refine congrArg Except.ok (List.ext_getElem? fun i ↦ ?_)
  rw [membership, hroot, slotLive_some, List.getElem?_map, List.getElem?_map]
  rcases Nat.lt_or_ge i keys.length with hi | hi
  · rw [List.getElem?_range hi, Option.map_some, Node.answerAt, List.getElem?_eq_getElem hi,
      Option.map_some, Option.getD_some]
  · rw [List.getElem?_eq_none (by simpa using hi), List.getElem?_eq_none hi]
    rfl

end Represents

/-! ### Updates -/

omit [LinearOrder T] in
/-- `filteri` over a batch keeps the keys whose flag is true. -/
theorem selectKeys_map (f : T → Bool) : selectKeys keys (keys.map f) = keys.filter f := by
  induction keys with
  | nil => rfl
  | cons k keys ih =>
    rw [selectKeys] at ih ⊢
    cases hk : f k <;> simp [hk, ih]

/-- The keys that are passed on are those that make a difference. -/
theorem selectKeys_flags : selectKeys keys (tree.flags exist keys) = tree.effective exist keys :=
  selectKeys_map _

/-- An insertion negates the flags of `contains`. -/
theorem map_not_membership : (tree.membership keys).map (!·) = tree.flags true keys := by
  rw [membership, List.map_map, flags]
  exact List.map_congr_left fun k _ ↦ by simp

/-- A removal uses the flags of `contains` as they are. -/
theorem membership_eq_flags : tree.membership keys = tree.flags false keys :=
  List.map_congr_left fun k _ ↦ by simp

/-- The loop of `insert` that negates the flags. -/
theorem negate_eq {σ : Schedule} {flags : List Bool} :
    parallelFor σ 0 flags.length (fun idx flags ↦ do put flags idx !(← get flags idx)) flags =
      .ok (flags.map (!·)) := by
  have hloop := @parallelFor_eq _ σ 0 flags.length
    (fun idx flags ↦ do put flags idx !(← get flags idx))
    (fun D ↦ updateOn (fun _ flag ↦ !flag) D flags) fun D i _ _ hi hnot ↦ by
      have hget : flags[i]? = some flags[i] := List.getElem?_eq_getElem hi
      rw [get_of_getElem? ((getElem?_updateOn_of_notMem hnot).trans hget), ok_bind,
        put_of_lt (by rwa [length_updateOn]), set_updateOn hget rfl]
  rw [updateOn_empty] at hloop
  rw [hloop]
  refine congrArg Except.ok (List.ext_getElem? fun i ↦ ?_)
  rw [getElem?_updateOn, List.getElem?_map]
  rcases Nat.lt_or_ge i flags.length with hi | hi
  · simp [hi]
  · rw [List.getElem?_eq_none hi]
    rfl

namespace Represents

variable (hA : A.ExactOn W) (ht : 1 ≤ t) (h : tree.Represents t W S) (hkeys : keys.SortedLT)
  (hmem : ∀ x ∈ keys, x ∈ W)

include hA ht h hkeys hmem

omit hkeys hmem in
/-- The call of `do_insert` or `do_remove` on the root. -/
theorem doUpdate_root_eq {root : Node T} (hroot : tree.root = some root) (hkeys : keys.SortedLT)
    (hmem : ∀ x ∈ keys, x ∈ W) (hpos : 0 < (tree.effective exist keys).length) (σ : Schedule) :
    root.doUpdate A exist c root.height σ (tree.effective exist keys) tree.sizeThreshold 0
      (tree.effective exist keys).length =
        .ok (Pbist.updated A c tree.sizeThreshold exist root (tree.effective exist keys)) := by
  have hb : Admissible exist W (slotLive tree.root) (tree.effective exist keys) :=
    Ist.admissible_effective hkeys hmem
  rw [hroot, slotLive_some] at hb
  rw [h.sizeThreshold]
  have hupdate := @Node.Inv.doUpdate_eq T _ A c t exist W W root (tree.effective exist keys) 0 _ hA
    ht subset_rfl (h.inv root hroot) _ le_rfl hpos le_rfl (by rwa [part_self]) σ
  rwa [part_self] at hupdate

/-- **`insert` is the functional insertion.** -/
theorem insert_eq (σ : Schedule) :
    tree.insert A c σ keys = .ok (tree.updated A c true keys) := by
  have hthreshold := h.sizeThreshold
  rw [insert, isSorted_of_sortedLT hkeys, ok_bind, require_of rfl, ok_bind]
  split
  · rename_i hnil
    rw [List.length_eq_zero_iff.1 hnil, updated_of_effective_eq_nil rfl]
    rfl
  rename_i hlen
  have hne : keys ≠ [] := fun hnil ↦ hlen (by rw [hnil, List.length_nil])
  rcases hroot : tree.root with - | root
  · rw [updated_of_root_eq_none hroot hne, hthreshold]
    dsimp only
    rw [buildFromKeys_eq hA.toExact hkeys ht, ok_bind]
    rfl
  dsimp only
  rw [h.contains_eq hA hkeys, ok_bind, require_of (by rw [membership, List.length_map]), ok_bind,
    negate_eq, ok_bind, map_not_membership, selectKeys_flags]
  split
  · rename_i hpos
    have hupdate : root.doInsert A c root.height (σ.sub 2) _ _ 0 _ = _ :=
      h.doUpdate_root_eq hA ht hroot hkeys hmem hpos (σ.sub 2)
    rw [updated_of_root_eq_some hroot (List.ne_nil_of_length_pos hpos), hupdate, ok_bind,
      pure_eq_ok]
  · rename_i hzero
    rw [updated_of_effective_eq_nil (List.length_eq_zero_iff.1 (by omega)), pure_eq_ok]

/-- **`remove` is the functional removal.** -/
theorem remove_eq (σ : Schedule) :
    tree.remove A c σ keys = .ok (tree.updated A c false keys) := by
  have hthreshold := h.sizeThreshold
  rw [remove, isSorted_of_sortedLT hkeys, ok_bind, require_of rfl, ok_bind]
  split
  · rename_i hnil
    rw [List.length_eq_zero_iff.1 hnil, updated_of_effective_eq_nil rfl]
    rfl
  rename_i hlen
  have hne : keys ≠ [] := fun hnil ↦ hlen (by rw [hnil, List.length_nil])
  rcases hroot : tree.root with - | root
  · have htree : ({ tree with root := none } : Ist T) = tree := by rw [← hroot]
    rw [updated_of_root_eq_none hroot hne, if_neg Bool.false_ne_true, htree]
    rfl
  dsimp only
  rw [h.contains_eq hA hkeys, ok_bind, require_of (by rw [membership, List.length_map]), ok_bind,
    membership_eq_flags, selectKeys_flags]
  split
  · rename_i hpos
    have hupdate : root.doRemove A c root.height (σ.sub 1) _ _ 0 _ = _ :=
      h.doUpdate_root_eq hA ht hroot hkeys hmem hpos (σ.sub 1)
    rw [updated_of_root_eq_some hroot (List.ne_nil_of_length_pos hpos), hupdate, ok_bind,
      pure_eq_ok]
  · rename_i hzero
    rw [updated_of_effective_eq_nil (List.length_eq_zero_iff.1 (by omega)), pure_eq_ok]

end Represents

/-! ### Reading a tree -/

namespace Represents

variable (h : tree.Represents t W S)

include h

theorem calcTreeSize_eq : tree.calcTreeSize = .ok (slotSize tree.root) := by
  rw [calcTreeSize]
  rcases hroot : tree.root with - | root
  · rfl
  · exact Node.Inv.calcNodeSize_eq (h.inv root hroot) le_rfl

/-- The sequential dump is the stored set in order. -/
theorem dumpKeys_eq : tree.dumpKeys = .ok S.sort := by
  rw [← h.live_eq, dumpKeys]
  rcases hroot : tree.root with - | root
  · rfl
  · exact Node.Inv.dumpKeysSeq_eq (h.inv root hroot) le_rfl

/-- The parallel flattening is the stored set in order. -/
theorem getKeys_eq (σ : Schedule) : tree.getKeys σ = .ok S.sort := by
  rw [← h.live_eq, getKeys]
  rcases hroot : tree.root with - | root
  · rfl
  · exact Node.Inv.getKeys_eq (h.inv root hroot) le_rfl σ

end Represents

end Ist

/-! ### Runs -/

/-- **One operation of a run is the functional operation.** -/
theorem runOp_eq (hA : A.ExactOn W) (ht : 1 ≤ t) {s : RunState T}
    (h : s.tree.Represents t W S) (σ : Schedule) {op : Op T} (hop : op.Valid W) :
    runOp A c σ s op = .ok (s.next A c op) := by
  cases op with
  | insert keys =>
    have hsorted : keys.SortedLT := hop.sorted
    rw [runOp, h.insert_eq hA ht hsorted hop.mem, ok_bind, pure_eq_ok, RunState.next]
  | remove keys =>
    have hsorted : keys.SortedLT := hop.sorted
    rw [runOp, h.remove_eq hA ht hsorted hop.mem, ok_bind, pure_eq_ok, RunState.next]
  | contains keys =>
    have hsorted : keys.SortedLT := hop.sorted
    rw [runOp, h.contains_eq hA hsorted, ok_bind, pure_eq_ok, RunState.next]
  | containsKey key => rw [runOp, h.containsKey_eq hA, ok_bind, pure_eq_ok, RunState.next]
  | calcTreeSize => rw [runOp, h.calcTreeSize_eq, ok_bind, pure_eq_ok, RunState.next]

/-- A step of the tree refines a step of the abstract set. -/
theorem refines_setState (hA : A.ExactOn W) (ht : 1 ≤ t) (σ : Schedule) :
    Machine.Refines (fun n s op ↦ runOp A c (σ.sub n) s op) (RunState.next A c) SetState.next
      (Op.Valid W) fun s x ↦ s.tree.Represents t W x.stored ∧ s.replies = x.replies where
  step_eq h hop := runOp_eq hA ht h.1 _ hop
  related h hop := Ist.Represents.next hA.toExact ht h hop

/-- The state that a run ends in. -/
def finalState (A : Arith T) (c t : ℕ) (keys : List T) (ops : List (Op T)) : RunState T :=
  ops.foldl (RunState.next A c) (.start A t keys)

/-- **A run on valid operations has no fault, and refines the abstract run.** -/
theorem run_eq (hA : A.ExactOn W) (ht : 1 ≤ t) (hkeys : keys.SortedLT) (hmem : ∀ x ∈ keys, x ∈ W)
    {ops : List (Op T)} (hops : ∀ op ∈ ops, op.Valid W) (σ : Schedule) :
    run A c t σ keys ops = .ok (finalState A c t keys ops) ∧
      (finalState A c t keys ops).tree.Represents t W (setRun keys ops).stored ∧
      (finalState A c t keys ops).replies = (setRun keys ops).replies := by
  rw [run, Ist.new, buildFromKeys_eq hA.toExact hkeys ht, ok_bind, pure_eq_ok, ok_bind]
  exact (refines_setState hA ht (σ.sub 1)).runFrom_eq ⟨.start hA.toExact ht hkeys hmem, rfl⟩ hops

end Pbist
