import Pbist.Memory.Ownership
import Pbist.Search.Adequate
import Pbist.Refinement.Flatten
import Pbist.Refinement.Dump

/-!
# Reading a tree in memory

Programs that only read a tree run with the tree as a shared piece, so any number of them may run at
the same time. Where such a program returns a value, it `Simulates` the checked function of the same
name on the tree: what this returns, the program returns as well, and it changes nothing. Flattening
writes to an array besides, whose entries the loops own.

`Simulates.bind`, `Simulates.ite` and `Simulates.tabulate` follow the shape of a checked function,
so a simulation is proved line by line.
-/

namespace Pbist

namespace Mem

open Checked Assertion Sorted Blocks

open scoped Pointwise

variable {T α β : Type} {s : Memory Part (Val T)} {node : Node T} {p : ℕ}

/-- What `c` returns the program returns, without a change to the memory. -/
def Simulates (s : Memory Part (Val T)) (p : Code T α) (c : Checked α) : Prop :=
  ∀ a, c = .ok a → Gives s 0 p a 0

namespace Simulates

variable {x : Code T α} {c : Checked α} {f : α → Code T β} {g : α → Checked β}

theorem of_gives {a : α} (h : Gives s 0 x a 0) : Simulates s x (.ok a) := by
  intro a' ha'
  exact Except.ok.inj ha' ▸ h

theorem pure (a : α) : Simulates s (pure a) (pure a) :=
  of_gives Gives.ret

theorem bind (h : Simulates s x c) (hf : ∀ a, Simulates s (f a) (g a)) :
    Simulates s (x >>= f) (c >>= g) := by
  intro b hb
  obtain ⟨a, ha, hb⟩ := bind_eq_ok.1 hb
  exact (h a ha).andThen (hf a b hb)

theorem lift (c : Checked α) : Simulates s (lift c) c := by
  rintro a rfl
  exact Gives.ret

theorem assert (φ : Prop) [Decidable φ] : Simulates s (assert φ) (require φ) := by
  intro u h
  rw [assert_of (require_eq_ok.1 h)]
  exact Gives.ret

theorem ite {φ : Prop} [Decidable φ] {y : Code T α} {d : Checked α} (h : φ → Simulates s x c)
    (h' : ¬φ → Simulates s y d) :
    Simulates s (if φ then x else y) (if φ then c else d) := by
  split
  · exact h ‹_›
  · exact h' ‹_›

/-- A table of values that are computed in parallel. -/
theorem tabulate {put : α → Val T} {get : Val T → Option α} (hget : ∀ a, get (put a) = some a)
    {n : ℕ} {f : ℕ → Code T α} {g : ℕ → Checked α} (h : ∀ i < n, Simulates s (f i) (g i)) :
    Simulates s (tabulateArray put get n f) (Checked.tabulate n g) := by
  intro l hl
  obtain ⟨hlen, hentry⟩ := of_tabulate_eq_ok hl
  exact tabulateArray_spec hget hlen fun i a ha ↦
    h i (hlen ▸ (List.getElem?_eq_some_iff.1 ha).1) a (hentry i a ha)

end Simulates

/-! ### The header -/

theorem Header.Of.isStructureCorrect_iff {h : Header T} (hof : h.Of node) :
    h.isStructureCorrect ↔ node.isStructureCorrect := by
  simp [Header.isStructureCorrect, Node.isStructureCorrect, Header.shape, hof.keys_eq,
    hof.existSize_eq, hof.childrenSize_eq]

namespace SharedHeader

variable (h : SharedHeader s p node)

include h

/-- The header is read. -/
theorem bind {f : Header T → Code T α} {P : Assertion Part (Val T)}
    {Q : α → Assertion Part (Val T)} (hf : ∀ hd : Header T, hd.Of node → Spec s P (f hd) Q) :
    Spec s P (getHeader p >>= f) Q := by
  obtain ⟨hd, hof, hmem⟩ := h
  exact Gives.andThen (Gives.readShared hmem rfl) (hf hd hof)

/-- A program that reads the header does not do more than a function of the node. -/
theorem simulates {f : Header T → Code T α} {c : Checked α}
    (hf : ∀ hd : Header T, hd.Of node → Simulates s (f hd) c) :
    Simulates s (getHeader p >>= f) c :=
  fun a ha ↦ h.bind fun hd hof ↦ hf hd hof a ha

theorem checkStructure : Simulates s (checkStructure p) (require node.isStructureCorrect) := by
  refine h.simulates fun hd hof u hu ↦ ?_
  rw [assert_of (hof.isStructureCorrect_iff.2 (require_eq_ok.1 hu))]
  exact Gives.ret

theorem isTerminal : Simulates s (isTerminal p) node.isTerminal := by
  refine h.checkStructure.bind fun _ ↦ h.simulates fun hd hof ↦ ?_
  rw [hof.childrenSize_eq]
  exact .pure _

end SharedHeader

namespace Stored

variable (h : Stored s node p)

include h

theorem readFlag (i : ℕ) : Simulates s (Prog.readAs Val.flag? (p, .keysExist i))
    (get node.keysExist i) := by
  intro flag hflag
  exact Gives.readShared (h.flag (getElem?_of_get hflag)) rfl

theorem existCount (i : ℕ) :
    Simulates s (existCount p i) (do pure (← get node.keysExist i).toNat) :=
  (h.readFlag i).bind fun _ ↦ .pure _

/-- One child pointer is followed. -/
theorem simulates_child {f : Option ℕ → Code T α} {g : Option (Node T) → Checked α} (i : ℕ)
    (hnone : Simulates s (f none) (g none))
    (hsome : ∀ child a, Stored s child a → Simulates s (f (some a)) (g (some child))) :
    Simulates s (Prog.readAs Val.pointer? (p, .children i) >>= f) (get node.children i >>= g) := by
  intro b hb
  obtain ⟨slot, hslot, hb⟩ := bind_eq_ok.1 hb
  have hi := getElem?_of_get hslot
  rcases slot with - | child
  · exact Gives.andThen (Gives.readShared (h.child_none hi) rfl) (hnone b hb)
  · obtain ⟨a, ha, hchild⟩ := h.child_some hi
    exact Gives.andThen (Gives.readShared ha rfl) (hsome child a hchild b hb)

/-- `should_rebuild`. -/
theorem shouldRebuild (coefficient n : ℕ) : Gives s 0 (shouldRebuild coefficient p n)
    (node.shouldRebuild coefficient n) 0 := by
  refine Gives.andThen (Gives.readShared h.modifications rfl) (h.header.bind fun hd hof ↦ ?_)
  rw [hof.initialSize_eq]
  exact Gives.ret

/-! ### Sizes -/

/-- `get_sizes`. -/
theorem getSizes : Simulates s (getSizes p) node.getSizes := by
  refine h.header.checkStructure.bind fun _ ↦ h.header.simulates fun hd hof ↦ ?_
  rw [hof.childrenSize_eq, hof.keys_eq]
  refine h.header.isTerminal.bind fun terminal ↦ .ite (fun _ ↦ ?_) fun _ ↦ ?_
  · exact (Simulates.assert _).bind fun _ ↦ .tabulate count?_count fun i _ ↦ h.existCount i
  · refine (Simulates.assert _).bind fun _ ↦ .tabulate count?_count fun i _ ↦ ?_
    refine .ite (fun _ ↦ ?_) fun _ ↦ h.existCount _
    refine h.simulates_child _ (.pure 0) fun child a hchild ↦ .of_gives ?_
    exact Gives.readShared hchild.curSize rfl

/-- `get_border_idx_by_key_idx`. -/
theorem getBorderIdxByKeyIdx (keyIdx : ℕ) :
    Simulates s (getBorderIdxByKeyIdx p keyIdx) (node.getBorderIdxByKeyIdx keyIdx) :=
  h.header.checkStructure.bind fun _ ↦ h.header.isTerminal.bind fun _ ↦
    .ite (fun _ ↦ .pure _) fun _ ↦ .pure _

omit h in
/-- `calc_node_size`. -/
theorem calcNodeSize {fuel : ℕ} : ∀ {node : Node T} {p : ℕ}, Stored s node p →
    Simulates s (calcNodeSize fuel p) (node.calcNodeSize fuel) := by
  induction fuel with
  | zero => exact fun _ _ hcon ↦ nomatch hcon
  | succ fuel ih =>
    intro node p h
    refine h.header.checkStructure.bind fun _ ↦ h.header.simulates fun hd hof ↦ ?_
    rw [hof.childrenSize_eq, hof.keys_eq]
    refine (Simulates.tabulate count?_count fun i _ ↦ h.existCount i).bind fun keysExist ↦ ?_
    refine (Simulates.tabulate count?_count fun i _ ↦
      h.simulates_child _ (.pure 0) fun child a hchild ↦ ih hchild).bind fun sizes ↦ ?_
    intro size hsize
    refine Gives.andThen (Gives.readShared h.curSize rfl) ?_
    exact ((Simulates.assert _).bind fun _ ↦ .pure _) size hsize

end Stored

/-! ### Reading what is owned -/

/-- A program that only reads a node it owns. -/
theorem readNode {x : Code T α} {a : α}
    (h : ∀ s' : Memory Part (Val T), Stored s' node p → Gives s' 0 x a 0) :
    Gives s (nodeAt node p) x a (nodeAt node p) :=
  Gives.readOnly fun r hr ↦ h (s + r) (stored_of_mem hr (Multiset.le_add_left _ _))

/-- A pointer that is owned is followed. -/
theorem readSlot {l : Loc Part} {slot : Option (Node T)} {f : Option ℕ → Code T α}
    {R : Assertion Part (Val T)} {Q : α → Assertion Part (Val T)}
    (hnone : slot = none → Spec s (pointsTo l (.pointer none) + R) (f none) Q)
    (hsome : ∀ node a, slot = some node →
      Spec s (pointsTo l (.pointer (some a)) + nodeAt node a + R) (f (some a)) Q) :
    Spec s (slotAt l slot + R) (Prog.readAs Val.pointer? l >>= f) Q := by
  refine Spec.iUnion_add fun q ↦ ?_
  have hread : Gives s (pointsTo l (.pointer q)) (Prog.readAs Val.pointer? l) q
      (pointsTo l (Val.pointer (T := T) q)) := Gives.readAs rfl
  refine hread.seq _ (add_assoc _ _ _) ?_
  rw [← add_assoc]
  rcases slot with - | node <;> rcases q with - | a
  · rw [ownedAt_none, add_zero]
    exact hnone rfl
  · rw [ownedAt_none_some, Set.add_empty, Set.empty_add]
    exact Set.empty_subset _
  · rw [ownedAt_some_none, Set.add_empty, Set.empty_add]
    exact Set.empty_subset _
  · exact hsome node a rfl

/-- The node at `p` reads its own header. -/
theorem readHeader {f : Header T → Code T α} {R : Assertion Part (Val T)}
    {Q : α → Assertion Part (Val T)}
    (hf : ∀ hd : Header T, hd.Of node →
      Spec s (pointsTo (p, .header) (.header hd) + R) (f hd) Q) :
    Spec s (headerAt p node + R) (getHeader p >>= f) Q := by
  refine Spec.iUnion_add fun ⟨hd, hof⟩ ↦ ?_
  have hread : Gives s (pointsTo (p, .header) (.header hd)) (getHeader p) hd
      (pointsTo (p, .header) (.header hd)) := Gives.readAs rfl
  exact hread.seq R rfl (hf hd hof)

end Mem

end Pbist
