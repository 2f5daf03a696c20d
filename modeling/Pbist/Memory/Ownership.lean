import Pbist.Memory.Arrays
import Pbist.Functional.Build

/-!
# Trees in memory

`nodeAt node p` are the pieces of memory that consist of the subtree `node` with its root at address
`p`, and of nothing else. The index of a node is not that of the functional tree: which doubles
computed it does not matter, as long as its entries are indices of the keys.

A program that only reads a tree gets it as a shared piece. `Stored s node p` says what such a
program relies on: where the cells are and what they contain.

`stored_of_mem` connects the two: what is owned may be read, so a program that only reads a tree can
be given a piece of one that is owned elsewhere. `nodeAt_eq` unfolds the pieces of a node into its
counters, its flags, its child pointers with what is behind them, and its header.
-/

namespace Pbist

namespace Mem

open Assertion

open scoped Pointwise

variable {T : Type} {s : Memory Part (Val T)} {node : Node T} {p : ℕ}

/-- A header of this node. -/
structure Header.Of (h : Header T) (node : Node T) : Prop where
  keys_eq : h.keys = node.keys
  existSize_eq : h.existSize = node.keysExist.length
  childrenSize_eq : h.childrenSize = node.children.length
  initialSize_eq : h.initialSize = node.initialSize
  id_entries : h.id = [] ∨ h.id.length = node.keys.length ∧ ∀ j ∈ h.id, j < node.keys.length

/-! ### Owning a tree -/

/-- The header cell of the node at `p`. -/
def headerAt (p : ℕ) (node : Node T) : Assertion Part (Val T) :=
  ⋃ h : {h : Header T // h.Of node}, pointsTo (p, .header) (.header h.1)

/-- The counters of the node at `p`. -/
def countersAt (p : ℕ) (node : Node T) : Assertion Part (Val T) :=
  pointsTo (p, .curSize) (.count node.curSize) +
    pointsTo (p, .modificationsCount) (.count node.modificationsCount)

/-- Flag `i` of the node at `p`. -/
def flagAt (p : ℕ) (flags : List Bool) (i : ℕ) : Assertion Part (Val T) :=
  pointsTo (p, .keysExist i) (.flag (flags[i]?.getD false))

/-- The flags of the node at `p`. -/
def flagsAt (p : ℕ) (flags : List Bool) : Assertion Part (Val T) :=
  ∑ i ∈ Finset.range flags.length, flagAt p flags i

/-- What is behind a pointer, when `below` is what is behind it if it is not null. -/
def behind : Option (ℕ → Assertion Part (Val T)) → Option ℕ → Assertion Part (Val T)
  | none, none => 0
  | some below, some a => below a
  | _, _ => ∅

/-- A pointer at `l`, with what is behind it. -/
def pointerAt (l : Loc Part) (below : Option (ℕ → Assertion Part (Val T))) :
    Assertion Part (Val T) :=
  ⋃ q : Option ℕ, pointsTo l (.pointer q) + behind below q

/-- The child pointers of the node at `p`, with what is behind them. -/
def pointersAt (p : ℕ) (below : List (Option (ℕ → Assertion Part (Val T)))) :
    Assertion Part (Val T) :=
  ∑ i ∈ Finset.range below.length, pointerAt (p, .children i) (below[i]?.getD none)

/-- A subtree with its root at an address. -/
def nodeAt : Node T → ℕ → Assertion Part (Val T) :=
  Node.foldTree fun node below p ↦
    countersAt p node + (flagsAt p node.keysExist + pointersAt p below) + headerAt p node

/-- A subtree behind a pointer. -/
def ownedAt (slot : Option (Node T)) (q : Option ℕ) : Assertion Part (Val T) :=
  behind (slot.map nodeAt) q

/-- A pointer at `l` to a subtree. -/
def slotAt (l : Loc Part) (slot : Option (Node T)) : Assertion Part (Val T) :=
  ⋃ q : Option ℕ, pointsTo l (.pointer q) + ownedAt slot q

/-- The children of the node at `p`. -/
def slotsAt (p : ℕ) (children : List (Option (Node T))) : Assertion Part (Val T) :=
  ∑ i ∈ Finset.range children.length, slotAt (p, .children i) (children[i]?.getD none)

theorem nodeAt_eq (node : Node T) (p : ℕ) : nodeAt node p =
    countersAt p node + (flagsAt p node.keysExist + slotsAt p node.children) + headerAt p node := by
  have hslots : pointersAt p (node.children.map (Option.map nodeAt)) = slotsAt p node.children := by
    rw [pointersAt, slotsAt, List.length_map]
    refine Finset.sum_congr rfl fun i hi ↦ ?_
    rw [List.getElem?_map, List.getElem?_eq_getElem (Finset.mem_range.1 hi)]
    rfl
  rw [nodeAt, Node.foldTree_eq, ← hslots]
  rfl

@[simp] theorem ownedAt_none : ownedAt (T := T) none none = 0 :=
  rfl

@[simp] theorem ownedAt_some (node : Node T) (p : ℕ) :
    ownedAt (some node) (some p) = nodeAt node p :=
  rfl

@[simp] theorem ownedAt_none_some (p : ℕ) : ownedAt (T := T) none (some p) = ∅ :=
  rfl

@[simp] theorem ownedAt_some_none (node : Node T) : ownedAt (some node) none = ∅ :=
  rfl

/-! ### Reading a tree -/

/-- The header of the node at `p` may be read. -/
def SharedHeader (s : Memory Part (Val T)) (p : ℕ) (node : Node T) : Prop :=
  ∃ h : Header T, h.Of node ∧ ((p, Part.header), Val.header h) ∈ s

/-- The subtree `node`, with its root at an address, may be read. -/
inductive Stored (s : Memory Part (Val T)) : Node T → ℕ → Prop
  | intro {node : Node T} {p : ℕ} (addr : ℕ → ℕ) (header : SharedHeader s p node)
      (curSize : ((p, Part.curSize), Val.count node.curSize) ∈ s)
      (modifications : ((p, Part.modificationsCount), Val.count node.modificationsCount) ∈ s)
      (flags : ∀ i < node.keysExist.length,
        ((p, Part.keysExist i), Val.flag (node.keysExist[i]?.getD false)) ∈ s)
      (children : ∀ (i : ℕ) (slot : Option (Node T)), node.children[i]? = some slot →
        ((p, Part.children i), Val.pointer (slot.map fun _ ↦ addr i)) ∈ s)
      (below : ∀ (i : ℕ) (child : Node T), node.children[i]? = some (some child) →
        Stored s child (addr i)) : Stored s node p

namespace Stored

theorem header (h : Stored s node p) : SharedHeader s p node := by
  cases h with
  | intro addr header => exact header

theorem curSize (h : Stored s node p) : ((p, Part.curSize), Val.count node.curSize) ∈ s := by
  cases h with
  | intro addr header curSize => exact curSize

theorem modifications (h : Stored s node p) :
    ((p, Part.modificationsCount), Val.count node.modificationsCount) ∈ s := by
  cases h with
  | intro addr header curSize modifications => exact modifications

theorem flag (h : Stored s node p) {i : ℕ} {flag : Bool} (hi : node.keysExist[i]? = some flag) :
    ((p, Part.keysExist i), Val.flag flag) ∈ s := by
  cases h with
  | intro addr header curSize modifications flags =>
    have hmem := flags i (List.getElem?_eq_some_iff.1 hi).1
    rwa [hi] at hmem

theorem child_none (h : Stored s node p) {i : ℕ} (hi : node.children[i]? = some none) :
    ((p, Part.children i), Val.pointer none) ∈ s := by
  cases h with
  | intro addr header curSize modifications flags children => exact children i none hi

theorem child_some (h : Stored s node p) {i : ℕ} {child : Node T}
    (hi : node.children[i]? = some (some child)) :
    ∃ a, ((p, Part.children i), Val.pointer (some a)) ∈ s ∧ Stored s child a := by
  cases h with
  | intro addr header curSize modifications flags children below =>
    exact ⟨addr i, children i _ hi, below i child hi⟩

end Stored

theorem sharedHeader_of_mem {m : Memory Part (Val T)} (h : m ∈ headerAt p node) (hs : m ≤ s) :
    SharedHeader s p node := by
  obtain ⟨⟨h', hof⟩, hm⟩ := Set.mem_iUnion.1 h
  rw [mem_pointsTo.1 hm] at hs
  exact ⟨h', hof, Multiset.singleton_le.1 hs⟩

/-- A pointer that is owned has an address, with the subtree at it. -/
theorem exists_addr_of_mem_slotAt {l : Loc Part} {slot : Option (Node T)} {m : Memory Part (Val T)}
    (hm : m ∈ slotAt l slot) (hs : m ≤ s) :
    ∃ a, (l, Val.pointer (slot.map fun _ ↦ a)) ∈ s ∧
      ∀ child, slot = some child → ∃ m' ∈ nodeAt child a, m' ≤ s := by
  obtain ⟨q, x, hx, y, hy, rfl⟩ := Set.mem_iUnion.1 hm
  have hpointer := mem_of_mem_pointsTo hx ((Multiset.le_add_right x y).trans hs)
  rcases slot with - | child <;> rcases q with - | a
  · exact ⟨0, hpointer, fun _ h ↦ nomatch h⟩
  · exact absurd hy (Set.notMem_empty _)
  · exact absurd hy (Set.notMem_empty _)
  · refine ⟨a, hpointer, fun child' h ↦ ?_⟩
    obtain rfl := Option.some.inj h
    exact ⟨y, hy, (Multiset.le_add_left y x).trans hs⟩

/-- **What is owned may be read.** -/
theorem stored_of_mem : ∀ {node : Node T} {p : ℕ} {m : Memory Part (Val T)},
    m ∈ nodeAt node p → m ≤ s → Stored s node p := by
  intro node
  induction node using Node.induction with
  | step node ih =>
    intro p m hm hs
    rw [nodeAt_eq] at hm
    obtain ⟨_, ⟨m₁, ⟨c, hc, d, hd, rfl⟩, _, ⟨m₂, hflags, m₃, hslots, rfl⟩, rfl⟩, m₄, hheader,
      rfl⟩ := hm
    have hle₃ : m₃ ≤ s := le_trans (by
      refine Multiset.le_iff_exists_add.2 ⟨c + d + m₂ + m₄, ?_⟩
      ac_rfl) hs
    -- the address of every child that is not null
    have hchild : ∀ i, ∃ a, ∀ slot, node.children[i]? = some slot →
        ((p, Part.children i), Val.pointer (slot.map fun _ ↦ a)) ∈ s ∧
          ∀ child, slot = some child → Stored s child a := by
      intro i
      rcases hi : node.children[i]? with - | slot
      · exact ⟨0, fun _ h ↦ nomatch h⟩
      obtain ⟨r, hr, hrle⟩ := exists_le_of_mem_sum hslots
        (Finset.mem_range.2 (List.getElem?_eq_some_iff.1 hi).1)
      rw [hi, Option.getD_some] at hr
      obtain ⟨a, hpointer, hbelow⟩ := exists_addr_of_mem_slotAt hr (hrle.trans hle₃)
      refine ⟨a, fun slot' h ↦ ?_⟩
      obtain rfl := Option.some.inj h
      refine ⟨hpointer, fun child hslot ↦ ?_⟩
      obtain ⟨m', hm', hle'⟩ := hbelow child hslot
      exact ih child (List.mem_of_getElem? (hslot ▸ hi)) hm' hle'
    choose addr haddr using hchild
    refine .intro addr (sharedHeader_of_mem hheader ?_) (mem_of_mem_pointsTo hc ?_)
      (mem_of_mem_pointsTo hd ?_) (fun i hi ↦ ?_) (fun i slot hi ↦ (haddr i slot hi).1)
      fun i child hi ↦ (haddr i _ hi).2 child rfl
    · exact (Multiset.le_add_left m₄ _).trans hs
    · refine le_trans (Multiset.le_iff_exists_add.2 ⟨d + (m₂ + m₃) + m₄, ?_⟩) hs
      ac_rfl
    · refine le_trans (Multiset.le_iff_exists_add.2 ⟨c + (m₂ + m₃) + m₄, ?_⟩) hs
      ac_rfl
    · obtain ⟨r, hr, hrle⟩ := exists_le_of_mem_sum hflags (Finset.mem_range.2 hi)
      refine mem_of_mem_pointsTo hr (hrle.trans (le_trans (Multiset.le_iff_exists_add.2
        ⟨c + d + m₃ + m₄, ?_⟩) hs))
      ac_rfl

end Mem

end Pbist
