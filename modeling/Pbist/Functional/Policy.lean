import Pbist.Functional.Update
import Mathlib.Data.Nat.Log

/-!
# The rebuild policy

With the coefficient 4 of the code, a node is rebuilt as soon as more than a quarter of its initial
size was inserted or removed through it. `Node.Policy` collects what that guarantees for a node:
its size stays near the initial size, it has few tombstones below it, and its children stay near the
square root of its initial size, which makes the tree shallow (`height_le_log`).

## The main results

* `Node.Inv.slotDrift_updated` is what one update with the coefficient 4 preserves. The policy of a
  node says how far its size may have drifted from the initial size; an update moves it by the
  number of its keys, which is what the modification counter adds, and a rebuild starts again from
  zero.
* `height_le_log` and `height_le_log_curSize` are the bounds on the height, by the initial size of a
  node and by the number of its stored keys.
-/

namespace Pbist

open Sorted

variable {T : Type}

/-- `initial_size` behind a pointer, 0 for a null pointer. -/
def slotInitial (slot : Option (Node T)) : ℕ :=
  (slot.map Node.initialSize).getD 0

@[simp] theorem slotInitial_none : slotInitial (none : Option (Node T)) = 0 := rfl
@[simp] theorem slotInitial_some (node : Node T) : slotInitial (some node) = node.initialSize := rfl

/-- The number of tombstones behind a pointer. -/
def slotTombstones (slot : Option (Node T)) : ℕ :=
  slotSum (fun node ↦ node.keysExist.count false) slot

/-- What the rebuild policy guarantees for a node. -/
structure Node.Policy (node : Node T) : Prop where
  initialSize_pos : 1 ≤ node.initialSize
  modifications : 4 * node.modificationsCount ≤ node.initialSize
  grown : node.curSize ≤ node.initialSize + node.modificationsCount
  shrunk : node.initialSize ≤ node.curSize + node.modificationsCount
  tombstones : node.tombstones ≤ node.modificationsCount
  children : ∀ child, some child ∈ node.children →
    child.initialSize ≤ Nat.sqrt node.initialSize + node.modificationsCount ∧
      child.curSize ≤ Nat.sqrt node.initialSize + node.modificationsCount

/-! ### Built trees -/

section Build

variable {A : Arith T} {t : ℕ}

theorem slotInitial_buildTree (keys : List T) :
    slotInitial (buildTree A t keys) = keys.length := by
  rcases h : buildTree A t keys with - | node
  · rw [buildTree_eq_none_iff.1 h, slotInitial_none, List.length_nil]
  · exact (buildTree_counters h).1

/-- What is zero at fresh nodes sums up to zero in a built tree. -/
theorem slotSum_buildTree {f : Node T → ℕ}
    (hf : ∀ keys children n, f (freshNode A keys children n) = 0) (keys : List T) :
    slotSum f (buildTree A t keys) = 0 := by
  induction keys using build_induction t with
  | nil => rw [buildTree_nil, slotSum_none]
  | terminal keys hne hsmall =>
    rw [buildTree_terminal hne hsmall, slotSum_some, Node.sumTree_eq, hf]
    rfl
  | inner keys hbig ih =>
    rw [buildTree_inner hbig, slotSum_some, Node.sumTree_eq, hf, freshNode, List.map_map,
      show slotSum f ∘ (fun i ↦ buildTree A t (cell (Nat.sqrt keys.length) i keys)) = fun _ ↦ 0 from
        funext ih]
    simp

theorem slotTombstones_buildTree (keys : List T) : slotTombstones (buildTree A t keys) = 0 :=
  slotSum_buildTree (fun keys _ _ ↦ by simp [freshNode, List.count_replicate]) keys

/-- The children of a fresh node are built from its cells. -/
theorem buildTree_child {keys : List T} {node child : Node T}
    (h : buildTree A t keys = some node) (hchild : some child ∈ node.children) :
    ∃ i, buildTree A t (cell (Nat.sqrt keys.length) i keys) = some child := by
  rcases eq_or_ne keys [] with rfl | hne
  · rw [buildTree_nil] at h
    exact absurd h (by simp)
  by_cases hsmall : keys.length ≤ t ∨ keys.length ≤ 1
  · rw [buildTree_terminal hne hsmall] at h
    rw [← Option.some.inj h] at hchild
    simp [freshNode] at hchild
  · rw [buildTree_inner hsmall] at h
    rw [← Option.some.inj h] at hchild
    obtain ⟨i, -, hi⟩ := List.mem_map.1 hchild
    exact ⟨i, hi⟩

/-- The rebuild policy holds for a fresh node. -/
theorem policy_of_buildTree {keys : List T} {node : Node T} (h : buildTree A t keys = some node) :
    node.Policy := by
  obtain ⟨hinitial, hcur, hmods, -⟩ := buildTree_counters h
  have htombs := slotTombstones_buildTree (A := A) (t := t) keys
  rw [h] at htombs
  have hpos : 1 ≤ keys.length := by
    rw [Nat.one_le_iff_ne_zero, ne_eq, List.length_eq_zero_iff]
    rintro rfl
    rw [buildTree_nil] at h
    exact absurd h (by simp)
  refine ⟨by omega, by omega, by omega, by omega, htombs.le.trans (Nat.zero_le _),
    fun child hchild ↦ ?_⟩
  obtain ⟨i, hi⟩ := buildTree_child h hchild
  obtain ⟨hinitial', hcur', -⟩ := buildTree_counters hi
  have := length_cell_le (Nat.sqrt keys.length) i keys
  rw [hinitial]
  omega

end Build

variable [LinearOrder T]

/-- What holds at every fresh node holds everywhere in a built tree. -/
theorem everywhere_buildTree {A : Arith T} {t : ℕ} {P : Set T → Node T → Prop}
    (hP : ∀ I keys node, buildTree A t keys = some node → P I node) :
    ∀ {keys : List T} {I : Set T}, SlotEverywhere P I (buildTree A t keys) := by
  intro keys
  induction keys using build_induction t with
  | nil =>
    intro I
    rw [buildTree_nil]
    exact slotEverywhere_none
  | terminal keys hne hsmall =>
    intro I node hnode
    refine .intro (hP I keys node hnode) fun i child hchild ↦ ?_
    rw [buildTree_terminal hne hsmall] at hnode
    rw [← Option.some.inj hnode] at hchild
    simp [freshNode] at hchild
  | inner keys hbig ih =>
    intro I node hnode
    refine .intro (hP I keys node hnode) fun i child hchild ↦ ?_
    obtain ⟨j, hj⟩ := buildTree_child hnode (List.mem_of_getElem? hchild)
    exact ih j child hj

theorem policy_buildTree {A : Arith T} {t : ℕ} {keys : List T} {I : Set T} :
    SlotEverywhere (fun _ node ↦ node.Policy) I (buildTree A t keys) :=
  everywhere_buildTree fun _ _ _ ↦ policy_of_buildTree

/-! ### Updates -/

section Update

variable {A : Arith T} {t : ℕ} {exist : Bool} {I : Set T} {batch : List T}

/-- What the rebuild policy needs to know of an update behind a pointer. -/
structure SlotDrift (I : Set T) (old : Option (Node T)) (batch : List T) (new : Option (Node T)) :
    Prop where
  policy : SlotEverywhere (fun _ node ↦ node.Policy) I new
  tombstones : slotTombstones new ≤ slotTombstones old + batch.length
  initialSize : slotInitial new ≤ max (slotInitial old) (slotSize old + batch.length)
  curSize : slotSize new ≤ slotSize old + batch.length

/-- A rebuild leaves no tombstones, and the new size as the initial size. -/
theorem slotDrift_buildTree {old : Option (Node T)} {keys : List T}
    (hlen : keys.length ≤ slotSize old + batch.length) :
    SlotDrift I old batch (buildTree A t keys) where
  policy := policy_buildTree
  tombstones := by
    rw [slotTombstones_buildTree]
    exact Nat.zero_le _
  initialSize := by
    rw [slotInitial_buildTree]
    exact hlen.trans (le_max_right _ _)
  curSize := by rwa [slotSize_buildTree]

theorem slotDrift_refl {slot : Option (Node T)}
    (h : SlotEverywhere (fun _ node ↦ node.Policy) I slot) : SlotDrift I slot batch slot where
  policy := h
  tombstones := Nat.le_add_right _ _
  initialSize := le_max_left _ _
  curSize := Nat.le_add_right _ _

/-- The number of new keys bounds how far an update changes the size. -/
theorem length_adjust_le (l batch : List T) :
    (adjust exist l batch).length ≤ l.length + batch.length := by
  cases exist with
  | true => exact (length_mergeLists l batch).le
  | false => exact (List.length_filter_le _ _).trans (Nat.le_add_right _ _)

variable {node : Node T}

/-- A key that is found in the node may become a tombstone. -/
theorem Node.Inv.tombstones_markedWith (h : node.Inv t I)
    (hb : Admissible exist I node.live batch)
    (hterm : node.children.length = 0 → ∀ x ∈ batch, x ∈ node.keys)
    {new : Option (Node T) × List T → Option (Node T)}
    (hnew : ∀ p ∈ node.parts batch, slotTombstones (new p) ≤ slotTombstones p.1 + p.2.length) :
    (node.markedWith exist batch ((node.parts batch).map new)).tombstones ≤
      node.tombstones + batch.length := by
  have hcount := h.count_markedFlags hb
  have hsegments := h.here.sum_segments hterm
  have hflags := h.here.exist_length
  have hmarked := length_markedFlags exist batch h.here
  rw [← List.count_true_add_count_false] at hflags hmarked
  have hchildren : (((node.parts batch).map new).map slotTombstones).sum ≤
      (node.children.map slotTombstones).sum +
        ((node.parts batch).map fun p ↦ p.2.length).sum := by
    rw [List.map_map, ← map_fst_parts node batch, List.map_map, ← List.sum_map_add]
    exact List.sum_le_sum hnew
  rw [tombstones, sumTree_eq, sumTree_eq]
  show (node.markedFlags exist batch).count false +
    (((node.parts batch).map new).map slotTombstones).sum ≤
      node.keysExist.count false + (node.children.map slotTombstones).sum + batch.length
  cases exist <;> omega

/-- An update of a child keeps it as small as the modifications of its parent allow: they go up by
as much as the child may grow. -/
theorem Node.Policy.child_le (hpolicy : node.Policy) {p : Option (Node T) × List T}
    (hp : p ∈ node.parts batch) {J : Set T} {child : Node T}
    (hdrift : SlotDrift J p.1 p.2 (some child)) :
    child.initialSize ≤
        Nat.sqrt node.initialSize + (node.modificationsCount + batch.length) ∧
      child.curSize ≤ Nat.sqrt node.initialSize + (node.modificationsCount + batch.length) := by
  obtain ⟨i, hslot, hseg⟩ := mem_parts hp
  have hlen : p.2.length ≤ batch.length := by
    rw [hseg]
    exact (segment_sublist _ _ _).length_le
  have hold : slotInitial p.1 ≤ Nat.sqrt node.initialSize + node.modificationsCount ∧
      slotSize p.1 ≤ Nat.sqrt node.initialSize + node.modificationsCount := by
    rcases hslot' : p.1 with - | old
    · simp
    · exact hpolicy.children old (hslot' ▸ List.mem_of_getElem? hslot)
  have hinitial := hdrift.initialSize
  have hcur := hdrift.curSize
  rw [slotInitial_some] at hinitial
  rw [slotSize_some] at hcur
  omega

/-- The changes in place keep the policy, as long as the node need not be rebuilt. -/
theorem Node.Inv.slotDrift_markedWith (new : Option (Node T) × List T → Option (Node T))
    (h : node.Inv t I) (hpolicy : node.Everywhere (fun _ node ↦ node.Policy) I)
    (hb : Admissible exist I node.live batch)
    (hterm : node.children.length = 0 → ∀ x ∈ batch, x ∈ node.keys)
    (hrebuild : 4 * (node.modificationsCount + batch.length) ≤ node.initialSize)
    (hnew : ∀ (i : ℕ) (slot : Option (Node T)), node.children[i]? = some slot →
      SlotDrift (I ∩ gap node.keys i) slot (segment node.keys i batch)
        (new (slot, segment node.keys i batch))) :
    SlotDrift I (some node) batch
      (some (node.markedWith exist batch ((node.parts batch).map new))) := by
  -- the drift of a child, without its index
  have hpart : ∀ p ∈ node.parts batch, ∃ J, SlotDrift J p.1 p.2 (new p) := by
    intro p hp
    obtain ⟨i, hslot, hseg⟩ := mem_parts hp
    obtain ⟨slot, seg⟩ := p
    obtain rfl : seg = _ := hseg
    exact ⟨_, hnew i slot hslot⟩
  have htombs := h.tombstones_markedWith hb hterm fun p hp ↦ by
    obtain ⟨J, hJ⟩ := hpart p hp
    exact hJ.tombstones
  obtain ⟨hinitial, hmods, hgrown, hshrunk, htombstones, hchildren⟩ := hpolicy.here
  refine ⟨?_, htombs, le_max_left _ _, ?_⟩
  · refine slotEverywhere_some.2 (.intro ⟨hinitial, ?_, ?_, ?_, ?_, ?_⟩ fun i child hi ↦ ?_)
    · exact hrebuild
    · simp only [markedWith]
      split <;> omega
    · simp only [markedWith]
      split <;> omega
    · simp only [markedWith] at htombs ⊢
      omega
    · intro child hchild
      obtain ⟨p, hp, heq⟩ := List.mem_map.1 hchild
      obtain ⟨J, hJ⟩ := hpart p hp
      exact hpolicy.here.child_le hp (heq ▸ hJ)
    · rw [getElem?_children_markedWith] at hi
      obtain ⟨slot, hslot, heq⟩ := Option.map_eq_some_iff.1 hi
      exact (hnew i slot hslot).policy child heq
  · simp only [slotSize_some, markedWith]
    split <;> omega

/-- What an update does at a pointer, from what it does at a node. -/
theorem slotDrift_slotUpdated {c : ℕ} {slot : Option (Node T)}
    (hpolicy : SlotEverywhere (fun _ node ↦ node.Policy) I slot)
    (hnode : ∀ node, slot = some node → batch ≠ [] →
      SlotDrift I slot batch (updated A c t exist node batch).slot) :
    SlotDrift I slot batch (slotUpdated A c t exist slot batch).1 := by
  rcases eq_or_ne batch [] with rfl | hne
  · rw [slotUpdated_nil]
    exact slotDrift_refl hpolicy
  rcases slot with - | node
  · rw [slotUpdated_none hne]
    cases exist with
    | true => exact slotDrift_buildTree (by simp)
    | false => exact slotDrift_refl hpolicy
  · rw [slotUpdated_some hne]
    exact hnode node rfl hne

/-- **An update with the coefficient 4 keeps the rebuild policy.** -/
theorem Node.Inv.slotDrift_updated (hA : A.Exact) (ht : 1 ≤ t) :
    ∀ {node : Node T} {I : Set T} {batch : List T}, node.Inv t I →
      node.Everywhere (fun _ node ↦ node.Policy) I → Admissible exist I node.live batch →
      SlotDrift I (some node) batch (updated A 4 t exist node batch).slot := by
  intro node
  induction node using Node.induction with
  | step node ih =>
    intro I batch h hpolicy hb
    rcases h.updated_cases (c := 4) hA ht hb with ⟨-, heq, -⟩ | ⟨hkeep, hexist, heq, -⟩
    · rw [heq]
      refine slotDrift_buildTree ?_
      rw [slotSize_some, ← Inv.length_live h]
      exact length_adjust_le _ _
    · rw [heq]
      refine Inv.slotDrift_markedWith (fun p ↦ (slotUpdated A 4 t exist p.1 p.2).1) h hpolicy hb
        (hb.mem_keys_of_terminal hexist) hkeep fun i slot hslot ↦ ?_
      refine slotDrift_slotUpdated (fun child hchild ↦ hpolicy.child (hchild ▸ hslot))
        fun child hchild _ ↦ ?_
      subst hchild
      exact ih child (List.mem_of_getElem? hslot) (h.child hslot) (hpolicy.child hslot)
        (h.admissible_segment hb hslot)

theorem SlotInv.slotDrift (hA : A.Exact) (ht : 1 ≤ t) {slot : Option (Node T)}
    (h : SlotInv t I slot) (hpolicy : SlotEverywhere (fun _ node ↦ node.Policy) I slot)
    (hb : Admissible exist I (slotLive slot) batch) :
    SlotDrift I slot batch (slotUpdated A 4 t exist slot batch).1 :=
  slotDrift_slotUpdated hpolicy fun node hnode _ ↦ by
    subst hnode
    exact Node.Inv.slotDrift_updated hA ht (h node rfl) (hpolicy node rfl) hb

end Update

/-! ### Consequences -/

section Consequences

variable {A : Arith T} {t : ℕ} {I : Set T} {node : Node T}

omit [LinearOrder T] in
/-- A node that the policy holds for is not empty. -/
theorem Node.Policy.curSize_pos (h : node.Policy) : 1 ≤ node.curSize := by
  have := h.modifications
  have := h.shrunk
  have := h.initialSize_pos
  omega

/-- A child is in a lower power of two than its node. -/
theorem sqrt_add_div_four_lt {m k : ℕ} (hk : 1 ≤ k) (h : m < 2 ^ (k + 1)) :
    Nat.sqrt m + m / 4 < 2 ^ k := by
  match k, hk with
  | 1, _ =>
    have : Nat.sqrt m < 2 := Nat.sqrt_lt'.2 h
    omega
  | 2, _ =>
    have : Nat.sqrt m < 3 := Nat.sqrt_lt'.2 (by omega)
    omega
  | 3, _ =>
    have : Nat.sqrt m < 4 := Nat.sqrt_lt'.2 h
    omega
  | k + 4, _ =>
    rw [Nat.pow_succ] at h
    have hpow : 2 ^ (k + 4) = 2 ^ k * 16 := Nat.pow_add 2 k 4
    have hpos : 0 < 2 ^ k := Nat.two_pow_pos k
    rcases Nat.lt_or_ge m 16 with hlt | hge
    · have : Nat.sqrt m < 4 := Nat.sqrt_lt'.2 hlt
      omega
    · have hsqrt : 4 ≤ Nat.sqrt m := Nat.le_sqrt.2 hge
      have hle : 4 * Nat.sqrt m ≤ m := (Nat.mul_le_mul_right _ hsqrt).trans (Nat.sqrt_le m)
      omega

theorem log_sqrt_add_div_four {m : ℕ} (h : 2 ≤ m) :
    Nat.log 2 (Nat.sqrt m + m / 4) + 1 ≤ Nat.log 2 m := by
  have hpos : 0 < Nat.sqrt m := Nat.sqrt_pos.2 (by omega)
  exact Nat.log_lt_of_lt_pow (by omega) (sqrt_add_div_four_lt (Nat.log_pos (by omega) h)
    (Nat.lt_pow_succ_log_self (by omega) m))

/-- **The height of a node is logarithmic in its initial size.** -/
theorem height_le_log (ht : 1 ≤ t) : ∀ {node : Node T} {I : Set T}, node.Inv t I →
    node.Everywhere (fun _ node ↦ node.Policy) I →
    node.height ≤ Nat.log 2 node.initialSize + 1 := by
  intro node
  induction node using Node.induction with
  | step node ih =>
    intro I h hpolicy
    refine Node.height_le fun slot hslot ↦ ?_
    rcases slot with - | child
    · exact Nat.zero_le _
    · obtain ⟨i, hi⟩ := List.getElem?_of_mem hslot
      have hsize : 2 ≤ node.initialSize := by
        have hterm := h.here.terminal_iff
        have := (List.getElem?_eq_some_iff.1 hi).1
        omega
      have hmods := hpolicy.here.modifications
      calc child.height ≤ Nat.log 2 child.initialSize + 1 :=
            ih child hslot (h.child hi) (hpolicy.child hi)
        _ ≤ Nat.log 2 (Nat.sqrt node.initialSize + node.initialSize / 4) + 1 :=
            Nat.succ_le_succ (Nat.log_mono_right
              ((hpolicy.here.children child hslot).1.trans (by omega)))
        _ ≤ Nat.log 2 node.initialSize := log_sqrt_add_div_four hsize

/-- The height of a node is logarithmic in the number of its stored keys. -/
theorem height_le_log_curSize (ht : 1 ≤ t) (h : node.Inv t I)
    (hpolicy : node.Everywhere (fun _ node ↦ node.Policy) I) :
    node.height ≤ Nat.log 2 (4 * node.curSize / 3) + 1 := by
  have hmods := hpolicy.here.modifications
  have hshrunk := hpolicy.here.shrunk
  refine (height_le_log ht h hpolicy).trans (Nat.succ_le_succ (Nat.log_mono_right ?_))
  omega

/-- Two nodes of a tree do not store the same keys: in the interval of a node, the tree stores what
the node stores. -/
theorem Node.Inv.everywhere_live_iff {S : Set T} : ∀ {node : Node T} {I : Set T}, node.Inv t I →
    (∀ x ∈ I, x ∈ S ↔ x ∈ node.live) →
    node.Everywhere (fun J n ↦ ∀ x ∈ J, x ∈ S ↔ x ∈ n.live) I := by
  intro node I h
  induction h with
  | @intro I node here below ih =>
    intro hS
    refine .intro hS fun i child hchild ↦ ih i child hchild fun x ⟨hx, hgap⟩ ↦ ?_
    have hinv : node.Inv t I := .intro here below
    obtain ⟨hkeys, hrank⟩ := (mem_gap_iff here.sorted (here.index_le hchild)).1 hgap
    rw [hS x hx, Inv.mem_live_of_notMem hinv hkeys, hrank, hchild]
    simp

end Consequences

end Pbist
