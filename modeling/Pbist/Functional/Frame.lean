import Pbist.Functional.Update

/-!
# The frame of an update

The nodes of a tree are named by paths of child indices. `Node.Along P I root path J n` says that
`path` leads from `root`, with interval `I`, to the node `n`, with interval `J`, and that `P` holds
at every node on the way. `Node.Kept exist E J n n'` lists what an update that makes a difference
for the keys in `E` changes at a node that stays in place: the flags of its keys in `E`, the
children whose gaps meet `E`, and the two counters. `Node.Along.updated` says that this is all that
changes at a node that is reached without passing a replaced one.

Nothing here is about schedules or rebuilding: `P` is any condition that rules out a replacement.
`Along.updated` goes down the path. Where no keys reach a node, its whole subtree is as it was
(`Along.updated_of_keysIn_eq_nil`); where keys reach it, the node is changed in place, and its child
on the path gets the keys of its gap (`keysIn_inter_gap`).
-/

namespace Pbist

open Sorted

variable {T : Type} [LinearOrder T]

/-! ### The keys of an interval -/

open Classical in
/-- The keys of a batch that lie in an interval. -/
noncomputable def keysIn (batch : List T) (J : Set T) : List T :=
  batch.filter fun x ↦ x ∈ J

section KeysIn

variable {batch keys : List T} {J : Set T}

omit [LinearOrder T] in
theorem mem_keysIn {x : T} : x ∈ keysIn batch J ↔ x ∈ batch ∧ x ∈ J := by
  simp [keysIn]

omit [LinearOrder T] in
theorem keysIn_eq_self (h : ∀ x ∈ batch, x ∈ J) : keysIn batch J = batch :=
  List.filter_eq_self.2 fun x hx ↦ by simpa using h x hx

omit [LinearOrder T] in
theorem keysIn_eq_nil_iff : keysIn batch J = [] ↔ ∀ x ∈ batch, x ∉ J := by
  simp [keysIn]

/-- The keys in a gap of an interval are a segment of the keys in the interval. -/
theorem keysIn_inter_gap (h : keys.SortedLT) {i : ℕ} (hi : i ≤ keys.length) :
    keysIn batch (J ∩ gap keys i) = segment keys i (keysIn batch J) := by
  rw [keysIn, Sorted.segment, keysIn, List.filter_filter]
  refine List.filter_congr fun x _ ↦ Bool.eq_iff_iff.2 ?_
  simp only [Bool.and_eq_true, decide_eq_true_iff, Set.mem_inter_iff, mem_gap_iff h hi]
  exact and_comm

end KeysIn

namespace Node

/-! ### Paths -/

/-- `path` leads from a node with interval `I` to the node `n` with interval `J`, and `P` holds at
every node on the way, the first and the last one included. -/
inductive Along (P : Set T → Node T → Prop) : Set T → Node T → List ℕ → Set T → Node T → Prop
  | here {I : Set T} {node : Node T} (h : P I node) : Along P I node [] I node
  | child {I J : Set T} {node child n : Node T} {i : ℕ} {path : List ℕ} (h : P I node)
      (hchild : node.children[i]? = some (some child))
      (below : Along P (I ∩ gap node.keys i) child path J n) : Along P I node (i :: path) J n

/-- `path` leads from a node with interval `I` to the node `n` with interval `J`. -/
abbrev At (I : Set T) (node : Node T) (path : List ℕ) (J : Set T) (n : Node T) : Prop :=
  Along (fun _ _ ↦ True) I node path J n

variable {P Q : Set T → Node T → Prop} {I J : Set T} {node n : Node T} {path : List ℕ} {t : ℕ}

theorem Along.imp (hPQ : ∀ I node, P I node → Q I node) (h : Along P I node path J n) :
    Along Q I node path J n := by
  induction h with
  | here h => exact .here (hPQ _ _ h)
  | child h hchild _ ih => exact .child (hPQ _ _ h) hchild ih

theorem Along.eq_of_nil (h : Along P I node [] J n) : n = node := by
  cases h
  rfl

theorem Along.exists_child {i : ℕ} (h : Along P I node (i :: path) J n) :
    ∃ child, node.children[i]? = some (some child) ∧
      Along P (I ∩ gap node.keys i) child path J n := by
  cases h with
  | child _ hchild below => exact ⟨_, hchild, below⟩

/-- The interval of a node lies in those of its ancestors. -/
theorem Along.subset (h : Along P I node path J n) : J ⊆ I := by
  induction h with
  | here _ => exact subset_rfl
  | child _ _ _ ih => exact ih.trans Set.inter_subset_left

theorem Along.inv (h : Along P I node path J n) (hinv : node.Inv t I) : n.Inv t J := by
  induction h with
  | here _ => exact hinv
  | child _ hchild _ ih => exact ih (hinv.child hchild)

/-! ### What stays in place -/

/-- What an update that makes a difference for the keys in `E` leaves of a node with interval `J`
that stays in place. -/
structure Kept (exist : Bool) (E : List T) (J : Set T) (node node' : Node T) : Prop where
  keys_eq : node'.keys = node.keys
  id_eq : node'.id = node.id
  initialSize_eq : node'.initialSize = node.initialSize
  children_length : node'.children.length = node.children.length
  /-- The flag of a key flips exactly when the key is in `E`. -/
  flags : ∀ (i : ℕ) (k : T), node.keys[i]? = some k → ∃ flag, node.keysExist[i]? = some flag ∧
    node'.keysExist[i]? = some (flag != decide (k ∈ E))
  /-- A child whose interval does not meet `E` is the same subtree. -/
  child_eq : ∀ i, (∀ x ∈ E, x ∉ J ∩ gap node.keys i) → node'.children[i]? = node.children[i]?
  modificationsCount_eq :
    node'.modificationsCount = node.modificationsCount + (keysIn E J).length
  curSize_eq : if exist then node'.curSize = node.curSize + (keysIn E J).length
    else node'.curSize + (keysIn E J).length = node.curSize

variable {exist : Bool} {E : List T}

/-- A node without keys of `E` in its interval is kept as it is. -/
theorem Local.kept_self (h : node.Local t I) (hE : keysIn E I = []) : node.Kept exist E I node where
  keys_eq := rfl
  id_eq := rfl
  initialSize_eq := rfl
  children_length := rfl
  flags i k hk := by
    have hnot : k ∉ E := fun hmem ↦
      keysIn_eq_nil_iff.1 hE k hmem (h.keys_mem k (List.mem_of_getElem? hk))
    have hflag : i < node.keysExist.length := by
      rw [h.exist_length]
      exact (List.getElem?_eq_some_iff.1 hk).1
    refine ⟨node.keysExist[i], List.getElem?_eq_getElem hflag, ?_⟩
    rw [List.getElem?_eq_getElem hflag, decide_eq_false hnot, Bool.bne_false]
  child_eq _ _ := rfl
  modificationsCount_eq := by simp [hE]
  curSize_eq := by simp [hE]

variable {A : Arith T} {c : ℕ}

/-- The changes in place keep a node. -/
theorem Inv.kept_inPlace (h : node.Inv t I) (hb : Admissible exist I node.live (keysIn E I)) :
    node.Kept exist E I (node.inPlace A c t exist (keysIn E I)) where
  keys_eq := rfl
  id_eq := rfl
  initialSize_eq := rfl
  children_length := by rw [inPlace, markedWith, List.length_map, parts, List.length_mapIdx]
  flags i k hk := by
    have hmem : k ∈ keysIn E I ↔ k ∈ E := by
      rw [mem_keysIn, and_iff_left (h.here.keys_mem k (List.mem_of_getElem? hk))]
    have hflag : (node.inPlace A c t exist (keysIn E I)).keysExist[i]? = _ :=
      getElem?_markedFlags h.here hk
    by_cases hE : k ∈ E
    · refine ⟨!exist, h.flag_of_mem_batch hb hk (hmem.2 hE), ?_⟩
      rw [hflag, if_pos (hmem.2 hE), decide_eq_true hE, Bool.bne_true, Bool.not_not]
    · have hlt : i < node.keysExist.length := by
        rw [h.here.exist_length]
        exact (List.getElem?_eq_some_iff.1 hk).1
      refine ⟨node.keysExist[i], List.getElem?_eq_getElem hlt, ?_⟩
      rw [hflag, if_neg (mt hmem.1 hE), List.getElem?_eq_getElem hlt, decide_eq_false hE,
        Bool.bne_false]
  child_eq i hE := by
    rw [inPlace, getElem?_children_markedWith]
    rcases hslot : node.children[i]? with - | slot
    · rfl
    · rw [← keysIn_inter_gap h.here.sorted (h.here.index_le hslot), keysIn_eq_nil_iff.2 hE,
        Option.map_some, slotUpdated_nil]
  modificationsCount_eq := rfl
  curSize_eq := by
    cases exist with
    | true => rfl
    | false =>
      -- the keys to remove are stored, so the subtraction is not cut off
      exact Nat.sub_add_cancel (h.length_le_curSize hb)

/-- A node that an update does not replace stays in place. -/
theorem slotUpdated_of_replacement_eq_none {batch : List T} (hne : batch ≠ [])
    (h : (Pbist.updated A c t exist node batch).replacement = none) :
    (slotUpdated A c t exist (some node) batch).1 = some (node.inPlace A c t exist batch) := by
  rw [slotUpdated_some hne]
  rcases updated_cases A c t exist node batch with ⟨-, -, heq⟩ | ⟨-, -, heq⟩ | ⟨-, -, heq⟩
  · rw [heq] at h
    exact absurd h (by simp)
  · rw [heq]
    rfl
  · rw [heq] at h
    exact absurd h (by simp)

/-- The keys of a batch that reach a node form a batch for it. -/
theorem Along.admissible (hpath : Along P I node path J n) (h : node.Inv t I)
    (hb : Admissible exist I node.live (keysIn E I)) : Admissible exist J n.live (keysIn E J) := by
  induction hpath with
  | here _ => exact hb
  | child _ hchild _ ih =>
    refine ih (h.child hchild) ?_
    rw [keysIn_inter_gap h.here.sorted (h.here.index_le hchild)]
    exact h.admissible_segment hb hchild

/-- An update does not visit a subtree without keys to update. -/
theorem Along.updated_of_keysIn_eq_nil (hpath : Along P I node path J n) (h : node.Inv t I)
    (hE : keysIn E I = []) :
    ∃ node' n', (slotUpdated A c t exist (some node) (keysIn E I)).1 = some node' ∧
      node'.At I path J n' ∧ n.Kept exist E J n' := by
  refine ⟨node, n, by rw [hE, slotUpdated_nil], hpath.imp fun _ _ _ ↦ trivial,
    (hpath.inv h).here.kept_self (keysIn_eq_nil_iff.2 fun x hx hJ ↦ ?_)⟩
  exact keysIn_eq_nil_iff.1 hE x hx (hpath.subset hJ)

/-- **The frame of an update.** Where `P` rules out replacements, the nodes that are reached through
nodes with `P` stay in place, at the same paths and with the same intervals. -/
theorem Along.updated
    (hP : ∀ I node, P I node → node.Inv t I → Admissible exist I node.live (keysIn E I) →
      keysIn E I ≠ [] → (Pbist.updated A c t exist node (keysIn E I)).replacement = none)
    (hpath : Along P I node path J n) (h : node.Inv t I)
    (hb : Admissible exist I node.live (keysIn E I)) :
    ∃ node' n', (slotUpdated A c t exist (some node) (keysIn E I)).1 = some node' ∧
      node'.At I path J n' ∧ n.Kept exist E J n' := by
  induction hpath with
  | @here I node hnode =>
    rcases eq_or_ne (keysIn E I) [] with hE | hE
    · exact (Along.here hnode).updated_of_keysIn_eq_nil h hE
    · exact ⟨_, _, slotUpdated_of_replacement_eq_none hE (hP I node hnode h hb hE), .here trivial,
        h.kept_inPlace hb⟩
  | @child I J node child n i path hnode hchild below ih =>
    rcases eq_or_ne (keysIn E I) [] with hE | hE
    · exact (Along.child hnode hchild below).updated_of_keysIn_eq_nil h hE
    · -- the child gets the keys in its interval, which are its segment of the batch
      have hseg : keysIn E (I ∩ gap node.keys i) = segment node.keys i (keysIn E I) :=
        keysIn_inter_gap h.here.sorted (h.here.index_le hchild)
      obtain ⟨child', n', hchild', hat, hkept⟩ :=
        ih (h.child hchild) (hseg ▸ h.admissible_segment hb hchild)
      refine ⟨_, n', slotUpdated_of_replacement_eq_none hE (hP I node hnode h hb hE),
        .child trivial ?_ hat, hkept⟩
      rw [inPlace, getElem?_children_markedWith, hchild, Option.map_some, ← hseg, hchild']

end Node

end Pbist
