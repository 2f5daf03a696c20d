import Pbist.Library.Blocks
import Pbist.Library.Sorted
import Pbist.Search.Interpolation

/-!
# What a tree stores, and when it is well formed

The stored keys of a subtree are its `live` keys in order; representative keys whose flag is false
are tombstones. `Node.Everywhere P I n` says that `P` holds at every node of the subtree `n`,
together with the interval that the node inherits from its ancestors: `I` for `n` itself, and the
part of a node's interval that lies in gap `i` of its keys for its child `i`.

`Node.Local t I n` is the representation invariant of one node of a tree with size threshold `t`.
A subtree in which it holds everywhere is a search tree over the interval `I`: its live keys are
strictly increasing, lie in `I`, and there are as many as `cur_size` says.

## The main results

* `Inv.sortedLT_live` and `Inv.length_live` are what the invariant is for. They go by induction on
  the tree, with the blocks of a node in the order of the gaps (`Sorted.sortedLT_flatten`).
* `Node.Everywhere` is a fold over the tree and commutes with the connectives that are needed
  (`Everywhere.imp`, `Everywhere.and`); `Inv.subtrees` says that the invariant of a subtree holds of
  the subtrees in it, so what is proved of a root under it holds everywhere.
-/

namespace Pbist

open Checked Sorted Blocks

variable {T : Type}

/-! ### Stored keys and sums over a tree -/

/-- The key at each index as a block of one key, or an empty block for a tombstone. -/
def keyBlocks (keys : List T) (keysExist : List Bool) : List (List T) :=
  List.zipWith (fun key exist ↦ if exist then [key] else []) keys keysExist

namespace Node

/-- The stored keys of a subtree, in order. -/
def live : Node T → List T :=
  foldTree fun node lives ↦
    (alternate (lives.map (·.getD [])) (keyBlocks node.keys node.keysExist)).flatten

/-- All representative keys of a subtree, stored or not. -/
def allKeys : Node T → List T :=
  foldTree fun node keys ↦ node.keys ++ (keys.map (·.getD [])).flatten

/-- The sum of a number over all nodes of a subtree. -/
def sumTree (f : Node T → ℕ) : Node T → ℕ :=
  foldTree fun node sums ↦ f node + (sums.map (·.getD 0)).sum

/-- The number of tombstones of a subtree. -/
def tombstones : Node T → ℕ :=
  sumTree fun node ↦ node.keysExist.count false

end Node

/-- The stored keys behind a pointer. -/
def slotLive (slot : Option (Node T)) : List T :=
  (slot.map Node.live).getD []

/-- `cur_size` behind a pointer, 0 for a null pointer. -/
def slotSize (slot : Option (Node T)) : ℕ :=
  (slot.map Node.curSize).getD 0

/-- A sum over all nodes behind a pointer. -/
def slotSum (f : Node T → ℕ) (slot : Option (Node T)) : ℕ :=
  (slot.map (Node.sumTree f)).getD 0

section SlotSimp

variable (node : Node T) (f : Node T → ℕ)

@[simp] theorem slotLive_none : slotLive (none : Option (Node T)) = [] := rfl
@[simp] theorem slotLive_some : slotLive (some node) = node.live := rfl
@[simp] theorem slotSize_none : slotSize (none : Option (Node T)) = 0 := rfl
@[simp] theorem slotSize_some : slotSize (some node) = node.curSize := rfl
@[simp] theorem slotSum_none : slotSum f (none : Option (Node T)) = 0 := rfl
@[simp] theorem slotSum_some : slotSum f (some node) = node.sumTree f := rfl
@[simp] theorem slotHeight_some : slotHeight (some node) = node.height := rfl

end SlotSimp

namespace Node

/-- The blocks of stored keys of a node: those of its children and its own keys, in order. -/
def blocks (node : Node T) : List (List T) :=
  alternate (node.children.map slotLive) (keyBlocks node.keys node.keysExist)

theorem live_eq (node : Node T) : node.live = node.blocks.flatten := by
  rw [live, foldTree_eq, List.map_map]
  rfl

theorem sumTree_eq (f : Node T → ℕ) (node : Node T) :
    node.sumTree f = f node + (node.children.map (slotSum f)).sum := by
  rw [sumTree, foldTree_eq, List.map_map]
  rfl

theorem allKeys_eq (node : Node T) :
    node.allKeys =
      node.keys ++ (node.children.map fun slot ↦ (slot.map allKeys).getD []).flatten := by
  rw [allKeys, foldTree_eq, List.map_map]
  rfl

theorem mem_allKeys {node : Node T} {x : T} :
    x ∈ node.allKeys ↔ x ∈ node.keys ∨ ∃ child, some child ∈ node.children ∧ x ∈ child.allKeys := by
  rw [allKeys_eq, List.mem_append]
  refine or_congr_right ⟨fun h ↦ ?_, fun ⟨child, hchild, hx⟩ ↦ ?_⟩
  · obtain ⟨keys, hkeys, hx⟩ := List.mem_flatten.1 h
    obtain ⟨slot, hslot, rfl⟩ := List.mem_map.1 hkeys
    rcases slot with - | child
    · simp at hx
    · exact ⟨child, hslot, hx⟩
  · exact List.mem_flatten.2 ⟨_, List.mem_map.2 ⟨some child, hchild, rfl⟩, hx⟩

theorem height_eq (node : Node T) :
    node.height = (node.children.map slotHeight).foldr max 0 + 1 := by
  rw [height, foldTree_eq, List.map_map]
  rfl

theorem slotHeight_lt {node : Node T} {slot : Option (Node T)} (h : slot ∈ node.children) :
    slotHeight slot < node.height := by
  rw [height_eq, Nat.lt_succ_iff]
  have hmem : slotHeight slot ∈ node.children.map slotHeight := List.mem_map_of_mem h
  generalize node.children.map slotHeight = heights at hmem
  induction heights with
  | nil => simp at hmem
  | cons a heights ih =>
    rcases List.mem_cons.1 hmem with rfl | hmem
    · exact le_max_left _ _
    · exact (ih hmem).trans (le_max_right _ _)

/-- A bound on the heights of the children bounds the height. -/
theorem height_le {node : Node T} {h : ℕ}
    (hchildren : ∀ slot ∈ node.children, slotHeight slot ≤ h) :
    node.height ≤ h + 1 := by
  rw [height_eq, Nat.add_le_add_iff_right]
  generalize hlist : node.children.map slotHeight = heights
  have hbound : ∀ a ∈ heights, a ≤ h := by
    rw [← hlist]
    intro a ha
    obtain ⟨slot, hslot, rfl⟩ := List.mem_map.1 ha
    exact hchildren slot hslot
  clear hlist
  induction heights with
  | nil => exact Nat.zero_le h
  | cons a heights ih =>
    exact max_le (hbound a List.mem_cons_self) (ih fun b hb ↦ hbound b (List.mem_cons_of_mem _ hb))

/-- A key is stored in a subtree when it is a representative key with a true flag or is stored below
a child. -/
theorem mem_live {node : Node T} {x : T} :
    x ∈ node.live ↔ (∃ i : ℕ, node.keys[i]? = some x ∧ node.keysExist[i]? = some true) ∨
      ∃ child, some child ∈ node.children ∧ x ∈ child.live := by
  rw [live_eq, blocks, List.mem_flatten]
  simp only [mem_alternate]
  constructor
  · rintro ⟨block, hblock | hblock, hx⟩
    · obtain ⟨slot, hslot, rfl⟩ := List.mem_map.1 hblock
      rcases slot with - | child
      · simp at hx
      · exact .inr ⟨child, hslot, hx⟩
    · obtain ⟨i, hi, rfl⟩ := List.getElem_of_mem hblock
      rw [keyBlocks, List.length_zipWith] at hi
      simp only [keyBlocks, List.getElem_zipWith] at hx
      by_cases hexist : node.keysExist[i] = true
      · simp only [hexist, if_true, List.mem_singleton] at hx
        exact .inl ⟨i, by rw [List.getElem?_eq_getElem (by omega), hx],
          by rw [List.getElem?_eq_getElem (by omega), hexist]⟩
      · simp [hexist] at hx
  · rintro (⟨i, hkey, hexist⟩ | ⟨child, hchild, hx⟩)
    · refine ⟨[x], .inr ?_, by simp⟩
      refine List.mem_of_getElem? (i := i) ?_
      rw [keyBlocks, List.getElem?_zipWith, hkey, hexist]
      rfl
    · exact ⟨child.live, .inl (List.mem_map.2 ⟨some child, hchild, rfl⟩), hx⟩

/-- Every stored key is a representative key. -/
theorem live_subset_allKeys : ∀ (node : Node T), ∀ x ∈ node.live, x ∈ node.allKeys := by
  intro node
  induction node using Node.induction with
  | step node ih =>
    intro x hx
    rcases mem_live.1 hx with ⟨i, hi, -⟩ | ⟨child, hchild, hx⟩
    · exact mem_allKeys.2 (.inl (List.mem_of_getElem? hi))
    · exact mem_allKeys.2 (.inr ⟨child, hchild, ih child hchild x hx⟩)

end Node

section WellFormed

variable [LinearOrder T]

/-! ### Predicates on all nodes of a tree -/

namespace Node

/-- `P` holds at every node of a subtree, with the interval of that node. -/
inductive Everywhere (P : Set T → Node T → Prop) : Set T → Node T → Prop
  | intro {I : Set T} {node : Node T} (here : P I node)
      (below : ∀ (i : ℕ) (child : Node T), node.children[i]? = some (some child) →
        Everywhere P (I ∩ gap node.keys i) child) : Everywhere P I node

variable {P Q : Set T → Node T → Prop} {I : Set T} {node : Node T}

theorem Everywhere.here (h : Everywhere P I node) : P I node := by
  cases h with
  | intro here below => exact here

theorem Everywhere.child (h : Everywhere P I node) {i : ℕ} {child : Node T}
    (hchild : node.children[i]? = some (some child)) :
    Everywhere P (I ∩ gap node.keys i) child := by
  cases h with
  | intro here below => exact below i child hchild

theorem Everywhere.imp (hPQ : ∀ I node, P I node → Q I node) (h : Everywhere P I node) :
    Everywhere Q I node := by
  induction h with
  | intro here _ ih => exact .intro (hPQ _ _ here) ih

/-- What holds everywhere in a tree holds everywhere in each of its subtrees. -/
theorem Everywhere.subtrees (h : Everywhere P I node) :
    Everywhere (fun J n ↦ n.Everywhere P J) I node := by
  induction h with
  | intro here below ih => exact .intro (.intro here below) ih

theorem Everywhere.and (hP : Everywhere P I node) (hQ : Everywhere Q I node) :
    Everywhere (fun I node ↦ P I node ∧ Q I node) I node := by
  induction hP with
  | intro here _ ih =>
    exact .intro ⟨here, hQ.here⟩ fun i child hchild ↦ ih i child hchild (hQ.child hchild)

end Node

/-- `P` holds at every node behind a pointer. -/
def SlotEverywhere (P : Set T → Node T → Prop) (I : Set T) (slot : Option (Node T)) : Prop :=
  ∀ node, slot = some node → node.Everywhere P I

theorem slotEverywhere_some {P : Set T → Node T → Prop} {I : Set T} {node : Node T} :
    SlotEverywhere P I (some node) ↔ node.Everywhere P I :=
  ⟨fun h ↦ h node rfl, fun h _ heq ↦ Option.some.inj heq ▸ h⟩

theorem slotEverywhere_none {P : Set T → Node T → Prop} {I : Set T} : SlotEverywhere P I none :=
  fun _ heq ↦ nomatch heq

/-! ### The representation invariant -/

/-- The representation invariant of a node with interval `I`, in a tree with size threshold `t`. -/
structure Node.Local (t : ℕ) (I : Set T) (node : Node T) : Prop where
  exist_length : node.keysExist.length = node.keys.length
  keys_pos : 1 ≤ node.keys.length
  children_length : node.children.length = 0 ∨ node.children.length = node.keys.length + 1
  sorted : node.keys.SortedLT
  keys_mem : ∀ k ∈ node.keys, k ∈ I
  terminal_iff : node.children.length = 0 ↔ node.initialSize ≤ t
  id_length : node.id.length = if 50 ≤ node.initialSize then node.keys.length else 0
  id_entries : ∀ j ∈ node.id, j < node.keys.length
  curSize_eq : node.curSize = node.keysExist.count true + (node.children.map slotSize).sum

/-- The invariant at every node of a subtree. -/
abbrev Node.Inv (t : ℕ) (I : Set T) (node : Node T) : Prop :=
  node.Everywhere (Node.Local t) I

/-- The invariant at every node behind a pointer. -/
abbrev SlotInv (t : ℕ) (I : Set T) (slot : Option (Node T)) : Prop :=
  SlotEverywhere (Node.Local t) I slot

namespace Node

variable {t : ℕ} {I : Set T} {node : Node T}

theorem Local.isStructureCorrect (h : node.Local t I) : node.isStructureCorrect :=
  ⟨h.exist_length.symm, h.keys_pos, h.children_length⟩

theorem Local.isTerminal_eq (h : node.Local t I) :
    node.isTerminal = .ok (decide (node.children.length = 0)) := by
  rw [isTerminal, require_of h.isStructureCorrect, ok_bind, pure_eq_ok]

theorem Local.keys_ne_nil (h : node.Local t I) : node.keys ≠ [] :=
  List.length_pos_iff.1 h.keys_pos

theorem Inv.slot (h : node.Inv t I) {i : ℕ} {slot : Option (Node T)}
    (hslot : node.children[i]? = some slot) : SlotInv t (I ∩ gap node.keys i) slot :=
  fun _ heq ↦ h.child (heq ▸ hslot)

/-- Every representative key of a well-formed subtree lies in its interval. -/
theorem Inv.allKeys_mem : ∀ {node : Node T} {I : Set T}, node.Inv t I →
    ∀ x ∈ node.allKeys, x ∈ I := by
  intro node I h
  induction h with
  | intro here _ ih =>
    intro x hx
    rcases mem_allKeys.1 hx with hx | ⟨child, hchild, hx⟩
    · exact here.keys_mem x hx
    · obtain ⟨i, hi⟩ := List.getElem?_of_mem hchild
      exact (ih i child hi x hx).1

/-- No value occurs twice among the representative keys of a well-formed subtree. -/
theorem Inv.nodup_allKeys : ∀ {node : Node T} {I : Set T}, node.Inv t I → node.allKeys.Nodup := by
  intro node I h
  induction h with
  | @intro I node here below ih =>
    have hgap : ∀ {i : ℕ} {slot : Option (Node T)} {x : T}, node.children[i]? = some slot →
        x ∈ (slot.map allKeys).getD [] → i ≤ node.keys.length ∧ x ∈ gap node.keys i := by
      intro i slot x hslot hx
      have hi := (List.getElem?_eq_some_iff.1 hslot).1
      rcases slot with - | child
      · simp at hx
      · exact ⟨by rcases here.children_length with hlen | hlen <;> omega,
          (allKeys_mem (below i child hslot) x hx).2⟩
    rw [allKeys_eq, List.nodup_append']
    refine ⟨here.sorted.nodup, List.nodup_flatten.2 ⟨fun keys hkeys ↦ ?_, ?_⟩, fun x hx hx' ↦ ?_⟩
    · obtain ⟨slot, hslot, rfl⟩ := List.mem_map.1 hkeys
      rcases slot with - | child
      · exact List.nodup_nil
      · obtain ⟨i, hi⟩ := List.getElem?_of_mem hslot
        exact ih i child hi
    · -- the keys below two children lie in different gaps
      refine List.pairwise_iff_getElem.2 fun i j hi hj hij x hxi hxj ↦ ?_
      rw [List.length_map] at hi hj
      rw [List.getElem_map] at hxi hxj
      obtain ⟨hile, higap⟩ := hgap (List.getElem?_eq_getElem hi) hxi
      obtain ⟨hjle, hjgap⟩ := hgap (List.getElem?_eq_getElem hj) hxj
      exact hij.ne (gap_injective here.sorted hile hjle higap hjgap)
    · obtain ⟨keys, hkeys, hxkeys⟩ := List.mem_flatten.1 hx'
      obtain ⟨slot, hslot, rfl⟩ := List.mem_map.1 hkeys
      obtain ⟨i, hi⟩ := List.getElem?_of_mem hslot
      obtain ⟨hile, higap⟩ := hgap hi hxkeys
      exact ((mem_gap_iff here.sorted hile).1 higap).1 hx

theorem Inv.live_mem (h : node.Inv t I) {x : T} (hx : x ∈ node.live) : x ∈ I :=
  h.allKeys_mem x (live_subset_allKeys node x hx)

/-- The stored keys of child `i` lie in gap `i`. -/
theorem Inv.slotLive_mem (h : node.Inv t I) {i : ℕ} {slot : Option (Node T)}
    (hslot : node.children[i]? = some slot) {x : T} (hx : x ∈ slotLive slot) :
    x ∈ I ∩ gap node.keys i := by
  rcases slot with - | child
  · simp at hx
  · exact Inv.live_mem (h.child hslot) hx

theorem Local.index_le (h : node.Local t I) {i : ℕ} {slot : Option (Node T)}
    (hslot : node.children[i]? = some slot) : i ≤ node.keys.length := by
  have hlt := (List.getElem?_eq_some_iff.1 hslot).1
  rcases h.children_length with hlen | hlen <;> omega

/-- A representative key is stored exactly when its flag is true. -/
theorem Inv.mem_live_of_getElem? (h : node.Inv t I) {i : ℕ} {x : T}
    (hi : node.keys[i]? = some x) : x ∈ node.live ↔ node.keysExist[i]? = some true := by
  constructor
  · intro hx
    rcases mem_live.1 hx with ⟨j, hj, hexist⟩ | ⟨child, hchild, hx⟩
    · rwa [show i = j from h.here.sorted.nodup.getElem_inj_iff.1 (by
        rw [(List.getElem?_eq_some_iff.1 hi).2, (List.getElem?_eq_some_iff.1 hj).2])]
    · -- no key of the node lies in a gap between its keys
      obtain ⟨j, hj⟩ := List.getElem?_of_mem hchild
      have hgap := (h.slotLive_mem hj hx).2
      exact absurd (List.mem_of_getElem? hi)
        ((mem_gap_iff h.here.sorted (h.here.index_le hj)).1 hgap).1
  · exact fun hexist ↦ mem_live.2 (.inl ⟨i, hi, hexist⟩)

/-- What is not a representative key of the node is stored below the child of its gap. -/
theorem Inv.mem_live_of_notMem (h : node.Inv t I) {x : T} (hx : x ∉ node.keys) :
    x ∈ node.live ↔ ∃ slot, node.children[rank node.keys x]? = some slot ∧ x ∈ slotLive slot := by
  constructor
  · intro hlive
    rcases mem_live.1 hlive with ⟨i, hi, -⟩ | ⟨child, hchild, hlive⟩
    · exact absurd (List.mem_of_getElem? hi) hx
    · obtain ⟨i, hi⟩ := List.getElem?_of_mem hchild
      have hgap := (h.slotLive_mem hi hlive).2
      rw [((mem_gap_iff h.here.sorted (h.here.index_le hi)).1 hgap).2]
      exact ⟨some child, hi, hlive⟩
  · rintro ⟨slot, hslot, hlive⟩
    rcases slot with - | child
    · simp at hlive
    · exact mem_live.2 (.inr ⟨child, List.mem_of_getElem? hslot, hlive⟩)

/-- The stored keys of a block lie at one place of the node: block `2 * i` in gap `i`, and block
`2 * i + 1` at key `i`; at a terminal node there are only the blocks of the keys. -/
theorem Inv.place_of_mem_blocks (h : node.Inv t I) {p : ℕ} {block : List T}
    (hblock : node.blocks[p]? = some block) {x : T} (hx : x ∈ block) :
    place node.keys x = if node.children.length = 0 then 2 * p + 1 else p := by
  -- a block of the node itself holds its key and nothing else
  have hkey : ∀ {i : ℕ}, (keyBlocks node.keys node.keysExist)[i]? = some block →
      place node.keys x = 2 * i + 1 := by
    intro i hi
    rw [keyBlocks, List.getElem?_zipWith] at hi
    rcases hk : node.keys[i]? with - | k
    · simp [hk] at hi
    · rcases he : node.keysExist[i]? with - | e
      · simp [hk, he] at hi
      · obtain rfl : (if e then [k] else []) = block := by simpa [hk, he] using hi
        obtain rfl : x = k := by
          cases e <;> simp at hx
          exact hx
        obtain ⟨hlt, rfl⟩ := List.getElem?_eq_some_iff.1 hk
        exact place_getElem h.here.sorted hlt
  rw [blocks] at hblock
  rcases h.here.children_length with hlen | hlen
  · rw [if_pos hlen]
    rw [List.length_eq_zero_iff.1 hlen] at hblock
    exact hkey hblock
  · rw [if_neg (by omega)]
    have hlens : (node.children.map slotLive).length =
        (keyBlocks node.keys node.keysExist).length + 1 := by
      rw [List.length_map, keyBlocks, List.length_zipWith, h.here.exist_length, min_self, hlen]
    obtain ⟨i, rfl | rfl⟩ : ∃ i, p = 2 * i ∨ p = 2 * i + 1 := ⟨p / 2, by omega⟩
    · rw [getElem?_alternate_even hlens, List.getElem?_map] at hblock
      obtain ⟨slot, hslot, rfl⟩ := Option.map_eq_some_iff.1 hblock
      have hgap := (h.slotLive_mem hslot hx).2
      exact place_of_mem_gap h.here.sorted (h.here.index_le hslot) hgap
    · rw [getElem?_alternate_odd hlens] at hblock
      exact hkey hblock

/-- **The stored keys of a well-formed subtree are strictly increasing.** -/
theorem Inv.sortedLT_live : ∀ {node : Node T} {I : Set T}, node.Inv t I →
    node.live.SortedLT := by
  intro node
  induction node using Node.induction with
  | step node ih =>
    intro I h
    rw [live_eq]
    refine sortedLT_flatten (fun block hblock ↦ ?_) ?_
    · rcases mem_alternate.1 hblock with hblock | hblock
      · obtain ⟨slot, hslot, rfl⟩ := List.mem_map.1 hblock
        rcases slot with - | child
        · exact List.Pairwise.nil.sortedLT
        · obtain ⟨i, hi⟩ := List.getElem?_of_mem hslot
          exact ih child hslot (h.child hi)
      · obtain ⟨i, hi, rfl⟩ := List.getElem_of_mem hblock
        simp only [keyBlocks, List.getElem_zipWith]
        split
        · exact (List.pairwise_singleton _ _).sortedLT
        · exact List.Pairwise.nil.sortedLT
    · refine List.pairwise_iff_getElem.2 fun p q hp hq hpq x hx y hy ↦ ?_
      refine lt_of_place_lt h.here.sorted ?_
      rw [h.place_of_mem_blocks (List.getElem?_eq_getElem hp) hx,
        h.place_of_mem_blocks (List.getElem?_eq_getElem hq) hy]
      split <;> omega

omit [LinearOrder T] in
theorem length_flatten_keyBlocks : ∀ {keys : List T} {keysExist : List Bool},
    keysExist.length = keys.length →
      (keyBlocks keys keysExist).flatten.length = keysExist.count true
  | [], [], _ => rfl
  | [], _ :: _, h => by simp at h
  | _ :: _, [], h => by simp at h
  | k :: keys, e :: keysExist, h => by
    have ih := @length_flatten_keyBlocks keys keysExist (by simpa using h)
    rw [keyBlocks] at ih ⊢
    cases e <;> simp [ih]

/-- **`cur_size` is the number of stored keys.** -/
theorem Inv.length_live : ∀ {node : Node T} {I : Set T}, node.Inv t I →
    node.live.length = node.curSize := by
  intro node
  induction node using Node.induction with
  | step node ih =>
    intro I h
    have hslots : node.children.map (fun slot ↦ (slotLive slot).length) =
        node.children.map slotSize := by
      refine List.map_congr_left fun slot hslot ↦ ?_
      rcases slot with - | child
      · rfl
      · obtain ⟨i, hi⟩ := List.getElem?_of_mem hslot
        exact ih child hslot (h.child hi)
    rw [live_eq, List.length_flatten, blocks, map_alternate, sum_alternate, ← List.length_flatten,
      ← List.length_flatten, length_flatten_keyBlocks h.here.exist_length, h.here.curSize_eq,
      List.length_flatten, List.map_map]
    rw [show List.length ∘ slotLive = fun slot : Option (Node T) ↦ (slotLive slot).length from rfl,
      hslots, Nat.add_comm]

end Node

theorem SlotInv.length_live {t : ℕ} {I : Set T} {slot : Option (Node T)}
    (h : SlotInv t I slot) : (slotLive slot).length = slotSize slot := by
  rcases slot with - | node
  · rfl
  · exact Node.Inv.length_live (h node rfl)

theorem SlotInv.sortedLT_live {t : ℕ} {I : Set T} {slot : Option (Node T)}
    (h : SlotInv t I slot) : (slotLive slot).SortedLT := by
  rcases slot with - | node
  · exact List.Pairwise.nil.sortedLT
  · exact Node.Inv.sortedLT_live (h node rfl)

theorem SlotInv.live_mem {t : ℕ} {I : Set T} {slot : Option (Node T)}
    (h : SlotInv t I slot) {x : T} (hx : x ∈ slotLive slot) : x ∈ I := by
  rcases slot with - | node
  · simp at hx
  · exact Node.Inv.live_mem (h node rfl) hx

end WellFormed

/-! ### A small tree -/

/-- An inner node with the stored keys 2 and 5, and the tombstone 3 in its only child. -/
def sampleNode : Node I32 where
  keys := [.small 5]
  keysExist := [true]
  children :=
    [some ⟨[.small 2, .small 3], [true, false], [], [], 2, 1, 1⟩, none]
  id := []
  initialSize := 3
  curSize := 2
  modificationsCount := 1

theorem live_sampleNode : sampleNode.live = [.small 2, .small 5] := by
  simp [sampleNode, Node.live_eq, Node.blocks, keyBlocks, Blocks.alternate]

theorem inv_sampleNode : sampleNode.Inv 2 (window 0 9) := by
  have hroot : sampleNode.Local 2 (window 0 9) :=
    ⟨rfl, by decide, .inr rfl, by decide,
      show ∀ k ∈ [I32.small 5], 0 ≤ k.1 ∧ k.1 ≤ 9 by decide, by decide, rfl, by decide, rfl⟩
  refine .intro hroot fun i child hchild ↦ ?_
  match i, hchild with
  | 0, hchild =>
    obtain rfl := Option.some.inj (Option.some.inj hchild)
    have hkeys : ∀ k ∈ [I32.small 2, .small 3], (0 ≤ k.1 ∧ k.1 ≤ 9) ∧
        (∀ k' ∈ [I32.small 5].take 0, k' < k) ∧ ∀ k' ∈ [I32.small 5].drop 0, k < k' := by
      decide
    exact .intro ⟨rfl, by decide, .inl rfl, by decide, hkeys, by decide, rfl, by decide, rfl⟩
      fun j child hchild ↦ by simp at hchild
  | 1, hchild => simp [sampleNode] at hchild
  | i + 2, hchild => simp [sampleNode] at hchild

end Pbist
