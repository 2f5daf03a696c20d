import Pbist.Search.Interpolation
import Pbist.Source.Memory
import Pbist.Functional.Content
import Mathlib.Data.Finset.Sort

/-!
# Doubles that are good enough

The searches do not need exact doubles. They need that `build_id` finds a lower bound for each of
its positions, that `interpolation_search` finds a slot of the index for each key between the first
and the last one, and that `floor(sqrt(n))` is right for the numbers of keys that occur.

`Doubles.AdequateOn` collects this, and nothing else is asked of the doubles by the programs in
memory. `Doubles.reference` is the exact arithmetic that the functional tree is computed with; the
trees of the two differ in their indices only.
-/

namespace Pbist

open Checked Sorted

variable {T : Type} [LinearOrder T]

/-- The arithmetic serves its purpose for strictly increasing arrays of keys in `W`. -/
structure Doubles.AdequateOn (A : Doubles T) (W : Set T) : Prop where
  /-- Keys can be told apart after the conversion to `double`. -/
  strictMono : StrictMono A.toDouble
  /-- `build_id` returns an index whose entries are indices of the keys. -/
  buildId_isOk : ∀ keys : List T, keys.SortedLT → keys ≠ [] → (∀ x ∈ keys, x ∈ W) →
    ∃ id, buildId A.toArith keys keys.length = .ok id ∧ id.length = keys.length ∧
      ∀ j ∈ id, j < keys.length
  /-- A key between the first and the last key has a slot in every such index. -/
  lookupGuess_isOk : ∀ (keys : List T) (hne : keys ≠ []), keys.SortedLT → (∀ x ∈ keys, x ∈ W) →
    ∀ id : List ℕ, id.length = keys.length → (∀ j ∈ id, j < keys.length) →
      ∀ key, keys.head hne < key → key < keys.getLast hne →
        ∃ guess < keys.length, lookupGuess A.toArith keys key id = .ok guess
  /-- `block_size` is the integer square root. -/
  blockSize_eq : ∀ keys : List T, keys.SortedLT → keys ≠ [] → (∀ x ∈ keys, x ∈ W) →
    toU64 (A.sqrt (A.round (keys.length : ℚ))) = .ok (Nat.sqrt keys.length)
  /-- The keys of an array, and the levels of a tree, can be counted. -/
  length_le : ∀ keys : List T, keys.SortedLT → (∀ x ∈ keys, x ∈ W) → keys.length ≤ Mem.maxDepth

/-- The same conversion to `double`, and exact operations: the arithmetic that trees are compared
with. -/
def Doubles.reference (A : Doubles T) : Arith T :=
  { A.toArith with round := id }

variable {A : Doubles T} {W : Set T} {keys : List T}

theorem Doubles.AdequateOn.exact_reference (hA : A.AdequateOn W) : A.reference.Exact where
  round_eq _ := rfl
  strictMono := hA.strictMono

/-- Interpolation search with an index whose entries are indices of the keys. -/
theorem Doubles.AdequateOn.interpolationSearch_eq (hA : A.AdequateOn W) (h : keys.SortedLT)
    (hne : keys ≠ []) (hmem : ∀ x ∈ keys, x ∈ W) {id : List ℕ} (hid : id.length = keys.length)
    (hentries : ∀ j ∈ id, j < keys.length) (key : T) :
    interpolationSearch A.toArith keys key id = .ok (rank keys key, decide (key ∈ keys)) :=
  interpolationSearch_eq_of_guess h hne
    ((hA.length_le keys h hmem).trans (Nat.pow_le_pow_right (by decide) (by decide)))
    (hA.lookupGuess_isOk keys hne h hmem id hid hentries key)

/-! ### The depth of recursion -/

/-- Every node of a path has a key of its own. -/
theorem Node.Inv.height_le_length {t : ℕ} : ∀ {node : Node T} {I : Set T}, node.Inv t I →
    node.height ≤ node.allKeys.length := by
  intro node I h
  induction h with
  | @intro I node here below ih =>
    have hkeys := here.keys_pos
    obtain ⟨n, hn⟩ : ∃ n, node.allKeys.length = n + 1 := ⟨node.allKeys.length - 1, by
      rw [allKeys_eq, List.length_append]
      omega⟩
    rw [hn]
    refine height_le fun slot hslot ↦ ?_
    rcases slot with - | child
    · exact Nat.zero_le _
    obtain ⟨i, hi⟩ := List.getElem?_of_mem hslot
    have hmem : child.allKeys ∈ node.children.map fun slot ↦ (slot.map allKeys).getD [] :=
      List.mem_map.2 ⟨_, hslot, rfl⟩
    have hchild := (List.sublist_flatten_of_mem hmem).length_le
    rw [allKeys_eq, List.length_append] at hn
    have hheight := ih i child hi
    rw [slotHeight_some]
    omega

/-- Recursion does not go deeper than `maxDepth`. -/
theorem Doubles.AdequateOn.height_le (hA : A.AdequateOn W) {t : ℕ} {I : Set T} (hI : I ⊆ W)
    {node : Node T} (h : node.Inv t I) : node.height ≤ Mem.maxDepth := by
  have hnodup := h.nodup_allKeys
  have hcard : (node.allKeys.toFinset.sort (· ≤ ·)).length = node.allKeys.length := by
    rw [Finset.length_sort, List.toFinset_card_of_nodup hnodup]
  refine (Node.Inv.height_le_length h).trans (hcard ▸ hA.length_le _ ?_ fun x hx ↦ hI ?_)
  · exact node.allKeys.toFinset.sortedLT_sort
  · exact Node.Inv.allKeys_mem h x (List.mem_toFinset.1 ((Finset.mem_sort _).1 hx))

/-- The same behind a pointer. -/
theorem Doubles.AdequateOn.slotHeight_le (hA : A.AdequateOn W) {t : ℕ} {I : Set T} (hI : I ⊆ W)
    {slot : Option (Node T)} (h : SlotInv t I slot) : slotHeight slot ≤ Mem.maxDepth := by
  rcases slot with - | node
  · exact Nat.zero_le _
  · exact hA.height_le hI (h node rfl)

end Pbist
