import Mathlib.Algebra.BigOperators.Group.List.Basic
import Mathlib.Algebra.Ring.Nat
import Mathlib.Data.List.Flatten
import Mathlib.Order.Interval.Finset.Nat

/-!
# Blocks

A list that is made up of blocks, as the keys of a search tree are made up of those of its subtrees
and the keys between them.

`alternate cs ks` is `c₀, k₀, c₁, k₁, ...`. With one `c` more than there are `k`s the entries at
even indices are the `c`s and those at odd indices the `k`s; without any `c` it is the list of the
`k`s.

`offset bs i` is where block `i` begins in the joined list, and `span bs left i` are the positions
of the block when the list is stored from position `left` on. The spans are disjoint and fill the
whole range, so the blocks can be stored independently of each other.

`getElem?_flatten_offset` is the entry of a block in the joined list. `disjoint_span` and
`biUnion_span` are what a parallel loop that stores the blocks needs: its iterations write to
different positions, and together to all of them.
-/

namespace Blocks

variable {α β : Type*}

/-- The entries of the two lists in turn; what is left of the longer one follows. -/
def alternate : List α → List α → List α
  | [], ks => ks
  | c :: cs, [] => c :: cs
  | c :: cs, k :: ks => c :: k :: alternate cs ks

@[simp] theorem alternate_nil_left (ks : List α) : alternate [] ks = ks :=
  rfl

theorem perm_alternate : ∀ cs ks : List α, (alternate cs ks).Perm (cs ++ ks)
  | [], _ => List.Perm.refl _
  | c :: cs, [] => by simp [alternate]
  | c :: cs, k :: ks => by
    have h : (k :: alternate cs ks).Perm (cs ++ k :: ks) :=
      ((perm_alternate cs ks).cons k).trans List.perm_middle.symm
    exact h.cons c

@[simp] theorem length_alternate (cs ks : List α) :
    (alternate cs ks).length = cs.length + ks.length := by
  rw [(perm_alternate cs ks).length_eq, List.length_append]

@[simp] theorem mem_alternate {cs ks : List α} {a : α} : a ∈ alternate cs ks ↔ a ∈ cs ∨ a ∈ ks := by
  rw [(perm_alternate cs ks).mem_iff, List.mem_append]

theorem map_alternate (f : α → β) :
    ∀ cs ks : List α, (alternate cs ks).map f = alternate (cs.map f) (ks.map f)
  | [], _ => rfl
  | _ :: _, [] => rfl
  | c :: cs, k :: ks => by simp [alternate, map_alternate f cs ks]

theorem sum_alternate (cs ks : List ℕ) : (alternate cs ks).sum = cs.sum + ks.sum := by
  rw [(perm_alternate cs ks).sum_eq, List.sum_append]

/-- The even entries. -/
theorem getElem?_alternate_even :
    ∀ {cs ks : List α}, cs.length = ks.length + 1 → ∀ i, (alternate cs ks)[2 * i]? = cs[i]?
  | [], _, h, _ => by simp at h
  | [c], [], _, i => by
    cases i with
    | zero => rfl
    | succ i => simp [alternate, Nat.mul_succ]
  | _ :: _ :: _, [], h, _ => by simp at h
  | c :: cs, k :: ks, h, i => by
    cases i with
    | zero => rfl
    | succ i =>
      have ih := @getElem?_alternate_even cs ks (by simpa using h) i
      simpa [alternate, Nat.mul_succ] using ih

/-- The odd entries. -/
theorem getElem?_alternate_odd :
    ∀ {cs ks : List α}, cs.length = ks.length + 1 → ∀ i, (alternate cs ks)[2 * i + 1]? = ks[i]?
  | [], _, h, _ => by simp at h
  | [c], [], _, i => by simp [alternate]
  | _ :: _ :: _, [], h, _ => by simp at h
  | c :: cs, k :: ks, h, i => by
    cases i with
    | zero => rfl
    | succ i =>
      have ih := @getElem?_alternate_odd cs ks (by simpa using h) i
      simpa [alternate, Nat.mul_succ] using ih

/-- Joining the blocks of the two lists in turn. -/
theorem flatten_alternate : ∀ {cs ks : List (List α)}, cs.length = ks.length + 1 →
    (alternate cs ks).flatten =
      ((List.range ks.length).flatMap fun i ↦ (cs[i]?).getD [] ++ (ks[i]?).getD []) ++
        (cs[ks.length]?).getD []
  | [], _, h => by simp at h
  | [c], [], _ => by simp [alternate]
  | _ :: _ :: _, [], h => by simp at h
  | c :: cs, k :: ks, h => by
    have ih := @flatten_alternate cs ks (by simpa using h)
    rw [alternate, List.flatten_cons, List.flatten_cons, ih, List.length_cons,
      List.range_succ_eq_map, List.flatMap_cons, List.flatMap_map]
    simp

/-! ### Offsets -/

variable {bs : List (List α)} {left i j : ℕ}

/-- Where block `i` begins. -/
def offset (bs : List (List α)) (i : ℕ) : ℕ :=
  ((bs.take i).map List.length).sum

@[simp] theorem offset_zero (bs : List (List α)) : offset bs 0 = 0 := by
  simp [offset]

theorem offset_length (bs : List (List α)) : offset bs bs.length = bs.flatten.length := by
  rw [offset, List.take_length, List.length_flatten]

theorem offset_succ {b : List α} (h : bs[i]? = some b) :
    offset bs (i + 1) = offset bs i + b.length := by
  rw [offset, offset, List.take_add_one, h]
  simp

theorem offset_le_succ (bs : List (List α)) (i : ℕ) : offset bs i ≤ offset bs (i + 1) := by
  rcases h : bs[i]? with - | b
  · rw [offset, offset, List.take_add_one, h]
    simp
  · rw [offset_succ h]
    exact Nat.le_add_right _ _

theorem offset_mono (bs : List (List α)) : Monotone (offset bs) :=
  monotone_nat_of_le_succ (offset_le_succ bs)

/-- The entries of block `i` are found behind its offset. -/
theorem getElem?_flatten_offset : ∀ {bs : List (List α)} {i j : ℕ} {b : List α},
    bs[i]? = some b → j < b.length → bs.flatten[offset bs i + j]? = b[j]?
  | [], _, _, _, h, _ => by simp at h
  | b :: bs, 0, j, _, h, hj => by
    obtain rfl : b = _ := by simpa using h
    rw [offset_zero, Nat.zero_add, List.flatten_cons, List.getElem?_append_left hj]
  | b :: bs, i + 1, j, b', h, hj => by
    have hb : bs[i]? = some b' := by simpa using h
    have ih := getElem?_flatten_offset hb hj
    rw [← ih, List.flatten_cons, List.getElem?_append_right (by simp [offset]; omega)]
    congr 1
    simp [offset]
    omega

/-- The positions of block `i`. -/
def span (bs : List (List α)) (left i : ℕ) : Finset ℕ :=
  Finset.Ico (left + offset bs i) (left + offset bs (i + 1))

theorem span_eq {b : List α} (h : bs[i]? = some b) (left : ℕ) :
    span bs left i = Finset.Ico (left + offset bs i) (left + offset bs i + b.length) := by
  rw [span, offset_succ h, Nat.add_assoc]

theorem disjoint_span (hij : i ≠ j) : Disjoint (span bs left i) (span bs left j) := by
  refine Finset.disjoint_left.2 fun p hi hj ↦ ?_
  rw [span, Finset.mem_Ico] at hi hj
  rcases Nat.lt_or_gt_of_ne hij with hlt | hlt
  · have := offset_mono bs (show i + 1 ≤ j from hlt)
    omega
  · have := offset_mono bs (show j + 1 ≤ i from hlt)
    omega

/-- The spans of all blocks fill the range of the list. -/
theorem biUnion_span (bs : List (List α)) (left : ℕ) : ∀ n,
    (Finset.range n).biUnion (span bs left) = Finset.Ico left (left + offset bs n)
  | 0 => by simp
  | n + 1 => by
    rw [Finset.range_add_one, Finset.biUnion_insert, biUnion_span bs left n, span]
    ext p
    have := offset_le_succ bs n
    simp only [Finset.mem_union, Finset.mem_Ico]
    omega

end Blocks
