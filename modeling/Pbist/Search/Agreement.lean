import Pbist.Search.Interpolation

/-!
# Interpolation search against binary search

The two results about searching. The first is about the searches on their own: from every initial
guess, in 64-bit arithmetic that never wraps around, galloping brackets the key and bisection
finishes with the answer of binary search. The second is about the whole index scheme on `int32_t`
keys: `max - min` is computed in the key type, so the scheme works exactly when that difference does
not overflow or is not needed.

## The two results, and what each rests on

* `search_correct` rests on the invariants of the two loops, `cur_left < rank ≤ cur_right` for the
  bisection and for the borders that galloping finds (`findBorders_spec`). The guess is arbitrary,
  so nothing about doubles or the index is used.
* `interpolationAgrees_iff` uses the first for the guess that the index gives. Its condition is on
  the keys alone; where it fails, the fraction is negative after wrapping around, and the assertion
  of the code stops the search.
-/

namespace Pbist

open Checked Sorted

section Search

variable {T : Type} [LinearOrder T] {keys : List T}

/-- **The searches are correct whatever the initial guess.** Binary search returns the number of
smaller keys and whether the key is present. From every guess inside the array, galloping ends
without wrapping around (so it computes the same whether wrapping is silent or trapped) with borders
that bracket the key, and bisection between them returns what binary search returns. So does
interpolation search, whatever its arithmetic and its index, if the entry that it looks up is inside
the array. -/
theorem search_correct (h : keys.SortedLT) (hne : keys ≠ []) :
    (∀ k, binarySearch keys k = .ok (keys.countP (· < k), decide (k ∈ keys))) ∧
    (keys.length ≤ 2 ^ 63 → ∀ k, keys.head hne < k → k < keys.getLast hne →
      ∀ guess < keys.length, ∃ l r, ∃ (_ : l < r) (_ : r < keys.length),
        (∀ ov, findBorders ov keys k guess = .ok (l, r)) ∧ keys[l] < k ∧ k ≤ keys[r] ∧
        doBinarySearch keys k l r = binarySearch keys k) ∧
    (keys.length ≤ 2 ^ 63 → ∀ (A : Arith T) k id,
      (keys.head hne < k → k < keys.getLast hne →
        ∃ guess < keys.length, lookupGuess A keys k id = .ok guess) →
      interpolationSearch A keys k id = binarySearch keys k) := by
  have hlen : 0 < keys.length := List.length_pos_iff.2 hne
  have hbinary := binarySearch_eq h hne
  refine ⟨hbinary, fun hsize k hfirst hlast guess hguess ↦ ?_, fun hsize A k id hlookup ↦ ?_⟩
  · rw [List.head_eq_getElem] at hfirst
    rw [List.getLast_eq_getElem] at hlast
    have hpos : 0 < rank keys k := (lt_rank_iff h hlen).2 hfirst
    have hrank : rank keys k ≤ keys.length - 1 := (rank_le_iff h (by omega)).2 hlast.le
    obtain ⟨l, r, hborders, hl, hr, hrlen⟩ := findBorders_spec h hsize hpos (by omega) hguess
    refine ⟨l, r, by omega, hrlen, hborders, (lt_rank_iff h _).1 hl, (rank_le_iff h hrlen).1 hr, ?_⟩
    rw [hbinary, doBinarySearch_eq h hl hr hrlen]
  · rw [hbinary]
    exact interpolationSearch_eq_of_guess h hne hsize hlookup

/-- Searching 5 in an array of three keys, from the guess 2 and with an index of two entries. -/
theorem search_correct_three :
    binarySearch [1, 4, 9] 5 = .ok (2, false) ∧
    (∃ l r, (∀ ov, findBorders ov [1, 4, 9] 5 2 = .ok (l, r)) ∧
      doBinarySearch [1, 4, 9] 5 l r = binarySearch [1, 4, 9] 5) ∧
    interpolationSearch ⟨fun n : ℕ ↦ (n : ℚ), fun a b ↦ .ok ((a : ℚ) - b), id, .wrapping⟩
      [1, 4, 9] 5 [0, 1] = binarySearch [1, 4, 9] 5 := by
  have h : [1, 4, 9].SortedLT := by decide
  obtain ⟨hbinary, hborders, hinterpolation⟩ := search_correct h (by decide)
  refine ⟨hbinary 5, ?_, hinterpolation (by decide) _ 5 [0, 1] fun _ _ ↦ ⟨1, by decide, ?_⟩⟩
  · obtain ⟨l, r, -, -, hrun, -, -, heq⟩ :=
      hborders (by decide) 5 (by decide) (by decide) 2 (by decide)
    exact ⟨l, r, hrun, heq⟩
  · norm_num [lookupGuess, Checked.get, subtract, require, toU64]

end Search

section Int32

variable {keys : List I32} {searchKey : I32}

/-- The index scheme works for a key: `build_id` succeeds, and interpolation search with its index
passes all its assertions, stays inside its arrays and returns what binary search returns. -/
def InterpolationAgrees (ov : Overflow) (keys : List I32) (searchKey : I32) (idSize : ℕ) : Prop :=
  ∃ id answer, buildId (int32 ov) keys idSize = .ok id ∧
    interpolationSearch (int32 ov) keys searchKey id = .ok answer ∧
    binarySearch keys searchKey = .ok answer

/-- On keys more than `2 ^ 31 - 1` apart, `max - min` stops the run or is negative. -/
theorem minus_of_wide (ov : Overflow) {a b : I32} (h : 2 ^ 31 ≤ b.1 - a.1) :
    (∃ e, (int32 ov).minus b a = .error e) ∨
      ∃ width < 0, (int32 ov).minus b a = .ok width := by
  have ha := a.2
  have hb := b.2
  have hout : ¬(-2 ^ 31 ≤ b.1 - a.1 ∧ b.1 - a.1 < 2 ^ 31) := by omega
  cases ov with
  | trapping =>
    left
    refine ⟨.overflow, ?_⟩
    show I32.minus .trapping b a = _
    rw [I32.minus.eq_def, if_neg hout]
  | wrapping =>
    right
    refine ⟨((Int.bmod (b.1 - a.1) (2 ^ 32) : ℤ) : ℚ), ?_, ?_⟩
    · have hneg : Int.bmod (b.1 - a.1) (2 ^ 32) < 0 := by
        rw [Int.bmod_def]
        split <;> omega
      exact_mod_cast hneg
    · show I32.minus .wrapping b a = _
      rw [I32.minus.eq_def, if_neg hout]

/-- A search key between two keys that are too far apart makes interpolation search fail, whatever
the index is. -/
theorem interpolationSearch_ne_ok (ov : Overflow) (hne : keys ≠ [])
    (hfirst : keys.head hne < searchKey) (hlast : searchKey < keys.getLast hne)
    (hwide : 2 ^ 31 ≤ (keys.getLast hne).1 - (keys.head hne).1) (id : List ℕ) (answer : ℕ × Bool) :
    interpolationSearch (int32 ov) keys searchKey id ≠ .ok answer := by
  intro hsearch
  have hlen : 0 < keys.length := List.length_pos_iff.2 hne
  rw [interpolationSearch_inner hne hfirst hlast, bind_eq_ok] at hsearch
  rw [List.head_eq_getElem] at hfirst hwide
  rw [List.getLast_eq_getElem] at hlast hwide
  obtain ⟨guess, hguess, -⟩ := hsearch
  rw [lookupGuess, get_of_lt hlen, ok_bind, subtract_of_le (Nat.succ_le_of_lt hlen), ok_bind,
    get_of_lt (by omega), ok_bind] at hguess
  rcases minus_of_wide ov hwide with ⟨e, hminus⟩ | ⟨width, hneg, hminus⟩
  · rw [hminus, error_bind] at hguess
    exact absurd hguess (by simp)
  · -- the position of the key is a positive distance over a negative width
    rw [hminus, ok_bind, bind_eq_ok] at hguess
    obtain ⟨_, hassert, -⟩ := hguess
    have hdist : 0 < (int32 ov).toDouble searchKey - (int32 ov).toDouble keys[0] :=
      sub_pos.2 ((int32_exact ov).strictMono hfirst)
    exact lt_asymm (require_eq_ok.1 hassert).1 (div_neg_of_pos_of_neg hdist hneg)

theorem not_interpolationAgrees (ov : Overflow) (hne : keys ≠ [])
    (hfirst : keys.head hne < searchKey) (hlast : searchKey < keys.getLast hne)
    (hwide : 2 ^ 31 ≤ (keys.getLast hne).1 - (keys.head hne).1) (idSize : ℕ) :
    ¬InterpolationAgrees ov keys searchKey idSize := fun ⟨id, answer, _, hsearch, _⟩ ↦
  interpolationSearch_ne_ok ov hne hfirst hlast hwide id answer hsearch

/-- **The index scheme works exactly when `max - min` is not needed or does not overflow**: the
search key is not strictly between the first and the last key, or these are at most `2 ^ 31 - 1`
apart. -/
theorem interpolationAgrees_iff (ov : Overflow) (h : keys.SortedLT) (hne : keys ≠ []) {idSize : ℕ}
    (hid : 1 ≤ idSize) (hid' : idSize < 2 ^ 64) :
    InterpolationAgrees ov keys searchKey idSize ↔
      searchKey ≤ keys.head hne ∨ keys.getLast hne ≤ searchKey ∨
        (keys.getLast hne).1 - (keys.head hne).1 ≤ 2 ^ 31 - 1 := by
  have hlen : 0 < keys.length := List.length_pos_iff.2 hne
  have hbuild := (buildId_eq (int32_exact ov) h hlen idSize).1
  constructor
  · intro hagrees
    by_contra hcon
    simp only [not_or, not_le] at hcon
    obtain ⟨hfirst, hlast, hwide⟩ := hcon
    exact not_interpolationAgrees ov hne hfirst hlast (by omega) idSize hagrees
  · intro hcond
    refine ⟨_, _, hbuild, ?_, binarySearch_eq h hne searchKey⟩
    rcases hcond with houter | houter | hwidth
    · exact interpolationSearch_outer h hne (.inl houter)
    · exact interpolationSearch_outer h hne (.inr houter)
    · refine interpolationSearch_builtId (int32_exactOn ov hwidth) h hlen ?_ hid hid'
      intro x hx
      obtain ⟨i, hi, rfl⟩ := List.getElem_of_mem hx
      rw [List.head_eq_getElem, List.getLast_eq_getElem]
      exact ⟨h.getElem_le_getElem_iff.2 (Nat.zero_le i), h.getElem_le_getElem_iff.2 (by omega)⟩

/-- The smallest and the largest `int32_t` with a key between them. -/
def extremeKeys : List I32 :=
  [⟨-2 ^ 31, by decide⟩, ⟨0, by decide⟩, ⟨2 ^ 31 - 1, by decide⟩]

/-- The condition decides for these keys: searching the smallest one works. -/
theorem interpolationAgrees_iff_extreme :
    InterpolationAgrees .wrapping extremeKeys ⟨-2 ^ 31, by decide⟩ 3 :=
  (interpolationAgrees_iff .wrapping (by decide) (by decide) (by decide) (by decide)).2
    (.inl (by decide))

/-- Searching 1 between them does not work, whatever overflow does. -/
theorem interpolation_fails_on_extremeKeys :
    ¬InterpolationAgrees .wrapping extremeKeys ⟨1, by decide⟩ 3 ∧
      ¬InterpolationAgrees .trapping extremeKeys ⟨1, by decide⟩ 3 :=
  ⟨not_interpolationAgrees _ (by decide) (by decide) (by decide) (by decide) 3,
    not_interpolationAgrees _ (by decide) (by decide) (by decide) (by decide) 3⟩

end Int32

end Pbist
