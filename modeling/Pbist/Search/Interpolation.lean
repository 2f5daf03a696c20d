import Pbist.Search.Borders
import Pbist.Source.Node
import Mathlib.Algebra.Order.Field.Rat
import Mathlib.Data.Rat.Cast.Order
import Mathlib.Data.Int.Interval
import Mathlib.Tactic.Linarith
import Mathlib.Tactic.FieldSimp

/-!
# Interpolation search and its index

Whatever the entry of `id` that interpolation search starts from, it returns what binary search
returns, as long as the entry is an index of the array (`interpolationSearch_eq_of_guess`).

`Arith.ExactOn W` says that the arithmetic of the keys is exact for keys in `W`. For `int32_t` this
holds in every window of width at most `2 ^ 31 - 1` (`int32_exactOn`), and in no wider one: there
`max - min` is negative after wrapping around. Under it, the position of a search key between the
first and the last key is a proper fraction, and the index built by `build_id` has only indices of
the array as entries, so the guess is always usable (`interpolationSearch_builtId`).

The three results are used separately. The first needs no arithmetic, the second is about `int32_t`
alone, and the third needs both the order of the keys and exact doubles. What holds with rounded
doubles is in the module after this one that is named for it.
-/

namespace Pbist

open Checked Sorted

variable {T : Type} [LinearOrder T] {A : Arith T} {keys : List T} {searchKey : T}

/-! ### From a usable guess -/

/-- The inner case of interpolation search is decided by the guess. -/
theorem interpolationSearch_inner (hne : keys ≠ []) {id : List ℕ}
    (hfirst : keys.head hne < searchKey) (hlast : searchKey < keys.getLast hne) :
    interpolationSearch A keys searchKey id = (do
      let guess ← lookupGuess A keys searchKey id
      let (leftBorder, rightBorder) ← findBorders A.overflow keys searchKey guess
      doBinarySearch keys searchKey leftBorder rightBorder) := by
  have hlen : 0 < keys.length := List.length_pos_iff.2 hne
  rw [List.head_eq_getElem] at hfirst
  rw [List.getLast_eq_getElem] at hlast
  have hone : 1 < keys.length := by
    by_contra hcon
    have hzero : keys.length - 1 = 0 := by omega
    simp only [hzero] at hlast
    exact lt_asymm hfirst hlast
  rw [interpolationSearch, require_of (Nat.succ_le_of_lt hlen), ok_bind, get_of_lt hlen, ok_bind,
    if_neg (ne_of_gt hfirst), if_neg (lt_asymm hfirst), subtract_of_le (Nat.succ_le_of_lt hlen),
    ok_bind, get_of_lt (by omega), ok_bind, if_neg (lt_asymm hlast), if_neg (ne_of_lt hlast),
    require_of hone, ok_bind]

/-- Outside the inner case no guess is made. -/
theorem interpolationSearch_outer (h : keys.SortedLT) (hne : keys ≠ []) {id : List ℕ}
    (houter : searchKey ≤ keys.head hne ∨ keys.getLast hne ≤ searchKey) :
    interpolationSearch A keys searchKey id =
      .ok (rank keys searchKey, decide (searchKey ∈ keys)) := by
  have hlen : 0 < keys.length := List.length_pos_iff.2 hne
  rw [List.head_eq_getElem, List.getLast_eq_getElem] at houter
  have hlast : keys.length - 1 < keys.length := by omega
  rw [interpolationSearch, require_of (Nat.succ_le_of_lt hlen), ok_bind, get_of_lt hlen, ok_bind]
  by_cases heq : searchKey = keys[0]
  · have hrank : rank keys searchKey = 0 := heq ▸ rank_getElem h hlen
    have hmem : searchKey ∈ keys := heq ▸ List.getElem_mem hlen
    rw [if_pos heq, hrank, decide_eq_true hmem, pure_eq_ok]
  rw [if_neg heq]
  by_cases hlt : searchKey < keys[0]
  · obtain ⟨hrank, hmem⟩ := rank_of_lt_first h hlen hlt
    rw [if_pos hlt, hrank, decide_eq_false hmem, pure_eq_ok]
  rw [if_neg hlt, subtract_of_le (Nat.succ_le_of_lt hlen), ok_bind, get_of_lt hlast, ok_bind]
  have hge : keys[keys.length - 1] ≤ searchKey := by
    refine houter.resolve_left fun hcon ↦ ?_
    exact (hcon.lt_or_eq).elim hlt heq
  rcases hge.lt_or_eq with hgt | hgt
  · obtain ⟨hrank, hmem⟩ := rank_of_last_lt h hlast (Nat.sub_add_cancel hlen) hgt
    rw [if_pos hgt, hrank, decide_eq_false hmem, pure_eq_ok]
  · have hrank : rank keys searchKey = keys.length - 1 := hgt ▸ rank_getElem h hlast
    have hmem : searchKey ∈ keys := hgt ▸ List.getElem_mem hlast
    rw [if_neg hgt.ge.not_gt, if_pos hgt.symm, hrank, decide_eq_true hmem, pure_eq_ok]

/-- **Interpolation search agrees with binary search** from every guess that is an index of the
array, whatever the arithmetic that computed the guess. -/
theorem interpolationSearch_eq_of_guess (h : keys.SortedLT) (hne : keys ≠ [])
    (hsize : keys.length ≤ 2 ^ 63) {id : List ℕ}
    (hguess : keys.head hne < searchKey → searchKey < keys.getLast hne →
      ∃ guess < keys.length, lookupGuess A keys searchKey id = .ok guess) :
    interpolationSearch A keys searchKey id =
      .ok (rank keys searchKey, decide (searchKey ∈ keys)) := by
  by_cases houter : searchKey ≤ keys.head hne ∨ keys.getLast hne ≤ searchKey
  · exact interpolationSearch_outer h hne houter
  obtain ⟨hfirst, hlast⟩ : keys.head hne < searchKey ∧ searchKey < keys.getLast hne := by
    simpa only [not_or, not_le] using houter
  obtain ⟨guess, hlt, hlookup⟩ := hguess hfirst hlast
  have hlen : 0 < keys.length := List.length_pos_iff.2 hne
  have hpos : 0 < rank keys searchKey :=
    (lt_rank_iff h hlen).2 (List.head_eq_getElem hne ▸ hfirst)
  have hrank : rank keys searchKey ≤ keys.length - 1 :=
    (rank_le_iff h (by omega)).2 (List.getLast_eq_getElem hne ▸ hlast).le
  obtain ⟨l, r, hborders, hl, hr, hrlen⟩ := findBorders_spec h hsize hpos (by omega) hlt
  rw [interpolationSearch_inner hne hfirst hlast, hlookup, ok_bind, hborders, ok_bind]
  exact doBinarySearch_eq h hl hr hrlen

/-! ### Exact arithmetic -/

/-- Doubles are exact, and ordered as the keys are. -/
structure Arith.Exact (A : Arith T) : Prop where
  round_eq : ∀ q, A.round q = q
  strictMono : StrictMono A.toDouble

/-- The arithmetic is exact for the keys in `W`: their differences do not overflow, and an array of
them is short enough for the 64-bit arithmetic on its indices. -/
structure Arith.ExactOn (A : Arith T) (W : Set T) : Prop extends Arith.Exact A where
  minus_eq : ∀ a ∈ W, ∀ b ∈ W, a < b → A.minus b a = .ok (A.toDouble b - A.toDouble a)
  length_le : ∀ l : List T, l.SortedLT → (∀ x ∈ l, x ∈ W) → l.length ≤ 2 ^ 63

theorem int32_exact (ov : Overflow) : (int32 ov).Exact where
  round_eq _ := rfl
  strictMono a b h := by
    have hlt : a.1 < b.1 := h
    exact Int.cast_lt.2 hlt

/-- A strictly increasing array of `int32_t` has at most `2 ^ 32` entries. -/
theorem length_le_of_sortedLT {l : List I32} (h : l.SortedLT) : l.length ≤ 2 ^ 32 := by
  have hnodup : (l.map Subtype.val).Nodup := h.nodup.map Subtype.val_injective
  have hsub : (l.map Subtype.val).toFinset ⊆ Finset.Ico (-2 ^ 31) (2 ^ 31) := by
    intro z hz
    obtain ⟨k, -, rfl⟩ := List.mem_map.1 (List.mem_toFinset.1 hz)
    exact Finset.mem_Ico.2 k.2
  calc l.length = (l.map Subtype.val).toFinset.card := by
        rw [List.toFinset_card_of_nodup hnodup, List.length_map]
    _ ≤ (Finset.Ico (-2 ^ 31 : ℤ) (2 ^ 31)).card := Finset.card_le_card hsub
    _ = 2 ^ 32 := by rw [Int.card_Ico]; rfl

/-- The `int32_t` keys between `lo` and `hi`. -/
def window (lo hi : ℤ) : Set I32 :=
  {k | lo ≤ k.1 ∧ k.1 ≤ hi}

/-- The key `n`, for `n < 100`. -/
def I32.small (n : ℕ) : I32 :=
  ⟨(n % 100 : ℕ), by omega⟩

/-- **Where `int32_t` arithmetic is exact**: the keys lie in a window of width at most
`2 ^ 31 - 1`. -/
theorem int32_exactOn (ov : Overflow) {lo hi : ℤ} (hwidth : hi - lo ≤ 2 ^ 31 - 1) :
    (int32 ov).ExactOn (window lo hi) where
  toExact := int32_exact ov
  minus_eq a ha b hb hab := by
    have hlt : a.1 < b.1 := hab
    have hlo := ha.1
    have hhi := hb.2
    have hrange : -2 ^ 31 ≤ b.1 - a.1 ∧ b.1 - a.1 < 2 ^ 31 := by omega
    show I32.minus ov b a = .ok ((b.1 : ℚ) - (a.1 : ℚ))
    rw [I32.minus.eq_def, if_pos hrange, Int.cast_sub]
  length_le l hl _ := (length_le_of_sortedLT hl).trans (by norm_num)

/-! ### The guess -/

/-- The slot of `id` for a position `frac` strictly between 0 and 1. -/
theorem floor_mul_lt {frac : ℚ} {n : ℕ} (hpos : 0 < frac) (hlt : frac < 1) (hn : 0 < n) :
    ⌊frac * n⌋.toNat < n := by
  have hn' : (0 : ℚ) < n := by exact_mod_cast hn
  have hfloor : ⌊frac * n⌋ < (n : ℤ) :=
    Int.floor_lt.2 (by rw [Int.cast_natCast]; nlinarith)
  have hnonneg : 0 ≤ ⌊frac * n⌋ := Int.floor_nonneg.2 (by positivity)
  omega

/-- The position of `searchKey` between the first and the last key. -/
def fraction (A : Arith T) (first last searchKey : T) : ℚ :=
  (A.toDouble searchKey - A.toDouble first) / (A.toDouble last - A.toDouble first)

theorem fraction_pos_lt_one (hA : A.Exact) {first last : T} (hfirst : first < searchKey)
    (hlast : searchKey < last) :
    0 < fraction A first last searchKey ∧ fraction A first last searchKey < 1 := by
  have h1 := hA.strictMono hfirst
  have h2 := hA.strictMono hlast
  have hwidth : 0 < A.toDouble last - A.toDouble first := by linarith
  exact ⟨div_pos (by linarith) hwidth, (div_lt_one hwidth).2 (by linarith)⟩

/-- With exact arithmetic the guess is the entry of `id` at the scaled position of the key. -/
theorem lookupGuess_eq (hA : A.Exact) (hlen : 0 < keys.length)
    (hminus : A.minus keys[keys.length - 1] keys[0] =
      .ok (A.toDouble keys[keys.length - 1] - A.toDouble keys[0]))
    {id : List ℕ} (hid : 0 < id.length) (hid' : id.length < 2 ^ 64)
    (hfirst : keys[0] < searchKey) (hlast : searchKey < keys[keys.length - 1]) :
    ∃ j, ∃ hj : j < id.length,
      j = ⌊fraction A keys[0] keys[keys.length - 1] searchKey * id.length⌋.toNat ∧
      lookupGuess A keys searchKey id = .ok id[j] := by
  obtain ⟨hpos, hlt⟩ := fraction_pos_lt_one hA hfirst hlast
  have hj := floor_mul_lt hpos hlt hid
  refine ⟨_, hj, rfl, ?_⟩
  have hcast : toU64 (fraction A keys[0] keys[keys.length - 1] searchKey * id.length) =
      .ok ⌊fraction A keys[0] keys[keys.length - 1] searchKey * id.length⌋.toNat := by
    have hn : (id.length : ℚ) < 2 ^ 64 := by exact_mod_cast hid'
    have hn0 : (0 : ℚ) ≤ id.length := Nat.cast_nonneg _
    refine if_pos ⟨by nlinarith, lt_of_le_of_lt ?_ hn⟩
    exact mul_le_of_le_one_left hn0 hlt.le
  rw [lookupGuess, get_of_lt hlen, ok_bind, subtract_of_le (Nat.succ_le_of_lt hlen), ok_bind,
    get_of_lt (show keys.length - 1 < keys.length by omega), ok_bind, hminus, ok_bind]
  simp only [hA.round_eq]
  rw [show (A.toDouble searchKey - A.toDouble keys[0]) /
      (A.toDouble keys[keys.length - 1] - A.toDouble keys[0]) =
        fraction A keys[0] keys[keys.length - 1] searchKey from rfl,
    require_of ⟨hpos, hlt⟩, ok_bind, hcast, ok_bind, require_of hj, ok_bind, get_of_lt hj]

/-! ### The index -/

/-- The `i`-th of `idSize` equidistant positions between the first and the last key. -/
def idPosition (A : Arith T) (first last : T) (idSize i : ℕ) : ℚ :=
  A.toDouble first + (A.toDouble last - A.toDouble first) * i / idSize

/-- The index that `build_id` computes with exact doubles. -/
def builtId (A : Arith T) (keys : List T) (idSize : ℕ) : List ℕ :=
  match keys.head?, keys.getLast? with
  | some first, some last =>
    (List.range idSize).map fun i ↦ lowerBound A keys (idPosition A first last idSize i)
  | _, _ => []

omit [LinearOrder T] in
theorem builtId_eq (hne : keys ≠ []) (idSize : ℕ) :
    builtId A keys idSize = (List.range idSize).map fun i ↦
      lowerBound A keys (idPosition A (keys.head hne) (keys.getLast hne) idSize i) := by
  rw [builtId, List.head?_eq_some_head hne, List.getLast?_eq_some_getLast hne]

omit [LinearOrder T] in
theorem length_builtId (hlen : 0 < keys.length) (idSize : ℕ) :
    (builtId A keys idSize).length = idSize := by
  rw [builtId_eq (List.ne_nil_of_length_pos hlen), List.length_map, List.length_range]

omit [LinearOrder T] in
/-- A position that is not behind all keys has a lower bound in the array. -/
theorem lowerBound_lt {last : T} (hmem : last ∈ keys) {frac : ℚ}
    (hfrac : frac ≤ A.toDouble last) : lowerBound A keys frac < keys.length :=
  List.findIdx_lt_length_of_exists ⟨last, hmem, decide_eq_true (not_lt.2 hfrac)⟩

theorem idPosition_le_last (hA : A.Exact) (h : keys.SortedLT) (hlen : 0 < keys.length)
    {idSize i : ℕ} (hi : i < idSize) :
    idPosition A keys[0] keys[keys.length - 1] idSize i ≤ A.toDouble keys[keys.length - 1] := by
  have hle : A.toDouble keys[0] ≤ A.toDouble keys[keys.length - 1] :=
    hA.strictMono.monotone (h.getElem_le_getElem_iff.2 (Nat.zero_le _))
  have hi' : (i : ℚ) ≤ idSize := by exact_mod_cast hi.le
  have hpos : (0 : ℚ) < idSize := by exact_mod_cast Nat.zero_lt_of_lt hi
  have hpart : (A.toDouble keys[keys.length - 1] - A.toDouble keys[0]) * i / idSize ≤
      A.toDouble keys[keys.length - 1] - A.toDouble keys[0] := by
    rw [div_le_iff₀ hpos]
    exact mul_le_mul_of_nonneg_left hi' (by linarith)
  rw [idPosition]
  linarith

/-- `build_id` succeeds, and its entries are indices of the array. -/
theorem buildId_eq (hA : A.Exact) (h : keys.SortedLT) (hlen : 0 < keys.length) (idSize : ℕ) :
    buildId A keys idSize = .ok (builtId A keys idSize) ∧
      ∀ j ∈ builtId A keys idSize, j < keys.length := by
  have hlt : ∀ i < idSize,
      lowerBound A keys (idPosition A keys[0] keys[keys.length - 1] idSize i) < keys.length :=
    fun i hi ↦ lowerBound_lt (List.getElem_mem _) (idPosition_le_last hA h hlen hi)
  rw [builtId_eq (List.ne_nil_of_length_pos hlen), List.head_eq_getElem, List.getLast_eq_getElem]
  constructor
  · rw [buildId, require_of (Nat.succ_le_of_lt hlen), ok_bind, get_of_lt hlen, ok_bind,
      subtract_of_le (Nat.succ_le_of_lt hlen), ok_bind, get_of_lt (by omega), ok_bind]
    refine tabulate_of_ok fun i hi ↦ ?_
    simp only [hA.round_eq]
    rw [show A.toDouble keys[0] + (A.toDouble keys[keys.length - 1] - A.toDouble keys[0]) * i /
        idSize = idPosition A keys[0] keys[keys.length - 1] idSize i from rfl,
      require_of (hlt i hi).ne, ok_bind, pure_eq_ok]
  · intro j hj
    obtain ⟨i, hi, rfl⟩ := List.mem_map.1 hj
    exact hlt i (List.mem_range.1 hi)

/-- Interpolation search with any index whose entries are indices of the array. -/
theorem interpolationSearch_of_entries {W : Set T} (hA : A.ExactOn W) (h : keys.SortedLT)
    (hlen : 0 < keys.length) (hkeys : ∀ x ∈ keys, x ∈ W) {id : List ℕ} (hid : 0 < id.length)
    (hid' : id.length < 2 ^ 64) (hentries : ∀ j ∈ id, j < keys.length) :
    interpolationSearch A keys searchKey id =
      .ok (rank keys searchKey, decide (searchKey ∈ keys)) := by
  refine interpolationSearch_eq_of_guess h (List.ne_nil_of_length_pos hlen)
    (hA.length_le keys h hkeys) fun hfirst hlast ↦ ?_
  rw [List.head_eq_getElem] at hfirst
  rw [List.getLast_eq_getElem] at hlast
  have hminus := hA.minus_eq _ (hkeys _ (List.getElem_mem _)) _ (hkeys _ (List.getElem_mem _))
    (hfirst.trans hlast)
  obtain ⟨j, hj, -, hlookup⟩ := lookupGuess_eq hA.toExact hlen hminus hid hid' hfirst hlast
  exact ⟨_, hentries _ (List.getElem_mem hj), hlookup⟩

/-- Interpolation search with the index of `build_id`. -/
theorem interpolationSearch_builtId {W : Set T} (hA : A.ExactOn W) (h : keys.SortedLT)
    (hlen : 0 < keys.length) (hkeys : ∀ x ∈ keys, x ∈ W) {idSize : ℕ} (hid : 0 < idSize)
    (hid' : idSize < 2 ^ 64) :
    interpolationSearch A keys searchKey (builtId A keys idSize) =
      .ok (rank keys searchKey, decide (searchKey ∈ keys)) := by
  have hlength := length_builtId (A := A) hlen idSize
  exact interpolationSearch_of_entries hA h hlen hkeys (by rwa [hlength]) (by rwa [hlength])
    (buildId_eq hA.toExact h hlen idSize).2

end Pbist
