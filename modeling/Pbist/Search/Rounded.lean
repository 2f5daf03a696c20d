import Pbist.Library.Rounding
import Pbist.Search.Adequate

/-!
# Rounded doubles are good enough

For `int32_t` keys in a window of width at most `2 ^ 31 - 1` the searches, `build_id` and the block
size do what they are made for with every rounding of doubles to 53 bits, and so with the exact
doubles that most of this development uses.

`rounding_is_harmless` is the result for users. It rests on `Rounding.mul_lt` for the slot of a
search key, which rounding cannot push to the size of the index, on `Rounding.mul_le_mul` for the
positions of the index, which rounding cannot push behind the last key, and on
`SqrtRounding.floor_eq` for the block size. `int32Rounded_adequateOn` collects the same facts in the
form that the programs in memory need.
-/

namespace Pbist

open Checked Sorted

/-- `int32_t` keys, with the given rounding of doubles. -/
def int32Rounded (ov : Overflow) (round sqrt : ℚ → ℚ) : Doubles I32 :=
  { int32 ov with round, sqrt }

/-- `int32_t` keys and binary64 doubles, rounded to the nearest double. -/
def int32Double (ov : Overflow) : Doubles I32 :=
  int32Rounded ov (roundNearest 53) (sqrtNearest 53)

/-- A window has no more keys than its width allows. -/
theorem length_le_of_window {lo hi : ℤ} (hwidth : hi - lo ≤ 2 ^ 31 - 1) {l : List I32}
    (h : l.SortedLT) (hmem : ∀ x ∈ l, x ∈ window lo hi) : l.length ≤ 2 ^ 31 := by
  have hnodup : (l.map Subtype.val).Nodup := h.nodup.map Subtype.val_injective
  have hsub : (l.map Subtype.val).toFinset ⊆ Finset.Icc lo hi := by
    intro z hz
    obtain ⟨k, hk, rfl⟩ := List.mem_map.1 (List.mem_toFinset.1 hz)
    exact Finset.mem_Icc.2 (hmem k hk)
  calc l.length = (l.map Subtype.val).toFinset.card := by
        rw [List.toFinset_card_of_nodup hnodup, List.length_map]
    _ ≤ (Finset.Icc lo hi).card := Finset.card_le_card hsub
    _ = (hi + 1 - lo).toNat := Int.card_Icc lo hi
    _ ≤ 2 ^ 31 := by omega

/-- `int32_t` values and their differences are doubles. -/
theorem representable_of_lt {z : ℤ} (h : -2 ^ 33 ≤ z) (h' : z ≤ 2 ^ 33) :
    Representable 53 (z : ℚ) :=
  .int (abs_le.2 ⟨by omega, by omega⟩)

section Rounded

variable {ov : Overflow} {round sqrt : ℚ → ℚ} {keys : List I32} {lo hi : ℤ}

/-- No position of `build_id` is rounded over the last key. -/
theorem round_position_le (h : Rounding 53 round) {first last : I32} {n i : ℕ}
    (hle : first.1 ≤ last.1) (hn : n ≤ 2 ^ 31) (hi : i < n) :
    round (first.1 + round (round (round (last.1 - first.1) * round i) / round n)) ≤
      (last.1 : ℚ) := by
  obtain ⟨r, hr⟩ := Int.eq_ofNat_of_zero_le (sub_nonneg.2 hle)
  have hrange : (last.1 : ℚ) - first.1 = r := by exact_mod_cast congrArg (Int.cast (R := ℚ)) hr
  have hn' : (0 : ℚ) < n := by exact_mod_cast Nat.zero_lt_of_lt hi
  rw [hrange, h.eq_self _ (.nat (by omega)), h.eq_self _ (.nat (by omega)),
    h.eq_self n (.nat (by omega))]
  have hproduct : round (r * i : ℚ) / n ≤ r := by
    rw [div_le_iff₀ hn']
    exact h.mul_le_mul hi (by omega)
  have hquotient := h.round_le (.nat (by omega)) hproduct
  refine h.round_le (representable_of_lt (by omega) (by omega)) ?_
  linarith

/-- The position of a key between the first and the last one stays a proper fraction, and its
multiple of the size of the index stays below the size. -/
theorem round_slot_lt (h : Rounding 53 round) {first last key : I32} {m : ℕ}
    (hfirst : first.1 < key.1) (hlast : key.1 < last.1) (hwidth : last.1 - first.1 < 2 ^ 31)
    (hm : 0 < m) (hm' : m ≤ 2 ^ 31) :
    (0 < round (round (key.1 - first.1) / (last.1 - first.1 : ℤ)) ∧
      round (round (key.1 - first.1) / (last.1 - first.1 : ℤ)) < 1) ∧
    0 ≤ round (round (round (key.1 - first.1) / (last.1 - first.1 : ℤ)) * round m) ∧
      round (round (round (key.1 - first.1) / (last.1 - first.1 : ℤ)) * round m) < m := by
  have hdiff : round (key.1 - first.1) = ((key.1 - first.1 : ℤ) : ℚ) := by
    rw [← Int.cast_sub]
    exact h.eq_self _ (representable_of_lt (by omega) (by omega))
  rw [hdiff, h.eq_self m (.nat (by omega))]
  have hpos : (0 : ℚ) < (last.1 - first.1 : ℤ) := by exact_mod_cast sub_pos.2 (hfirst.trans hlast)
  have hkey : (0 : ℚ) < (key.1 - first.1 : ℤ) := by exact_mod_cast sub_pos.2 hfirst
  have hfraction : ((key.1 - first.1 : ℤ) : ℚ) / (last.1 - first.1 : ℤ) ≤ 1 - 1 / 2 ^ 31 := by
    have hstep : ((key.1 - first.1 : ℤ) : ℚ) + 1 ≤ (last.1 - first.1 : ℤ) := by
      exact_mod_cast (by omega : key.1 - first.1 + 1 ≤ last.1 - first.1)
    have hlt : ((last.1 - first.1 : ℤ) : ℚ) ≤ 2 ^ 31 := by exact_mod_cast hwidth.le
    rw [div_le_iff₀ hpos]
    linarith
  have hle := h.round_le_one_sub (b := 31) (by decide) hfraction
  have hone : (0 : ℚ) < 1 / 2 ^ 31 := by positivity
  have hround := h.round_pos (div_pos hkey hpos)
  refine ⟨⟨hround, by linarith⟩, h.round_nonneg (by positivity), ?_⟩
  exact h.mul_lt (b := 31) (by decide) hle hm hm'

/-- The entries of the index that `build_id` computes. -/
def roundedEntry (round : ℚ → ℚ) (keys : List I32) (first last : I32) (idSize i : ℕ) : ℕ :=
  lowerBound (int32 .wrapping) keys
    (round (first.1 + round (round (round (last.1 - first.1) * round i) / round idSize)))

/-- `build_id` with rounded doubles. -/
theorem buildId_int32Rounded (h : Rounding 53 round) (hkeys : keys.SortedLT) (hne : keys ≠ [])
    {idSize : ℕ} (hid : idSize ≤ 2 ^ 31) :
    ∃ id, buildId (int32Rounded ov round sqrt).toArith keys idSize = .ok id ∧
      id.length = idSize ∧ ∀ j ∈ id, j < keys.length := by
  have hpos : 0 < keys.length := List.length_pos_iff.2 hne
  have hle : keys[0].1 ≤ keys[keys.length - 1].1 :=
    hkeys.getElem_le_getElem_iff.2 (Nat.zero_le _)
  have hlt : ∀ i < idSize,
      roundedEntry round keys keys[0] keys[keys.length - 1] idSize i < keys.length :=
    fun i hi ↦ lowerBound_lt (List.getElem_mem _) (round_position_le h hle hid hi)
  refine ⟨(List.range idSize).map (roundedEntry round keys keys[0] keys[keys.length - 1] idSize),
    ?_, (List.length_map _).trans List.length_range, fun j hj ↦ ?_⟩
  · rw [buildId, require_of (Nat.succ_le_of_lt hpos), ok_bind, get_of_lt hpos, ok_bind,
      subtract_of_le (Nat.succ_le_of_lt hpos), ok_bind, get_of_lt (by omega), ok_bind]
    refine tabulate_of_ok fun i hi ↦ ?_
    dsimp only
    exact (congrArg (fun c ↦ c >>= fun _ ↦ pure (roundedEntry round keys keys[0]
      keys[keys.length - 1] idSize i)) (require_of (hlt i hi).ne)).trans rfl
  · obtain ⟨i, hi, rfl⟩ := List.mem_map.1 hj
    exact hlt i (List.mem_range.1 hi)

/-- The guess of `interpolation_search` with rounded doubles. -/
theorem lookupGuess_int32Rounded (h : Rounding 53 round) (hne : keys ≠ [])
    (hwidth : (keys.getLast hne).1 - (keys.head hne).1 < 2 ^ 31) {id : List ℕ}
    (hid : 0 < id.length) (hid' : id.length ≤ 2 ^ 31) {key : I32} (hfirst : keys.head hne < key)
    (hlast : key < keys.getLast hne) :
    ∃ guess ∈ id, lookupGuess (int32Rounded ov round sqrt).toArith keys key id = .ok guess := by
  have hpos : 0 < keys.length := List.length_pos_iff.2 hne
  rw [List.head_eq_getElem] at hfirst hwidth
  rw [List.getLast_eq_getElem] at hlast hwidth
  have hfirst' : keys[0].1 < key.1 := hfirst
  have hlast' : key.1 < keys[keys.length - 1].1 := hlast
  obtain ⟨hproper, hnonneg, hlt⟩ := round_slot_lt h hfirst' hlast' hwidth hid hid'
  have hminus : (int32Rounded ov round sqrt).minus keys[keys.length - 1] keys[0] =
      .ok ((keys[keys.length - 1].1 - keys[0].1 : ℤ) : ℚ) := if_pos (by omega)
  set q := round (round (round (key.1 - keys[0].1) / (keys[keys.length - 1].1 - keys[0].1 : ℤ)) *
    round id.length) with hq
  have hcast : toU64 q = .ok ⌊q⌋.toNat := by
    have hsize : (id.length : ℚ) ≤ 2 ^ 31 := by exact_mod_cast hid'
    exact if_pos ⟨by linarith, by linarith⟩
  have hslot : ⌊q⌋.toNat < id.length := by
    have hfloor : ⌊q⌋ < (id.length : ℤ) := Int.floor_lt.2 (by exact_mod_cast hlt)
    omega
  refine ⟨id[⌊q⌋.toNat], List.getElem_mem hslot, ?_⟩
  rw [lookupGuess, get_of_lt hpos, ok_bind, subtract_of_le (Nat.succ_le_of_lt hpos), ok_bind,
    get_of_lt (show keys.length - 1 < keys.length by omega), ok_bind, hminus, ok_bind]
  dsimp only [int32Rounded, int32]
  rw [require_of hproper, ok_bind, ← hq, hcast, ok_bind, require_of hslot, ok_bind,
    get_of_lt hslot]

/-- `block_size` with rounded doubles. -/
theorem toU64_sqrt (h : Rounding 53 round) (hsqrt : SqrtRounding 53 sqrt) {n : ℕ}
    (hn : n < 2 ^ 52) : toU64 (sqrt (round n)) = .ok (Nat.sqrt n) := by
  have hfloor := hsqrt.floor_eq (b := 26) hn (by decide)
  obtain ⟨hlow, hhigh⟩ := Int.floor_eq_iff.1 hfloor
  have hroot : ((Nat.sqrt n : ℤ) : ℚ) ≤ 2 ^ 52 := by
    exact_mod_cast (Nat.sqrt_le_self n).trans hn.le
  have hnonneg : (0 : ℚ) ≤ ((Nat.sqrt n : ℤ) : ℚ) := by positivity
  rw [h.eq_self _ (.nat (by omega)), toU64, if_pos ⟨by linarith, by linarith⟩, hfloor,
    Int.toNat_natCast]

/-- **Rounded doubles serve their purpose.** -/
theorem int32Rounded_adequateOn (ov : Overflow) (h : Rounding 53 round)
    (hsqrt : SqrtRounding 53 sqrt) (hwidth : hi - lo ≤ 2 ^ 31 - 1) :
    (int32Rounded ov round sqrt).AdequateOn (window lo hi) where
  strictMono := (int32_exact ov).strictMono
  buildId_isOk keys hkeys hne hmem :=
    buildId_int32Rounded h hkeys hne (length_le_of_window hwidth hkeys hmem)
  lookupGuess_isOk keys hne hkeys hmem id hid hentries key hfirst hlast := by
    have hhead := hmem _ (List.head_mem hne)
    have hgetLast := hmem _ (List.getLast_mem hne)
    obtain ⟨guess, hguess, hlookup⟩ : ∃ guess ∈ id,
        lookupGuess (int32Rounded ov round sqrt).toArith keys key id = .ok guess :=
      lookupGuess_int32Rounded h hne (by have := hhead.1; have := hgetLast.2; omega)
        (hid ▸ List.length_pos_iff.2 hne) (hid.trans_le (length_le_of_window hwidth hkeys hmem))
        hfirst hlast
    exact ⟨guess, hentries guess hguess, hlookup⟩
  blockSize_eq keys hkeys hne hmem := by
    have hlen := length_le_of_window hwidth hkeys hmem
    exact toU64_sqrt h hsqrt (by omega)
  length_le keys hkeys _ := length_le_of_sortedLT hkeys

/-- **Rounding cannot break a search.** If `max - min` does not overflow, then with every rounding
of doubles to 53 bits `build_id` finds a lower bound for each of its positions, and
`interpolation_search` computes a proper fraction and a slot of the index, and returns what binary
search returns. The size of a block is the integer square root of the number of keys. -/
theorem rounding_is_harmless (ov : Overflow) (h : Rounding 53 round) (hsqrt : SqrtRounding 53 sqrt)
    (hkeys : keys.SortedLT) (hne : keys ≠ [])
    (hwidth : (keys.getLast hne).1 - (keys.head hne).1 ≤ 2 ^ 31 - 1) {idSize : ℕ}
    (hid : 1 ≤ idSize) (hid' : idSize ≤ 2 ^ 31) :
    (∃ id, buildId (int32Rounded ov round sqrt).toArith keys idSize = .ok id ∧
      ∀ k, interpolationSearch (int32Rounded ov round sqrt).toArith keys k id =
        binarySearch keys k) ∧
    toU64 ((int32Rounded ov round sqrt).sqrt
      ((int32Rounded ov round sqrt).round (keys.length : ℚ))) = .ok (Nat.sqrt keys.length) := by
  obtain ⟨id, hbuild, hlength, hentries⟩ :
      ∃ id, buildId (int32Rounded ov round sqrt).toArith keys idSize = .ok id ∧
        id.length = idSize ∧ ∀ j ∈ id, j < keys.length :=
    buildId_int32Rounded h hkeys hne hid'
  have hlen := length_le_of_sortedLT hkeys
  refine ⟨⟨id, hbuild, fun k ↦ ?_⟩, toU64_sqrt h hsqrt (by omega)⟩
  rw [binarySearch_eq hkeys hne]
  refine interpolationSearch_eq_of_guess hkeys hne (by omega) fun hfirst hlast ↦ ?_
  obtain ⟨guess, hguess, hlookup⟩ : ∃ guess ∈ id,
      lookupGuess (int32Rounded ov round sqrt).toArith keys k id = .ok guess :=
    lookupGuess_int32Rounded h hne (by omega) (hid.trans_eq hlength.symm) (hlength.trans_le hid')
      hfirst hlast
  exact ⟨guess, hentries guess hguess, hlookup⟩

/-- Doubles that are rounded to the nearest one, and three keys. -/
theorem rounding_is_harmless_three :
    ∃ id, buildId (int32Double .trapping).toArith ([1, 4, 9].map I32.small) 2 = .ok id ∧
      interpolationSearch (int32Double .trapping).toArith ([1, 4, 9].map I32.small) (.small 5) id =
        .ok (2, false) := by
  obtain ⟨⟨id, hbuild, hsearch⟩, -⟩ := rounding_is_harmless .trapping
    (rounding_roundNearest (by decide)) (sqrtRounding_sqrtNearest (by decide))
    (show ([1, 4, 9].map I32.small).SortedLT by decide) (by decide) (by decide)
    (show 1 ≤ 2 by decide) (by decide)
  refine ⟨id, hbuild, (hsearch (.small 5)).trans ?_⟩
  rw [binarySearch_eq (by decide) (by decide)]
  decide

end Rounded

end Pbist
