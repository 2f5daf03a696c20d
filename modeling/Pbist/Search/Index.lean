import Pbist.Search.Interpolation

/-!
# The index brackets the answer

`build_id` and `interpolation_search` scale keys by two different formulas: the one puts `id_size`
equidistant positions between the first and the last key and takes lower bounds, the other rounds
the position of the search key down to a slot. With exact doubles the two agree: the position of
slot `j` is not behind the search key and that of slot `j + 1` is, so the answer lies between the
two entries of the index. In particular a guess never lies behind the answer, and galloping down
has nothing to do.

`index_brackets` is the result. It rests on `slot_spec` for the slot of a key and on
`lowerBound_le_iff` for the entries, which turns positions back into keys.
-/

namespace Pbist

open Checked Sorted

variable {T : Type} [LinearOrder T] {A : Arith T} {keys : List T} {searchKey : T}

/-! ### Lower bounds -/

/-- The lower bound of a position, by the keys at and behind it. -/
theorem lowerBound_le_iff (hA : A.Exact) (h : keys.SortedLT) {frac : ℚ} {i : ℕ}
    (hi : i < keys.length) : lowerBound A keys frac ≤ i ↔ frac ≤ A.toDouble keys[i] := by
  constructor
  · intro hle
    have hlt : lowerBound A keys frac < keys.length := hle.trans_lt hi
    have hfound : frac ≤ A.toDouble keys[lowerBound A keys frac] :=
      not_lt.1 (of_decide_eq_true (List.findIdx_getElem (w := hlt)))
    exact hfound.trans (hA.strictMono.monotone (h.getElem_le_getElem_iff.2 hle))
  · intro hfrac
    by_contra hcon
    have hbelow := List.not_of_lt_findIdx (not_le.1 hcon)
    rw [decide_eq_true (not_lt.2 hfrac)] at hbelow
    exact absurd hbelow (by simp)

omit [LinearOrder T] in
theorem lowerBound_le_length (frac : ℚ) : lowerBound A keys frac ≤ keys.length :=
  List.findIdx_le_length

theorem lowerBound_mono (hA : A.Exact) (h : keys.SortedLT) {frac frac' : ℚ}
    (hle : frac ≤ frac') : lowerBound A keys frac ≤ lowerBound A keys frac' := by
  rcases (@lowerBound_le_length _ A keys frac').lt_or_eq with hlt | heq
  · exact (lowerBound_le_iff hA h hlt).2 (hle.trans ((lowerBound_le_iff hA h hlt).1 le_rfl))
  · exact (lowerBound_le_length frac).trans heq.ge

/-- The lower bound of a position that is not behind a key is not behind the rank of the key. -/
theorem lowerBound_le_rank (hA : A.Exact) (h : keys.SortedLT) {frac : ℚ}
    (hle : frac ≤ A.toDouble searchKey) : lowerBound A keys frac ≤ rank keys searchKey := by
  rcases (rank_le_length keys searchKey).lt_or_eq with hlt | heq
  · refine (lowerBound_le_iff hA h hlt).2 (hle.trans ?_)
    exact hA.strictMono.monotone ((rank_le_iff h hlt).1 le_rfl)
  · exact (lowerBound_le_length frac).trans heq.ge

theorem rank_le_lowerBound (hA : A.Exact) (h : keys.SortedLT) {frac : ℚ}
    (hle : A.toDouble searchKey ≤ frac) : rank keys searchKey ≤ lowerBound A keys frac := by
  rcases (@lowerBound_le_length _ A keys frac).lt_or_eq with hlt | heq
  · have hkey := hle.trans ((lowerBound_le_iff hA h hlt).1 le_rfl)
    exact (rank_le_iff h hlt).2 (hA.strictMono.le_iff_le.1 hkey)
  · exact (rank_le_length keys searchKey).trans heq.ge

/-! ### Positions and slots -/

section Position

variable {first last : T} {n : ℕ}

omit [LinearOrder T] in
theorem idPosition_zero (first last : T) (n : ℕ) :
    idPosition A first last n 0 = A.toDouble first := by
  simp [idPosition]

theorem idPosition_mono (hA : A.Exact) (hle : first ≤ last) {i j : ℕ} (hij : i ≤ j) :
    idPosition A first last n i ≤ idPosition A first last n j := by
  have hwidth : 0 ≤ A.toDouble last - A.toDouble first :=
    sub_nonneg.2 (hA.strictMono.monotone hle)
  have hij' : (i : ℚ) ≤ j := by exact_mod_cast hij
  rw [idPosition, idPosition]
  gcongr

variable (hA : A.Exact) (hfirst : first < searchKey) (hlast : searchKey < last) (hn : 0 < n)

include hA hfirst hlast hn

/-- A position is not behind the search key exactly when its number is at most the scaled position
of the search key. -/
theorem idPosition_le_iff (i : ℕ) : idPosition A first last n i ≤ A.toDouble searchKey ↔
    (i : ℚ) ≤ fraction A first last searchKey * n := by
  have hn' : (0 : ℚ) < n := by exact_mod_cast hn
  have hwidth : 0 < A.toDouble last - A.toDouble first :=
    sub_pos.2 (hA.strictMono (hfirst.trans hlast))
  rw [idPosition, fraction, div_mul_eq_mul_div, le_div_iff₀ hwidth, ← le_sub_iff_add_le',
    div_le_iff₀ hn', mul_comm (i : ℚ)]

/-- The slot of the search key: its position is the last one that is not behind the key. -/
theorem slot_spec : ∃ j < n, (j : ℤ) = ⌊fraction A first last searchKey * n⌋ ∧
    idPosition A first last n j ≤ A.toDouble searchKey ∧
    A.toDouble searchKey < idPosition A first last n (j + 1) := by
  obtain ⟨hpos, hlt⟩ := fraction_pos_lt_one hA hfirst hlast
  have hfloor : 0 ≤ ⌊fraction A first last searchKey * n⌋ :=
    Int.floor_nonneg.2 (mul_nonneg hpos.le (Nat.cast_nonneg n))
  obtain ⟨j, hj⟩ := Int.eq_ofNat_of_zero_le hfloor
  refine ⟨j, ?_, hj.symm, ?_, ?_⟩
  · have hslot := floor_mul_lt hpos hlt hn
    rwa [hj, Int.toNat_natCast] at hslot
  · refine (idPosition_le_iff hA hfirst hlast hn j).2 ?_
    exact_mod_cast Int.le_floor.1 hj.ge
  · refine not_le.1 fun hcon ↦ ?_
    have hle := (idPosition_le_iff hA hfirst hlast hn (j + 1)).1 hcon
    have hfloor' : ((j + 1 : ℕ) : ℤ) ≤ ⌊fraction A first last searchKey * n⌋ :=
      Int.le_floor.2 (by exact_mod_cast hle)
    omega

end Position

/-! ### The index -/

omit [LinearOrder T] in
theorem getElem?_builtId (hne : keys ≠ []) {n i : ℕ} (hi : i < n) : (builtId A keys n)[i]? =
    some (lowerBound A keys (idPosition A (keys.head hne) (keys.getLast hne) n i)) := by
  rw [builtId_eq hne, List.getElem?_map, List.getElem?_range hi, Option.map_some]

section Built

variable (hA : A.Exact) (h : keys.SortedLT) (hlen : 0 < keys.length) {n : ℕ}

include hA h hlen

/-- The index is non-decreasing, as the positions are. -/
theorem sortedLE_builtId : (builtId A keys n).SortedLE := by
  have hle : keys[0] ≤ keys[keys.length - 1] := h.getElem_le_getElem_iff.2 (Nat.zero_le _)
  rw [builtId_eq (List.ne_nil_of_length_pos hlen), List.head_eq_getElem, List.getLast_eq_getElem]
  refine (List.pairwise_map.2 (List.pairwise_lt_range.imp fun hij ↦ ?_)).sortedLE
  exact lowerBound_mono hA h (idPosition_mono hA hle hij.le)

/-- The index starts at the first key. -/
theorem getElem?_builtId_zero (hn : 0 < n) : (builtId A keys n)[0]? = some 0 := by
  rw [getElem?_builtId (List.ne_nil_of_length_pos hlen) hn, idPosition_zero, List.head_eq_getElem]
  exact congrArg some (Nat.le_zero.1 ((lowerBound_le_iff hA h hlen).2 le_rfl))

end Built

/-- Where the guess is the answer, galloping down stops at its first probe. -/
theorem findBorders_of_eq_rank (h : keys.SortedLT) {guess : ℕ}
    (hguess : guess < keys.length) (hpos : 0 < guess) (hrank : guess = rank keys searchKey)
    (ov : Overflow) :
    gallopDown ov keys searchKey guess 64 guess 1 = .ok (guess, 1) ∧
      findBorders ov keys searchKey guess = .ok (guess - 1, guess) := by
  have hprobe : ¬searchKey ≤ keys[guess - 1] :=
    not_le.2 ((lt_rank_iff h (by omega)).1 (by omega))
  have hdown : gallopDown ov keys searchKey guess 64 guess 1 = .ok (guess, 1) := by
    rw [gallopDown, if_pos (Nat.succ_le_of_lt hpos), subtract_of_le (Nat.succ_le_of_lt hpos),
      ok_bind, get_of_lt (by omega), ok_bind, if_neg hprobe, pure_eq_ok]
  have hkey : ¬keys[guess] < searchKey := not_lt.2 ((rank_le_iff h hguess).1 hrank.ge)
  refine ⟨hdown, ?_⟩
  rw [findBorders, require_of hguess, ok_bind, require_of (by omega), ok_bind, get_of_lt hguess,
    ok_bind, if_neg hkey, require_of (Nat.succ_le_of_lt hpos), ok_bind, hdown, ok_bind]
  dsimp only
  rw [if_pos (Nat.succ_le_of_lt hpos), subtract_of_le (Nat.succ_le_of_lt hpos), ok_bind,
    pure_eq_ok]

/-- **The index brackets the answer.** With exact doubles and a difference `max - min` that does not
overflow, `build_id` gives a non-decreasing index of `id_size` entries that starts with 0 and has
only indices of the array. The slot that `interpolation_search` uses for a key strictly between the
first and the last one exists, its entry is at most the number of smaller keys, which the search
returns, and the next entry at least that number. If the search gallops down from this guess, the
guess is the answer, and the first probe ends the loop. -/
theorem index_brackets (hA : A.Exact) (h : keys.SortedLT) (hne : keys ≠ []) {idSize : ℕ}
    (hid : 1 ≤ idSize) (hid' : idSize < 2 ^ 64)
    (hminus : A.minus (keys.getLast hne) (keys.head hne) =
      .ok (A.toDouble (keys.getLast hne) - A.toDouble (keys.head hne))) :
    ∃ id, buildId A keys idSize = .ok id ∧ id.length = idSize ∧ id.SortedLE ∧
      id[0]? = some 0 ∧ (∀ e ∈ id, e < keys.length) ∧
      ∀ k, keys.head hne < k → k < keys.getLast hne →
        ∃ j < idSize, (j : ℤ) = ⌊(A.toDouble k - A.toDouble (keys.head hne)) /
            (A.toDouble (keys.getLast hne) - A.toDouble (keys.head hne)) * idSize⌋ ∧
          ∃ guess, ∃ _ : guess < keys.length, lookupGuess A keys k id = .ok guess ∧
            id[j]? = some guess ∧ guess ≤ keys.countP (· < k) ∧
            (∀ next, id[j + 1]? = some next → keys.countP (· < k) ≤ next) ∧
            (¬keys[guess] < k → guess = keys.countP (· < k) ∧
              gallopDown A.overflow keys k guess 64 guess 1 = .ok (guess, 1) ∧
              findBorders A.overflow keys k guess = .ok (guess - 1, guess)) ∧
            (keys.length ≤ 2 ^ 63 → interpolationSearch A keys k id =
              .ok (keys.countP (· < k), decide (k ∈ keys))) := by
  have hlen : 0 < keys.length := List.length_pos_iff.2 hne
  obtain ⟨hbuild, hentries⟩ := buildId_eq hA h hlen idSize
  have hlength := length_builtId (A := A) hlen idSize
  refine ⟨_, hbuild, hlength, sortedLE_builtId hA h hlen, getElem?_builtId_zero hA h hlen hid,
    hentries, fun k hfirst hlast ↦ ?_⟩
  rw [List.head_eq_getElem] at hfirst hminus
  rw [List.getLast_eq_getElem] at hlast hminus
  simp only [List.head_eq_getElem, List.getLast_eq_getElem]
  obtain ⟨j, hj, hfloor, hbelow, habove⟩ := slot_spec hA hfirst hlast hid
  obtain ⟨j', hj', hslot, hlookup⟩ := lookupGuess_eq hA hlen hminus (hid.trans_eq hlength.symm)
    (hlength.trans_lt hid') hfirst hlast
  -- the slot by its position and the slot that the search computes are the same
  obtain rfl : j = j' := by
    rw [hslot, hlength, ← hfloor, Int.toNat_natCast]
  -- its entry is the lower bound of the position at the left end of the slot
  have hguess : (builtId A keys idSize)[j] =
      lowerBound A keys (idPosition A keys[0] keys[keys.length - 1] idSize j) := by
    have hget := getElem?_builtId (A := A) hne hj
    rwa [List.getElem?_eq_getElem hj', Option.some.injEq, List.head_eq_getElem,
      List.getLast_eq_getElem] at hget
  have hle : (builtId A keys idSize)[j] ≤ rank keys k :=
    hguess ▸ lowerBound_le_rank hA h hbelow
  have hlt : (builtId A keys idSize)[j] < keys.length := hentries _ (List.getElem_mem hj')
  refine ⟨j, hj, hfloor, _, hlt, hlookup, List.getElem?_eq_getElem hj', hle,
    fun next hnext ↦ ?_, fun hdown ↦ ?_, fun hsize ↦ ?_⟩
  · have hj1 : j + 1 < idSize := hlength ▸ (List.getElem?_eq_some_iff.1 hnext).1
    rw [getElem?_builtId hne hj1, Option.some.injEq, List.head_eq_getElem,
      List.getLast_eq_getElem] at hnext
    exact hnext ▸ rank_le_lowerBound hA h habove.le
  · have hrank := le_antisymm hle ((rank_le_iff h hlt).2 (not_lt.1 hdown))
    have hpos : 0 < rank keys k := (lt_rank_iff h hlen).2 hfirst
    exact ⟨hrank, findBorders_of_eq_rank h hlt (hrank ▸ hpos) hrank A.overflow⟩
  · exact interpolationSearch_eq_of_guess h hne hsize fun _ _ ↦ ⟨_, hlt, hlookup⟩

/-- An index of two slots for three keys. The key 5 lies half way between the first and the last
key, so its slot is the second one; it is not stored, and the answer is the index of 9. -/
theorem index_brackets_three :
    ∃ id guess, buildId (int32 .trapping) ([1, 4, 9].map I32.small) 2 = .ok id ∧ id.length = 2 ∧
      id[0]? = some 0 ∧ id[1]? = some guess ∧ guess ≤ 2 ∧
      lookupGuess (int32 .trapping) ([1, 4, 9].map I32.small) (.small 5) id = .ok guess ∧
      interpolationSearch (int32 .trapping) ([1, 4, 9].map I32.small) (.small 5) id =
        .ok (2, false) := by
  have hminus := (@int32_exactOn .trapping 0 9 (by decide)).minus_eq
    (.small 1) ⟨by decide, by decide⟩ (.small 9) ⟨by decide, by decide⟩ (by decide)
  obtain ⟨id, hbuild, hlength, -, hzero, -, hsearch⟩ := index_brackets (int32_exact .trapping)
    (show ([1, 4, 9].map I32.small).SortedLT by decide) (by decide) (show 1 ≤ 2 by decide)
    (by decide) hminus
  obtain ⟨j, -, hfloor, guess, -, hlookup, hslot, hbelow, -, -, hanswer⟩ :=
    hsearch (.small 5) (by decide) (by decide)
  obtain rfl : j = 1 := by
    have hhalf : ((5 : ℚ) - 1) / (9 - 1) * 2 = 1 := by norm_num
    have : (j : ℤ) = 1 := hfloor.trans ((congrArg Int.floor hhalf).trans Int.floor_one)
    omega
  exact ⟨id, guess, hbuild, hlength, hzero, hslot, hbelow, hlookup, hanswer (by decide)⟩

end Pbist
