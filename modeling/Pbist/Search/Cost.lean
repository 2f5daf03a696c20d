import Pbist.Search.Borders
import Mathlib.Data.Nat.Log
import Mathlib.Data.Nat.Dist

/-!
# The cost of a search from a guess

One unit of fuel is one test of a loop condition, so a loop that ends with the same result for every
fuel from `n` on tests its condition at most `n` times. Galloping and the bisection between its
borders both take logarithmic time in the distance of the guess from the answer, not in the size of
the array.

## How the proof goes

`gallopUp_of_le_pow`, `gallopDown_of_le_pow` and `bisect_of_le_pow` are about distances that are
less than a power of two, by induction on the exponent: a round of galloping doubles the step, a
round of bisection halves the distance of the borders. `findBorders_up` and `findBorders_down` bound
the distance of the borders that are found by that of the guess, and `search_rounds` puts them
together.
-/

namespace Pbist

open Checked Sorted

variable {T : Type} [LinearOrder T] {keys : List T} {searchKey : T}

/-- Bisection halves the distance of its borders, rounded up. -/
theorem bisect_of_le_pow (h : keys.SortedLT) : ∀ {n fuel curLeft curRight : ℕ},
    curLeft < rank keys searchKey → rank keys searchKey ≤ curRight → curRight < keys.length →
    curRight - curLeft ≤ 2 ^ n → n + 1 ≤ fuel →
    bisect keys searchKey fuel curLeft curRight =
      .ok (rank keys searchKey - 1, rank keys searchKey) := by
  intro n
  induction n with
  | zero =>
    intro fuel curLeft curRight hleft hright hlen hwidth hfuel
    exact bisect_eq h hleft hright hlen (by omega)
  | succ n ih =>
    intro fuel curLeft curRight hleft hright hlen hwidth hfuel
    obtain ⟨fuel, rfl⟩ : ∃ fuel', fuel = fuel' + 1 := ⟨fuel - 1, by omega⟩
    rw [pow_succ] at hwidth
    rw [bisect]
    by_cases hloop : curLeft + 1 < curRight
    · have hmid : curLeft + (curRight - curLeft) / 2 < keys.length := by omega
      have hleftKey : keys[curLeft] < searchKey := (lt_rank_iff h _).1 hleft
      have hrightKey : searchKey ≤ keys[curRight] := (rank_le_iff h _).1 hright
      rw [if_pos hloop, get_of_lt (show curLeft < keys.length by omega), ok_bind,
        require_of hleftKey, ok_bind, get_of_lt hlen, ok_bind, require_of hrightKey, ok_bind,
        subtract_of_le (by omega), ok_bind]
      simp only [get_of_lt hmid, ok_bind]
      by_cases hkey : keys[curLeft + (curRight - curLeft) / 2] < searchKey
      · rw [if_pos hkey]
        exact ih ((lt_rank_iff h hmid).2 hkey) hright hlen (by omega) (by omega)
      · rw [if_neg hkey]
        exact ih hleft ((rank_le_iff h hmid).2 (not_lt.1 hkey)) hmid (by omega) (by omega)
    · rw [if_neg hloop]
      have hrank : rank keys searchKey = curRight := by omega
      rw [hrank, show curRight - 1 = curLeft by omega]

section Rounds

variable {guess i : ℕ}

/-- `delta <<= 1`, before it reaches `2 ^ 64`. -/
theorem shl64_pow (ov : Overflow) (hi : i < 63) : ov.shl64 (2 ^ i) = .ok (2 ^ (i + 1)) := by
  have hpow : (2 : ℕ) ^ (i + 1) ≤ 2 ^ 63 := Nat.pow_le_pow_right two_pos hi
  rw [pow_succ'] at hpow ⊢
  exact ov.shl64_of_lt (by omega)

/-- One round of galloping up. -/
theorem gallopUp_of_lt (h : keys.SortedLT) (hsize : keys.length ≤ 2 ^ 63) (hi : i < 63)
    (hlt : guess + 2 ^ i < rank keys searchKey) (ov : Overflow) (fuel leftBorder : ℕ) :
    gallopUp ov keys searchKey guess (fuel + 1) leftBorder (2 ^ i) =
      gallopUp ov keys searchKey guess fuel (guess + 2 ^ i) (2 ^ (i + 1)) := by
  have hprobe : guess + 2 ^ i < keys.length := hlt.trans_le (rank_le_length keys searchKey)
  rw [gallopUp, ov.add64_of_lt (by omega)]
  simp only [ok_bind, if_pos hprobe, get_of_lt hprobe, if_pos ((lt_rank_iff h hprobe).1 hlt),
    shl64_pow ov hi]

/-- Galloping up ends at a probe that is not below the answer. -/
theorem gallopUp_of_le (h : keys.SortedLT) (hwrap : guess + 2 ^ i < 2 ^ 64)
    (hle : rank keys searchKey ≤ guess + 2 ^ i) (ov : Overflow) (fuel leftBorder : ℕ) :
    gallopUp ov keys searchKey guess (fuel + 1) leftBorder (2 ^ i) = .ok (leftBorder, 2 ^ i) := by
  rw [gallopUp, ov.add64_of_lt hwrap, ok_bind]
  by_cases hprobe : guess + 2 ^ i < keys.length
  · have hkey : ¬keys[guess + 2 ^ i] < searchKey := not_lt.2 ((rank_le_iff h hprobe).1 hle)
    simp only [ok_bind, if_pos hprobe, get_of_lt hprobe, if_neg hkey, pure_eq_ok]
  · rw [if_neg hprobe, pure_eq_ok]

/-- One round of galloping down. -/
theorem gallopDown_of_le (h : keys.SortedLT) (hguess : guess < keys.length) (hi : i < 63)
    (hprobe : 2 ^ i ≤ guess) (hle : rank keys searchKey ≤ guess - 2 ^ i) (ov : Overflow)
    (fuel rightBorder : ℕ) :
    gallopDown ov keys searchKey guess (fuel + 1) rightBorder (2 ^ i) =
      gallopDown ov keys searchKey guess fuel (guess - 2 ^ i) (2 ^ (i + 1)) := by
  have hlt : guess - 2 ^ i < keys.length := (Nat.sub_le _ _).trans_lt hguess
  rw [gallopDown, if_pos hprobe]
  simp only [subtract_of_le hprobe, ok_bind, get_of_lt hlt, if_pos ((rank_le_iff h hlt).1 hle),
    shl64_pow ov hi]

/-- Galloping down ends at a probe below the answer, or in front of the array. -/
theorem gallopDown_of_lt (h : keys.SortedLT) (hguess : guess < keys.length)
    (hlt : 2 ^ i ≤ guess → guess - 2 ^ i < rank keys searchKey) (ov : Overflow)
    (fuel rightBorder : ℕ) :
    gallopDown ov keys searchKey guess (fuel + 1) rightBorder (2 ^ i) =
      .ok (rightBorder, 2 ^ i) := by
  rw [gallopDown]
  by_cases hprobe : 2 ^ i ≤ guess
  · have hin : guess - 2 ^ i < keys.length := (Nat.sub_le _ _).trans_lt hguess
    have hkey : ¬searchKey ≤ keys[guess - 2 ^ i] := not_le.2 ((lt_rank_iff h hin).1 (hlt hprobe))
    rw [if_pos hprobe]
    simp only [subtract_of_le hprobe, ok_bind, get_of_lt hin, if_neg hkey, pure_eq_ok]
  · rw [if_neg hprobe, pure_eq_ok]

/-- Galloping up ends when `delta` has reached the distance of the guess from the answer. -/
theorem gallopUp_of_le_pow (h : keys.SortedLT) (hsize : keys.length ≤ 2 ^ 63)
    (hguess : guess < rank keys searchKey) :
    ∀ {n i leftBorder : ℕ}, i + n ≤ 63 → rank keys searchKey ≤ guess + 2 ^ (i + n) →
      leftBorder < rank keys searchKey →
      guess + 2 ^ i ≤ leftBorder + (rank keys searchKey - guess) →
      ∃ l delta, (∀ ov, ∀ fuel ≥ n + 1,
          gallopUp ov keys searchKey guess fuel leftBorder (2 ^ i) = .ok (l, delta)) ∧
        l < rank keys searchKey ∧ rank keys searchKey ≤ guess + delta ∧ guess + delta < 2 ^ 64 ∧
        guess + delta ≤ l + (rank keys searchKey - guess) := by
  have hlen := rank_le_length keys searchKey
  intro n
  induction n with
  | zero =>
    intro i leftBorder hi hle hleft hwidth
    rw [Nat.add_zero] at hle
    have hpow : (2 : ℕ) ^ i ≤ 2 ^ 63 := Nat.pow_le_pow_right two_pos hi
    refine ⟨leftBorder, 2 ^ i, fun ov fuel hfuel ↦ ?_, hleft, hle, by omega, hwidth⟩
    obtain ⟨fuel, rfl⟩ := Nat.exists_eq_add_of_le' hfuel
    exact gallopUp_of_le h (by omega) hle ov fuel leftBorder
  | succ n ih =>
    intro i leftBorder hi hle hleft hwidth
    by_cases hnext : guess + 2 ^ i < rank keys searchKey
    · obtain ⟨l, delta, hrun, hspec⟩ := ih (i := i + 1) (by omega)
        (by rwa [show i + 1 + n = i + (n + 1) by omega]) hnext (by rw [pow_succ]; omega)
      refine ⟨l, delta, fun ov fuel hfuel ↦ ?_, hspec⟩
      obtain ⟨fuel, rfl⟩ := Nat.exists_eq_add_of_le' (Nat.one_le_of_lt hfuel)
      rw [gallopUp_of_lt h hsize (by omega) hnext]
      exact hrun ov fuel (by omega)
    · have hpow : (2 : ℕ) ^ i ≤ 2 ^ 63 := Nat.pow_le_pow_right two_pos (by omega)
      refine ⟨leftBorder, 2 ^ i, fun ov fuel hfuel ↦ ?_, hleft, not_lt.1 hnext, by omega, hwidth⟩
      obtain ⟨fuel, rfl⟩ := Nat.exists_eq_add_of_le' (Nat.one_le_of_lt hfuel)
      exact gallopUp_of_le h (by omega) (not_lt.1 hnext) ov fuel leftBorder

/-- Galloping down ends when `delta` has passed the distance of the guess from the answer. -/
theorem gallopDown_of_le_pow (h : keys.SortedLT) (hguess : guess < keys.length) :
    ∀ {n i rightBorder : ℕ}, i + n ≤ 63 → guess < rank keys searchKey + 2 ^ (i + n) →
      rank keys searchKey ≤ rightBorder → rightBorder < keys.length →
      rightBorder ≤ guess - 2 ^ i + (guess - rank keys searchKey + 1) →
      ∃ r delta, (∀ ov, ∀ fuel ≥ n + 1,
          gallopDown ov keys searchKey guess fuel rightBorder (2 ^ i) = .ok (r, delta)) ∧
        rank keys searchKey ≤ r ∧ r < keys.length ∧
        (delta ≤ guess → guess - delta < rank keys searchKey) ∧
        r ≤ guess - delta + (guess - rank keys searchKey + 1) := by
  intro n
  induction n with
  | zero =>
    intro i rightBorder hi hlt hright hlen hwidth
    rw [Nat.add_zero] at hlt
    refine ⟨rightBorder, 2 ^ i, fun ov fuel hfuel ↦ ?_, hright, hlen, fun _ ↦ by omega, hwidth⟩
    obtain ⟨fuel, rfl⟩ := Nat.exists_eq_add_of_le' hfuel
    exact gallopDown_of_lt h hguess (fun _ ↦ by omega) ov fuel rightBorder
  | succ n ih =>
    intro i rightBorder hi hlt hright hlen hwidth
    by_cases hnext : 2 ^ i ≤ guess ∧ rank keys searchKey ≤ guess - 2 ^ i
    · obtain ⟨r, delta, hrun, hspec⟩ := ih (i := i + 1) (by omega)
        (by rwa [show i + 1 + n = i + (n + 1) by omega]) hnext.2
        ((Nat.sub_le _ _).trans_lt hguess) (by rw [pow_succ]; omega)
      refine ⟨r, delta, fun ov fuel hfuel ↦ ?_, hspec⟩
      obtain ⟨fuel, rfl⟩ := Nat.exists_eq_add_of_le' (Nat.one_le_of_lt hfuel)
      rw [gallopDown_of_le h hguess (by omega) hnext.1 hnext.2]
      exact hrun ov fuel (by omega)
    · refine ⟨rightBorder, 2 ^ i, fun ov fuel hfuel ↦ ?_, hright, hlen, fun _ ↦ by omega, hwidth⟩
      obtain ⟨fuel, rfl⟩ := Nat.exists_eq_add_of_le' (Nat.one_le_of_lt hfuel)
      exact gallopDown_of_lt h hguess (fun _ ↦ by omega) ov fuel rightBorder

end Rounds

/-- The number of times that a loop tests its condition, when the guess is `d` off the answer. -/
def rounds (d : ℕ) : ℕ :=
  Nat.clog 2 (d + 1) + 1

theorem lt_pow_clog (d : ℕ) : d < 2 ^ (0 + Nat.clog 2 (d + 1)) := by
  rw [Nat.zero_add]
  exact Nat.le_pow_clog one_lt_two (d + 1)

theorem rounds_le {d : ℕ} (h : d < 2 ^ 63) : rounds d ≤ 64 :=
  Nat.succ_le_succ ((Nat.clog_le_iff_le_pow one_lt_two).2 h)

section Borders

variable (h : keys.SortedLT) (hsize : keys.length ≤ 2 ^ 63) (hpos : 0 < rank keys searchKey)
  (hrank : rank keys searchKey < keys.length) {guess d : ℕ}

include h hsize hrank in
/-- Galloping up from a guess that is `d` below the answer. -/
theorem findBorders_up (hd : guess + d = rank keys searchKey) (hguess : 0 < d) :
    ∃ l r, (∀ ov, findBorders ov keys searchKey guess = .ok (l, r)) ∧ r ≤ l + d ∧
      l < rank keys searchKey ∧ rank keys searchKey ≤ r ∧ r < keys.length ∧
      ∃ borders, ∀ ov, ∀ fuel ≥ rounds d,
        gallopUp ov keys searchKey guess fuel guess 1 = .ok borders := by
  have hlt : guess < keys.length := by omega
  have hkey : keys[guess] < searchKey := (lt_rank_iff h hlt).1 (by omega)
  have hrounds := rounds_le (d := d) (by omega)
  have hpow := lt_pow_clog d
  obtain ⟨l, delta, hrun, hl, hprobe, hwrap, hwidth⟩ :=
    @gallopUp_of_le_pow T _ keys searchKey guess h hsize (by omega) (Nat.clog 2 (d + 1)) 0 guess
      (by rw [Nat.zero_add]; exact Nat.le_of_succ_le_succ hrounds) (by omega) (by omega)
      (by rw [pow_zero]; omega)
  have hrun' : ∀ ov, ∀ fuel ≥ rounds d,
      gallopUp ov keys searchKey guess fuel guess 1 = .ok (l, delta) := hrun
  have hborders : ∀ ov, findBorders ov keys searchKey guess =
      if guess + delta < keys.length then .ok (l, guess + delta) else .ok (l, keys.length - 1) :=
    fun ov ↦ by
      rw [findBorders, require_of hlt, ok_bind, require_of (by omega), ok_bind, get_of_lt hlt,
        ok_bind, if_pos hkey, require_of (by omega), ok_bind, hrun' ov 64 hrounds, ok_bind]
      simp only [ov.add64_of_lt hwrap, ok_bind, subtract_of_le (show 1 ≤ keys.length by omega),
        pure_eq_ok]
  by_cases hin : guess + delta < keys.length
  · exact ⟨l, guess + delta, fun ov ↦ by rw [hborders, if_pos hin], by omega, hl, hprobe, hin, _,
      hrun'⟩
  · exact ⟨l, keys.length - 1, fun ov ↦ by rw [hborders, if_neg hin], by omega, hl, by omega,
      by omega, _, hrun'⟩

include h hsize hpos hrank in
/-- Galloping down from a guess that is `d` above the answer. -/
theorem findBorders_down (hd : rank keys searchKey + d = guess) (hguess : guess < keys.length) :
    ∃ l r, (∀ ov, findBorders ov keys searchKey guess = .ok (l, r)) ∧ r ≤ l + d + 1 ∧
      l < rank keys searchKey ∧ rank keys searchKey ≤ r ∧ r < keys.length ∧
      ∃ borders, ∀ ov, ∀ fuel ≥ rounds d,
        gallopDown ov keys searchKey guess fuel guess 1 = .ok borders := by
  have hkey : ¬keys[guess] < searchKey := not_lt.2 ((rank_le_iff h hguess).1 (by omega))
  have hrounds := rounds_le (d := d) (by omega)
  have hpow := lt_pow_clog d
  obtain ⟨r, delta, hrun, hr, hlen, hprobe, hwidth⟩ :=
    @gallopDown_of_le_pow T _ keys searchKey guess h hguess (Nat.clog 2 (d + 1)) 0 guess
      (by rw [Nat.zero_add]; exact Nat.le_of_succ_le_succ hrounds) (by omega) (by omega) hguess
      (by rw [pow_zero]; omega)
  have hrun' : ∀ ov, ∀ fuel ≥ rounds d,
      gallopDown ov keys searchKey guess fuel guess 1 = .ok (r, delta) := hrun
  have hborders : ∀ ov, findBorders ov keys searchKey guess =
      if delta ≤ guess then .ok (guess - delta, r) else .ok (0, r) := fun ov ↦ by
    rw [findBorders, require_of hguess, ok_bind, require_of (by omega), ok_bind, get_of_lt hguess,
      ok_bind, if_neg hkey, require_of (by omega), ok_bind, hrun' ov 64 hrounds, ok_bind]
    dsimp only
    by_cases hin : delta ≤ guess
    · rw [if_pos hin, if_pos hin, subtract_of_le hin, ok_bind, pure_eq_ok]
    · rw [if_neg hin, if_neg hin, pure_eq_ok]
  by_cases hin : delta ≤ guess
  · exact ⟨guess - delta, r, fun ov ↦ by rw [hborders, if_pos hin], by omega, hprobe hin, hr, hlen,
      _, hrun'⟩
  · exact ⟨0, r, fun ov ↦ by rw [hborders, if_neg hin], by omega, hpos, hr, hlen, _, hrun'⟩

end Borders

/-- **A search is as fast as its guess is good.** From every guess inside the array, galloping ends
after a logarithm of the distance of the guess from the answer, with borders that are no further
apart than this distance and one, and so does the bisection between them. -/
theorem search_rounds (h : keys.SortedLT) (hne : keys ≠ []) (hsize : keys.length ≤ 2 ^ 63) {k : T}
    (hfirst : keys.head hne < k) (hlast : k < keys.getLast hne) {guess : ℕ}
    (hguess : guess < keys.length) {answer d : ℕ} (hanswer : answer = keys.countP (· < k))
    (hd : d = Nat.dist answer guess) :
    ∃ l r, (∀ ov, findBorders ov keys k guess = .ok (l, r)) ∧ r ≤ l + d + 1 ∧
      (∀ ov, ∃ borders, ∀ fuel ≥ rounds d,
        (if keys[guess] < k then gallopUp ov keys k guess fuel guess 1
          else gallopDown ov keys k guess fuel guess 1) = .ok borders) ∧
      ∀ fuel ≥ rounds d, bisect keys k fuel l r = .ok (answer - 1, answer) := by
  have hlen : 0 < keys.length := List.length_pos_iff.2 hne
  rw [List.head_eq_getElem] at hfirst
  rw [List.getLast_eq_getElem] at hlast
  have hpos : 0 < rank keys k := (lt_rank_iff h hlen).2 hfirst
  have hrank : rank keys k ≤ keys.length - 1 := (rank_le_iff h (by omega)).2 hlast.le
  obtain rfl : answer = rank keys k := hanswer
  have hbisect : ∀ {l r : ℕ}, l < rank keys k → rank keys k ≤ r → r < keys.length →
      r ≤ l + d + 1 → ∀ fuel ≥ rounds d,
        bisect keys k fuel l r = .ok (rank keys k - 1, rank keys k) := by
    intro l r hl hr hrlen hwidth fuel hfuel
    have hpow := Nat.le_pow_clog one_lt_two (d + 1)
    exact bisect_of_le_pow h hl hr hrlen (show r - l ≤ 2 ^ Nat.clog 2 (d + 1) by omega) hfuel
  by_cases hkey : keys[guess] < k
  · have hlt : guess < rank keys k := (lt_rank_iff h hguess).2 hkey
    have hdist : d = rank keys k - guess := hd.trans (Nat.dist_eq_sub_of_le_right hlt.le)
    obtain ⟨l, r, hborders, hwidth, hl, hr, hrlen, borders, hrun⟩ :=
      findBorders_up h hsize (by omega) (show guess + d = rank keys k by omega) (by omega)
    refine ⟨l, r, hborders, by omega, fun ov ↦ ⟨borders, fun fuel hfuel ↦ ?_⟩,
      hbisect hl hr hrlen (by omega)⟩
    rw [if_pos hkey]
    exact hrun ov fuel hfuel
  · have hle : rank keys k ≤ guess := (rank_le_iff h hguess).2 (not_lt.1 hkey)
    have hdist : d = guess - rank keys k := hd.trans (Nat.dist_eq_sub_of_le hle)
    obtain ⟨l, r, hborders, hwidth, hl, hr, hrlen, borders, hrun⟩ :=
      findBorders_down h hsize hpos (by omega) (show rank keys k + d = guess by omega) hguess
    refine ⟨l, r, hborders, hwidth, fun ov ↦ ⟨borders, fun fuel hfuel ↦ ?_⟩,
      hbisect hl hr hrlen hwidth⟩
    rw [if_neg hkey]
    exact hrun ov fuel hfuel

/-- Searching 5 among 1, 4 and 9 from the guess 0, which is 2 off. -/
theorem search_rounds_three :
    ∃ l r, (∀ ov, findBorders ov [1, 4, 9] 5 0 = .ok (l, r)) ∧ r ≤ l + 3 ∧
      ∀ fuel ≥ 3, bisect [1, 4, 9] 5 fuel l r = .ok (1, 2) := by
  obtain ⟨l, r, hborders, hwidth, -, hbisect⟩ := search_rounds
    (show [1, 4, 9].SortedLT by decide) (by decide) (by decide) (show 1 < 5 by decide)
    (show 5 < 9 by decide) (show 0 < [1, 4, 9].length by decide)
    (show 2 = [1, 4, 9].countP (· < 5) by decide) (show 2 = Nat.dist 2 0 by decide)
  exact ⟨l, r, hborders, hwidth, fun fuel hfuel ↦ hbisect fuel (by
    rwa [show rounds 2 = 3 by simp [rounds, Nat.clog_of_two_le]])⟩

end Pbist
