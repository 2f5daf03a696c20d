import Pbist.Source.Search
import Pbist.Library.Sorted

/-!
# Binary search and galloping

Both searches are described by `Sorted.rank`: the number of keys below the search key. The loop of
`do_binary_search` keeps `cur_left < rank ≤ cur_right`; galloping from any initial guess ends with
borders of this kind. It never wraps around on arrays of at most `2 ^ 63` keys, which is stated by
quantifying over `Overflow`: a run that traps on wrapping computes the same borders.

## The main results

* `binarySearch_eq` is the bisection from borders that are right, by induction on the fuel, which is
  as much as their distance.
* `findBorders_spec` is galloping. Whether it goes up or down from the guess is decided by the first
  test, and each direction has an invariant of its own; the step doubles, so it stays below the size
  of the array and does not wrap around.
-/

namespace Pbist

open Checked Sorted

variable {T : Type} [LinearOrder T] {keys : List T} {searchKey : T}

/-! ### Binary search -/

/-- The loop of `do_binary_search` narrows any borders around the rank down to it. -/
theorem bisect_eq (h : keys.SortedLT) : ∀ {fuel curLeft curRight : ℕ},
    curLeft < rank keys searchKey → rank keys searchKey ≤ curRight → curRight < keys.length →
    curRight - curLeft ≤ fuel →
    bisect keys searchKey fuel curLeft curRight =
      .ok (rank keys searchKey - 1, rank keys searchKey) := by
  intro fuel
  induction fuel with
  | zero =>
    intro curLeft curRight hleft hright _ hfuel
    omega
  | succ fuel ih =>
    intro curLeft curRight hleft hright hlen hfuel
    rw [bisect]
    -- the assertions of the loop say that the rank stays between the borders
    by_cases hloop : curLeft + 1 < curRight
    · have hmid : curLeft + (curRight - curLeft) / 2 < keys.length := by omega
      have hleftKey : keys[curLeft] < searchKey := (lt_rank_iff h _).1 hleft
      have hrightKey : searchKey ≤ keys[curRight] := (rank_le_iff h _).1 hright
      rw [if_pos hloop, get_of_lt (show curLeft < keys.length by omega), ok_bind,
        require_of hleftKey, ok_bind, get_of_lt hlen, ok_bind, require_of hrightKey, ok_bind,
        subtract_of_le (by omega), ok_bind]
      simp only [get_of_lt hmid, ok_bind]
      by_cases hkey : keys[curLeft + (curRight - curLeft) / 2] < searchKey
      · rw [if_pos hkey]
        exact ih ((lt_rank_iff h hmid).2 hkey) hright hlen (by omega)
      · rw [if_neg hkey]
        exact ih hleft ((rank_le_iff h hmid).2 (not_lt.1 hkey)) hmid (by omega)
    · rw [if_neg hloop]
      have hrank : rank keys searchKey = curRight := by omega
      rw [hrank, show curRight - 1 = curLeft by omega]

/-- `do_binary_search` on borders around the rank. -/
theorem doBinarySearch_eq (h : keys.SortedLT) {leftBorder rightBorder : ℕ}
    (hleft : leftBorder < rank keys searchKey) (hright : rank keys searchKey ≤ rightBorder)
    (hlen : rightBorder < keys.length) :
    doBinarySearch keys searchKey leftBorder rightBorder =
      .ok (rank keys searchKey, decide (searchKey ∈ keys)) := by
  have hrank : rank keys searchKey < keys.length := by omega
  have hpred : rank keys searchKey - 1 < keys.length := by omega
  have hleftKey : keys[rank keys searchKey - 1] < searchKey := (lt_rank_iff h hpred).1 (by omega)
  have hrightKey : searchKey ≤ keys[rank keys searchKey] := (rank_le_iff h hrank).1 le_rfl
  rw [doBinarySearch, require_of ⟨by omega, hlen⟩, ok_bind, bisect_eq h hleft hright hlen le_rfl]
  simp only [ok_bind, get_of_lt hpred, get_of_lt hrank, require_of hleftKey, require_of hrightKey]
  have hmem : searchKey = keys[rank keys searchKey] ↔ searchKey ∈ keys := by
    rw [mem_iff_getElem?_rank h, List.getElem?_eq_getElem hrank, Option.some.injEq, eq_comm]
  by_cases hfound : searchKey = keys[rank keys searchKey]
  · simp [if_pos hfound, hmem.1 hfound]
  · simp [if_neg hfound, mt hmem.2 hfound]

theorem getElem_zero_le (h : keys.SortedLT) (hlen : 0 < keys.length) {x : T} (hx : x ∈ keys) :
    keys[0] ≤ x := by
  obtain ⟨i, hi, rfl⟩ := List.getElem_of_mem hx
  exact h.getElem_le_getElem_iff.2 (Nat.zero_le i)

/-- The answer for a key in front of all keys. -/
theorem rank_of_lt_first (h : keys.SortedLT) (hlen : 0 < keys.length)
    (hlt : searchKey < keys[0]) : rank keys searchKey = 0 ∧ searchKey ∉ keys :=
  ⟨Nat.le_zero.1 ((rank_le_iff h hlen).2 hlt.le), fun hcon ↦
    absurd (getElem_zero_le h hlen hcon) (not_le.2 hlt)⟩

/-- The answer for a key behind all keys. -/
theorem rank_of_last_lt (h : keys.SortedLT) {last : ℕ} (hlen : last < keys.length)
    (hlast : last + 1 = keys.length) (hlt : keys[last] < searchKey) :
    rank keys searchKey = keys.length ∧ searchKey ∉ keys := by
  have hrank : last < rank keys searchKey := (lt_rank_iff h hlen).2 hlt
  have hle := rank_le_length keys searchKey
  refine ⟨by omega, fun hcon ↦ ?_⟩
  have := rank_lt_length h hcon
  omega

/-- **Binary search** returns the rank of the key and whether the key is present. -/
theorem binarySearch_eq (h : keys.SortedLT) (hne : keys ≠ []) (searchKey : T) :
    binarySearch keys searchKey = .ok (rank keys searchKey, decide (searchKey ∈ keys)) := by
  have hlen : 0 < keys.length := List.length_pos_iff.2 hne
  have hlast : keys.length - 1 < keys.length := by omega
  rw [binarySearch, require_of (Nat.succ_le_of_lt hlen), ok_bind, get_of_lt hlen, ok_bind]
  by_cases heq : searchKey = keys[0]
  · have hrank : rank keys searchKey = 0 := heq ▸ rank_getElem h hlen
    have hmem : searchKey ∈ keys := heq ▸ List.getElem_mem hlen
    rw [if_pos heq, hrank, decide_eq_true hmem, pure_eq_ok]
  rw [if_neg heq]
  by_cases hlt : searchKey < keys[0]
  · obtain ⟨hrank, hmem⟩ := rank_of_lt_first h hlen hlt
    simp [if_pos hlt, hrank, hmem]
  rw [if_neg hlt, subtract_of_le hlen, ok_bind, get_of_lt hlast, ok_bind]
  by_cases hgt : keys[keys.length - 1] < searchKey
  · obtain ⟨hrank, hmem⟩ := rank_of_last_lt h hlast (Nat.sub_add_cancel hlen) hgt
    simp [if_pos hgt, hrank, hmem]
  have hfirst : keys[0] < searchKey := lt_of_le_of_ne (not_lt.1 hlt) (Ne.symm heq)
  have hpos : 0 < rank keys searchKey := (lt_rank_iff h hlen).2 hfirst
  have hle : rank keys searchKey ≤ keys.length - 1 := (rank_le_iff h hlast).2 (not_lt.1 hgt)
  rw [if_neg hgt, require_of (by omega), ok_bind]
  exact doBinarySearch_eq h hpos hle hlast

/-! ### Galloping -/

/-- Galloping up from a key below the search key ends with a border below the search key and a probe
that is not, or that lies behind the array. The state after `i` doublings has `delta = 2 ^ i`. -/
theorem gallopUp_spec (h : keys.SortedLT) (hsize : keys.length ≤ 2 ^ 63) {guess : ℕ} :
    ∀ (fuel leftBorder i : ℕ), fuel + i = 64 → guess < keys.length →
      leftBorder < rank keys searchKey → (0 < i → guess + 2 ^ (i - 1) < keys.length) →
      ∃ l delta, (∀ ov, gallopUp ov keys searchKey guess fuel leftBorder (2 ^ i) = .ok (l, delta)) ∧
        l < rank keys searchKey ∧ guess + delta < 2 ^ 64 ∧
        (guess + delta < keys.length → rank keys searchKey ≤ guess + delta) := by
  intro fuel
  induction fuel with
  | zero =>
    intro leftBorder i hfuel hguess _ hprev
    -- after 63 doublings the previous probe was behind every array of `2 ^ 63` keys
    have := hprev (by omega)
    have : (2 : ℕ) ^ (i - 1) = 2 ^ 63 := by rw [show i - 1 = 63 by omega]
    omega
  | succ fuel ih =>
    intro leftBorder i hfuel hguess hleft hprev
    -- the previous probe was inside the array, so this one does not wrap around
    have hdelta : guess + 2 ^ i < 2 ^ 64 := by
      rcases Nat.eq_zero_or_pos i with rfl | hpos
      · simp only [pow_zero]
        omega
      · have := hprev hpos
        have : (2 : ℕ) ^ i = 2 * 2 ^ (i - 1) := by
          rw [← pow_succ']
          congr 1
          omega
        omega
    by_cases hprobe : guess + 2 ^ i < keys.length
    · by_cases hkey : keys[guess + 2 ^ i] < searchKey
      · have hnext : 2 * 2 ^ i = 2 ^ (i + 1) := by rw [pow_succ, mul_comm]
        have hshift : 2 * 2 ^ i < 2 ^ 64 := by omega
        obtain ⟨l, delta, hrun, hspec⟩ := ih (guess + 2 ^ i) (i + 1) (by omega)
          hguess ((lt_rank_iff h hprobe).2 hkey) (fun _ ↦ by simpa using hprobe)
        refine ⟨l, delta, fun ov ↦ ?_, hspec⟩
        rw [gallopUp, ov.add64_of_lt hdelta]
        simp only [ok_bind, if_pos hprobe, get_of_lt hprobe, if_pos hkey, ov.shl64_of_lt hshift]
        rw [hnext]
        exact hrun ov
      · refine ⟨leftBorder, 2 ^ i, fun ov ↦ ?_, hleft, hdelta, fun _ ↦ ?_⟩
        · rw [gallopUp, ov.add64_of_lt hdelta]
          simp only [ok_bind, if_pos hprobe, get_of_lt hprobe, if_neg hkey, pure_eq_ok]
        · exact (rank_le_iff h hprobe).2 (not_lt.1 hkey)
    · refine ⟨leftBorder, 2 ^ i, fun ov ↦ ?_, hleft, hdelta, fun hcon ↦ absurd hcon hprobe⟩
      rw [gallopUp, ov.add64_of_lt hdelta]
      simp only [ok_bind, if_neg hprobe, pure_eq_ok]

/-- Galloping down from a key that is not below the search key ends with a border that is not, and a
probe that is or that lies in front of the array. -/
theorem gallopDown_spec (h : keys.SortedLT) (hsize : keys.length ≤ 2 ^ 63) {guess : ℕ} :
    ∀ (fuel rightBorder i : ℕ), fuel + i = 64 → guess < keys.length →
      rank keys searchKey ≤ rightBorder → rightBorder < keys.length →
      (0 < i → 2 ^ (i - 1) ≤ guess) →
      ∃ r delta,
        (∀ ov, gallopDown ov keys searchKey guess fuel rightBorder (2 ^ i) = .ok (r, delta)) ∧
        rank keys searchKey ≤ r ∧ r < keys.length ∧
        (delta ≤ guess → guess - delta < rank keys searchKey) := by
  intro fuel
  induction fuel with
  | zero =>
    intro rightBorder i hfuel hguess _ _ hprev
    have := hprev (by omega)
    have : (2 : ℕ) ^ (i - 1) = 2 ^ 63 := by rw [show i - 1 = 63 by omega]
    omega
  | succ fuel ih =>
    intro rightBorder i hfuel hguess hright hlen hprev
    by_cases hprobe : 2 ^ i ≤ guess
    · have hlt : guess - 2 ^ i < keys.length := (Nat.sub_le _ _).trans_lt hguess
      by_cases hkey : searchKey ≤ keys[guess - 2 ^ i]
      · have hnext : 2 * 2 ^ i = 2 ^ (i + 1) := by rw [pow_succ, mul_comm]
        have hshift : 2 * 2 ^ i < 2 ^ 64 := by omega
        obtain ⟨r, delta, hrun, hspec⟩ := ih (guess - 2 ^ i) (i + 1) (by omega)
          hguess ((rank_le_iff h hlt).2 hkey) hlt (fun _ ↦ by simpa using hprobe)
        refine ⟨r, delta, fun ov ↦ ?_, hspec⟩
        rw [gallopDown, if_pos hprobe]
        simp only [subtract_of_le hprobe, ok_bind, get_of_lt hlt, if_pos hkey,
          ov.shl64_of_lt hshift]
        rw [hnext]
        exact hrun ov
      · refine ⟨rightBorder, 2 ^ i, fun ov ↦ ?_, hright, hlen, fun _ ↦ ?_⟩
        · rw [gallopDown, if_pos hprobe]
          simp only [subtract_of_le hprobe, ok_bind, get_of_lt hlt, if_neg hkey, pure_eq_ok]
        · exact (lt_rank_iff h hlt).2 (not_le.1 hkey)
    · refine ⟨rightBorder, 2 ^ i, fun ov ↦ ?_, hright, hlen, fun hcon ↦ absurd hcon hprobe⟩
      rw [gallopDown, if_neg hprobe]
      rfl

/-- **Galloping from any guess brackets the search key**, without wrapping around. -/
theorem findBorders_spec (h : keys.SortedLT) (hsize : keys.length ≤ 2 ^ 63)
    (hpos : 0 < rank keys searchKey) (hlt : rank keys searchKey < keys.length) {guess : ℕ}
    (hguess : guess < keys.length) :
    ∃ l r, (∀ ov, findBorders ov keys searchKey guess = .ok (l, r)) ∧
      l < rank keys searchKey ∧ rank keys searchKey ≤ r ∧ r < keys.length := by
  by_cases hkey : keys[guess] < searchKey
  · have hleft : guess < rank keys searchKey := (lt_rank_iff h hguess).2 hkey
    -- up from the guess; the loop ends at a probe behind the rank or behind the array
    obtain ⟨l, delta, hrun, hl, hwrap, hprobe⟩ :=
      gallopUp_spec h hsize 64 guess 0 rfl hguess hleft (by simp)
    simp only [pow_zero] at hrun
    by_cases hin : guess + delta < keys.length
    · refine ⟨l, guess + delta, fun ov ↦ ?_, hl, hprobe hin, hin⟩
      rw [findBorders, require_of hguess, ok_bind, require_of (by omega), ok_bind, get_of_lt hguess,
        ok_bind, if_pos hkey, require_of (by omega), ok_bind, hrun ov]
      simp only [ok_bind, ov.add64_of_lt hwrap, if_pos hin, pure_eq_ok]
    · refine ⟨l, keys.length - 1, fun ov ↦ ?_, hl, by omega, by omega⟩
      rw [findBorders, require_of hguess, ok_bind, require_of (by omega), ok_bind, get_of_lt hguess,
        ok_bind, if_pos hkey, require_of (by omega), ok_bind, hrun ov]
      simp only [ok_bind, ov.add64_of_lt hwrap, if_neg hin,
        subtract_of_le (show 1 ≤ keys.length by omega), pure_eq_ok]
  · have hright : rank keys searchKey ≤ guess := (rank_le_iff h hguess).2 (not_lt.1 hkey)
    -- down from the guess; the loop ends at a probe below the rank or in front of the array
    obtain ⟨r, delta, hrun, hr, hlen, hprobe⟩ :=
      gallopDown_spec h hsize 64 guess 0 rfl hguess hright hguess (by simp)
    simp only [pow_zero] at hrun
    by_cases hin : delta ≤ guess
    · refine ⟨guess - delta, r, fun ov ↦ ?_, hprobe hin, hr, hlen⟩
      rw [findBorders, require_of hguess, ok_bind, require_of (by omega), ok_bind, get_of_lt hguess,
        ok_bind, if_neg hkey, require_of (by omega), ok_bind, hrun ov]
      simp only [ok_bind, if_pos hin, subtract_of_le hin, pure_eq_ok]
    · refine ⟨0, r, fun ov ↦ ?_, hpos, hr, hlen⟩
      rw [findBorders, require_of hguess, ok_bind, require_of (by omega), ok_bind, get_of_lt hguess,
        ok_bind, if_neg hkey, require_of (by omega), ok_bind, hrun ov]
      simp only [ok_bind, if_neg hin, pure_eq_ok]

end Pbist
