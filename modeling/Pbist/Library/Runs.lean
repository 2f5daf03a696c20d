import Mathlib.Data.List.Basic
import Mathlib.Data.List.Range

/-!
# Decomposing an array into runs

A *run* of an array is a maximal block of equal entries other than a distinguished `blank`. An index
begins a run when its entry is not blank and differs from the entry before it; an index ends a run
when the entry before it is not blank and differs from the entry at it. Filtering the indices by the
two tests separately yields two lists that are only paired by position.

`runs` is the decomposition by recursion on the array. The two filters compute its first and its
second components (`filter_beginsAt`, `filter_endsAt`), so the `k`-th begin belongs to the `k`-th
end; its pairs are exactly the runs, in order, and cover all entries that are not blank.

## The main results

* `runs_block`, `runs_left` and `runs_right` say that the pairs are runs: the entries are equal, and
  the neighbours differ. `IsRun` collects this, without reference to the recursion.
* `runs_pairwise` and `runs_cover` say that they are in order, and that none is missing. Together
  with the first that determines them (`runs_unique`).
* `Grouped` arrays have one run for each value at most (`Grouped.pairwise_ne`), and then a run has
  all indices of its value (`Grouped.mem_run_iff`).
-/

namespace Runs

variable {α : Type*} [DecidableEq α]

/-- A run begins at index `i`. -/
def beginsAt (blank : α) (cs : List α) (i : ℕ) : Bool :=
  match cs[i]? with
  | none => false
  | some c => decide (c ≠ blank) && (decide (i = 0) || decide (cs[i - 1]? ≠ some c))

/-- A run ends in front of index `i`. -/
def endsAt (blank : α) (cs : List α) : ℕ → Bool
  | 0 => false
  | i + 1 => match cs[i]? with
    | none => false
    | some c => decide (c ≠ blank) && decide (cs[i + 1]? ≠ some c)

/-- An interval of the tail, as an interval of the whole array. -/
def shift (r : ℕ × ℕ) : ℕ × ℕ :=
  (r.1 + 1, r.2 + 1)

/-- The half-open intervals of the runs, from left to right. -/
def runs (blank : α) : List α → List (ℕ × ℕ)
  | [] => []
  | c :: cs =>
    let rest := (runs blank cs).map shift
    if c = blank then rest
    else if cs.head? = some c then
      match rest with
      | [] => []
      | r :: rest => (0, r.2) :: rest
    else (0, 1) :: rest

variable {blank : α} {cs : List α}

theorem beginsAt_zero (c : α) : beginsAt blank (c :: cs) 0 = decide (c ≠ blank) := by
  simp [beginsAt]

theorem beginsAt_succ_succ (c : α) (i : ℕ) :
    beginsAt blank (c :: cs) (i + 2) = beginsAt blank cs (i + 1) := by
  simp [beginsAt]

/-- A run of the tail begins at its head exactly when it does not continue the run of `c`. -/
theorem beginsAt_one (c : α) :
    beginsAt blank (c :: cs) 1 = (beginsAt blank cs 0 && decide (cs.head? ≠ some c)) := by
  rcases cs with - | ⟨d, cs⟩
  · simp [beginsAt]
  · simp [beginsAt, eq_comm]

theorem endsAt_succ_succ (c : α) (i : ℕ) :
    endsAt blank (c :: cs) (i + 2) = endsAt blank cs (i + 1) := by
  simp [endsAt]

theorem endsAt_one (c : α) :
    endsAt blank (c :: cs) 1 = (decide (c ≠ blank) && decide (cs.head? ≠ some c)) := by
  rcases cs with - | ⟨d, cs⟩ <;> simp [endsAt]

/-- A list that starts with an entry other than `blank` starts with a run. -/
theorem runs_of_head {c : α} (hc : c ≠ blank) (h : cs.head? = some c) :
    ∃ e rest, runs blank cs = (0, e) :: rest := by
  induction cs with
  | nil => simp at h
  | cons d cs ih =>
    obtain rfl : d = c := by simpa using h
    by_cases hd : cs.head? = some d
    · obtain ⟨e, rest, hr⟩ := ih hd
      exact ⟨e + 1, rest.map shift, by simp [runs, hc, hd, hr, shift]⟩
    · exact ⟨1, (runs blank cs).map shift, by simp [runs, hc, hd]⟩

/-- The three ways in which an entry extends the runs of the tail: a blank is skipped, an entry
equal to the next one extends the first run, any other entry is a run of its own. -/
theorem runs_cons (blank c : α) (cs : List α) :
    (c = blank ∧ runs blank (c :: cs) = (runs blank cs).map shift) ∨
    (c ≠ blank ∧ cs.head? = some c ∧ ∃ e rest, runs blank cs = (0, e) :: rest ∧
      runs blank (c :: cs) = (0, e + 1) :: rest.map shift) ∨
    (c ≠ blank ∧ cs.head? ≠ some c ∧
      runs blank (c :: cs) = (0, 1) :: (runs blank cs).map shift) := by
  by_cases hc : c = blank
  · exact .inl ⟨hc, by simp [runs, hc]⟩
  by_cases hh : cs.head? = some c
  · obtain ⟨e, rest, hr⟩ := runs_of_head hc hh
    exact .inr (.inl ⟨hc, hh, e, rest, hr, by simp [runs, hc, hh, hr, shift]⟩)
  · exact .inr (.inr ⟨hc, hh, by simp [runs, hc, hh]⟩)

/-! ### The two filters -/

/-- The indices at which a run begins are the first components of the runs. -/
theorem filter_beginsAt (cs : List α) :
    (List.range (cs.length + 1)).filter (beginsAt blank cs) = (runs blank cs).map Prod.fst := by
  induction cs with
  | nil => simp [beginsAt, runs]
  | cons c cs ih =>
    rw [List.length_cons, List.range_succ_eq_map, List.range_succ_eq_map] at *
    simp only [List.map_cons, List.map_map, List.filter_cons, List.filter_map, beginsAt_zero] at *
    have htail : (beginsAt blank (c :: cs) ∘ Nat.succ ∘ Nat.succ) = beginsAt blank cs ∘ Nat.succ :=
      funext fun i ↦ beginsAt_succ_succ c i
    simp only [htail, Nat.succ_eq_add_one, Nat.zero_add, beginsAt_one]
    have hshift := congrArg (List.map (· + 1)) ih
    rcases runs_cons blank c cs with ⟨hc, hruns⟩ | ⟨hc, hh, e, rest, hr, hruns⟩ | ⟨hc, hh, hruns⟩
    · -- a run of the tail that begins at its head differs from the blank before it
      have hhead : (beginsAt blank cs 0 && decide (cs.head? ≠ some c)) = beginsAt blank cs 0 := by
        rcases cs with - | ⟨d, cs⟩
        · simp
        · by_cases hd : d = c <;> simp [beginsAt_zero, hd, hc]
      simp only [apply_ite (List.map (· + 1)), List.map_cons, List.map_map] at hshift
      rw [hhead, hruns]
      simpa [hc, shift, Function.comp_def] using hshift
    · have hbegin : beginsAt blank cs 0 = true := by
        rcases cs with - | ⟨d, cs⟩
        · simp at hh
        · obtain rfl : d = c := by simpa using hh
          simp [beginsAt_zero, hc]
      rw [hr] at hshift
      simp only [hbegin, if_true, List.map_cons, List.cons.injEq, true_and, List.map_map] at hshift
      rw [hruns]
      simpa [hc, hh, shift, Function.comp_def] using hshift
    · simp only [apply_ite (List.map (· + 1)), List.map_cons, List.map_map] at hshift
      rw [hruns]
      simpa [hc, hh, shift, Function.comp_def] using hshift

/-- The indices in front of which a run ends are the second components of the runs. -/
theorem filter_endsAt (cs : List α) :
    (List.range (cs.length + 1)).filter (endsAt blank cs) = (runs blank cs).map Prod.snd := by
  induction cs with
  | nil => simp [endsAt, runs]
  | cons c cs ih =>
    rw [List.length_cons, List.range_succ_eq_map, List.range_succ_eq_map] at *
    simp only [List.map_cons, List.map_map, List.filter_cons, List.filter_map] at *
    have htail : (endsAt blank (c :: cs) ∘ Nat.succ ∘ Nat.succ) = endsAt blank cs ∘ Nat.succ :=
      funext fun i ↦ endsAt_succ_succ c i
    have hzero : ∀ cs : List α, endsAt blank cs 0 = false := fun _ ↦ rfl
    simp only [htail, Nat.succ_eq_add_one, Nat.zero_add, endsAt_one, hzero] at *
    have hshift := congrArg (List.map (· + 1)) ih
    simp only [Bool.false_eq_true, if_false, List.map_map] at hshift ⊢
    rcases runs_cons blank c cs with ⟨hc, hruns⟩ | ⟨hc, hh, e, rest, hr, hruns⟩ | ⟨hc, hh, hruns⟩
    · rw [hruns]
      simpa [hc, shift, Function.comp_def] using hshift
    · rw [hr] at hshift
      rw [hruns]
      simpa [hc, hh, shift, Function.comp_def] using hshift
    · rw [hruns]
      simpa [hc, hh, shift, Function.comp_def] using hshift

/-! ### What the runs are -/

/-- Every run is a nonempty block of one value. -/
theorem runs_block (cs : List α) : ∀ r ∈ runs blank cs,
    r.1 < r.2 ∧ ∃ c, ∀ i, r.1 ≤ i → i < r.2 → cs[i]? = some c := by
  induction cs with
  | nil => simp [runs]
  | cons c cs ih =>
    -- the runs of the tail are blocks of the whole list, one index further right
    have hshift : ∀ r ∈ runs blank cs, (shift r).1 < (shift r).2 ∧
        ∃ d, ∀ i, (shift r).1 ≤ i → i < (shift r).2 → (c :: cs)[i]? = some d := by
      intro r hr
      obtain ⟨hlt, d, hd⟩ := ih r hr
      refine ⟨Nat.succ_lt_succ hlt, d, fun i hi hi' ↦ ?_⟩
      obtain ⟨j, rfl⟩ : ∃ j, i = j + 1 := ⟨i - 1, by simp only [shift] at hi; omega⟩
      exact hd j (Nat.le_of_succ_le_succ hi) (Nat.lt_of_succ_lt_succ hi')
    intro r hr
    rcases runs_cons blank c cs with ⟨-, hruns⟩ | ⟨-, hh, e, rest, hrest, hruns⟩ | ⟨-, -, hruns⟩ <;>
      rw [hruns] at hr
    · obtain ⟨s, hs, rfl⟩ := List.mem_map.1 hr
      exact hshift s hs
    · rcases List.mem_cons.1 hr with rfl | hr
      · -- the first run of the tail starts with `c`, so `c` extends it
        obtain ⟨hlt, d, hd⟩ := ih (0, e) (by simp [hrest])
        have hdc : d = c := by
          have h0 := hd 0 le_rfl hlt
          rw [← List.head?_eq_getElem?, hh] at h0
          exact (Option.some.inj h0).symm
        refine ⟨Nat.succ_pos e, c, fun i _ hi ↦ ?_⟩
        cases i with
        | zero => rfl
        | succ i => exact hdc ▸ hd i (Nat.zero_le i) (Nat.lt_of_succ_lt_succ hi)
      · obtain ⟨s, hs, rfl⟩ := List.mem_map.1 hr
        exact hshift s (hrest ▸ List.mem_cons_of_mem _ hs)
    · rcases List.mem_cons.1 hr with rfl | hr
      · exact ⟨Nat.one_pos, c, fun i _ hi ↦ by simp [Nat.lt_one_iff.1 hi]⟩
      · obtain ⟨s, hs, rfl⟩ := List.mem_map.1 hr
        exact hshift s hs

/-- The runs are listed from left to right. -/
theorem runs_pairwise (cs : List α) : (runs blank cs).Pairwise fun r s ↦ r.2 ≤ s.1 := by
  induction cs with
  | nil => simp [runs]
  | cons c cs ih =>
    have hshift : ∀ {l : List (ℕ × ℕ)}, l.Pairwise (fun r s ↦ r.2 ≤ s.1) →
        (l.map shift).Pairwise fun r s ↦ r.2 ≤ s.1 := fun h ↦
      List.pairwise_map.2 (h.imp fun hle ↦ Nat.succ_le_succ hle)
    rcases runs_cons blank c cs with ⟨-, hruns⟩ | ⟨-, -, e, rest, hrest, hruns⟩ | ⟨-, -, hruns⟩ <;>
      rw [hruns]
    · exact hshift ih
    · rw [hrest, List.pairwise_cons] at ih
      refine List.pairwise_cons.2 ⟨fun s hs ↦ ?_, hshift ih.2⟩
      obtain ⟨t, ht, rfl⟩ := List.mem_map.1 hs
      exact Nat.succ_le_succ (ih.1 t ht)
    · refine List.pairwise_cons.2 ⟨fun s hs ↦ ?_, hshift ih⟩
      obtain ⟨t, -, rfl⟩ := List.mem_map.1 hs
      exact Nat.succ_le_succ (Nat.zero_le _)

/-- Every entry other than `blank` lies in a run. -/
theorem runs_cover (cs : List α) : ∀ {i : ℕ} {c : α}, cs[i]? = some c → c ≠ blank →
    ∃ r ∈ runs blank cs, r.1 ≤ i ∧ i < r.2 := by
  induction cs with
  | nil => simp
  | cons c cs ih =>
    intro i d hi hd
    cases i with
    | zero =>
      obtain rfl : c = d := by simpa using hi
      obtain ⟨e, rest, hrest⟩ := runs_of_head hd (show (c :: cs).head? = some c from rfl)
      have hmem : (0, e) ∈ runs blank (c :: cs) := by rw [hrest]; exact List.mem_cons_self
      exact ⟨(0, e), hmem, le_rfl, (runs_block _ _ hmem).1⟩
    | succ i =>
      obtain ⟨r, hr, hle, hlt⟩ := ih hi hd
      rcases runs_cons blank c cs with
        ⟨-, hruns⟩ | ⟨-, -, e, rest, hrest, hruns⟩ | ⟨-, -, hruns⟩ <;> rw [hruns]
      · exact ⟨shift r, List.mem_map_of_mem hr, Nat.succ_le_succ hle, Nat.succ_lt_succ hlt⟩
      · rcases List.mem_cons.1 (hrest ▸ hr) with rfl | hr
        · exact ⟨(0, e + 1), List.mem_cons_self, Nat.zero_le _, Nat.succ_lt_succ hlt⟩
        · exact ⟨shift r, List.mem_cons_of_mem _ (List.mem_map_of_mem hr), Nat.succ_le_succ hle,
            Nat.succ_lt_succ hlt⟩
      · exact ⟨shift r, List.mem_cons_of_mem _ (List.mem_map_of_mem hr), Nat.succ_le_succ hle,
          Nat.succ_lt_succ hlt⟩

/-- A run starts with its value, which is not blank, and does not continue the entry before it. -/
theorem runs_left {r : ℕ × ℕ} (hr : r ∈ runs blank cs) :
    ∃ c, cs[r.1]? = some c ∧ c ≠ blank ∧ (r.1 = 0 ∨ cs[r.1 - 1]? ≠ some c) := by
  have hmem : r.1 ∈ (List.range (cs.length + 1)).filter (beginsAt blank cs) := by
    rw [filter_beginsAt]
    exact List.mem_map.2 ⟨r, hr, rfl⟩
  have hbegin := (List.mem_filter.1 hmem).2
  rw [beginsAt] at hbegin
  rcases h : cs[r.1]? with - | c
  · simp [h] at hbegin
  · simp only [h, Bool.and_eq_true, Bool.or_eq_true, decide_eq_true_eq] at hbegin
    exact ⟨c, rfl, hbegin.1, hbegin.2⟩

/-- A run is not continued by the entry behind it. -/
theorem runs_right {r : ℕ × ℕ} (hr : r ∈ runs blank cs) : cs[r.2]? ≠ cs[r.1]? := by
  have hmem : r.2 ∈ (List.range (cs.length + 1)).filter (endsAt blank cs) := by
    rw [filter_endsAt]
    exact List.mem_map.2 ⟨r, hr, rfl⟩
  have hend := (List.mem_filter.1 hmem).2
  obtain ⟨hlt, c, hc⟩ := runs_block cs r hr
  obtain ⟨e, he⟩ : ∃ e, r.2 = e + 1 := ⟨r.2 - 1, by omega⟩
  rw [he, endsAt, hc e (by omega) (by omega)] at hend
  simp only [Bool.and_eq_true, decide_eq_true_eq] at hend
  rw [hc r.1 le_rfl hlt, he]
  exact hend.2

theorem runs_le_length {r : ℕ × ℕ} (hr : r ∈ runs blank cs) : r.2 ≤ cs.length := by
  obtain ⟨hlt, c, hc⟩ := runs_block cs r hr
  have := (List.getElem?_eq_some_iff.1 (hc (r.2 - 1) (by omega) (by omega))).1
  omega

/-- The interval from `b` to `e - 1` is a block of equal entries other than `blank` that cannot be
made longer on either side. -/
structure IsRun (blank : α) (cs : List α) (b e : ℕ) : Prop where
  lt : b < e
  block : ∃ c ≠ blank, ∀ i, b ≤ i → i < e → cs[i]? = some c
  left : b = 0 ∨ cs[b - 1]? ≠ cs[b]?
  right : cs[e]? ≠ cs[b]?

/-- The runs are what their name says. -/
theorem isRun_of_mem {r : ℕ × ℕ} (hr : r ∈ runs blank cs) : IsRun blank cs r.1 r.2 := by
  obtain ⟨hlt, c, hc⟩ := runs_block cs r hr
  obtain ⟨d, hd, hne, hleft⟩ := runs_left hr
  obtain rfl : c = d := Option.some.inj ((hc r.1 le_rfl hlt).symm.trans hd)
  exact ⟨hlt, ⟨c, hne, hc⟩, by rwa [hd], runs_right hr⟩

/-- No position lies in two runs. -/
theorem runs_unique {i j p : ℕ} (hi : i < (runs blank cs).length) (hj : j < (runs blank cs).length)
    (hpi : (runs blank cs)[i].1 ≤ p ∧ p < (runs blank cs)[i].2)
    (hpj : (runs blank cs)[j].1 ≤ p ∧ p < (runs blank cs)[j].2) : i = j := by
  have hpair := List.pairwise_iff_getElem.1 (runs_pairwise cs : (runs blank cs).Pairwise _)
  by_contra hne
  rcases Nat.lt_or_gt_of_ne hne with hlt | hlt
  · have := hpair i j hi hj hlt
    omega
  · have := hpair j i hj hi hlt
    omega

/-! ### Grouped arrays

An array is grouped when equal entries other than `blank` are only separated by their equals. Then a
value other than `blank` has one run, which holds all its occurrences. -/

/-- Between two equal entries other than `blank` there are only their equals. -/
def Grouped (blank : α) (cs : List α) : Prop :=
  ∀ (i j k : ℕ) (c : α), i < j → j < k → c ≠ blank →
    cs[i]? = some c → cs[k]? = some c → cs[j]? = some c

/-- The run of a value holds all its occurrences. -/
theorem Grouped.mem_run_iff (hg : Grouped blank cs) {r : ℕ × ℕ} (hr : r ∈ runs blank cs) {i : ℕ} :
    cs[i]? = cs[r.1]? ↔ r.1 ≤ i ∧ i < r.2 := by
  obtain ⟨c, hc, hne, hleft⟩ := runs_left hr
  obtain ⟨hlt, d, hd⟩ := runs_block cs r hr
  have hdc : d = c := Option.some.inj ((hd r.1 le_rfl hlt).symm.trans hc)
  subst hdc
  rw [hc]
  constructor
  · intro hi
    by_contra hcon
    rcases Nat.lt_or_ge i r.1 with hlow | hlow
    · -- the entry in front of the run lies between two equal entries
      refine (hleft.resolve_left (by omega)) ?_
      rcases Nat.lt_or_ge i (r.1 - 1) with h | h
      · exact hg i (r.1 - 1) r.1 d h (by omega) hne hi hc
      · rwa [show r.1 - 1 = i by omega]
    · refine runs_right hr ?_
      rw [hc]
      rcases Nat.lt_or_ge r.2 i with h | h
      · exact hg r.1 r.2 i d hlt h hne hc hi
      · rwa [show r.2 = i by omega]
  · rintro ⟨hle, hlt'⟩
    exact hd i hle hlt'

/-- Different runs of a grouped array have different values. -/
theorem Grouped.pairwise_ne (hg : Grouped blank cs) :
    (runs blank cs).Pairwise fun r s ↦ cs[r.1]? ≠ cs[s.1]? := by
  refine (runs_pairwise cs).imp_of_mem fun hr hs hle heq ↦ ?_
  have := (hg.mem_run_iff hr).1 heq.symm
  omega

end Runs
