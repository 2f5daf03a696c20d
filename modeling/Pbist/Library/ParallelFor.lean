import Pbist.Library.Checked
import Mathlib.Data.List.Perm.Basic
import Mathlib.Algebra.BigOperators.Group.Finset.Basic

/-!
# Parallel loops under an arbitrary schedule

A parallel loop runs its iterations in some order, each of them as one step. A `Schedule` chooses
the order of every loop of a computation: loops and calls are addressed by the path of loop and
iteration numbers that leads to them, so the orders of different loops are chosen independently of
each other. The order is a permutation by construction; no schedule skips or repeats an iteration.

`parallelFor_eq` is the rule for such loops. The state after the iterations of a set `D` is
described by a function `f` of `D`; if every iteration `i ∉ D` takes `f D` to `f (insert i D)`, the
loop takes `f ∅` to `f` of all iterations, whatever the schedule.

## The rules

* `parallelFor_eq` is the general rule, by induction on the iterations that are still to be run.
* `parallelFor_union` and `fork2_union` are the special case in which the state is described by a
  set of indices, and each iteration adds its own.
* `parallelFor_congr` and `exists_of_parallelFor_eq_ok` are about the body alone: a loop depends on
  its own iterations only, and it returns only if all of them do.
-/

/-- A choice of an order of the iterations `0, ..., n - 1` for the loop at each path. -/
def Schedule := List ℕ → (n : ℕ) → {order : List ℕ // order.Perm (List.range n)}

namespace Schedule

/-- The order in which the loop at the empty path runs `n` iterations. -/
def order (σ : Schedule) (n : ℕ) : List ℕ :=
  (σ [] n).1

/-- The schedule of the loop or the call number `i`. -/
def sub (σ : Schedule) (i : ℕ) : Schedule :=
  fun path ↦ σ (i :: path)

/-- The schedule that runs every loop in index order. -/
def sequential : Schedule :=
  fun _ n ↦ ⟨List.range n, List.Perm.refl _⟩

/-- The schedule that runs every loop from its last iteration to its first. -/
def reversed : Schedule :=
  fun _ n ↦ ⟨(List.range n).reverse, List.reverse_perm _⟩

theorem mem_order {σ : Schedule} {n i : ℕ} : i ∈ σ.order n ↔ i < n :=
  ((σ [] n).2.mem_iff).trans List.mem_range

theorem nodup_order (σ : Schedule) (n : ℕ) : (σ.order n).Nodup :=
  ((σ [] n).2.nodup_iff).2 List.nodup_range

end Schedule

variable {S : Type}

/-- The iterations `lo, ..., hi - 1` of a loop, in the order of the schedule. -/
def parallelFor (σ : Schedule) (lo hi : ℕ) (body : ℕ → S → Checked S) (s : S) : Checked S :=
  (σ.order (hi - lo)).foldlM (fun s i ↦ body (lo + i) s) s

/-- Two branches, in the order of the schedule. -/
def fork2 (σ : Schedule) (left right : S → Checked S) (s : S) : Checked S :=
  parallelFor σ 0 2 (fun i ↦ if i = 0 then left else right) s

/-- **The loop rule.** It suffices to describe the state after any set of iterations. -/
theorem parallelFor_eq {σ : Schedule} {lo hi : ℕ} {body : ℕ → S → Checked S} (f : Finset ℕ → S)
    (step : ∀ D i, D ⊆ Finset.Ico lo hi → lo ≤ i → i < hi → i ∉ D →
      body i (f D) = .ok (f (insert i D))) :
    parallelFor σ lo hi body (f ∅) = .ok (f (Finset.Ico lo hi)) := by
  -- the iterations of `todo` are still to be run, those of `D` are done
  have hrun : ∀ (todo : List ℕ) (D : Finset ℕ), D ⊆ Finset.Ico lo hi → todo.Nodup →
      (∀ i ∈ todo, i < hi - lo ∧ lo + i ∉ D) →
      todo.foldlM (fun s i ↦ body (lo + i) s) (f D) =
        .ok (f (D ∪ (todo.map (lo + ·)).toFinset)) := by
    intro todo
    induction todo with
    | nil => intro D _ _ _; simp
    | cons i todo ih =>
      intro D hD hnodup htodo
      obtain ⟨hi, hnot⟩ := htodo i List.mem_cons_self
      obtain ⟨hi', hnodup'⟩ := List.nodup_cons.1 hnodup
      rw [List.foldlM_cons, step D (lo + i) hD (by omega) (by omega) hnot, Checked.ok_bind, ih]
      · congr 2
        ext j
        simp
      · exact Finset.insert_subset (Finset.mem_Ico.2 ⟨by omega, by omega⟩) hD
      · exact hnodup'
      · intro j hj
        refine ⟨(htodo j (List.mem_cons_of_mem _ hj)).1, fun hmem ↦ ?_⟩
        rcases Finset.mem_insert.1 hmem with heq | hmem
        · exact hi' ((show i = j by omega) ▸ hj)
        · exact (htodo j (List.mem_cons_of_mem _ hj)).2 hmem
  rw [parallelFor, hrun _ ∅ (Finset.empty_subset _) (σ.nodup_order _)]
  · congr 2
    ext j
    simp only [Finset.empty_union, List.mem_toFinset, List.mem_map, Schedule.mem_order,
      Finset.mem_Ico]
    constructor
    · rintro ⟨i, hi, rfl⟩
      omega
    · rintro ⟨hlo, hhi⟩
      exact ⟨j - lo, by omega, by omega⟩
  · intro i hi
    exact ⟨Schedule.mem_order.1 hi, by simp⟩

/-- A loop depends on its own iterations only. -/
theorem parallelFor_congr {σ : Schedule} {lo hi : ℕ} {body body' : ℕ → S → Checked S}
    (h : ∀ i, lo ≤ i → i < hi → body i = body' i) :
    parallelFor σ lo hi body = parallelFor σ lo hi body' := by
  funext s
  refine Checked.foldlM_congr (fun i hi' s ↦ ?_) s
  have := Schedule.mem_order.1 hi'
  rw [h (lo + i) (Nat.le_add_right _ _) (by omega)]

/-- In a loop that returns, every iteration does. -/
theorem exists_of_parallelFor_eq_ok {σ : Schedule} {lo hi : ℕ} {body : ℕ → S → Checked S} {s s' : S}
    (h : parallelFor σ lo hi body s = .ok s') {i : ℕ} (hlo : lo ≤ i) (hhi : i < hi) :
    ∃ s₁ s₂, body i s₁ = .ok s₂ := by
  have hbody := Checked.exists_of_foldlM_eq_ok h (i - lo)
    (Schedule.mem_order.2 (Nat.sub_lt_sub_right hlo hhi))
  rwa [Nat.add_sub_cancel' hlo] at hbody

/-- The rule for a loop whose state is described by the set of indices that are done, when iteration
`i` does the indices in `P i` and no index is done twice. -/
theorem parallelFor_union {σ : Schedule} {lo hi : ℕ} {body : ℕ → S → Checked S}
    (g : Finset ℕ → S) (P : ℕ → Finset ℕ) {E : Finset ℕ}
    (hP : ∀ i j, lo ≤ i → i < hi → lo ≤ j → j < hi → i ≠ j → Disjoint (P i) (P j))
    (hE : ∀ i, lo ≤ i → i < hi → Disjoint E (P i))
    (step : ∀ i E', lo ≤ i → i < hi → Disjoint E' (P i) → body i (g E') = .ok (g (E' ∪ P i))) :
    parallelFor σ lo hi body (g E) = .ok (g (E ∪ (Finset.Ico lo hi).biUnion P)) := by
  have h := @parallelFor_eq S σ lo hi body (fun D ↦ g (E ∪ D.biUnion P)) fun D i hD hlo hhi hi ↦ by
    have hdisj : Disjoint (E ∪ D.biUnion P) (P i) := by
      refine Finset.disjoint_union_left.2 ⟨hE i hlo hhi, ?_⟩
      refine (Finset.disjoint_biUnion_left _ _ _).2 fun j hj ↦ ?_
      obtain ⟨hjlo, hjhi⟩ := Finset.mem_Ico.1 (hD hj)
      exact hP j i hjlo hjhi hlo hhi fun heq ↦ hi (heq ▸ hj)
    rw [step i _ hlo hhi hdisj, Finset.biUnion_insert, Finset.union_assoc,
      Finset.union_comm (D.biUnion P)]
  simpa using h

/-- The rule for two branches whose state is described by the set of indices that are done: each may
run first. -/
theorem fork2_union {σ : Schedule} {left right : S → Checked S} (g : Finset ℕ → S)
    {E P Q : Finset ℕ} (hPQ : Disjoint P Q) (hP : Disjoint E P) (hQ : Disjoint E Q)
    (hleft : ∀ E', Disjoint E' P → left (g E') = .ok (g (E' ∪ P)))
    (hright : ∀ E', Disjoint E' Q → right (g E') = .ok (g (E' ∪ Q))) :
    fork2 σ left right (g E) = .ok (g (E ∪ (P ∪ Q))) := by
  have hunion : (Finset.Ico 0 2).biUnion (fun i ↦ if i = 0 then P else Q) = P ∪ Q := by
    rw [show Finset.Ico 0 2 = {0, 1} from rfl, Finset.biUnion_insert, Finset.singleton_biUnion]
    rfl
  rw [fork2, ← hunion]
  refine parallelFor_union g _ (fun i j _ hi _ hj hij ↦ ?_) (fun i _ _ ↦ ?_)
    fun i E' _ hi hE' ↦ ?_
  · rcases (show i = 0 ∧ j = 1 ∨ i = 1 ∧ j = 0 by omega) with ⟨rfl, rfl⟩ | ⟨rfl, rfl⟩
    · exact hPQ
    · exact hPQ.symm
  · split
    · exact hP
    · exact hQ
  · split at hE'
    · rename_i hzero
      rw [if_pos hzero, if_pos hzero]
      exact hleft E' hE'
    · rename_i hone
      rw [if_neg hone, if_neg hone]
      exact hright E' hE'

/-- The rule for a loop that writes to one array: iteration `i` writes `v (offset + i)` to the cell
`offset + i`. -/
theorem parallelFor_write {α : Type} {σ : Schedule} {lo hi offset : ℕ}
    {body : ℕ → Buffer α → Checked (Buffer α)} {b : Buffer α} {v : ℕ → α} {E : Finset ℕ}
    (hlen : offset + hi ≤ b.length) (hE : Disjoint E (Finset.Ico (offset + lo) (offset + hi)))
    (hbody : ∀ i b', lo ≤ i → i < hi → body i b' = b'.write (offset + i) (v (offset + i))) :
    parallelFor σ lo hi body (Buffer.writeOn v E b) =
      .ok (Buffer.writeOn v (E ∪ Finset.Ico (offset + lo) (offset + hi)) b) := by
  have hunion : (Finset.Ico lo hi).biUnion (fun i ↦ {offset + i}) =
      Finset.Ico (offset + lo) (offset + hi) := by
    ext m
    simp only [Finset.mem_biUnion, Finset.mem_Ico, Finset.mem_singleton]
    constructor
    · rintro ⟨i, hi, rfl⟩
      omega
    · rintro ⟨hlo, hhi⟩
      exact ⟨m - offset, by omega, by omega⟩
  rw [← hunion]
  refine parallelFor_union (fun E ↦ Buffer.writeOn v E b) (fun i ↦ {offset + i})
    (fun i j _ _ _ _ hij ↦ Finset.disjoint_singleton.2 (by omega))
    (fun i hlo hhi ↦ Finset.disjoint_singleton_right.2 fun hi ↦
      Finset.disjoint_left.1 hE hi (Finset.mem_Ico.2 ⟨by omega, by omega⟩))
    fun i E' hlo hhi hE' ↦ ?_
  rw [hbody i _ hlo hhi,
    Buffer.write_writeOn (by omega) (Finset.disjoint_singleton_right.1 hE') rfl,
    Finset.union_comm, Finset.insert_eq]
