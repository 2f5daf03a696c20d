import Pbist.Memory.Runs
import Pbist.Memory.Space
import Pbist.Runs.Reachable
import Pbist.Search.Rounded

/-!
# Runs with `int32_t` keys in memory

What holds of the tree as its users run it: on a shared memory, with parallel threads, and with
doubles that are rounded to 53 bits.

## The main results, and what each rests on

All of them are consequences of the rules of the modules under `Memory`, by the soundness of the
logic (`Prog.correct_of_mem_wp`, `Spec.correct`), and of `int32Rounded_adequateOn`, by which rounded
doubles are good enough for keys of a window.

* `run_in_memory` and `get_keys_in_memory` start on the empty memory and end on it. That nothing is
  left says that there is no leak.
* `lookups_run_together` and `trees_are_independent` are about more than one thread of users: in the
  first the tree is shared and only read, in the second every user owns a tree. The replies are
  asserted inside the programs, so a wrong reply would be a fault.
* `memory_is_tree` stops a run before the destructor. The space comes from the rebuild policy
  (`keyCount_le`), which bounds the tombstones.
* `operation_frame` is not about runs: it holds for any memory that contains a tree.
-/

namespace Pbist

namespace Mem

open scoped Pointwise

variable {lo hi : ℤ} {t : ℕ} {keys : List I32} {ops : List (Op I32)} {round sqrt : ℚ → ℚ}

theorem admits_of_validRun (h : ValidRun lo hi t keys ops) : Admits (window lo hi) t keys ops :=
  ⟨h.sizeThreshold, h.sorted, h.mem, h.ops⟩

/-- The phases of a small run. -/
def samplePhases : List (Phase I32) :=
  [.alone (.insert ([2, 6].map I32.small)), .alone (.remove ([3].map I32.small)),
    .together [.contains ([3, 6].map I32.small), .containsKey (.small 4), .calcTreeSize],
    .alone (.remove ([4].map I32.small))]

/-- **A run in memory is safe and answers as a finite set does.** In every interleaving of its
threads, a run from the constructor to the destructor meets no fault (no null or dangling pointer,
no double free, no access outside an array, no failed assertion) and no data race. It ends, returns
the replies of the abstract run, and leaves the memory empty. -/
theorem run_in_memory (ov : Overflow) (hround : Rounding 53 round) (hsqrt : SqrtRounding 53 sqrt)
    (h : ValidRun lo hi t keys ops) (c : ℕ) :
    (run (int32Rounded ov round sqrt) c t keys ops).Correct 0 fun replies m ↦
      replies = (setRun keys ops).replies ∧ m = 0 :=
  Prog.correct_of_mem_wp Memory.valid_zero
    (run_gives (int32Rounded_adequateOn ov hround hsqrt h.width) (admits_of_validRun h) c rfl)

theorem run_in_memory_sample :
    (run (int32Double .trapping) 4 1 sampleKeys sampleOps).Correct 0 fun replies m ↦
      replies = [.flags [false, true], .flags [true], .flags [false, true], .flag true, .size 5,
        .flags [true]] ∧ m = 0 :=
  (run_in_memory .trapping (rounding_roundNearest (by decide))
    (sqrtRounding_sqrtNearest (by decide)) (validRun_sample le_rfl) 4).mono
      fun _ _ h ↦ ⟨h.1.trans (by decide), h.2⟩

/-- **Flattening in memory.** After any run, `get_keys` writes every cell of its array by one thread
and before it is read, in every interleaving; it returns the stored keys in increasing order, and
its arrays are freed. -/
theorem get_keys_in_memory (ov : Overflow) (hround : Rounding 53 round)
    (hsqrt : SqrtRounding 53 sqrt) (h : ValidRun lo hi t keys ops) (c : ℕ) :
    (runAndGetKeys (int32Rounded ov round sqrt) c t keys ops).Correct 0 fun stored m ↦
      stored = (setRun keys ops).stored.sort ∧ m = 0 :=
  Prog.correct_of_mem_wp Memory.valid_zero (runAndGetKeys_gives
    (int32Rounded_adequateOn ov hround hsqrt h.width) (admits_of_validRun h) c rfl)

theorem get_keys_in_memory_sample :
    (runAndGetKeys (int32Double .trapping) 4 1 sampleKeys sampleOps).Correct 0 fun stored m ↦
      stored = sampleStored ∧ m = 0 := by
  refine (get_keys_in_memory .trapping (rounding_roundNearest (by decide))
    (sqrtRounding_sqrtNearest (by decide)) (validRun_sample le_rfl) 4).mono ?_
  rintro stored m ⟨rfl, rfl⟩
  refine ⟨?_, rfl⟩
  rw [setRun_sample]
  exact (List.toFinset_sort (· ≤ ·) (by decide)).2 (by decide)

/-- A run in phases whose concurrent operations are lookups. -/
structure ValidPhases (lo hi : ℤ) (t : ℕ) (keys : List I32) (phases : List (Phase I32)) :
    Prop where
  run : ValidRun lo hi t keys (phases.flatMap Phase.ops)
  lookups : ∀ lookups, .together lookups ∈ phases → ∀ op ∈ lookups, Lookup op

theorem checkRun_int32Rounded {s : Memory Part (Val I32)} (ov : Overflow)
    (hround : Rounding 53 round) (hsqrt : SqrtRounding 53 sqrt) {phases : List (Phase I32)}
    (h : ValidPhases lo hi t keys phases) (c : ℕ) :
    Gives s 0 (checkRun (int32Rounded ov round sqrt) c t keys phases) () 0 := by
  have hphases : ∀ phase ∈ phases, phase.Valid (window lo hi) := fun phase hphase ↦
    ⟨fun op hop ↦ h.run.ops op (List.mem_flatMap.2 ⟨phase, hphase, hop⟩),
      fun lookups heq ↦ h.lookups lookups (heq ▸ hphase)⟩
  exact checkRun_gives (int32Rounded_adequateOn ov hround hsqrt h.run.width) h.run.sizeThreshold
    h.run.sorted h.run.mem hphases

/-- **Lookups may run at the same time.** Any number of threads that look up keys in one tree, in
any phase between two updates, do not race, and every one of them gets the reply of the abstract
set. -/
theorem lookups_run_together (ov : Overflow) (hround : Rounding 53 round)
    (hsqrt : SqrtRounding 53 sqrt) {phases : List (Phase I32)}
    (h : ValidRun lo hi t keys (phases.flatMap Phase.ops))
    (hlookups : ∀ lookups, .together lookups ∈ phases → ∀ op ∈ lookups, Lookup op) (c : ℕ) :
    (checkRun (int32Rounded ov round sqrt) c t keys phases).Correct 0 fun _ m ↦ m = 0 :=
  (Prog.correct_of_mem_wp Memory.valid_zero
    (checkRun_int32Rounded ov hround hsqrt ⟨h, hlookups⟩ c rfl)).mono fun _ _ hpost ↦ hpost.2

theorem lookups_run_together_sample :
    (checkRun (int32Double .trapping) 4 1 sampleKeys samplePhases).Correct 0 fun _ m ↦ m = 0 := by
  refine lookups_run_together .trapping (rounding_roundNearest (by decide))
    (sqrtRounding_sqrtNearest (by decide)) (validRun_sample le_rfl) ?_ 4
  intro lookups hphase op hop
  simp only [samplePhases, List.mem_cons, List.not_mem_nil, or_false, reduceCtorEq, false_or,
    Phase.together.injEq] at hphase
  subst hphase
  simp only [List.mem_cons, List.not_mem_nil, or_false] at hop
  rcases hop with rfl | rfl | rfl <;> exact trivial

/-- **Trees are independent.** Any number of users, each with a tree of their own, run at the same
time and share the allocator; in every interleaving there is no fault and no data race, every user
gets the replies of their own abstract set, and nothing is left. -/
theorem trees_are_independent (ov : Overflow) (hround : Rounding 53 round)
    (hsqrt : SqrtRounding 53 sqrt) {users : List (User I32)}
    (h : ∀ user ∈ users, ∃ lo hi, ValidPhases lo hi user.sizeThreshold user.keys user.phases)
    (c : ℕ) :
    (checkUsers (int32Rounded ov round sqrt) c users).Correct 0 fun _ m ↦ m = 0 := by
  have hgives : Gives 0 0 (checkUsers (int32Rounded ov round sqrt) c users) () 0 := by
    refine Gives.parallelShared fun i _ hi ↦ ?_
    rw [Nat.zero_add] at hi
    rw [List.getElem?_eq_getElem hi]
    obtain ⟨lo, hi', hvalid⟩ := h _ (List.getElem_mem hi)
    exact checkRun_int32Rounded ov hround hsqrt hvalid c
  exact (Prog.correct_of_mem_wp Memory.valid_zero (hgives rfl)).mono fun _ _ hpost ↦ hpost.2

theorem trees_are_independent_sample :
    (checkUsers (int32Double .trapping) 4 [⟨1, sampleKeys, sampleOps.map .alone⟩,
      ⟨2, sampleKeys, sampleOps.map .alone⟩]).Correct 0 fun _ m ↦ m = 0 := by
  refine trees_are_independent .trapping (rounding_roundNearest (by decide))
    (sqrtRounding_sqrtNearest (by decide)) (fun user huser ↦ ⟨0, 9, ?_⟩) 4
  have hflat : (sampleOps.map Phase.alone).flatMap Phase.ops = sampleOps := rfl
  have hlookups : ∀ lookups, .together lookups ∈ sampleOps.map Phase.alone →
      ∀ op ∈ lookups, Lookup op := fun lookups hmem ↦ by
    obtain ⟨op, -, heq⟩ := List.mem_map.1 hmem
    exact nomatch heq
  simp only [List.mem_cons, List.not_mem_nil, or_false] at huser
  rcases huser with rfl | rfl
  · exact ⟨hflat ▸ validRun_sample le_rfl, hlookups⟩
  · exact ⟨hflat ▸ validRun_sample (by decide), hlookups⟩

/-- **An operation owns nothing but the tree.** Wherever the object is, in whatever memory, every
interleaving of an operation on it ends with the right reply and with the updated tree in the place
of the old one, and the rest of the memory as it was. -/
theorem operation_frame (ov : Overflow) (hround : Rounding 53 round) (hsqrt : SqrtRounding 53 sqrt)
    (hwidth : hi - lo ≤ 2 ^ 31 - 1) (ht : 1 ≤ t) {ist : Ist I32} {S : Finset I32}
    (h : ist.Represents t (window lo hi) S) {op : Op I32} (hop : op.Valid (window lo hi))
    {tree : ℕ} {m rest : Memory Part (Val I32)} (hm : m ∈ treeAt tree ist)
    (hvalid : Memory.Valid (m + rest)) (c : ℕ) :
    (runOp (int32Rounded ov round sqrt) c tree op).Correct (m + rest) fun reply m' ↦
      reply = op.answer S ∧ ∃ ist' : Ist I32, ist'.Represents t (window lo hi) (op.effect S) ∧
        ∃ m₀ ∈ treeAt tree ist', m' = m₀ + rest := by
  have hA := int32Rounded_adequateOn ov hround hsqrt hwidth
  have hrelated : (⟨ist, [], 0, 0⟩ : RunState I32).tree.Represents t (window lo hi)
      (⟨S, []⟩ : SetState I32).stored ∧
        (⟨ist, [], 0, 0⟩ : RunState I32).replies = (⟨S, []⟩ : SetState I32).replies := ⟨h, rfl⟩
  refine (Spec.correct (runOp_gives (c := c) hA ht hrelated hop) hm hvalid).mono ?_
  rintro reply m' ⟨m₀, ⟨rfl, hm₀⟩, rfl⟩
  exact ⟨rfl, _, (Ist.Represents.next (c := c) hA.exact_reference ht hrelated hop).1, m₀, hm₀, rfl⟩

/-- The tree of the sample run, somewhere in memory beside a cell of someone else: an insertion
answers for both of its keys, and leaves the cell. -/
theorem operation_frame_sample :
    ∃ (tree other : ℕ) (m : Memory Part (Val I32)),
      m ∈ treeAt tree (finalState (int32 .trapping) 4 1 sampleKeys sampleOps).tree ∧
      (runOp (int32Double .trapping) 4 tree (.insert ([2, 4].map I32.small))).Correct
        (m + {((other, .curSize), .count 5)}) fun reply m' ↦
          reply = .flags [false, true] ∧ ((other, .curSize), .count 5) ∈ m' := by
  have hvalid : (Op.insert ([2, 4].map I32.small)).Valid (window 0 9) := by
    refine ⟨by decide, ?_⟩
    show ∀ x ∈ [2, 4].map I32.small, 0 ≤ x.1 ∧ x.1 ≤ 9
    decide
  have h : ValidRun 0 9 1 sampleKeys sampleOps := validRun_sample le_rfl
  have hround : Rounding 53 _ := rounding_roundNearest (by decide)
  have hsqrt : SqrtRounding 53 _ := sqrtRounding_sqrtNearest (by decide)
  -- the run leaves its tree at some address
  obtain ⟨⟨tree, replies⟩, m, hm, -, htree⟩ := Prog.exists_of_mem_wp Memory.valid_zero
    (runToTree_spec (int32Rounded_adequateOn .trapping hround hsqrt h.width)
      (admits_of_validRun h) 4 rfl)
  obtain ⟨other, hother⟩ := Memory.exists_unused m
  refine ⟨tree, other, m, htree, (operation_frame .trapping hround hsqrt h.width le_rfl
    (h.represents .trapping 4) hvalid htree ?_ 4).mono ?_⟩
  · have hblock : Memory.Valid (Memory.block other [(Part.curSize, Val.count 5)] + m) :=
      hm.add_block hother (by simp)
    rwa [add_comm]
  · rintro reply m' ⟨rfl, -, -, m₀, -, rfl⟩
    rw [setRun_sample]
    exact ⟨by decide, Multiset.mem_add.2 (.inr (Multiset.mem_singleton_self _))⟩

end Mem

end Pbist
