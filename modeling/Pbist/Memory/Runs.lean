import Pbist.Memory.Tree
import Pbist.Runs.Reachable

/-!
# Runs in memory

A whole run, from the constructor to the destructor, as a parallel program that starts on the empty
memory. Whatever the interleaving of its threads, it meets no fault and no data race, ends, returns
what the abstract set returns, and frees all it allocated.

`runOps_gives` is the induction over the operations, from `runOp_gives` for one of them; the
relation between the tree and the abstract set is that of the functional operations
(`Represents.next`). The programs with users that run at the same time, `checkRun` and `checkUsers`,
assert the replies themselves, and use the same rules with a shared tree.
-/

namespace Pbist

namespace Mem

open Checked Assertion Sorted

open scoped Pointwise

variable {T : Type} [LinearOrder T] {s : Memory Part (Val T)} {tree t c : ℕ} {W : Set T}
  {A : Doubles T} {keys : List T} {S : Finset T} {rs : RunState T} {x : SetState T}

/-- The reply that the functional operation records is that of the abstract set. -/
theorem eq_answer_of_record {R : Type} {reply : R → Reply} {step : Step T R} {op : Op T}
    (h : rs.replies = x.replies)
    (hreplies : (rs.record reply step).replies = (x.next op).replies) :
    reply step.result = op.answer x.stored := by
  rw [RunState.record, SetState.next, h] at hreplies
  exact List.singleton_inj.1 (List.append_cancel_left hreplies)

/-- The operations that only read the tree. -/
def Lookup : Op T → Prop
  | .insert _ => False
  | .remove _ => False
  | .contains _ => True
  | .containsKey _ => True
  | .calcTreeSize => True

/-! ### One operation -/

section Operations

variable (hA : A.AdequateOn W) (ht : 1 ≤ t)
  (h : rs.tree.Represents t W x.stored ∧ rs.replies = x.replies)

include hA ht h

/-- **A lookup** in a shared tree returns the reply of the abstract set. -/
theorem lookup_gives (hstored : StoredTree s rs.tree tree) {op : Op T} (hop : op.Valid W)
    (hlookup : Lookup op) : Gives s 0 (runOp A c tree op) (op.answer x.stored) 0 := by
  have hnext := (Ist.Represents.next (c := c) hA.exact_reference ht h hop).2
  cases op with
  | insert keys => exact hlookup.elim
  | remove keys => exact hlookup.elim
  | contains keys =>
    rw [← eq_answer_of_record h.2 hnext]
    refine (contains_spec hstored hA h.1.inv hop.sorted).bind fun result ↦ ?_
    exact (takeAnswers (by rw [Ist.membership, List.length_map]; rfl)).bind Gives.ret
  | containsKey key =>
    rw [← eq_answer_of_record h.2 hnext]
    exact (containsSingle_gives hstored hA h.1.inv key).bind Gives.ret
  | calcTreeSize =>
    rw [← eq_answer_of_record h.2 hnext]
    exact (calcTreeSize_gives hstored hA h.1.inv).bind Gives.ret

/-- **One operation** changes the tree as the functional operation does, and returns the reply of
the abstract set. -/
theorem runOp_gives {op : Op T} (hop : op.Valid W) :
    Gives s (treeAt tree rs.tree) (runOp A c tree op) (op.answer x.stored)
      (treeAt tree (rs.next A.reference c op).tree) := by
  have hnext := (Ist.Represents.next (c := c) hA.exact_reference ht h hop).2
  have hshare : Lookup op → Gives s (treeAt tree rs.tree) (runOp A c tree op)
      (op.answer x.stored) (treeAt tree rs.tree) := fun hlookup ↦
    readTree fun _ hstored ↦ lookup_gives hA ht h hstored hop hlookup
  cases op with
  | insert keys =>
    rw [← eq_answer_of_record h.2 hnext]
    refine (insert_spec hA h.1 hop.sorted ht hop.mem).bind fun result ↦ ?_
    exact (takeAnswers (by rw [Ist.updated, Ist.flags, List.length_map]; rfl)).consume _ rfl
      Gives.ret
  | remove keys =>
    rw [← eq_answer_of_record h.2 hnext]
    refine (remove_spec hA h.1 hop.sorted ht hop.mem).bind fun result ↦ ?_
    exact (takeAnswers (by rw [Ist.updated, Ist.flags, List.length_map]; rfl)).consume _ rfl
      Gives.ret
  | contains keys => exact hshare trivial
  | containsKey key => exact hshare trivial
  | calcTreeSize => exact hshare trivial

end Operations

/-! ### Whole runs -/

/-- **The operations of a run**, from a tree that represents the abstract set. -/
theorem runOps_gives (hA : A.AdequateOn W) (ht : 1 ≤ t) {ops : List (Op T)} :
    ∀ {rs : RunState T} {x : SetState T},
      rs.tree.Represents t W x.stored ∧ rs.replies = x.replies → (∀ op ∈ ops, op.Valid W) →
      Gives s (treeAt tree rs.tree) (runOps A c tree ops x.replies)
        (ops.foldl SetState.next x).replies
        (treeAt tree (ops.foldl (RunState.next A.reference c) rs).tree) := by
  induction ops with
  | nil => exact fun _ _ ↦ Gives.ret
  | cons op ops ih =>
    intro rs x h hops
    have hop := hops op List.mem_cons_self
    refine (runOp_gives hA ht h hop).bind ?_
    exact ih (Ist.Represents.next hA.exact_reference ht h hop) fun op' hop' ↦
      hops op' (List.mem_cons_of_mem op hop')

/-- The functional run represents the abstract run. -/
theorem represents_finalState {A : Arith T} (hA : A.Exact) (ht : 1 ≤ t) {ops : List (Op T)} :
    ∀ {rs : RunState T} {x : SetState T},
      rs.tree.Represents t W x.stored ∧ rs.replies = x.replies → (∀ op ∈ ops, op.Valid W) →
      (ops.foldl (RunState.next A c) rs).tree.Represents t W (ops.foldl SetState.next x).stored ∧
        (ops.foldl (RunState.next A c) rs).replies = (ops.foldl SetState.next x).replies := by
  induction ops with
  | nil => exact fun h _ ↦ h
  | cons op ops ih =>
    intro rs x h hops
    exact ih (Ist.Represents.next hA ht h (hops op List.mem_cons_self)) fun op' hop' ↦
      hops op' (List.mem_cons_of_mem op hop')

/-- What a run expects of its arguments. -/
structure Admits (W : Set T) (t : ℕ) (keys : List T) (ops : List (Op T)) : Prop where
  sizeThreshold : 1 ≤ t
  sorted : keys.SortedLT
  mem : ∀ x ∈ keys, x ∈ W
  ops : ∀ op ∈ ops, op.Valid W

section Main

variable {ops : List (Op T)} (hA : A.AdequateOn W) (h : Admits W t keys ops)

include hA h

/-- The constructor's tree represents the initial keys. -/
theorem Admits.start : (RunState.start A.reference t keys).tree.Represents t W keys.toFinset ∧
    (RunState.start A.reference t keys).replies = [] :=
  ⟨Ist.Represents.start hA.exact_reference h.sizeThreshold h.sorted h.mem, rfl⟩

/-- The tree at the end represents the set at the end. -/
theorem Admits.final (c : ℕ) : (finalState A.reference c t keys ops).tree.Represents t W
    (setRun keys ops).stored :=
  (represents_finalState (x := ⟨keys.toFinset, []⟩) hA.exact_reference h.sizeThreshold (h.start hA)
    h.ops).1

/-- A run builds the tree of the functional run, and leaves nothing else. -/
theorem runToTree_spec (c : ℕ) : Spec s 0 (runToTree A c t keys ops) fun r ↦
    {m | r.2 = (setRun keys ops).replies ∧
      m ∈ treeAt r.1 (finalState A.reference c t keys ops).tree} :=
  (newTree_spec hA h.sizeThreshold h.sorted h.mem).bind fun _ ↦
    (runOps_gives (x := ⟨keys.toFinset, []⟩) hA h.sizeThreshold (h.start hA) h.ops).bind
      fun _ hm ↦ ⟨rfl, hm⟩

/-- The destructor frees the tree of a run. -/
theorem deleteTree_finalState (c : ℕ) :
    Gives s (treeAt tree (finalState A.reference c t keys ops).tree) (deleteTree tree) () 0 :=
  deleteTree_gives (hA.slotHeight_le subset_rfl (h.final hA c).inv)

/-- A run returns the replies of the abstract run, and leaves nothing. -/
theorem run_gives (c : ℕ) : Gives s 0 (run A c t keys ops) (setRun keys ops).replies 0 := by
  refine (runToTree_spec hA h c).bind fun r m hm ↦ ?_
  obtain ⟨tree, replies⟩ := r
  obtain ⟨rfl, hm⟩ := hm
  exact (Gives.bind (deleteTree_finalState hA h c) Gives.ret :
    Gives s _ (deleteTree tree >>= fun _ ↦ pure (setRun keys ops).replies) _ 0) hm

/-- Reading all keys at the end returns the stored set in order. -/
theorem runAndGetKeys_gives (c : ℕ) :
    Gives s 0 (runAndGetKeys A c t keys ops) (setRun keys ops).stored.sort 0 := by
  refine (runToTree_spec hA h c).bind fun r m hm ↦ ?_
  obtain ⟨tree, replies⟩ := r
  obtain ⟨-, hm⟩ := hm
  have hfinal := h.final hA c
  rw [← hfinal.live_eq]
  refine Gives.bind (readTree fun _ hstored ↦ treeGetKeys_gives hstored hA hfinal.inv) ?_ hm
  exact Gives.bind (deleteTree_finalState hA h c) Gives.ret

end Main

/-! ### Phases -/

/-- What the user of a tree does next: one operation alone, or some lookups all at the same time. -/
inductive Phase (T : Type)
  | alone (op : Op T)
  | together (lookups : List (Op T))

/-- The operations of a phase. -/
def Phase.ops : Phase T → List (Op T)
  | .alone op => [op]
  | .together lookups => lookups

/-- The stored set after a phase. -/
def Phase.effect (S : Finset T) : Phase T → Finset T
  | .alone op => op.effect S
  | .together _ => S

/-- Only lookups run together. -/
def Phase.Valid (W : Set T) (phase : Phase T) : Prop :=
  (∀ op ∈ phase.ops, op.Valid W) ∧ ∀ lookups, phase = .together lookups → ∀ op ∈ lookups, Lookup op

/-- An operation of a user who knows that the tree stores `S` and asserts that the reply is
right. -/
def checkOp (A : Doubles T) (coefficient tree : ℕ) (S : Finset T) (op : Op T) : Code T Unit := do
  let reply ← runOp A coefficient tree op
  assert (reply = op.answer S)

/-- A phase of such a user. -/
def checkPhase (A : Doubles T) (coefficient tree : ℕ) (S : Finset T) : Phase T → Code T Unit
  | .alone op => checkOp A coefficient tree S op
  | .together lookups =>
    Prog.parallel (fun i ↦ match lookups[i]? with
      | some op => checkOp A coefficient tree S op
      | none => .fault) 0 lookups.length

/-- Some phases, from a tree that stores `S`. -/
def checkPhases (A : Doubles T) (coefficient tree : ℕ) : List (Phase T) → Finset T → Code T Unit
  | [], _ => pure ()
  | phase :: phases, S => do
    checkPhase A coefficient tree S phase
    checkPhases A coefficient tree phases (phase.effect S)

/-- The life of a tree whose user alternates between updates and concurrent lookups. -/
def checkRun (A : Doubles T) (coefficient sizeThreshold : ℕ) (keys : List T)
    (phases : List (Phase T)) : Code T Unit := do
  let tree ← newTree A keys sizeThreshold
  checkPhases A coefficient tree phases keys.toFinset
  deleteTree tree

/-- A user with a tree of their own. -/
structure User (T : Type) where
  sizeThreshold : ℕ
  keys : List T
  phases : List (Phase T)

/-- Some users at the same time, each in a thread. -/
def checkUsers (A : Doubles T) (coefficient : ℕ) (users : List (User T)) : Code T Unit :=
  Prog.parallel (fun i ↦ match users[i]? with
    | some user => checkRun A coefficient user.sizeThreshold user.keys user.phases
    | none => .fault) 0 users.length

/-- The object at `tree`, if it stores `S`. -/
def storesAt (W : Set T) (t tree : ℕ) (S : Finset T) : Assertion Part (Val T) :=
  {m | ∃ ist : Ist T, ist.Represents t W S ∧ m ∈ treeAt tree ist}

section Phases

variable (hA : A.AdequateOn W) (ht : 1 ≤ t)

include hA ht

theorem checkOp_gives {op : Op T} (hop : op.Valid W) :
    Gives s (storesAt W t tree S) (checkOp A c tree S op) () (storesAt W t tree (op.effect S)) := by
  rintro m ⟨ist, h, hm⟩
  have hrelated : (⟨ist, [], 0, 0⟩ : RunState T).tree.Represents t W (⟨S, []⟩ : SetState T).stored ∧
      (⟨ist, [], 0, 0⟩ : RunState T).replies = (⟨S, []⟩ : SetState T).replies := ⟨h, rfl⟩
  refine (runOp_gives (c := c) hA ht hrelated hop).bind ?_ hm
  rw [assert_of rfl]
  exact fun m hm ↦
    ⟨rfl, _, (Ist.Represents.next (c := c) hA.exact_reference ht hrelated hop).1, hm⟩

theorem checkPhase_gives {phase : Phase T} (hphase : phase.Valid W) :
    Gives s (storesAt W t tree S) (checkPhase A c tree S phase) ()
      (storesAt W t tree (phase.effect S)) := by
  obtain ⟨hvalid, hlookups⟩ := hphase
  cases phase with
  | alone op => exact checkOp_gives hA ht (hvalid op List.mem_cons_self)
  | together lookups =>
    rintro m ⟨ist, h, hm⟩
    -- the threads share the tree
    have hread : Gives s (treeAt tree ist) (checkPhase A c tree S (.together lookups)) ()
        (treeAt tree ist) := readTree fun s' hstored ↦ by
      refine Gives.parallelShared fun i _ hi ↦ ?_
      rw [Nat.zero_add] at hi
      rw [List.getElem?_eq_getElem hi]
      have hmem := List.getElem_mem hi
      have hlookup := @lookup_gives T _ s' tree t c W A ⟨ist, [], 0, 0⟩ ⟨S, []⟩ hA ht ⟨h, rfl⟩
        hstored _ (hvalid _ hmem) (hlookups lookups rfl _ hmem)
      refine Gives.bind hlookup ?_
      rw [assert_of rfl]
      exact Gives.ret
    refine hread.spec ?_ hm
    exact fun m' hm' ↦ ⟨rfl, ist, h, hm'⟩

theorem checkPhases_gives {phases : List (Phase T)} : ∀ {S : Finset T},
    (∀ phase ∈ phases, phase.Valid W) → Gives s (storesAt W t tree S)
      (checkPhases A c tree phases S) () (storesAt W t tree (phases.foldl Phase.effect S)) := by
  induction phases with
  | nil => exact fun _ ↦ Gives.ret
  | cons phase phases ih =>
    intro S hphases
    exact (checkPhase_gives hA ht (hphases phase List.mem_cons_self)).bind
      (ih fun phase' hphase' ↦ hphases phase' (List.mem_cons_of_mem phase hphase'))

/-- No reply is wrong, and nothing is left. -/
theorem checkRun_gives {phases : List (Phase T)} (hkeys : keys.SortedLT) (hmem : ∀ x ∈ keys, x ∈ W)
    (hphases : ∀ phase ∈ phases, phase.Valid W) : Gives s 0 (checkRun A c t keys phases) () 0 := by
  refine (newTree_spec hA ht hkeys hmem).bind fun tree ↦ ?_
  have hstart : treeAt tree ⟨buildTree A.reference t keys, t⟩ ⊆ storesAt W t tree keys.toFinset :=
    fun m hm ↦ ⟨_, Ist.Represents.start hA.exact_reference ht hkeys hmem, hm⟩
  refine ((checkPhases_gives hA ht hphases).bind ?_).strengthen hstart
  rintro m ⟨ist, h, hm⟩
  exact deleteTree_gives (hA.slotHeight_le subset_rfl h.inv) hm

end Phases

end Mem

end Pbist
