import Pbist.Functional.Frame
import Pbist.Refinement.Tree

/-!
# Reachable states

`ValidRun` collects what the tree expects of its users: a size threshold of at least 1, strictly
increasing keys and batches, and all keys in a window in which `int32_t` subtraction does not
overflow. A state is reachable when a valid run ends in it; as every beginning of a valid run is a
valid run, what is proved of final states holds throughout a run.

`ValidRun.run_eq` and `ValidRun.represents` are what the results about runs start from, for every
coefficient; `ValidRun.policy` adds what the coefficient 4 guarantees. The small run at the end
serves these results as an input on which their hypotheses hold: it inserts, looks up and removes,
rebuilds a subtree and the root, and leaves a tree with inner nodes, a tombstone and null children.
-/

namespace Pbist

/-- The runs that the tree is made for. -/
structure ValidRun (lo hi : ℤ) (t : ℕ) (keys : List I32) (ops : List (Op I32)) : Prop where
  width : hi - lo ≤ 2 ^ 31 - 1
  sizeThreshold : 1 ≤ t
  sorted : keys.SortedLT
  mem : ∀ x ∈ keys, x ∈ window lo hi
  ops : ∀ op ∈ ops, op.Valid (window lo hi)

/-- The initial keys of a small run. -/
def sampleKeys : List I32 :=
  [1, 2, 3, 4, 5].map I32.small

/-- The operations of a small run. With the coefficient 4 and the threshold 1, the first removal
rebuilds the root, and the last one leaves a tombstone in it (`sampleShape_finalState`). -/
def sampleOps : List (Op I32) :=
  [.insert ([2, 6].map I32.small), .remove ([3].map I32.small),
    .contains ([3, 6].map I32.small), .containsKey (.small 4), .calcTreeSize,
    .remove ([4].map I32.small)]

/-- The keys that the small run leaves. -/
def sampleStored : List I32 :=
  [1, 2, 5, 6].map I32.small

theorem validRun_sample {t : ℕ} (ht : 1 ≤ t) : ValidRun 0 9 t sampleKeys sampleOps where
  width := by decide
  sizeThreshold := ht
  sorted := by decide
  mem := by
    show ∀ x ∈ sampleKeys, 0 ≤ x.1 ∧ x.1 ≤ 9
    decide
  ops op hop := by
    have hvalid : ∀ op ∈ sampleOps, op.keys.SortedLT ∧ ∀ x ∈ op.keys, 0 ≤ x.1 ∧ x.1 ≤ 9 := by
      decide
    exact ⟨(hvalid op hop).1, (hvalid op hop).2⟩

theorem setRun_sample : (setRun sampleKeys sampleOps).stored = sampleStored.toFinset := by
  decide

section General

variable {T : Type} [LinearOrder T] {A : Arith T} {c t : ℕ} {W : Set T} {keys : List T}
  {ops : List (Op T)}

theorem finalState_concat (op : Op T) :
    finalState A c t keys (ops ++ [op]) = (finalState A c t keys ops).next A c op := by
  rw [finalState, List.foldl_append]
  rfl

/-- With the coefficient 4, the rebuild policy is kept besides. -/
theorem refines_policy (hA : A.ExactOn W) (ht : 1 ≤ t) (σ : Schedule) :
    Machine.Refines (fun n s op ↦ runOp A 4 (σ.sub n) s op) (RunState.next A 4) SetState.next
      (Op.Valid W) fun s x ↦ s.tree.Represents t W x.stored ∧
        SlotEverywhere (fun _ node ↦ node.Policy) W s.tree.root where
  step_eq h hop := runOp_eq hA ht h.1 _ hop
  related := by
    rintro s x op ⟨h, hpolicy⟩ hop
    refine ⟨(Ist.Represents.next (x := ⟨x.stored, s.replies⟩) hA.toExact ht ⟨h, rfl⟩ hop).1, ?_⟩
    have hthreshold := h.sizeThreshold
    subst hthreshold
    cases op with
    | insert keys =>
      exact (h.inv.slotDrift hA.toExact ht hpolicy
        (Ist.admissible_effective hop.sorted hop.mem)).policy
    | remove keys =>
      exact (h.inv.slotDrift hA.toExact ht hpolicy
        (Ist.admissible_effective hop.sorted hop.mem)).policy
    | contains keys => exact hpolicy
    | containsKey key => exact hpolicy
    | calcTreeSize => exact hpolicy

theorem policy_finalState (hA : A.ExactOn W) (ht : 1 ≤ t) (hkeys : keys.SortedLT)
    (hmem : ∀ x ∈ keys, x ∈ W) (hops : ∀ op ∈ ops, op.Valid W) :
    SlotEverywhere (fun _ node ↦ node.Policy) W (finalState A 4 t keys ops).tree.root :=
  (((refines_policy hA ht .sequential).runFrom_eq (n := 0) (x := ⟨keys.toFinset, []⟩)
    ⟨.start hA.toExact ht hkeys hmem, policy_buildTree⟩ hops).2).2

end General

namespace ValidRun

variable {lo hi : ℤ} {t : ℕ} {keys : List I32} {ops : List (Op I32)}
  (h : ValidRun lo hi t keys ops) (ov : Overflow) (c : ℕ)

include h

/-- The tree at the end of a run represents the stored set. -/
theorem represents : (finalState (int32 ov) c t keys ops).tree.Represents t
    (window lo hi) (setRun keys ops).stored :=
  (run_eq (int32_exactOn ov h.width) h.sizeThreshold h.sorted h.mem h.ops .sequential).2.1

/-- The replies of a run are those of the abstract run. -/
theorem replies_eq :
    (finalState (int32 ov) c t keys ops).replies = (setRun keys ops).replies :=
  (run_eq (int32_exactOn ov h.width) h.sizeThreshold h.sorted h.mem h.ops .sequential).2.2

theorem run_eq (σ : Schedule) :
    run (int32 ov) c t σ keys ops = .ok (finalState (int32 ov) c t keys ops) :=
  (Pbist.run_eq (int32_exactOn ov h.width) h.sizeThreshold h.sorted h.mem h.ops σ).1

theorem policy : SlotEverywhere (fun _ node ↦ node.Policy) (window lo hi)
    (finalState (int32 ov) 4 t keys ops).tree.root :=
  policy_finalState (int32_exactOn ov h.width) h.sizeThreshold h.sorted h.mem h.ops

/-- A tree with few keys is not high. -/
theorem height_le : slotHeight (finalState (int32 ov) 4 t keys ops).tree.root ≤
    Nat.log 2 (4 * (setRun keys ops).stored.card / 3) + 1 := by
  have hrep := h.represents ov 4
  rw [← hrep.card_eq]
  rcases hroot : (finalState (int32 ov) 4 t keys ops).tree.root with - | root
  · exact Nat.zero_le _
  · exact height_le_log_curSize h.sizeThreshold (hrep.inv root hroot) (h.policy ov root hroot)

/-- A beginning of a valid run is a valid run. -/
theorem beginning {pre : List (Op I32)} (hpre : pre <+: ops) : ValidRun lo hi t keys pre :=
  ⟨h.width, h.sizeThreshold, h.sorted, h.mem, fun op hop ↦ h.ops op (hpre.subset hop)⟩

end ValidRun

/-! ### The tree of the small run -/

/-- The tree of two keys has the second one in its root, and a null child behind it. -/
theorem buildTree_pair {T : Type} (A : Arith T) (x y : T) : buildTree A 1 [x, y] =
    some (freshNode A [y] [some (freshNode A [x] [] 1), none] 2) := by
  have hsqrt : Nat.sqrt 2 = 1 := (Nat.eq_sqrt.2 (by decide)).symm
  have hone : buildTree A 1 [x] = some (freshNode A [x] [] 1) :=
    buildTree_terminal (List.cons_ne_nil _ _) (.inl le_rfl)
  rw [buildTree_inner (by simp), show [x, y].length = 2 from rfl, repCount, hsqrt, ← hone,
    ← buildTree_nil (A := A) (t := 1)]
  rfl

/-- The tree of five keys has the third one in its root. -/
theorem buildTree_five {T : Type} (A : Arith T) (x₁ x₂ x₃ x₄ x₅ : T) :
    buildTree A 1 [x₁, x₂, x₃, x₄, x₅] =
      some (freshNode A [x₃] [buildTree A 1 [x₁, x₂], buildTree A 1 [x₄, x₅]] 5) := by
  have hsqrt : Nat.sqrt 5 = 2 := (Nat.eq_sqrt.2 (by decide)).symm
  rw [buildTree_inner (by simp), show [x₁, x₂, x₃, x₄, x₅].length = 5 from rfl, repCount, hsqrt]
  rfl

section Shape

variable {T : Type} [LinearOrder T] {A : Arith T} {c t : ℕ} {W : Set T} {tree : Ist T}
  {S : Finset T} {root : Node T} {keys : List T}

/-- An update that does not replace the root changes it in place. -/
theorem Ist.root_updated_inPlace {exist : Bool} (hroot : tree.root = some root)
    (hne : tree.effective exist keys ≠ []) (hinner : root.children.length ≠ 0)
    (hle : c * (root.modificationsCount + (tree.effective exist keys).length) ≤
      root.initialSize) : (tree.updated A c exist keys).tree.root =
        some (root.inPlace A c tree.sizeThreshold exist (tree.effective exist keys)) := by
  rw [updated, hroot]
  exact Node.slotUpdated_of_replacement_eq_none hne
    (replacement_updated_eq_none_iff.2 ⟨fun _ ↦ hinner, hle⟩)

/-- A removal that replaces the root leaves a tree that is built from the stored keys. -/
theorem Ist.root_updated_rebuilt (hroot : tree.root = some root)
    (hne : tree.effective false keys ≠ [])
    (hlt : root.initialSize < c * (root.modificationsCount + (tree.effective false keys).length))
    (hnew : (tree.updated A c false keys).tree.Represents t W S) :
    (tree.updated A c false keys).tree.root = buildTree A tree.sizeThreshold S.sort := by
  have hlive := hnew.live_eq
  have hupdated : (tree.updated A c false keys).tree.root =
      (Pbist.updated A c tree.sizeThreshold false root (tree.effective false keys)).slot := by
    rw [updated, hroot]
    exact congrArg Prod.fst (slotUpdated_some hne)
  rw [hupdated] at hlive ⊢
  rcases updated_cases A c tree.sizeThreshold false root (tree.effective false keys) with
    ⟨hexist, -⟩ | ⟨-, hremove, -⟩ | ⟨-, -, heq⟩
  · exact absurd hexist Bool.false_ne_true
  · have hwhen := hremove rfl
    rw [root.shouldRebuild_inPlace, decide_eq_false_iff_not] at hwhen
    exact absurd hlt hwhen
  · rw [heq] at hlive ⊢
    rw [← hlive]
    exact congrArg (buildTree A tree.sizeThreshold) (slotLive_buildTree _).symm

omit A c root in
theorem Ist.Represents.effective_eq (exist : Bool) (h : tree.Represents t W S) :
    tree.effective exist keys = keys.filter fun k ↦ decide (k ∈ S) != exist :=
  List.filter_congr fun x _ ↦ by rw [decide_eq_decide.2 (h.mem_iff x)]

end Shape

/-- A root whose only key is the tombstone 4, with inner nodes as its children, the first of which
has a null child. -/
def SampleShape (slot : Option (Node I32)) : Prop :=
  ∃ root left right leaf, slot = some root ∧ root.keys = [.small 4] ∧
    root.keysExist[0]? = some false ∧ root.children[0]? = some (some left) ∧
    root.children[1]? = some (some right) ∧ left.children = [some leaf, none]

/-- The tree that the small run leaves has this shape. -/
theorem sampleShape_finalState (ov : Overflow) :
    SampleShape (finalState (int32 ov) 4 1 sampleKeys sampleOps).tree.root := by
  have h : ValidRun 0 9 1 sampleKeys sampleOps := validRun_sample le_rfl
  -- the trees before the insertion, after it, and after the first removal
  let start : Ist I32 := ⟨buildTree (int32 ov) 1 sampleKeys, 1⟩
  let inserted : Ist I32 := (start.updated (int32 ov) 4 true ([2, 6].map I32.small)).tree
  let removed : Ist I32 := (inserted.updated (int32 ov) 4 false ([3].map I32.small)).tree
  have hstart : start.Represents 1 (window 0 9) (setRun sampleKeys []).stored :=
    (h.beginning List.nil_prefix).represents ov 4
  have hinserted : inserted.Represents 1 (window 0 9)
      (setRun sampleKeys (sampleOps.take 1)).stored :=
    (h.beginning (List.take_prefix 1 sampleOps)).represents ov 4
  have hremoved : removed.Represents 1 (window 0 9)
      (setRun sampleKeys (sampleOps.take 2)).stored :=
    (h.beginning (List.take_prefix 2 sampleOps)).represents ov 4
  have heffective : start.effective true ([2, 6].map I32.small) = [.small 6] :=
    (hstart.effective_eq true).trans (by decide)
  have heffective' : inserted.effective false ([3].map I32.small) = [.small 3] :=
    (hinserted.effective_eq false).trans (by decide)
  have heffective'' : removed.effective false ([4].map I32.small) = [.small 4] :=
    (hremoved.effective_eq false).trans (by decide)
  -- the insertion counts one modification at the root, so the removal of 3 rebuilds it
  have hroot : start.root = some _ := buildTree_five (int32 ov) _ _ _ _ _
  have hroot' : inserted.root = some _ := Ist.root_updated_inPlace hroot
    (by rw [heffective]; exact List.cons_ne_nil _ _) (show 2 ≠ 0 by decide)
    (by rw [heffective]; exact show 4 * (0 + 1) ≤ 5 by decide)
  have hstored : (setRun sampleKeys (sampleOps.take 2)).stored.sort =
      [1, 2, 4, 5, 6].map I32.small := by
    rw [show (setRun sampleKeys (sampleOps.take 2)).stored =
      ([1, 2, 4, 5, 6].map I32.small).toFinset by decide]
    exact (List.toFinset_sort (· ≤ ·) (by decide)).2 (by decide)
  have hroot'' : removed.root = buildTree (int32 ov) 1 _ :=
    Ist.root_updated_rebuilt hroot'
      (by rw [heffective']; exact List.cons_ne_nil _ _)
      (by rw [heffective', heffective]; exact show 5 < 4 * (1 + 1) by decide) hremoved
  rw [hstored] at hroot''
  have hroot₂ : removed.root = some _ := hroot''.trans (buildTree_five (int32 ov) _ _ _ _ _)
  -- the removal of 4 leaves the new root in place
  have hroot₃ : (removed.updated (int32 ov) 4 false ([4].map I32.small)).tree.root = some _ :=
    Ist.root_updated_inPlace hroot₂ (by rw [heffective'']; exact List.cons_ne_nil _ _)
      (show 2 ≠ 0 by decide) (by rw [heffective'']; exact show 4 * (0 + 1) ≤ 5 by decide)
  have hmem : ∀ x ∈ [4].map I32.small, x ∈ window 0 9 :=
    show ∀ x ∈ [4].map I32.small, 0 ≤ x.1 ∧ x.1 ≤ 9 by decide
  have hbatch := @Ist.admissible_effective _ _ false (window 0 9) removed ([4].map I32.small)
    (by decide) hmem
  have hall : keysIn [I32.small 4] (window 0 9) = [.small 4] := keysIn_eq_self hmem
  rw [hroot₂, slotLive_some, heffective''] at hbatch
  have hkept := Node.Inv.kept_inPlace (A := int32 ov) (c := 4) (E := [.small 4])
    (hremoved.inv _ hroot₂) (by rw [hall]; exact hbatch)
  rw [hall] at hkept
  rw [heffective''] at hroot₃
  obtain ⟨flag, hflag, hflag'⟩ := hkept.flags 0 (.small 4) rfl
  obtain rfl : true = flag := Option.some.inj hflag
  refine ⟨_, _, _, _, hroot₃, rfl, hflag'.trans (by decide),
    (hkept.child_eq 0 fun x hx hgap ↦ ?_).trans
      (congrArg some (buildTree_pair (int32 ov) (.small 1) (.small 2))),
    (hkept.child_eq 1 fun x hx hgap ↦ ?_).trans
      (congrArg some (buildTree_pair (int32 ov) (.small 5) (.small 6))), rfl⟩
  · obtain rfl := List.mem_singleton.1 hx
    exact lt_irrefl _ (hgap.2.2 _ (List.mem_singleton_self _))
  · obtain rfl := List.mem_singleton.1 hx
    exact lt_irrefl _ (hgap.2.1 _ (List.mem_singleton_self _))

theorem sampleShape_of_run {ov : Overflow} {σ : Schedule} {s : RunState I32}
    (h : run (int32 ov) 4 1 σ sampleKeys sampleOps = .ok s) : SampleShape s.tree.root := by
  obtain rfl := Except.ok.inj (h.symm.trans ((validRun_sample le_rfl).run_eq ov 4 σ))
  exact sampleShape_finalState ov

end Pbist
