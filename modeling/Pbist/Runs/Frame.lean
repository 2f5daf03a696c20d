import Pbist.Functional.Frame
import Pbist.Runs.Reachable

/-!
# What an update leaves untouched

A key of a batch is effective when the entry of the result for it is true. In a reachable tree, an
update changes, of all nodes that neither it nor a rebuild of an ancestor replaces, only what the
effective keys in the interval of the node call for; without effective keys it changes nothing.

## What it means to survive

`Node.Replaced` is the condition under which the code replaces a node, in terms of the node and of
the effective keys that reach it: a terminal node that gets an insertion, or the inequality of
`should_rebuild` between its counters. It does not refer to any function of the code; that an update
returns a replacement for a node exactly under this condition is part of the result
(`Ist.Framed.replaced_iff`, from `Node.Inv.replaced_iff`).

The main result is `update_frame`, for both updates and every coefficient. It rests on the
functional update (`Node.Along.updated`), which every schedule computes
(`Ist.Represents.update_eq`).
-/

namespace Pbist

open Checked Sorted

variable {T : Type} [LinearOrder T]

/-- `insert` (`exist = true`) or `remove` (`exist = false`). -/
def Ist.update (A : Arith T) (exist : Bool) (c : ℕ) (σ : Schedule) (tree : Ist T) (keys : List T) :
    Checked (Step T (List Bool)) :=
  if exist then tree.insert A c σ keys else tree.remove A c σ keys

/-- An update with the effective keys `E` rebuilds the node, whose interval is `J`: the node gets
keys, and it is a terminal node that gets insertions, or its modifications with these keys exceed
what `should_rebuild` allows, the initial size divided by the coefficient `c`. -/
def Node.Replaced (exist : Bool) (c : ℕ) (E : List T) (J : Set T) (node : Node T) : Prop :=
  keysIn E J ≠ [] ∧ ((exist = true ∧ node.children.length = 0) ∨
    node.initialSize < c * (node.modificationsCount + (keysIn E J).length))

/-- An update with the effective keys `E` changes `old` to `new` and keeps its frame: every node
that survives, because neither it nor an ancestor is replaced, is kept at its path; and without
effective keys the trees are identical. -/
structure Ist.Framed (A : Arith T) (exist : Bool) (c : ℕ) (W : Set T) (E : List T)
    (old new : Ist T) : Prop where
  kept : ∀ root path J n, old.root = some root →
    Node.Along (fun J n ↦ ¬n.Replaced exist c E J) W root path J n →
    ∃ root' n', new.root = some root' ∧ root'.At W path J n' ∧ n.Kept exist E J n'
  /-- A node that gets keys is replaced exactly when the call on it returns a replacement. -/
  replaced_iff : ∀ root path J n, old.root = some root → root.At W path J n → keysIn E J ≠ [] →
    (n.Replaced exist c E J ↔ ∃ σ out, n.doUpdate A exist c n.height σ (keysIn E J)
      old.sizeThreshold 0 (keysIn E J).length = .ok out ∧ out.replacement.isSome)
  identical : E = [] → new = old

variable {A : Arith T} {exist : Bool} {c t : ℕ} {I W : Set T} {E keys : List T} {node : Node T}
  {tree : Ist T} {S : Finset T}

omit [LinearOrder T] in
theorem Node.not_replaced_iff : ¬node.Replaced exist c E I ↔ keysIn E I = [] ∨
    (exist = true → node.children.length ≠ 0) ∧
      c * (node.modificationsCount + (keysIn E I).length) ≤ node.initialSize := by
  rw [Replaced, not_and_or, not_not, not_or, not_and, not_lt]

/-- The condition for replacing a node is that of the code. -/
theorem Node.Inv.replaced_iff (hA : A.ExactOn W) (ht : 1 ≤ t) (hI : I ⊆ W) (h : node.Inv t I)
    (hb : Admissible exist I node.live (keysIn E I)) (hne : keysIn E I ≠ []) :
    node.Replaced exist c E I ↔ ∃ σ out, node.doUpdate A exist c node.height σ (keysIn E I) t 0
      (keysIn E I).length = .ok out ∧ out.replacement.isSome := by
  have hrun := fun σ ↦ h.doUpdate_eq (c := c) hA ht hI le_rfl (List.length_pos_iff.2 hne) le_rfl
    (by rwa [part_self]) σ
  simp only [part_self] at hrun
  have hwhen : node.Replaced exist c E I ↔
      (updated A c t exist node (keysIn E I)).replacement.isSome := by
    rw [Option.isSome_iff_ne_none, ne_eq, replacement_updated_eq_none_iff, ← not_iff_not, not_not,
      node.not_replaced_iff, or_iff_right hne]
  rw [hwhen]
  exact ⟨fun hsome ↦ ⟨.sequential, _, hrun _, hsome⟩,
    fun ⟨σ, out, hout, hsome⟩ ↦ Except.ok.inj ((hrun σ).symm.trans hout) ▸ hsome⟩

namespace Ist

/-- Both updates of a tree are the functional update. -/
theorem Represents.update_eq (hA : A.ExactOn W) (ht : 1 ≤ t) (h : tree.Represents t W S)
    (hkeys : keys.SortedLT) (hmem : ∀ x ∈ keys, x ∈ W) (σ : Schedule) :
    tree.update A exist c σ keys = .ok (tree.updated A c exist keys) := by
  rw [Ist.update]
  cases exist with
  | true => exact h.insert_eq hA ht hkeys hmem σ
  | false => exact h.remove_eq hA ht hkeys hmem σ

theorem keysIn_effective (hmem : ∀ x ∈ keys, x ∈ W) :
    keysIn (tree.effective exist keys) W = tree.effective exist keys :=
  keysIn_eq_self fun x hx ↦ hmem x (mem_effective.1 hx).1

/-- The effective keys are a batch for the root. -/
theorem admissible_keysIn_effective (hkeys : keys.SortedLT) (hmem : ∀ x ∈ keys, x ∈ W)
    {root : Node T} (hroot : tree.root = some root) :
    Admissible exist W root.live (keysIn (tree.effective exist keys) W) := by
  rw [keysIn_effective hmem, ← slotLive_some root, ← hroot]
  exact admissible_effective hkeys hmem

/-- The functional update keeps the frame. -/
theorem Represents.framed (exist : Bool) (c : ℕ) (hA : A.ExactOn W) (ht : 1 ≤ t)
    (h : tree.Represents t W S) (hkeys : keys.SortedLT) (hmem : ∀ x ∈ keys, x ∈ W) :
    tree.Framed A exist c W (tree.effective exist keys) (tree.updated A c exist keys).tree where
  kept root path J n hroot hpath := by
    have hthreshold := h.sizeThreshold
    subst hthreshold
    have hall : keysIn (tree.effective exist keys) W = tree.effective exist keys :=
      keysIn_effective hmem
    obtain ⟨root', n', hroot', hframe⟩ := hpath.updated (A := A) (c := c)
      (fun I node hnot hinv hb hne ↦ replacement_updated_eq_none_iff.2
        ((node.not_replaced_iff.1 hnot).resolve_left hne)) (h.inv root hroot)
      (admissible_keysIn_effective hkeys hmem hroot)
    refine ⟨root', n', ?_, hframe⟩
    rw [updated, hroot, ← hall, hroot']
  replaced_iff root path J n hroot hpath hne := by
    have hthreshold := h.sizeThreshold
    subst hthreshold
    have hinv : root.Inv tree.sizeThreshold W := h.inv root hroot
    exact Node.Inv.replaced_iff hA ht hpath.subset (hpath.inv hinv)
      (hpath.admissible hinv (admissible_keysIn_effective hkeys hmem hroot)) hne
  identical hE := by rw [updated_of_effective_eq_nil hE]

end Ist

/-- **The frame of an update.** In every reachable tree, an insertion or a removal leaves all nodes
that survive where they are, and changes in them what the keys with a true result call for, and
nothing else. -/
theorem update_frame (ov : Overflow) {lo hi : ℤ} {t : ℕ} {keys : List I32} {ops : List (Op I32)}
    (h : ValidRun lo hi t keys ops) (exist : Bool) (c : ℕ) (σ τ : Schedule) {batch : List I32}
    (hbatch : batch.SortedLT) (hmem : ∀ x ∈ batch, x ∈ window lo hi) :
    ∃ s step, run (int32 ov) c t σ keys ops = .ok s ∧
      s.tree.update (int32 ov) exist c τ batch = .ok step ∧
      s.tree.Framed (int32 ov) exist c (window lo hi) (Ist.selectKeys batch step.result)
        step.tree := by
  have hA := int32_exactOn ov h.width
  have hrep := h.represents ov c
  refine ⟨_, _, h.run_eq ov c σ, hrep.update_eq hA h.sizeThreshold hbatch hmem τ, ?_⟩
  have hframed := hrep.framed exist c hA h.sizeThreshold hbatch hmem
  rwa [← Ist.selectKeys_flags] at hframed

/-- The tree of the keys 1 to 5: the keys around 3 are the children. -/
theorem buildTree_sampleKeys : ∃ left, buildTree (int32 .trapping) 1 ([1, 2].map I32.small) =
      some left ∧ left.initialSize = 2 ∧ left.modificationsCount = 0 ∧
    buildTree (int32 .trapping) 1 sampleKeys = some (freshNode (int32 .trapping) [.small 3]
      [some left, buildTree (int32 .trapping) 1 ([4, 5].map I32.small)] 5) := by
  obtain ⟨left, hleft⟩ : ∃ left, buildTree (int32 .trapping) 1 ([1, 2].map I32.small) = some left :=
    Option.ne_none_iff_exists'.1 (mt buildTree_eq_none_iff.1 (by decide))
  obtain ⟨hinitial, -, hcount, -⟩ := buildTree_counters hleft
  refine ⟨left, hleft, hinitial, hcount, ?_⟩
  rw [← hleft]
  exact buildTree_five (int32 .trapping) _ _ _ _ _

/-- Removing 2 and 9 from the five keys 1 to 5: only 2 is stored. The root and its first child
survive, the child counts one modification, and the second child, which 9 reaches, is untouched. -/
theorem update_frame_sample :
    ∃ s step root root' left left', run (int32 .trapping) 2 1 .reversed sampleKeys [] = .ok s ∧
      s.tree.update (int32 .trapping) false 2 .reversed ([2, 9].map I32.small) = .ok step ∧
      step.result = [true, false] ∧ s.tree.root = some root ∧ step.tree.root = some root' ∧
      root.children[0]? = some (some left) ∧ root'.children[0]? = some (some left') ∧
      left'.modificationsCount = left.modificationsCount + 1 ∧
      root'.children[1]? = root.children[1]? := by
  have h : ValidRun 0 9 1 sampleKeys [] := (validRun_sample le_rfl).beginning List.nil_prefix
  have hsorted : ([2, 9].map I32.small).SortedLT := by decide
  have hmem : ∀ x ∈ [2, 9].map I32.small, x ∈ window 0 9 :=
    show ∀ x ∈ [2, 9].map I32.small, 0 ≤ x.1 ∧ x.1 ≤ 9 by decide
  obtain ⟨s, step, hrun, hupdate, hframed⟩ :=
    update_frame .trapping h false 2 .reversed .reversed hsorted hmem
  obtain rfl := Except.ok.inj (hrun.symm.trans (h.run_eq .trapping 2 .reversed))
  obtain rfl := Except.ok.inj (hupdate.symm.trans ((h.represents .trapping 2).update_eq
    (int32_exactOn .trapping h.width) le_rfl hsorted hmem .reversed))
  obtain ⟨left, hleft, hinitial, hcount, hroot⟩ := buildTree_sampleKeys
  -- of the batch, only 2 is stored
  have hlive : slotLive (finalState (int32 .trapping) 2 1 sampleKeys []).tree.root = sampleKeys :=
    slotLive_buildTree sampleKeys
  have hflags : Ist.flags false (finalState (int32 .trapping) 2 1 sampleKeys []).tree
      ([2, 9].map I32.small) = [true, false] := by
    rw [Ist.flags, hlive]
    decide
  have heffective : Ist.selectKeys ([2, 9].map I32.small) [true, false] = [I32.small 2] := rfl
  rw [show (Ist.updated (int32 .trapping) 2 false (finalState (int32 .trapping) 2 1 sampleKeys
    []).tree ([2, 9].map I32.small)).result = [true, false] from hflags, heffective] at hframed
  have hgap : I32.small 2 ∈ window 0 9 ∩ gap [I32.small 3] 0 :=
    ⟨show 0 ≤ (I32.small 2).1 ∧ (I32.small 2).1 ≤ 9 by decide, by simp, by decide⟩
  have hone : ∀ {J : Set I32}, I32.small 2 ∈ J → keysIn [I32.small 2] J = [I32.small 2] :=
    fun hJ ↦ keysIn_eq_self fun x hx ↦ List.mem_singleton.1 hx ▸ hJ
  have hsurvives : ∀ {J : Set I32} {n : Node I32}, I32.small 2 ∈ J → 2 ≤ n.initialSize →
      n.modificationsCount = 0 → ¬n.Replaced false 2 [I32.small 2] J := by
    intro J n hJ hsize hmods
    rw [Node.not_replaced_iff, hone hJ, hmods]
    exact .inr ⟨fun hexist ↦ absurd hexist Bool.false_ne_true, hsize⟩
  obtain ⟨root', n', hroot', hat, hkept⟩ := hframed.kept _ [0] _ left hroot
    (.child (hsurvives hgap.1 (show 2 ≤ 5 by decide) rfl) rfl
      (.here (hsurvives hgap hinitial.ge hcount)))
  obtain ⟨root'', m', hroot'', hat', hkept'⟩ :=
    hframed.kept _ [] _ _ hroot (.here (hsurvives hgap.1 (show 2 ≤ 5 by decide) rfl))
  obtain rfl := Option.some.inj (hroot'.symm.trans hroot'')
  obtain rfl := hat'.eq_of_nil
  obtain ⟨child, hchild, hbelow⟩ := hat.exists_child
  obtain rfl := hbelow.eq_of_nil
  refine ⟨_, _, _, _, left, _, hrun, hupdate, hflags, hroot, hroot', rfl, hchild, ?_, ?_⟩
  · exact hkept.modificationsCount_eq.trans (congrArg (_ + List.length ·) (hone hgap))
  · refine hkept'.child_eq 1 fun x hx hgap' ↦ ?_
    rw [List.mem_singleton.1 hx] at hgap'
    exact absurd (hgap'.2.1 (.small 3) (List.mem_singleton_self _)) (by decide)

end Pbist
