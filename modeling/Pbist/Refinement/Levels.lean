import Pbist.Library.Levels
import Pbist.Refinement.Dump

/-!
# The dump by levels as a format

`dump_keys_by_level_seq` visits the nodes depth first and pushes each to its level, so it returns
the levels of a tree of entries, the skeleton of the subtree. An entry says how many children its
node has, and a null pointer has an entry of its own, so the skeleton can be read back.

`skeleton` is the tree of entries. `Inv.doDumpKeysByLevelSeq_eq` describes the state of the dump by
the levels that are there, so it can be used for every child in turn; `Inv.fits_skeleton` is the
condition of the general result about levels.
-/

namespace Pbist

open Checked LabelTree

variable {T : Type}

/-- The number of children of the node that was dumped as `entry`. -/
def childCount (entry : List (T × Bool) × Bool) : ℕ :=
  if entry.2 then 0 else entry.1.length + 1

namespace Node

/-- The entry of a node in the dump by levels. -/
def levelEntry (node : Node T) : List (T × Bool) × Bool :=
  (node.keys.zip node.keysExist, decide (node.children.length = 0))

/-- The entries of all nodes of a subtree. -/
def skeleton : Node T → LabelTree (List (T × Bool) × Bool) :=
  foldTree fun node below ↦
    .node node.levelEntry (below.map (·.getD (.node ([], true) [])))

end Node

/-- The entries behind a pointer. -/
def slotSkeleton (slot : Option (Node T)) : LabelTree (List (T × Bool) × Bool) :=
  (slot.map Node.skeleton).getD (.node ([], true) [])

/-- Levels below `level` empty ones. -/
def below {α : Type} (level : ℕ) (ls : List (List α)) : List (List α) :=
  List.replicate level [] ++ ls

theorem joinLevels_below {α : Type} {holder : List (List α)} :
    ∀ {level : ℕ}, level ≤ holder.length → ∀ ls : List (List α),
      joinLevels holder (below level ls) =
        holder.take level ++ joinLevels (holder.drop level) ls := by
  induction holder with
  | nil =>
    intro level h ls
    obtain rfl : level = 0 := Nat.le_zero.1 h
    rfl
  | cons l holder ih =>
    intro level h ls
    cases level with
    | zero => rfl
    | succ level =>
      rw [below, List.replicate_succ, List.cons_append, joinLevels, List.append_nil,
        List.take_succ_cons, List.drop_succ_cons, List.cons_append]
      exact congrArg (l :: ·) (ih (Nat.le_of_succ_le_succ h) ls)

/-- One forest after another. -/
theorem joinLevels_below_below {α : Type} (holder : List (List α)) (level : ℕ)
    (ls ms : List (List α)) :
    joinLevels (joinLevels holder (below level ls)) (below level ms) =
      joinLevels holder (below level (joinLevels ls ms)) := by
  rw [joinLevels_assoc, below, below, joinLevels_replicate]
  rfl

theorem length_joinLevels_le {α : Type} (holder ls : List (List α)) :
    holder.length ≤ (joinLevels holder ls).length := by
  rw [length_joinLevels]
  exact le_max_left _ _

namespace Node

/-- `push_back` on a level. -/
theorem pushLevel_eq {holder : List (LevelHolder T)} {level : ℕ} (h : level ≤ holder.length)
    (entry : List (T × Bool) × Bool) :
    pushLevel holder level entry = .ok (joinLevels holder (below level [[entry]])) := by
  rw [joinLevels_below h, pushLevel]
  split
  · rename_i hlt
    obtain rfl : holder.length = level := by omega
    rw [require_of rfl, ok_bind, pure_eq_ok, ok_bind]
    dsimp only
    rw [get_of_lt (by simp), ok_bind, put_of_lt (by simp)]
    simp
  · rename_i hlt
    have hlevel : level < holder.length := by omega
    rw [pure_eq_ok, ok_bind]
    dsimp only
    rw [get_of_lt hlevel, ok_bind, put_of_lt hlevel,
      List.drop_eq_getElem_cons hlevel, joinLevels, joinLevels_nil_right,
      List.set_eq_take_append_cons_drop, if_pos hlevel]

/-- A loop that dumps a tree in each iteration. -/
theorem foldlM_joinLevels {step : List (LevelHolder T) → ℕ → Checked (List (LevelHolder T))}
    {g : ℕ → LabelTree (List (T × Bool) × Bool)} {level : ℕ} {l : List ℕ}
    (h : ∀ i ∈ l, ∀ holder : List (LevelHolder T), level ≤ holder.length →
      step holder i = .ok (joinLevels holder (below level (levels (g i))))) :
    ∀ {holder : List (LevelHolder T)}, level ≤ holder.length →
      l.foldlM step holder = .ok (joinLevels holder (below level (forestLevels (l.map g)))) := by
  induction l with
  | nil =>
    intro holder hlevel
    rw [List.foldlM_nil, List.map_nil, forestLevels, joinLevels_below hlevel, joinLevels_nil_right,
      List.take_append_drop, pure_eq_ok]
  | cons i l ih =>
    intro holder hlevel
    rw [List.foldlM_cons, h i List.mem_cons_self holder hlevel, ok_bind,
      ih (fun j hj ↦ h j (List.mem_cons_of_mem _ hj)) (hlevel.trans (length_joinLevels_le _ _)),
      joinLevels_below_below, List.map_cons, forestLevels]

theorem skeleton_eq (node : Node T) :
    node.skeleton = .node node.levelEntry (node.children.map slotSkeleton) := by
  rw [skeleton, foldTree_eq, List.map_map]
  rfl

/-- The levels of a node are its entry, and one level further down those of its children. -/
theorem joinLevels_skeleton (node : Node T) (holder : List (LevelHolder T)) (level : ℕ) :
    joinLevels (joinLevels holder (below level [[node.levelEntry]]))
        (below (level + 1) (forestLevels (node.children.map slotSkeleton))) =
      joinLevels holder (below level (levels node.skeleton)) := by
  have hbelow : below (level + 1) (forestLevels (node.children.map slotSkeleton)) =
      below level ([] :: forestLevels (node.children.map slotSkeleton)) := by
    rw [below, below, List.replicate_succ', List.append_assoc]
    rfl
  rw [hbelow, joinLevels_below_below, skeleton_eq, levels, joinLevels, List.append_nil,
    joinLevels_nil_left]

/-- The loop over the children dumps all of them. -/
theorem foldlM_dumpChildByLevel {node : Node T} {fuel level : ℕ}
    (hchild : ∀ child, some child ∈ node.children → ∀ holder : List (LevelHolder T),
      level + 1 ≤ holder.length → doDumpKeysByLevelSeq fuel child holder (level + 1) =
        .ok (joinLevels holder (below (level + 1) (levels child.skeleton))))
    {holder : List (LevelHolder T)} (hlevel : level + 1 ≤ holder.length) :
    (List.range node.children.length).foldlM
        (node.dumpChildByLevel (doDumpKeysByLevelSeq fuel) level) holder =
      .ok (joinLevels holder
        (below (level + 1) (forestLevels (node.children.map slotSkeleton)))) := by
  have hmap : (List.range node.children.length).map
      (fun i ↦ slotSkeleton (node.children[i]?.getD none)) = node.children.map slotSkeleton := by
    refine List.ext_getElem (by simp) fun i hi _ ↦ ?_
    simp only [List.length_map, List.length_range] at hi
    simp [hi]
  rw [← hmap]
  refine foldlM_joinLevels (fun i hi holder hlevel ↦ ?_) hlevel
  have hi' := List.mem_range.1 hi
  rw [dumpChildByLevel, get_of_lt hi', ok_bind, List.getElem?_eq_getElem hi', Option.getD_some]
  rcases hslot : node.children[i] with - | child
  · exact (pushLevel_eq hlevel _).trans rfl
  · exact hchild child (hslot ▸ List.getElem_mem hi') holder hlevel

variable [LinearOrder T] {t : ℕ} {I : Set T}

/-- The entry of a well-formed node. -/
theorem Local.tabulate_dumpEntry {node : Node T} (h : node.Local t I) :
    tabulate node.keys.length node.dumpEntry = .ok (node.keys.zip node.keysExist) := by
  obtain ⟨x, -⟩ := List.exists_mem_of_ne_nil node.keys h.keys_ne_nil
  rw [tabulate_of_ok (g := fun i ↦ ((node.keys[i]?).getD x, (node.keysExist[i]?).getD true))
    fun i hi ↦ by
      rw [dumpEntry, get_getD hi x, ok_bind, get_getD (by rwa [h.exist_length]) true, ok_bind,
        pure_eq_ok]]
  refine congrArg _ (List.ext_getElem (by simp [h.exist_length]) fun i hi _ ↦ ?_)
  simp only [List.length_map, List.length_range] at hi
  have hi' : i < node.keysExist.length := by rwa [h.exist_length]
  simp [hi, hi']

/-- **The dump by levels writes the levels of the skeleton**, below those that are there. -/
theorem Inv.doDumpKeysByLevelSeq_eq : ∀ {node : Node T} {I : Set T}, node.Inv t I →
    ∀ {fuel : ℕ}, node.height ≤ fuel → ∀ {level : ℕ} {holder : List (LevelHolder T)},
      level ≤ holder.length → doDumpKeysByLevelSeq fuel node holder level =
        .ok (joinLevels holder (below level (levels node.skeleton))) := by
  intro node
  induction node using Node.induction with
  | step node ih =>
    intro I h fuel hfuel level holder hlevel
    have hlocal := h.here
    have hheight := height_eq node
    obtain ⟨fuel, rfl⟩ : ∃ f, fuel = f + 1 := ⟨fuel - 1, by omega⟩
    simp only [doDumpKeysByLevelSeq, require_of hlocal.isStructureCorrect, ok_bind,
      hlocal.tabulate_dumpEntry, hlocal.isTerminal_eq, pushLevel_eq hlevel]
    have hone : level + 1 ≤ (joinLevels holder (below level [[node.levelEntry]])).length := by
      rw [length_joinLevels, below, List.length_append, List.length_replicate]
      exact le_max_right _ _
    have hdown := joinLevels_skeleton node holder level
    split
    · rename_i hterm
      have hlen := of_decide_eq_true hterm
      have hnil : node.children.map slotSkeleton = [] := by
        rw [List.length_eq_zero_iff.1 hlen, List.map_nil]
      rw [hnil, forestLevels, joinLevels_below hone, joinLevels_nil_right,
        List.take_append_drop] at hdown
      rw [require_of hlen, ok_bind, pure_eq_ok, ← hdown]
      rfl
    · rename_i hterm
      have hlen : node.children.length = node.keys.length + 1 :=
        hlocal.children_length.resolve_left (by simpa using hterm)
      rw [require_of hlen.symm, ok_bind, ← hdown]
      refine foldlM_dumpChildByLevel (fun child hmem holder hlevel ↦ ?_) hone
      obtain ⟨i, hi⟩ := List.getElem?_of_mem hmem
      have hheight' := slotHeight_lt hmem
      rw [slotHeight_some] at hheight'
      exact ih child hmem (h.child hi) (by omega) hlevel

/-- The skeleton of a well-formed subtree can be read back. -/
theorem Inv.fits_skeleton : ∀ {node : Node T} {I : Set T}, node.Inv t I →
    Fits childCount node.skeleton := by
  intro node I h
  induction h with
  | @intro I node here below ih =>
    rw [skeleton_eq]
    refine .node ?_ fun tree htree ↦ ?_
    · rw [List.length_map, childCount, levelEntry, List.length_zip, here.exist_length, min_self]
      rcases here.children_length with hlen | hlen <;> simp [hlen]
    · obtain ⟨slot, hslot, rfl⟩ := List.mem_map.1 htree
      rcases slot with - | child
      · exact .node rfl fun _ hnil ↦ absurd hnil List.not_mem_nil
      · obtain ⟨i, hi⟩ := List.getElem?_of_mem hslot
        exact ih i child hi

/-- **The dump by levels can be read back.** It succeeds on every well-formed subtree, and its
levels determine the keys and flags of all nodes, which of them are terminal, and which pointers are
null. -/
theorem Inv.level_dump_round_trip {node : Node T} (h : node.Inv t I) {fuel : ℕ}
    (hfuel : node.height ≤ fuel) :
    ∃ dump, node.dumpKeysByLevelSeq fuel = .ok dump ∧
      ofLevels childCount dump = [node.skeleton] := by
  refine ⟨levels node.skeleton, ?_, ofLevels_levels h.fits_skeleton⟩
  rw [dumpKeysByLevelSeq, require_of h.here.isStructureCorrect, ok_bind,
    h.doDumpKeysByLevelSeq_eq hfuel (Nat.zero_le _)]
  rfl

/-- Reading the dump of the sample node gives it back, in other words its keys and flags. -/
theorem Inv.level_dump_round_trip_sample :
    ∃ dump, sampleNode.dumpKeysByLevelSeq sampleNode.height = .ok dump ∧
      ofLevels childCount dump = [sampleNode.skeleton] :=
  Inv.level_dump_round_trip inv_sampleNode le_rfl

end Node

end Pbist
