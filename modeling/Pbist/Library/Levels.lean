import Mathlib.Data.List.Basic
import Mathlib.Data.List.Flatten

/-!
# Trees by levels

A tree with labels is written level by level, each level from left to right. If the label of a node
determines the number of its children, the levels determine the tree: `ofLevels` reads them back,
from the last level to the first, and gives each label as many of the trees below as it has
children.

The condition is `Fits arity`: every node has as many children as `arity` says of its label. It is
stated of a forest because the induction needs it: the children of the first level of a forest are
the forest whose levels remain.
-/

/-- A tree with labels. -/
inductive LabelTree (α : Type)
  | node (label : α) (children : List (LabelTree α))

/-- Two forests side by side, by levels. -/
def joinLevels {α : Type} : List (List α) → List (List α) → List (List α)
  | [], ms => ms
  | l :: ls, [] => l :: ls
  | l :: ls, m :: ms => (l ++ m) :: joinLevels ls ms

namespace LabelTree

variable {α : Type}

/-- The label of the root. -/
def label : LabelTree α → α
  | node a _ => a

/-- The subtrees below the root. -/
def children : LabelTree α → List (LabelTree α)
  | node _ ts => ts

mutual

/-- The levels of a tree. -/
def levels : LabelTree α → List (List α)
  | node a ts => [a] :: forestLevels ts

/-- The levels of a forest. -/
def forestLevels : List (LabelTree α) → List (List α)
  | [] => []
  | t :: ts => joinLevels (levels t) (forestLevels ts)

end

/-- The label of every node gives the number of its children. -/
inductive Fits (arity : α → ℕ) : LabelTree α → Prop
  | node {a : α} {ts : List (LabelTree α)} (length : ts.length = arity a)
      (below : ∀ t ∈ ts, Fits arity t) : Fits arity (node a ts)

/-- Labels get their children from a forest. -/
def attach (arity : α → ℕ) : List α → List (LabelTree α) → List (LabelTree α)
  | [], _ => []
  | a :: as, ts => node a (ts.take (arity a)) :: attach arity as (ts.drop (arity a))

/-- The forest with these levels. -/
def ofLevels (arity : α → ℕ) : List (List α) → List (LabelTree α)
  | [] => []
  | l :: ls => attach arity l (ofLevels arity ls)

/-! ### Joining levels -/

@[simp] theorem joinLevels_nil_left (ls : List (List α)) : joinLevels [] ls = ls := by
  rw [joinLevels]

@[simp] theorem joinLevels_nil_right (ls : List (List α)) : joinLevels ls [] = ls := by
  cases ls <;> rfl

theorem joinLevels_assoc : ∀ ls ms ns : List (List α),
    joinLevels (joinLevels ls ms) ns = joinLevels ls (joinLevels ms ns)
  | [], _, _ => by rw [joinLevels_nil_left, joinLevels_nil_left]
  | _ :: _, [], _ => by rw [joinLevels_nil_right, joinLevels_nil_left]
  | _ :: _, _ :: _, [] => by rw [joinLevels_nil_right, joinLevels_nil_right]
  | l :: ls, m :: ms, n :: ns => by
    simp only [joinLevels, List.append_assoc, joinLevels_assoc ls ms ns]

theorem length_joinLevels : ∀ ls ms : List (List α),
    (joinLevels ls ms).length = max ls.length ms.length
  | [], ms => by simp
  | _ :: _, [] => by simp
  | l :: ls, m :: ms => by
    rw [joinLevels, List.length_cons, length_joinLevels ls ms, List.length_cons, List.length_cons]
    omega

/-- The forest is put below `level` empty levels. -/
theorem joinLevels_replicate (level : ℕ) (ls ms : List (List α)) :
    joinLevels (List.replicate level [] ++ ls) (List.replicate level [] ++ ms) =
      List.replicate level [] ++ joinLevels ls ms := by
  induction level with
  | zero => rfl
  | succ level ih =>
    rw [List.replicate_succ, List.cons_append, List.cons_append, joinLevels, ih]
    rfl

theorem forestLevels_append (ts us : List (LabelTree α)) :
    forestLevels (ts ++ us) = joinLevels (forestLevels ts) (forestLevels us) := by
  induction ts with
  | nil => rw [List.nil_append, forestLevels, joinLevels_nil_left]
  | cons t ts ih => rw [List.cons_append, forestLevels, ih, forestLevels, joinLevels_assoc]

/-! ### The round trip -/

/-- The first level of a forest has its labels, and the others are those of its subtrees. -/
theorem forestLevels_cons (t : LabelTree α) (ts : List (LabelTree α)) :
    forestLevels (t :: ts) =
      (t :: ts).map label :: forestLevels ((t :: ts).flatMap children) := by
  induction ts generalizing t with
  | nil =>
    cases t with
    | node a us =>
      simp [forestLevels, levels, label, children]
  | cons u ts ih =>
    cases t with
    | node a us =>
      rw [forestLevels, ih u, levels, joinLevels, ← forestLevels_append]
      rfl

variable {arity : α → ℕ}

/-- Labels get back the children that they had. -/
theorem attach_map_label {ts : List (LabelTree α)} (h : ∀ t ∈ ts, Fits arity t) :
    attach arity (ts.map label) (ts.flatMap children) = ts := by
  induction ts with
  | nil => rfl
  | cons t ts ih =>
    cases h t List.mem_cons_self with
    | @node a us length below =>
      rw [List.map_cons, List.flatMap_cons]
      simp only [label, children, attach]
      rw [← length, List.take_left, List.drop_left,
        ih fun u hu ↦ h u (List.mem_cons_of_mem _ hu)]

theorem fits_of_mem_flatMap {ts : List (LabelTree α)} (h : ∀ t ∈ ts, Fits arity t) :
    ∀ t ∈ ts.flatMap children, Fits arity t := by
  intro t ht
  obtain ⟨u, hu, ht⟩ := List.mem_flatMap.1 ht
  cases h u hu with
  | node _ below => exact below t ht

/-- **The levels determine the forest.** -/
theorem ofLevels_forestLevels {ts : List (LabelTree α)} (h : ∀ t ∈ ts, Fits arity t) :
    ofLevels arity (forestLevels ts) = ts := by
  -- by induction on the number of levels
  induction hn : (forestLevels ts).length generalizing ts with
  | zero =>
    rcases ts with - | ⟨t, ts⟩
    · rfl
    · rw [forestLevels_cons] at hn
      exact absurd hn (by simp)
  | succ n ih =>
    rcases ts with - | ⟨t, ts⟩
    · rfl
    · rw [forestLevels_cons, List.length_cons, Nat.add_right_cancel_iff] at hn
      rw [forestLevels_cons, ofLevels, ih (fits_of_mem_flatMap h) hn, attach_map_label h]

/-- The levels determine the tree. -/
theorem ofLevels_levels {t : LabelTree α} (h : Fits arity t) : ofLevels arity (levels t) = [t] := by
  have hforest := ofLevels_forestLevels fun u (hu : u ∈ [t]) ↦ List.mem_singleton.1 hu ▸ h
  rwa [forestLevels, forestLevels, joinLevels_nil_right] at hforest

end LabelTree
