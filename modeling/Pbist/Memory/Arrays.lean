import Pbist.Source.Memory
import Pbist.Library.Separation

/-!
# Arrays in memory

What the programs on arrays do. An array is a sum of cells; a loop that fills it in parallel owns
one cell in each iteration.
-/

namespace Pbist

namespace Mem

open Checked Assertion

open scoped Pointwise

variable {T α β : Type} {s : Memory Part (Val T)}

/-! ### Values -/

@[simp] theorem lift_ok (a : α) : (lift (.ok a) : Code T α) = pure a :=
  rfl

theorem assert_of {p : Prop} [Decidable p] (h : p) : (assert p : Code T Unit) = pure () :=
  if_pos h

theorem count?_count (n : ℕ) : (Val.count n : Val T).count? = some n :=
  rfl

theorem flag?_flag (b : Bool) : (Val.flag b : Val T).flag? = some b :=
  rfl

theorem key?_key (k : T) : (Val.key k).key? = some k :=
  rfl

theorem pointer?_pointer (q : Option ℕ) : (Val.pointer q : Val T).pointer? = some q :=
  rfl

/-! ### Arrays -/

/-- The entries of an array at the indices in `D`. -/
def entriesAt (arr : ℕ) (D : Finset ℕ) (v : ℕ → Val T) : Assertion Part (Val T) :=
  ∑ i ∈ D, pointsTo (arr, .entry i) (v i)

variable {arr n : ℕ} {v : ℕ → Val T}

theorem entriesAt_congr {D : Finset ℕ} {v w : ℕ → Val T} (h : ∀ i ∈ D, v i = w i) :
    entriesAt arr D v = entriesAt arr D w :=
  Finset.sum_congr rfl fun i hi ↦ by rw [h i hi]

theorem entriesAt_union {D E : Finset ℕ} (h : Disjoint D E) :
    entriesAt arr (D ∪ E) v = entriesAt arr D v + entriesAt arr E v :=
  Finset.sum_union h

theorem entriesAt_biUnion {ι : Type} [DecidableEq ι] {D : Finset ι} {E : ι → Finset ℕ}
    (h : ∀ x ∈ D, ∀ y ∈ D, x ≠ y → Disjoint (E x) (E y)) :
    entriesAt arr (D.biUnion E) v = ∑ x ∈ D, entriesAt arr (E x) v :=
  Finset.sum_biUnion h

theorem entriesAt_singleton (i : ℕ) : entriesAt arr {i} v = pointsTo (arr, .entry i) (v i) :=
  Finset.sum_singleton _ _

theorem entriesAt_empty : entriesAt arr ∅ v = 0 :=
  Finset.sum_empty

theorem mem_of_mem_entriesAt {D : Finset ℕ} {m : Memory Part (Val T)} (h : m ∈ entriesAt arr D v)
    {i : ℕ} (hi : i ∈ D) : ((arr, Part.entry i), v i) ∈ m := by
  obtain ⟨r, hr, hle⟩ := exists_le_of_mem_sum h hi
  exact mem_of_mem_pointsTo hr hle

theorem newArray_spec (n : ℕ) :
    Spec s 0 (newArray n) fun arr ↦ entriesAt arr (Finset.range n) fun _ ↦ .raw := by
  have hnodup : (((List.range n).map fun i ↦ (Part.entry i, (Val.raw : Val T))).map
      Prod.fst).Nodup := by
    rw [List.map_map]
    exact List.nodup_range.map fun i j h ↦ Part.entry.inj h
  refine (Spec.new hnodup).weaken fun arr ↦ ?_
  rw [List.map_map, entriesAt, Finset.sum_eq_multiset_sum, Finset.range_val, ← Multiset.coe_range,
    Multiset.map_coe, Multiset.sum_coe]
  exact subset_rfl

/-- The array is read, entry by entry. -/
theorem readArray_spec {get : Val T → Option α} {l : List α} (hn : l.length = n)
    (h : ∀ (i : ℕ) (a : α), l[i]? = some a → get (v i) = some a) :
    Gives s (entriesAt arr (Finset.range n) v) (readArray get arr n) l
      (entriesAt arr (Finset.range n) v) := by
  subst hn
  refine Gives.readOnly fun r hr ↦ ?_
  have hloop := @Gives.iterate _ _ (s + r) _
    (fun i l ↦ do pure (l ++ [← Prog.readAs get (arr, .entry i)]))
    (fun i ↦ l.take i) (fun _ ↦ 0) l.length 0 fun i _ hi ↦ by
      have hcell := mem_of_mem_entriesAt hr (Finset.mem_range.2 (show i < l.length by omega))
      have hi' : l[i]? = some l[i] := List.getElem?_eq_getElem (by omega)
      refine (Gives.readShared (Multiset.mem_add.2 (.inr hcell)) (h i _ hi')).andThen ?_
      rw [List.take_add_one, hi']
      exact Gives.ret
  rwa [Nat.zero_add, List.take_length] at hloop

theorem freeArray_spec :
    Gives s (entriesAt arr (Finset.range n) v) (freeArray arr n) () 0 := by
  have hloop := @Gives.iterate _ _ s _ (fun i _ ↦ Prog.release (arr, Part.entry i)) (fun _ ↦ ())
    (fun i ↦ entriesAt arr (Finset.Ico i n) v) n 0 fun i _ hi ↦ by
      have hrelease := Gives.release (s := s) (l := (arr, Part.entry i)) (w := v i)
      rw [entriesAt, Finset.sum_eq_sum_Ico_succ_bot (by omega)]
      simpa only [zero_add, entriesAt] using hrelease.frame (entriesAt arr (Finset.Ico (i + 1) n) v)
  rwa [Nat.zero_add, Finset.Ico_self, ← Finset.range_eq_Ico] at hloop

/-- The contents of an array are taken out, and the array is freed. -/
theorem takeArray_spec {get : Val T → Option α} {l : List α} (hn : l.length = n)
    (h : ∀ (i : ℕ) (a : α), l[i]? = some a → get (v i) = some a) :
    Gives s (entriesAt arr (Finset.range n) v) (takeArray get arr n) l 0 :=
  (readArray_spec hn h).bind (freeArray_spec.bind Gives.ret)

/-- An array whose entries are computed in parallel from what is shared. -/
theorem tabulateArray_spec {put : α → Val T} {get : Val T → Option α} {f : ℕ → Code T α}
    {l : List α} (hget : ∀ a, get (put a) = some a) (hn : l.length = n)
    (hf : ∀ (i : ℕ) (a : α), l[i]? = some a → Gives s 0 (f i) a 0) :
    Gives s 0 (tabulateArray put get n f) l 0 := by
  refine (newArray_spec n).bind fun arr ↦ ?_
  have hloop := @Gives.parallel _ _ s
    (fun i ↦ do Prog.store (arr, .entry i) (put (← f i)))
    (fun i ↦ pointsTo (arr, Part.entry i) Val.raw)
    (fun i ↦ pointsTo (arr, Part.entry i) ((l[i]?).elim .raw put)) n 0 fun i _ hi ↦ by
      have hi' : l[i]? = some l[i] := List.getElem?_eq_getElem (by omega)
      rw [hi']
      exact (hf i _ hi').andThen Gives.store
  rw [Nat.zero_add, ← Finset.range_eq_Ico] at hloop
  refine hloop.bind (takeArray_spec hn fun i a ha ↦ ?_)
  rw [ha]
  exact hget a

/-- The entries of a raw array that a program writes. -/
abbrev Fills (s : Memory Part (Val T)) (arr : ℕ) (v : ℕ → Val T) (D : Finset ℕ) (x : Code T Unit) :
    Prop :=
  Gives s (entriesAt arr D fun _ ↦ .raw) x () (entriesAt arr D v)

theorem Fills.none {x : Code T Unit} (h : x = pure ()) : Fills s arr v ∅ x := by
  rw [Fills, entriesAt_empty, entriesAt_empty, h]
  exact Gives.ret

theorem Fills.store {i : ℕ} {a : Val T} (h : v i = a) :
    Fills s arr v {i} (Prog.store (arr, .entry i) a) := by
  rw [Fills, entriesAt_singleton, entriesAt_singleton, h]
  exact Gives.store

/-- A parallel loop whose iterations write entries of their own. -/
theorem Fills.parallel {D : ℕ → Finset ℕ} {lo n : ℕ} {body : ℕ → Code T Unit}
    (hdisj : ∀ i j, i ≠ j → Disjoint (D i) (D j))
    (h : ∀ i, lo ≤ i → i < lo + n → Fills s arr v (D i) (body i)) :
    Fills s arr v ((Finset.Ico lo (lo + n)).biUnion D) (Prog.parallel body lo n) := by
  rw [Fills, entriesAt_biUnion fun i _ j _ ↦ hdisj i j, entriesAt_biUnion fun i _ j _ ↦ hdisj i j]
  exact Gives.parallel h

/-- A parallel loop whose iteration `i` writes the entry `offset + i`. -/
theorem Fills.shifted {offset lo hi : ℕ} {body : ℕ → Code T Unit} (hle : lo ≤ hi)
    (h : ∀ i, lo ≤ i → i < hi → Fills s arr v {offset + i} (body i)) :
    Fills s arr v (Finset.Ico (offset + lo) (offset + hi)) (Prog.parallel body lo (hi - lo)) := by
  have hunion : (Finset.Ico lo (lo + (hi - lo))).biUnion (fun i ↦ {offset + i}) =
      Finset.Ico (offset + lo) (offset + hi) := by
    ext m
    simp only [Finset.mem_biUnion, Finset.mem_Ico, Finset.mem_singleton]
    constructor
    · rintro ⟨i, hi, rfl⟩
      omega
    · rintro ⟨hlo, hhi⟩
      exact ⟨m - offset, by omega, by omega⟩
  rw [← hunion]
  exact Fills.parallel (fun i j hij ↦ Finset.disjoint_singleton.2 (by omega))
    fun i hlo hhi ↦ h i hlo (by omega)

theorem fillArray_spec (n : ℕ) (b : Bool) :
    Spec s 0 (fillArray n b) fun arr ↦ entriesAt arr (Finset.range n) fun _ ↦ .flag b := by
  refine (newArray_spec n).bind fun arr ↦ ?_
  have hloop := @Gives.parallel _ _ s (fun i ↦ Prog.store (arr, .entry i) (Val.flag b))
    (fun i ↦ pointsTo (arr, Part.entry i) Val.raw)
    (fun i ↦ pointsTo (arr, Part.entry i) (.flag b)) n 0
    fun i _ hi ↦ Gives.store
  rw [Nat.zero_add, ← Finset.range_eq_Ico] at hloop
  exact hloop.bind (Spec.ret subset_rfl)

end Mem

end Pbist
