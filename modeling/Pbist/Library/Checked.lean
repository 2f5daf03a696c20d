import Mathlib.Data.List.Basic
import Mathlib.Data.Finset.Basic
import Mathlib.Order.Interval.Finset.Nat

/-!
# Checked computations

Imperative code is embedded in a monad in which whatever the code may only assume is *checked*:
an assertion, an array access, an unsigned subtraction, a read of an uninitialised cell. A check
that fails is a `Fault`, so a run without a fault is a run in which every assumption held.

Raw memory is a `Buffer` of cells. A cell holds its value, or nothing as long as it was never
written, and counts how often it was written; the count is what "written exactly once" refers to.

`updateOn` is the common description of a half-finished loop over an array: the entries of an
index set are already updated, the others are untouched.

## The two kinds of writes

`Buffer.write` is an assignment, which may overwrite what is there; `Buffer.construct` is a
placement new, which expects raw memory and is a fault on a cell that was written before. Of the
first, `WrittenOnce` states that a loop writes each cell once, in terms of the counts. With the
second, a loop that returns has not constructed any cell twice.
-/

/-- Why a checked computation stops. -/
inductive Fault
  /-- An assertion does not hold. -/
  | assertion
  /-- An index or an iterator range lies outside its array. -/
  | outOfBounds
  /-- An unsigned subtraction is negative. -/
  | underflow
  /-- An arithmetic operation leaves its type, where the embedding traps that. -/
  | overflow
  /-- A cell of raw memory is read before it is written. -/
  | uninitialised
  /-- A cell of raw memory is constructed that was written before. -/
  | constructedTwice
  /-- A null pointer is dereferenced. -/
  | nullPointer
  /-- A conversion is applied to a value its target type cannot hold. -/
  | badCast
  /-- A loop or a recursion uses up its fuel. -/
  | outOfFuel
  deriving DecidableEq, Repr

/-- A computation that either returns or stops with a fault. -/
abbrev Checked (α : Type) := Except Fault α

namespace Checked

variable {α β : Type}

@[simp] theorem ok_bind (a : α) (f : α → Checked β) :
    ((Except.ok a : Checked α) >>= f) = f a :=
  rfl

@[simp] theorem error_bind (e : Fault) (f : α → Checked β) :
    ((Except.error e : Checked α) >>= f) = Except.error e :=
  rfl

@[simp] theorem pure_eq_ok (a : α) : (pure a : Checked α) = Except.ok a :=
  rfl

/-- A result of a sequence is a result of its second half at a result of its first half. -/
theorem bind_eq_ok {x : Checked α} {f : α → Checked β} {b : β} :
    (x >>= f) = Except.ok b ↔ ∃ a, x = Except.ok a ∧ f a = Except.ok b := by
  rcases x with e | a <;> simp

/-! ### Assertions and unsigned arithmetic -/

/-- `assert(p)`. -/
def require (p : Prop) [Decidable p] : Checked Unit :=
  if p then .ok () else .error .assertion

theorem require_of {p : Prop} [Decidable p] (h : p) : require p = .ok () :=
  if_pos h

theorem require_eq_ok {p : Prop} [Decidable p] {u : Unit} : require p = .ok u ↔ p := by
  by_cases h : p <;> simp [require, h]

/-- The unsigned difference `a - b`. -/
def subtract (a b : ℕ) : Checked ℕ :=
  if b ≤ a then .ok (a - b) else .error .underflow

theorem subtract_of_le {a b : ℕ} (h : b ≤ a) : subtract a b = .ok (a - b) :=
  if_pos h

/-! ### Arrays -/

/-- The array access `l[i]`. -/
def get (l : List α) (i : ℕ) : Checked α :=
  match l[i]? with
  | some a => .ok a
  | none => .error .outOfBounds

theorem get_of_getElem? {l : List α} {i : ℕ} {a : α} (h : l[i]? = some a) : get l i = .ok a := by
  rw [get, h]

theorem getElem?_of_get {l : List α} {i : ℕ} {a : α} (h : get l i = .ok a) : l[i]? = some a := by
  rw [get] at h
  split at h
  · rename_i b hb
    rw [hb, Except.ok.inj h]
  · exact nomatch h

theorem get_of_lt {l : List α} {i : ℕ} (h : i < l.length) : get l i = .ok l[i] :=
  get_of_getElem? (List.getElem?_eq_getElem h)

/-- An access in bounds, with a value that would be read otherwise. -/
theorem get_getD {l : List α} {i : ℕ} (h : i < l.length) (a : α) :
    get l i = .ok (l[i]?.getD a) := by
  rw [get_of_lt h, List.getElem?_eq_getElem h, Option.getD_some]

/-- The assignment `l[i] = a`. -/
def put (l : List α) (i : ℕ) (a : α) : Checked (List α) :=
  if i < l.length then .ok (l.set i a) else .error .outOfBounds

theorem put_of_lt {l : List α} {i : ℕ} (h : i < l.length) (a : α) : put l i a = .ok (l.set i a) :=
  if_pos h

/-- The entries of an array from index `lo` to index `hi - 1`. -/
def part (l : List α) (lo hi : ℕ) : List α :=
  (l.drop lo).take (hi - lo)

/-- The array between two iterators, `[l.begin() + lo, l.begin() + hi)`. -/
def slice (l : List α) (lo hi : ℕ) : Checked (List α) :=
  if lo ≤ hi ∧ hi ≤ l.length then .ok (part l lo hi) else .error .outOfBounds

theorem slice_of_le {l : List α} {lo hi : ℕ} (h : lo ≤ hi) (h' : hi ≤ l.length) :
    slice l lo hi = .ok (part l lo hi) :=
  if_pos ⟨h, h'⟩

theorem length_part {l : List α} {lo hi : ℕ} (h : hi ≤ l.length) :
    (part l lo hi).length = hi - lo := by
  rw [part, List.length_take, List.length_drop]
  omega

theorem getElem?_part {l : List α} {lo hi i : ℕ} (h : lo + i < hi) :
    (part l lo hi)[i]? = l[lo + i]? := by
  rw [part, List.getElem?_take_of_lt (by omega), List.getElem?_drop]

theorem getElem_mem_part {l : List α} {lo hi i : ℕ} (hlo : lo ≤ i) (hhi : i < hi)
    (hi' : i < l.length) : l[i] ∈ part l lo hi := by
  refine List.mem_of_getElem? (i := i - lo) ?_
  rw [getElem?_part (by omega), Nat.add_sub_cancel' hlo, List.getElem?_eq_getElem hi']

/-- The positions of a part without duplicates are determined by their entries. -/
theorem part_inj {l : List α} {lo hi i j : ℕ} (hl : (part l lo hi).Nodup) (hilo : lo ≤ i)
    (hihi : i < hi) (hjlo : lo ≤ j) (hjhi : j < hi) {a : α} (hi' : l[i]? = some a)
    (hj' : l[j]? = some a) : i = j := by
  have hpi : (part l lo hi)[i - lo]? = some a := by
    rw [getElem?_part (by omega), Nat.add_sub_cancel' hilo, hi']
  have hpj : (part l lo hi)[j - lo]? = some a := by
    rw [getElem?_part (by omega), Nat.add_sub_cancel' hjlo, hj']
  obtain ⟨hilt, hia⟩ := List.getElem?_eq_some_iff.1 hpi
  obtain ⟨hjlt, hja⟩ := List.getElem?_eq_some_iff.1 hpj
  have := hl.getElem_inj_iff.1 (hia.trans hja.symm)
  omega

theorem part_self (l : List α) : part l 0 l.length = l := by
  rw [part, List.drop_zero, Nat.sub_zero, List.take_length]

theorem part_sublist (l : List α) (lo hi : ℕ) : (part l lo hi).Sublist l :=
  (List.take_sublist _ _).trans (List.drop_sublist _ _)

/-- A part of a part is a part. -/
theorem part_part (l : List α) {lo hi i j : ℕ} (h : lo + j ≤ hi) :
    part (part l lo hi) i j = part l (lo + i) (lo + j) := by
  rw [part, part, part, List.drop_take, List.drop_drop, List.take_take]
  congr 1
  omega

/-- The array of length `n` whose entry `i` is computed by `f i`. -/
def tabulate (n : ℕ) (f : ℕ → Checked α) : Checked (List α) :=
  (List.range n).mapM f

theorem mapM_of_ok {f : α → Checked β} {g : α → β} :
    ∀ {l : List α}, (∀ a ∈ l, f a = .ok (g a)) → l.mapM f = .ok (l.map g)
  | [], _ => by simp
  | a :: l, h => by
    have htail : l.mapM f = .ok (l.map g) := mapM_of_ok fun b hb ↦ h b (List.mem_cons_of_mem _ hb)
    simp [h a List.mem_cons_self, htail]

theorem tabulate_of_ok {n : ℕ} {f : ℕ → Checked α} {g : ℕ → α} (h : ∀ i < n, f i = .ok (g i)) :
    tabulate n f = .ok ((List.range n).map g) :=
  mapM_of_ok fun i hi ↦ h i (List.mem_range.1 hi)

theorem of_mapM_eq_ok {f : α → Checked β} : ∀ {l : List α} {l' : List β}, l.mapM f = .ok l' →
    l'.length = l.length ∧ ∀ (i : ℕ) (a : α), l[i]? = some a → ∃ b, l'[i]? = some b ∧ f a = .ok b
  | [], l', h => by
    obtain rfl : [] = l' := Except.ok.inj h
    exact ⟨rfl, fun i a ha ↦ by simp at ha⟩
  | a :: l, l', h => by
    rw [List.mapM_cons] at h
    obtain ⟨b, hb, h⟩ := bind_eq_ok.1 h
    obtain ⟨l', hl', h⟩ := bind_eq_ok.1 h
    obtain rfl := Except.ok.inj h
    obtain ⟨hlen, hrest⟩ := of_mapM_eq_ok hl'
    refine ⟨congrArg (· + 1) hlen, fun i a' ha' ↦ ?_⟩
    cases i with
    | zero =>
      obtain rfl : a = a' := Option.some.inj ha'
      exact ⟨b, rfl, hb⟩
    | succ i => exact hrest i a' ha'

/-- An array that is computed has its entries computed. -/
theorem of_tabulate_eq_ok {n : ℕ} {f : ℕ → Checked α} {l : List α} (h : tabulate n f = .ok l) :
    l.length = n ∧ ∀ (i : ℕ) (a : α), l[i]? = some a → f i = .ok a := by
  obtain ⟨hlen, hentry⟩ := of_mapM_eq_ok h
  rw [List.length_range] at hlen
  refine ⟨hlen, fun i a ha ↦ ?_⟩
  have hi : i < n := hlen ▸ (List.getElem?_eq_some_iff.1 ha).1
  obtain ⟨b, hb, hf⟩ := hentry i i (List.getElem?_range hi)
  rwa [Option.some.inj (ha.symm.trans hb)]

/-- An array computed from another one, entry by entry. -/
theorem tabulate_get {l : List α} {n : ℕ} (hn : n = l.length) {f : α → Checked β} {g : α → β}
    (h : ∀ a ∈ l, f a = .ok (g a)) : tabulate n (fun i ↦ get l i >>= f) = .ok (l.map g) := by
  subst hn
  rcases l with - | ⟨a, l⟩
  · rfl
  · rw [tabulate_of_ok (g := fun i ↦ g (((a :: l)[i]?).getD a)) fun i hi ↦ by
      rw [get_of_lt hi, List.getElem?_eq_getElem hi]
      exact h _ (List.getElem_mem hi)]
    refine congrArg Except.ok (List.ext_getElem? fun i ↦ ?_)
    rcases Nat.lt_or_ge i (a :: l).length with hi | hi
    · rw [List.getElem?_map, List.getElem?_range hi, List.getElem?_map, Option.map_some,
        List.getElem?_eq_getElem hi, Option.getD_some, Option.map_some]
    · rw [List.getElem?_eq_none (by simpa using hi), List.getElem?_eq_none (by simpa using hi)]

/-- A loop whose iterations succeed and keep `P`. -/
theorem foldlM_isOk {step : β → α → Checked β} {P : β → Prop} :
    ∀ {l : List α}, (∀ a ∈ l, ∀ b, P b → ∃ b', step b a = .ok b' ∧ P b') →
      ∀ b, P b → ∃ b', l.foldlM step b = .ok b' ∧ P b'
  | [], _, b, hb => ⟨b, rfl, hb⟩
  | a :: l, h, b, hb => by
    obtain ⟨b', heq, hb'⟩ := h a List.mem_cons_self b hb
    rw [List.foldlM_cons, heq, ok_bind]
    exact foldlM_isOk (fun a' ha' ↦ h a' (List.mem_cons_of_mem _ ha')) b' hb'

theorem foldlM_congr {step step' : β → α → Checked β} :
    ∀ {l : List α}, (∀ a ∈ l, ∀ b, step b a = step' b a) →
      ∀ b, l.foldlM step b = l.foldlM step' b
  | [], _, _ => rfl
  | a :: l, h, b => by
    rw [List.foldlM_cons, List.foldlM_cons, h a List.mem_cons_self b]
    exact bind_congr fun b' ↦ foldlM_congr (fun a' ha' ↦ h a' (List.mem_cons_of_mem _ ha')) b'

/-- In a loop that returns, every iteration does. -/
theorem exists_of_foldlM_eq_ok {step : β → α → Checked β} :
    ∀ {l : List α} {b b' : β}, l.foldlM step b = .ok b' → ∀ a ∈ l, ∃ c c', step c a = .ok c'
  | a :: l, b, b', h, a', ha' => by
    rw [List.foldlM_cons, bind_eq_ok] at h
    obtain ⟨c, hc, hrest⟩ := h
    rcases List.mem_cons.1 ha' with rfl | hmem
    · exact ⟨b, c, hc⟩
    · exact exists_of_foldlM_eq_ok hrest a' hmem

/-- The entries that satisfy a predicate, in their order. -/
def filter (p : α → Checked Bool) : List α → Checked (List α)
  | [] => .ok []
  | a :: l => do
    let keep ← p a
    let rest ← filter p l
    pure (if keep then a :: rest else rest)

theorem filter_of_ok {p : α → Checked Bool} {q : α → Bool} :
    ∀ {l : List α}, (∀ a ∈ l, p a = .ok (q a)) → filter p l = .ok (l.filter q)
  | [], _ => rfl
  | a :: l, h => by
    have htail : filter p l = .ok (l.filter q) :=
      filter_of_ok fun b hb ↦ h b (List.mem_cons_of_mem _ hb)
    simp [filter, h a List.mem_cons_self, htail, List.filter_cons]

end Checked

/-! ### Updating a set of entries -/

section UpdateOn

variable {α : Type}

/-- The array `l` with the entries at the indices in `D` updated by `f`. -/
def updateOn (f : ℕ → α → α) (D : Finset ℕ) (l : List α) : List α :=
  l.mapIdx fun i a ↦ if i ∈ D then f i a else a

variable {f : ℕ → α → α} {D : Finset ℕ} {l : List α}

@[simp] theorem length_updateOn : (updateOn f D l).length = l.length :=
  List.length_mapIdx

theorem getElem?_updateOn (i : ℕ) :
    (updateOn f D l)[i]? = (l[i]?).map fun a ↦ if i ∈ D then f i a else a :=
  List.getElem?_mapIdx

theorem getElem?_updateOn_of_mem {i : ℕ} (h : i ∈ D) :
    (updateOn f D l)[i]? = (l[i]?).map (f i) := by
  simp [getElem?_updateOn, h]

theorem getElem?_updateOn_of_notMem {i : ℕ} (h : i ∉ D) : (updateOn f D l)[i]? = l[i]? := by
  simp [getElem?_updateOn, h]

@[simp] theorem updateOn_empty : updateOn f ∅ l = l := by
  apply List.ext_getElem?
  intro i
  exact getElem?_updateOn_of_notMem (by simp)

/-- Updating one more entry. -/
theorem set_updateOn {i : ℕ} {a b : α} (hi : l[i]? = some a) (hb : f i a = b) :
    (updateOn f D l).set i b = updateOn f (insert i D) l := by
  apply List.ext_getElem?
  intro j
  rcases eq_or_ne i j with rfl | hne
  · have hlt : i < (updateOn f D l).length := by
      rw [length_updateOn]
      exact (List.getElem?_eq_some_iff.1 hi).1
    rw [List.getElem?_set_self hlt, getElem?_updateOn_of_mem (Finset.mem_insert_self i D), hi]
    simp [hb]
  · rw [List.getElem?_set_ne hne]
    simp [getElem?_updateOn, Finset.mem_insert, Ne.symm hne]

end UpdateOn

/-! ### Raw memory -/

/-- A cell of raw memory: what was last written to it, and how often it was written. -/
structure Cell (α : Type) where
  val : Option α
  writes : ℕ
  deriving DecidableEq, Repr

/-- An array of cells. -/
abbrev Buffer (α : Type) := List (Cell α)

variable {α : Type}

/-- The cell after a write. -/
def Cell.store (a : α) (c : Cell α) : Cell α :=
  ⟨some a, c.writes + 1⟩

namespace Buffer

/-- Freshly allocated memory: nothing is written. -/
def raw (n : ℕ) : Buffer α :=
  List.replicate n ⟨none, 0⟩

/-- The assignment `b[i] = a`. -/
def write (b : Buffer α) (i : ℕ) (a : α) : Checked (Buffer α) :=
  match b[i]? with
  | some c => .ok (b.set i (c.store a))
  | none => .error .outOfBounds

/-- The placement new `new (&b[i]) T(a)`, which expects raw memory. -/
def construct (b : Buffer α) (i : ℕ) (a : α) : Checked (Buffer α) :=
  match b[i]? with
  | some c => if c.writes = 0 then .ok (b.set i (c.store a)) else .error .constructedTwice
  | none => .error .outOfBounds

/-- The contents of a buffer all of whose cells are initialised. -/
def freeze (b : Buffer α) : Checked (List α) :=
  b.mapM fun c ↦ match c.val with
    | some a => .ok a
    | none => .error .uninitialised

/-- The buffer after each index `i` in `D` was written once, with the value `v i`. -/
abbrev writeOn (v : ℕ → α) (D : Finset ℕ) (b : Buffer α) : Buffer α :=
  updateOn (fun i ↦ Cell.store (v i)) D b

@[simp] theorem length_raw (n : ℕ) : (raw n : Buffer α).length = n :=
  List.length_replicate

/-- One more write. -/
theorem write_writeOn {v : ℕ → α} {D : Finset ℕ} {b : Buffer α} {i : ℕ} {a : α}
    (hi : i < b.length) (hD : i ∉ D) (ha : v i = a) :
    write (writeOn v D b) i a = .ok (writeOn v (insert i D) b) := by
  have hget : b[i]? = some b[i] := List.getElem?_eq_getElem hi
  rw [write, getElem?_updateOn_of_notMem hD, hget]
  exact congrArg Except.ok (set_updateOn hget (by rw [ha]))

/-- One more construction. -/
theorem construct_writeOn_raw {v : ℕ → α} {D : Finset ℕ} {n i : ℕ} {a : α} (hi : i < n)
    (hD : i ∉ D) (ha : v i = a) :
    construct (writeOn v D (raw n)) i a = .ok (writeOn v (insert i D) (raw n)) := by
  have hget : (raw n : Buffer α)[i]? = some ⟨none, 0⟩ := List.getElem?_replicate_of_lt hi
  rw [construct, getElem?_updateOn_of_notMem hD, hget]
  exact congrArg Except.ok (set_updateOn hget (by rw [ha]))

/-- `b'` is what becomes of `b` when every cell from `lo` to `hi - 1` is written exactly once, cell
`i` with some `a` that satisfies `value i a`, and no other cell is written. -/
structure WrittenOnce (value : ℕ → α → Prop) (lo hi : ℕ) (b b' : Buffer α) : Prop where
  length_eq : b'.length = b.length
  written : ∀ (i : ℕ) (c : Cell α), lo ≤ i → i < hi → b[i]? = some c →
    ∃ a, value i a ∧ b'[i]? = some ⟨some a, c.writes + 1⟩
  untouched : ∀ i : ℕ, ¬(lo ≤ i ∧ i < hi) → b'[i]? = b[i]?

theorem writtenOnce_writeOn {v : ℕ → α} {value : ℕ → α → Prop} {lo hi : ℕ} {b : Buffer α}
    (hv : ∀ i, lo ≤ i → i < hi → value i (v i)) :
    WrittenOnce value lo hi b (writeOn v (Finset.Ico lo hi) b) where
  length_eq := length_updateOn
  written i c hlo hhi hc := by
    rw [getElem?_updateOn_of_mem (Finset.mem_Ico.2 ⟨hlo, hhi⟩), hc]
    exact ⟨v i, hv i hlo hhi, rfl⟩
  untouched i hi := getElem?_updateOn_of_notMem (mt Finset.mem_Ico.1 hi)

/-- A buffer all of whose cells were written holds the written values. -/
theorem freeze_writeOn_raw {v : ℕ → α} {n : ℕ} {D : Finset ℕ} (hD : ∀ i < n, i ∈ D) :
    freeze (writeOn v D (raw n)) = .ok ((List.range n).map v) := by
  have hcells : writeOn v D (raw n) = (List.range n).map fun i ↦ (⟨some (v i), 1⟩ : Cell α) := by
    apply List.ext_getElem?
    intro i
    rcases Nat.lt_or_ge i n with hi | hi
    · rw [getElem?_updateOn_of_mem (hD i hi)]
      simp [raw, hi, Cell.store]
    · simp [raw, Nat.not_lt.2 hi]
  rw [hcells, freeze, Checked.mapM_of_ok (g := fun c : Cell α ↦ c.val.getD (v 0))]
  · simp
  · intro c hc
    obtain ⟨i, -, rfl⟩ := List.mem_map.1 hc
    rfl

end Buffer
