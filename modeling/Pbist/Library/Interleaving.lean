import Mathlib.Data.Multiset.AddSub
import Mathlib.Data.Multiset.MapFold
import Mathlib.Data.Finset.Lattice.Lemmas
import Mathlib.Data.Fintype.EquivFin
import Mathlib.Logic.Relation

/-!
# Parallel programs on a shared memory

The memory is a bag of cells, each with its location and its content. A location is a field of a
block; blocks are allocated and their cells freed. A program is a tree of accesses to single cells,
so that whatever happens between two accesses of one thread is visible; `par` runs two threads, and
a step of the whole is a step of either, which gives all interleavings of their accesses.

A configuration is `Faulty` when some thread cannot take its next step (an explicit fault, an access
to a cell that is not there, be it freed or never allocated), or when two threads are about to
access the same cell and one of them does not only read it: a data race.

## What correctness means

`Prog.Correct` has three parts. No execution goes on for ever, which is accessibility of the step
relation and not a bound on fuel; none reaches a faulty configuration, even if another thread could
go on; and one that cannot go on has returned, in the postcondition. `acc_step` shows the first part
for all programs, because the continuation of a step is a part of the program.
-/

/-- A field of a block. -/
abbrev Loc (F : Type) := ℕ × F

/-- A memory: the cells that are allocated, with their contents. -/
abbrev Memory (F V : Type) := Multiset (Loc F × V)

/-- A program that returns an `α`. -/
inductive Prog (F V : Type) : Type → Type 1
  | ret {α : Type} (a : α) : Prog F V α
  | fault {α : Type} : Prog F V α
  /-- Reads a cell. -/
  | read {α : Type} (l : Loc F) (next : V → Prog F V α) : Prog F V α
  /-- Writes a cell. -/
  | write {α : Type} (l : Loc F) (v : V) (next : Prog F V α) : Prog F V α
  /-- Allocates a block with the given fields and gets its number. -/
  | alloc {α : Type} (cells : List (F × V)) (next : ℕ → Prog F V α) : Prog F V α
  /-- Frees a cell. -/
  | free {α : Type} (l : Loc F) (next : Prog F V α) : Prog F V α
  /-- Runs two threads, and goes on when both have returned. -/
  | par {α : Type} (left right : Prog F V Unit) (next : Prog F V α) : Prog F V α

variable {F V α β : Type}

namespace Prog

/-- `p`, and then `f` with what `p` returned. -/
def bind {α β : Type} : Prog F V α → (α → Prog F V β) → Prog F V β
  | ret a, f => f a
  | fault, _ => fault
  | read l next, f => read l fun v ↦ (next v).bind f
  | write l v next, f => write l v (next.bind f)
  | alloc cells next, f => alloc cells fun b ↦ (next b).bind f
  | free l next, f => free l (next.bind f)
  | par left right next, f => par left right (next.bind f)

instance : Monad (Prog F V) where
  pure := ret
  bind := bind

@[simp] theorem pure_bind (a : α) (f : α → Prog F V β) : ((pure a : Prog F V α) >>= f) = f a :=
  rfl

/-- Reads a cell whose content has the form that `get` accepts. -/
@[irreducible] def readAs (get : V → Option α) (l : Loc F) : Prog F V α :=
  read l fun v ↦ match get v with
    | some a => ret a
    | none => fault

/-- Writes a cell. -/
@[irreducible] def store (l : Loc F) (v : V) : Prog F V Unit :=
  write l v (ret ())

/-- Allocates a block. -/
@[irreducible] def new (cells : List (F × V)) : Prog F V ℕ :=
  alloc cells ret

/-- Frees a cell. -/
@[irreducible] def release (l : Loc F) : Prog F V Unit :=
  free l (ret ())

/-- Runs two threads. -/
@[irreducible] def fork (left right : Prog F V Unit) : Prog F V Unit :=
  par left right (ret ())

/-- The threads `body lo, ..., body (lo + n - 1)`, all at the same time. -/
def parallel (body : ℕ → Prog F V Unit) : ℕ → ℕ → Prog F V Unit
  | _, 0 => ret ()
  | lo, n + 1 => fork (body lo) (parallel body (lo + 1) n)

/-- `body lo, ..., body (lo + n - 1)`, one after the other, with a state. -/
def iterate {S : Type} (body : ℕ → S → Prog F V S) : ℕ → ℕ → S → Prog F V S
  | _, 0, s => ret s
  | lo, n + 1, s => do
    let s ← body lo s
    iterate body (lo + 1) n s

theorem parallel_zero (body : ℕ → Prog F V Unit) (lo : ℕ) : parallel body lo 0 = pure () :=
  rfl

theorem parallel_succ (body : ℕ → Prog F V Unit) (lo n : ℕ) :
    parallel body lo (n + 1) = fork (body lo) (parallel body (lo + 1) n) :=
  rfl

theorem iterate_zero {S : Type} (body : ℕ → S → Prog F V S) (lo : ℕ) (s : S) :
    iterate body lo 0 s = pure s :=
  rfl

theorem iterate_succ {S : Type} (body : ℕ → S → Prog F V S) (lo n : ℕ) (s : S) :
    iterate body lo (n + 1) s = body lo s >>= iterate body (lo + 1) n :=
  rfl

attribute [irreducible] parallel iterate

end Prog

namespace Memory

/-- The cells of a block. -/
def block (b : ℕ) (cells : List (F × V)) : Memory F V :=
  (cells.map fun c ↦ ((b, c.1), c.2) : List _)

/-- No location has two cells. -/
def Valid (m : Memory F V) : Prop :=
  (m.map Prod.fst).Nodup

/-- No cell belongs to block `b`. -/
def Unused (b : ℕ) (m : Memory F V) : Prop :=
  ∀ c ∈ m, c.1.1 ≠ b

theorem exists_unused (m : Memory F V) : ∃ b, Unused b m := by
  obtain ⟨b, hb⟩ := Infinite.exists_notMem_finset (m.map fun c ↦ c.1.1).toFinset
  refine ⟨b, fun c hc heq ↦ hb ?_⟩
  exact Multiset.mem_toFinset.2 (Multiset.mem_map.2 ⟨c, hc, heq⟩)

theorem valid_zero : Valid (0 : Memory F V) :=
  Multiset.nodup_zero

theorem Valid.of_le {m m' : Memory F V} (h : Valid m) (hle : m' ≤ m) : Valid m' :=
  Multiset.nodup_of_le (Multiset.map_le_map hle) h

/-- A valid memory has one content at most for a location. -/
theorem Valid.unique {m : Memory F V} (h : Valid m) {l : Loc F} {v w : V} (hv : (l, v) ∈ m)
    (hw : (l, w) ∈ m) : v = w := by
  obtain ⟨m, rfl⟩ := Multiset.exists_cons_of_mem hv
  rcases Multiset.mem_cons.1 hw with heq | hmem
  · exact (Prod.mk.inj heq).2.symm
  · rw [Valid, Multiset.map_cons, Multiset.nodup_cons] at h
    exact absurd (Multiset.mem_map.2 ⟨_, hmem, rfl⟩) h.1

/-- A location of one piece is not one of the other. -/
theorem Valid.notMem_right {m m' : Memory F V} (h : Valid (m + m')) {l : Loc F} {v w : V}
    (hv : (l, v) ∈ m) : (l, w) ∉ m' := by
  rw [Valid, Multiset.map_add, Multiset.nodup_add] at h
  exact fun hw ↦ Multiset.disjoint_left.1 h.2.2 (Multiset.mem_map.2 ⟨_, hv, rfl⟩)
    (Multiset.mem_map.2 ⟨_, hw, rfl⟩)

/-- The content of a cell may change. -/
theorem Valid.update {m : Memory F V} {l : Loc F} {v : V} (w : V) (h : Valid ((l, v) ::ₘ m)) :
    Valid ((l, w) ::ₘ m) := by
  simpa only [Valid, Multiset.map_cons] using h

/-- A block of different fields may be added where the number is unused. -/
theorem Valid.add_block {m : Memory F V} (h : Valid m) {b : ℕ} (hb : Unused b m)
    {cells : List (F × V)} (hcells : (cells.map Prod.fst).Nodup) : Valid (block b cells + m) := by
  rw [Valid, Multiset.map_add, Multiset.nodup_add]
  have hfst : (block b cells).map Prod.fst =
      ((cells.map Prod.fst).map fun f ↦ (b, f) : List _) := by
    rw [block, Multiset.map_coe, List.map_map, List.map_map]
    rfl
  refine ⟨?_, h, ?_⟩
  · rw [hfst, Multiset.coe_nodup]
    exact hcells.map fun _ _ heq ↦ (Prod.mk.inj heq).2
  · rw [hfst, Multiset.disjoint_left]
    rintro l hl hm
    obtain ⟨f, -, rfl⟩ := List.mem_map.1 (Multiset.mem_coe.1 hl)
    obtain ⟨c, hc, heq⟩ := Multiset.mem_map.1 hm
    exact hb c hc (by rw [heq])

end Memory

open Memory

/-! ### Steps -/

/-- One access, or the end of a `par`. -/
inductive Prog.Step : {α : Type} → Prog F V α → Memory F V → Prog F V α → Memory F V → Prop
  | read {α : Type} {l : Loc F} {v : V} {next : V → Prog F V α} {m : Memory F V}
      (h : (l, v) ∈ m) : Step (.read l next) m (next v) m
  | write {α : Type} {l : Loc F} {v w : V} {next : Prog F V α} {m : Memory F V} :
      Step (.write l v next) ((l, w) ::ₘ m) next ((l, v) ::ₘ m)
  | alloc {α : Type} {cells : List (F × V)} {next : ℕ → Prog F V α} {m : Memory F V} {b : ℕ}
      (h : Unused b m) : Step (.alloc cells next) m (next b) (block b cells + m)
  | free {α : Type} {l : Loc F} {w : V} {next : Prog F V α} {m : Memory F V} :
      Step (.free l next) ((l, w) ::ₘ m) next m
  | left {α : Type} {p p' q : Prog F V Unit} {next : Prog F V α} {m m' : Memory F V}
      (h : Step p m p' m') : Step (.par p q next) m (.par p' q next) m'
  | right {α : Type} {p q q' : Prog F V Unit} {next : Prog F V α} {m m' : Memory F V}
      (h : Step q m q' m') : Step (.par p q next) m (.par p q' next) m'
  | join {α : Type} {u v : Unit} {next : Prog F V α} {m : Memory F V} :
      Step (.par (.ret u) (.ret v) next) m next m

/-- The locations that a program may access next, and whether it does more than read them. -/
def Prog.accesses : {α : Type} → Prog F V α → Set (Loc F × Bool)
  | _, .read l _ => {(l, false)}
  | _, .write l _ _ => {(l, true)}
  | _, .free l _ => {(l, true)}
  | _, .par left right _ => left.accesses ∪ right.accesses
  | _, _ => ∅

/-- Something is wrong: a fault, an access to a cell that is not there, or a data race. -/
inductive Prog.Faulty : {α : Type} → Prog F V α → Memory F V → Prop
  | fault {α : Type} {m : Memory F V} : Faulty (.fault : Prog F V α) m
  | read {α : Type} {l : Loc F} {next : V → Prog F V α} {m : Memory F V}
      (h : ∀ v, (l, v) ∉ m) : Faulty (.read l next) m
  | write {α : Type} {l : Loc F} {v : V} {next : Prog F V α} {m : Memory F V}
      (h : ∀ w, (l, w) ∉ m) : Faulty (.write l v next) m
  | free {α : Type} {l : Loc F} {next : Prog F V α} {m : Memory F V}
      (h : ∀ w, (l, w) ∉ m) : Faulty (.free l next) m
  | left {α : Type} {p q : Prog F V Unit} {next : Prog F V α} {m : Memory F V}
      (h : Faulty p m) : Faulty (.par p q next) m
  | right {α : Type} {p q : Prog F V Unit} {next : Prog F V α} {m : Memory F V}
      (h : Faulty q m) : Faulty (.par p q next) m
  | race {α : Type} {p q : Prog F V Unit} {next : Prog F V α} {m : Memory F V} {l : Loc F}
      {i j : Bool} (hp : (l, i) ∈ p.accesses) (hq : (l, j) ∈ q.accesses) (h : i || j) :
      Faulty (.par p q next) m

/-! ### Executions -/

/-- A program with the memory it runs on. -/
abbrev Config (F V α : Type) := Prog F V α × Memory F V

/-- A step of a configuration. -/
def Config.Step (c c' : Config F V α) : Prop :=
  Prog.Step c.1 c.2 c'.1 c'.2

/-- The configurations that can be reached. -/
abbrev Config.Steps (c c' : Config F V α) : Prop :=
  Relation.ReflTransGen Config.Step c c'

/-- No execution of `p` on the memory `m` goes on for ever, none meets a fault or a data race, and
each that cannot go on has returned an `a` and left a memory `m'` with `post a m'`. -/
structure Prog.Correct (p : Prog F V α) (m : Memory F V) (post : α → Memory F V → Prop) :
    Prop where
  terminates : Acc (fun c' c : Config F V α ↦ c.Step c') (p, m)
  safe : ∀ c, Config.Steps (p, m) c → ¬c.1.Faulty c.2
  returns : ∀ c, Config.Steps (p, m) c →
    (∃ c', c.Step c') ∨ ∃ a, c.1 = .ret a ∧ post a c.2

theorem Prog.Correct.mono {p : Prog F V α} {m : Memory F V} {post post' : α → Memory F V → Prop}
    (h : p.Correct m post) (hpost : ∀ a m', post a m' → post' a m') : p.Correct m post' where
  terminates := h.terminates
  safe := h.safe
  returns c hc := (h.returns c hc).imp_right fun ⟨a, heq, hm⟩ ↦ ⟨a, heq, hpost a c.2 hm⟩

namespace Prog

/-- `p'` is what is left of `p` after a step on some memory. -/
def Next (p' p : Prog F V α) : Prop :=
  ∃ m m', Step p m p' m'

/-- Two threads and what follows them can only take so many steps if each of the three can. -/
theorem acc_par {p q : Prog F V Unit} {next : Prog F V α} (hp : Acc Next p) (hq : Acc Next q)
    (hnext : Acc Next next) : Acc Next (.par p q next) := by
  induction hp generalizing q with
  | intro p hp ihp =>
    induction hq with
    | intro q hq ihq =>
      refine Acc.intro _ fun p' ⟨m, m', hstep⟩ ↦ ?_
      cases hstep with
      | left h => exact ihp _ ⟨m, m', h⟩ (Acc.intro q hq)
      | right h => exact ihq _ ⟨m, m', h⟩
      | join => exact hnext

/-- A program is a tree, so its steps end whatever the memory does to it. -/
theorem acc_next (p : Prog F V α) : Acc Next p := by
  induction p with
  | ret a => exact Acc.intro _ fun p' ⟨_, _, hstep⟩ ↦ nomatch hstep
  | fault => exact Acc.intro _ fun p' ⟨_, _, hstep⟩ ↦ nomatch hstep
  | read l next ih =>
    refine Acc.intro _ fun p' ⟨_, _, hstep⟩ ↦ ?_
    cases hstep with
    | read _ => exact ih _
  | write l v next ih =>
    refine Acc.intro _ fun p' ⟨_, _, hstep⟩ ↦ ?_
    cases hstep with
    | write => exact ih
  | alloc cells next ih =>
    refine Acc.intro _ fun p' ⟨_, _, hstep⟩ ↦ ?_
    cases hstep with
    | alloc _ => exact ih _
  | free l next ih =>
    refine Acc.intro _ fun p' ⟨_, _, hstep⟩ ↦ ?_
    cases hstep with
    | free => exact ih
  | par left right next ihl ihr ihn => exact acc_par ihl ihr ihn

/-- No execution goes on for ever. -/
theorem acc_step (p : Prog F V α) (m : Memory F V) :
    Acc (fun c' c : Config F V α ↦ c.Step c') (p, m) := by
  have h : Acc (InvImage Next (Prod.fst : Config F V α → Prog F V α)) (p, m) :=
    InvImage.accessible _ (acc_next p)
  exact Subrelation.accessible (fun {c' c} hstep ↦ ⟨c.2, c'.2, hstep⟩) h

end Prog
