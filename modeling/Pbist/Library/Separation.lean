import Pbist.Library.Interleaving
import Mathlib.Algebra.Group.Pointwise.Set.BigOperators
import Mathlib.Algebra.Group.Pointwise.Set.Lattice
import Mathlib.Algebra.Order.Group.Multiset
import Mathlib.Algebra.BigOperators.Intervals

/-!
# Separation logic for parallel programs

An assertion is a set of pieces of memory. Pieces are bags of cells, so they are put together by
addition, and `P + Q` says that a piece consists of one in `P` and one in `Q`: the separating
conjunction is the pointwise sum of sets, iterated by `∑`, and its laws are those of a commutative
monoid.

A program runs on a piece that it owns and on a piece `s` that it shares with others, and that it
may only read. `wp p s Q` is the set of the pieces that `p` can own and run on, such that afterwards
`Q` holds of what it returns and of what has become of its piece. The definition follows the
program; for `par` the piece is divided between the threads, and what neither of them owns both may
read meanwhile. `correct_of_mem_wp` is what it is good for: on a piece in `wp p 0 Q`, every
interleaving of `p` is free of faults and data races and ends in `Q`.

## The main results, and what each rests on

* `exists_of_step` is the invariant of an execution, by induction on the program: a step changes the
  piece that the program owns, and nothing else.
* `correct_of_mem_wp` is the induction over the steps. Termination does not depend on the logic: a
  program is a finite tree, and every step leads to a smaller one. `exists_of_mem_wp` says that
  there is an outcome.
* `Spec.frame`, `Spec.bind` and `Gives.parallel` are the rules that proofs about programs use; with
  them no proof refers to interleavings.
-/

open scoped Pointwise

open Memory

variable {F V α β : Type}

/-- An assertion on a piece of memory. -/
abbrev Assertion (F V : Type) := Set (Memory F V)

/-- The piece is one cell. -/
def Assertion.pointsTo (l : Loc F) (v : V) : Assertion F V :=
  {{(l, v)}}

open Assertion

namespace Prog

/-- The pieces of memory that are enough for a program to run and to end in `Q`, if it may read `s`
besides. -/
def wp : {α : Type} → Prog F V α → Memory F V → (α → Assertion F V) → Assertion F V
  | _, ret a, _, Q => Q a
  | _, fault, _, _ => ∅
  | _, read l next, s, Q => {m | ∃ v, (l, v) ∈ m + s ∧ m ∈ (next v).wp s Q}
  | _, write l v next, s, Q => {m | ∃ w m', m = (l, w) ::ₘ m' ∧ (l, v) ::ₘ m' ∈ next.wp s Q}
  | _, alloc cells next, s, Q =>
    {m | (cells.map Prod.fst).Nodup ∧ ∀ b, block b cells + m ∈ (next b).wp s Q}
  | _, free l next, s, Q => {m | ∃ w m', m = (l, w) ::ₘ m' ∧ m' ∈ next.wp s Q}
  | _, par left right next, s, Q =>
    {m | ∃ m₁ m₂ m₃, m = m₁ + m₂ + m₃ ∧ ∃ Q₁ Q₂ : Assertion F V,
      m₁ ∈ left.wp (s + m₃) (fun _ ↦ Q₁) ∧ m₂ ∈ right.wp (s + m₃) (fun _ ↦ Q₂) ∧
      ∀ m₁' ∈ Q₁, ∀ m₂' ∈ Q₂, m₁' + m₂' + m₃ ∈ next.wp s Q}

/-! ### Soundness -/

/-- What a program may access next lies in its piece, or in the shared piece if it only reads it. -/
theorem exists_mem_of_mem_accesses {p : Prog F V α} {Q : α → Assertion F V} {m s : Memory F V}
    (h : m ∈ p.wp s Q) {l : Loc F} {i : Bool} (hl : (l, i) ∈ p.accesses) :
    ∃ v, (l, v) ∈ m ∨ i = false ∧ (l, v) ∈ s := by
  induction p generalizing m s with
  | ret a => exact absurd hl (Set.notMem_empty _)
  | fault => exact absurd hl (Set.notMem_empty _)
  | read l' next _ =>
    obtain ⟨rfl, rfl⟩ := Prod.mk.inj hl
    obtain ⟨v, hv, -⟩ := h
    exact ⟨v, (Multiset.mem_add.1 hv).imp_right fun hs ↦ ⟨rfl, hs⟩⟩
  | write l' v next _ =>
    obtain ⟨rfl, rfl⟩ := Prod.mk.inj hl
    obtain ⟨w, m', rfl, -⟩ := h
    exact ⟨w, .inl (Multiset.mem_cons_self _ _)⟩
  | alloc cells next _ => exact absurd hl (Set.notMem_empty _)
  | free l' next _ =>
    obtain ⟨rfl, rfl⟩ := Prod.mk.inj hl
    obtain ⟨w, m', rfl, -⟩ := h
    exact ⟨w, .inl (Multiset.mem_cons_self _ _)⟩
  | par left right next ihl ihr _ =>
    obtain ⟨m₁, m₂, m₃, rfl, Q₁, Q₂, hleft, hright, -⟩ := h
    rcases hl with hl | hl
    · obtain ⟨v, hv⟩ := ihl hleft hl
      exact ⟨v, by simp only [Multiset.mem_add] at hv ⊢; tauto⟩
    · obtain ⟨v, hv⟩ := ihr hright hl
      exact ⟨v, by simp only [Multiset.mem_add] at hv ⊢; tauto⟩

/-- A program on its piece, in whatever memory, has no fault and no data race. -/
theorem not_faulty_of_mem_wp {p : Prog F V α} {Q : α → Assertion F V} {m s f : Memory F V}
    (h : m ∈ p.wp s Q) (hvalid : Valid (m + s + f)) : ¬p.Faulty (m + s + f) := by
  induction p generalizing m s f with
  | ret a => exact fun hcon ↦ nomatch hcon
  | fault => exact absurd h (Set.notMem_empty _)
  | read l next _ =>
    obtain ⟨v, hv, -⟩ := h
    rintro (_ | hcon)
    exact hcon v (Multiset.mem_add.2 (.inl hv))
  | write l v next _ =>
    obtain ⟨w, m₀, rfl, -⟩ := h
    rintro (_ | _ | hcon)
    exact hcon w (by simp)
  | alloc cells next _ => exact fun hcon ↦ nomatch hcon
  | free l next _ =>
    obtain ⟨w, m₀, rfl, -⟩ := h
    rintro (_ | _ | _ | hcon)
    exact hcon w (by simp)
  | par left right next ihl ihr _ =>
    obtain ⟨m₁, m₂, m₃, rfl, Q₁, Q₂, hleft, hright, -⟩ := h
    have heq₁ : m₁ + m₂ + m₃ + s + f = m₁ + (s + m₃) + (m₂ + f) := by ac_rfl
    have heq₂ : m₁ + m₂ + m₃ + s + f = m₂ + (s + m₃) + (m₁ + f) := by ac_rfl
    intro hcon
    cases hcon with
    | left hcon => exact ihl hleft (heq₁ ▸ hvalid) (heq₁ ▸ hcon)
    | right hcon => exact ihr hright (heq₂ ▸ hvalid) (heq₂ ▸ hcon)
    | race hp hq hij =>
      -- the thread that does not only read owns the location, so the other one cannot see it
      obtain ⟨v, hv⟩ := exists_mem_of_mem_accesses hleft hp
      obtain ⟨w, hw⟩ := exists_mem_of_mem_accesses hright hq
      have hv₁ : Valid (m₁ + (m₂ + (s + m₃))) := hvalid.of_le (by
        rw [show m₁ + m₂ + m₃ + s + f = m₁ + (m₂ + (s + m₃)) + f by ac_rfl]
        exact Multiset.le_add_right _ _)
      have hv₂ : Valid (m₂ + (m₁ + (s + m₃))) := by
        rwa [show m₂ + (m₁ + (s + m₃)) = m₁ + (m₂ + (s + m₃)) by ac_rfl]
      rcases hv with hv | ⟨rfl, hv⟩
      · exact hv₁.notMem_right hv (Multiset.mem_add.2 (hw.imp_right And.right))
      · rcases hw with hw | ⟨rfl, -⟩
        · exact hv₂.notMem_right hw (Multiset.mem_add.2 (.inr hv))
        · simp at hij

/-- **A step of a program changes its piece only**, and the rest of the program can run on the new
piece. -/
theorem exists_of_step {p p' : Prog F V α} {M M' : Memory F V} (hstep : Step p M p' M') :
    ∀ {Q : α → Assertion F V} {m s f : Memory F V}, m ∈ p.wp s Q → M = m + s + f → Valid M →
      ∃ m', M' = m' + s + f ∧ Valid M' ∧ m' ∈ p'.wp s Q := by
  induction hstep with
  | read hmem =>
    rintro Q m s f ⟨v, hv, hnext⟩ rfl hvalid
    refine ⟨m, rfl, hvalid, ?_⟩
    rwa [hvalid.unique hmem (Multiset.mem_add.2 (.inl hv))]
  | @write _ l v w next M =>
    rintro Q m s f ⟨w', m', rfl, hnext⟩ heq hvalid
    have hw : w' = w := hvalid.unique (heq ▸ by simp) (Multiset.mem_cons_self _ _)
    subst hw
    rw [Multiset.cons_add, Multiset.cons_add, Multiset.cons_inj_right] at heq
    subst heq
    exact ⟨_, by rw [Multiset.cons_add, Multiset.cons_add], hvalid.update v, hnext⟩
  | @alloc _ cells next M b hunused =>
    rintro Q m s f ⟨hcells, hnext⟩ rfl hvalid
    exact ⟨_, by ac_rfl, hvalid.add_block hunused hcells, hnext b⟩
  | @free _ l w next M =>
    rintro Q m s f ⟨w', m', rfl, hnext⟩ heq hvalid
    have hw : w' = w := hvalid.unique (heq ▸ by simp) (Multiset.mem_cons_self _ _)
    subst hw
    rw [Multiset.cons_add, Multiset.cons_add, Multiset.cons_inj_right] at heq
    subst heq
    exact ⟨m', rfl, hvalid.of_le (Multiset.le_cons_self _ _), hnext⟩
  | left _ ih =>
    rintro Q m s f ⟨m₁, m₂, m₃, rfl, Q₁, Q₂, hleft, hright, hnext⟩ heq hvalid
    obtain ⟨m₁', rfl, hvalid', hleft'⟩ := ih hleft
      (show _ = m₁ + (s + m₃) + (m₂ + f) by rw [heq]; ac_rfl) hvalid
    exact ⟨m₁' + m₂ + m₃, by ac_rfl, hvalid', m₁', m₂, m₃, rfl, Q₁, Q₂, hleft', hright, hnext⟩
  | right _ ih =>
    rintro Q m s f ⟨m₁, m₂, m₃, rfl, Q₁, Q₂, hleft, hright, hnext⟩ heq hvalid
    obtain ⟨m₂', rfl, hvalid', hright'⟩ := ih hright
      (show _ = m₂ + (s + m₃) + (m₁ + f) by rw [heq]; ac_rfl) hvalid
    exact ⟨m₁ + m₂' + m₃, by ac_rfl, hvalid', m₁, m₂', m₃, rfl, Q₁, Q₂, hleft, hright', hnext⟩
  | join =>
    rintro Q m s f ⟨m₁, m₂, m₃, rfl, Q₁, Q₂, hleft, hright, hnext⟩ rfl hvalid
    exact ⟨_, rfl, hvalid, hnext m₁ hleft m₂ hright⟩

/-- A program on its piece has returned or can take a step. -/
theorem exists_step_of_mem_wp {p : Prog F V α} {Q : α → Assertion F V} {m s : Memory F V}
    (h : m ∈ p.wp s Q) (f : Memory F V) :
    (∃ p' M', Step p (m + s + f) p' M') ∨ ∃ a, p = ret a := by
  induction p generalizing m s f with
  | ret a => exact .inr ⟨a, rfl⟩
  | fault => exact absurd h (Set.notMem_empty _)
  | read l next _ =>
    obtain ⟨v, hv, -⟩ := h
    exact .inl ⟨_, _, .read (Multiset.mem_add.2 (.inl hv))⟩
  | write l v next _ =>
    obtain ⟨w, m', rfl, -⟩ := h
    rw [Multiset.cons_add, Multiset.cons_add]
    exact .inl ⟨_, _, .write⟩
  | alloc cells next _ =>
    obtain ⟨b, hb⟩ := exists_unused (m + s + f)
    exact .inl ⟨_, _, .alloc hb⟩
  | free l next _ =>
    obtain ⟨w, m', rfl, -⟩ := h
    rw [Multiset.cons_add, Multiset.cons_add]
    exact .inl ⟨_, _, .free⟩
  | par left right next ihl ihr _ =>
    obtain ⟨m₁, m₂, m₃, rfl, Q₁, Q₂, hleft, hright, -⟩ := h
    left
    have heq₁ : m₁ + m₂ + m₃ + s + f = m₁ + (s + m₃) + (m₂ + f) := by ac_rfl
    have heq₂ : m₁ + m₂ + m₃ + s + f = m₂ + (s + m₃) + (m₁ + f) := by ac_rfl
    rcases ihl hleft (m₂ + f) with ⟨p', M', hstep⟩ | ⟨u, rfl⟩
    · exact ⟨_, _, .left (heq₁ ▸ hstep)⟩
    rcases ihr hright (m₁ + f) with ⟨q', M', hstep⟩ | ⟨v, rfl⟩
    · exact ⟨_, _, .right (heq₂ ▸ hstep)⟩
    exact ⟨_, _, .join⟩

/-- One step of a program on its piece. -/
theorem mem_wp_of_step {c c' : Config F V α} {Q : α → Assertion F V} (hstep : c.Step c')
    (h : Valid c.2 ∧ c.2 ∈ c.1.wp 0 Q) : Valid c'.2 ∧ c'.2 ∈ c'.1.wp 0 Q := by
  obtain ⟨m', heq, hvalid', hwp⟩ := exists_of_step hstep h.2 (f := 0) (by simp) h.1
  rw [add_zero, add_zero] at heq
  exact ⟨hvalid', heq ▸ hwp⟩

/-- A program that can run on a memory has an outcome. -/
theorem exists_of_mem_wp {p : Prog F V α} {Q : α → Assertion F V} {m : Memory F V}
    (hvalid : Valid m) (h : m ∈ p.wp 0 Q) : ∃ a m', Valid m' ∧ m' ∈ Q a := by
  have hend : ∀ c : Config F V α, Acc (fun c' c : Config F V α ↦ c.Step c') c →
      Valid c.2 ∧ c.2 ∈ c.1.wp 0 Q → ∃ a m', Valid m' ∧ m' ∈ Q a := by
    intro c hacc
    induction hacc with
    | intro c _ ih =>
      intro hc
      obtain ⟨p', M', hstep⟩ | ⟨a, heq⟩ := exists_step_of_mem_wp hc.2 0
      · rw [add_zero, add_zero] at hstep
        exact ih (p', M') hstep (mem_wp_of_step hstep hc)
      · have hpost := hc.2
        rw [heq] at hpost
        exact ⟨a, c.2, hc.1, hpost⟩
  exact hend (p, m) (acc_step p m) ⟨hvalid, h⟩

/-- **Soundness**: on a piece in `wp p 0 Q`, every interleaving of `p` ends, without a fault or a
data race, in `Q`. -/
theorem correct_of_mem_wp {p : Prog F V α} {Q : α → Assertion F V} {m : Memory F V}
    (hvalid : Valid m) (h : m ∈ p.wp 0 Q) : p.Correct m fun a m' ↦ m' ∈ Q a := by
  have hinv : ∀ c : Config F V α, Config.Steps (p, m) c → Valid c.2 ∧ c.2 ∈ c.1.wp 0 Q := by
    intro c hsteps
    induction hsteps with
    | refl => exact ⟨hvalid, h⟩
    | tail _ hstep ih => exact mem_wp_of_step hstep ih
  refine ⟨acc_step p m, fun c hsteps ↦ ?_, fun c hsteps ↦ ?_⟩
  · obtain ⟨hvalid', hwp⟩ := hinv c hsteps
    have hsafe := not_faulty_of_mem_wp (f := 0) hwp (by rwa [add_zero, add_zero])
    rwa [add_zero, add_zero] at hsafe
  · obtain ⟨-, hwp⟩ := hinv c hsteps
    rcases exists_step_of_mem_wp hwp 0 with ⟨p', M', hstep⟩ | ⟨a, heq⟩
    · rw [add_zero, add_zero] at hstep
      exact .inl ⟨(p', M'), hstep⟩
    · rw [heq] at hwp
      exact .inr ⟨a, heq, hwp⟩

/-! ### Structural rules -/

theorem wp_mono {p : Prog F V α} {Q Q' : α → Assertion F V} (h : ∀ a, Q a ⊆ Q' a)
    {s s' : Memory F V} (hs : s ≤ s') : p.wp s Q ⊆ p.wp s' Q' := by
  induction p generalizing s s' with
  | ret a => exact h a
  | fault => exact subset_rfl
  | read l next ih =>
    rintro m ⟨v, hv, hnext⟩
    exact ⟨v, Multiset.mem_of_le (add_le_add_right hs m) hv, ih v h hs hnext⟩
  | write l v next ih =>
    rintro m ⟨w, m', rfl, hnext⟩
    exact ⟨w, m', rfl, ih h hs hnext⟩
  | alloc cells next ih =>
    rintro m ⟨hcells, hnext⟩
    exact ⟨hcells, fun b ↦ ih b h hs (hnext b)⟩
  | free l next ih =>
    rintro m ⟨w, m', rfl, hnext⟩
    exact ⟨w, m', rfl, ih h hs hnext⟩
  | par left right next ihl ihr ih =>
    rintro m ⟨m₁, m₂, m₃, rfl, Q₁, Q₂, hleft, hright, hnext⟩
    exact ⟨m₁, m₂, m₃, rfl, Q₁, Q₂, ihl (fun _ ↦ subset_rfl) (add_le_add_left hs m₃) hleft,
      ihr (fun _ ↦ subset_rfl) (add_le_add_left hs m₃) hright,
      fun m₁' h₁ m₂' h₂ ↦ ih h hs (hnext m₁' h₁ m₂' h₂)⟩

/-- What is not in the piece is not changed, and a program may read it. -/
theorem wp_share {p : Prog F V α} {Q : α → Assertion F V} {m r s : Memory F V}
    (h : m ∈ p.wp (s + r) Q) : m + r ∈ p.wp s fun a ↦ Q a + {r} := by
  induction p generalizing m s with
  | ret a => exact Set.add_mem_add h rfl
  | fault => exact absurd h (Set.notMem_empty _)
  | read l next ih =>
    obtain ⟨v, hv, hnext⟩ := h
    exact ⟨v, by rwa [show m + r + s = m + (s + r) by ac_rfl], ih v hnext⟩
  | write l v next ih =>
    obtain ⟨w, m', rfl, hnext⟩ := h
    exact ⟨w, m' + r, Multiset.cons_add _ _ _, by simpa only [Multiset.cons_add] using ih hnext⟩
  | alloc cells next ih =>
    obtain ⟨hcells, hnext⟩ := h
    exact ⟨hcells, fun b ↦ by simpa only [add_assoc] using ih b (hnext b)⟩
  | free l next ih =>
    obtain ⟨w, m', rfl, hnext⟩ := h
    exact ⟨w, m' + r, Multiset.cons_add _ _ _, ih hnext⟩
  | par left right next _ _ ih =>
    obtain ⟨m₁, m₂, m₃, rfl, Q₁, Q₂, hleft, hright, hnext⟩ := h
    have heq : s + r + m₃ = s + (m₃ + r) := by ac_rfl
    exact ⟨m₁, m₂, m₃ + r, add_assoc _ _ _, Q₁, Q₂, heq ▸ hleft, heq ▸ hright,
      fun m₁' h₁ m₂' h₂ ↦ by simpa only [add_assoc] using ih (hnext m₁' h₁ m₂' h₂)⟩

theorem wp_bind (p : Prog F V α) (f : α → Prog F V β) (s : Memory F V) (Q : β → Assertion F V) :
    (p >>= f).wp s Q = p.wp s fun a ↦ (f a).wp s Q := by
  show (p.bind f).wp s Q = _
  induction p with
  | ret a => rfl
  | fault => rfl
  | read l next ih => simp only [bind, wp, ih]
  | write l v next ih => simp only [bind, wp, ih]
  | alloc cells next ih => simp only [bind, wp, ih]
  | free l next ih => simp only [bind, wp, ih]
  | par left right next _ _ ih => simp only [bind, wp, ih]

end Prog

open Prog

/-- On every piece in `P`, the program runs and ends in `Q`, and `s` is enough to be shared. -/
def Spec (s : Memory F V) (P : Assertion F V) (p : Prog F V α) (Q : α → Assertion F V) : Prop :=
  P ⊆ p.wp s Q

/-- On `P`, the program returns `a` and leaves `P'`. -/
abbrev Gives (s : Memory F V) (P : Assertion F V) (p : Prog F V α) (a : α) (P' : Assertion F V) :
    Prop :=
  Spec s P p fun a' ↦ {m | a' = a ∧ m ∈ P'}

section Rules

variable {s : Memory F V} {P P' R : Assertion F V} {p : Prog F V α} {f : α → Prog F V β} {a : α}
  {Q Q' : α → Assertion F V} {Q₂ : β → Assertion F V}

theorem Spec.ret (h : P ⊆ Q a) : Spec s P (pure a) Q :=
  h

theorem Gives.ret : Gives s P (pure a : Prog F V α) a P :=
  fun _ hm ↦ ⟨rfl, hm⟩

theorem Spec.weaken (h : Spec s P p Q) (hQ : ∀ a, Q a ⊆ Q' a) : Spec s P p Q' :=
  h.trans (wp_mono hQ le_rfl)

theorem Spec.strengthen (h : Spec s P p Q) (hP : P' ⊆ P) : Spec s P' p Q :=
  hP.trans h

/-- More may be shared. -/
theorem Spec.mono {s' : Memory F V} (h : Spec s P p Q) (hs : s ≤ s') : Spec s' P p Q :=
  h.trans (wp_mono (fun _ ↦ subset_rfl) hs)

/-- A part of the piece that is only read. -/
theorem Spec.share (h : ∀ r ∈ R, Spec (s + r) P p Q) : Spec s (P + R) p fun a ↦ Q a + R := by
  rintro _ ⟨m, hm, r, hr, rfl⟩
  exact wp_mono (fun _ ↦ Set.add_subset_add_left (Set.singleton_subset_iff.2 hr)) le_rfl
    (wp_share (h r hr hm))

theorem Gives.share (h : ∀ r ∈ R, Gives (s + r) P p a P') : Gives s (P + R) p a (P' + R) :=
  (Spec.share h).weaken fun _ ↦ by
    rintro _ ⟨m, ⟨rfl, hm⟩, r, hr, rfl⟩
    exact ⟨rfl, Set.add_mem_add hm hr⟩

/-- A program that only reads what it owns. -/
theorem Gives.readOnly (h : ∀ r ∈ R, Gives (s + r) 0 p a 0) : Gives s R p a R := by
  have hshare := Gives.share h
  rwa [zero_add] at hshare

theorem Spec.frame (h : Spec s P p Q) (R : Assertion F V) : Spec s (P + R) p fun a ↦ Q a + R :=
  .share fun _ _ ↦ h.mono (Multiset.le_add_right _ _)

/-- A program that starts from nothing may run beside any piece. -/
theorem Spec.beside (h : Spec s 0 p Q) (R : Assertion F V) : Spec s R p fun a ↦ Q a + R := by
  simpa only [zero_add] using h.frame R

theorem Gives.frame (h : Gives s P p a P') (R : Assertion F V) : Gives s (P + R) p a (P' + R) :=
  .share fun _ _ ↦ h.mono (Multiset.le_add_right _ _)

theorem Gives.frameLeft (h : Gives s P p a P') (R : Assertion F V) :
    Gives s (R + P) p a (R + P') := by
  rw [add_comm R, add_comm R]
  exact h.frame R

theorem Spec.bind (h : Spec s P p Q) (hf : ∀ a, Spec s (Q a) (f a) Q₂) :
    Spec s P (p >>= f) Q₂ := by
  rw [Spec, wp_bind]
  exact Spec.weaken h hf

/-- One command, and then the others. -/
theorem Gives.bind (h : Gives s P p a P') (hf : Spec s P' (f a) Q₂) : Spec s P (p >>= f) Q₂ :=
  Spec.bind h fun _ _ ⟨heq, hm⟩ ↦ heq ▸ hf hm

/-- One command on a part of the piece, and then the others. -/
theorem Gives.seq {P₀ : Assertion F V} (h : Gives s P p a P') (R : Assertion F V) (hP : P₀ = P + R)
    (hf : Spec s (P' + R) (f a) Q₂) : Spec s P₀ (p >>= f) Q₂ :=
  hP ▸ (h.frame R).bind hf

theorem Spec.seq {P₀ : Assertion F V} (h : Spec s P p Q) (R : Assertion F V) (hP : P₀ = P + R)
    (hf : ∀ a, Spec s (Q a + R) (f a) Q₂) : Spec s P₀ (p >>= f) Q₂ :=
  hP ▸ (h.frame R).bind hf

/-- One command that uses up a part of the piece, and then the others. -/
theorem Gives.consume {P₀ : Assertion F V} (h : Gives s P p a 0) (R : Assertion F V)
    (hP : P₀ = P + R) (hf : Spec s R (f a) Q₂) : Spec s P₀ (p >>= f) Q₂ :=
  h.seq R hP (by rwa [zero_add])

/-- One command that changes nothing, and then the others. -/
theorem Gives.andThen (h : Gives s 0 p a 0) (hf : Spec s P (f a) Q₂) : Spec s P (p >>= f) Q₂ :=
  h.consume P (zero_add P).symm hf

theorem Gives.spec (h : Gives s P p a P') (hP : P' ⊆ Q a) : Spec s P p Q :=
  h.weaken fun _ _ ⟨heq, hm⟩ ↦ heq ▸ hP hm

theorem Spec.iUnion {ι : Type} {P : ι → Assertion F V} (h : ∀ i, Spec s (P i) p Q) :
    Spec s (⋃ i, P i) p Q :=
  Set.iUnion_subset h

theorem Spec.iUnion_add {ι : Type} {P : ι → Assertion F V} (h : ∀ i, Spec s (P i + R) p Q) :
    Spec s ((⋃ i, P i) + R) p Q := by
  rw [Set.iUnion_add]
  exact Spec.iUnion h

theorem mem_pointsTo {l : Loc F} {v : V} {m : Memory F V} : m ∈ pointsTo l v ↔ m = {(l, v)} :=
  Iff.rfl

/-- An owned cell is part of the memory. -/
theorem mem_of_mem_pointsTo {l : Loc F} {v : V} {m : Memory F V} (h : m ∈ pointsTo l v)
    (hs : m ≤ s) : (l, v) ∈ s := by
  rw [mem_pointsTo.1 h] at hs
  exact Multiset.singleton_le.1 hs

theorem Gives.readAs {get : V → Option α} {l : Loc F} {v : V} (h : get v = some a) :
    Gives s (pointsTo l v) (readAs get l) a (pointsTo l v) := by
  rintro m rfl
  rw [Prog.readAs]
  refine ⟨v, Multiset.mem_add.2 (.inl (Multiset.mem_singleton_self _)), ?_⟩
  dsimp only
  rw [h]
  exact ⟨rfl, rfl⟩

/-- A shared cell is read. -/
theorem Gives.readShared {get : V → Option α} {l : Loc F} {v : V} (hl : (l, v) ∈ s)
    (h : get v = some a) : Gives s 0 (Prog.readAs get l) a 0 := by
  intro m hm
  rw [Prog.readAs]
  refine ⟨v, Multiset.mem_add.2 (.inr hl), ?_⟩
  dsimp only
  rw [h]
  exact ⟨rfl, hm⟩

theorem Gives.store {l : Loc F} {v w : V} :
    Gives s (pointsTo l w) (store l v) () (pointsTo l v) := by
  rintro m rfl
  rw [Prog.store]
  exact ⟨w, 0, rfl, rfl, rfl⟩

theorem Gives.release {l : Loc F} {w : V} : Gives s (pointsTo l w) (release l) () 0 := by
  rintro m rfl
  rw [Prog.release]
  exact ⟨w, 0, rfl, rfl, rfl⟩

/-- The cells of a block. -/
theorem block_mem_sum (b : ℕ) (cells : List (F × V)) :
    block b cells ∈ (cells.map fun c ↦ pointsTo (b, c.1) c.2).sum := by
  induction cells with
  | nil => exact rfl
  | cons c cells ih =>
    have hcons : block b (c :: cells) = {((b, c.1), c.2)} + block b cells :=
      (rfl : _ = ((b, c.1), c.2) ::ₘ block b cells).trans (Multiset.singleton_add _ _).symm
    rw [List.map_cons, List.sum_cons, hcons]
    exact Set.add_mem_add (Set.mem_singleton _) ih

theorem Spec.new {cells : List (F × V)} (h : (cells.map Prod.fst).Nodup) :
    Spec s 0 (Prog.new cells) fun b ↦ (cells.map fun c ↦ pointsTo (b, c.1) c.2).sum := by
  rintro m rfl
  rw [Prog.new]
  refine ⟨h, fun b ↦ ?_⟩
  rw [add_zero]
  exact block_mem_sum b cells

theorem Gives.fork {p q : Prog F V Unit} {P₁ P₂ Q₁ Q₂ : Assertion F V}
    (hp : Gives s P₁ p () Q₁) (hq : Gives s P₂ q () Q₂) :
    Gives s (P₁ + P₂) (Prog.fork p q) () (Q₁ + Q₂) := by
  rintro _ ⟨m₁, h₁, m₂, h₂, rfl⟩
  rw [Prog.fork]
  refine ⟨m₁, m₂, 0, (add_zero _).symm, Q₁, Q₂, ?_, ?_, fun m₁' h₁' m₂' h₂' ↦ ⟨rfl, ?_⟩⟩
  · rw [add_zero]
    exact wp_mono (fun _ _ h ↦ h.2) le_rfl (hp h₁)
  · rw [add_zero]
    exact wp_mono (fun _ _ h ↦ h.2) le_rfl (hq h₂)
  · rw [add_zero]
    exact Set.add_mem_add h₁' h₂'

/-- **The rule for parallel loops**: the iterations have their own pieces. -/
theorem Gives.parallel {body : ℕ → Prog F V Unit} {P Q : ℕ → Assertion F V} {n : ℕ} :
    ∀ {lo : ℕ}, (∀ i, lo ≤ i → i < lo + n → Gives s (P i) (body i) () (Q i)) →
      Gives s (∑ i ∈ Finset.Ico lo (lo + n), P i) (parallel body lo n) ()
        (∑ i ∈ Finset.Ico lo (lo + n), Q i) := by
  induction n with
  | zero =>
    intro lo _
    rw [Nat.add_zero, Finset.Ico_self, Prog.parallel_zero]
    exact Gives.ret
  | succ n ih =>
    intro lo h
    have hlt : lo < lo + (n + 1) := by omega
    rw [Finset.sum_eq_sum_Ico_succ_bot hlt, Finset.sum_eq_sum_Ico_succ_bot hlt,
      Prog.parallel_succ, show lo + (n + 1) = lo + 1 + n by omega]
    exact Gives.fork (h lo le_rfl hlt) (ih fun i hlo hhi ↦ h i (by omega) (by omega))

/-- Threads that only read what they share. -/
theorem Gives.parallelShared {body : ℕ → Prog F V Unit} {lo n : ℕ}
    (h : ∀ i, lo ≤ i → i < lo + n → Gives s 0 (body i) () 0) :
    Gives s 0 (Prog.parallel body lo n) () 0 := by
  simpa only [Finset.sum_const_zero] using Gives.parallel (P := fun _ ↦ 0) (Q := fun _ ↦ 0) h

/-- A parallel loop whose iterations only work on some of the pieces of a family, each on one of its
own. -/
theorem Gives.parallel_image {ι : Type} [DecidableEq ι] {body : ℕ → Prog F V Unit}
    {P Q : ι → Assertion F V} {lo n : ℕ} {D : Finset ι} (g : ℕ → ι)
    (hg : Set.InjOn g (Finset.Ico lo (lo + n)))
    (h : ∀ i, lo ≤ i → i < lo + n → g i ∈ D ∧ Gives s (P (g i)) (body i) () (Q (g i)))
    (hrest : ∀ x ∈ D, x ∉ (Finset.Ico lo (lo + n)).image g → P x = Q x) :
    Gives s (∑ x ∈ D, P x) (Prog.parallel body lo n) () (∑ x ∈ D, Q x) := by
  have hsub : (Finset.Ico lo (lo + n)).image g ⊆ D := by
    refine Finset.image_subset_iff.2 fun i hi ↦ ?_
    obtain ⟨hlo, hhi⟩ := Finset.mem_Ico.1 hi
    exact (h i hlo hhi).1
  have hsplit : ∀ R : ι → Assertion F V, ∑ x ∈ D, R x =
      ∑ i ∈ Finset.Ico lo (lo + n), R (g i) +
        ∑ x ∈ D \ (Finset.Ico lo (lo + n)).image g, R x := fun R ↦ by
    rw [← Finset.sum_sdiff hsub, Finset.sum_image hg, add_comm]
  have hsame : ∑ x ∈ D \ (Finset.Ico lo (lo + n)).image g, P x =
      ∑ x ∈ D \ (Finset.Ico lo (lo + n)).image g, Q x :=
    Finset.sum_congr rfl fun x hx ↦
      hrest x (Finset.mem_sdiff.1 hx).1 (Finset.mem_sdiff.1 hx).2
  rw [hsplit P, hsplit Q, hsame]
  exact (Gives.parallel fun i hlo hhi ↦ (h i hlo hhi).2).frame _

/-- Each of the pieces of a family is a part of all of them. -/
theorem exists_le_of_mem_sum {ι : Type} [DecidableEq ι] {P : ι → Assertion F V} {D : Finset ι}
    {m : Memory F V} (h : m ∈ ∑ x ∈ D, P x) {x : ι} (hx : x ∈ D) : ∃ r ∈ P x, r ≤ m := by
  rw [← Finset.add_sum_erase D P hx] at h
  obtain ⟨r, hr, r', -, rfl⟩ := h
  exact ⟨r, hr, Multiset.le_add_right _ _⟩

/-- Pieces of a family that each fit to some value fit to a family of values. -/
theorem exists_of_mem_sum_iUnion {ι κ : Type} [DecidableEq ι] [Inhabited κ]
    {P : ι → κ → Assertion F V} {D : Finset ι} {m : Memory F V}
    (h : m ∈ ∑ x ∈ D, ⋃ y, P x y) : ∃ f : ι → κ, m ∈ ∑ x ∈ D, P x (f x) := by
  induction D using Finset.induction generalizing m with
  | empty => exact ⟨fun _ ↦ default, h⟩
  | insert x D hx ih =>
    rw [Finset.sum_insert hx] at h
    obtain ⟨m₁, h₁, m₂, h₂, rfl⟩ := h
    obtain ⟨y, hy⟩ := Set.mem_iUnion.1 h₁
    obtain ⟨f, hf⟩ := ih h₂
    refine ⟨Function.update f x y, ?_⟩
    have hsame : ∑ z ∈ D, P z (Function.update f x y z) = ∑ z ∈ D, P z (f z) :=
      Finset.sum_congr rfl fun z hz ↦ by
        rw [Function.update_of_ne fun heq : z = x ↦ hx (heq ▸ hz)]
    rw [Finset.sum_insert hx, Function.update_self, hsame]
    exact Set.add_mem_add hy hf

/-- The rule for sequential loops: the state and the piece before every iteration. -/
theorem Gives.iterate {S : Type} {body : ℕ → S → Prog F V S} (x : ℕ → S) (P : ℕ → Assertion F V)
    {n : ℕ} : ∀ {lo : ℕ},
      (∀ i, lo ≤ i → i < lo + n → Gives s (P i) (body i (x i)) (x (i + 1)) (P (i + 1))) →
      Gives s (P lo) (Prog.iterate body lo n (x lo)) (x (lo + n)) (P (lo + n)) := by
  induction n with
  | zero =>
    intro lo _
    rw [Prog.iterate_zero]
    exact Gives.ret
  | succ n ih =>
    intro lo h
    rw [Prog.iterate_succ]
    refine (h lo le_rfl (by omega)).bind ?_
    rw [show lo + (n + 1) = lo + 1 + n by omega]
    exact ih fun i hlo hhi ↦ h i (by omega) (by omega)

/-- The rule for sequential loops whose iterations have their own pieces. -/
theorem Gives.iterateEach {body : ℕ → Unit → Prog F V Unit} {P Q : ℕ → Assertion F V} {n : ℕ} :
    ∀ {lo : ℕ}, (∀ i, lo ≤ i → i < lo + n → Gives s (P i) (body i ()) () (Q i)) →
      Gives s (∑ i ∈ Finset.Ico lo (lo + n), P i) (Prog.iterate body lo n ()) ()
        (∑ i ∈ Finset.Ico lo (lo + n), Q i) := by
  induction n with
  | zero =>
    intro lo _
    rw [Nat.add_zero, Finset.Ico_self, Prog.iterate_zero]
    exact Gives.ret
  | succ n ih =>
    intro lo h
    have hlt : lo < lo + (n + 1) := by omega
    rw [Finset.sum_eq_sum_Ico_succ_bot hlt, Finset.sum_eq_sum_Ico_succ_bot hlt,
      Prog.iterate_succ, show lo + (n + 1) = lo + 1 + n by omega]
    refine (h lo le_rfl hlt).seq _ rfl ?_
    exact (ih fun i hlo hhi ↦ h i (by omega) (by omega)).frameLeft _

/-- A program that can run on a piece runs in every memory that consists of the piece and a rest,
which it does not change. -/
theorem Spec.correct (h : Spec 0 P p Q) {m r : Memory F V} (hm : m ∈ P) (hvalid : Valid (m + r)) :
    p.Correct (m + r) fun a m' ↦ ∃ m₀ ∈ Q a, m' = m₀ + r := by
  have hframe := h.frame {r} (Set.add_mem_add hm (Set.mem_singleton r))
  obtain ⟨hterm, hsafe, hret⟩ := correct_of_mem_wp hvalid hframe
  refine ⟨hterm, hsafe, fun c hc ↦ (hret c hc).imp_right ?_⟩
  rintro ⟨a, heq, m₀, hm₀, r', rfl, hsum⟩
  exact ⟨a, heq, m₀, hm₀, hsum.symm⟩

end Rules
