import Pbist.Library.Checked

/-!
# Runs of a checked machine

A machine takes operations one after the other; `step n s op` is what operation number `n` does in
the state `s`. To reason about its runs one says what a step does without faults (`next`), what it
does on an abstract state (`spec`), and which relation between the two kinds of state it keeps.
`Refines` collects this for one step; `Refines.runFrom_eq` is the consequence for whole runs.

The two rules are independent of each other: the first is about the operations that are valid, the
second about the first one that is not. Together they decide which runs return.
-/

namespace Machine

variable {S X O : Type}

/-- Operation number `n` and the following ones. -/
def runFrom (step : ℕ → S → O → Checked S) : ℕ → S → List O → Checked S
  | _, s, [] => .ok s
  | n, s, op :: ops => do
    let s ← step n s op
    runFrom step (n + 1) s ops

/-- In related states, a step on a valid operation has no fault, does what `next` says and keeps the
relation, while the abstract state moves by `spec`. -/
structure Refines (step : ℕ → S → O → Checked S) (next : S → O → S) (spec : X → O → X)
    (valid : O → Prop) (R : S → X → Prop) : Prop where
  step_eq : ∀ {n s x op}, R s x → valid op → step n s op = .ok (next s op)
  related : ∀ {s x op}, R s x → valid op → R (next s op) (spec x op)

/-- **The rule for runs**: a run from related states has no fault and ends in related states. -/
theorem Refines.runFrom_eq {step : ℕ → S → O → Checked S} {next : S → O → S} {spec : X → O → X}
    {valid : O → Prop} {R : S → X → Prop} (h : Refines step next spec valid R) :
    ∀ {ops : List O} {n : ℕ} {s : S} {x : X}, R s x → (∀ op ∈ ops, valid op) →
      runFrom step n s ops = .ok (ops.foldl next s) ∧ R (ops.foldl next s) (ops.foldl spec x) := by
  intro ops
  induction ops with
  | nil => exact fun hR _ ↦ ⟨rfl, hR⟩
  | cons op ops ih =>
    intro n s x hR hvalid
    have hop := hvalid op List.mem_cons_self
    rw [runFrom, h.step_eq hR hop, Checked.ok_bind]
    exact ih (h.related hR hop) fun op' hop' ↦ hvalid op' (List.mem_cons_of_mem _ hop')

end Machine
