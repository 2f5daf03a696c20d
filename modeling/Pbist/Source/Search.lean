import Pbist.Library.Checked
import Mathlib.Data.Int.ConditionallyCompleteOrder
import Mathlib.Data.Rat.Floor
import Mathlib.Order.Basic

/-!
# Searching a sorted array (`search.h`)

Binary search and interpolation search, as the code computes them. Array accesses, assertions and
the conversion of a double to an index are checked; loops run on fuel that the proofs show to be
enough.

The code is a template in the key type `T`. What it asks of `T` besides an order is collected in
`Arith`: the conversion to `double`, the subtraction of `T` (which for `int32_t` can overflow), the
rounding of `double` operations, and what an arithmetic operation does when it leaves its type.
Doubles are rationals; with `round := id` they are exact.

## How the code is read

* A loop is a function on fuel that returns what the variables of the loop hold at its end: `bisect`
  for `do_binary_search`, `gallopUp` and `gallopDown` for the two loops of `find_borders`. The fuel
  is the number of tests of the loop condition, so to run out of it is a loop that does not end.
* The sums and shifts of `find_borders` are on `uint64_t` and may wrap around; `Overflow` says
  whether they do, or whether that is a fault. A result that holds for both says that they do not
  wrap.
* `max - min` is a subtraction of `T`, before the conversion to `double`. This is the one place in
  which the key type matters besides its order.
-/

namespace Pbist

open Checked

/-- What an operation on a fixed-width type does with a result outside the type: it wraps around
(two's complement), or the run stops there (undefined behaviour, or a run instrumented to catch
wrapping). -/
inductive Overflow
  | wrapping
  | trapping
  deriving DecidableEq, Repr

namespace Overflow

/-- The `uint64_t` sum `a + b`. -/
def add64 (ov : Overflow) (a b : ℕ) : Checked ℕ :=
  if a + b < 2 ^ 64 then .ok (a + b)
  else match ov with
    | wrapping => .ok ((a + b) % 2 ^ 64)
    | trapping => .error .overflow

/-- The `uint64_t` shift `a << 1`. -/
def shl64 (ov : Overflow) (a : ℕ) : Checked ℕ :=
  if 2 * a < 2 ^ 64 then .ok (2 * a)
  else match ov with
    | wrapping => .ok ((2 * a) % 2 ^ 64)
    | trapping => .error .overflow

theorem add64_of_lt (ov : Overflow) {a b : ℕ} (h : a + b < 2 ^ 64) : ov.add64 a b = .ok (a + b) :=
  if_pos h

theorem shl64_of_lt (ov : Overflow) {a : ℕ} (h : 2 * a < 2 ^ 64) : ov.shl64 a = .ok (2 * a) :=
  if_pos h

end Overflow

/-- The arithmetic that the template uses besides comparisons. -/
structure Arith (T : Type) where
  /-- `static_cast<double>(key)`. -/
  toDouble : T → ℚ
  /-- `a - b` in the arithmetic of `T`, then converted to `double`. -/
  minus : T → T → Checked ℚ
  /-- The rounding of the result of an operation on doubles. -/
  round : ℚ → ℚ
  /-- What happens when an arithmetic operation leaves its type. -/
  overflow : Overflow

/-! ### The key type `int32_t` -/

/-- The values of `int32_t`. -/
abbrev I32 := {z : ℤ // -2 ^ 31 ≤ z ∧ z < 2 ^ 31}

/-- `a - b` for two values of `int32_t`, converted to `double`. -/
def I32.minus (ov : Overflow) (a b : I32) : Checked ℚ :=
  if -2 ^ 31 ≤ a.1 - b.1 ∧ a.1 - b.1 < 2 ^ 31 then .ok ((a.1 - b.1 : ℤ) : ℚ)
  else match ov with
    | .wrapping => .ok ((Int.bmod (a.1 - b.1) (2 ^ 32) : ℤ) : ℚ)
    | .trapping => .error .overflow

/-- `int32_t` keys and exact doubles. -/
def int32 (ov : Overflow) : Arith I32 where
  toDouble k := (k.1 : ℚ)
  minus := I32.minus ov
  round := id
  overflow := ov

/-- `static_cast<uint64_t>(q)`: truncation, undefined when the truncated value is not a
`uint64_t`. -/
def toU64 (q : ℚ) : Checked ℕ :=
  if -1 < q ∧ q < 2 ^ 64 then .ok ⌊q⌋.toNat else .error .badCast

variable {T : Type} [LinearOrder T]

/-! ### Binary search -/

/-- The loop of `do_binary_search`: it returns the final `cur_left` and `cur_right`. -/
def bisect (keys : List T) (searchKey : T) : ℕ → ℕ → ℕ → Checked (ℕ × ℕ)
  | 0, _, _ => .error .outOfFuel
  | fuel + 1, curLeft, curRight =>
    if curLeft + 1 < curRight then do
      require ((← get keys curLeft) < searchKey)
      require (searchKey ≤ (← get keys curRight))
      let width ← subtract curRight curLeft
      let curMid := curLeft + width / 2
      if (← get keys curMid) < searchKey then bisect keys searchKey fuel curMid curRight
      else bisect keys searchKey fuel curLeft curMid
    else .ok (curLeft, curRight)

/-- `do_binary_search`. -/
def doBinarySearch (keys : List T) (searchKey : T) (leftBorder rightBorder : ℕ) :
    Checked (ℕ × Bool) := do
  require (leftBorder < rightBorder ∧ rightBorder < keys.length)
  let (curLeft, curRight) ←
    bisect keys searchKey (rightBorder - leftBorder) leftBorder rightBorder
  require ((← get keys curLeft) < searchKey)
  require (searchKey ≤ (← get keys curRight))
  if searchKey = (← get keys curRight) then pure (curRight, true) else pure (curRight, false)

/-- `binary_search`. -/
def binarySearch (keys : List T) (searchKey : T) : Checked (ℕ × Bool) := do
  require (1 ≤ keys.length)
  let first ← get keys 0
  if searchKey = first then pure (0, true)
  else if searchKey < first then pure (0, false)
  else
    let lastIdx ← subtract keys.length 1
    if (← get keys lastIdx) < searchKey then pure (keys.length, false)
    else do
      require (1 < keys.length)
      doBinarySearch keys searchKey 0 lastIdx

/-! ### Interpolation search -/

/-- The loop of `find_borders` that gallops up: it returns the final `left_border` and `delta`.
`delta` starts at 1 and doubles in 64 bits, so after 64 rounds it is 0 and the loop would run
forever; running out of fuel stands for that. -/
def gallopUp (ov : Overflow) (keys : List T) (searchKey : T) (initialGuess : ℕ) :
    ℕ → ℕ → ℕ → Checked (ℕ × ℕ)
  | 0, _, _ => .error .outOfFuel
  | fuel + 1, leftBorder, delta => do
    let probe ← ov.add64 initialGuess delta
    if probe < keys.length then
      if (← get keys probe) < searchKey then
        let delta ← ov.shl64 delta
        gallopUp ov keys searchKey initialGuess fuel probe delta
      else pure (leftBorder, delta)
    else pure (leftBorder, delta)

/-- The loop of `find_borders` that gallops down: it returns the final `right_border` and
`delta`. -/
def gallopDown (ov : Overflow) (keys : List T) (searchKey : T) (initialGuess : ℕ) :
    ℕ → ℕ → ℕ → Checked (ℕ × ℕ)
  | 0, _, _ => .error .outOfFuel
  | fuel + 1, rightBorder, delta => do
    if delta ≤ initialGuess then
      let probe ← subtract initialGuess delta
      if searchKey ≤ (← get keys probe) then
        let delta ← ov.shl64 delta
        gallopDown ov keys searchKey initialGuess fuel probe delta
      else pure (rightBorder, delta)
    else pure (rightBorder, delta)

/-- `find_borders`. -/
def findBorders (ov : Overflow) (keys : List T) (searchKey : T) (initialGuess : ℕ) :
    Checked (ℕ × ℕ) := do
  require (initialGuess < keys.length)
  require (1 < keys.length)
  if (← get keys initialGuess) < searchKey then
    require (initialGuess + 1 < keys.length)
    let (leftBorder, delta) ← gallopUp ov keys searchKey initialGuess 64 initialGuess 1
    let probe ← ov.add64 initialGuess delta
    if probe < keys.length then pure (leftBorder, probe)
    else pure (leftBorder, ← subtract keys.length 1)
  else do
    require (1 ≤ initialGuess)
    let (rightBorder, delta) ← gallopDown ov keys searchKey initialGuess 64 initialGuess 1
    if delta ≤ initialGuess then pure (← subtract initialGuess delta, rightBorder)
    else pure (0, rightBorder)

/-- The initial guess of `interpolation_search`: the entry of `id` that belongs to the position of
`search_key` between the first and the last key. -/
def lookupGuess (A : Arith T) (keys : List T) (searchKey : T) (id : List ℕ) : Checked ℕ := do
  let min ← get keys 0
  let max ← get keys (← subtract keys.length 1)
  let width ← A.minus max min
  let frac := A.round (A.round (A.toDouble searchKey - A.toDouble min) / width)
  require (0 < frac ∧ frac < 1)
  let idIdx ← toU64 (A.round (frac * A.round (id.length : ℚ)))
  require (idIdx < id.length)
  get id idIdx

/-- `interpolation_search`. -/
def interpolationSearch (A : Arith T) (keys : List T) (searchKey : T) (id : List ℕ) :
    Checked (ℕ × Bool) := do
  require (1 ≤ keys.length)
  let first ← get keys 0
  if searchKey = first then pure (0, true)
  else if searchKey < first then pure (0, false)
  else
    let lastIdx ← subtract keys.length 1
    let last ← get keys lastIdx
    if last < searchKey then pure (keys.length, false)
    else if searchKey = last then pure (lastIdx, true)
    else do
      require (1 < keys.length)
      let guess ← lookupGuess A keys searchKey id
      let (leftBorder, rightBorder) ← findBorders A.overflow keys searchKey guess
      doBinarySearch keys searchKey leftBorder rightBorder

end Pbist
