import Mathlib.Data.Int.Log
import Mathlib.Data.Nat.Sqrt
import Mathlib.Data.Rat.Floor
import Mathlib.Algebra.Order.Field.Rat
import Mathlib.Data.Rat.Cast.Order
import Mathlib.Tactic.Linarith
import Mathlib.Tactic.FieldSimp
import Mathlib.Tactic.Positivity

/-!
# Rounding to a binary floating-point format

The numbers of a format with `p` bits are the `n * 2 ^ e` with `|n| ≤ 2 ^ p`. Exponents are not
bounded, so nothing overflows or underflows. Of a rounding we ask what the standard roundings have
in common: it is monotone and does not change the numbers of the format. That alone bounds the
result of an operation by every number of the format that bounds the exact result, and so some
results cannot be reached by rounding: a product with a proper fraction stays below the other factor
(`Rounding.mul_lt`), a product with a smaller integer is not rounded over the product with the
larger one (`Rounding.mul_le_mul`), and the square root of an integer rounds down to its integer
square root (`SqrtRounding.floor_eq`).

`roundNearest` and `sqrtNearest` are such roundings, to the nearest number of the format, and can be
computed.

## What the results need of the number of bits

`mul_lt` needs more bits than the fraction has before its complement vanishes, and `mul_le_mul` one
bit more than the integers. `SqrtRounding.floor_eq` needs twice the bits of the root, since the
square of a root that was rounded up has to be told from the next square. For `int32_t` keys there
are at most `2 ^ 32` of them, so 53 bits are enough for all three.
-/

/-- The numbers of a binary format with `p` bits. -/
def Representable (p : ℕ) (x : ℚ) : Prop :=
  ∃ n e : ℤ, |n| ≤ 2 ^ p ∧ x = n * 2 ^ e

/-- A rounding of exact results to the format. -/
structure Rounding (p : ℕ) (round : ℚ → ℚ) : Prop where
  mono : Monotone round
  eq_self : ∀ x, Representable p x → round x = x

/-- A square root, rounded to the format: a number of the format lies on the same side of it as of
the exact root. -/
structure SqrtRounding (p : ℕ) (sqrt : ℚ → ℚ) : Prop where
  le_sqrt : ∀ x y, Representable p x → 0 ≤ x → x * x ≤ y → x ≤ sqrt y
  sqrt_le : ∀ x y, Representable p x → 0 ≤ x → y ≤ x * x → sqrt y ≤ x

/-! ### Numbers of the format -/

namespace Representable

variable {p : ℕ} {x : ℚ}

theorem int {n : ℤ} (h : |n| ≤ 2 ^ p) : Representable p n :=
  ⟨n, 0, h, by simp⟩

theorem nat {n : ℕ} (h : n ≤ 2 ^ p) : Representable p n :=
  int (n := n) (by
    rw [abs_of_nonneg (Int.natCast_nonneg n)]
    exact_mod_cast h)

theorem zero : Representable p 0 :=
  int (n := 0) (by simp)

theorem zpow (e : ℤ) : Representable p (2 ^ e) :=
  ⟨1, e, by simpa using one_le_pow₀ (a := (2 : ℤ)) (by decide), by simp⟩

theorem neg (h : Representable p x) : Representable p (-x) := by
  obtain ⟨n, e, hn, rfl⟩ := h
  exact ⟨-n, e, by rwa [abs_neg], by push_cast; ring⟩

/-- The numbers of the format from `2 ^ L` on are integer multiples of one of its numbers. -/
theorem exists_mul (hp : 1 ≤ p) (h : Representable p x) {L : ℤ} (hL : 2 ^ L ≤ x) :
    ∃ k : ℤ, x = k * 2 ^ (L + 1 - p) := by
  obtain ⟨n, e, hn, rfl⟩ := h
  have hpow : (0 : ℚ) < 2 ^ e := zpow_pos two_pos e
  have hle : (n : ℚ) ≤ 2 ^ p := by exact_mod_cast (le_abs_self n).trans hn
  have hupper : (n : ℚ) * 2 ^ e ≤ 2 ^ (p + e : ℤ) := by
    rw [zpow_add₀ two_ne_zero, zpow_natCast]
    exact mul_le_mul_of_nonneg_right hle hpow.le
  have hexp : L ≤ p + e := (zpow_le_zpow_iff_right₀ one_lt_two).1 (hL.trans hupper)
  rcases hexp.lt_or_eq with hlt | heq
  · refine ⟨n * 2 ^ (e - (L + 1 - p)).toNat, ?_⟩
    have hsum : e = ((e - (L + 1 - p)).toNat : ℤ) + (L + 1 - p) := by omega
    push_cast
    rw [mul_assoc, ← zpow_natCast, ← zpow_add₀ two_ne_zero, ← hsum]
  · -- the number is a power of two
    refine ⟨2 ^ (p - 1), ?_⟩
    have hx : (n : ℚ) * 2 ^ e = 2 ^ L := le_antisymm (heq ▸ hupper) hL
    have hsum : L = ((p - 1 : ℕ) : ℤ) + (L + 1 - p) := by omega
    push_cast
    rw [hx, ← zpow_natCast, ← zpow_add₀ two_ne_zero, ← hsum]

end Representable

/-! ### What every rounding has -/

namespace Rounding

variable {p : ℕ} {round : ℚ → ℚ} (h : Rounding p round)

include h

theorem le_round {x y : ℚ} (hx : Representable p x) (hxy : x ≤ y) : x ≤ round y :=
  (h.eq_self x hx).ge.trans (h.mono hxy)

theorem round_le {x y : ℚ} (hx : Representable p x) (hyx : y ≤ x) : round y ≤ x :=
  (h.mono hyx).trans (h.eq_self x hx).le

theorem round_nonneg {x : ℚ} (hx : 0 ≤ x) : 0 ≤ round x :=
  h.le_round .zero hx

/-- Nothing underflows. -/
theorem round_pos {x : ℚ} (hx : 0 < x) : 0 < round x :=
  (zpow_pos two_pos (Int.log 2 x)).trans_le
    (h.le_round (.zpow _) (Int.zpow_log_le_self one_lt_two hx))

/-- A fraction with a small denominator is not rounded up to 1. -/
theorem round_le_one_sub {q : ℚ} {b : ℕ} (hb : b ≤ p) (hq : q ≤ 1 - 1 / 2 ^ b) :
    round q ≤ 1 - 1 / 2 ^ b := by
  refine h.round_le ⟨2 ^ b - 1, -b, ?_, ?_⟩ hq
  · have hpow : (2 : ℤ) ^ b ≤ 2 ^ p := pow_le_pow_right₀ (by decide) hb
    have hone : (1 : ℤ) ≤ 2 ^ b := one_le_pow₀ (by decide)
    rw [abs_of_nonneg (by omega)]
    omega
  · rw [zpow_neg, zpow_natCast]
    push_cast
    field_simp

/-- A product with a proper fraction stays below the other factor. -/
theorem mul_lt {q : ℚ} {b m : ℕ} (hb : b < p) (hq : q ≤ 1 - 1 / 2 ^ b) (hm : 0 < m)
    (hm' : m ≤ 2 ^ b) : round (q * m) < m := by
  have he := Nat.pow_log_le_self 2 hm.ne'
  have he' : Nat.log 2 m ≤ b := (Nat.pow_le_pow_iff_right one_lt_two).1 (he.trans hm')
  -- the last number before `m` that a format with `b + 1` bits has
  have hx : Representable p (m - 1 / 2 ^ (b - Nat.log 2 m)) := by
    refine ⟨m * 2 ^ (b - Nat.log 2 m) - 1, -(b - Nat.log 2 m : ℕ), ?_, ?_⟩
    · have hlt : m * 2 ^ (b - Nat.log 2 m) < 2 ^ (b + 1) := by
        calc m * 2 ^ (b - Nat.log 2 m)
            < 2 ^ (Nat.log 2 m + 1) * 2 ^ (b - Nat.log 2 m) :=
              Nat.mul_lt_mul_of_pos_right (Nat.lt_pow_succ_log_self one_lt_two m) (by positivity)
          _ = 2 ^ (b + 1) := by rw [← pow_add]; congr 1; omega
      have hpow : 2 ^ (b + 1) ≤ 2 ^ p := Nat.pow_le_pow_right two_pos hb
      have hpos : 0 < m * 2 ^ (b - Nat.log 2 m) := by positivity
      zify at hlt hpow hpos
      rw [abs_of_nonneg (by omega)]
      omega
    · rw [zpow_neg, zpow_natCast]
      push_cast
      field_simp
  have hgap : q * m ≤ m - 1 / 2 ^ (b - Nat.log 2 m) := by
    have hm₀ : (0 : ℚ) ≤ m := Nat.cast_nonneg m
    have hlow : (2 : ℚ) ^ Nat.log 2 m ≤ m := by exact_mod_cast he
    have hshare : (1 : ℚ) / 2 ^ (b - Nat.log 2 m) ≤ 1 / 2 ^ b * m := by
      rw [div_mul_eq_mul_div, one_mul, div_le_div_iff₀ (by positivity) (by positivity), one_mul]
      calc (2 : ℚ) ^ b = 2 ^ Nat.log 2 m * 2 ^ (b - Nat.log 2 m) := by
            rw [← pow_add, Nat.add_sub_cancel' he']
        _ ≤ m * 2 ^ (b - Nat.log 2 m) := mul_le_mul_of_nonneg_right hlow (by positivity)
    have hmul := mul_le_mul_of_nonneg_right hq hm₀
    linarith
  have hpos : (0 : ℚ) < 1 / 2 ^ (b - Nat.log 2 m) := by positivity
  linarith [h.round_le hx hgap]

/-- A product with a smaller integer is not rounded over the product with the larger one. -/
theorem mul_le_mul {r i n : ℕ} (hi : i < n) (hn : 2 * n ≤ 2 ^ p) :
    round (r * i : ℚ) ≤ r * n := by
  rcases Nat.eq_zero_or_pos r with rfl | hr
  · simpa using h.round_le Representable.zero le_rfl
  have he := Nat.pow_log_le_self 2 hr.ne'
  have hpos : 0 < 2 ^ Nat.log 2 r := by positivity
  -- the larger product, rounded down to a multiple of a power of two that is at most `r`
  have hdiv := Nat.div_mul_le_self (r * n) (2 ^ Nat.log 2 r)
  have hmod := Nat.lt_div_mul_add (a := r * n) hpos
  have hx : Representable p ((r * n / 2 ^ Nat.log 2 r * 2 ^ Nat.log 2 r : ℕ) : ℚ) := by
    refine ⟨(r * n / 2 ^ Nat.log 2 r : ℕ), Nat.log 2 r, ?_, by push_cast; rfl⟩
    have hquot : r * n / 2 ^ Nat.log 2 r ≤ 2 ^ p := by
      refine le_trans ?_ hn
      refine Nat.div_le_of_le_mul ?_
      have hlt := Nat.lt_pow_succ_log_self one_lt_two r
      rw [pow_succ] at hlt
      calc r * n ≤ 2 ^ Nat.log 2 r * 2 * n := Nat.mul_le_mul_right n hlt.le
        _ = 2 ^ Nat.log 2 r * (2 * n) := mul_assoc _ _ _
    rw [abs_of_nonneg (Int.natCast_nonneg _)]
    exact_mod_cast hquot
  have hle : r * i ≤ r * n / 2 ^ Nat.log 2 r * 2 ^ Nat.log 2 r := by
    have hstep : r * i + r ≤ r * n := by
      rw [← Nat.mul_succ]
      exact Nat.mul_le_mul_left r hi
    omega
  calc round (r * i : ℚ) ≤ ((r * n / 2 ^ Nat.log 2 r * 2 ^ Nat.log 2 r : ℕ) : ℚ) :=
        h.round_le hx (by exact_mod_cast hle)
    _ ≤ r * n := by exact_mod_cast hdiv

end Rounding

/-- The rounded square root of an integer rounds down to the integer square root. -/
theorem SqrtRounding.floor_eq {p b n : ℕ} {sqrt : ℚ → ℚ} (h : SqrtRounding p sqrt)
    (hn : n < 2 ^ (2 * b)) (hb : 2 * b < p) : ⌊sqrt n⌋ = Nat.sqrt n := by
  have hsqrt : Nat.sqrt n + 1 ≤ 2 ^ b := by
    refine Nat.sqrt_lt.2 ?_
    rwa [← pow_add, ← two_mul]
  have hbits : 2 ^ b ≤ 2 ^ p := Nat.pow_le_pow_right two_pos (by omega)
  rw [Int.floor_eq_iff]
  constructor
  · refine h.le_sqrt _ _ (.nat (by omega)) (Nat.cast_nonneg _) ?_
    exact_mod_cast Nat.sqrt_le n
  · -- a number of the format below the next integer, which is not below the exact root
    have hx : Representable p (Nat.sqrt n + 1 - 1 / 2 ^ (b + 1)) := by
      refine ⟨(Nat.sqrt n + 1) * 2 ^ (b + 1) - 1, -(b + 1 : ℕ), ?_, ?_⟩
      · have hle : (Nat.sqrt n + 1) * 2 ^ (b + 1) ≤ 2 ^ p := by
          calc (Nat.sqrt n + 1) * 2 ^ (b + 1) ≤ 2 ^ b * 2 ^ (b + 1) :=
                Nat.mul_le_mul_right _ hsqrt
            _ = 2 ^ (2 * b + 1) := by rw [← pow_add]; congr 1; omega
            _ ≤ 2 ^ p := Nat.pow_le_pow_right two_pos hb
        have hpos : 0 < (Nat.sqrt n + 1) * 2 ^ (b + 1) := by positivity
        zify at hle hpos
        rw [abs_of_nonneg (by omega)]
        omega
      · rw [zpow_neg, zpow_natCast]
        push_cast
        field_simp
    have hpow : (0 : ℚ) < 2 ^ (b + 1) := by positivity
    have hroot : (n : ℚ) ≤
        (Nat.sqrt n + 1 - 1 / 2 ^ (b + 1)) * (Nat.sqrt n + 1 - 1 / 2 ^ (b + 1)) := by
      have hhigh : (n : ℚ) + 1 ≤ (Nat.sqrt n + 1) * (Nat.sqrt n + 1) := by
        exact_mod_cast Nat.lt_succ_sqrt n
      have hgap : 2 * ((Nat.sqrt n : ℚ) + 1) * (1 / 2 ^ (b + 1)) ≤ 1 := by
        rw [mul_one_div, div_le_one hpow, pow_succ']
        exact_mod_cast Nat.mul_le_mul_left 2 hsqrt
      nlinarith [mul_self_nonneg ((1 : ℚ) / 2 ^ (b + 1))]
    have hone : (1 : ℚ) / 2 ^ (b + 1) ≤ 1 :=
      (div_le_one hpow).2 (one_le_pow₀ one_le_two)
    have hnonneg : (0 : ℚ) ≤ Nat.sqrt n := Nat.cast_nonneg _
    have hle := h.sqrt_le _ _ hx (by linarith) hroot
    have hgap : (0 : ℚ) < 1 / 2 ^ (b + 1) := by positivity
    push_cast
    linarith

/-! ### Rounding to the nearest number -/

/-- The nearest integer; of two, the even one. -/
def nearestEven (x : ℚ) : ℤ :=
  if Int.fract x < 1 / 2 ∨ Int.fract x = 1 / 2 ∧ Even ⌊x⌋ then ⌊x⌋ else ⌊x⌋ + 1

/-- The distance of the numbers of a format with `p` bits, from `2 ^ L` on. -/
def unit (p : ℕ) (L : ℤ) : ℚ :=
  2 ^ (L + 1 - p)

/-- The rounding of a number that is not negative. -/
def roundMagnitude (p : ℕ) (x : ℚ) : ℚ :=
  nearestEven (x / unit p (Int.log 2 x)) * unit p (Int.log 2 x)

/-- The nearest number of a format with `p` bits; of two, the one with the even significand. -/
def roundNearest (p : ℕ) (x : ℚ) : ℚ :=
  if x < 0 then -roundMagnitude p (-x) else roundMagnitude p x

/-- The last number, from `2 ^ L` on, whose square is at most `y`. -/
def rootBelow (p : ℕ) (L : ℤ) (y : ℚ) : ℚ :=
  Nat.sqrt ⌊y / (unit p L * unit p L)⌋₊ * unit p L

/-- The number of a format with `p` bits that is nearest to the square root. -/
def sqrtNearest (p : ℕ) (y : ℚ) : ℚ :=
  let L := Int.log 4 y
  let q := rootBelow p L y
  if y ≤ 0 then 0
  else if (q + unit p L / 2) * (q + unit p L / 2) < y then q + unit p L
  else q

theorem floor_le_nearestEven (x : ℚ) : ⌊x⌋ ≤ nearestEven x := by
  rw [nearestEven]
  split <;> omega

theorem nearestEven_le (x : ℚ) : nearestEven x ≤ ⌊x⌋ + 1 := by
  rw [nearestEven]
  split <;> omega

theorem nearestEven_intCast (n : ℤ) : nearestEven n = n := by
  rw [nearestEven, Int.fract_intCast, if_pos (.inl (by norm_num)), Int.floor_intCast]

theorem nearestEven_mono {x y : ℚ} (hxy : x ≤ y) : nearestEven x ≤ nearestEven y := by
  rcases (Int.floor_mono hxy).lt_or_eq with hlt | heq
  · exact (nearestEven_le x).trans (le_trans hlt (floor_le_nearestEven y))
  · -- in one interval between integers the larger number has the larger fractional part
    have hfract : Int.fract x ≤ Int.fract y := by
      rw [Int.fract, Int.fract, heq]
      linarith
    by_cases hy : Int.fract y < 1 / 2 ∨ Int.fract y = 1 / 2 ∧ Even ⌊y⌋
    · have hx : Int.fract x < 1 / 2 ∨ Int.fract x = 1 / 2 ∧ Even ⌊x⌋ := by
        rcases hy with hy | ⟨hy, heven⟩
        · exact .inl (hfract.trans_lt hy)
        · exact (hfract.trans_eq hy).lt_or_eq.imp_right fun hx ↦ ⟨hx, heq ▸ heven⟩
      rw [nearestEven, nearestEven, if_pos hx, if_pos hy, heq]
    · rw [show nearestEven y = ⌊x⌋ + 1 by rw [nearestEven, if_neg hy, heq]]
      exact nearestEven_le x

section Nearest

variable {p : ℕ} (hp : 1 ≤ p)

theorem unit_pos (L : ℤ) : 0 < unit p L :=
  zpow_pos two_pos _

/-- Powers of two as multiples of the unit. -/
theorem mul_unit (L : ℤ) : ((2 ^ p : ℤ) : ℚ) * unit p L = 2 ^ (L + 1) := by
  rw [unit, Int.cast_pow, Int.cast_ofNat, ← zpow_natCast, ← zpow_add₀ two_ne_zero]
  congr 1
  omega

include hp in
theorem half_mul_unit (L : ℤ) : ((2 ^ (p - 1) : ℤ) : ℚ) * unit p L = 2 ^ L := by
  rw [unit, Int.cast_pow, Int.cast_ofNat, ← zpow_natCast, ← zpow_add₀ two_ne_zero]
  congr 1
  omega

theorem roundMagnitude_nonneg {x : ℚ} (hx : 0 ≤ x) : 0 ≤ roundMagnitude p x := by
  refine mul_nonneg ?_ (unit_pos _).le
  have hfloor : 0 ≤ ⌊x / unit p (Int.log 2 x)⌋ := Int.floor_nonneg.2 (div_nonneg hx (unit_pos _).le)
  exact_mod_cast hfloor.trans (floor_le_nearestEven _)

/-- Rounding does not leave the interval between two powers of two. -/
theorem roundMagnitude_le (x : ℚ) : roundMagnitude p x ≤ 2 ^ (Int.log 2 x + 1) := by
  have hlt : x / unit p (Int.log 2 x) ≤ ((2 ^ p : ℤ) : ℚ) := by
    rw [div_le_iff₀ (unit_pos _), mul_unit]
    exact (Int.lt_zpow_succ_log_self one_lt_two x).le
  rw [roundMagnitude, ← mul_unit (p := p)]
  refine mul_le_mul_of_nonneg_right ?_ (unit_pos _).le
  exact_mod_cast (nearestEven_mono hlt).trans (nearestEven_intCast _).le

include hp in
theorem le_roundMagnitude {x : ℚ} (hx : 0 < x) : 2 ^ Int.log 2 x ≤ roundMagnitude p x := by
  have hle : ((2 ^ (p - 1) : ℤ) : ℚ) ≤ x / unit p (Int.log 2 x) := by
    rw [le_div_iff₀ (unit_pos _), half_mul_unit hp]
    exact Int.zpow_log_le_self one_lt_two hx
  rw [roundMagnitude, ← half_mul_unit hp]
  refine mul_le_mul_of_nonneg_right ?_ (unit_pos _).le
  exact_mod_cast (nearestEven_intCast _).ge.trans (nearestEven_mono hle)

include hp in
theorem roundMagnitude_mono {x y : ℚ} (hx : 0 ≤ x) (hxy : x ≤ y) :
    roundMagnitude p x ≤ roundMagnitude p y := by
  rcases hx.eq_or_lt with rfl | hx
  · rw [roundMagnitude, zero_div, ← Int.cast_zero, nearestEven_intCast, Int.cast_zero, zero_mul]
    exact roundMagnitude_nonneg hxy
  rcases (Int.log_mono_right (b := 2) hx hxy).lt_or_eq with hlt | heq
  · calc roundMagnitude p x ≤ 2 ^ (Int.log 2 x + 1) := roundMagnitude_le x
      _ ≤ 2 ^ Int.log 2 y := zpow_le_zpow_right₀ one_le_two hlt
      _ ≤ roundMagnitude p y := le_roundMagnitude hp (hx.trans_le hxy)
  · rw [roundMagnitude, roundMagnitude, heq]
    refine mul_le_mul_of_nonneg_right ?_ (unit_pos _).le
    exact_mod_cast nearestEven_mono (div_le_div_of_nonneg_right hxy (unit_pos _).le)

include hp in
theorem roundMagnitude_eq_self {x : ℚ} (hx : 0 ≤ x) (h : Representable p x) :
    roundMagnitude p x = x := by
  rcases hx.eq_or_lt with rfl | hx
  · rw [roundMagnitude, zero_div, ← Int.cast_zero, nearestEven_intCast, Int.cast_zero, zero_mul]
  obtain ⟨k, hk⟩ := h.exists_mul hp (Int.zpow_log_le_self one_lt_two hx)
  have hdiv : x / unit p (Int.log 2 x) = k := by
    rw [div_eq_iff (unit_pos _).ne']
    exact hk
  rw [roundMagnitude, hdiv, nearestEven_intCast]
  exact hk.symm

include hp in
/-- **Rounding to nearest is a rounding.** -/
theorem rounding_roundNearest : Rounding p (roundNearest p) where
  mono x y hxy := by
    rw [roundNearest, roundNearest]
    split <;> split
    · exact neg_le_neg (roundMagnitude_mono hp (by linarith) (neg_le_neg hxy))
    · linarith [roundMagnitude_nonneg (p := p) (x := -x) (by linarith),
        roundMagnitude_nonneg (p := p) (x := y) (by linarith)]
    · linarith
    · exact roundMagnitude_mono hp (by linarith) hxy
  eq_self x h := by
    rw [roundNearest]
    split
    · rw [roundMagnitude_eq_self hp (by linarith) h.neg, neg_neg]
    · exact roundMagnitude_eq_self hp (by linarith) h

theorem rootBelow_mul_self_le {L : ℤ} {y : ℚ} (hy : 0 ≤ y) :
    rootBelow p L y * rootBelow p L y ≤ y := by
  have hsq : 0 < unit p L * unit p L := mul_pos (unit_pos L) (unit_pos L)
  have hroot : ((Nat.sqrt ⌊y / (unit p L * unit p L)⌋₊ *
      Nat.sqrt ⌊y / (unit p L * unit p L)⌋₊ : ℕ) : ℚ) ≤ y / (unit p L * unit p L) :=
    (Nat.cast_le.2 (Nat.sqrt_le _)).trans (Nat.floor_le (div_nonneg hy hsq.le))
  rw [le_div_iff₀ hsq, Nat.cast_mul] at hroot
  rw [rootBelow]
  linarith

/-- A multiple of the unit whose square is at most `y` is at most `rootBelow`. -/
theorem le_rootBelow {L k : ℤ} {y : ℚ} (hk : 0 ≤ k) (h : k * unit p L * (k * unit p L) ≤ y) :
    k * unit p L ≤ rootBelow p L y := by
  obtain ⟨n, rfl⟩ := Int.eq_ofNat_of_zero_le hk
  have hsq : 0 < unit p L * unit p L := mul_pos (unit_pos L) (unit_pos L)
  refine mul_le_mul_of_nonneg_right ?_ (unit_pos L).le
  rw [Int.cast_natCast] at h ⊢
  rw [Nat.cast_le, Nat.le_sqrt]
  refine Nat.le_floor ?_
  rw [le_div_iff₀ hsq, Nat.cast_mul]
  linarith

theorem zpow_log_mul_self_le {y : ℚ} (hy : 0 < y) :
    (2 : ℚ) ^ Int.log 4 y * 2 ^ Int.log 4 y ≤ y := by
  rw [← mul_zpow]
  exact_mod_cast Int.zpow_log_le_self (b := 4) (by decide) hy

include hp

/-- No number of the format lies between `rootBelow` and the root, -/
theorem le_rootBelow_of_representable {x y : ℚ} (hy : 0 < y) (h : Representable p x)
    (hx : 0 ≤ x) (hxy : x * x ≤ y) : x ≤ rootBelow p (Int.log 4 y) y := by
  rcases lt_or_ge x (2 ^ Int.log 4 y) with hlt | hge
  · have hroot : (2 : ℚ) ^ Int.log 4 y ≤ rootBelow p (Int.log 4 y) y := by
      have hmul := zpow_log_mul_self_le hy
      rw [← half_mul_unit hp] at hmul ⊢
      exact le_rootBelow (by positivity) hmul
    exact hlt.le.trans hroot
  · obtain ⟨k, rfl⟩ := h.exists_mul hp hge
    refine le_rootBelow ?_ hxy
    exact_mod_cast nonneg_of_mul_nonneg_left hx (unit_pos (p := p) _)

/-- and none between the root and the next multiple of the unit. -/
theorem rootBelow_add_unit_le {x y : ℚ} (hy : 0 < y) (h : Representable p x) (hx : 0 ≤ x)
    (hyx : y ≤ x * x) (hlt : rootBelow p (Int.log 4 y) y < x) :
    rootBelow p (Int.log 4 y) y + unit p (Int.log 4 y) ≤ x := by
  have hge : (2 : ℚ) ^ Int.log 4 y ≤ x :=
    nonneg_le_nonneg_of_sq_le_sq hx ((zpow_log_mul_self_le hy).trans hyx)
  obtain ⟨k, rfl⟩ := h.exists_mul hp hge
  have hlt' := lt_of_mul_lt_mul_right hlt (unit_pos (p := p) _).le
  have hsucc :
      ((Nat.sqrt ⌊y / (unit p (Int.log 4 y) * unit p (Int.log 4 y))⌋₊ : ℤ) + 1 : ℤ) ≤ k := by
    exact_mod_cast hlt'
  have hmul := mul_le_mul_of_nonneg_right (Int.cast_le.2 hsucc) (unit_pos (p := p) (Int.log 4 y)).le
  rw [rootBelow]
  push_cast at hmul
  rw [unit] at hmul ⊢
  linarith

/-- **The square root to nearest is a rounded square root.** -/
theorem sqrtRounding_sqrtNearest : SqrtRounding p (sqrtNearest p) where
  le_sqrt x y h hx hxy := by
    rw [sqrtNearest]
    have hunit := unit_pos (p := p) (Int.log 4 y)
    split
    · nlinarith
    · rename_i hy
      have hroot := le_rootBelow_of_representable hp (not_le.1 hy) h hx hxy
      split <;> linarith
  sqrt_le x y h hx hyx := by
    rw [sqrtNearest]
    have hunit := unit_pos (p := p) (Int.log 4 y)
    split
    · exact hx
    rename_i hy
    rw [not_le] at hy
    have hsq := rootBelow_mul_self_le (p := p) (L := Int.log 4 y) hy.le
    have hnext := rootBelow_add_unit_le hp hy h hx hyx
    have hnonneg : 0 ≤ rootBelow p (Int.log 4 y) y := mul_nonneg (Nat.cast_nonneg _) hunit.le
    split
    · rename_i hmid
      refine hnext ?_
      by_contra hcon
      rw [not_lt] at hcon
      nlinarith
    · exact nonneg_le_nonneg_of_sq_le_sq hx (hsq.trans hyx)

end Nearest
