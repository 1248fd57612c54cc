import Mathlib.Data.Int.Log
import Mathlib.Data.Nat.Size
import Mathlib.Data.Rat.Floor
import Mathlib.Tactic.Linarith

/-!
# Binary floating point rounded to a precision

A rational rounded to `p` significant bits, to the nearest number of `p` bits and to the even
significand on a tie: the default rounding of Go's `math/big.Float`. A proof about a
computation in this arithmetic needs three facts, proved here: a number of `p` bits is its own
rounding, rounding keeps the sign, and rounding never passes a number of `p` bits.

`BigFloat` is a `big.Float` with its precision, and `setInt`, `quo`, `mul` and `int` are the
methods `SetInt`, `Quo`, `Mul` and `Int` on a fresh receiver. Go's exponent range (±2³¹) is not
modelled, and neither is the sign of a zero or of an infinity, which `Int` does not read.
-/

namespace BinaryFloat

/-- The integer nearest to `t`, ties to even. -/
def roundHalfEven (t : ℚ) : ℤ :=
  if t - ⌊t⌋ < 1 / 2 then ⌊t⌋
  else if 1 / 2 < t - ⌊t⌋ then ⌊t⌋ + 1
  else ⌊t⌋ + ⌊t⌋ % 2

@[simp] theorem roundHalfEven_intCast (k : ℤ) : roundHalfEven k = k := by
  simp [roundHalfEven]

theorem floor_le_roundHalfEven (t : ℚ) : ⌊t⌋ ≤ roundHalfEven t := by
  have h0 := Int.emod_nonneg ⌊t⌋ (by norm_num : (2 : ℤ) ≠ 0)
  unfold roundHalfEven
  split_ifs <;> omega

theorem roundHalfEven_le_ceil (t : ℚ) : roundHalfEven t ≤ ⌈t⌉ := by
  have h2 := Int.emod_lt_of_pos ⌊t⌋ (by norm_num : (0 : ℤ) < 2)
  unfold roundHalfEven
  split_ifs with h
  · exact Int.floor_le_ceil t
  all_goals
    -- a fraction of at least a half puts the ceiling above the floor
    have hlt : ⌊t⌋ < ⌈t⌉ := Int.lt_ceil.2 (by linarith)
    omega

/-- The distance between consecutive numbers of `p` bits in the binade of `q`. -/
def ulp (p : ℕ) (q : ℚ) : ℚ := 2 ^ (Int.log 2 |q| + 1 - p)

/-- `q` rounded to `p` significant bits, to nearest, ties to even. -/
def roundNE (p : ℕ) (q : ℚ) : ℚ := roundHalfEven (q / ulp p q) * ulp p q

/-- A number of at most `p` significant bits. -/
def Representable (p : ℕ) (r : ℚ) : Prop := ∃ m e : ℤ, |m| < 2 ^ p ∧ r = m * 2 ^ e

theorem ulp_pos (p : ℕ) (q : ℚ) : 0 < ulp p q := zpow_pos (by norm_num) _

@[simp] theorem roundNE_zero (p : ℕ) : roundNE p 0 = 0 := by
  have h := roundHalfEven_intCast 0
  rw [Int.cast_zero] at h
  simp [roundNE, h]

theorem zpow_log_le_abs {q : ℚ} (hq : q ≠ 0) : (2 : ℚ) ^ Int.log 2 |q| ≤ |q| := by
  have h := Int.zpow_log_le_self (b := 2) (by norm_num) (abs_pos.2 hq)
  exact_mod_cast h

theorem Representable.mono {p p' : ℕ} {r : ℚ} (hr : Representable p r) (hp : p ≤ p') :
    Representable p' r := by
  obtain ⟨m, e, hm, rfl⟩ := hr
  exact ⟨m, e, hm.trans_le (pow_le_pow_right₀ (by norm_num) hp), rfl⟩

theorem representable_intCast {p : ℕ} {x : ℤ} (hx : |x| < 2 ^ p) : Representable p x :=
  ⟨x, 0, hx, by simp⟩

theorem Representable.neg {p : ℕ} {r : ℚ} (hr : Representable p r) : Representable p (-r) := by
  obtain ⟨m, e, hm, rfl⟩ := hr
  exact ⟨-m, e, by rwa [abs_neg], by push_cast; ring⟩

/-- A number of `p` bits whose magnitude is at least `2^e` is a multiple of `2^(e+1-p)`. -/
theorem Representable.exists_mul_zpow {p : ℕ} {r : ℚ} {e : ℤ} (hr : Representable p r)
    (he : 2 ^ e ≤ |r|) : ∃ n : ℤ, r = n * 2 ^ (e + 1 - p) := by
  obtain ⟨m, f, hm, rfl⟩ := hr
  have hf : (0 : ℚ) < 2 ^ f := zpow_pos (by norm_num) f
  have hm' : |(m : ℚ)| < 2 ^ p := by exact_mod_cast hm
  -- the magnitude `|m| * 2^f` is below `2^(p+f)`, so the exponent `e` is below `p + f`
  have hlt : e < p + f := by
    have h1 : (2 : ℚ) ^ e < 2 ^ ((p : ℤ) + f) := calc
      (2 : ℚ) ^ e ≤ |(m : ℚ) * 2 ^ f| := he
      _ = |(m : ℚ)| * 2 ^ f := by rw [abs_mul, abs_of_pos hf]
      _ < 2 ^ p * 2 ^ f := mul_lt_mul_of_pos_right hm' hf
      _ = 2 ^ ((p : ℤ) + f) := by rw [zpow_add₀ two_ne_zero, zpow_natCast]
    exact (zpow_lt_zpow_iff_right₀ one_lt_two).1 h1
  have hk : ((f - (e + 1 - p)).toNat : ℤ) = f - (e + 1 - p) := Int.toNat_of_nonneg (by omega)
  refine ⟨m * 2 ^ (f - (e + 1 - p)).toNat, ?_⟩
  push_cast
  rw [mul_assoc, ← zpow_natCast, hk, ← zpow_add₀ two_ne_zero]
  congr 2
  ring

/-- A number of `p` bits is its own rounding. -/
theorem roundNE_eq_self {p : ℕ} {r : ℚ} (hr : Representable p r) : roundNE p r = r := by
  by_cases h0 : r = 0
  · subst h0
    exact roundNE_zero p
  obtain ⟨n, hn⟩ := hr.exists_mul_zpow (zpow_log_le_abs h0)
  have hu : r / ulp p r = n := (div_eq_iff (ulp_pos p r).ne').2 hn
  rw [roundNE, hu, roundHalfEven_intCast, ← hu, div_mul_cancel₀ _ (ulp_pos p r).ne']

theorem roundNE_nonneg {p : ℕ} {q : ℚ} (hq : 0 ≤ q) : 0 ≤ roundNE p q := by
  have hu := ulp_pos p q
  have hfl : 0 ≤ ⌊q / ulp p q⌋ := Int.floor_nonneg.2 (div_nonneg hq hu.le)
  have hr : (0 : ℚ) ≤ roundHalfEven (q / ulp p q) := by
    exact_mod_cast hfl.trans (floor_le_roundHalfEven _)
  exact mul_nonneg hr hu.le

/-- Rounding a nonnegative `q` never passes a number of `p` bits above it. -/
theorem roundNE_le_of_le {p : ℕ} {q r : ℚ} (hq : 0 ≤ q) (hqr : q ≤ r) (hr : Representable p r) :
    roundNE p q ≤ r := by
  rcases hq.eq_or_lt with rfl | hq
  · rw [roundNE_zero]
    exact hqr
  have hu := ulp_pos p q
  -- `r` is at least `q`, so it lies in `q`'s binade or above and is a multiple of the ulp
  have he : (2 : ℚ) ^ Int.log 2 |q| ≤ |r| := calc
    (2 : ℚ) ^ Int.log 2 |q| ≤ |q| := zpow_log_le_abs hq.ne'
    _ = q := abs_of_pos hq
    _ ≤ r := hqr
    _ = |r| := (abs_of_pos (hq.trans_le hqr)).symm
  obtain ⟨n, hn⟩ := hr.exists_mul_zpow he
  have hrn : r / ulp p q = n := (div_eq_iff hu.ne').2 hn
  have hceil : ⌈q / ulp p q⌉ ≤ n := Int.ceil_le.2 (by rw [← hrn]; exact div_le_div_of_nonneg_right hqr hu.le)
  calc roundNE p q ≤ (⌈q / ulp p q⌉ : ℚ) * ulp p q :=
        mul_le_mul_of_nonneg_right (by exact_mod_cast roundHalfEven_le_ceil _) hu.le
    _ ≤ n * ulp p q := mul_le_mul_of_nonneg_right (by exact_mod_cast hceil) hu.le
    _ = r := hn.symm

/-- The significand's form: a finite value, zero included, or an infinity. -/
inductive Form
  | finite (q : ℚ)
  | inf
  deriving DecidableEq, Repr

/-- A `big.Float` with its precision. -/
structure BigFloat where
  prec : ℕ
  form : Form
  deriving DecidableEq, Repr

namespace BigFloat

/-- `new(big.Float).SetInt(x)`: the precision is the bit length of `x`, at least 64, so the
value is exact. -/
def setInt (x : ℤ) : BigFloat := ⟨max 64 x.natAbs.size, .finite x⟩

/-- `new(big.Float).Quo(x, y)` at the larger precision of the two; `none` is the `ErrNaN`
panic of `0/0` and `∞/∞`. -/
def quo (x y : BigFloat) : Option BigFloat :=
  let p := max x.prec y.prec
  match x.form, y.form with
  | .finite a, .finite b =>
    if b = 0 then (if a = 0 then none else some ⟨p, .inf⟩)
    else some ⟨p, .finite (roundNE p (a / b))⟩
  | .finite _, .inf => some ⟨p, .finite 0⟩
  | .inf, .finite _ => some ⟨p, .inf⟩
  | .inf, .inf => none

/-- `new(big.Float).Mul(x, y)`; `none` is the `ErrNaN` panic of `0 · ∞`. -/
def mul (x y : BigFloat) : Option BigFloat :=
  let p := max x.prec y.prec
  match x.form, y.form with
  | .finite a, .finite b => some ⟨p, .finite (roundNE p (a * b))⟩
  | .finite a, .inf => if a = 0 then none else some ⟨p, .inf⟩
  | .inf, .finite b => if b = 0 then none else some ⟨p, .inf⟩
  | .inf, .inf => some ⟨p, .inf⟩

/-- `x.Int(z)`: the value truncated toward zero. An infinity gives `nil` and leaves `z` as it
was, which is `none` here. -/
def int (x : BigFloat) : Option ℤ :=
  match x.form with
  | .finite q => some (if 0 ≤ q then ⌊q⌋ else ⌈q⌉)
  | .inf => none

@[simp] theorem form_setInt (x : ℤ) : (setInt x).form = .finite x := rfl

theorem representable_setInt (x : ℤ) : Representable (setInt x).prec x := by
  have hx : x.natAbs < 2 ^ x.natAbs.size := Nat.lt_size_self _
  refine (representable_intCast (p := x.natAbs.size) ?_).mono (le_max_right _ _)
  rw [Int.abs_eq_natAbs]
  exact_mod_cast hx

theorem le_prec_setInt (x : ℤ) : 64 ≤ (setInt x).prec := le_max_left _ _

/-- A quotient `a / b` of integers with `0 ≤ a ≤ b` rounds into `[0, 1]`. -/
theorem quo_setInt_of_le {a b : ℤ} (ha : 0 ≤ a) (hab : a ≤ b) (hb : 0 < b) :
    ∃ x q, (setInt a).quo (setInt b) = some x ∧ x.form = .finite q ∧ 0 ≤ q ∧ q ≤ 1 := by
  have hb' : (b : ℚ) ≠ 0 := by exact_mod_cast hb.ne'
  have hdiv0 : (0 : ℚ) ≤ a / b := div_nonneg (by exact_mod_cast ha) (by exact_mod_cast hb.le)
  have hdiv1 : (a : ℚ) / b ≤ 1 := (div_le_one (by exact_mod_cast hb)).2 (by exact_mod_cast hab)
  let p := max (setInt a).prec (setInt b).prec
  have hp : p ≠ 0 := by have := le_prec_setInt a; omega
  have hone : Representable p 1 := ⟨1, 0, by simpa using one_lt_pow₀ one_lt_two hp, by simp⟩
  refine ⟨⟨p, .finite (roundNE p (a / b))⟩, roundNE p (a / b), ?_, rfl,
    roundNE_nonneg hdiv0, roundNE_le_of_le hdiv0 hdiv1 hone⟩
  simp [quo, setInt, hb', p]

/-- A product of a nonnegative integer `c` and a value in `[0, 1]` rounds into `[0, c]`. -/
theorem mul_setInt_of_unit {c : ℤ} {x : BigFloat} {q : ℚ} (hc : 0 ≤ c) (hx : x.form = .finite q)
    (h0 : 0 ≤ q) (h1 : q ≤ 1) :
    ∃ y v, (setInt c).mul x = some y ∧ y.form = .finite v ∧ 0 ≤ v ∧ v ≤ c := by
  let p := max (setInt c).prec x.prec
  have hc' : (0 : ℚ) ≤ c := by exact_mod_cast hc
  have hprod0 : 0 ≤ (c : ℚ) * q := mul_nonneg hc' h0
  have hprod1 : (c : ℚ) * q ≤ c := mul_le_of_le_one_right hc' h1
  refine ⟨⟨p, .finite (roundNE p (c * q))⟩, roundNE p (c * q), ?_, rfl, roundNE_nonneg hprod0,
    roundNE_le_of_le hprod0 hprod1 ((representable_setInt c).mono (le_max_left _ _))⟩
  simp [mul, hx, setInt, p]

/-- Truncating a value in `[0, c]` gives an integer in `[0, c]`. -/
theorem int_of_bounds {x : BigFloat} {v : ℚ} {c : ℤ} (hx : x.form = .finite v) (h0 : 0 ≤ v)
    (hc : v ≤ c) : ∃ n, x.int = some n ∧ 0 ≤ n ∧ n ≤ c :=
  ⟨⌊v⌋, by simp [int, hx, h0], Int.floor_nonneg.2 h0, Int.floor_le_iff.2 (by linarith)⟩

/-- A quotient of integers that is an integer of `p` bits is exact. -/
theorem quo_setInt_of_eq_mul {a b k : ℤ} (hb : b ≠ 0) (hk : a = k * b)
    (hr : Representable (max (setInt a).prec (setInt b).prec) k) :
    (setInt a).quo (setInt b) = some ⟨max (setInt a).prec (setInt b).prec, .finite k⟩ := by
  have hb' : (b : ℚ) ≠ 0 := by exact_mod_cast hb
  have hq : (a : ℚ) / b = k := by
    rw [hk, Int.cast_mul, mul_div_assoc, div_self hb', mul_one]
  have hround := roundNE_eq_self hr
  simp only [quo, form_setInt, Int.cast_eq_zero, hb, if_false, hq, hround]

/-- A product of integers of `p` bits is exact. -/
theorem mul_setInt_intCast {c k : ℤ} (p : ℕ)
    (hr : Representable (max (setInt c).prec p) ((c * k : ℤ) : ℚ)) :
    (setInt c).mul ⟨p, .finite k⟩ = some ⟨max (setInt c).prec p, .finite ((c * k : ℤ) : ℚ)⟩ := by
  have hround := roundNE_eq_self hr
  rw [Int.cast_mul] at hround ⊢
  simp only [mul, form_setInt, hround]

/-- An integer value truncates to itself. -/
@[simp] theorem int_intCast (p : ℕ) (n : ℤ) : (⟨p, .finite n⟩ : BigFloat).int = some n := by
  simp only [int, Int.floor_intCast, Int.ceil_intCast, ite_self]

end BigFloat

end BinaryFloat
