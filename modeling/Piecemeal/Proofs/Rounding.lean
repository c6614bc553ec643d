import Mathlib.Algebra.Order.Field.Rat
import Mathlib.Tactic.Linarith
import Mathlib.Tactic.Positivity
import Mathlib.Tactic.Ring
import Piecemeal.Binary64

/-!
# Correct rounding

`Binary64.Rounds q x` says that the value `x` is the rational number `q` correctly rounded: the
nearest finite value and the even one of two that are as near, or infinity for a number beyond the
half-way mark above the greatest finite value. It is stated with the distances between rational
numbers, and it leaves no choice (`Rounds.unique`).

`Binary64.ofFraction` rounds correctly (`rounds_ofFraction`). The bit patterns count the values in
ascending order, so the nearest value is the nearest pattern; that is the nearer of two neighbours,
and a pattern next to another differs from it by one unit of their common scale, so rounding the
scaled number to an integer finds it. At the upper end of a binade the carry goes into the exponent
and at the lower end the scale is 0, so the same argument covers subnormal values, powers of two and
the step to infinity.
-/

namespace Piecemeal

/-! ## The nearer of two neighbours -/

/-- `u` lies between the values of the neighbours `n` and `n + 1`, and `x` is the one of them whose
value is nearer, the even one where both are equally near. -/
structure Nearer (f : ℕ → ℚ) (u : ℚ) (n x : ℕ) : Prop where
  below : f n ≤ u
  above : u ≤ f (n + 1)
  nearer : x = n ∧ 2 * u ≤ f n + f (n + 1) ∨ x = n + 1 ∧ f n + f (n + 1) ≤ 2 * u
  even : 2 * u = f n + f (n + 1) → Even x

/-- No value is nearer to `u` than that of `x`, and where another is as near, `x` is even. -/
def IsNearest (f : ℕ → ℚ) (u : ℚ) (x : ℕ) : Prop :=
  ∀ y, |f x - u| ≤ |f y - u| ∧ (y ≠ x → |f y - u| = |f x - u| → Even x)

/-- The nearer of the two values between which `u` lies is the nearest of all. -/
theorem Nearer.isNearest {f : ℕ → ℚ} (hf : StrictMono f) {u : ℚ} {n x : ℕ} (h : Nearer f u n x) :
    IsNearest f u x := by
  intro y
  have hbelow : |f n - u| = u - f n := by
    rw [abs_of_nonpos (sub_nonpos.mpr h.below), neg_sub]
  have habove : |f (n + 1) - u| = f (n + 1) - u := abs_of_nonneg (sub_nonneg.mpr h.above)
  rcases Nat.lt_or_ge n y with hy | hy
  · have hfy : f (n + 1) ≤ f y := hf.monotone hy
    rw [abs_of_nonneg (sub_nonneg.mpr (h.above.trans hfy))]
    rcases h.nearer with ⟨rfl, hmid⟩ | ⟨rfl, hmid⟩
    · rw [hbelow]
      exact ⟨by linarith, fun _ heq => h.even (by linarith)⟩
    · rw [habove]
      refine ⟨by linarith, fun hne heq => ?_⟩
      have hlt : f (n + 1) < f y := hf (lt_of_le_of_ne hy hne.symm)
      linarith
  · have hfy : f y ≤ f n := hf.monotone hy
    rw [abs_of_nonpos (sub_nonpos.mpr (hfy.trans h.below)), neg_sub]
    rcases h.nearer with ⟨rfl, hmid⟩ | ⟨rfl, hmid⟩
    · rw [hbelow]
      refine ⟨by linarith, fun hne heq => ?_⟩
      have hlt : f y < f x := hf (lt_of_le_of_ne hy hne)
      linarith
    · rw [habove]
      exact ⟨by linarith, fun _ heq => h.even (by linarith)⟩

/-- The nearest value does not come after an odd one just if `u` is nearer to that than to the next
one. -/
theorem IsNearest.le_iff {f : ℕ → ℚ} (hf : StrictMono f) {u : ℚ} {x last : ℕ}
    (h : IsNearest f u x) (hodd : ¬ Even last) : x ≤ last ↔ 2 * u < f last + f (last + 1) := by
  have hstep : f last < f (last + 1) := hf (Nat.lt_succ_self last)
  constructor
  · intro hle
    have hfx : f x ≤ f last := hf.monotone hle
    obtain ⟨hnext, htie⟩ := h (last + 1)
    by_contra hge
    have habs : |f x - u| = u - f x := by
      rw [abs_of_nonpos (by linarith), neg_sub]
    have hclose : |f (last + 1) - u| ≤ u - f last := abs_le.mpr ⟨by linarith, by linarith⟩
    rw [habs] at hnext htie
    obtain rfl : x = last := hf.injective (le_antisymm hfx (by linarith))
    exact hodd (htie (Nat.succ_ne_self x) (le_antisymm hclose hnext))
  · intro hlt
    by_contra hgt
    have hfx : f (last + 1) ≤ f x := hf.monotone (Nat.lt_of_not_le hgt)
    obtain ⟨hlast, -⟩ := h last
    rw [abs_of_pos (by linarith)] at hlast
    rcases abs_cases (f last - u) with ⟨habs, -⟩ | ⟨habs, -⟩
    · linarith
    · linarith

/-- What is nearer among counted units is nearer in a sequence in which the two neighbours are so
many units of another size. -/
theorem Nearer.scale {f : ℕ → ℚ} {u unit : ℚ} {n x start : ℕ} (h : Nearer Nat.cast u n x)
    (hunit : 0 < unit) (hstart : Even start) (hlow : f (start + n) = n * unit)
    (hhigh : f (start + (n + 1)) = (n + 1) * unit) :
    Nearer f (u * unit) (start + n) (start + x) := by
  have hsum : f (start + n) + f (start + n + 1) = (n + (n + 1)) * unit := by
    rw [hlow, Nat.add_assoc, hhigh, ← add_mul]
  have htwice : 2 * (u * unit) = 2 * u * unit := (mul_assoc _ _ _).symm
  have hcast : ((n + 1 : ℕ) : ℚ) = n + 1 := Nat.cast_succ n
  obtain ⟨hbelow, habove, hnearer, heven⟩ := h
  rw [hcast] at habove hnearer heven
  refine ⟨?_, ?_, ?_, fun htie => hstart.add (heven ?_)⟩
  · rw [hlow]
    exact mul_le_mul_of_nonneg_right hbelow hunit.le
  · rw [Nat.add_assoc, hhigh]
    exact mul_le_mul_of_nonneg_right habove hunit.le
  · rw [hsum, htwice, mul_le_mul_iff_left₀ hunit, mul_le_mul_iff_left₀ hunit, Nat.add_assoc,
      Nat.add_right_inj, Nat.add_right_inj]
    exact hnearer
  · rw [hsum, htwice] at htie
    exact mul_right_cancel₀ hunit.ne' htie

theorem cast_div_eq (a : ℕ) {b : ℕ} (hb : 0 < b) :
    (a : ℚ) / b = (a / b : ℕ) + ((a % b : ℕ) : ℚ) / b := by
  have hpos : (0 : ℚ) < b := Nat.cast_pos.mpr hb
  rw [div_eq_iff hpos.ne', add_mul, div_mul_cancel₀ _ hpos.ne']
  exact_mod_cast (Nat.div_add_mod' a b).symm

theorem nearer_roundHalfEven (a : ℕ) {b : ℕ} (hb : 0 < b) :
    Nearer Nat.cast (a / b) (a / b) (roundHalfEven a b) := by
  have hpos : (0 : ℚ) < b := Nat.cast_pos.mpr hb
  have hlt : ((a % b : ℕ) : ℚ) / b < 1 :=
    (div_lt_one hpos).mpr (Nat.cast_lt.mpr (Nat.mod_lt a hb))
  have hnonneg : 0 ≤ ((a % b : ℕ) : ℚ) / b := by positivity
  have hle : 2 * (((a % b : ℕ) : ℚ) / b) ≤ 1 ↔ 2 * (a % b) ≤ b := by
    rw [mul_div_assoc', div_le_one hpos]
    exact_mod_cast Iff.rfl
  have hge : 1 ≤ 2 * (((a % b : ℕ) : ℚ) / b) ↔ b ≤ 2 * (a % b) := by
    rw [mul_div_assoc', one_le_div hpos]
    exact_mod_cast Iff.rfl
  rw [cast_div_eq a hb]
  generalize ((a % b : ℕ) : ℚ) / b = excess at hlt hnonneg hle hge
  refine ⟨?_, ?_, ?_, fun htie => ?_⟩
  · linarith
  · push_cast
    linarith
  · unfold roundHalfEven
    simp only [Bool.or_eq_true, Bool.and_eq_true, decide_eq_true_eq, beq_iff_eq]
    push_cast
    split
    · next h =>
      have hhalf := hge.mpr (by omega)
      exact .inr ⟨rfl, by linarith⟩
    · next h =>
      have hhalf := hle.mpr (by omega)
      exact .inl ⟨rfl, by linarith⟩
  · push_cast at htie
    have hhalf : 2 * (a % b) = b :=
      Nat.le_antisymm (hle.mp (by linarith)) (hge.mp (by linarith))
    unfold roundHalfEven
    simp only [Bool.or_eq_true, Bool.and_eq_true, decide_eq_true_eq, beq_iff_eq, Nat.even_iff]
    split
    · omega
    · omega

/-! ## Patterns in order -/

namespace Binary64

theorem binade_pos : 0 < binade := Nat.pow_pos Nat.two_pos

theorem even_binade : Even binade := ⟨Nat.pow 2 51, rfl⟩

theorem units_mk {k m : ℕ} (hm : m < binade) :
    units ⟨k * binade + m⟩ = if k = 0 then m else (binade + m) * 2 ^ (k - 1) := by
  have hk : (k * binade + m) / binade = k := by
    rw [Nat.add_comm, Nat.add_mul_div_right _ _ binade_pos, Nat.div_eq_of_lt hm, Nat.zero_add]
  have hmod : (k * binade + m) % binade = m := by
    rw [Nat.add_comm, Nat.add_mul_mod_self_right, Nat.mod_eq_of_lt hm]
  simp only [units, hk, hmod]
  rfl

/-- A significand counts units of its scale. Twice `binade` is a significand as well: the carry goes
into the exponent. -/
theorem units_scaled {scale significand : ℕ} (hscale : scale = 0 ∨ binade ≤ significand)
    (hle : significand ≤ 2 * binade) :
    units ⟨scale * binade + significand⟩ = significand * 2 ^ scale := by
  rcases Nat.lt_or_ge significand binade with hsmall | hlarge
  · obtain rfl : scale = 0 := by omega
    rw [units_mk hsmall, if_pos rfl, Nat.pow_zero, Nat.mul_one]
  · obtain ⟨m, rfl⟩ := Nat.exists_eq_add_of_le hlarge
    rcases Nat.lt_or_ge m binade with hm | hm
    · have hbits : scale * binade + (binade + m) = (scale + 1) * binade + m := by ring
      rw [hbits, units_mk hm, if_neg (Nat.succ_ne_zero scale), Nat.add_sub_cancel]
    · obtain rfl : m = binade := by omega
      have hbits : scale * binade + (binade + binade) = (scale + 2) * binade + 0 := by ring
      rw [hbits, units_mk binade_pos, if_neg (Nat.succ_ne_zero _), Nat.add_zero,
        show scale + 2 - 1 = scale + 1 from rfl]
      ring

theorem exists_scaled (n : ℕ) : ∃ scale significand, n = scale * binade + significand ∧
    (scale = 0 ∨ binade ≤ significand) ∧ significand < 2 * binade := by
  have hmod := Nat.mod_lt n binade_pos
  have hdiv := Nat.div_add_mod' n binade
  cases hk : n / binade with
  | zero =>
    rw [hk, Nat.zero_mul, Nat.zero_add] at hdiv
    exact ⟨0, n, by omega, .inl rfl, by omega⟩
  | succ k =>
    rw [hk] at hdiv
    refine ⟨k, binade + n % binade, ?_, .inr (Nat.le_add_right _ _), by omega⟩
    calc n = (k + 1) * binade + n % binade := hdiv.symm
      _ = k * binade + (binade + n % binade) := by ring

theorem units_lt_succ (n : ℕ) : units ⟨n⟩ < units ⟨n + 1⟩ := by
  obtain ⟨scale, significand, rfl, hscale, hlt⟩ := exists_scaled n
  have hscale' : scale = 0 ∨ binade ≤ significand + 1 := by omega
  rw [units_scaled hscale hlt.le, Nat.add_assoc, units_scaled hscale' hlt]
  exact Nat.mul_lt_mul_of_pos_right (Nat.lt_succ_self _) (Nat.two_pow_pos scale)

/-- Patterns are ordered as their values are. -/
theorem strictMono_units : StrictMono fun n => (units ⟨n⟩ : ℚ) :=
  strictMono_nat_of_lt_succ fun n => Nat.cast_lt.mpr (units_lt_succ n)

/-! ## The nearest pattern -/

/-- Scaled down, a number of units has as many binary digits before the point as a significand. -/
theorem scaled_bounds (u : ℕ) :
    (Nat.log2 u - 52 = 0 ∨ binade ≤ u / 2 ^ (Nat.log2 u - 52)) ∧
      u / 2 ^ (Nat.log2 u - 52) < 2 * binade := by
  generalize hscale : Nat.log2 u - 52 = scale
  constructor
  · rcases Nat.eq_zero_or_pos scale with hzero | hpos
    · exact .inl hzero
    · have hlog : 52 + scale = Nat.log2 u := by omega
      have hne : u ≠ 0 := by
        rintro rfl
        rw [Nat.log2_zero] at hlog
        omega
      refine .inr ((Nat.le_div_iff_mul_le (Nat.two_pow_pos scale)).mpr ?_)
      calc binade * 2 ^ scale = 2 ^ (52 + scale) := (Nat.pow_add 2 52 scale).symm
        _ ≤ u := hlog ▸ Nat.log2_self_le hne
  · refine (Nat.div_lt_iff_lt_mul (Nat.two_pow_pos scale)).mpr ?_
    calc u < 2 ^ (Nat.log2 u + 1) := Nat.lt_log2_self
      _ ≤ 2 ^ (53 + scale) := Nat.pow_le_pow_right Nat.two_pos (by omega)
      _ = 2 * binade * 2 ^ scale := Nat.pow_add 2 53 scale

theorem isNearest_scaled (numerator : ℕ) {denominator : ℕ} (hpos : 0 < denominator) :
    IsNearest (fun n => units ⟨n⟩) (numerator / denominator)
      ((Nat.log2 (numerator / denominator) - 52) * binade +
        roundHalfEven numerator (denominator * 2 ^ (Nat.log2 (numerator / denominator) - 52))) := by
  obtain ⟨hscale, hlt⟩ := scaled_bounds (numerator / denominator)
  generalize Nat.log2 (numerator / denominator) - 52 = scale at hscale hlt
  have hunit : (0 : ℚ) < 2 ^ scale := by positivity
  have hround := nearer_roundHalfEven numerator (Nat.mul_pos hpos (Nat.two_pow_pos scale))
  rw [Nat.div_div_eq_div_mul] at hscale hlt
  generalize numerator / (denominator * 2 ^ scale) = floor at hscale hlt hround
  have hlow : (units ⟨scale * binade + floor⟩ : ℚ) = floor * 2 ^ scale := by
    rw [units_scaled hscale hlt.le]
    push_cast
    rfl
  have hhigh : (units ⟨scale * binade + (floor + 1)⟩ : ℚ) = (floor + 1) * 2 ^ scale := by
    rw [units_scaled (hscale.imp_right Nat.le_succ_of_le) hlt]
    push_cast
    rfl
  have hu : (numerator : ℚ) / denominator =
      numerator / (denominator * 2 ^ scale : ℕ) * 2 ^ scale := by
    push_cast
    rw [div_mul_eq_mul_div, mul_div_mul_right _ _ hunit.ne']
  rw [hu]
  exact (hround.scale hunit (even_binade.mul_left scale) hlow hhigh).isNearest strictMono_units

/-! ## Rounding -/

/-- The significand of a finite value: normal values have a leading one that the pattern leaves
out. -/
def significand (x : Binary64) : ℕ :=
  if x.bits / binade = 0 then x.bits % binade else binade + x.bits % binade

/-- The number that a finite value is. Subnormal values have the scale of the least normal ones. -/
def value (x : Binary64) : ℚ := x.significand * 2 ^ (x.bits / binade - 1) / 2 ^ 1074

/-- `x` is the finite value nearest to `q`, negative ones included, and the one with the even
significand where another is as near. -/
structure Nearest (q : ℚ) (x : Binary64) : Prop where
  finite : x.isFinite = true
  nearest : ∀ y : Binary64, y.isFinite = true → |x.value - q| ≤ |y.value - q|
  nearest_neg : ∀ y : Binary64, y.isFinite = true → |x.value - q| ≤ |-y.value - q|
  even_of_tie : ∀ y : Binary64, y.isFinite = true → y ≠ x → |y.value - q| = |x.value - q| →
    Even x.significand

/-- `x` is `q` correctly rounded: infinity for a number that is at least half-way from the greatest
finite value to `2 ^ 1024`, and the nearest finite value for every other number. -/
structure Rounds (q : ℚ) (x : Binary64) : Prop where
  infinite : x = infinity ↔ 2 ^ 1024 - 2 ^ 970 ≤ q
  nearest : q < 2 ^ 1024 - 2 ^ 970 → Nearest q x

theorem even_significand_iff (x : Binary64) : Even x.significand ↔ Even x.bits := by
  have hbits : Even x.bits ↔ Even (x.bits % binade) := by
    conv_lhs => rw [← Nat.div_add_mod' x.bits binade, Nat.even_add]
    exact iff_true_left (even_binade.mul_left _)
  rw [hbits, significand]
  split
  · rfl
  · rw [Nat.even_add]
    exact iff_true_left even_binade

theorem binade_mul_two_pow (n : ℕ) : binade * 2 ^ n = 2 ^ (52 + n) := (Nat.pow_add 2 52 n).symm

theorem units_infinity : units infinity = 2 ^ 2098 := by
  have hbits : infinity = ⟨2046 * binade + binade⟩ := congrArg mk (Nat.succ_mul 2046 binade)
  have hexponent : 2098 = 52 + 2046 := rfl
  rw [hbits, units_scaled (.inr (Nat.le_refl _)) (Nat.le_mul_of_pos_left _ Nat.two_pos),
    hexponent, binade_mul_two_pow]

/-- The pattern of the greatest finite value. -/
def greatest : ℕ := 2045 * binade + (2 * binade - 1)

theorem greatest_add_one : greatest + 1 = infinity.bits := rfl

theorem not_even_greatest : ¬ Even greatest := by decide

theorem units_greatest : units ⟨greatest⟩ + 2 ^ 2045 = 2 ^ 2098 := by
  have hpos := binade_pos
  have hsucc : 2 * binade - 1 + 1 = 2 * binade := by omega
  have hexponent : 2098 = 52 + 2045 + 1 := rfl
  rw [greatest, units_scaled (.inr (by omega)) (Nat.sub_le _ _), ← Nat.succ_mul,
    Nat.succ_eq_add_one, hsucc, Nat.mul_assoc, binade_mul_two_pow, hexponent,
    Nat.pow_succ' (n := 52 + 2045)]

theorem half_way (q : ℚ) : 2 * (q * 2 ^ 1074) <
    (units ⟨greatest⟩ : ℚ) + (units ⟨greatest + 1⟩ : ℚ) ↔ q < 2 ^ 1024 - 2 ^ 970 := by
  have hunit : (0 : ℚ) < 2 ^ 1074 := by positivity
  have hinfinity : (units ⟨greatest + 1⟩ : ℚ) = 2 ^ 1024 * 2 ^ 1074 := by
    rw [greatest_add_one, units_infinity, ← pow_add, Nat.cast_pow, Nat.cast_ofNat]
  have hgreatest : (units ⟨greatest⟩ : ℚ) + 2 ^ 971 * 2 ^ 1074 = 2 ^ 1024 * 2 ^ 1074 := by
    have h := congrArg (Nat.cast : ℕ → ℚ) units_greatest
    rw [Nat.cast_add, Nat.cast_pow, Nat.cast_pow, Nat.cast_ofNat] at h
    rw [← pow_add, ← pow_add]
    exact h
  have hsum : (units ⟨greatest⟩ : ℚ) + (units ⟨greatest + 1⟩ : ℚ) =
      2 * ((2 ^ 1024 - 2 ^ 970) * 2 ^ 1074) := by
    rw [eq_sub_of_add_eq hgreatest, hinfinity, pow_succ' 2 970]
    generalize (2 : ℚ) ^ 1024 = top
    generalize (2 : ℚ) ^ 970 = gap
    generalize (2 : ℚ) ^ 1074 = unit
    ring
  rw [hsum, mul_lt_mul_iff_right₀ two_pos, mul_lt_mul_iff_left₀ hunit]

theorem one_eq : one = 2 ^ 1074 := by
  delta one
  -- the power itself is too large to be evaluated
  generalize 1074 = n
  rfl

theorem value_eq_units (x : Binary64) : x.value = x.units / 2 ^ 1074 := by
  have hunits : x.units = x.significand * 2 ^ (x.bits / binade - 1) := by
    rw [units, significand]
    split
    · next hzero => rw [hzero, Nat.zero_sub, pow_zero, mul_one]
    · rfl
  rw [value, hunits, Nat.cast_mul, Nat.cast_pow, Nat.cast_ofNat]

theorem value_zero : value ⟨0⟩ = 0 := by
  rw [value_eq_units, show units ⟨0⟩ = 0 from rfl, Nat.cast_zero, zero_div]

theorem abs_value_sub (q : ℚ) (y : Binary64) :
    |y.value - q| = |(units y : ℚ) - q * 2 ^ 1074| / 2 ^ 1074 := by
  have hunit : (0 : ℚ) < 2 ^ 1074 := by positivity
  rw [value_eq_units, ← abs_of_pos hunit, ← abs_div, abs_of_pos hunit, sub_div,
    mul_div_cancel_right₀ _ hunit.ne']

/-- The nearest pattern, bounded by that of infinity, is the number correctly rounded. -/
theorem rounds_min {q : ℚ} (hq : 0 ≤ q) {n : ℕ}
    (h : IsNearest (fun n => units ⟨n⟩) (q * 2 ^ 1074) n) : Rounds q ⟨min n infinity.bits⟩ := by
  have hunit : (0 : ℚ) < 2 ^ 1074 := by positivity
  have hfinite : n < infinity.bits ↔ q < 2 ^ 1024 - 2 ^ 970 := by
    rw [← greatest_add_one, Nat.lt_succ_iff, h.le_iff strictMono_units not_even_greatest]
    exact half_way q
  refine ⟨?_, fun hlt => ?_⟩
  · rw [← not_lt, ← hfinite, not_lt, ← min_eq_right_iff]
    exact ⟨congrArg bits, congrArg mk⟩
  · have hn := hfinite.mpr hlt
    rw [min_eq_left hn.le]
    have hnearest : ∀ y : Binary64, |value ⟨n⟩ - q| ≤ |y.value - q| := by
      intro y
      rw [abs_value_sub, abs_value_sub]
      exact div_le_div_of_nonneg_right (h y.bits).1 hunit.le
    refine ⟨decide_eq_true hn, fun y _ => hnearest y, fun y _ => ?_, fun y _ hne htie => ?_⟩
    · have hzero := hnearest ⟨0⟩
      have hy : 0 ≤ y.value := value_eq_units y ▸ div_nonneg (Nat.cast_nonneg _) hunit.le
      rw [value_zero, zero_sub, abs_neg, abs_of_nonneg hq] at hzero
      rw [← neg_add', abs_neg, abs_of_nonneg (add_nonneg hy hq)]
      exact hzero.trans (le_add_of_nonneg_left hy)
    · rw [abs_value_sub, abs_value_sub, div_left_inj' hunit.ne'] at htie
      rw [even_significand_iff]
      exact (h y.bits).2 (fun heq => hne (congrArg mk heq)) htie

/-- The value nearest to a fraction is found by scaling it and rounding the significand. -/
theorem rounds_ofFraction (numerator : ℕ) {denominator : ℕ} (hpos : 0 < denominator) :
    Rounds (numerator / denominator) (ofFraction numerator denominator) := by
  have hu : (numerator : ℚ) / denominator * 2 ^ 1074 =
      ((numerator * one : ℕ) : ℚ) / denominator := by
    rw [Nat.cast_mul, one_eq, Nat.cast_pow, Nat.cast_ofNat, div_mul_eq_mul_div]
  refine rounds_min (div_nonneg (Nat.cast_nonneg _) (Nat.cast_nonneg _)) ?_
  rw [hu]
  exact isNearest_scaled (numerator * one) hpos

/-! ## Rounding leaves no choice -/

theorem value_lt_value {x y : Binary64} (h : x.bits < y.bits) : x.value < y.value := by
  rw [value_eq_units, value_eq_units]
  exact div_lt_div_of_pos_right (strictMono_units h) (by positivity)

/-- Between two even patterns there is an odd one, whose value is nearer than one of theirs. -/
theorem Nearest.not_lt {q : ℚ} {x y : Binary64} (hx : Nearest q x) (hy : Nearest q y) :
    ¬ x.bits < y.bits := by
  intro hlt
  have hne : y ≠ x := fun h => absurd (congrArg bits h) hlt.ne'
  have htie : |y.value - q| = |x.value - q| :=
    le_antisymm (hy.nearest x hx.finite) (hx.nearest y hy.finite)
  have hxeven := (even_significand_iff x).mp (hx.even_of_tie y hy.finite hne htie)
  have hyeven := (even_significand_iff y).mp (hy.even_of_tie x hx.finite hne.symm htie.symm)
  have hbetween : x.bits + 1 < y.bits := by
    obtain ⟨a, ha⟩ := hxeven
    obtain ⟨b, hb⟩ := hyeven
    omega
  have hfinite : isFinite ⟨x.bits + 1⟩ = true := by
    have hyfinite : y.bits < infinity.bits := of_decide_eq_true hy.finite
    exact decide_eq_true (hbetween.trans hyfinite)
  have hnearest := hx.nearest ⟨x.bits + 1⟩ hfinite
  have hlow : x.value < value ⟨x.bits + 1⟩ := value_lt_value (Nat.lt_succ_self _)
  have hhigh : value ⟨x.bits + 1⟩ < y.value := value_lt_value hbetween
  rcases abs_cases (x.value - q) with ⟨hxabs, hxsign⟩ | ⟨hxabs, hxsign⟩
  · rw [hxabs, abs_of_nonneg (by linarith)] at htie
    linarith
  · rw [hxabs] at hnearest htie
    have hless : |value ⟨x.bits + 1⟩ - q| < -(x.value - q) := by
      rcases abs_cases (y.value - q) with ⟨hyabs, hysign⟩ | ⟨hyabs, hysign⟩
      · exact abs_lt.mpr ⟨by linarith, by linarith⟩
      · linarith
    linarith

theorem Nearest.unique {q : ℚ} {x y : Binary64} (hx : Nearest q x) (hy : Nearest q y) : x = y := by
  have hbits : x.bits = y.bits := Nat.le_antisymm (Nat.le_of_not_lt (hy.not_lt hx))
    (Nat.le_of_not_lt (hx.not_lt hy))
  exact congrArg Binary64.mk hbits

/-- A number is correctly rounded to one value only. -/
theorem Rounds.unique {q : ℚ} {x y : Binary64} (hx : Rounds q x) (hy : Rounds q y) : x = y := by
  rcases lt_or_ge q (2 ^ 1024 - 2 ^ 970) with hlt | hge
  · exact (hx.nearest hlt).unique (hy.nearest hlt)
  · exact (hx.infinite.mpr hge).trans (hy.infinite.mpr hge).symm

/-! ## Integers -/

theorem value_eq_natCast_iff (x : Binary64) (n : ℕ) : x.value = n ↔ x.units = n * one := by
  have hunit : (2 : ℚ) ^ 1074 ≠ 0 := pow_ne_zero _ two_ne_zero
  rw [value_eq_units, div_eq_iff hunit, one_eq]
  generalize 1074 = exponent
  exact_mod_cast Iff.rfl

/-- Integers with at most 53 binary digits are values: the significand is shifted until its leading
one is in the place that the pattern leaves out. -/
theorem exists_value_eq {n : ℕ} (hn : n < 2 ^ 53) :
    ∃ y : Binary64, y.isFinite = true ∧ y.value = n := by
  rcases Nat.eq_zero_or_pos n with rfl | hpos
  · exact ⟨⟨0⟩, rfl, value_zero⟩
  · have hlog : Nat.log2 n < 53 := (Nat.log2_lt hpos.ne').mpr hn
    obtain ⟨shift, hshift⟩ : ∃ shift, 52 = Nat.log2 n + shift :=
      Nat.exists_eq_add_of_le (Nat.le_of_lt_succ hlog)
    have hge : binade ≤ n * 2 ^ shift := by
      calc binade = 2 ^ (Nat.log2 n + shift) := congrArg (Nat.pow 2) hshift
        _ = 2 ^ Nat.log2 n * 2 ^ shift := Nat.pow_add _ _ _
        _ ≤ n * 2 ^ shift := Nat.mul_le_mul_right _ (Nat.log2_self_le hpos.ne')
    have hle : n * 2 ^ shift ≤ 2 * binade := by
      calc n * 2 ^ shift ≤ 2 ^ (Nat.log2 n + 1) * 2 ^ shift :=
            Nat.mul_le_mul_right _ Nat.lt_log2_self.le
        _ = 2 * 2 ^ (Nat.log2 n + shift) := by ring
        _ = 2 * binade := congrArg (2 * Nat.pow 2 ·) hshift.symm
    have hunits : units ⟨(1074 - shift) * binade + n * 2 ^ shift⟩ =
        n * 2 ^ shift * 2 ^ (1074 - shift) := units_scaled (.inr hge) hle
    have hexponent : shift + (1074 - shift) = 1074 := by omega
    rw [mul_assoc, ← pow_add, hexponent, ← one_eq] at hunits
    refine ⟨⟨(1074 - shift) * binade + n * 2 ^ shift⟩, ?_, ?_⟩
    · refine decide_eq_true ?_
      calc (1074 - shift) * binade + n * 2 ^ shift ≤ 1074 * binade + 2 * binade :=
            Nat.add_le_add (Nat.mul_le_mul_right _ (Nat.sub_le _ _)) hle
        _ < 2047 * binade := by
            rw [← Nat.add_mul]
            exact Nat.mul_lt_mul_of_pos_right (by decide) binade_pos
    · exact (value_eq_natCast_iff _ _).mpr hunits

/-- An integer that is a value is the nearest value to itself. -/
theorem Nearest.value_eq {n : ℕ} {x : Binary64} (h : Nearest n x) (hn : n < 2 ^ 53) :
    x.value = n := by
  obtain ⟨y, hfinite, hy⟩ := exists_value_eq hn
  have hle := h.nearest y hfinite
  rw [hy, sub_self, abs_zero] at hle
  exact sub_eq_zero.mp (abs_nonpos_iff.mp hle)

theorem toNat?_eq_some {n : ℕ} {x : Binary64} (hfinite : x.isFinite = true) (hx : x.value = n) :
    x.toNat? = some n := by
  have hunits : x.units = n * one := (value_eq_natCast_iff x n).mp hx
  have hone : 0 < one := one_eq ▸ pow_pos two_pos 1074
  rw [toNat?, hfinite, hunits, Nat.mul_mod_left, Nat.mul_div_cancel _ hone]
  rfl

/-- The integers that need no rounding. -/
theorem Rounds.eq_of_lt {n : ℕ} {x : Binary64} (h : Rounds n x) (hn : n < 2 ^ 53) :
    x.value = n ∧ x.toNat? = some n := by
  have hlt : (n : ℚ) < 2 ^ 1024 - 2 ^ 970 := by
    calc (n : ℚ) < 2 ^ 53 := by exact_mod_cast hn
      _ ≤ 2 ^ 970 := pow_le_pow_right₀ one_le_two (by decide)
      _ ≤ 2 ^ 1024 - 2 ^ 970 := by
          rw [le_sub_iff_add_le, ← two_mul, ← pow_succ']
          exact pow_le_pow_right₀ one_le_two (by decide)
  have hnearest := h.nearest hlt
  have hvalue := hnearest.value_eq hn
  exact ⟨hvalue, toNat?_eq_some hnearest.finite hvalue⟩

end Binary64

end Piecemeal
