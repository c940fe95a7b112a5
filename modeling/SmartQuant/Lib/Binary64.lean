import Mathlib.Data.Int.Log
import Mathlib.Data.Rat.Floor
import Mathlib.Tactic.Linarith
import Mathlib.Tactic.Positivity
import Mathlib.Tactic.Ring

/-!
# Rounding to binary64

`round` takes a rational to the nearest number with 53 significant bits whose last place is
not below 2^-1074; of two it takes the even one. Numbers that a `double` cannot exceed are
not treated: what is rounded is meant to stay below 2^1024. All bounds follow from one, that
rounding moves a number by half of its last place at most.
-/
namespace SmartQuant
namespace Binary64

/-- The nearest integer, the even one of two. -/
def nearestEven (x : ℚ) : ℤ :=
  if x - ⌊x⌋ < 1 / 2 ∨ x - ⌊x⌋ = 1 / 2 ∧ ⌊x⌋ % 2 = 0 then ⌊x⌋ else ⌊x⌋ + 1

/-- The exponent of the last place of a number. -/
def lastPlace (x : ℚ) : ℤ := max (Int.log 2 |x| - 52) (-1074)

def round (x : ℚ) : ℚ := nearestEven (x / 2 ^ lastPlace x) * 2 ^ lastPlace x

theorem nearestEven_cases (x : ℚ) :
    nearestEven x = ⌊x⌋ ∧ x - ⌊x⌋ ≤ 1 / 2 ∨ nearestEven x = ⌊x⌋ + 1 ∧ 1 / 2 ≤ x - ⌊x⌋ := by
  rw [nearestEven]
  split_ifs with h
  · exact Or.inl ⟨rfl, h.elim le_of_lt fun h => h.1.le⟩
  · rw [not_or, not_lt] at h
    exact Or.inr ⟨rfl, h.1⟩

theorem abs_nearestEven_sub_le (x : ℚ) : |(nearestEven x : ℚ) - x| ≤ 1 / 2 := by
  have hfloor := Int.floor_le x
  have hlt := Int.lt_floor_add_one x
  rw [abs_le]
  obtain ⟨he, hle⟩ | ⟨he, hle⟩ := nearestEven_cases x
  · rw [he]
    constructor <;> linarith
  · rw [he]
    push_cast
    constructor <;> linarith

theorem nearestEven_intCast (n : ℤ) : nearestEven (n : ℚ) = n := by
  rw [nearestEven, Int.floor_intCast, sub_self, if_pos (Or.inl (by norm_num))]

theorem nearestEven_mono {x y : ℚ} (hxy : x ≤ y) : nearestEven x ≤ nearestEven y := by
  have hfloor := Int.floor_mono hxy
  rcases hfloor.eq_or_lt with heq | hlt
  · -- within one unit the fraction decides, and rounding up is decided by the larger one
    unfold nearestEven
    rw [← heq]
    split_ifs with hx hy hy
    · exact le_rfl
    · omega
    · rcases hy with hy | hy
      · exact absurd (Or.inl (by linarith)) hx
      · exact absurd ((lt_or_eq_of_le (by linarith)).imp_right fun h => ⟨h, hy.2⟩) hx
    · exact le_rfl
  · have hx : nearestEven x ≤ ⌊x⌋ + 1 := by
      obtain ⟨he, -⟩ | ⟨he, -⟩ := nearestEven_cases x <;> omega
    have hy : ⌊y⌋ ≤ nearestEven y := by
      obtain ⟨he, -⟩ | ⟨he, -⟩ := nearestEven_cases y <;> omega
    omega

theorem floor_neg_of_ne {x : ℚ} (h : (⌊x⌋ : ℚ) ≠ x) : ⌊-x⌋ = -⌊x⌋ - 1 := by
  have hle := Int.floor_le x
  have hlt := Int.lt_floor_add_one x
  rw [Int.floor_eq_iff]
  push_cast
  exact ⟨by linarith, by linarith [lt_of_le_of_ne hle h]⟩

theorem nearestEven_neg (x : ℚ) : nearestEven (-x) = -nearestEven x := by
  by_cases hint : (⌊x⌋ : ℚ) = x
  · rw [← hint, ← Int.cast_neg, nearestEven_intCast, nearestEven_intCast]
  · have hneg := floor_neg_of_ne hint
    have hle := Int.floor_le x
    have hcast : ((⌊-x⌋ : ℤ) : ℚ) = -⌊x⌋ - 1 := by
      rw [hneg]
      push_cast
      ring
    unfold nearestEven
    rw [hcast, hneg]
    rcases lt_trichotomy (x - ⌊x⌋) (1 / 2) with hlt | heq | hgt
    · rw [if_neg, if_pos (Or.inl hlt)]
      · ring
      · rw [not_or, not_lt, not_and]
        exact ⟨by linarith, fun h => by linarith⟩
    · have htie : -x - (-(⌊x⌋ : ℚ) - 1) = 1 / 2 := by linarith
      rw [htie, heq]
      simp only [lt_irrefl, false_or, true_and]
      split_ifs <;> omega
    · rw [if_pos (Or.inl (by linarith)), if_neg]
      · ring
      · rw [not_or, not_lt, not_and]
        exact ⟨hgt.le, fun h => by linarith⟩

theorem lastPlace_ge (x : ℚ) : -1074 ≤ lastPlace x := le_max_right _ _

theorem two_zpow_pos (k : ℤ) : (0 : ℚ) < 2 ^ k := zpow_pos two_pos k

/-- A number has 53 bits above its last place. -/
theorem abs_lt_of_lastPlace (x : ℚ) : |x| < 2 ^ (lastPlace x + 53) := by
  have hlog := Int.lt_zpow_succ_log_self one_lt_two |x|
  rw [Nat.cast_ofNat] at hlog
  refine hlog.trans_le (zpow_le_zpow_right₀ one_le_two ?_)
  have hle : Int.log 2 |x| - 52 ≤ lastPlace x := le_max_left _ _
  omega

/-- Above 2^-1022 the last place is the one of the 53rd bit. -/
theorem zpow_lastPlace_le {x : ℚ} (h : 2 ^ (-1022 : ℤ) ≤ |x|) :
    (2 : ℚ) ^ (lastPlace x + 52) ≤ |x| := by
  have hpos : 0 < |x| := (two_zpow_pos _).trans_le h
  have hlog : -1022 ≤ Int.log 2 |x| := by
    rw [← Int.zpow_le_iff_le_log one_lt_two hpos]
    simpa using h
  have hplace : lastPlace x + 52 = Int.log 2 |x| := by
    rw [lastPlace]
    omega
  have hself := Int.zpow_log_le_self one_lt_two hpos
  rw [Nat.cast_ofNat] at hself
  rwa [hplace]

theorem lastPlace_mono {x y : ℚ} (hx : 0 < x) (hxy : x ≤ y) : lastPlace x ≤ lastPlace y := by
  have hlog := Int.log_mono_right (b := 2) (abs_pos.mpr hx.ne')
    (abs_le_abs_of_nonneg hx.le hxy)
  unfold lastPlace
  omega

/-- Rounding moves a number by half of its last place at most. -/
theorem abs_round_sub_le (x : ℚ) : |round x - x| ≤ 2 ^ lastPlace x / 2 := by
  have hpos := two_zpow_pos (lastPlace x)
  have hsub : round x - x =
      ((nearestEven (x / 2 ^ lastPlace x) : ℚ) - x / 2 ^ lastPlace x) * 2 ^ lastPlace x := by
    rw [round, sub_mul, div_mul_cancel₀ _ hpos.ne']
  rw [hsub, abs_mul, abs_of_pos hpos]
  have herror := mul_le_mul_of_nonneg_right (abs_nearestEven_sub_le (x / 2 ^ lastPlace x)) hpos.le
  linarith

/-- The relative error of rounding. -/
theorem abs_round_sub_le_mul {x : ℚ} (h : 2 ^ (-1022 : ℤ) ≤ |x|) :
    |round x - x| ≤ |x| / 2 ^ 53 := by
  have herror := abs_round_sub_le x
  have hplace := zpow_lastPlace_le h
  rw [zpow_add₀ two_ne_zero] at hplace
  have hsize : (2 : ℚ) ^ lastPlace x * 2 ^ 52 ≤ |x| := by exact_mod_cast hplace
  rw [le_div_iff₀ (by positivity)]
  linarith

/-- A multiple of the last place is not moved. -/
theorem round_of_eq_mul {x : ℚ} {n : ℤ} (h : x = n * 2 ^ lastPlace x) : round x = x := by
  have hpos := two_zpow_pos (lastPlace x)
  have hquot : x / 2 ^ lastPlace x = n := by
    rw [div_eq_iff hpos.ne']
    exact h
  rw [round, hquot, nearestEven_intCast, ← h]

theorem round_of_abs_lt {x : ℚ} {m k : ℤ} (hx : x = m * 2 ^ k) (hm : |m| < 2 ^ 53)
    (hk : -1074 ≤ k) : round x = x := by
  rcases eq_or_ne x 0 with rfl | hne
  · exact round_of_eq_mul (n := 0) (by simp)
  · have habs : |x| < 2 ^ (53 + k) := by
      have hm' : (|(m : ℚ)|) < 2 ^ (53 : ℤ) := by exact_mod_cast hm
      rw [hx, abs_mul, abs_of_pos (two_zpow_pos k), zpow_add₀ two_ne_zero]
      exact mul_lt_mul_of_pos_right hm' (two_zpow_pos k)
    have hlog : Int.log 2 |x| < 53 + k := by
      rw [← Int.lt_zpow_iff_log_lt one_lt_two (abs_pos.mpr hne)]
      simpa using habs
    have hplace : lastPlace x ≤ k := by
      rw [lastPlace]
      omega
    obtain ⟨d, hd⟩ := Int.eq_ofNat_of_zero_le (Int.sub_nonneg.mpr hplace)
    refine round_of_eq_mul (n := m * 2 ^ d) ?_
    have hsplit : (2 : ℚ) ^ k = 2 ^ d * 2 ^ lastPlace x := by
      rw [← zpow_natCast, ← zpow_add₀ two_ne_zero]
      congr 1
      omega
    push_cast
    rw [mul_assoc, ← hsplit]
    exact hx

/-- What has 53 significant bits is a double. -/
theorem round_of_eq {x : ℚ} {m k : ℤ} (hx : x = m * 2 ^ k) (hm : |m| ≤ 2 ^ 53)
    (hk : -1074 ≤ k) : round x = x := by
  rcases hm.lt_or_eq with hlt | heq
  · exact round_of_abs_lt hx hlt hk
  · obtain ⟨j, hj⟩ : ∃ j : ℤ, m = 2 * j := by
      rcases (abs_eq (by norm_num)).mp heq with h | h
      · exact ⟨2 ^ 52, h⟩
      · exact ⟨-2 ^ 52, h⟩
    refine round_of_abs_lt (m := j) (k := k + 1) ?_ ?_ (by omega)
    · rw [hx, hj, zpow_add₀ two_ne_zero]
      push_cast
      ring
    · have htwo : |(2 : ℤ)| = 2 := rfl
      rw [hj, abs_mul, htwo] at heq
      omega

theorem round_intCast {n : ℤ} (h : |n| ≤ 2 ^ 53) : round (n : ℚ) = n :=
  round_of_eq (k := 0) (by simp) h (by decide)

theorem round_zero : round 0 = 0 := by
  simpa using round_intCast (n := 0) (by decide)

theorem round_two_zpow {k : ℤ} (h : -1074 ≤ k) : round ((2 : ℚ) ^ k) = 2 ^ k :=
  round_of_eq (m := 1) (by simp) (by decide) h

theorem abs_nearestEven_le {x : ℚ} {n : ℤ} (h : |x| ≤ n) : |nearestEven x| ≤ n := by
  rw [abs_le] at h ⊢
  have hlow := nearestEven_mono h.1
  have hhigh := nearestEven_mono h.2
  rw [nearestEven_intCast] at hhigh
  rw [← Int.cast_neg, nearestEven_intCast] at hlow
  exact ⟨hlow, hhigh⟩

theorem abs_nearestEven_div_le (x : ℚ) : |nearestEven (x / 2 ^ lastPlace x)| ≤ 2 ^ 53 := by
  refine abs_nearestEven_le ?_
  have hlt := abs_lt_of_lastPlace x
  rw [abs_div, abs_of_pos (two_zpow_pos _), div_le_iff₀ (two_zpow_pos _)]
  rw [zpow_add₀ two_ne_zero, mul_comm] at hlt
  exact_mod_cast hlt.le

/-- What `round` gives is a double. -/
theorem round_round (x : ℚ) : round (round x) = round x :=
  round_of_eq rfl (abs_nearestEven_div_le x) (lastPlace_ge x)

theorem round_neg (x : ℚ) : round (-x) = -round x := by
  have hplace : lastPlace (-x) = lastPlace x := by rw [lastPlace, lastPlace, abs_neg]
  rw [round, round, hplace, neg_div, nearestEven_neg]
  push_cast
  ring

theorem round_nonneg {x : ℚ} (h : 0 ≤ x) : 0 ≤ round x := by
  have hquot : 0 ≤ x / 2 ^ lastPlace x := div_nonneg h (two_zpow_pos _).le
  have hnear := nearestEven_mono hquot
  have hzero : nearestEven 0 = 0 := by simpa using nearestEven_intCast 0
  rw [hzero] at hnear
  exact mul_nonneg (by exact_mod_cast hnear) (two_zpow_pos _).le

theorem round_le_of_pos {x y : ℚ} (hx : 0 < x) (hxy : x ≤ y) : round x ≤ round y := by
  have hy := hx.trans_le hxy
  rcases (lastPlace_mono hx hxy).eq_or_lt with heq | hlt
  · rw [round, round, heq]
    have hquot : x / 2 ^ lastPlace y ≤ y / 2 ^ lastPlace y :=
      div_le_div_of_nonneg_right hxy (two_zpow_pos _).le
    have hnear : ((nearestEven (x / 2 ^ lastPlace y) : ℤ) : ℚ) ≤
        (nearestEven (y / 2 ^ lastPlace y) : ℤ) := by
      exact_mod_cast nearestEven_mono hquot
    exact mul_le_mul_of_nonneg_right hnear (two_zpow_pos _).le
  · -- between the two lies a power of two that neither passes
    have hbelow : round x ≤ 2 ^ (lastPlace x + 53) := by
      have hnear : ((nearestEven (x / 2 ^ lastPlace x) : ℤ) : ℚ) ≤ 2 ^ (53 : ℕ) := by
        exact_mod_cast (le_abs_self _).trans (abs_nearestEven_div_le x)
      rw [zpow_add₀ two_ne_zero, mul_comm, round]
      exact mul_le_mul_of_nonneg_right (by exact_mod_cast hnear) (two_zpow_pos _).le
    have hplace : lastPlace y = Int.log 2 |y| - 52 := by
      have hge := lastPlace_ge x
      unfold lastPlace at hlt hge ⊢
      omega
    have habove : 2 ^ (lastPlace y + 52) ≤ round y := by
      have hself : (2 : ℚ) ^ (lastPlace y + 52) ≤ y := by
        have hlog := Int.zpow_log_le_self one_lt_two (abs_pos.mpr hy.ne')
        rw [Nat.cast_ofNat, abs_of_pos hy] at hlog
        rw [hplace, abs_of_pos hy, sub_add_cancel]
        exact hlog
      have hquot : ((2 ^ 52 : ℤ) : ℚ) ≤ y / 2 ^ lastPlace y := by
        rw [le_div_iff₀ (two_zpow_pos _)]
        rw [zpow_add₀ two_ne_zero, mul_comm] at hself
        exact_mod_cast hself
      have hnear := nearestEven_mono hquot
      rw [nearestEven_intCast] at hnear
      have hcast : (2 : ℚ) ^ (52 : ℕ) ≤ (nearestEven (y / 2 ^ lastPlace y) : ℤ) := by
        exact_mod_cast hnear
      rw [zpow_add₀ two_ne_zero, mul_comm, round]
      exact mul_le_mul_of_nonneg_right (by exact_mod_cast hcast) (two_zpow_pos _).le
    refine hbelow.trans (le_trans ?_ habove)
    exact zpow_le_zpow_right₀ one_le_two (by omega)

theorem round_mono : Monotone round := by
  intro x y hxy
  rcases lt_or_ge 0 x with hx | hx
  · exact round_le_of_pos hx hxy
  · have hneg : round x ≤ 0 := by
      have h := round_nonneg (neg_nonneg.mpr hx)
      rw [round_neg] at h
      linarith
    rcases lt_or_ge y 0 with hy | hy
    · have h := round_le_of_pos (neg_pos.mpr hy) (neg_le_neg hxy)
      rw [round_neg, round_neg] at h
      linarith
    · exact hneg.trans (round_nonneg hy)

end Binary64

/-- The finite doubles; each operation rounds its exact result. -/
structure Double where
  val : ℚ
  rounded : Binary64.round val = val

namespace Double

open Binary64

def ofRat (x : ℚ) : Double := ⟨Binary64.round x, round_round x⟩

instance : Zero Double := ⟨⟨0, round_zero⟩⟩

instance : Add Double := ⟨fun a b => ofRat (a.val + b.val)⟩

instance : Sub Double := ⟨fun a b => ofRat (a.val - b.val)⟩

instance : Mul Double := ⟨fun a b => ofRat (a.val * b.val)⟩

instance : NatCast Double := ⟨fun n => ofRat n⟩

instance : IntCast Double := ⟨fun n => ofRat n⟩

@[simp] theorem zero_val : (0 : Double).val = 0 := rfl

theorem add_val (a b : Double) : (a + b).val = Binary64.round (a.val + b.val) := rfl

theorem intCast_val (n : ℤ) : ((n : ℤ) : Double).val = Binary64.round n := rfl

/-- Whole numbers add up exactly as long as their sum does not pass 2^53. -/
theorem add_intCast_val {a : Double} {m n : ℤ} (ha : a.val = m) (hm : 0 ≤ m) (hn : 0 ≤ n)
    (hsum : m + n ≤ 2 ^ 53) : (a + (n : Double)).val = (m + n : ℤ) := by
  have hn' : |n| ≤ 2 ^ 53 := by
    rw [abs_of_nonneg hn]
    omega
  have hsum' : |m + n| ≤ 2 ^ 53 := by
    rw [abs_of_nonneg (by omega)]
    exact hsum
  rw [add_val, intCast_val, ha, round_intCast hn', ← Int.cast_add, round_intCast hsum']

end Double
end SmartQuant
