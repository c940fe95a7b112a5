import Mathlib.Algebra.Order.Floor.Semiring
import SmartQuant.Lib.Binary64
import SmartQuant.Lib.Word64

/-!
# The TSC clock

`calibrate` compares two readings of the wall clock with two of the counter, and `now_ns`
goes on from the first pair at the frequency found. The two divisions are those of
`double`: `rnd` rounds a rational to one. All that the clock needs of it is that it keeps the
order.
-/
namespace SmartQuant

/-- `struct timespec`, as `clock_gettime` fills it. -/
structure Timespec where
  tvSec : Int
  tvNsec : Nat
  deriving DecidableEq, Repr

/-- The Unix time of a reading in nanoseconds. -/
def Timespec.unixNs (t : Timespec) : Int := t.tvSec * 1000000000 + t.tvNsec

structure TscClock where
  tscFreqGhz : ℚ := 1
  epochTsc : Nat := 0
  epochWallNs : Nat := 0
  calibrated : Bool := false
  deriving DecidableEq

namespace TscClock

/-- Rounding to `double` keeps the order, and 0 and the powers of two as they are. -/
structure Rounding (rnd : ℚ → ℚ) : Prop where
  mono : Monotone rnd
  zero : rnd 0 = 0
  pow : ∀ k : ℤ, -64 ≤ k → k ≤ 64 → rnd (2 ^ k) = 2 ^ k

/-- The wall time between two readings; the nanoseconds may wrap. -/
def wallNs (t0 t1 : Timespec) : Nat :=
  Word64.add (Word64.mul (Word64.ofInt (t1.tvSec - t0.tvSec)) 1000000000)
    (Word64.sub t1.tvNsec t0.tvNsec)

/-- `calibrate` with the four readings it takes; `none` where it throws. -/
def calibrate (rnd : ℚ → ℚ) (t0 : Timespec) (tsc0 tsc1 : Nat) (t1 : Timespec) :
    Option TscClock :=
  if wallNs t0 t1 = 0 ∨ tsc1 ≤ tsc0 then none
  else some
    { tscFreqGhz := rnd (rnd ((Word64.sub tsc1 tsc0 : Nat) : ℚ) / rnd ((wallNs t0 t1 : Nat) : ℚ))
      epochTsc := tsc0
      epochWallNs := Word64.add (Word64.mul (Word64.ofInt t0.tvSec) 1000000000) t0.tvNsec
      calibrated := true }

/-- The nanoseconds since the epoch, before they are added to it. -/
def elapsedNs (rnd : ℚ → ℚ) (c : TscClock) (tsc : Nat) : Nat :=
  ⌊rnd (rnd ((Word64.sub tsc c.epochTsc : Nat) : ℚ) / c.tscFreqGhz)⌋₊

/-- `now_ns` at a reading of the counter. -/
def nowNs (rnd : ℚ → ℚ) (c : TscClock) (tsc : Nat) : Nat :=
  Word64.add c.epochWallNs (elapsedNs rnd c tsc)

/-- Seconds and nanoseconds add up to their sum, up to the wrap. -/
theorem nanoseconds_emod (sec : Int) {ns : Nat} {y : Int}
    (hns : (ns : ℤ) % (Word64.size : ℤ) = y % (Word64.size : ℤ)) :
    ((Word64.add (Word64.mul (Word64.ofInt sec) 1000000000) ns : Nat) : ℤ) %
      (Word64.size : ℤ) = (sec * 1000000000 + y) % (Word64.size : ℤ) := by
  have hsec : ((Word64.mul (Word64.ofInt sec) 1000000000 : Nat) : ℤ) % (Word64.size : ℤ) =
      (sec * 1000000000) % (Word64.size : ℤ) := by
    rw [Word64.mul, Int.natCast_mod, Int.emod_emod_of_dvd _ dvd_rfl, Nat.cast_mul,
      Word64.ofInt_cast, Int.mul_emod, Int.emod_emod_of_dvd _ dvd_rfl, ← Int.mul_emod]
    rfl
  rw [Word64.add, Int.natCast_mod, Int.emod_emod_of_dvd _ dvd_rfl, Nat.cast_add, Int.add_emod,
    hsec, hns, ← Int.add_emod]

/-- Though the nanoseconds of the later reading may be the fewer, the difference is exact. -/
theorem wallNs_eq {t0 t1 : Timespec} (hle : t0.unixNs ≤ t1.unixNs)
    (hlt : t1.unixNs - t0.unixNs < (Word64.size : ℤ)) :
    ((wallNs t0 t1 : Nat) : ℤ) = t1.unixNs - t0.unixNs := by
  have hmod := nanoseconds_emod (t1.tvSec - t0.tvSec) (Word64.sub_emod t1.tvNsec t0.tvNsec)
  have hsum : (t1.tvSec - t0.tvSec) * 1000000000 + ((t1.tvNsec : ℤ) - t0.tvNsec) =
      t1.unixNs - t0.unixNs := by
    rw [Timespec.unixNs, Timespec.unixNs]
    ring
  rw [← wallNs, hsum] at hmod
  have hword : ((wallNs t0 t1 : Nat) : ℤ) < (Word64.size : ℤ) := by
    exact_mod_cast Word64.add_lt _ _
  rwa [Int.emod_eq_of_lt (by omega) hword, Int.emod_eq_of_lt (by omega) hlt] at hmod

section Calibrated

variable {rnd : ℚ → ℚ} (hrnd : Rounding rnd)
include hrnd

theorem Rounding.one : rnd 1 = 1 := by
  have h := hrnd.pow 0 (by decide) (by decide)
  simpa using h

theorem Rounding.one_le {n : Nat} (h : 0 < n) : 1 ≤ rnd (n : ℚ) := by
  rw [← hrnd.one]
  exact hrnd.mono (by exact_mod_cast h)

/-- The frequency of two words is positive: their quotient is at least 2^-64. -/
theorem Rounding.freq_pos {ticks wall : Nat} (hticks : 0 < ticks) (hwall : 0 < wall)
    (hword : wall < Word64.size) : 0 < rnd (rnd (ticks : ℚ) / rnd (wall : ℚ)) := by
  have hsize : rnd (wall : ℚ) ≤ 2 ^ (64 : ℤ) := by
    rw [← hrnd.pow 64 (by decide) (by decide)]
    apply hrnd.mono
    have : (wall : ℚ) ≤ (Word64.size : ℚ) := by exact_mod_cast hword.le
    refine this.trans (le_of_eq ?_)
    norm_num [Word64.size]
  have hquotient : (2 : ℚ) ^ (-64 : ℤ) ≤ rnd (ticks : ℚ) / rnd (wall : ℚ) := by
    rw [le_div_iff₀ (lt_of_lt_of_le one_pos (hrnd.one_le hwall)), zpow_neg]
    have hmul : ((2 : ℚ) ^ (64 : ℤ))⁻¹ * rnd (wall : ℚ) ≤ 1 := by
      rw [inv_mul_le_iff₀ (by positivity), mul_one]
      exact hsize
    exact hmul.trans (hrnd.one_le hticks)
  have hle := hrnd.mono hquotient
  rw [hrnd.pow (-64) (by decide) (by decide)] at hle
  exact lt_of_lt_of_le (by positivity) hle

end Calibrated

section Reading

variable {rnd : ℚ → ℚ} {c : TscClock} {t0 t1 : Timespec} {tsc0 tsc1 : Nat}

theorem freq_pos_of_calibrate (hrnd : Rounding rnd) (htsc : tsc1 < Word64.size)
    (hcal : calibrate rnd t0 tsc0 tsc1 t1 = some c) : 0 < c.tscFreqGhz ∧ c.epochTsc = tsc0 := by
  rw [calibrate] at hcal
  split at hcal
  · cases hcal
  · rename_i hgood
    push Not at hgood
    cases hcal
    refine ⟨hrnd.freq_pos ?_ (Nat.pos_of_ne_zero hgood.1) (Word64.add_lt _ _), rfl⟩
    rw [Word64.sub_of_le hgood.2.le htsc]
    omega

/-- The clock does not go back while the counter does not. -/
theorem elapsedNs_mono (hrnd : Rounding rnd) (hfreq : 0 < c.tscFreqGhz) {a b : Nat}
    (hstart : c.epochTsc ≤ a) (hle : a ≤ b) (hword : b < Word64.size) :
    elapsedNs rnd c a ≤ elapsedNs rnd c b := by
  rw [elapsedNs, elapsedNs, Word64.sub_of_le hstart (hle.trans_lt hword),
    Word64.sub_of_le (hstart.trans hle) hword]
  apply Nat.floor_mono
  apply hrnd.mono
  have hticks : ((a - c.epochTsc : Nat) : ℚ) ≤ ((b - c.epochTsc : Nat) : ℚ) := by
    exact_mod_cast Nat.sub_le_sub_right hle _
  exact div_le_div_of_nonneg_right (hrnd.mono hticks) hfreq.le

theorem nowNs_mono (hrnd : Rounding rnd) (hfreq : 0 < c.tscFreqGhz) {a b : Nat}
    (hstart : c.epochTsc ≤ a) (hle : a ≤ b) (hword : b < Word64.size)
    (hfits : c.epochWallNs + elapsedNs rnd c b < Word64.size) :
    nowNs rnd c a ≤ nowNs rnd c b := by
  have hmono := elapsedNs_mono hrnd hfreq hstart hle hword
  rw [nowNs, nowNs, Word64.add_of_lt hfits, Word64.add_of_lt (by omega)]
  omega

theorem epochWallNs_of_calibrate (hpos : 0 ≤ t0.unixNs) (hword : t0.unixNs < (Word64.size : ℤ))
    (hcal : calibrate rnd t0 tsc0 tsc1 t1 = some c) : (c.epochWallNs : ℤ) = t0.unixNs := by
  have hlt := Word64.add_lt (Word64.mul (Word64.ofInt t0.tvSec) 1000000000) t0.tvNsec
  have hmod := nanoseconds_emod t0.tvSec (Eq.refl ((t0.tvNsec : ℤ) % (Word64.size : ℤ)))
  rw [← Timespec.unixNs] at hmod
  rw [calibrate] at hcal
  split at hcal
  · cases hcal
  · cases hcal
    rwa [Int.emod_eq_of_lt (by omega) (by exact_mod_cast hlt), Int.emod_eq_of_lt hpos hword] at hmod

theorem elapsedNs_epoch (hrnd : Rounding rnd) (htsc : c.epochTsc < Word64.size) :
    elapsedNs rnd c c.epochTsc = 0 := by
  rw [elapsedNs, Word64.sub_of_le le_rfl htsc, Nat.sub_self, Nat.cast_zero, hrnd.zero, zero_div,
    hrnd.zero, Nat.floor_zero]

end Reading

/-- What a calibrated clock promises: it starts at the wall clock's first reading and does not
go back while the counter does not, as long as its time is a word. -/
structure Keeps (rnd : ℚ → ℚ) (t0 : Timespec) (tsc0 : Nat) (c : TscClock) : Prop where
  starts : (nowNs rnd c tsc0 : ℤ) = t0.unixNs
  forward : ∀ a b, tsc0 ≤ a → a ≤ b → b < Word64.size →
    c.epochWallNs + elapsedNs rnd c b < Word64.size →
      t0.unixNs ≤ (nowNs rnd c a : ℤ) ∧ nowNs rnd c a ≤ nowNs rnd c b

/-- Whatever rounding does to the divisions: `calibrate` throws exactly when one of the two
clocks has not moved, and gives a clock that keeps its promise otherwise. -/
theorem calibrate_keeps {rnd : ℚ → ℚ} (hrnd : Rounding rnd) {t0 t1 : Timespec} {tsc0 tsc1 : Nat}
    (hpos : 0 ≤ t0.unixNs) (hle : t0.unixNs ≤ t1.unixNs) (hword : t1.unixNs < (Word64.size : ℤ))
    (htsc0 : tsc0 < Word64.size) (htsc : tsc1 < Word64.size) :
    (calibrate rnd t0 tsc0 tsc1 t1 = none ↔ t1.unixNs = t0.unixNs ∨ tsc1 ≤ tsc0) ∧
      ∀ c, calibrate rnd t0 tsc0 tsc1 t1 = some c → Keeps rnd t0 tsc0 c := by
  have hwall := wallNs_eq hle (by omega)
  constructor
  · rw [calibrate]
    by_cases hbad : wallNs t0 t1 = 0 ∨ tsc1 ≤ tsc0
    · rw [if_pos hbad]
      exact iff_of_true rfl (hbad.imp_left fun h => by omega)
    · rw [if_neg hbad]
      exact iff_of_false (by simp) fun h => hbad (h.imp_left fun h => by omega)
  · intro c hcal
    obtain ⟨hfreq, hepoch⟩ := freq_pos_of_calibrate hrnd htsc hcal
    have hstart := epochWallNs_of_calibrate hpos (by omega) hcal
    have hzero : elapsedNs rnd c tsc0 = 0 := by
      rw [← hepoch]
      exact elapsedNs_epoch hrnd (by omega)
    constructor
    · rw [nowNs, hzero, Word64.add_of_lt (by omega)]
      omega
    · intro a b ha hab hb hfits
      have hmono := nowNs_mono hrnd hfreq (by omega) hab hb hfits
      have helapsed := elapsedNs_mono hrnd hfreq (by omega) hab hb
      refine ⟨?_, hmono⟩
      rw [nowNs, Word64.add_of_lt (by omega)]
      omega

/-- The rounding of `double` is such a one. -/
theorem rounding_round : Rounding Binary64.round :=
  ⟨Binary64.round_mono, Binary64.round_zero,
    fun k hk _ => Binary64.round_two_zpow (by omega)⟩

/-- Twenty milliseconds at 3 GHz, across the end of a second. -/
theorem calibrate_keeps_twentyMs :
    (calibrate Binary64.round ⟨1700000000, 990000000⟩ 1000 60001000 ⟨1700000001, 10000000⟩ =
        none ↔
      (1700000001010000000 : Int) = 1700000000990000000 ∨ 60001000 ≤ 1000) ∧
      ∀ c, calibrate Binary64.round ⟨1700000000, 990000000⟩ 1000 60001000
          ⟨1700000001, 10000000⟩ = some c →
        Keeps Binary64.round ⟨1700000000, 990000000⟩ 1000 c :=
  calibrate_keeps rounding_round (by decide) (by decide) (by decide) (by decide) (by decide)

end TscClock
end SmartQuant
