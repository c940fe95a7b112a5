import Mathlib.Algebra.Order.Ring.Nat
import Mathlib.Tactic.Ring
import Mathlib.Tactic.NormNum

/-!
# 64-bit arithmetic

Naturals stand for `uint64_t` values. Subtraction is the operation whose wrap the
modelled code meets in ordinary use: a difference of clock readings taken in the
wrong order is a number close to `2^64`, not a negative one. Of `int64_t` only the
wrap of a sum is needed.
-/
namespace SmartQuant.Word64

def size : ℕ := 2 ^ 64

/-- `a - b` on `uint64_t`. -/
def sub (a b : ℕ) : ℕ := (a + (size - b % size)) % size

/-- `a + b` on `uint64_t`. -/
def add (a b : ℕ) : ℕ := (a + b) % size

/-- `a * b` on `uint64_t`. -/
def mul (a b : ℕ) : ℕ := a * b % size

/-- A signed value cast to `uint64_t`. -/
def ofInt (x : ℤ) : ℕ := (x % (size : ℤ)).toNat

/-- What two's complement makes of an integer on `int64_t`. -/
def signed (x : ℤ) : ℤ := Int.bmod x size

theorem add_of_lt {a b : ℕ} (h : a + b < size) : add a b = a + b := Nat.mod_eq_of_lt h

/-- Sums of signed-range values do not wrap. -/
theorem add_of_small {a b : ℕ} (ha : a < 2 ^ 63) (hb : b ≤ 2 ^ 63) : add a b = a + b := by
  apply add_of_lt
  rw [size]
  omega

theorem sub_of_le {a b : ℕ} (h : b ≤ a) (ha : a < size) : sub a b = a - b := by
  rw [sub, Nat.mod_eq_of_lt (by omega : b < size)]
  unfold size at *
  omega

/-- A difference taken the wrong way round wraps. -/
theorem sub_of_lt {a b : ℕ} (h : a < b) (hb : b < size) : sub a b = size + a - b := by
  rw [sub, Nat.mod_eq_of_lt hb, Nat.mod_eq_of_lt (by omega)]
  omega

/-- A difference does not see a shift of both readings, whichever is the later. -/
theorem sub_add_add {a b d : ℕ} (ha : a + d < size) (hb : b + d < size) :
    sub (a + d) (b + d) = sub a b := by
  rcases Nat.lt_or_ge a b with hlt | hle
  · rw [sub_of_lt (by omega) hb, sub_of_lt hlt (by omega)]
    omega
  · rw [sub_of_le (by omega) ha, sub_of_le hle (by omega)]
    omega

/-- Nor does a comparison with a sum that stays in the word. -/
theorem lt_add_shift (t : ℕ) {a b d : ℕ} (h : a + d + b < size) :
    t + d < add (a + d) b ↔ t < add a b := by
  rw [add_of_lt h, add_of_lt (by omega)]
  omega

theorem ofInt_cast (x : ℤ) : ((ofInt x : ℕ) : ℤ) = x % (size : ℤ) :=
  Int.toNat_of_nonneg (Int.emod_nonneg x (by decide))

theorem add_add (a b c : ℕ) : add (add a b) c = add a (b + c) := by
  rw [add, add, add, Nat.mod_add_mod, Nat.add_assoc]

theorem add_lt (a b : ℕ) : add a b < size := Nat.mod_lt _ (by decide)

/-- Subtraction is that of the residues. -/
theorem sub_emod (a b : ℕ) : ((sub a b : ℕ) : ℤ) % (size : ℤ) = ((a : ℤ) - b) % (size : ℤ) := by
  have hb : b % size ≤ size := (Nat.mod_lt b (by decide)).le
  rw [sub, Int.natCast_mod, Int.emod_emod_of_dvd _ dvd_rfl, Nat.cast_add, Nat.cast_sub hb,
    Int.natCast_mod]
  rw [show (a : ℤ) + ((size : ℤ) - (b : ℤ) % (size : ℤ)) =
    ((a : ℤ) - (b : ℤ) % (size : ℤ)) + (size : ℤ) by ring, Int.add_emod_right, Int.sub_emod_emod]

theorem signed_of_mem {x : ℤ} (h : -2 ^ 63 ≤ x) (h' : x < 2 ^ 63) : signed x = x := by
  rw [signed, Int.bmod, size]
  omega

/-- The sum of two positive values that leaves the range comes out negative. -/
theorem signed_of_ge {x : ℤ} (h : 2 ^ 63 ≤ x) (h' : x < 2 ^ 64) : signed x = x - 2 ^ 64 := by
  rw [signed, Int.bmod, size]
  omega

end SmartQuant.Word64
