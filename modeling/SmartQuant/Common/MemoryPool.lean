import Mathlib.Data.Nat.Notation
import Mathlib.Logic.Function.Basic

/-!
# The slab memory pool

A `Slot*` is the index of its slot, `nullptr` is `none`. The free list runs through
the slots themselves: a slot holds either a `next` pointer or the bytes of an
object, and its user may leave any bytes there. The invariant is that the free list
and the pointers handed out share the slots of the pool between them.
-/
namespace SmartQuant

/-- The union `Slot`, with the member last written. -/
inductive Slot (T : Type*) where
  | next (p : Option ℕ)
  | storage (bytes : T)

/-- Reading `s->next`. The bytes of an object read as some pointer or other. -/
def Slot.readNext {T : Type*} (punned : T → Option ℕ) : Slot T → Option ℕ
  | .next p => p
  | .storage bytes => punned bytes

structure MemoryPool (T : Type*) where
  slots : ℕ → Slot T
  freeHead : Option ℕ := none
  freeCount : ℕ := 0

namespace MemoryPool

variable {T : Type*}

/-- The loop of the constructor after `n` rounds. -/
def linked (uninit : ℕ → Slot T) : ℕ → ℕ → Slot T
  | 0 => uninit
  | i + 1 => Function.update (linked uninit i) i (.next (some (i + 1)))

/-- The constructor, on storage with unknown contents. -/
def make (N : ℕ) (uninit : ℕ → Slot T) : MemoryPool T where
  slots := Function.update (linked uninit (N - 1)) (N - 1) (.next none)
  freeHead := some 0
  freeCount := N

section Calls

variable (punned : T → Option ℕ)

/-- `s->next` in the slots of this pool. -/
def nextOf (pool : MemoryPool T) (s : ℕ) : Option ℕ := Slot.readNext punned (pool.slots s)

def allocRaw (pool : MemoryPool T) : MemoryPool T × Option ℕ :=
  match pool.freeHead with
  | none => (pool, none)
  | some s =>
    ({ pool with freeHead := pool.nextOf punned s, freeCount := pool.freeCount - 1 }, some s)

/-- As `allocRaw`, with a `T{}` constructed in the slot. -/
def alloc [Inhabited T] (pool : MemoryPool T) : MemoryPool T × Option ℕ :=
  match pool.freeHead with
  | none => (pool, none)
  | some s =>
    ({ pool with
        slots := Function.update pool.slots s (.storage default)
        freeHead := pool.nextOf punned s
        freeCount := pool.freeCount - 1 }, some s)

/-- What `~T` leaves in the slot is overwritten. -/
def free (pool : MemoryPool T) : Option ℕ → MemoryPool T
  | none => pool
  | some s =>
    { pool with
      slots := Function.update pool.slots s (.next pool.freeHead)
      freeHead := some s
      freeCount := pool.freeCount + 1 }

/-- The user of an object writes to it. -/
def write (pool : MemoryPool T) (s : ℕ) (bytes : T) : MemoryPool T :=
  { pool with slots := Function.update pool.slots s (.storage bytes) }

end Calls

/-- What the users of a pool do. -/
inductive PoolCall (T : Type*) where
  | alloc
  | allocRaw
  | free (p : Option ℕ)
  | write (s : ℕ) (bytes : T)

/-- A pool with the pointers its users hold: returned by `alloc` or `alloc_raw` and not yet
given back. -/
structure PoolUse (T : Type*) where
  pool : MemoryPool T
  outstanding : List ℕ := []

namespace PoolUse

variable [Inhabited T] (punned : T → Option ℕ)

def step (u : PoolUse T) : PoolCall T → PoolUse T
  | .alloc => ⟨(u.pool.alloc punned).1, (u.pool.alloc punned).2.toList ++ u.outstanding⟩
  | .allocRaw => ⟨(u.pool.allocRaw punned).1, (u.pool.allocRaw punned).2.toList ++ u.outstanding⟩
  | .free p => ⟨u.pool.free p, p.elim u.outstanding u.outstanding.erase⟩
  | .write s bytes => ⟨u.pool.write s bytes, u.outstanding⟩

/-- `free` is given `nullptr` or a pointer outstanding, and users write to what they hold. -/
def Proper (u : PoolUse T) : PoolCall T → Prop
  | .alloc | .allocRaw | .free none => True
  | .free (some s) | .write s _ => s ∈ u.outstanding

instance (u : PoolUse T) : (call : PoolCall T) → Decidable (Proper u call)
  | .alloc | .allocRaw | .free none => inferInstanceAs (Decidable True)
  | .free (some s) | .write s _ => inferInstanceAs (Decidable (s ∈ u.outstanding))

def fresh (N : ℕ) (uninit : ℕ → Slot T) : PoolUse T := { pool := make N uninit }

end PoolUse
end MemoryPool
end SmartQuant
