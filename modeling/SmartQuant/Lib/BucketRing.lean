import Mathlib.Order.Nat
import SmartQuant.Lib.Word64

/-!
# A ring of time buckets

Fixed-length time buckets in a ring of `size` slots, the newest at `head`.
`advance` opens the buckets between the head and a clock reading, but never more
than `cap` of them in one call. So the head reaches the clock exactly when the
gap spans at most `cap` buckets.
-/
namespace SmartQuant

/-- What was collected from a start time on. -/
structure Bucket (β : Type*) where
  tsNs : ℕ := 0
  val : β

structure BucketRing (β : Type*) where
  buckets : ℕ → Bucket β
  head : ℕ := 0
  count : ℕ := 0

namespace BucketRing

variable {β : Type*}

def empty (zero : β) : BucketRing β := { buckets := fun _ => { val := zero } }

def headBucket (r : BucketRing β) : Bucket β := r.buckets r.head

def setHead (r : BucketRing β) (b : Bucket β) : BucketRing β :=
  { r with buckets := fun i => if i = r.head then b else r.buckets i }

def modifyHead (r : BucketRing β) (f : β → β) : BucketRing β :=
  r.setHead { r.headBucket with val := f r.headBucket.val }

/-- Move the head one slot on and write a bucket there. -/
def push (size : ℕ) (r : BucketRing β) (b : Bucket β) : BucketRing β :=
  { r with
    head := (r.head + 1) % size
    count := if r.count < size then r.count + 1 else r.count }.setHead b

/-- Open the `n` empty buckets that follow the one starting at `start`. -/
def openBuckets (size len start : ℕ) (zero : β) (r : BucketRing β) : ℕ → BucketRing β
  | 0 => r
  | n + 1 => (openBuckets size len start zero r n).push size
      { tsNs := Word64.add start ((n + 1) * len), val := zero }

/-- Bring the head up to a clock reading, opening at most `cap` buckets. -/
def advance (size cap len : ℕ) (zero : β) (r : BucketRing β) (now : ℕ) : BucketRing β :=
  if r.count = 0 then { r with head := 0, count := 1 }.setHead { tsNs := now, val := zero }
  else
    let start := r.headBucket.tsNs
    if now < Word64.add start len then r
    else openBuckets size len start zero r (min (Word64.sub now start / len) cap)

def newestFirst (size : ℕ) (r : BucketRing β) : List (Bucket β) :=
  (List.range r.count).map fun i => r.buckets ((r.head + size - i) % size)

/-- The buckets from the head back to the first that starts before `cutoff`. -/
def since (size cutoff : ℕ) (r : BucketRing β) : List (Bucket β) :=
  (r.newestFirst size).takeWhile fun b => cutoff ≤ b.tsNs

def HeadCovers (len : ℕ) (r : BucketRing β) (now : ℕ) : Prop :=
  r.headBucket.tsNs ≤ now ∧ now < r.headBucket.tsNs + len

/-- At most `cap` buckets lie between the start of the head and a point of time. -/
def GapWithin (cap len : ℕ) (r : BucketRing β) (now : ℕ) : Prop :=
  r.count = 0 ∨ (now - r.headBucket.tsNs) / len ≤ cap

instance (len : ℕ) (r : BucketRing β) (now : ℕ) : Decidable (HeadCovers len r now) :=
  inferInstanceAs (Decidable (_ ∧ _))

instance (cap len : ℕ) (r : BucketRing β) (now : ℕ) : Decidable (GapWithin cap len r now) :=
  inferInstanceAs (Decidable (_ ∨ _))

@[simp] theorem setHead_headBucket (r : BucketRing β) (b : Bucket β) :
    (r.setHead b).headBucket = b := by
  simp [headBucket, setHead]

@[simp] theorem modifyHead_tsNs (r : BucketRing β) (f : β → β) :
    (r.modifyHead f).headBucket.tsNs = r.headBucket.tsNs := by
  simp [modifyHead]

@[simp] theorem modifyHead_val (r : BucketRing β) (f : β → β) :
    (r.modifyHead f).headBucket.val = f r.headBucket.val := by
  simp [modifyHead]

@[simp] theorem modifyHead_count (r : BucketRing β) (f : β → β) :
    (r.modifyHead f).count = r.count := rfl

theorem modifyHead_id (r : BucketRing β) : r.modifyHead id = r := by
  have hsame : (fun i => if i = r.head then r.buckets r.head else r.buckets i) = r.buckets := by
    funext i
    split
    · rename_i hi
      rw [hi]
    · rfl
  exact congrArg (fun buckets => { r with buckets }) hsame

@[simp] theorem push_headBucket (size : ℕ) (r : BucketRing β) (b : Bucket β) :
    (r.push size b).headBucket = b := setHead_headBucket _ _

@[simp] theorem push_head (size : ℕ) (r : BucketRing β) (b : Bucket β) :
    (r.push size b).head = (r.head + 1) % size := rfl

@[simp] theorem push_count (size : ℕ) (r : BucketRing β) (b : Bucket β) :
    (r.push size b).count = if r.count < size then r.count + 1 else r.count := rfl

theorem advance_of_started {size cap len : ℕ} {zero : β} {r : BucketRing β} (h : r.count ≠ 0)
    (now : ℕ) : advance size cap len zero r now =
      if now < Word64.add r.headBucket.tsNs len then r
      else openBuckets size len r.headBucket.tsNs zero r
        (min (Word64.sub now r.headBucket.tsNs / len) cap) := if_neg h

theorem openBuckets_tsNs (size len : ℕ) (zero : β) (r : BucketRing β) {n : ℕ}
    (h : r.headBucket.tsNs + n * len < Word64.size) :
    (openBuckets size len r.headBucket.tsNs zero r n).headBucket.tsNs =
      r.headBucket.tsNs + n * len := by
  cases n with
  | zero => simp [openBuckets]
  | succ n =>
    rw [openBuckets, push_headBucket]
    exact Word64.add_of_lt h

theorem advance_first {size cap len : ℕ} {zero : β} {r : BucketRing β} (h : r.count = 0)
    (now : ℕ) : (advance size cap len zero r now).headBucket.tsNs = now := by
  rw [advance, if_pos h, setHead_headBucket]

/-- The buckets a call opens end before the clock. -/
theorem opened_le (gap cap len : ℕ) : min (gap / len) cap * len ≤ gap :=
  (Nat.mul_le_mul_right len (Nat.min_le_left _ _)).trans (Nat.div_mul_le_self _ _)

theorem advance_tsNs {size cap len : ℕ} {zero : β} {r : BucketRing β} {now : ℕ}
    (h : r.count ≠ 0) (hle : r.headBucket.tsNs ≤ now) (hnow : now < Word64.size) :
    (advance size cap len zero r now).headBucket.tsNs =
      r.headBucket.tsNs + min ((now - r.headBucket.tsNs) / len) cap * len := by
  rw [advance_of_started h]
  split
  · rename_i hlt
    have hgap : now - r.headBucket.tsNs < len := by
      have := Nat.mod_le (r.headBucket.tsNs + len) Word64.size
      rw [Word64.add] at hlt
      omega
    rw [Nat.div_eq_of_lt hgap]
    simp
  · rw [Word64.sub_of_le hle hnow, openBuckets_tsNs]
    have hopened := opened_le (now - r.headBucket.tsNs) cap len
    omega

theorem advance_tsNs_le {size cap len : ℕ} {zero : β} {r : BucketRing β} {now : ℕ}
    (hle : r.count ≠ 0 → r.headBucket.tsNs ≤ now) (hnow : now < Word64.size) :
    (advance size cap len zero r now).headBucket.tsNs ≤ now := by
  by_cases h : r.count = 0
  · exact (advance_first h now).le
  · have hle := hle h
    rw [advance_tsNs h hle hnow]
    have hopened := opened_le (now - r.headBucket.tsNs) cap len
    omega

theorem count_le_openBuckets (size len start : ℕ) (zero : β) (r : BucketRing β) (n : ℕ) :
    r.count ≤ (openBuckets size len start zero r n).count := by
  induction n with
  | zero => exact le_rfl
  | succ n ih =>
    rw [openBuckets, push_count]
    split <;> omega

theorem count_le_advance (size cap len : ℕ) (zero : β) (r : BucketRing β) (now : ℕ) :
    r.count ≤ (advance size cap len zero r now).count := by
  by_cases h : r.count = 0
  · rw [h]
    exact Nat.zero_le _
  · rw [advance_of_started h]
    split
    · exact le_rfl
    · exact count_le_openBuckets ..

/-- A call leaves a ring in use. -/
theorem count_advance_pos (size cap len : ℕ) (zero : β) (r : BucketRing β) (now : ℕ) :
    0 < (advance size cap len zero r now).count := by
  by_cases h : r.count = 0
  · rw [advance, if_pos h]
    exact Nat.one_pos
  · exact (Nat.pos_of_ne_zero h).trans_le (count_le_advance ..)

/-- After a call the head covers the clock exactly when the gap was within `cap` buckets. -/
theorem headCovers_advance_iff {size cap len : ℕ} {zero : β} {r : BucketRing β} {now : ℕ}
    (hlen : 0 < len) (hle : r.count ≠ 0 → r.headBucket.tsNs ≤ now) (hnow : now < Word64.size) :
    HeadCovers len (advance size cap len zero r now) now ↔ GapWithin cap len r now := by
  rw [HeadCovers, GapWithin]
  by_cases h : r.count = 0
  · rw [advance_first h]
    exact iff_of_true ⟨le_refl _, by omega⟩ (Or.inl h)
  · have hle := hle h
    rw [advance_tsNs h hle hnow, or_iff_right h]
    have hdiv := Nat.div_mul_le_self (now - r.headBucket.tsNs) len
    have hmod := Nat.lt_div_mul_add (a := now - r.headBucket.tsNs) hlen
    by_cases hcap : (now - r.headBucket.tsNs) / len ≤ cap
    · rw [min_eq_left hcap]
      exact iff_of_true ⟨by omega, by omega⟩ hcap
    · rw [min_eq_right (by omega)]
      refine iff_of_false (fun hc => ?_) hcap
      have h1 : (cap + 1) * len ≤ (now - r.headBucket.tsNs) / len * len :=
        Nat.mul_le_mul_right len (by omega)
      rw [Nat.add_mul] at h1
      omega

section Values

variable {P : β → Prop} {r : BucketRing β}

theorem val_setHead (h : ∀ i, P (r.buckets i).val) {b : Bucket β} (hb : P b.val) (i : ℕ) :
    P ((r.setHead b).buckets i).val := by
  simp only [setHead]
  split
  · exact hb
  · exact h i

theorem val_push (h : ∀ i, P (r.buckets i).val) {b : Bucket β} (hb : P b.val) (size i : ℕ) :
    P ((r.push size b).buckets i).val :=
  val_setHead (r := { r with
    head := (r.head + 1) % size
    count := if r.count < size then r.count + 1 else r.count }) h hb i

theorem val_modifyHead {f : β → β} (h : ∀ i, P (r.buckets i).val) (hf : P (f r.headBucket.val))
    (i : ℕ) : P ((r.modifyHead f).buckets i).val :=
  val_setHead h (b := { r.headBucket with val := f r.headBucket.val }) hf i

/-- What holds of every bucket and of an empty one holds of every bucket later on. -/
theorem val_advance {size cap len : ℕ} {zero : β} (hzero : P zero)
    (h : ∀ i, P (r.buckets i).val) (now : ℕ) (i : ℕ) :
    P ((r.advance size cap len zero now).buckets i).val := by
  have hopen : ∀ start n i, P ((openBuckets size len start zero r n).buckets i).val := by
    intro start n
    induction n with
    | zero => exact h
    | succ n ih => exact val_push ih (b := { tsNs := _, val := zero }) hzero size
  by_cases hcount : r.count = 0
  · rw [advance, if_pos hcount]
    exact val_setHead (r := { r with head := 0, count := 1 }) h
      (b := { tsNs := now, val := zero }) hzero i
  · rw [advance_of_started hcount]
    split
    · exact h i
    · exact hopen _ _ i

end Values

end BucketRing
end SmartQuant
