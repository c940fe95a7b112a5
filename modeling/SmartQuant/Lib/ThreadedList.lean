import Mathlib.Data.List.Nodup
import Mathlib.Data.List.Infix

/-!
# Lists threaded through a store

`Threaded next h l` says that following the pointers of a store from the head `h`
visits the nodes `l` one after the other and then ends. The store determines the
list, the list visits no node twice, and only the cells of its nodes matter to it.
-/
namespace SmartQuant.ThreadedList

variable {ι : Type*} {next next' : ι → Option ι} {h : Option ι} {p : ι} {l l' : List ι}

def Threaded (next : ι → Option ι) : Option ι → List ι → Prop
  | h, [] => h = none
  | h, p :: l => h = some p ∧ Threaded next (next p) l

theorem threaded_nil : Threaded next h [] ↔ h = none := Iff.rfl

/-- Without a head there is nothing to visit. -/
theorem eq_nil_of_threaded (ht : Threaded next none l) : l = [] := by
  cases l with
  | nil => rfl
  | cons p l => exact absurd ht.1 (by simp)

/-- With one the list starts there, and goes on where its cell points to. -/
theorem exists_cons_of_threaded (ht : Threaded next (some p) l) :
    ∃ rest, l = p :: rest ∧ Threaded next (next p) rest := by
  cases l with
  | nil => exact absurd ht (by simp [threaded_nil])
  | cons q rest =>
    obtain ⟨hq, hrest⟩ := ht
    cases Option.some.inj hq
    exact ⟨rest, rfl, hrest⟩

theorem Threaded.unique (ht : Threaded next h l) (ht' : Threaded next h l') : l = l' := by
  induction l generalizing h l' with
  | nil =>
    rw [threaded_nil.mp ht] at ht'
    exact (eq_nil_of_threaded ht').symm
  | cons p l ih =>
    obtain ⟨rfl, ht⟩ := ht
    obtain ⟨rest, rfl, hrest⟩ := exists_cons_of_threaded ht'
    rw [ih ht hrest]

theorem Threaded.from_node {front : List ι} (ht : Threaded next h (front ++ p :: l)) :
    Threaded next (some p) (p :: l) := by
  induction front generalizing h with
  | nil => exact ⟨rfl, ht.2⟩
  | cons q front ih => exact ih ht.2

/-- A walk that ends never comes back to a node: from there it would start over. -/
theorem Threaded.nodup (ht : Threaded next h l) : l.Nodup := by
  induction l generalizing h with
  | nil => exact List.nodup_nil
  | cons p l ih =>
    refine List.nodup_cons.mpr ⟨fun hmem => ?_, ih ht.2⟩
    obtain ⟨front, back, rfl⟩ := List.append_of_mem hmem
    have hfirst : Threaded next (some p) (p :: (front ++ p :: back)) := ⟨rfl, ht.2⟩
    have hagain : Threaded next (some p) (p :: back) := Threaded.from_node ht.2
    have hlen := congrArg List.length (hfirst.unique hagain)
    simp only [List.length_cons, List.length_append] at hlen
    omega

/-- Cells outside the list may change. -/
theorem Threaded.congr (ht : Threaded next h l) (hcells : ∀ q ∈ l, next' q = next q) :
    Threaded next' h l := by
  induction l generalizing h with
  | nil => exact ht
  | cons p l ih =>
    refine ⟨ht.1, ?_⟩
    rw [hcells p List.mem_cons_self]
    exact ih ht.2 fun q hq => hcells q (List.mem_cons_of_mem p hq)

/-- A node whose cell points to the head becomes the head. -/
theorem Threaded.push (ht : Threaded next h l) (hp : next' p = h)
    (hcells : ∀ q ∈ l, next' q = next q) : Threaded next' (some p) (p :: l) := by
  refine ⟨rfl, ?_⟩
  rw [hp]
  exact ht.congr hcells

/-- A row of nodes, each pointing to its neighbour. -/
theorem threaded_range' {next : ℕ → Option ℕ} {k n : ℕ}
    (hlink : ∀ i, k ≤ i → i < k + n → next i = some (i + 1)) (hend : next (k + n) = none) :
    Threaded next (some k) (List.range' k (n + 1)) := by
  induction n generalizing k with
  | zero => exact ⟨rfl, hend⟩
  | succ n ih =>
    have hrest : Threaded next (some (k + 1)) (List.range' (k + 1) (n + 1)) := by
      apply ih
      · intro i hki hi
        exact hlink i (by omega) (by omega)
      · rw [← hend, Nat.add_right_comm, Nat.add_assoc]
    refine ⟨rfl, ?_⟩
    rw [hlink k le_rfl (by omega)]
    exact hrest

end SmartQuant.ThreadedList
