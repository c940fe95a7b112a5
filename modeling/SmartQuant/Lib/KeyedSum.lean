import Mathlib.Algebra.BigOperators.Group.Finset.Basic
import Mathlib.Algebra.Order.BigOperators.Group.List
import Mathlib.Algebra.Order.Group.Int
import Mathlib.Algebra.Ring.Defs
import Mathlib.Data.List.Perm.Basic
import Std.Data.ExtTreeMap

/-!
# Sums over lists and over the values of a finite map

`total m f` adds `f` over the values of a finite map. Rewriting one key changes
the sum by what the old and the new value under that key contribute, whatever
the rest of the map holds.
-/
namespace SmartQuant.KeyedSum

section List

variable {α β M R : Type*}

theorem sum_filterMap [AddMonoid M] (f : β → M) (g : α → Option β) (l : List α) :
    ((l.filterMap g).map f).sum = (l.map fun a => (g a).elim 0 f).sum := by
  induction l with
  | nil => rfl
  | cons a l ih =>
    rw [List.map_cons, List.sum_cons, ← ih]
    cases h : g a with
    | none => rw [List.filterMap_cons_none h, Option.elim_none, zero_add]
    | some b => rw [List.filterMap_cons_some h, List.map_cons, List.sum_cons, Option.elim_some]

theorem natCast_countP [Semiring R] (p : α → Bool) (l : List α) :
    ((l.countP p : ℕ) : R) = (l.map fun a => if p a then 1 else 0).sum := by
  induction l with
  | nil => simp
  | cons a l ih =>
    rw [List.countP_cons, Nat.cast_add, ih, List.map_cons, List.sum_cons, add_comm]
    split <;> simp

end List

open Std

variable {K V M : Type*} {cmp : K → K → Ordering} [TransCmp cmp] [LawfulEqCmp cmp]
variable [AddCommMonoid M]

/-- The sum of `f` over the values of `m`. -/
def total (m : ExtTreeMap K V cmp) (f : V → M) : M := (m.toList.map fun kv => f kv.2).sum

omit [LawfulEqCmp cmp] in
theorem toList_nodup (m : ExtTreeMap K V cmp) : m.toList.Nodup := by
  apply m.distinct_keys_toList.imp
  rintro a b hab rfl
  exact hab ReflCmp.compare_self

omit [LawfulEqCmp cmp] in
@[simp] theorem total_empty (f : V → M) : total (∅ : ExtTreeMap K V cmp) f = 0 := by
  rw [total, ExtTreeMap.toList_eq_nil_iff.mpr rfl, List.map_nil, List.sum_nil]

theorem toList_insert_perm (m : ExtTreeMap K V cmp) (k : K) (v : V) :
    (m.insert k v).toList.Perm ((k, v) :: (m.erase k).toList) := by
  have hk : (k, v) ∉ (m.erase k).toList := by
    rw [ExtTreeMap.mem_toList_iff_getElem?_eq_some]
    simp
  refine (List.perm_ext_iff_of_nodup (toList_nodup _)
    (List.nodup_cons.mpr ⟨hk, toList_nodup _⟩)).mpr ?_
  rintro ⟨a, b⟩
  rw [List.mem_cons, ExtTreeMap.mem_toList_iff_getElem?_eq_some,
    ExtTreeMap.mem_toList_iff_getElem?_eq_some, ExtTreeMap.getElem?_insert,
    ExtTreeMap.getElem?_erase]
  by_cases h : k = a
  · subst h
    simp [ReflCmp.compare_self, eq_comm]
  · simp [h, Ne.symm h]

theorem total_insert (m : ExtTreeMap K V cmp) (k : K) (v : V) (f : V → M) :
    total (m.insert k v) f = f v + total (m.erase k) f := by
  unfold total
  rw [((toList_insert_perm m k v).map _).sum_eq, List.map_cons, List.sum_cons]

/-- Erasing a key takes away exactly what its value contributed. -/
theorem total_erase_add (m : ExtTreeMap K V cmp) (k : K) (f : V → M) :
    (m[k]?.elim 0 f) + total (m.erase k) f = total m f := by
  cases hk : m[k]? with
  | none =>
    have he : m.erase k = m := by
      ext a b
      rw [ExtTreeMap.getElem?_erase]
      by_cases h : k = a
      · subst h
        simp [hk]
      · simp [h]
    rw [he, Option.elim_none, zero_add]
  | some v =>
    have he : (m.erase k).insert k v = m := by
      ext a b
      rw [ExtTreeMap.getElem?_insert, ExtTreeMap.getElem?_erase]
      by_cases h : k = a
      · subst h
        simp [hk]
      · simp [h]
    have h := total_insert (m.erase k) k v f
    rw [he] at h
    have hee : (m.erase k).erase k = m.erase k := by
      ext a b
      simp only [ExtTreeMap.getElem?_erase]
      split <;> rfl
    rw [hee] at h
    exact h.symm

theorem le_total {m : ExtTreeMap K V cmp} {f : V → ℤ}
    (hf : ∀ (k : K) (v : V), m[k]? = some v → 0 ≤ f v)
    {k : K} {v : V} (hk : m[k]? = some v) : f v ≤ total m f := by
  refine List.single_le_sum ?_ _ (List.mem_map.mpr ⟨(k, v), ?_, rfl⟩)
  · intro x hx
    obtain ⟨⟨a, b⟩, hab, rfl⟩ := List.mem_map.mp hx
    exact hf a b (ExtTreeMap.mem_toList_iff_getElem?_eq_some.mp hab)
  · exact ExtTreeMap.mem_toList_iff_getElem?_eq_some.mpr hk

theorem total_eq_zero {m : ExtTreeMap K V cmp} {f : V → M}
    (hf : ∀ (k : K) (v : V), m[k]? = some v → f v = 0) : total m f = 0 := by
  apply List.sum_eq_zero
  intro x hx
  obtain ⟨⟨a, b⟩, hab, rfl⟩ := List.mem_map.mp hx
  exact hf a b (ExtTreeMap.mem_toList_iff_getElem?_eq_some.mp hab)

/-- A total over the map is a sum over any set that has all its keys. -/
theorem total_eq_sum [DecidableEq K] {m : ExtTreeMap K V cmp} {s : Finset K}
    (h : ∀ k ∈ m, k ∈ s) (f : V → M) : total m f = ∑ k ∈ s, m[k]?.elim 0 f := by
  induction s using Finset.induction generalizing m with
  | empty =>
    rw [Finset.sum_empty]
    apply total_eq_zero
    intro k v hk
    have hmem : k ∈ m := by
      rw [ExtTreeMap.mem_iff_isSome_getElem?, hk]
      rfl
    exact absurd (h k hmem) (Finset.notMem_empty k)
  | insert k s hk ih =>
    have herase : ∀ j ∈ m.erase k, j ∈ s := by
      intro j hj
      have hne : j ≠ k := by
        rintro rfl
        simp [ExtTreeMap.mem_erase] at hj
      exact Finset.mem_of_mem_insert_of_ne (h j (ExtTreeMap.mem_of_mem_erase hj)) hne
    have hother : ∀ j ∈ s, (m.erase k)[j]?.elim 0 f = m[j]?.elim 0 f := by
      intro j hj
      have hne : k ≠ j := by
        rintro rfl
        exact hk hj
      rw [ExtTreeMap.getElem?_erase, if_neg (by simpa using hne)]
    rw [Finset.sum_insert hk, ← total_erase_add m k f, ih herase, Finset.sum_congr rfl hother]

end SmartQuant.KeyedSum
