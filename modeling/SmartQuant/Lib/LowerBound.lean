import Mathlib.Order.Nat

/-!
# Binary search for a lower bound

`lowerBound` halves a range as `std::lower_bound` does. On a list whose elements below
the bound all come first it finds the first element that is not below.
-/
namespace SmartQuant.LowerBound

variable {α : Type*} (below : α → Bool) (xs : List α)

/-- Halve the range of `len` places from `first` on until it is empty. -/
def search : ℕ → ℕ → ℕ → ℕ
  | 0, first, _ => first
  | fuel + 1, first, len =>
    if len = 0 then first
    else
      let half := len / 2
      if (xs[first + half]?).any below then search fuel (first + half + 1) (len - half - 1)
      else search fuel first half

/-- The element `std::lower_bound` points to; `none` is `end()`. -/
def lowerBound : Option α := xs[search below xs xs.length 0 xs.length]?

variable {below xs}

/-- The search ends at any place it starts around and that parts the list. -/
theorem search_eq {k : ℕ} (hbelow : ∀ i < xs.length, (xs[i]?).any below = decide (i < k)) :
    ∀ {fuel first len : ℕ}, len ≤ fuel → first + len ≤ xs.length → first ≤ k →
      k ≤ first + len → search below xs fuel first len = k := by
  intro fuel
  induction fuel with
  | zero =>
    intro first len hfuel _ hlo hhi
    rw [search]
    omega
  | succ fuel ih =>
    intro first len hfuel hlen hlo hhi
    rw [search]
    by_cases h0 : len = 0
    · rw [if_pos h0]
      omega
    · rw [if_neg h0]
      simp only
      rw [hbelow (first + len / 2) (by omega)]
      by_cases hmid : first + len / 2 < k
      · rw [if_pos (by simpa using hmid)]
        exact ih (by omega) (by omega) (by omega) (by omega)
      · rw [if_neg (by simpa using hmid)]
        exact ih (by omega) (by omega) (by omega) (by omega)

theorem lowerBound_eq_find? (h : xs.Pairwise fun a b => below b → below a) :
    lowerBound below xs = xs.find? fun x => !below x := by
  have hbelow : ∀ i < xs.length,
      (xs[i]?).any below = decide (i < xs.findIdx fun x => !below x) := by
    intro i hi
    rw [List.getElem?_eq_getElem hi, Option.any_some]
    by_cases hlt : i < xs.findIdx fun x => !below x
    · rw [decide_eq_true hlt]
      simpa using List.not_of_lt_findIdx hlt
    · rw [decide_eq_false hlt]
      have hk : (xs.findIdx fun x => !below x) < xs.length := by omega
      have hnot : below xs[xs.findIdx fun x => !below x] = false := by
        simpa using List.findIdx_getElem (w := hk)
      rcases Nat.lt_or_eq_of_le (Nat.le_of_not_lt hlt) with hki | rfl
      · by_contra hb
        have := List.pairwise_iff_getElem.mp h _ _ hk hi hki (by simpa using hb)
        rw [hnot] at this
        cases this
      · exact hnot
  have hle : (xs.findIdx fun x => !below x) ≤ xs.length := List.findIdx_le_length
  rw [lowerBound, search_eq hbelow (Nat.le_refl _) (by omega) (by omega) (by omega),
    List.find?_eq_getElem?_findIdx]

/-- A search sees no more of its list than what is below the bound. -/
theorem search_map {β : Type*} {f : β → α} {below' : β → Bool}
    (h : ∀ y, below (f y) = below' y) (ys : List β) (fuel first len : ℕ) :
    search below (ys.map f) fuel first len = search below' ys fuel first len := by
  have hany : ∀ i : ℕ, ((ys.map f)[i]?).any below = (ys[i]?).any below' := by
    intro i
    rw [List.getElem?_map, Option.any_map]
    exact congrArg (ys[i]?).any (funext h)
  induction fuel generalizing first len with
  | zero => rfl
  | succ fuel ih =>
    rw [search, search]
    simp only [ih, hany]

theorem lowerBound_map {β : Type*} {f : β → α} {below' : β → Bool}
    (h : ∀ y, below (f y) = below' y) (ys : List β) :
    lowerBound below (ys.map f) = (lowerBound below' ys).map f := by
  rw [lowerBound, lowerBound, search_map h, List.getElem?_map, List.length_map]

theorem filter_append_filter_not (h : xs.Pairwise fun a b => below b → below a) :
    xs.filter below ++ xs.filter (fun x => !below x) = xs := by
  induction xs with
  | nil => rfl
  | cons a xs ih =>
    obtain ⟨ha, hxs⟩ := List.pairwise_cons.mp h
    by_cases hb : below a
    · rw [List.filter_cons_of_pos hb, List.filter_cons_of_neg (by simpa using hb),
        List.cons_append, ih hxs]
    · have hnone : xs.filter below = [] :=
        List.filter_eq_nil_iff.mpr fun x hx hbx => hb (ha x hx hbx)
      rw [List.filter_cons_of_neg hb, List.filter_cons_of_pos (by simpa using hb), hnone,
        List.nil_append, ← ih hxs, hnone, List.nil_append]
      simp

end SmartQuant.LowerBound
