import Mathlib.Data.List.Infix

/-!
# A bounded first-in-first-out queue, by its outcomes

Sequential use of a queue for at most `bound` items: each call has an outcome, and
`Accepts` says which histories of outcomes a queue can produce, and what it then
holds. An accepted history loses, duplicates and reorders nothing.
-/
namespace SmartQuant

/-- How a call ended; a push names its item, also where it was refused. -/
inductive QueueOutcome (α : Type*) where
  | pushed (x : α)
  | full (x : α)
  | popped (x : α)
  | empty
  deriving DecidableEq, Repr

namespace BoundedFifo

variable {α : Type*} {bound : ℕ}

/-- One call on a queue that holds at most `bound` items. -/
inductive Call (bound : ℕ) : List α → QueueOutcome α → List α → Prop where
  | pushed {q : List α} (x : α) (h : q.length < bound) : Call bound q (.pushed x) (q ++ [x])
  | full {q : List α} (x : α) (h : q.length = bound) : Call bound q (.full x) q
  | popped {q : List α} (x : α) : Call bound (x :: q) (.popped x) q
  | empty : Call bound [] .empty []

/-- A history of calls on a queue that was empty, and what the queue holds after it. -/
inductive Accepts (bound : ℕ) : List (QueueOutcome α) → List α → Prop where
  | nil : Accepts bound [] []
  | concat {h : List (QueueOutcome α)} {q q' : List α} {o : QueueOutcome α}
      (hq : Accepts bound h q) (ho : Call bound q o q') : Accepts bound (h ++ [o]) q'

def pushes (h : List (QueueOutcome α)) : List α :=
  h.filterMap fun o => match o with
    | .pushed x => some x
    | _ => none

def pops (h : List (QueueOutcome α)) : List α :=
  h.filterMap fun o => match o with
    | .popped x => some x
    | _ => none

/-- The items of the pushes that found the queue full. -/
def refusals (h : List (QueueOutcome α)) : List α :=
  h.filterMap fun o => match o with
    | .full x => some x
    | _ => none

/-- The items of all pushes, successful or refused. -/
def offers (h : List (QueueOutcome α)) : List α :=
  h.filterMap fun o => match o with
    | .pushed x | .full x => some x
    | _ => none

theorem pushes_concat (h : List (QueueOutcome α)) (o : QueueOutcome α) :
    pushes (h ++ [o]) = pushes h ++ match o with
      | .pushed x => [x]
      | _ => [] := by
  rw [pushes, List.filterMap_append]
  cases o <;> rfl

theorem pops_concat (h : List (QueueOutcome α)) (o : QueueOutcome α) :
    pops (h ++ [o]) = pops h ++ match o with
      | .popped x => [x]
      | _ => [] := by
  rw [pops, List.filterMap_append]
  cases o <;> rfl

theorem refusals_concat (h : List (QueueOutcome α)) (o : QueueOutcome α) :
    refusals (h ++ [o]) = refusals h ++ match o with
      | .full x => [x]
      | _ => [] := by
  rw [refusals, List.filterMap_append]
  cases o <;> rfl

theorem offers_concat (h : List (QueueOutcome α)) (o : QueueOutcome α) :
    offers (h ++ [o]) = offers h ++ match o with
      | .pushed x | .full x => [x]
      | _ => [] := by
  rw [offers, List.filterMap_append]
  cases o <;> rfl

theorem pushes_sublist_offers (h : List (QueueOutcome α)) : (pushes h).Sublist (offers h) := by
  induction h using List.reverseRecOn with
  | nil => exact List.Sublist.refl _
  | append_singleton h o ih =>
    rw [pushes_concat, offers_concat]
    refine ih.append ?_
    cases o <;> simp

/-- Every item offered was accepted or refused. -/
theorem length_offers (h : List (QueueOutcome α)) :
    (offers h).length = (pushes h).length + (refusals h).length := by
  induction h using List.reverseRecOn with
  | nil => rfl
  | append_singleton h o ih =>
    rw [pushes_concat, offers_concat, refusals_concat]
    cases o <;> simp <;> omega

theorem pushes_eq_offers {h : List (QueueOutcome α)} (hnone : refusals h = []) :
    pushes h = offers h := by
  refine (pushes_sublist_offers h).eq_of_length ?_
  rw [length_offers, hnone, List.length_nil, Nat.add_zero]

/-- Everything pushed was popped, or is still held, in the same order. -/
theorem accepts_pushes {h : List (QueueOutcome α)} {q : List α} (ha : Accepts bound h q) :
    pushes h = pops h ++ q := by
  induction ha with
  | nil => rfl
  | concat _ ho ih =>
    rw [pushes_concat, pops_concat, ih]
    cases ho with
    | pushed x h => simp
    | full x h => simp
    | popped x => simp
    | empty => simp

theorem accepts_concat {h : List (QueueOutcome α)} {o : QueueOutcome α} {q' : List α}
    (ha : Accepts bound (h ++ [o]) q') : ∃ q, Accepts bound h q ∧ Call bound q o q' := by
  generalize hh : h ++ [o] = h' at ha
  cases ha with
  | nil => simp at hh
  | concat hq ho =>
    obtain ⟨rfl, hlast⟩ := List.append_inj' hh rfl
    cases hlast
    exact ⟨_, hq, ho⟩

theorem accepts_of_isPrefix {h h' : List (QueueOutcome α)} {q' : List α} (ha : Accepts bound h' q')
    (hpre : h <+: h') : ∃ q, Accepts bound h q := by
  induction ha with
  | nil => exact ⟨[], List.prefix_nil.mp hpre ▸ .nil⟩
  | concat hq ho ih =>
    rcases List.prefix_concat_iff.mp hpre with rfl | hpre
    · exact ⟨_, .concat hq ho⟩
    · exact ih hpre

theorem pops_isPrefix {h : List (QueueOutcome α)} {q : List α} (ha : Accepts bound h q) :
    pops h <+: pushes h := ⟨q, (accepts_pushes ha).symm⟩

/-- A refused push found `bound` items not yet popped. -/
theorem length_of_full {h pre : List (QueueOutcome α)} {q : List α} {x : α}
    (ha : Accepts bound h q) (hpre : pre ++ [.full x] <+: h) :
    (pushes pre).length = (pops pre).length + bound := by
  obtain ⟨q', ha'⟩ := accepts_of_isPrefix ha hpre
  obtain ⟨held, hheld, hcall⟩ := accepts_concat ha'
  cases hcall with
  | full x hlen => rw [accepts_pushes hheld, List.length_append, hlen]

/-- A pop that came back empty found every item popped. -/
theorem length_of_empty {h pre : List (QueueOutcome α)} {q : List α} (ha : Accepts bound h q)
    (hpre : pre ++ [.empty] <+: h) : (pushes pre).length = (pops pre).length := by
  obtain ⟨q', ha'⟩ := accepts_of_isPrefix ha hpre
  obtain ⟨held, hheld, hcall⟩ := accepts_concat ha'
  cases hcall with
  | empty => rw [accepts_pushes hheld, List.append_nil]

/-- An accepted history says what the queue holds. -/
theorem accepts_unique {h : List (QueueOutcome α)} {q q' : List α} (ha : Accepts bound h q)
    (ha' : Accepts bound h q') : q = q' :=
  List.append_cancel_left ((accepts_pushes ha).symm.trans (accepts_pushes ha'))

/-- Calls of pop alone, one for each item held at least, leave nothing. -/
theorem drained {h new : List (QueueOutcome α)} {q q' : List α} (ha : Accepts bound h q)
    (ha' : Accepts bound (h ++ new) q') (hnew : ∀ o ∈ new, o = .empty ∨ ∃ x, o = .popped x)
    (hlen : q.length ≤ new.length) : q' = [] := by
  have hdrop : ∀ q', Accepts bound (h ++ new) q' → q' = q.drop new.length := by
    clear ha' hlen
    induction new using List.reverseRecOn with
    | nil =>
      intro q' ha'
      rw [List.append_nil] at ha'
      exact accepts_unique ha' ha
    | append_singleton new o ih =>
      intro q' ha'
      rw [← List.append_assoc] at ha'
      obtain ⟨held, hheld, hcall⟩ := accepts_concat ha'
      have hrest := ih (fun o ho => hnew o (List.mem_append_left _ ho)) held hheld
      rw [List.length_append, List.length_singleton, ← List.drop_drop, ← hrest]
      rcases hnew o (by simp) with rfl | ⟨x, rfl⟩
      · cases hcall
        rfl
      · cases hcall
        rfl
  rw [hdrop q' ha', List.drop_eq_nil_of_le hlen]

end BoundedFifo
end SmartQuant
