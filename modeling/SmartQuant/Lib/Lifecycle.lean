import Mathlib.Logic.Function.Basic
import SmartQuant.Lib.Runs

/-!
# Lifecycles of keyed items

A history of items that are opened under a key, used while they are open, and closed.
A history is legal when no key is opened twice and only open items are used or closed, by
somebody who agrees with what the item was opened with. Which items are open is a fold over the
history; for a legal one it can be read off its events (`live_iff`).
-/
namespace SmartQuant.Lifecycle

open Runs

variable {K V : Type*} [DecidableEq K]

inductive Event (K V : Type*) where
  | opened (k : K) (v : V)
  | used (k : K) (agrees : V → Prop)
  | closed (k : K) (agrees : V → Prop)

structure State (K V : Type*) where
  live : K → Option V
  seen : K → Prop

def State.start : State K V := { live := fun _ => none, seen := fun _ => False }

def State.advance (s : State K V) : Event K V → State K V
  | .opened k v => { live := Function.update s.live k (some v), seen := fun j => j = k ∨ s.seen j }
  | .used _ _ => s
  | .closed k _ => { s with live := Function.update s.live k none }

theorem State.live_opened (s : State K V) (k : K) (v : V) :
    (s.advance (.opened k v)).live = Function.update s.live k (some v) := rfl

theorem State.live_closed (s : State K V) (k : K) (agrees : V → Prop) :
    (s.advance (.closed k agrees)).live = Function.update s.live k none := rfl

def Legal (s : State K V) : Event K V → Prop
  | .opened k _ => ¬ s.seen k
  | .used k agrees => ∃ v, s.live k = some v ∧ agrees v
  | .closed k agrees => ∃ v, s.live k = some v ∧ agrees v

/-- The item was opened and not closed since. -/
def OpenIn (events : List (Event K V)) (k : K) (v : V) : Prop :=
  .opened k v ∈ events ∧ ∀ agrees, .closed k agrees ∉ events

theorem seen_iff {events : List (Event K V)} {k : K} :
    (run State.advance State.start events).seen k ↔ ∃ v, .opened k v ∈ events := by
  induction events using List.reverseRecOn with
  | nil => simp [State.start]
  | append_singleton events e ih =>
    rw [run_concat]
    cases e with
    | opened j v =>
      rw [State.advance]
      constructor
      · rintro (rfl | hseen)
        · exact ⟨v, List.mem_append_right _ List.mem_cons_self⟩
        · obtain ⟨w, hw⟩ := ih.mp hseen
          exact ⟨w, List.mem_append_left _ hw⟩
      · rintro ⟨w, hw⟩
        rcases List.mem_append.mp hw with hw | hw
        · exact Or.inr (ih.mpr ⟨w, hw⟩)
        · rw [List.mem_singleton, Event.opened.injEq] at hw
          exact Or.inl hw.1
    | used j agrees => simp [State.advance, ih]
    | closed j agrees => simp [State.advance, ih]

theorem opened_of_live {events : List (Event K V)} {k : K} {v : V}
    (h : (run State.advance State.start events).live k = some v) : .opened k v ∈ events := by
  induction events using List.reverseRecOn with
  | nil => cases h
  | append_singleton events e ih =>
    rw [run_concat] at h
    apply List.mem_append.mpr
    cases e with
    | opened j w =>
      rw [State.live_opened] at h
      by_cases hj : k = j
      · rw [hj, Function.update_self] at h
        rw [hj, Option.some.inj h]
        exact Or.inr List.mem_cons_self
      · rw [Function.update_of_ne hj] at h
        exact Or.inl (ih h)
    | used j agrees => exact Or.inl (ih h)
    | closed j agrees =>
      rw [State.live_closed] at h
      by_cases hj : k = j
      · rw [hj, Function.update_self] at h
        cases h
      · rw [Function.update_of_ne hj] at h
        exact Or.inl (ih h)

/-- Only what was opened is closed. -/
theorem opened_of_closed {events : List (Event K V)}
    (h : Along State.advance Legal State.start events) {k : K} {agrees : V → Prop}
    (hmem : .closed k agrees ∈ events) : ∃ v, .opened k v ∈ events := by
  obtain ⟨pre, post, rfl⟩ := List.append_of_mem hmem
  obtain ⟨v, hlive, -⟩ := along_iff_forall_split.mp h pre _ post rfl
  exact ⟨v, List.mem_append_left _ (opened_of_live hlive)⟩

/-- In a legal history the open items are those opened and not closed since. -/
theorem live_iff {events : List (Event K V)} (h : Along State.advance Legal State.start events)
    {k : K} {v : V} :
    (run State.advance State.start events).live k = some v ↔ OpenIn events k v := by
  induction events using List.reverseRecOn with
  | nil => simp [State.start, OpenIn]
  | append_singleton events e ih =>
    obtain ⟨hpast, hlegal, -⟩ := along_append.mp h
    have ih := ih hpast
    rw [run_concat]
    cases e with
    | opened j w =>
      by_cases hj : k = j
      · subst hj
        have hfresh : ∀ u, Event.opened k u ∉ events := fun u hu => hlegal (seen_iff.mpr ⟨u, hu⟩)
        have hclosed : ∀ agrees, Event.closed k agrees ∉ events := by
          intro agrees hmem
          obtain ⟨u, hu⟩ := opened_of_closed hpast hmem
          exact hfresh u hu
        simp [State.advance, OpenIn, hfresh, hclosed, eq_comm]
      · simp [State.advance, OpenIn, ih, hj]
    | used j agrees => simp [State.advance, ih, OpenIn]
    | closed j agrees =>
      by_cases hj : k = j
      · subst hj
        refine iff_of_false ?_ fun hopen => hopen.2 agrees (by simp)
        simp [State.advance]
      · simp [State.advance, OpenIn, ih, hj]

theorem openIn_of_used {pre post : List (Event K V)} {k : K} {agrees : V → Prop}
    (h : Along State.advance Legal State.start (pre ++ .used k agrees :: post)) :
    ∃ v, OpenIn pre k v ∧ agrees v := by
  obtain ⟨hpast, ⟨v, hlive, hagrees⟩, -⟩ := along_append.mp h
  exact ⟨v, (live_iff hpast).mp hlive, hagrees⟩

theorem openIn_of_closed {pre post : List (Event K V)} {k : K} {agrees : V → Prop}
    (h : Along State.advance Legal State.start (pre ++ .closed k agrees :: post)) :
    ∃ v, OpenIn pre k v ∧ agrees v := by
  obtain ⟨hpast, ⟨v, hlive, hagrees⟩, -⟩ := along_append.mp h
  exact ⟨v, (live_iff hpast).mp hlive, hagrees⟩

end SmartQuant.Lifecycle
