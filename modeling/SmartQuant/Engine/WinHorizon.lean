import SmartQuant.Engine.PendingWindows

/-!
# Wins against moves within the horizon

The report calls a signal a win if the price moved a tick in the predicted direction
within five seconds. The loop looks at one recorded point, the first at or behind the end
of the window. It misses a move that came back in time, and takes one made behind a gap.
-/
namespace SmartQuant.WinHorizon

open Runs BacktestLoop LowerBound PendingWindows

variable {R : Type*} [Field R]

/-- The point is a tick or more in the predicted direction. -/
def Moved (p : PendingSignal R) (pt : PricePoint) : Prop := kPriceScale ≤ p.move pt

/-- Behind the trigger, by five seconds at most. -/
def InWindow (p : PendingSignal R) (pt : PricePoint) : Prop :=
  p.sig.triggerTimeNs < pt.tsNs ∧ pt.tsNs ≤ p.sig.triggerTimeNs + kLookForwardNs

def MovedWithin (history : List PricePoint) (p : PendingSignal R) : Prop :=
  ∃ pt ∈ history, InWindow p pt ∧ Moved p pt

/-- The price path has left the window. -/
def endPoint (history : List PricePoint) (p : PendingSignal R) : Option PricePoint :=
  history.find? fun pt => p.sig.triggerTimeNs + kLookForwardNs ≤ pt.tsNs

/-- The price moves within the window, and has come back where the path leaves it. -/
def ComesBack (history : List PricePoint) (p : PendingSignal R) : Prop :=
  MovedWithin history p ∧ ∃ pit ∈ endPoint history p, ¬ Moved p pit

/-- The price moves, but not before a gap that reaches over the end of the window. -/
def MovesLate (history : List PricePoint) (p : PendingSignal R) : Prop :=
  ¬ MovedWithin history p ∧ ∃ pit ∈ endPoint history p,
    p.sig.triggerTimeNs + kLookForwardNs < pit.tsNs ∧ Moved p pit

instance (p : PendingSignal R) (pt : PricePoint) : Decidable (Moved p pt) :=
  inferInstanceAs (Decidable (_ ≤ _))

instance (p : PendingSignal R) (pt : PricePoint) : Decidable (InWindow p pt) :=
  inferInstanceAs (Decidable (_ ∧ _))

instance (history : List PricePoint) (p : PendingSignal R) : Decidable (MovedWithin history p) :=
  inferInstanceAs (Decidable (∃ pt ∈ history, InWindow p pt ∧ Moved p pt))

variable [LinearOrder R] (sqrt : R → R)

/-- The signals the loop evaluates, each with the point it is evaluated at. -/
def evaluated (threshDelta : R) (evs : List LOBEvent) : List (PendingSignal R × PricePoint) :=
  outputs (step sqrt) countedAt (initial threshDelta) evs

omit [LinearOrder R] in
theorem won_iff (c : PendingSignal R × PricePoint) : won c = true ↔ Moved c.1 c.2 :=
  decide_eq_true_iff

theorem loop_wins (threshDelta : R) (evs : List LOBEvent) :
    (loop sqrt threshDelta evs).result.wins = (evaluated sqrt threshDelta evs).countP won := by
  have hstep : ∀ (s : State R) ev, (step sqrt s ev).result.wins =
      s.result.wins + (countedAt s ev).countP won := fun s ev => (step_result sqrt s ev).2.1
  have hrun := run_add_countP (fun s => s.result.wins) hstep (initial threshDelta) evs
  exact hrun.trans (Nat.zero_add _)

omit [LinearOrder R] in
theorem endPoint_append {history : List PricePoint} {p : PendingSignal R} {pit : PricePoint}
    (h : endPoint history p = some pit) (later : List PricePoint) :
    endPoint (history ++ later) p = some pit := by
  unfold endPoint at h ⊢
  rw [List.find?_append, h, Option.some_or]

omit [LinearOrder R] in
/-- A step evaluates a signal where the path leaves its window. -/
theorem endPoint_of_countedAt {evs : List LOBEvent} {ev : LOBEvent} {s : State R}
    (ho : LogOrder (evs ++ [ev])) (h : Windowed evs s) {c : PendingSignal R × PricePoint}
    (hc : c ∈ countedAt s ev) : endPoint (historyAt s ev) c.1 = some c.2 := by
  obtain ⟨hp, hend, hpit⟩ := pricePoint_of_countedAt ho h hc
  have hbefore : endPoint s.priceHistory c.1 = none := by
    rw [endPoint, List.find?_eq_none]
    intro pt hpt hover
    obtain ⟨e, he, hpts⟩ := h.history pt hpt
    have hrunning := h.running c.1 hp e he
    rw [← hpts] at hrunning
    exact absurd (of_decide_eq_true hover) (Nat.not_le.mpr hrunning)
  unfold endPoint at hbefore ⊢
  rw [historyAt, List.find?_append, hbefore, hpit, Option.none_or, Option.toList_some,
    List.find?_singleton, if_pos]
  rw [tsNs_of_pricePoint hpit]
  exact decide_eq_true hend

theorem history_concat (threshDelta : R) (evs : List LOBEvent) (ev : LOBEvent) :
    (loop sqrt threshDelta (evs ++ [ev])).priceHistory =
      historyAt (loop sqrt threshDelta evs) ev := by
  rw [loop_concat]
  rfl

/-- What the loop has evaluated is evaluated where the path leaves the window. -/
theorem endPoint_of_evaluated (threshDelta : R) {evs : List LOBEvent} (ho : LogOrder evs)
    {c : PendingSignal R × PricePoint} (hc : c ∈ evaluated sqrt threshDelta evs) :
    endPoint (loop sqrt threshDelta evs).priceHistory c.1 = some c.2 := by
  induction evs using List.reverseRecOn with
  | nil => cases hc
  | append_singleton evs ev ih =>
    rw [history_concat]
    rw [evaluated, outputs_append, outputs_cons, outputs_nil, List.append_nil] at hc
    rcases List.mem_append.mp hc with hc | hc
    · exact endPoint_append (ih ho.concat.1 hc) _
    · exact endPoint_of_countedAt ho (windowed_loop sqrt threshDelta ho.concat.1) hc

omit [LinearOrder R] in
theorem moved_endPoint_iff {history : List PricePoint} {p : PendingSignal R} {pit : PricePoint}
    (hend : endPoint history p = some pit) :
    (Moved p pit ↔ MovedWithin history p) ↔ ¬ ComesBack history p ∧ ¬ MovesLate history p := by
  have hmem : pit ∈ history := List.mem_of_find?_eq_some hend
  have hover : p.sig.triggerTimeNs + kLookForwardNs ≤ pit.tsNs := by
    simpa using List.find?_some (show history.find? _ = some pit from hend)
  unfold ComesBack MovesLate
  simp only [hend, Option.mem_some_iff, exists_eq_left']
  constructor
  · intro hiff
    constructor
    · intro hback
      exact hback.2 (hiff.mpr hback.1)
    · intro hlate
      exact hlate.1 (hiff.mp hlate.2.2)
  · intro hneither
    obtain ⟨hback, hlate⟩ := hneither
    constructor
    · intro hmoved
      by_contra hwithin
      -- The end point is behind the window, or else a point of the window itself.
      have hnot : ¬ p.sig.triggerTimeNs + kLookForwardNs < pit.tsNs :=
        fun hlt => hlate ⟨hwithin, hlt, hmoved⟩
      have hpos : 0 < kLookForwardNs := by decide
      exact hwithin ⟨pit, hmem, ⟨by omega, by omega⟩, hmoved⟩
    · intro hwithin
      by_contra hmoved
      exact hback ⟨hwithin, hmoved⟩

/-- In every log in time order, an evaluated signal is a win exactly when a recorded point of
its window has moved a tick, unless the price comes back in time, or moves late. -/
theorem won_iff_movedWithin_iff (threshDelta : R) {evs : List LOBEvent} (ho : LogOrder evs)
    {c : PendingSignal R × PricePoint} (hc : c ∈ evaluated sqrt threshDelta evs) :
    (won c = true ↔ MovedWithin (loop sqrt threshDelta evs).priceHistory c.1) ↔
      ¬ ComesBack (loop sqrt threshDelta evs).priceHistory c.1 ∧
        ¬ MovesLate (loop sqrt threshDelta evs).priceHistory c.1 := by
  rw [won_iff]
  exact moved_endPoint_iff (endPoint_of_evaluated sqrt threshDelta ho hc)

def quote (tsNs id : Nat) (price : Int) (action : MDUpdateAction) (side : MDEntryType) : LOBEvent :=
  { timestampNs := tsNs, entryId := id, price, qty := 1, action, side }

/-- Two offers at 102, a trade at each best price, and a Buy at 40 ms, as one offer goes. -/
def bought : List LOBEvent :=
  [quote 0 1 10000 .new .bid, quote 0 2 10200 .new .offer, quote 0 3 10200 .new .offer,
    { timestampNs := 0, entryId := 4, price := 10200, qty := 100, action := .new, side := .trade },
    { timestampNs := 10000000, entryId := 5, price := 10000, qty := 100, action := .new,
      side := .trade },
    quote 40000000 2 10200 .delete .offer]

/-- The offer stays where it is. -/
def flat : List LOBEvent := bought ++ [quote 5040000000 6 10000 .new .bid]

theorem won_iff_movedWithin_iff_flat : evaluated Rat.sqrt (50 : ℚ) flat ≠ [] ∧
    ∀ c ∈ evaluated Rat.sqrt (50 : ℚ) flat,
      (won c = true ↔ MovedWithin (loop Rat.sqrt (50 : ℚ) flat).priceHistory c.1) ↔
        ¬ ComesBack (loop Rat.sqrt (50 : ℚ) flat).priceHistory c.1 ∧
          ¬ MovesLate (loop Rat.sqrt (50 : ℚ) flat).priceHistory c.1 :=
  ⟨by decide +kernel, fun _ hc => won_iff_movedWithin_iff Rat.sqrt 50 ⟨by decide, by decide⟩ hc⟩

/-- The offer goes up to 103 at 1 s and is back at 102 at 2 s. -/
def upAndBack : List LOBEvent :=
  bought ++ [quote 1000000000 3 10200 .delete .offer, quote 1000000000 6 10300 .new .offer,
    quote 2000000000 7 10200 .new .offer, quote 5040000000 8 10000 .new .bid]

/-- The Buy of 40 ms is counted as a loss. -/
theorem not_won_iff_movedWithin_upAndBack : ¬ ∀ c ∈ evaluated Rat.sqrt (50 : ℚ) upAndBack,
    (won c = true ↔ MovedWithin (loop Rat.sqrt (50 : ℚ) upAndBack).priceHistory c.1) := by
  decide +kernel

end SmartQuant.WinHorizon
