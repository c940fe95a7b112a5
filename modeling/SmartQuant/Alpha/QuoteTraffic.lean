import SmartQuant.Alpha.DeltaWindow

/-!
# Quotes between trades

A quote inside the head bucket leaves the net volume as it is, but it recomputes it: the
last two sums shift by one, and the second difference after the next event is taken
against a sum that came from no trade.
-/
namespace SmartQuant.QuoteTraffic

open BucketRing DeltaFactor DeltaWindow Runs

variable {R : Type*} [Field R]

/-- `net_delta()` and `value()` are the same. -/
def SameValues (f g : DeltaFactor R) : Prop := f.netDelta = g.netDelta ∧ f.value = g.value

/-- After every event of a continuation both factors have the same values. -/
def SameAlong (f g : DeltaFactor R) (calls : List DeltaCall) : Prop :=
  ∀ mid ev rest, calls = mid ++ DeltaCall.event ev :: rest →
    SameValues (run deltaStep f (mid ++ [.event ev])) (run deltaStep g (mid ++ [.event ev]))

/-- A Bid or Offer whose time lies within the head bucket. -/
structure QuietQuote (f : DeltaFactor R) (ev : LOBEvent) : Prop where
  side : ev.side ≠ .trade
  started : f.ring.count ≠ 0
  covered : HeadCovers f.bucketNs f.ring ev.timestampNs
  word : ev.timestampNs < Word64.size

/-- The net volume is the sum over the window. -/
def Settled (f : DeltaFactor R) : Prop := f.recompute.netDelta = f.netDelta

theorem record_withPast (f : DeltaFactor R) (ev : LOBEvent) (p pp a : R) :
    (withPast f p pp a).record ev = withPast (f.record ev) p pp a := by
  rw [record, record, withPast, withPast]
  by_cases htrade : ev.side = .trade ∧ 0 < ev.qty
  · rw [if_pos htrade, if_pos htrade]
    split_ifs <;> rfl
  · rw [if_neg htrade, if_neg htrade]

theorem record_past (f : DeltaFactor R) (ev : LOBEvent) :
    (f.record ev).netDelta = f.netDelta ∧ (f.record ev).prevDelta = f.prevDelta := by
  rw [record_eq]
  exact ⟨rfl, rfl⟩

/-- An event forgets all but the last of the past sums. -/
theorem onEvent_withPast (f : DeltaFactor R) (ev : LOBEvent) (p pp a : R) :
    (withPast f p pp a).onEvent ev =
      withPast (f.onEvent ev) (f.onEvent ev).prevDelta p
        ((f.onEvent ev).netDelta - 2 * f.netDelta + p) := by
  have hrecord := record_withPast (f.advanceTime ev.timestampNs) ev p pp a
  have hdelta := (record_past (f.advanceTime ev.timestampNs) ev).1
  show ((withPast (f.advanceTime ev.timestampNs) p pp a).record ev).recompute = _
  rw [hrecord, show f.netDelta = _ from hdelta.symm]
  rfl

theorem sameValues_onEvent_iff (f : DeltaFactor R) (ev : LOBEvent) (p pp a : R) :
    SameValues ((withPast f p pp a).onEvent ev) (f.onEvent ev) ↔ p = f.prevDelta := by
  rw [onEvent_withPast, SameValues, onEvent_value, and_iff_right (by rfl)]
  exact add_right_inj _

theorem settled_initial {windowNs bucketNs : Nat} {f : DeltaFactor R}
    (hf : create windowNs bucketNs = .ok f) : Settled f := by
  rw [create] at hf
  split at hf
  · cases hf
  · cases hf
    exact sub_self 0

theorem settled_step (f : DeltaFactor R) (call : DeltaCall) (h : Settled f) :
    Settled (deltaStep f call) := by
  cases call with
  | setMidprice mid => exact h
  | event ev => rfl

/-- A clock reading within the head bucket opens none. -/
theorem advance_of_covers {β : Type*} {size cap len now : ℕ} {zero : β} {r : BucketRing β}
    (hc : r.count ≠ 0) (hcovers : HeadCovers len r now) (hnow : now < Word64.size) :
    advance size cap len zero r now = r := by
  obtain ⟨hle, hlt⟩ := hcovers
  rw [advance_of_started hc]
  split
  · rfl
  · rw [Word64.sub_of_le hle hnow, Nat.div_eq_of_lt (by omega), Nat.zero_min]
    rfl

/-- A quiet quote shifts the last two sums and does nothing else. -/
theorem onEvent_of_quiet {f : DeltaFactor R} {ev : LOBEvent} (hf : Settled f)
    (h : QuietQuote f ev) :
    f.onEvent ev =
      withPast f f.netDelta f.prevDelta (f.netDelta - 2 * f.netDelta + f.prevDelta) := by
  have hring : f.ring.advance kMaxBuckets f.numBuckets f.bucketNs {} ev.timestampNs = f.ring :=
    advance_of_covers h.started h.covered h.word
  have hadvance : f.advanceTime ev.timestampNs = f := by
    rw [advanceTime, hring]
  have hrecord : f.record ev = f := by
    rw [record, if_neg fun hc => h.side hc.1]
  rw [onEvent, hadvance, hrecord]
  show withPast { f with netDelta := f.recompute.netDelta } f.netDelta f.prevDelta
    (f.recompute.netDelta - 2 * f.netDelta + f.prevDelta) = _
  rw [hf]

/-- With the same last sum the values stay the same. -/
theorem sameAlong_of_prevDelta (f : DeltaFactor R) (pp a : R) (calls : List DeltaCall) :
    SameAlong (withPast f f.prevDelta pp a) f calls := by
  intro mid ev rest hsplit
  clear hsplit rest calls
  induction mid generalizing f pp a with
  | nil => exact (sameValues_onEvent_iff f ev _ pp a).mpr rfl
  | cons call mid ih =>
    cases call with
    | setMidprice price => exact ih (f.setMidprice price) pp a
    | event next =>
      rw [List.cons_append, run_cons, run_cons, deltaStep, deltaStep, onEvent_withPast]
      exact ih (f.onEvent next) _ _

theorem sameAlong_iff (f : DeltaFactor R) (p pp a : R) (calls : List DeltaCall) :
    SameAlong (withPast f p pp a) f calls ↔
      (∀ ev, DeltaCall.event ev ∉ calls) ∨ p = f.prevDelta := by
  constructor
  · intro h
    induction calls generalizing f with
    | nil => exact Or.inl fun ev hev => absurd hev List.not_mem_nil
    | cons call calls ih =>
      cases call with
      | event ev =>
        exact Or.inr ((sameValues_onEvent_iff f ev p pp a).mp (h [] ev calls rfl))
      | setMidprice price =>
        have hrest :
            SameAlong (withPast (f.setMidprice price) p pp a) (f.setMidprice price) calls :=
          fun mid ev rest hsplit => h (.setMidprice price :: mid) ev rest (by rw [hsplit]; rfl)
        apply (ih _ hrest).imp_left
        intro hnone ev hev
        rcases List.mem_cons.mp hev with hev | hev
        · cases hev
        · exact hnone ev hev
  · intro h
    rcases h with hnone | rfl
    · intro mid ev rest hsplit
      exact absurd (hsplit ▸ List.mem_append_right mid List.mem_cons_self) (hnone ev)
    · exact sameAlong_of_prevDelta f pp a calls

/-- For any lengths, any calls before a quiet quote and any after it: taking the quote out
leaves all later values unchanged exactly if no event follows, or the last two sums before the
quote were equal. -/
theorem quoteUnseen_iff {windowNs bucketNs : Nat} {f : DeltaFactor R}
    (hf : create windowNs bucketNs = .ok f) (pre : List DeltaCall) {quote : LOBEvent}
    (hquote : QuietQuote (run deltaStep f pre) quote) (post : List DeltaCall) :
    SameAlong (run deltaStep f (pre ++ [.event quote])) (run deltaStep f pre) post ↔
      (∀ ev, DeltaCall.event ev ∉ post) ∨
        (run deltaStep f pre).netDelta = (run deltaStep f pre).prevDelta := by
  have hsettled : Settled (run deltaStep f pre) :=
    run_invariant settled_step (settled_initial hf) pre
  rw [run_concat, deltaStep, onEvent_of_quiet hsettled hquote]
  exact sameAlong_iff _ _ _ _ post

/-- A trade, with nothing before it. -/
def firstTrade : List DeltaCall :=
  [.event { timestampNs := 0, price := 10000, qty := 10, action := .new, side := .trade }]

def bid : LOBEvent := { timestampNs := 5000000, price := 9900, qty := 1, action := .new }

def secondTrade : LOBEvent :=
  { timestampNs := 6000000, price := 10000, qty := 10, action := .new, side := .trade }

theorem quietQuote_bid : QuietQuote (run deltaStep (.initial : DeltaFactor ℚ) firstTrade) bid :=
  ⟨by decide, by decide, by decide, by decide⟩

theorem quoteUnseen_iff_firstTrade :
    SameAlong (run deltaStep (.initial : DeltaFactor ℚ) (firstTrade ++ [.event bid]))
        (run deltaStep .initial firstTrade) [.event secondTrade] ↔
      (∀ ev, DeltaCall.event ev ∉ [DeltaCall.event secondTrade]) ∨
        (run deltaStep (.initial : DeltaFactor ℚ) firstTrade).netDelta =
          (run deltaStep (.initial : DeltaFactor ℚ) firstTrade).prevDelta :=
  quoteUnseen_iff create_default firstTrade quietQuote_bid _

/-- With the bid the second trade is worth 10, without it 0. -/
theorem not_quoteUnseen_bid :
    ¬ SameAlong (run deltaStep (.initial : DeltaFactor ℚ) (firstTrade ++ [.event bid]))
      (run deltaStep .initial firstTrade) [.event secondTrade] := by
  intro h
  have hvalue := (h [] secondTrade [] rfl).2
  revert hvalue
  decide +kernel

end SmartQuant.QuoteTraffic
