import SmartQuant.Common.TscClock
import SmartQuant.Engine.PendingWindows
import SmartQuant.Md.EntryVisits

/-!
# The times of a log

The backtest takes the records of a log to be in time order. The logger owes it that:
`fromApp` reads the clock once for a message, so that its entries share one time, and the
clock was calibrated before the session began.
-/
namespace SmartQuant.LogTimes

open EntryVisits FixMdGateway Runs TscClock PendingWindows Replay

/-- The messages of a session, each with the counter's reading when it came in. -/
def stamped (rnd : ℚ → ℚ) (c : TscClock) (session : List (MDMessage × Nat)) : List Delivery :=
  session.map fun x => { msg := x.1, tsNs := nowNs rnd c x.2 }

/-- The counter runs forward from its calibration, and the time it stands for is a word. -/
structure Ticks (rnd : ℚ → ℚ) (c : TscClock) (session : List (MDMessage × Nat)) : Prop where
  sorted : (session.map Prod.snd).Pairwise (· ≤ ·)
  started : ∀ x ∈ session, c.epochTsc ≤ x.2
  word : ∀ x ∈ session, x.2 < Word64.size
  fits : ∀ x ∈ session, c.epochWallNs + elapsedNs rnd c x.2 < Word64.size

theorem timestamp_of_parseIncremental {tsNs : Nat} {b : OrderBook} {e : MDEntry} {ev : LOBEvent}
    (h : parseIncremental tsNs b e = .event ev) : ev.timestampNs = tsNs := by
  rw [parseIncremental] at h
  split at h
  · cases h
  · split at h
    · cases h
    · split at h
      · cases h
        rfl
      · cases h
        rfl
    · split at h
      · cases h
      · split at h
        · cases h
        · cases h
          rfl

theorem timestamp_of_parseSnapshot {tsNs : Nat} {e : MDEntry} {ev : LOBEvent}
    (h : parseSnapshot tsNs e = .event ev) : ev.timestampNs = tsNs := by
  rw [parseSnapshot] at h
  split at h
  · cases h
  · split at h
    · cases h
    · cases h
    · cases h
      rfl

theorem timestamp_of_event {v : Visit} {ev : LOBEvent} (h : v.event = some ev) :
    ev.timestampNs = v.tsNs := by
  rw [Visit.event] at h
  split at h
  · rename_i ev' hparsed
    obtain rfl := Option.some.inj h
    rw [Visit.parsed] at hparsed
    split at hparsed
    · exact timestamp_of_parseIncremental hparsed
    · exact timestamp_of_parseSnapshot hparsed
  · cases h

/-- The events of a message. -/
def messageEvents (g : FixMdGateway) (d : Delivery) : List LOBEvent :=
  (messageVisits g d).filterMap Visit.event

theorem loopVisits_tsNs {incremental : Bool} {tsNs : Nat} {b : OrderBook} {es : List MDEntry}
    {v : Visit} (h : v ∈ loopVisits incremental tsNs b es) : v.tsNs = tsNs := by
  induction es generalizing b with
  | nil => cases h
  | cons e es ih =>
    by_cases hp : Visit.parsed { incremental, tsNs, book := b, entry := e } = .fieldNotFound
    · rw [loopVisits_stop hp, List.mem_singleton] at h
      rw [h]
    · rw [loopVisits_next hp, List.mem_cons] at h
      rcases h with rfl | h
      · rfl
      · exact ih h

theorem timestamp_of_messageEvents {g : FixMdGateway} {d : Delivery} {ev : LOBEvent}
    (h : ev ∈ messageEvents g d) : ev.timestampNs = d.tsNs := by
  obtain ⟨v, hv, hev⟩ := List.mem_filterMap.mp h
  rw [timestamp_of_event hev]
  rw [messageVisits] at hv
  split_ifs at hv
  · exact loopVisits_tsNs hv
  · exact loopVisits_tsNs hv
  · cases hv

theorem run_logged (g : FixMdGateway) (ds : List Delivery) :
    (run deliver g ds).logged = g.logged ++ outputs deliver messageEvents g ds := by
  induction ds generalizing g with
  | nil => simp
  | cons d ds ih =>
    have hopened : (opened g d).logged = g.logged := by
      rw [opened]
      split <;> rfl
    have hfirst : (deliver g d).logged = g.logged ++ messageEvents g d := by
      rw [deliver_visits, foldl_emit_logged, hopened, messageEvents]
    rw [run_cons, ih, hfirst, outputs_cons, List.append_assoc]

/-- With a calibrated clock, the log of a session is in time order, whatever its messages. -/
theorem logOrder_session {rnd : ℚ → ℚ} (hrnd : Rounding rnd) {t0 t1 : Timespec}
    {tsc0 tsc1 : Nat} (htsc : tsc1 < Word64.size) {c : TscClock}
    (hcal : calibrate rnd t0 tsc0 tsc1 t1 = some c) {session : List (MDMessage × Nat)}
    (hticks : Ticks rnd c session) (queue : Bool) :
    LogOrder (run deliver { queue } (stamped rnd c session)).logged := by
  obtain ⟨hfreq, -⟩ := freq_pos_of_calibrate hrnd htsc hcal
  have hsorted : session.Pairwise fun x y => nowNs rnd c x.2 ≤ nowNs rnd c y.2 := by
    refine (List.pairwise_map.mp hticks.sorted).imp_of_mem fun hx hy hle => ?_
    exact nowNs_mono hrnd hfreq (hticks.started _ hx) hle (hticks.word _ hy) (hticks.fits _ hy)
  rw [run_logged, List.nil_append]
  constructor
  · refine pairwise_outputs (fun g d _ => ?_) ?_ _
    · refine List.pairwise_of_forall_mem_list fun ev hev ev' hev' => ?_
      rw [timestamp_of_messageEvents hev, timestamp_of_messageEvents hev']
    · refine List.pairwise_map.mpr (hsorted.imp fun hle g g' ev hev ev' hev' => ?_)
      rw [timestamp_of_messageEvents hev, timestamp_of_messageEvents hev']
      exact hle
  · intro ev hev
    obtain ⟨g, d, hd, hmem⟩ := mem_outputs hev
    obtain ⟨x, -, rfl⟩ := List.mem_map.mp hd
    rw [timestamp_of_messageEvents hmem]
    exact Word64.add_lt _ _

/-- The clock of twenty milliseconds at 3 GHz. -/
def threeGhz : TscClock :=
  { tscFreqGhz := 3, epochTsc := 1000, epochWallNs := 1700000000990000000, calibrated := true }

/-- A bid comes and goes one microsecond later. -/
def oneBid : List (MDMessage × Nat) :=
  [({ msgType := "X", noMDEntries := some 1
      groups := [{ updateAction := some '0', entryType := some '0', entryId := some "7"
                   px := some 2000, size := some 5 }] }, 90001000),
    ({ msgType := "X", noMDEntries := some 1
       groups := [{ updateAction := some '2', entryId := some "7" }] }, 90004000)]

theorem logOrder_session_oneBid :
    LogOrder (run deliver { queue := false }
      (stamped Binary64.round threeGhz oneBid)).logged :=
  @logOrder_session Binary64.round rounding_round ⟨1700000000, 990000000⟩
    ⟨1700000001, 10000000⟩ 1000 60001000 (by decide) threeGhz (by decide +kernel) oneBid
    ⟨by decide, by decide, by decide, by decide +kernel⟩ false

end SmartQuant.LogTimes
