import SmartQuant.Lib.Runs
import SmartQuant.Md.FixMdGateway

/-!
# The live book against the replayed log

The backtest knows the log only. Every `update` of the live book is in it, the
`clear` at the head of a snapshot is not: replaying lays the snapshot's entries
over the book as it was. The two books stay equal exactly as long as a snapshot
finds no level, and brings back every id the table still holds.
-/
namespace SmartQuant.Replay

open Std OrderBook FixMdGateway Runs

/-- The backtest loop over a log: `book.update(ev)` on a fresh book. -/
def replay (log : List LOBEvent) : OrderBook := run OrderBook.update {} log

/-- An application message with the clock reading `fromApp` takes. -/
structure Delivery where
  msg : MDMessage
  tsNs : Nat

def deliver (g : FixMdGateway) (d : Delivery) : FixMdGateway := g.fromApp d.msg d.tsNs

/-- The live book is the one the log replays to. -/
def Replays (g : FixMdGateway) : Prop := g.book = replay g.logged

/-- A snapshot arrives while both sides are empty and re-inserts every id in the table. -/
def SnapshotCovers (g : FixMdGateway) (d : Delivery) : Prop :=
  d.msg.msgType = "W" → g.book.bids = ∅ ∧ g.book.asks = ∅ ∧
    ∀ id ∈ g.book.entries, ∃ ev ∈ snapshotOf d.msg d.tsNs, ev.entryId = id ∧ 0 < ev.qty

def BookPos (b : OrderBook) : Prop := ∀ s, LevelsPos (b.levels s)

theorem bookPos_empty : BookPos {} := by
  intro s
  cases s <;> exact levelsPos_empty

theorem bookPos_addLevel {b : OrderBook} (h : BookPos b) (side : MDEntryType) (px d : Int) :
    BookPos (b.addLevel side px d) := by
  intro s
  rw [addLevel_levels]
  split
  · exact levelAdd_pos (h s) px d
  · exact h s

theorem bookPos_store {b : OrderBook} (h : BookPos b) (ev : LOBEvent) : BookPos (b.store ev) := by
  intro s
  rw [store_levels]
  exact bookPos_addLevel h _ _ _ s

theorem bookPos_forget {b : OrderBook} (h : BookPos b) (id : Nat) : BookPos (b.forget id) := by
  intro s
  rw [forget_levels]
  exact h s

theorem bookPos_update {b : OrderBook} (h : BookPos b) (ev : LOBEvent) : BookPos (b.update ev) := by
  apply update_preserves _ _ _ h
  · intro b old _ hb
    exact bookPos_addLevel hb old.side old.price (-old.qty)
  · intro b _ _ hb
    exact bookPos_store hb ev
  · intro b hb
    exact bookPos_forget hb ev.entryId

theorem bookPos_run {b : OrderBook} (h : BookPos b) (evs : List LOBEvent) :
    BookPos (run update b evs) :=
  run_invariant (I := BookPos) (fun _ ev h => bookPos_update h ev) h evs

theorem bookPos_deliver {g : FixMdGateway} (h : BookPos g.book) (d : Delivery) :
    BookPos (deliver g d).book := by
  rw [deliver, fromApp]
  split
  · obtain ⟨evs, he⟩ := onIncrementalRefresh_emits g d.msg d.tsNs
    rw [he, foldl_emit_book]
    exact bookPos_run h evs
  · split
    · rw [onSnapshot_eq, foldl_emit_book]
      exact bookPos_run bookPos_empty _
    · exact h

/-- What a list of New events adds to one level. -/
def added (s : MDEntryType) (p : Int) (evs : List LOBEvent) : Int :=
  (evs.map fun ev => if 0 < ev.qty ∧ ev.side = s ∧ ev.price = p then ev.qty else 0).sum

def stored (id : Nat) : List LOBEvent → Option EntryInfo
  | [] => none
  | ev :: evs => (stored id evs).or
      (if 0 < ev.qty ∧ ev.entryId = id then some ⟨ev.side, ev.price, ev.qty⟩ else none)

theorem stored_isSome {id : Nat} {evs : List LOBEvent} :
    (stored id evs).isSome ↔ ∃ ev ∈ evs, ev.entryId = id ∧ 0 < ev.qty := by
  induction evs with
  | nil => simp [stored]
  | cons ev evs ih =>
    simp only [stored, Option.isSome_or, Bool.or_eq_true, ih, List.mem_cons, exists_eq_or_imp]
    rw [or_comm]
    apply or_congr_left
    split
    · rename_i h
      exact iff_of_true rfl ⟨h.2, h.1⟩
    · rename_i h
      exact iff_of_false (by simp) fun hc => h ⟨hc.2, hc.1⟩

theorem update_new_levels {b : OrderBook} (h : BookPos b) {ev : LOBEvent} (hev : ev.action = .new)
    {s : MDEntryType} (hs : s ≠ .trade) (p : Int) :
    ((b.update ev).levels s).getD p 0 =
      (b.levels s).getD p 0 + if 0 < ev.qty ∧ ev.side = s ∧ ev.price = p then ev.qty else 0 := by
  have hnn := getD_nonneg (h s) p
  rw [update_new hev]
  by_cases hq : ev.qty ≤ 0
  · rw [if_pos hq, if_neg (fun hc => absurd hc.1 (by omega)), add_zero]
  · rw [if_neg hq, store_levels, addLevel_levels]
    by_cases hside : ev.side = s
    · rw [if_pos ⟨hside, hs⟩, levelAdd_getD]
      by_cases hp : ev.price = p
      · rw [if_pos hp, if_pos ⟨by omega, hside, hp⟩, max_eq_right (by omega)]
      · rw [if_neg hp, if_neg (fun hc => hp hc.2.2), add_zero]
    · rw [if_neg (fun hc => hside hc.1), if_neg (fun hc => hside hc.2.1), add_zero]

theorem run_new_levels {b : OrderBook} (h : BookPos b) {evs : List LOBEvent}
    (hevs : ∀ ev ∈ evs, ev.action = .new) {s : MDEntryType} (hs : s ≠ .trade) (p : Int) :
    ((run update b evs).levels s).getD p 0 = (b.levels s).getD p 0 + added s p evs := by
  induction evs generalizing b with
  | nil => simp [added]
  | cons ev evs ih =>
    rw [run_cons, ih (bookPos_update h ev) fun e he => hevs e (List.mem_cons_of_mem _ he),
      update_new_levels h (hevs ev List.mem_cons_self) hs, added, added, List.map_cons,
      List.sum_cons, add_assoc]

theorem run_new_entries {b : OrderBook} {evs : List LOBEvent}
    (hevs : ∀ ev ∈ evs, ev.action = .new) (id : Nat) :
    (run update b evs).entries[id]? = (stored id evs).or b.entries[id]? := by
  induction evs generalizing b with
  | nil => simp [stored]
  | cons ev evs ih =>
    rw [run_cons, ih fun e he => hevs e (List.mem_cons_of_mem _ he), stored, Option.or_assoc]
    congr 1
    rw [update_new (hevs ev List.mem_cons_self)]
    by_cases hq : ev.qty ≤ 0
    · rw [if_pos hq, if_neg (fun hc => absurd hc.1 (by omega)), Option.none_or]
    · rw [if_neg hq, store_entries, ExtTreeMap.getElem?_insert]
      by_cases hid : ev.entryId = id
      · rw [if_pos (by simpa using hid), if_pos ⟨by omega, hid⟩, Option.some_or]
      · rw [if_neg (by simpa using hid), if_neg (fun hc => hid hc.2), Option.none_or]

theorem levels_eq_empty_iff {m : Levels} (h : LevelsPos m) : m = ∅ ↔ ∀ p, m.getD p 0 = 0 := by
  constructor
  · rintro rfl p
    simp
  · intro hz
    exact levels_ext h levelsPos_empty fun p => by simp [hz p]

theorem book_ext {b c : OrderBook} (hb : BookPos b) (hc : BookPos c)
    (hl : ∀ s, s ≠ .trade → ∀ p, (b.levels s).getD p 0 = (c.levels s).getD p 0)
    (he : ∀ id : Nat, b.entries[id]? = c.entries[id]?) : b = c := by
  have hbids : b.bids = c.bids := levels_ext (hb .bid) (hc .bid) (hl .bid (by decide))
  have hasks : b.asks = c.asks := levels_ext (hb .offer) (hc .offer) (hl .offer (by decide))
  have hentries : b.entries = c.entries := ExtTreeMap.ext_getElem? he
  cases b
  cases c
  congr

section NewEvents

variable {evs : List LOBEvent} (hevs : ∀ ev ∈ evs, ev.action = .new)

include hevs

theorem run_new_levels_empty {s : MDEntryType} (hs : s ≠ .trade) (p : Int) :
    ((run update {} evs).levels s).getD p 0 = added s p evs := by
  rw [run_new_levels bookPos_empty hevs hs]
  cases s <;> simp [levels]

theorem run_new_entries_empty (id : Nat) :
    (run update {} evs).entries[id]? = stored id evs := by
  rw [run_new_entries hevs]
  simp

/-- A book that leaves no trace under New events has no level, and the events store over each
of its entries. -/
theorem empty_of_run_new_eq {b : OrderBook} (h : BookPos b)
    (heq : run update {} evs = run update b evs) :
    b.bids = ∅ ∧ b.asks = ∅ ∧ ∀ id ∈ b.entries, ∃ ev ∈ evs, ev.entryId = id ∧ 0 < ev.qty := by
  have hz : ∀ s, s ≠ .trade → ∀ p, (b.levels s).getD p 0 = 0 := by
    intro s hs p
    have hp := run_new_levels h hevs hs p
    rw [← heq, run_new_levels_empty hevs hs p] at hp
    omega
  refine ⟨?_, ?_, ?_⟩
  · exact (levels_eq_empty_iff (h .bid)).mpr (hz .bid (by decide))
  · exact (levels_eq_empty_iff (h .offer)).mpr (hz .offer (by decide))
  · intro id hid
    rw [← stored_isSome]
    have hp := run_new_entries (b := b) hevs id
    rw [← heq, run_new_entries_empty hevs id] at hp
    cases hst : stored id evs with
    | some e => rfl
    | none =>
      rw [hst, Option.none_or] at hp
      rw [ExtTreeMap.mem_iff_isSome_getElem?, ← hp] at hid
      exact hid

theorem run_new_eq_of_empty {b : OrderBook} (h : BookPos b) (hbids : b.bids = ∅)
    (hasks : b.asks = ∅) (hids : ∀ id ∈ b.entries, ∃ ev ∈ evs, ev.entryId = id ∧ 0 < ev.qty) :
    run update {} evs = run update b evs := by
  refine book_ext (bookPos_run bookPos_empty _) (bookPos_run h _) ?_ ?_
  · intro s hs p
    rw [run_new_levels_empty hevs hs, run_new_levels h hevs hs]
    cases s with
    | bid => simp [hbids]
    | offer => simp [hasks]
    | trade => exact absurd rfl hs
  · intro id
    rw [run_new_entries_empty hevs, run_new_entries hevs]
    cases hst : stored id evs with
    | some e => rfl
    | none =>
      have hno : id ∉ b.entries := by
        intro hid
        have hsome := stored_isSome.mpr (hids id hid)
        simp [hst] at hsome
      simp [ExtTreeMap.getElem?_eq_none hno]

end NewEvents

/-- New events laid over a book give what they give on the empty book exactly when the book
has no level and none of its entries outlives them. -/
theorem run_new_eq_iff {b : OrderBook} (h : BookPos b) {evs : List LOBEvent}
    (hevs : ∀ ev ∈ evs, ev.action = .new) :
    run update {} evs = run update b evs ↔
      b.bids = ∅ ∧ b.asks = ∅ ∧ ∀ id ∈ b.entries, ∃ ev ∈ evs, ev.entryId = id ∧ 0 < ev.qty := by
  constructor
  · exact empty_of_run_new_eq hevs h
  · intro hempty
    obtain ⟨hbids, hasks, hids⟩ := hempty
    exact run_new_eq_of_empty hevs h hbids hasks hids

theorem replay_append (log evs : List LOBEvent) :
    replay (log ++ evs) = run update (replay log) evs := by
  unfold replay
  rw [run_append]

theorem replays_deliver_iff {g : FixMdGateway} (d : Delivery) (hpos : BookPos g.book)
    (h : Replays g) : Replays (deliver g d) ↔ SnapshotCovers g d := by
  rw [deliver, fromApp, SnapshotCovers]
  by_cases hx : d.msg.msgType = "X"
  · rw [if_pos hx]
    refine iff_of_true ?_ (fun hw => absurd (hx.symm.trans hw) (by decide))
    obtain ⟨evs, he⟩ := onIncrementalRefresh_emits g d.msg d.tsNs
    rw [Replays, he, foldl_emit_book, foldl_emit_logged, replay_append, ← h]
    rfl
  · rw [if_neg hx]
    by_cases hw : d.msg.msgType = "W"
    · rw [if_pos hw, forall_prop_of_true hw,
        ← run_new_eq_iff hpos fun ev hev => snapshotOf_new hev]
      rw [Replays, onSnapshot_eq, foldl_emit_book, foldl_emit_logged, replay_append, ← h]
      exact Iff.rfl
    · rw [if_neg hw]
      exact iff_of_true h fun hc => absurd hc hw

/-- Over any sequence of messages the live book equals the replayed log after every message
exactly when every snapshot finds no level and re-inserts every id left in the table. -/
theorem replays_iff_snapshotCovers (queue : Bool) (ds : List Delivery) :
    (∀ pre, pre <+: ds → Replays (run deliver { queue } pre)) ↔
      Along deliver SnapshotCovers { queue } ds := by
  rw [← always_iff_forall_run]
  exact always_iff_along (I := fun g => BookPos g.book) (P := Replays)
    (fun g d hpos _ => bookPos_deliver hpos d) (fun g d hpos h => replays_deliver_iff d hpos h)
    bookPos_empty rfl

def bidSnapshot (id : String) : Delivery :=
  { msg :=
      { msgType := "W", noMDEntries := some 1
        groups := [{ entryType := some '0', entryId := some id, px := some 2000, size := some 1 }] }
    tsNs := 0 }

/-- After a second snapshot the replayed book still holds the bid of the first. -/
theorem not_replays_second_snapshot :
    ¬ Replays (run deliver {} [bidSnapshot "1", bidSnapshot "2"]) := by
  intro h
  have hdepth : (run deliver {} [bidSnapshot "1", bidSnapshot "2"]).book.entries.size =
      (replay (run deliver {} [bidSnapshot "1", bidSnapshot "2"]).logged).entries.size := by
    rw [← h]
  revert hdepth
  decide +kernel

end SmartQuant.Replay
