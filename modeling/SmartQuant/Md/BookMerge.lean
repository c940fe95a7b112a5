import SmartQuant.Lib.KeyedRuns
import SmartQuant.Md.BookHistory
import SmartQuant.Md.ChangeAsReplace
import SmartQuant.Md.Replay

/-!
# The book of merged histories

An id may come back while it is live: the New rewrites its entry and leaves the old quantity in
the level for good. Even so a level is what the ids have put there one by one, the clamp of
`level_add` at zero never bites, and events of different ids do not see each other. A feed may
thus mix the histories of its ids in any way.
-/
namespace SmartQuant.BookMerge

open Std OrderBook Runs KeyedRuns BookInvariant ChangeAsReplace Replay BookHistory

/-- What `update` hands to the two callbacks. -/
def notices (b : OrderBook) (ev : LOBEvent) : List LOBEvent :=
  (b.tradeNotice ev).toList ++ (b.cancelNotice ev).toList

/-- Every level has at least what its live entries ask for. -/
structure Covers (b : OrderBook) : Prop where
  entries : EntriesPos b
  levels : BookPos b
  live : ∀ s, s ≠ .trade → ∀ p, liveQty b s p ≤ (b.levels s).getD p 0

/-- What an event takes out of a level, given the entry its id has. -/
def taken (ev : LOBEvent) (old : Option EntryInfo) (s : MDEntryType) (p : Int) : Int :=
  if ev.action = .new then 0 else old.elim 0 (share s p)

/-- What an event puts into a level. -/
def put (ev : LOBEvent) (s : MDEntryType) (p : Int) : Int :=
  if ev.action ≠ .delete ∧ 0 < ev.qty then share s p ⟨ev.side, ev.price, ev.qty⟩ else 0

/-- The book with the old entry out, where the action takes it out. -/
def remaining (b : OrderBook) (ev : LOBEvent) : OrderBook :=
  if ev.action = .new then b else cleared b ev.entryId

theorem update_eq (b : OrderBook) (ev : LOBEvent) :
    b.update ev = if ev.action ≠ .delete ∧ 0 < ev.qty then (remaining b ev).store ev
      else remaining b ev := by
  rw [remaining]
  cases hact : ev.action with
  | new =>
    rw [update_new hact]
    simp only [← Int.not_lt, ite_not]
    simp
  | change =>
    rw [update_change_cleared hact]
    simp only [← Int.not_lt, ite_not]
    simp
  | delete =>
    rw [update_delete_cleared hact]
    simp

section Halves

variable {b : OrderBook}

theorem Covers.share_le (h : Covers b) {id : Nat} {old : EntryInfo}
    (hold : b.entries[id]? = some old) {s : MDEntryType} (hs : s ≠ .trade) (p : Int) :
    share s p old ≤ (b.levels s).getD p 0 := by
  refine Int.le_trans ?_ (h.live s hs p)
  exact KeyedSum.le_total (fun k v hv => share_nonneg (h.entries k v hv) s p) hold

theorem Covers.cleared_getD (h : Covers b) (id : Nat) {s : MDEntryType} (hs : s ≠ .trade)
    (p : Int) : ((cleared b id).levels s).getD p 0 =
      (b.levels s).getD p 0 - b.entries[id]?.elim 0 (share s p) := by
  rw [cleared, forget_levels]
  cases hold : b.entries[id]? with
  | none => simp
  | some old =>
    have hle := h.share_le hold hs p
    simp only [Option.elim_some]
    rw [withdraw, addLevel_levels]
    rw [share] at hle ⊢
    by_cases hside : old.side = s
    · rw [if_pos ⟨hside, hs⟩, levelAdd_getD]
      by_cases hp : old.price = p
      · rw [if_pos ⟨hside, hp⟩] at hle
        rw [if_pos hp, if_pos (And.intro hside hp), max_eq_right (by omega)]
        omega
      · rw [if_neg hp, if_neg fun hc => hp hc.2, sub_zero]
    · rw [if_neg fun hc => hside hc.1, if_neg fun hc => hside hc.1, sub_zero]

theorem liveQty_cleared (b : OrderBook) (id : Nat) :
    liveQty (cleared b id) = liveQty (b.forget id) := by
  rw [cleared]
  cases b.entries[id]? with
  | none => rfl
  | some old => exact liveQty_withdraw b old id

theorem Covers.cleared (h : Covers b) (id : Nat) : Covers (cleared b id) := by
  constructor
  · rw [ChangeAsReplace.cleared]
    apply entriesPos_forget
    cases b.entries[id]? with
    | none => exact h.entries
    | some old => exact entriesPos_withdraw h.entries old
  · rw [ChangeAsReplace.cleared]
    apply bookPos_forget
    cases b.entries[id]? with
    | none => exact h.levels
    | some old => exact bookPos_addLevel h.levels _ _ _
  · intro s hs p
    have hlive := h.live s hs p
    have hforget := liveQty_forget b id s p
    rw [h.cleared_getD id hs, liveQty_cleared]
    omega

theorem store_getD (h : BookPos b) {ev : LOBEvent} (hq : 0 < ev.qty) {s : MDEntryType}
    (hs : s ≠ .trade) (p : Int) : ((b.store ev).levels s).getD p 0 =
      (b.levels s).getD p 0 + share s p ⟨ev.side, ev.price, ev.qty⟩ := by
  have hnn := getD_nonneg (h s) p
  rw [store_levels, addLevel_levels, share]
  by_cases hside : ev.side = s
  · rw [if_pos ⟨hside, hs⟩, levelAdd_getD]
    by_cases hp : ev.price = p
    · rw [if_pos hp, if_pos ⟨hside, hp⟩, max_eq_right (by omega)]
    · rw [if_neg hp, if_neg fun hc => hp hc.2, add_zero]
  · rw [if_neg fun hc => hside hc.1, if_neg fun hc => hside hc.1, add_zero]

theorem Covers.store (h : Covers b) {ev : LOBEvent} (hq : 0 < ev.qty) : Covers (b.store ev) := by
  refine ⟨entriesPos_store h.entries hq, bookPos_store h.levels ev, fun s hs p => ?_⟩
  have hlive := h.live s hs p
  have hforget := liveQty_forget b ev.entryId s p
  have hnn : 0 ≤ b.entries[ev.entryId]?.elim 0 (share s p) := by
    cases hold : b.entries[ev.entryId]? with
    | none => exact le_rfl
    | some old => exact share_nonneg (h.entries _ _ hold) s p
  rw [store_getD h.levels hq hs, liveQty_store]
  omega

end Halves

section Update

variable {b : OrderBook}

theorem covers_empty : Covers {} := by
  refine ⟨entriesPos_empty, bookPos_empty, fun s hs p => ?_⟩
  rw [(tracks_empty s hs).2 p]

theorem Covers.remaining (h : Covers b) (ev : LOBEvent) : Covers (remaining b ev) := by
  rw [BookMerge.remaining]
  split
  · exact h
  · exact h.cleared ev.entryId

theorem Covers.update (h : Covers b) (ev : LOBEvent) : Covers (b.update ev) := by
  rw [update_eq]
  split
  · rename_i hstores
    exact (h.remaining ev).store hstores.2
  · exact h.remaining ev

/-- No clamp: a level is changed by what the event takes and puts. -/
theorem Covers.update_getD (h : Covers b) (ev : LOBEvent) {s : MDEntryType} (hs : s ≠ .trade)
    (p : Int) : ((b.update ev).levels s).getD p 0 =
      (b.levels s).getD p 0 - taken ev b.entries[ev.entryId]? s p + put ev s p := by
  have hremaining : ((BookMerge.remaining b ev).levels s).getD p 0 =
      (b.levels s).getD p 0 - taken ev b.entries[ev.entryId]? s p := by
    rw [BookMerge.remaining, taken]
    split
    · rw [sub_zero]
    · exact h.cleared_getD ev.entryId hs p
  rw [update_eq, put]
  split
  · rename_i hstores
    rw [store_getD (h.remaining ev).levels hstores.2 hs, hremaining]
  · rw [hremaining, add_zero]

theorem Covers.swap (h : Covers b) {ev ev' : LOBEvent} (hne : ev.entryId ≠ ev'.entryId) :
    (b.update ev).update ev' = (b.update ev').update ev := by
  apply book_ext (bookPos_update (bookPos_update h.levels ev) ev')
    (bookPos_update (bookPos_update h.levels ev') ev)
  · intro s hs p
    rw [(h.update ev).update_getD ev' hs, (h.update ev').update_getD ev hs, h.update_getD ev hs,
      h.update_getD ev' hs, update_entries_other b hne, update_entries_other b hne.symm]
    ring
  · intro id
    by_cases hid : ev.entryId = id
    · subst hid
      rw [update_entries_other _ hne.symm, update_entries_self, update_entries_self,
        update_entries_other b hne.symm]
    · rw [update_entries_other (b.update ev') hid]
      by_cases hid' : ev'.entryId = id
      · subst hid'
        rw [update_entries_self, update_entries_self, update_entries_other b hne]
      · rw [update_entries_other _ hid', update_entries_other b hid, update_entries_other b hid']

theorem notices_update (b : OrderBook) {ev ev' : LOBEvent} (hne : ev.entryId ≠ ev'.entryId) :
    notices (b.update ev') ev = notices b ev := by
  rw [notices, notices, cancelNotice, cancelNotice, update_entries_other b hne.symm]
  rfl

theorem entryId_of_notices {ev note : LOBEvent} (h : note ∈ notices b ev) :
    note.entryId = ev.entryId := by
  rw [notices, List.mem_append, Option.mem_toList, Option.mem_toList, tradeNotice,
    cancelNotice] at h
  rcases h with h | h
  · split at h
    · rw [Option.some.inj h]
    · cases h
  · split at h
    · obtain ⟨old, -, rfl⟩ := Option.map_eq_some_iff.mp h
      rfl
    · cases h

theorem independent_update :
    Independent OrderBook.update notices LOBEvent.entryId LOBEvent.entryId Covers where
  keeps _ ev h := h.update ev
  swap _ _ _ h hne := h.swap hne
  unseen b _ _ _ hne := notices_update b hne
  own _ _ _ hnote := entryId_of_notices hnote

end Update

/-- Whatever the events and however often ids come back: two feeds with the same history of each
id lead to the same book, and every id has the same callbacks in the same order. -/
theorem book_of_histories {evs evs' : List LOBEvent}
    (h : SameByKey LOBEvent.entryId evs evs') :
    run update {} evs = run update {} evs' ∧
      SameByKey LOBEvent.entryId (outputs update notices {} evs) (outputs update notices {} evs') :=
  run_of_sameByKey independent_update covers_empty h

/-- The bid comes twice under one id and is deleted once; the offer comes at the end, or before. -/
def twiceThenAsk : List LOBEvent := [quoteBid, quoteBid, withdrawBid, quoteAsk]

def askThenTwice : List LOBEvent := [quoteAsk, quoteBid, quoteBid, withdrawBid]

theorem sameByKey_askThenTwice : SameByKey LOBEvent.entryId twiceThenAsk askThenTwice := by
  intro id
  by_cases hbid : 1 = id
  · subst hbid
    decide
  · rw [twiceThenAsk, askThenTwice]
    simp only [List.filter_cons, List.filter_nil, quoteBid, quoteAsk, withdrawBid, hbid]
    rfl

theorem book_of_histories_askThenTwice :
    run update {} twiceThenAsk = run update {} askThenTwice ∧
      SameByKey LOBEvent.entryId (outputs update notices {} twiceThenAsk)
        (outputs update notices {} askThenTwice) :=
  book_of_histories sameByKey_askThenTwice

/-- What the second New left behind stays in the level. -/
example : (run update {} twiceThenAsk).bidQtyAt 200000 = 5 ∧
    (run update {} twiceThenAsk).lookupEntry 1 = none := by decide +kernel

end SmartQuant.BookMerge
