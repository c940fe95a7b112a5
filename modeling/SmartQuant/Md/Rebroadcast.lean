import SmartQuant.Md.EntryCodec
import SmartQuant.Md.Replay

/-!
# The log on the wire again

The log of a session without snapshots says all there is to say: sent out again event
by event, it takes a fresh gateway to the same book and to the same log. A Delete is
logged with what the book knew, so the book of the second gateway resolves it to the
same event.
-/
namespace SmartQuant.Rebroadcast

open OrderBook EntryCodec FixMdGateway Replay Runs

/-- A 35=X with one event, at the time of the event. -/
def message (ev : LOBEvent) : Delivery :=
  { msg := { msgType := "X", noMDEntries := some 1, groups := [ofEvent ev] }
    tsNs := ev.timestampNs }

def rebroadcast (log : List LOBEvent) : List Delivery := log.map message

/-- The gateway finds the event as it stands. -/
structure ReadsBack (b : OrderBook) (ev : LOBEvent) : Prop where
  fits : FitsWire ev
  resolved : ev.action = .delete → resolved b ev = ev

/-- A price and a quantity that doubles carry. -/
def Carried (ev : LOBEvent) : Prop := 0 ≤ ev.price ∧ ev.price ≤ 2 ^ 50 ∧ |ev.qty| ≤ 2 ^ 53

instance : DecidablePred Carried := fun _ => inferInstanceAs (Decidable (_ ∧ _ ∧ _))

theorem stoull_lt {s : String} {n : Nat} (h : stoull s = some n) : n < Word64.size := by
  unfold stoull at h
  simp only at h
  generalize List.takeWhile Char.isDigit _ = digits at h
  split at h
  · cases h
  · rename_i hreads
    split at h
    · rw [← Option.some.inj h]
      exact Nat.mod_lt _ (by decide)
    · rw [← Option.some.inj h]
      exact not_le.mp fun hle => hreads (Or.inr hle)

theorem id_lt (e : MDEntry) : e.id < Word64.size := by
  rw [MDEntry.id]
  cases h : e.entryId.bind stoull with
  | none => decide
  | some n =>
    obtain ⟨s, -, hs⟩ := Option.bind_eq_some_iff.mp h
    exact stoull_lt hs

theorem deliver_message {g : FixMdGateway} {ev : LOBEvent} (h : ReadsBack g.book ev) :
    deliver g (message ev) = g.emit ev := by
  have hev : (if ev.action = .delete then EntryCodec.resolved g.book ev else ev) = ev := by
    split
    · exact h.resolved ‹_›
    · rfl
  show handleEntries (parseIncremental ev.timestampNs) g [ofEvent ev] = g.emit ev
  rw [handleEntries, parseIncremental_ofEvent g.book ev h.fits, hev]
  rfl

/-- What an entry became reads back as itself. -/
theorem readsBack_of_parsed {tsNs : Nat} {b : OrderBook} {e : MDEntry} {ev : LOBEvent}
    (h : parseIncremental tsNs b e = .event ev) (hcarried : Carried ev) : ReadsBack b ev := by
  obtain ⟨hprice, hprice', hqty⟩ := hcarried
  unfold parseIncremental at h
  cases hc : e.updateAction with
  | none => simp [hc] at h
  | some c =>
    simp only [hc] at h
    cases ha : parseAction c with
    | none => simp [ha] at h
    | some a =>
      cases a with
      | delete =>
        simp only [ha] at h
        cases hlive : b.lookupEntry e.id with
        | none =>
          simp only [hlive, Parsed.event.injEq] at h
          subst h
          exact ⟨⟨id_lt e, hprice, hprice', hqty⟩, fun _ => by simp [resolved, hlive]⟩
        | some old =>
          simp only [hlive, Parsed.event.injEq] at h
          subst h
          exact ⟨⟨id_lt e, hprice, hprice', hqty⟩, fun _ => by simp [resolved, hlive]⟩
      | new | change =>
        simp only [ha] at h
        cases ht : e.entryType with
        | none => simp [ht] at h
        | some t =>
          simp only [ht] at h
          cases hside : parseType t with
          | none => simp [hside] at h
          | some side =>
            simp only [hside, Parsed.event.injEq] at h
            subst h
            exact ⟨⟨id_lt e, hprice, hprice', hqty⟩, fun hdel => by cases hdel⟩

theorem handleEntries_rebroadcast {tsNs : Nat} {g : FixMdGateway} {es : List MDEntry}
    (hcarried : ∀ ev ∈ (handleEntries (parseIncremental tsNs) g es).logged, Carried ev) :
    ∃ evs, handleEntries (parseIncremental tsNs) g es = run deliver g (rebroadcast evs) ∧
      (handleEntries (parseIncremental tsNs) g es).logged = g.logged ++ evs := by
  induction es generalizing g with
  | nil => exact ⟨[], rfl, (List.append_nil _).symm⟩
  | cons e es ih =>
    rw [handleEntries] at hcarried ⊢
    cases hp : parseIncremental tsNs g.book e with
    | fieldNotFound => exact ⟨[], rfl, (List.append_nil _).symm⟩
    | skip =>
      simp only [hp] at hcarried ⊢
      exact ih hcarried
    | event ev =>
      simp only [hp] at hcarried ⊢
      obtain ⟨evs, hrun, hlogged⟩ := ih hcarried
      have hmem : ev ∈ (handleEntries (parseIncremental tsNs) (g.emit ev) es).logged := by
        rw [hlogged, emit]
        simp
      have hread := readsBack_of_parsed hp (hcarried ev hmem)
      refine ⟨ev :: evs, ?_, ?_⟩
      · rw [rebroadcast, List.map_cons, run_cons, deliver_message hread]
        exact hrun
      · rw [hlogged, emit, List.append_assoc]
        rfl

theorem deliver_rebroadcast {g : FixMdGateway} {d : Delivery} (hd : d.msg.msgType ≠ "W")
    (hcarried : ∀ ev ∈ (deliver g d).logged, Carried ev) :
    ∃ evs, deliver g d = run deliver g (rebroadcast evs) ∧
      (deliver g d).logged = g.logged ++ evs := by
  rw [deliver, fromApp, if_neg hd] at *
  split
  · rename_i hx
    rw [if_pos hx] at hcarried
    rw [onIncrementalRefresh] at hcarried ⊢
    cases hn : d.msg.noMDEntries with
    | none => exact ⟨[], rfl, (List.append_nil _).symm⟩
    | some n =>
      rw [hn] at hcarried
      exact handleEntries_rebroadcast hcarried
  · exact ⟨[], rfl, (List.append_nil _).symm⟩

/-- What is logged stays logged. -/
theorem logged_grows (g : FixMdGateway) (ds : List Delivery) :
    g.logged <+: (run deliver g ds).logged := by
  induction ds generalizing g with
  | nil => exact List.prefix_refl _
  | cons d ds ih =>
    refine List.IsPrefix.trans ?_ (ih (deliver g d))
    rw [deliver, fromApp]
    split
    · obtain ⟨evs, he⟩ := onIncrementalRefresh_emits g d.msg d.tsNs
      rw [he, foldl_emit_logged]
      exact List.prefix_append _ _
    · split
      · rw [onSnapshot_eq, foldl_emit_logged]
        exact List.prefix_append _ _
      · exact List.prefix_refl _

theorem run_rebroadcast {g : FixMdGateway} {ds : List Delivery}
    (hds : ∀ d ∈ ds, d.msg.msgType ≠ "W")
    (hcarried : ∀ ev ∈ (run deliver g ds).logged, Carried ev) :
    ∃ evs, run deliver g ds = run deliver g (rebroadcast evs) ∧
      (run deliver g ds).logged = g.logged ++ evs := by
  induction ds generalizing g with
  | nil => exact ⟨[], rfl, (List.append_nil _).symm⟩
  | cons d ds ih =>
    have hfirst : ∀ ev ∈ (deliver g d).logged, Carried ev := fun ev hev =>
      hcarried ev ((logged_grows (deliver g d) ds).subset hev)
    obtain ⟨evs, hstep, hlogged⟩ := deliver_rebroadcast (hds d List.mem_cons_self) hfirst
    obtain ⟨evs', hrun, hall⟩ := ih (fun d' hd' => hds d' (List.mem_cons_of_mem _ hd')) hcarried
    refine ⟨evs ++ evs', ?_, ?_⟩
    · rw [run_cons, hrun, hstep, rebroadcast, rebroadcast, rebroadcast, List.map_append,
        run_append]
    · rw [run_cons, hall, hlogged, List.append_assoc]

/-- Sent out again event by event at the times of the events, the log of a session without
snapshots takes a fresh gateway to the same book, the same log and the same queue, as long as
doubles carry what is in it. -/
theorem rebroadcast_log {ds : List Delivery} (queue : Bool)
    (hds : ∀ d ∈ ds, d.msg.msgType ≠ "W")
    (hcarried : ∀ ev ∈ (run deliver { queue } ds).logged, Carried ev) :
    run deliver { queue } (rebroadcast (run deliver { queue } ds).logged) =
      run deliver { queue } ds := by
  obtain ⟨evs, hrun, hlogged⟩ := run_rebroadcast hds hcarried
  rw [hlogged, List.nil_append]
  exact hrun.symm

/-- A bid comes and goes. -/
def bidAndCancel : List Delivery :=
  [message { timestampNs := 1, entryId := 7, price := 200000, qty := 5, action := .new },
    message { timestampNs := 2, entryId := 7, action := .delete }]

theorem rebroadcast_log_bidAndCancel :
    run deliver {} (rebroadcast (run deliver {} bidAndCancel).logged) =
      run deliver {} bidAndCancel :=
  rebroadcast_log true (by decide) (by decide +kernel)

end SmartQuant.Rebroadcast
