import SmartQuant.Md.Replay

/-!
# The entries the gateway comes to

A message is a loop over its entries, and each entry meets the book as the entries
before it left it. `visits` lists these meetings over a whole session: the events of
the session are the events of its visits, in order, and a property of the book that
every visit keeps holds of the book every visit meets.
-/
namespace SmartQuant.EntryVisits

open FixMdGateway Replay Runs

/-- An entry the loop comes to, in a 35=X or a 35=W, and the book it meets. -/
structure Visit where
  incremental : Bool
  tsNs : Nat
  book : OrderBook
  entry : MDEntry

namespace Visit

def parsed (v : Visit) : Parsed :=
  if v.incremental then parseIncremental v.tsNs v.book v.entry else parseSnapshot v.tsNs v.entry

/-- The event logged, applied and offered for the entry, if any. -/
def event (v : Visit) : Option LOBEvent :=
  match v.parsed with
  | .event ev => some ev
  | _ => none

/-- The book the visit leaves. -/
def after (v : Visit) : OrderBook :=
  match v.event with
  | some ev => v.book.update ev
  | none => v.book

/-- The MDUpdateAction the loop gives the entry; all of a snapshot is New. -/
def action (v : Visit) : Option MDUpdateAction :=
  if v.incremental then v.entry.updateAction.bind parseAction else some .new

/-- The MDEntryType on the wire; a snapshot takes no trades. -/
def side (v : Visit) : Option MDEntryType :=
  (v.entry.entryType.bind parseType).filter fun s => v.incremental || s != .trade

/-- What `lookup_entry` leaves in the event of a Delete: the defaults where it finds nothing. -/
def resolved (v : Visit) : EntryInfo := (v.book.lookupEntry v.entry.id).getD ⟨.bid, 0, 0⟩

theorem event_of_delete {v : Visit} (h : v.action = some .delete) : v.event = some
    { timestampNs := v.tsNs, entryId := v.entry.id, action := .delete
      side := v.resolved.side, price := v.resolved.price, qty := v.resolved.qty } := by
  rw [action] at h
  rw [event, parsed, resolved]
  cases hinc : v.incremental with
  | false => simp [hinc] at h
  | true =>
    simp only [hinc, if_true] at h ⊢
    obtain ⟨c, hc, hparse⟩ := Option.bind_eq_some_iff.mp h
    simp only [parseIncremental, hc, hparse]
    cases v.book.lookupEntry v.entry.id <;> rfl

theorem event_of_ne_delete {v : Visit} (h : v.action ≠ some .delete) :
    v.event = v.action.bind fun action => v.side.map fun side =>
      { timestampNs := v.tsNs, entryId := v.entry.id, action, side
        price := v.entry.price, qty := v.entry.qty } := by
  unfold action at h ⊢
  rw [event, parsed, side]
  cases hinc : v.incremental with
  | false =>
    simp only [parseSnapshot]
    cases v.entry.entryType with
    | none => simp
    | some t =>
      cases ht : parseType t with
      | none => simp [ht]
      | some s => cases s <;> simp [ht]
  | true =>
    simp only [hinc, if_true, parseIncremental] at h ⊢
    cases hc : v.entry.updateAction with
    | none => simp
    | some c =>
      rw [hc, Option.bind_some] at h
      simp only [Option.bind_some]
      cases ha : parseAction c with
      | none => simp
      | some a =>
        cases a with
        | delete => exact absurd ha h
        | new | change =>
          cases v.entry.entryType with
          | none => simp
          | some t => cases ht : parseType t <;> simp [ht]

/-- An event that is no Delete tells what the entry says. -/
theorem entry_of_event {v : Visit} {ev : LOBEvent} (h : v.event = some ev)
    (hact : ev.action ≠ .delete) : v.action = some ev.action ∧ v.side = some ev.side ∧
      ev.entryId = v.entry.id ∧ ev.price = v.entry.price ∧ ev.qty = v.entry.qty := by
  by_cases hdel : v.action = some .delete
  · rw [event_of_delete hdel] at h
    cases h
    exact absurd rfl hact
  · rw [event_of_ne_delete hdel, Option.bind_eq_some_iff] at h
    obtain ⟨a, ha, hmap⟩ := h
    obtain ⟨s, hs, rfl⟩ := Option.map_eq_some_iff.mp hmap
    exact ⟨ha, hs, rfl, rfl, rfl⟩

theorem event_of_entry {v : Visit} {action : MDUpdateAction} {side : MDEntryType}
    (hact : v.action = some action) (hne : action ≠ .delete) (hside : v.side = some side) :
    v.event = some
      { timestampNs := v.tsNs, entryId := v.entry.id, action, side
        price := v.entry.price, qty := v.entry.qty } := by
  rw [event_of_ne_delete (by rw [hact]; simpa using hne), hact, hside]
  rfl

theorem after_of_event {v : Visit} {ev : LOBEvent} (h : v.event = some ev) :
    v.after = v.book.update ev := by
  rw [after, h]

end Visit

def loopVisits (incremental : Bool) (tsNs : Nat) : OrderBook → List MDEntry → List Visit
  | _, [] => []
  | book, entry :: entries =>
    let v : Visit := { incremental, tsNs, book, entry }
    match v.parsed with
    | .fieldNotFound => [v]
    | _ => v :: loopVisits incremental tsNs v.after entries

/-- The entries of the groups that NoMDEntries announces. -/
def announced (m : MDMessage) : List MDEntry :=
  match m.noMDEntries with
  | none => []
  | some n => m.reached n

def messageVisits (g : FixMdGateway) (d : Delivery) : List Visit :=
  if d.msg.msgType = "X" then loopVisits true d.tsNs g.book (announced d.msg)
  else if d.msg.msgType = "W" then loopVisits false d.tsNs g.book.clear (announced d.msg)
  else []

/-- All visits of a session, in order. -/
def visits (g : FixMdGateway) (ds : List Delivery) : List Visit :=
  outputs deliver messageVisits g ds

/-- The entries of a message that its loop never comes to, with the book the message leaves. -/
def messageUnreached (g : FixMdGateway) (d : Delivery) : List Visit :=
  if d.msg.msgType = "X" ∨ d.msg.msgType = "W" then
    (d.msg.groups.drop (messageVisits g d).length).map fun entry =>
      { incremental := decide (d.msg.msgType = "X"), tsNs := d.tsNs, book := (deliver g d).book
        entry }
  else []

/-- All entries of a session that are never handled. -/
def unreached (g : FixMdGateway) (ds : List Delivery) : List Visit :=
  outputs deliver messageUnreached g ds

section Loop

variable {incremental : Bool} {tsNs : Nat} {b : OrderBook} {e : MDEntry} {es : List MDEntry}

/-- A FieldNotFound ends the loop. -/
theorem loopVisits_stop
    (h : Visit.parsed { incremental, tsNs, book := b, entry := e } = .fieldNotFound) :
    loopVisits incremental tsNs b (e :: es) = [{ incremental, tsNs, book := b, entry := e }] := by
  simp only [loopVisits, h]

theorem loopVisits_next
    (h : Visit.parsed { incremental, tsNs, book := b, entry := e } ≠ .fieldNotFound) :
    loopVisits incremental tsNs b (e :: es) = { incremental, tsNs, book := b, entry := e } ::
      loopVisits incremental tsNs
        (Visit.after { incremental, tsNs, book := b, entry := e }) es := by
  rw [loopVisits]
  split
  · exact absurd ‹_› h
  · rfl

theorem entry_mem_of_loopVisits {v : Visit} (h : v ∈ loopVisits incremental tsNs b es) :
    v.entry ∈ es := by
  induction es generalizing b with
  | nil => cases h
  | cons e es ih =>
    by_cases hp : Visit.parsed { incremental, tsNs, book := b, entry := e } = .fieldNotFound
    · rw [loopVisits_stop hp, List.mem_singleton] at h
      rw [h]
      exact List.mem_cons_self
    · rw [loopVisits_next hp, List.mem_cons] at h
      rcases h with rfl | h
      · exact List.mem_cons_self
      · exact List.mem_cons_of_mem _ (ih h)

end Loop

theorem entries_of_loopVisits : (loopVisits incremental tsNs b es).map Visit.entry <+: es := by
  induction es generalizing b with
  | nil => exact List.prefix_refl []
  | cons e es ih =>
    by_cases hp : Visit.parsed { incremental, tsNs, book := b, entry := e } = .fieldNotFound
    · rw [loopVisits_stop hp]
      exact List.prefix_append [e] es
    · rw [loopVisits_next hp, List.map_cons, List.cons_prefix_cons]
      exact ⟨rfl, ih⟩

theorem announced_isPrefix (m : MDMessage) : announced m <+: m.groups := by
  unfold announced MDMessage.reached
  split
  · exact List.nil_prefix
  · exact List.take_prefix _ _

/-- Each entry of a message is visited or never reached. -/
theorem entries_split (g : FixMdGateway) {d : Delivery}
    (h : d.msg.msgType = "X" ∨ d.msg.msgType = "W") :
    (messageVisits g d).map Visit.entry ++ (messageUnreached g d).map Visit.entry =
      d.msg.groups := by
  have hprefix : (messageVisits g d).map Visit.entry <+: d.msg.groups := by
    rw [messageVisits]
    split_ifs
    · exact entries_of_loopVisits.trans (announced_isPrefix _)
    · exact entries_of_loopVisits.trans (announced_isPrefix _)
    · exact List.nil_prefix
  have hrest : (messageUnreached g d).map Visit.entry =
      d.msg.groups.drop (messageVisits g d).length := by
    rw [messageUnreached, if_pos h, List.map_map]
    exact List.map_id _
  rw [hrest, ← List.length_map Visit.entry]
  exact List.prefix_iff_eq_append.mp hprefix

/-- Every visit is to an entry of one of the messages. -/
theorem entry_mem_of_visits {g : FixMdGateway} {ds : List Delivery} {v : Visit}
    (h : v ∈ visits g ds) : ∃ d ∈ ds, v.entry ∈ d.msg.groups := by
  obtain ⟨g', d, hd, hv⟩ := mem_outputs h
  refine ⟨d, hd, (announced_isPrefix _).subset ?_⟩
  rw [messageVisits] at hv
  split_ifs at hv
  · exact entry_mem_of_loopVisits hv
  · exact entry_mem_of_loopVisits hv
  · cases hv

/-- The loop of a message emits the events of its visits. -/
theorem handleEntries_visits {parse : OrderBook → MDEntry → Parsed} {incremental : Bool}
    {tsNs : Nat} (hparse : ∀ book entry, parse book entry =
      Visit.parsed { incremental, tsNs, book, entry }) (g : FixMdGateway) (es : List MDEntry) :
    handleEntries parse g es =
      ((loopVisits incremental tsNs g.book es).filterMap Visit.event).foldl emit g := by
  induction es generalizing g with
  | nil => rfl
  | cons e es ih =>
    rw [handleEntries, hparse]
    cases hp : Visit.parsed { incremental, tsNs, book := g.book, entry := e } with
    | fieldNotFound =>
      rw [loopVisits_stop hp]
      simp [Visit.event, hp]
    | skip =>
      rw [loopVisits_next (by simp [hp])]
      simpa [Visit.event, Visit.after, hp] using ih g
    | event ev =>
      rw [loopVisits_next (by simp [hp])]
      simpa [Visit.event, Visit.after, hp, emit] using ih (g.emit ev)

/-- Where a message starts: a snapshot clears the book. -/
def opened (g : FixMdGateway) (d : Delivery) : FixMdGateway :=
  if d.msg.msgType = "W" then { g with book := g.book.clear } else g

theorem deliver_visits (g : FixMdGateway) (d : Delivery) :
    deliver g d = ((messageVisits g d).filterMap Visit.event).foldl emit (opened g d) := by
  rw [deliver, fromApp, messageVisits, opened]
  by_cases hx : d.msg.msgType = "X"
  · have hw : d.msg.msgType ≠ "W" := by rw [hx]; decide
    rw [if_pos hx, if_pos hx, if_neg hw]
    rw [onIncrementalRefresh, announced]
    cases d.msg.noMDEntries with
    | none => rfl
    | some n =>
      have hparse : ∀ book entry, parseIncremental d.tsNs book entry =
          Visit.parsed { incremental := true, tsNs := d.tsNs, book, entry } := fun _ _ => rfl
      exact handleEntries_visits hparse g _
  · rw [if_neg hx, if_neg hx]
    by_cases hw : d.msg.msgType = "W"
    · rw [if_pos hw, if_pos hw, if_pos hw]
      rw [onSnapshot, announced]
      cases d.msg.noMDEntries with
      | none => rfl
      | some n =>
        have hparse : ∀ book entry, parseSnapshot d.tsNs entry =
            Visit.parsed { incremental := false, tsNs := d.tsNs, book, entry } := fun _ _ => rfl
        exact handleEntries_visits hparse { g with book := g.book.clear } _
    · rw [if_neg hw, if_neg hw, if_neg hw]
      rfl

theorem foldl_emit_queue (evs : List LOBEvent) (g : FixMdGateway) :
    (evs.foldl emit g).queue = g.queue := by
  induction evs generalizing g with
  | nil => rfl
  | cons ev evs ih => rw [List.foldl_cons, ih, emit]

theorem foldl_emit_offered {g : FixMdGateway} (h : g.queue = true) (evs : List LOBEvent) :
    (evs.foldl emit g).offered = g.offered ++ evs := by
  induction evs generalizing g with
  | nil => simp
  | cons ev evs ih =>
    rw [List.foldl_cons, ih (by rw [emit, h])]
    simp [emit, h]

theorem opened_queue (g : FixMdGateway) (d : Delivery) : (opened g d).queue = g.queue := by
  rw [opened]
  split <;> rfl

theorem opened_offered (g : FixMdGateway) (d : Delivery) : (opened g d).offered = g.offered := by
  rw [opened]
  split <;> rfl

/-- What a session offers to the queue are the events of its visits. -/
theorem run_offered {g : FixMdGateway} (h : g.queue = true) (ds : List Delivery) :
    (run deliver g ds).offered = g.offered ++ (visits g ds).filterMap Visit.event := by
  induction ds generalizing g with
  | nil => simp [visits]
  | cons d ds ih =>
    have hq : (deliver g d).queue = true := by
      rw [deliver_visits, foldl_emit_queue, opened_queue, h]
    rw [run_cons, ih hq, deliver_visits, foldl_emit_offered (by rw [opened_queue, h]),
      opened_offered, ← deliver_visits, visits, visits, outputs_cons, List.filterMap_append,
      List.append_assoc]

section Book

variable {I : OrderBook → Prop}

/-- A visit's event takes the book it meets to the one it leaves. -/
theorem run_visit (v : Visit) (vs : List Visit) :
    run OrderBook.update v.book ((v :: vs).filterMap Visit.event) =
      run OrderBook.update v.after (vs.filterMap Visit.event) := by
  rw [Visit.after]
  cases hev : v.event with
  | none => rw [List.filterMap_cons_none hev]
  | some ev => rw [List.filterMap_cons_some hev, run_cons]

theorem loopVisits_book {incremental : Bool} {tsNs : Nat} {b : OrderBook} {es : List MDEntry}
    (hb : I b) (hstep : ∀ v ∈ loopVisits incremental tsNs b es, I v.book → I v.after) :
    (∀ v ∈ loopVisits incremental tsNs b es, I v.book) ∧
      I (run OrderBook.update b
        ((loopVisits incremental tsNs b es).filterMap Visit.event)) := by
  induction es generalizing b with
  | nil => exact ⟨by simp [loopVisits], hb⟩
  | cons e es ih =>
    by_cases hp : Visit.parsed { incremental, tsNs, book := b, entry := e } = .fieldNotFound
    · rw [loopVisits_stop hp]
      simpa [Visit.event, hp] using hb
    · rw [loopVisits_next hp] at hstep ⊢
      rw [List.forall_mem_cons] at hstep
      obtain ⟨hbooks, hlast⟩ := ih (hstep.1 hb) hstep.2
      refine ⟨List.forall_mem_cons.mpr ⟨hb, hbooks⟩, ?_⟩
      rw [run_visit { incremental, tsNs, book := b, entry := e }]
      exact hlast

theorem messageVisits_book (hempty : I {}) {g : FixMdGateway} (hg : I g.book) {d : Delivery}
    (hstep : ∀ v ∈ messageVisits g d, I v.book → I v.after) :
    (∀ v ∈ messageVisits g d, I v.book) ∧ I (deliver g d).book := by
  rw [deliver_visits, foldl_emit_book]
  unfold messageVisits opened at *
  by_cases hx : d.msg.msgType = "X"
  · have hw : d.msg.msgType ≠ "W" := by rw [hx]; decide
    simp only [if_pos hx, if_neg hw] at hstep ⊢
    exact loopVisits_book hg hstep
  · by_cases hw : d.msg.msgType = "W"
    · simp only [if_neg hx, if_pos hw] at hstep ⊢
      exact loopVisits_book hempty hstep
    · simp only [if_neg hx, if_neg hw]
      exact ⟨by simp, hg⟩

/-- What holds of the empty book and is kept by every visit holds of the book of each visit,
and of the book at the end. -/
theorem book_of_visits (hempty : I {}) {g : FixMdGateway} (hg : I g.book) {ds : List Delivery}
    (hstep : ∀ v ∈ visits g ds, I v.book → I v.after) :
    (∀ v ∈ visits g ds, I v.book) ∧ I (run deliver g ds).book := by
  induction ds generalizing g with
  | nil => exact ⟨by simp [visits], hg⟩
  | cons d ds ih =>
    unfold visits at hstep ih ⊢
    rw [outputs_cons, List.forall_mem_append] at hstep ⊢
    obtain ⟨hbooks, hnext⟩ := messageVisits_book hempty hg hstep.1
    obtain ⟨hrest, hlast⟩ := ih hnext hstep.2
    exact ⟨⟨hbooks, hrest⟩, hlast⟩

/-- What every update keeps, every visit keeps. -/
theorem after_of_update {v : Visit} (hstep : ∀ b ev, I b → I (b.update ev)) (h : I v.book) :
    I v.after := by
  rw [Visit.after]
  cases v.event with
  | none => exact h
  | some ev => exact hstep _ ev h

theorem book_of_updates (hempty : I {}) (hstep : ∀ b ev, I b → I (b.update ev))
    (ds : List Delivery) : ∀ v ∈ visits {} ds, I v.book :=
  (book_of_visits hempty hempty fun _ _ => after_of_update hstep).1

end Book

/-- A 35=X with these entries. -/
def refresh (es : List MDEntry) : Delivery :=
  { msg := { msgType := "X", noMDEntries := some es.length, groups := es }, tsNs := 0 }

end SmartQuant.EntryVisits
