import SmartQuant.Lib.Word64
import SmartQuant.Md.OrderBook

/-!
# The market-data gateway

`fromApp` takes a 35=X or 35=W message apart, entry by entry. Each entry that
parses is written to the log, applied to the book and offered to the queue, in
this order. A `FieldNotFound` thrown in the loop ends the message; what the
entries before it did stays done.
-/
namespace SmartQuant

open Std

/-- One group of NoMDEntries: tags 279, 269, 278 (as text), 270 and 271. A field is `none`
when its tag is absent. -/
structure MDEntry where
  updateAction : Option Char := none
  entryType : Option Char := none
  entryId : Option String := none
  px : Option ℚ := none
  size : Option ℚ := none

/-- An application message as the market-data session hands it over. -/
structure MDMessage where
  msgType : String
  noMDEntries : Option Int := none
  /-- The groups that are really there; `getGroup` throws `FieldNotFound` behind them. -/
  groups : List MDEntry := []

def isSpace (c : Char) : Bool := c = ' ' || (9 ≤ c.toNat && c.toNat ≤ 13)

/-- `std::stoull` in base 10; `none` where it throws. A leading minus negates modulo 2^64. -/
def stoull (s : String) : Option Nat :=
  let body := s.toList.dropWhile isSpace
  let digits := (if body.head? = some '-' ∨ body.head? = some '+' then body.tail else body)
    |>.takeWhile Char.isDigit
  let value := digits.foldl (fun n c => 10 * n + (c.toNat - 48)) 0
  if digits = [] ∨ Word64.size ≤ value then none
  else if body.head? = some '-' then some (Word64.sub 0 value)
  else some value

namespace MDEntry

/-- `ev.entry_id`: 0 when the tag is absent or `stoull` throws. -/
def id (e : MDEntry) : Nat := (e.entryId.bind stoull).getD 0

/-- `ev.price`: 0 when the tag is absent. -/
def price (e : MDEntry) : Int := (e.px.map toPrice).getD 0

/-- `ev.qty`: 0 when the tag is absent. -/
def qty (e : MDEntry) : Int := (e.size.map truncate).getD 0

end MDEntry

/-- The entries the loop over `1 .. num_entries` reaches. -/
def MDMessage.reached (m : MDMessage) (n : Int) : List MDEntry := m.groups.take n.toNat

def parseAction (c : Char) : Option MDUpdateAction :=
  if c = '0' then some .new else if c = '1' then some .change
  else if c = '2' then some .delete else none

def parseType (c : Char) : Option MDEntryType :=
  if c = '0' then some .bid else if c = '1' then some .offer
  else if c = '2' then some .trade else none

/-- What the body of the entry loop makes of one entry: `FieldNotFound` leaves the loop,
`continue` skips the entry, anything else is an event. -/
inductive Parsed where
  | fieldNotFound
  | skip
  | event (ev : LOBEvent)

/-- An entry of 35=X. A Delete takes side, price and quantity from the live entry of its id. -/
def parseIncremental (tsNs : Nat) (book : OrderBook) (e : MDEntry) : Parsed :=
  match e.updateAction with
  | none => .fieldNotFound
  | some c =>
    match parseAction c with
    | none => .skip
    | some .delete =>
      match book.lookupEntry e.id with
      | some old => .event
        { timestampNs := tsNs, entryId := e.id, action := .delete
          side := old.side, price := old.price, qty := old.qty }
      | none => .event { timestampNs := tsNs, entryId := e.id, action := .delete }
    | some action =>
      match e.entryType with
      | none => .fieldNotFound
      | some t =>
        match parseType t with
        | none => .skip
        | some side => .event
          { timestampNs := tsNs, entryId := e.id, action, side, price := e.price, qty := e.qty }

/-- An entry of 35=W: a New, unless it is neither Bid nor Offer. -/
def parseSnapshot (tsNs : Nat) (e : MDEntry) : Parsed :=
  match e.entryType with
  | none => .fieldNotFound
  | some t =>
    match parseType t with
    | none | some .trade => .skip
    | some side => .event
      { timestampNs := tsNs, entryId := e.id, action := .new, side, price := e.price, qty := e.qty }

structure FixMdGateway where
  book : OrderBook := {}
  logged : List LOBEvent := []
  queue : Bool := true
  offered : List LOBEvent := []

namespace FixMdGateway

def emit (g : FixMdGateway) (ev : LOBEvent) : FixMdGateway :=
  { g with
    book := g.book.update ev
    logged := g.logged ++ [ev]
    offered := if g.queue then g.offered ++ [ev] else g.offered }

def handleEntries (parse : OrderBook → MDEntry → Parsed) : FixMdGateway → List MDEntry →
    FixMdGateway
  | g, [] => g
  | g, e :: es =>
    match parse g.book e with
    | .fieldNotFound => g
    | .skip => handleEntries parse g es
    | .event ev => handleEntries parse (g.emit ev) es

def onIncrementalRefresh (g : FixMdGateway) (m : MDMessage) (tsNs : Nat) : FixMdGateway :=
  match m.noMDEntries with
  | none => g
  | some n => handleEntries (parseIncremental tsNs) g (m.reached n)

/-- The book is cleared before anything of the message is read. -/
def onSnapshot (g : FixMdGateway) (m : MDMessage) (tsNs : Nat) : FixMdGateway :=
  let g := { g with book := g.book.clear }
  match m.noMDEntries with
  | none => g
  | some n => handleEntries (fun _ => parseSnapshot tsNs) g (m.reached n)

/-- The market-data part of `fromApp`; a reject (35=Y) leaves book, log and queue alone. -/
def fromApp (g : FixMdGateway) (m : MDMessage) (tsNs : Nat) : FixMdGateway :=
  if m.msgType = "X" then g.onIncrementalRefresh m tsNs
  else if m.msgType = "W" then g.onSnapshot m tsNs
  else g

def snapshotEvents (tsNs : Nat) : List MDEntry → List LOBEvent
  | [] => []
  | e :: es =>
    match parseSnapshot tsNs e with
    | .fieldNotFound => []
    | .skip => snapshotEvents tsNs es
    | .event ev => ev :: snapshotEvents tsNs es

def snapshotOf (m : MDMessage) (tsNs : Nat) : List LOBEvent :=
  match m.noMDEntries with
  | none => []
  | some n => snapshotEvents tsNs (m.reached n)

/-- The loop of a message does nothing but emit some list of events. -/
theorem handleEntries_emits (parse : OrderBook → MDEntry → Parsed) (g : FixMdGateway)
    (es : List MDEntry) : ∃ evs : List LOBEvent, handleEntries parse g es = evs.foldl emit g := by
  induction es generalizing g with
  | nil => exact ⟨[], rfl⟩
  | cons e es ih =>
    rw [handleEntries]
    cases parse g.book e with
    | fieldNotFound => exact ⟨[], rfl⟩
    | skip => exact ih g
    | event ev =>
      obtain ⟨evs, h⟩ := ih (g.emit ev)
      exact ⟨ev :: evs, h⟩

theorem handleEntries_snapshot (tsNs : Nat) (g : FixMdGateway) (es : List MDEntry) :
    handleEntries (fun _ => parseSnapshot tsNs) g es =
      (snapshotEvents tsNs es).foldl emit g := by
  induction es generalizing g with
  | nil => rfl
  | cons e es ih =>
    rw [handleEntries, snapshotEvents]
    cases parseSnapshot tsNs e with
    | fieldNotFound => rfl
    | skip => exact ih g
    | event ev => exact ih (g.emit ev)

theorem onIncrementalRefresh_emits (g : FixMdGateway) (m : MDMessage) (tsNs : Nat) :
    ∃ evs : List LOBEvent, g.onIncrementalRefresh m tsNs = evs.foldl emit g := by
  rw [onIncrementalRefresh]
  cases m.noMDEntries with
  | none => exact ⟨[], rfl⟩
  | some n => exact handleEntries_emits _ _ _

theorem onSnapshot_eq (g : FixMdGateway) (m : MDMessage) (tsNs : Nat) :
    g.onSnapshot m tsNs =
      (snapshotOf m tsNs).foldl emit { g with book := g.book.clear } := by
  rw [onSnapshot, snapshotOf]
  cases m.noMDEntries with
  | none => rfl
  | some n => exact handleEntries_snapshot _ _ _

theorem parseSnapshot_new {tsNs : Nat} {e : MDEntry} {ev : LOBEvent}
    (h : parseSnapshot tsNs e = .event ev) : ev.action = .new := by
  rw [parseSnapshot] at h
  split at h
  · cases h
  · split at h
    · cases h
    · cases h
    · cases h
      rfl

theorem snapshotEvents_new {tsNs : Nat} {es : List MDEntry} {ev : LOBEvent}
    (h : ev ∈ snapshotEvents tsNs es) : ev.action = .new := by
  induction es with
  | nil => simp [snapshotEvents] at h
  | cons e es ih =>
    rw [snapshotEvents] at h
    cases hp : parseSnapshot tsNs e with
    | fieldNotFound => simp [hp] at h
    | skip =>
      rw [hp] at h
      exact ih h
    | event ev' =>
      rw [hp] at h
      rcases List.mem_cons.mp h with rfl | h
      · exact parseSnapshot_new hp
      · exact ih h

theorem snapshotOf_new {m : MDMessage} {tsNs : Nat} {ev : LOBEvent}
    (h : ev ∈ snapshotOf m tsNs) : ev.action = .new := by
  rw [snapshotOf] at h
  cases hn : m.noMDEntries with
  | none => simp [hn] at h
  | some n =>
    rw [hn] at h
    exact snapshotEvents_new h

theorem foldl_emit_book (evs : List LOBEvent) (g : FixMdGateway) :
    (evs.foldl emit g).book = evs.foldl OrderBook.update g.book := by
  induction evs generalizing g with
  | nil => rfl
  | cons ev evs ih => exact ih (g.emit ev)

theorem foldl_emit_logged (evs : List LOBEvent) (g : FixMdGateway) :
    (evs.foldl emit g).logged = g.logged ++ evs := by
  induction evs generalizing g with
  | nil => simp
  | cons ev evs ih =>
    rw [List.foldl_cons, ih]
    simp [emit]

end FixMdGateway
end SmartQuant
