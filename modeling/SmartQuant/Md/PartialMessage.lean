import SmartQuant.Md.EntryVisits

/-!
# A message with an incomplete entry

The loop of a 35=X skips an entry of an unknown action or type, but a New or Change
without MDEntryType throws out of it. The entries behind it are neither logged nor
applied, while those before it stay so.
-/
namespace SmartQuant.PartialMessage

open FixMdGateway Replay EntryVisits

/-- A 35=X as the dictionary lets it through: NoMDEntries counts the groups, and each has its
MDUpdateAction. -/
structure Admitted (m : MDMessage) : Prop where
  incremental : m.msgType = "X"
  counted : m.noMDEntries = some m.groups.length
  actions : ∀ e ∈ m.groups, e.updateAction.isSome

def action (e : MDEntry) : Option MDUpdateAction := e.updateAction.bind parseAction

def side (e : MDEntry) : Option MDEntryType := e.entryType.bind parseType

/-- The entry is a Delete, or a New or Change of a known type. -/
def Deliverable (e : MDEntry) : Prop :=
  action e = some .delete ∨ (action e).isSome ∧ (side e).isSome

/-- The entry is a New or Change without MDEntryType. -/
def LacksType (e : MDEntry) : Prop :=
  (action e = some .new ∨ action e = some .change) ∧ e.entryType = none

instance : DecidablePred Deliverable := fun _ => inferInstanceAs (Decidable (_ ∨ _ ∧ _))

instance : DecidablePred LacksType := fun _ => inferInstanceAs (Decidable ((_ ∨ _) ∧ _))

/-- The entry as the loop comes to it. -/
def visit (tsNs : Nat) (g : FixMdGateway) (entry : MDEntry) : Visit :=
  { incremental := true, tsNs, book := g.book, entry }

/-- Log, apply and offer the event of an entry, if it has one. -/
def applyEntry (tsNs : Nat) (g : FixMdGateway) (entry : MDEntry) : FixMdGateway :=
  match (visit tsNs g entry).event with
  | some ev => g.emit ev
  | none => g

/-- Every entry is handled on its own, in message order. -/
def applyEach (tsNs : Nat) (g : FixMdGateway) (entries : List MDEntry) : FixMdGateway :=
  entries.foldl (applyEntry tsNs) g

/-- No entry of the message is lost. -/
def LosesNothing (g : FixMdGateway) (d : Delivery) : Prop :=
  deliver g d = applyEach d.tsNs g d.msg.groups

/-- An entry has an event exactly if it is deliverable, whatever the state. -/
theorem event_isSome_iff (tsNs : Nat) (g : FixMdGateway) (e : MDEntry) :
    (visit tsNs g e).event.isSome ↔ Deliverable e := by
  have haction : (visit tsNs g e).action = action e := rfl
  have hside : (visit tsNs g e).side = side e := by
    show (side e).filter (fun s => true || s != .trade) = side e
    cases side e <;> rfl
  rw [Deliverable]
  by_cases hdel : action e = some .delete
  · rw [Visit.event_of_delete (haction.trans hdel)]
    exact iff_of_true rfl (Or.inl hdel)
  · rw [Visit.event_of_ne_delete (haction ▸ hdel), haction, hside, or_iff_right hdel]
    cases action e with
    | none => simp
    | some a => simp

theorem parsed_eq_fieldNotFound_iff (tsNs : Nat) (g : FixMdGateway) {e : MDEntry}
    (h : e.updateAction.isSome) :
    parseIncremental tsNs g.book e = .fieldNotFound ↔ LacksType e := by
  obtain ⟨c, hc⟩ := Option.isSome_iff_exists.mp h
  rw [LacksType, action, hc, Option.bind_some]
  cases ha : parseAction c with
  | none => simp [parseIncremental, hc, ha]
  | some a =>
    cases a with
    | delete => cases hlook : g.book.lookupEntry e.id <;> simp [parseIncremental, hc, ha, hlook]
    | new | change =>
      cases htype : e.entryType with
      | none => simp [parseIncremental, hc, ha, htype]
      | some t => cases ht : parseType t <;> simp [parseIncremental, hc, ha, htype, ht]

/-- Each deliverable entry adds one event to the log. -/
theorem applyEach_logged (tsNs : Nat) (g : FixMdGateway) (es : List MDEntry) :
    (applyEach tsNs g es).logged.length = g.logged.length + es.countP Deliverable := by
  induction es generalizing g with
  | nil => rfl
  | cons e es ih =>
    have hsome := event_isSome_iff tsNs g e
    rw [applyEach, List.foldl_cons, ← applyEach, ih, applyEntry]
    cases hev : (visit tsNs g e).event with
    | none =>
      rw [hev] at hsome
      rw [List.countP_cons_of_neg (by simpa using hsome)]
    | some ev =>
      rw [hev] at hsome
      show (g.logged ++ [ev]).length + _ = _
      rw [List.countP_cons_of_pos (by simpa using hsome), List.length_append,
        List.length_singleton]
      omega

theorem applyEach_of_none {tsNs : Nat} {g : FixMdGateway} {es : List MDEntry}
    (h : ∀ e ∈ es, ¬ Deliverable e) : applyEach tsNs g es = g := by
  induction es with
  | nil => rfl
  | cons e es ih =>
    obtain ⟨he, hes⟩ := List.forall_mem_cons.mp h
    have hnone : (visit tsNs g e).event = none := by
      rw [← Option.not_isSome_iff_eq_none, event_isSome_iff]
      exact he
    rw [applyEach, List.foldl_cons, ← applyEach, applyEntry, hnone]
    exact ih hes

theorem applyEntry_of_parsed {tsNs : Nat} {g : FixMdGateway} {e : MDEntry} :
    applyEntry tsNs g e = match parseIncremental tsNs g.book e with
      | .event ev => g.emit ev
      | _ => g := by
  rw [applyEntry, Visit.event]
  show (match (match parseIncremental tsNs g.book e with
    | .event ev => some ev
    | _ => none) with
    | some ev => g.emit ev
    | none => g) = _
  cases parseIncremental tsNs g.book e <;> rfl

/-- The loop handles every entry exactly if nothing deliverable stands behind an entry that
throws. -/
theorem handleEntries_eq_iff {tsNs : Nat} {g : FixMdGateway} {es : List MDEntry}
    (h : ∀ e ∈ es, e.updateAction.isSome) :
    handleEntries (parseIncremental tsNs) g es = applyEach tsNs g es ↔
      es.Pairwise fun e later => LacksType e → ¬ Deliverable later := by
  induction es generalizing g with
  | nil => exact iff_of_true rfl List.Pairwise.nil
  | cons e es ih =>
    obtain ⟨he, hes⟩ := List.forall_mem_cons.mp h
    have hthrows := parsed_eq_fieldNotFound_iff tsNs g he
    rw [handleEntries, applyEach, List.foldl_cons, ← applyEach, applyEntry_of_parsed,
      List.pairwise_cons]
    cases hp : parseIncremental tsNs g.book e with
    | fieldNotFound =>
      have hlacks := hthrows.mp hp
      constructor
      · intro heq
        have hlen := congrArg (fun g : FixMdGateway => g.logged.length) heq
        have hcount := applyEach_logged tsNs g es
        have hzero : es.countP Deliverable = 0 := by
          simp only at hlen
          omega
        rw [List.countP_eq_zero] at hzero
        have hnone : ∀ later ∈ es, ¬ Deliverable later := fun later hlater => by
          simpa using hzero later hlater
        exact ⟨fun later hlater _ => hnone later hlater,
          List.pairwise_of_forall_mem_list fun _ _ later hlater _ => hnone later hlater⟩
      · intro hpair
        exact (applyEach_of_none fun later hlater => hpair.1 later hlater hlacks).symm
    | skip =>
      have hkeeps : ¬ LacksType e := fun hc => by rw [hthrows.mpr hc] at hp; cases hp
      rw [and_iff_right fun later _ hc => absurd hc hkeeps]
      exact ih hes
    | event ev =>
      have hkeeps : ¬ LacksType e := fun hc => by rw [hthrows.mpr hc] at hp; cases hp
      rw [and_iff_right fun later _ hc => absurd hc hkeeps]
      exact ih hes

/-- A 35=X loses none of its entries exactly if no deliverable entry stands behind a New or
Change without MDEntryType, whatever the state. -/
theorem losesNothing_iff (g : FixMdGateway) {d : Delivery} (h : Admitted d.msg) :
    LosesNothing g d ↔
      d.msg.groups.Pairwise fun e later => LacksType e → ¬ Deliverable later := by
  rw [← handleEntries_eq_iff h.actions, LosesNothing, deliver, fromApp, if_pos h.incremental,
    onIncrementalRefresh, h.counted]
  show handleEntries _ g (d.msg.groups.take (d.msg.groups.length : Int).toNat) = _ ↔ _
  rw [Int.toNat_natCast, List.take_length]

/-- A quote, and an offer without its type. -/
def quote : MDEntry :=
  { updateAction := some '0', entryType := some '0', entryId := some "8", px := some 2000
    size := some 5 }

def untyped : MDEntry :=
  { updateAction := some '0', entryId := some "7", px := some 2001, size := some 5 }

theorem admitted_refresh {es : List MDEntry} (h : ∀ e ∈ es, e.updateAction.isSome) :
    Admitted (refresh es).msg := ⟨rfl, rfl, h⟩

theorem losesNothing_iff_untypedLast : LosesNothing {} (refresh [quote, untyped]) ↔
    [quote, untyped].Pairwise fun e later => LacksType e → ¬ Deliverable later :=
  losesNothing_iff {} (admitted_refresh (by decide))

/-- With the untyped entry first, the quote behind it never reaches the log. -/
theorem not_losesNothing_untypedFirst : ¬ LosesNothing {} (refresh [untyped, quote]) := by
  intro h
  have hlogged := congrArg (fun g : FixMdGateway => g.logged.length) h
  rw [show (applyEach _ _ _).logged.length = 1 from applyEach_logged _ _ _] at hlogged
  exact absurd hlogged (by decide)

end SmartQuant.PartialMessage
