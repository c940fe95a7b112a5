import Mathlib.Data.Rat.Sqrt
import SmartQuant.Alpha.CancelFactor
import SmartQuant.Md.EntryVisits

/-!
# Cancels against the entries they withdraw

A Delete has no side on the wire. The gateway looks its id up before the book
forgets it, and goes on with the event whether or not it found anything: an event
starts as a Bid, so a Delete of an id that is not live counts as a cancelled bid. A
Delete behind an entry that ends the loop counts nowhere.
-/
namespace SmartQuant.CancelAttribution

open Std FixMdGateway Replay Runs EntryVisits KeyedSum

variable {R : Type*} [Field R] [LinearOrder R] (sqrt : R → R)

/-- The cancels of one side in a bucket. -/
def cancelsOn (c : Cancels R) : MDEntryType → R
  | .bid => c.bidCancels
  | .offer => c.askCancels
  | .trade => 0

/-- By how much `on_event` raises the count of the head bucket it has moved to. -/
def increment (s : MDEntryType) (f : CancelFactor R) (ev : LOBEvent) : R :=
  cancelsOn (f.onEvent sqrt ev).ring.headBucket.val s -
    cancelsOn (f.advanceTime ev.timestampNs).ring.headBucket.val s

/-- All increments of one side over a run. -/
def counted (s : MDEntryType) (f : CancelFactor R) (evs : List LOBEvent) : R :=
  (outputs (CancelFactor.onEvent sqrt) (fun f ev => [increment sqrt s f ev]) f evs).sum

/-- The entry is a Delete of a live entry of the given type. -/
def DeletesLive (s : MDEntryType) (v : Visit) : Prop :=
  v.action = some .delete ∧ (v.book.lookupEntry v.entry.id).map EntryInfo.side = some s

/-- The entry is a Delete of an id that is not live. -/
def DeletesUnknown (v : Visit) : Prop := v.action = some .delete ∧ v.entry.id ∉ v.book.entries

instance (s : MDEntryType) : DecidablePred (DeletesLive s) :=
  fun _ => inferInstanceAs (Decidable (_ ∧ _))

instance : DecidablePred DeletesUnknown := fun _ => inferInstanceAs (Decidable (_ ∧ ¬ _))

/-- Every Delete counts on the side of the entry it withdraws, and no other counts. The Deletes
are those of the messages, whether or not the loop comes to them. -/
structure AttributesCancels (f : CancelFactor R) (ds : List Delivery) : Prop where
  bid : counted sqrt .bid f (run deliver {} ds).offered =
    ((visits {} ds ++ unreached {} ds).countP (DeletesLive .bid) : ℕ)
  offer : counted sqrt .offer f (run deliver {} ds).offered =
    ((visits {} ds ++ unreached {} ds).countP (DeletesLive .offer) : ℕ)
  unknown : ∀ v ∈ visits {} ds, DeletesUnknown v → ∀ ev, v.event = some ev →
    ∀ f s, increment sqrt s f ev = 0

/-- Each Delete that is handled finds its entry, and none of a live quote is cut off. -/
structure FindsEntries (ds : List Delivery) : Prop where
  handled : ∀ v ∈ visits {} ds, v.action = some .delete → v.entry.id ∈ v.book.entries
  cutOff : ∀ v ∈ unreached {} ds, ¬ DeletesLive .bid v ∧ ¬ DeletesLive .offer v

omit [LinearOrder R] in
/-- Recording an event changes the head bucket's counts, by 1 on the side of a cancel. -/
theorem record_ring (f : CancelFactor R) (ev : LOBEvent) :
    ∃ g, (f.record ev).ring = f.ring.modifyHead g ∧ ∀ s, s ≠ .trade → ∀ v,
      cancelsOn (g v) s = cancelsOn v s + if ev.action = .delete ∧ ev.side = s then 1 else 0 := by
  by_cases hdel : ev.action = .delete
  · rw [CancelFactor.record, if_pos hdel]
    cases ev.side with
    | bid =>
      refine ⟨fun v => { v with bidCancels := v.bidCancels + 1 }, rfl, fun s hs v => ?_⟩
      cases s <;> simp [cancelsOn, hdel]
    | offer =>
      refine ⟨fun v => { v with askCancels := v.askCancels + 1 }, rfl, fun s hs v => ?_⟩
      cases s <;> simp [cancelsOn, hdel]
    | trade =>
      refine ⟨id, (BucketRing.modifyHead_id _).symm, fun s hs v => ?_⟩
      rw [if_neg fun hc => hs hc.2.symm, add_zero, id]
  · rw [CancelFactor.record, if_neg hdel]
    refine ⟨id, (BucketRing.modifyHead_id _).symm, fun s hs v => ?_⟩
    rw [if_neg fun hc => hdel hc.1, add_zero, id]

theorem increment_eq (s : MDEntryType) (f : CancelFactor R) (ev : LOBEvent) :
    increment sqrt s f ev = if ev.action = .delete ∧ ev.side = s ∧ s ≠ .trade then 1 else 0 := by
  rw [increment, CancelFactor.onEvent, CancelFactor.recomputeZscores_ring]
  rw [CancelFactor.record]
  by_cases hdel : ev.action = .delete
  · rw [if_pos hdel]
    cases ev.side <;> cases s <;> simp [cancelsOn, hdel]
  · rw [if_neg hdel, if_neg fun hc => hdel hc.1, sub_self]

theorem counted_eq (s : MDEntryType) (f : CancelFactor R) (evs : List LOBEvent) :
    counted sqrt s f evs =
      (evs.map fun ev => if ev.action = .delete ∧ ev.side = s ∧ s ≠ .trade then 1 else 0).sum := by
  rw [counted, outputs_eq_map fun f ev => by rw [increment_eq]]

omit [LinearOrder R] in
/-- A visit counts for the entry it withdraws, or for a bid if it withdraws none. -/
theorem counted_visit {s : MDEntryType} (hs : s ≠ .trade) (v : Visit) :
    (v.event.elim 0 fun ev =>
        if ev.action = .delete ∧ ev.side = s ∧ s ≠ .trade then (1 : R) else 0) =
      if DeletesLive s v ∨ DeletesUnknown v ∧ s = .bid then 1 else 0 := by
  by_cases hact : v.action = some .delete
  · rw [Visit.event_of_delete hact, Option.elim_some]
    refine if_congr ?_ rfl rfl
    rw [DeletesLive, DeletesUnknown, Visit.resolved]
    rw [ExtTreeMap.mem_iff_isSome_getElem?, ← OrderBook.lookupEntry]
    cases hlook : v.book.lookupEntry v.entry.id with
    | none => simp [hact, hs, eq_comm]
    | some old => simp [hact, hs]
  · rw [Visit.event_of_ne_delete hact, if_neg (by rintro (⟨h, -⟩ | ⟨⟨h, -⟩, -⟩) <;> exact hact h)]
    cases ha : v.action with
    | none => rfl
    | some a =>
      have hne : a ≠ .delete := fun hc => hact (by rw [ha, hc])
      cases v.side <;> simp [hne]

theorem not_live_and_unknown {s : MDEntryType} {v : Visit} (h : DeletesUnknown v) :
    ¬ DeletesLive s v := by
  intro hdeletes
  obtain ⟨-, hlive⟩ := hdeletes
  have hnone : v.book.lookupEntry v.entry.id = none := ExtTreeMap.getElem?_eq_none h.2
  simp [hnone] at hlive

/-- Over a session one side counts its Deletes of live entries, the bid side also those of
unknown ids. -/
theorem counted_offered {s : MDEntryType} (hs : s ≠ .trade) (f : CancelFactor R)
    (ds : List Delivery) : counted sqrt s f (run deliver {} ds).offered =
      ((visits {} ds).countP (DeletesLive s) +
        (visits {} ds).countP (fun v => DeletesUnknown v ∧ s = .bid) : ℕ) := by
  rw [counted_eq, run_offered rfl, List.nil_append, sum_filterMap, Nat.cast_add, natCast_countP,
    natCast_countP, ← List.sum_map_add]
  refine congrArg List.sum (List.map_congr_left fun v _ => ?_)
  rw [counted_visit hs]
  by_cases hun : DeletesUnknown v
  · simp [hun, not_live_and_unknown hun]
  · simp [hun]

/-- A Delete of an unknown id that the loop comes to counts as a cancelled bid. -/
theorem handled_of_unknown {ds : List Delivery}
    (h : ∀ v ∈ visits {} ds, DeletesUnknown v → ∀ ev, v.event = some ev →
      ∀ (f : CancelFactor R) s, increment sqrt s f ev = 0) :
    ∀ v ∈ visits {} ds, ¬ DeletesUnknown v := by
  intro v hv hun
  have hnone : v.book.lookupEntry v.entry.id = none := ExtTreeMap.getElem?_eq_none hun.2
  have hbid : v.resolved.side = .bid := by
    rw [Visit.resolved, hnone]
    rfl
  have hzero := h v hv hun _ (Visit.event_of_delete hun.1) {} .bid
  rw [increment_eq, if_pos ⟨rfl, hbid, by decide⟩] at hzero
  exact one_ne_zero hzero

section Ordered

variable [IsStrictOrderedRing R]

/-- In every session each Delete counts on the side of the live entry it withdraws, and no
other counts, exactly when every Delete the loop comes to carries the id of a live entry and
the loop comes to every Delete of a live quote. -/
theorem attributesCancels_iff (f : CancelFactor R) (ds : List Delivery) :
    AttributesCancels sqrt f ds ↔ FindsEntries ds := by
  have hcount : ∀ s, s ≠ .trade → (∀ v ∈ visits {} ds, ¬ DeletesUnknown v) →
      (counted sqrt s f (run deliver {} ds).offered =
          ((visits {} ds ++ unreached {} ds).countP (DeletesLive s) : ℕ) ↔
        ∀ v ∈ unreached {} ds, ¬ DeletesLive s v) := by
    intro s hs hknown
    have hzero : (visits {} ds).countP (fun v => DeletesUnknown v ∧ s = .bid) = 0 := by
      rw [List.countP_eq_zero]
      intro v hv
      simpa using fun hun => absurd hun (hknown v hv)
    rw [counted_offered sqrt hs, hzero, List.countP_append, Nat.cast_inj]
    have hall : (unreached {} ds).countP (DeletesLive s) = 0 ↔
        ∀ v ∈ unreached {} ds, ¬ DeletesLive s v := by
      rw [List.countP_eq_zero]
      simp only [decide_eq_true_eq]
    rw [← hall]
    omega
  constructor
  · intro h
    have hknown := handled_of_unknown sqrt h.unknown
    have hbid := (hcount .bid (by decide) hknown).mp h.bid
    have hoffer := (hcount .offer (by decide) hknown).mp h.offer
    refine ⟨fun v hv hact => ?_, fun v hv => ⟨hbid v hv, hoffer v hv⟩⟩
    by_contra hnot
    exact hknown v hv ⟨hact, hnot⟩
  · intro h
    have hknown : ∀ v ∈ visits {} ds, ¬ DeletesUnknown v := fun v hv hun =>
      hun.2 (h.handled v hv hun.1)
    exact ⟨(hcount .bid (by decide) hknown).mpr fun v hv => (h.cutOff v hv).1,
      (hcount .offer (by decide) hknown).mpr fun v hv => (h.cutOff v hv).2,
      fun v hv hun => absurd hun (hknown v hv)⟩

end Ordered

def quoted : MDEntry :=
  { updateAction := some '0', entryType := some '1', entryId := some "7", px := some 2000
    size := some 5 }

def withdrawn : MDEntry := { updateAction := some '2', entryId := some "7" }

theorem attributesCancels_iff_withdrawn :
    AttributesCancels Rat.sqrt {} [refresh [quoted], refresh [withdrawn]] :=
  (attributesCancels_iff Rat.sqrt {} _).mpr ⟨by decide +kernel, by decide +kernel⟩

/-- The second Delete of the same offer finds nothing and counts as a cancelled bid. -/
theorem not_attributesCancels_twice :
    ¬ AttributesCancels Rat.sqrt {} [refresh [quoted, withdrawn, withdrawn]] := by
  intro h
  have hbid := h.bid
  revert hbid
  decide +kernel

end SmartQuant.CancelAttribution
