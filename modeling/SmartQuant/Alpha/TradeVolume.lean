import Mathlib.Algebra.BigOperators.Ring.Finset
import Mathlib.Data.Rat.Cast.Order
import Mathlib.Tactic.Ring
import SmartQuant.Alpha.DeltaFactor
import SmartQuant.Md.BookInvariant
import SmartQuant.Md.EntryVisits

/-!
# Traded volume against trade prints

The book keeps a trade print under its id like an order. The gateway gives a Delete
the side and quantity stored under the id, and the factor looks at side and quantity
alone: withdrawing a print adds its volume a second time, and so does changing one.
A print behind an entry that ends the loop adds nothing, nor does one whose size leaves
`int64_t`. Volumes are doubles: what is added is the quantity and the error of rounding
the sum, which is none as long as the volumes stay within 2^53.
-/
namespace SmartQuant.TradeVolume

open FixMdGateway Replay Runs EntryVisits KeyedSum BookInvariant

/-- A midprice is set, then an event comes. -/
def feed (f : DeltaFactor Double) (x : Int × LOBEvent) : DeltaFactor Double :=
  (f.setMidprice x.1).onEvent x.2

/-- What a bucket holds, as exact numbers. -/
def volume (v : TradeVol Double) : ℚ := v.buyVol.val + v.sellVol.val

/-- By how much `on_event` raises the volume of the head bucket it has moved to. -/
def added (f : DeltaFactor Double) (x : Int × LOBEvent) : ℚ :=
  volume (feed f x).ring.headBucket.val -
    volume (f.advanceTime x.2.timestampNs).ring.headBucket.val

/-- All volume added over a run. -/
def totalAdded (f : DeltaFactor Double) (xs : List (Int × LOBEvent)) : ℚ :=
  (outputs feed (fun f x => [added f x]) f xs).sum

/-- The quantity of a trade with a positive one. -/
def traded (ev : LOBEvent) : Int := if ev.side = .trade ∧ 0 < ev.qty then ev.qty else 0

/-- The volume of a bucket that a trade at this price is added to, as an exact number. -/
def sideVolume (v : TradeVol Double) (midprice price : Int) : ℚ :=
  if midprice ≤ 0 ∨ midprice ≤ price then v.buyVol.val else v.sellVol.val

/-- The error of rounding the quantity, and the sum, to double. -/
def roundingError (f : DeltaFactor Double) (x : Int × LOBEvent) : ℚ :=
  let volume := sideVolume (f.advanceTime x.2.timestampNs).ring.headBucket.val x.1 x.2.price
  if x.2.side = .trade ∧ 0 < x.2.qty then
    Binary64.round (volume + Binary64.round x.2.qty) - (volume + x.2.qty)
  else 0

/-- All rounding errors of a run. -/
def totalError (f : DeltaFactor Double) (xs : List (Int × LOBEvent)) : ℚ :=
  (outputs feed (fun f x => [roundingError f x]) f xs).sum

/-- MDEntrySize; 0 when the tag is absent. -/
def size (v : Visit) : ℚ := v.entry.size.getD 0

/-- The size of a New entry of type Trade, if positive. -/
def printed (v : Visit) : ℚ :=
  if v.action = some .new ∧ v.side = some .trade ∧ 0 < size v then size v else 0

/-- The size of a New entry of type Trade, where it is too large for `int64_t`. -/
def oversized (v : Visit) : ℚ := if 2 ^ 63 ≤ size v then printed v else 0

/-- The size of a Change entry of type Trade, if positive and not too large. -/
def changed (v : Visit) : ℚ :=
  if v.action = some .change ∧ v.side = some .trade ∧ 0 < size v ∧ size v < 2 ^ 63 then size v
  else 0

/-- The entry is a Delete of a live trade. -/
def DeletesTrade (v : Visit) : Prop :=
  v.action = some .delete ∧ (v.book.lookupEntry v.entry.id).map EntryInfo.side = some .trade

instance : DecidablePred DeletesTrade := fun _ => inferInstanceAs (Decidable (_ ∧ _))

def WholeSizes (ds : List Delivery) : Prop :=
  ∀ d ∈ ds, ∀ e ∈ d.msg.groups, ∀ s ∈ e.size, s.den = 1

instance (ds : List Delivery) : Decidable (WholeSizes ds) :=
  inferInstanceAs (Decidable (∀ d ∈ ds, _))

/-- The factor adds the sizes of the New trades of the messages, and nothing on a Delete. -/
structure CountsTradesOnce (f : DeltaFactor Double) (ds : List Delivery)
    (xs : List (Int × LOBEvent)) : Prop where
  total : totalAdded f xs = ((visits {} ds ++ unreached {} ds).map printed).sum
  deletes : ∀ v ∈ visits {} ds, v.action = some .delete → ∀ ev, v.event = some ev →
    ∀ (f : DeltaFactor Double) mid, added f (mid, ev) = 0

/-- No Delete withdraws a live trade, and the Changes of type Trade, with the rounding errors,
weigh as much as the prints that no event tells of. -/
structure PrintsStand (f : DeltaFactor Double) (ds : List Delivery)
    (xs : List (Int × LOBEvent)) : Prop where
  deletes : ∀ v ∈ visits {} ds, ¬ DeletesTrade v
  changes : ((visits {} ds).map changed).sum + totalError f xs =
    ((visits {} ds).map oversized).sum + ((unreached {} ds).map printed).sum

/-- A bucket holds whole volumes, at most `n` in all. -/
def Whole (n : Int) (v : TradeVol Double) : Prop :=
  ∃ buy sell : Int, v.buyVol.val = buy ∧ v.sellVol.val = sell ∧ 0 ≤ buy ∧ 0 ≤ sell ∧
    buy + sell ≤ n

theorem traded_nonneg (ev : LOBEvent) : 0 ≤ traded ev := by
  rw [traded]
  split_ifs with h
  · exact h.2.le
  · exact le_rfl

theorem Whole.mono {m n : Int} (hmn : m ≤ n) {v : TradeVol Double} (h : Whole m v) :
    Whole n v := by
  obtain ⟨buy, sell, hbuy, hsell, hbuy0, hsell0, hle⟩ := h
  exact ⟨buy, sell, hbuy, hsell, hbuy0, hsell0, hle.trans hmn⟩

theorem whole_zero {n : Int} (hn : 0 ≤ n) : Whole n {} :=
  ⟨0, 0, by simp, by simp, le_rfl, le_rfl, hn⟩

theorem feed_ring_of_trade {x : Int × LOBEvent} (h : x.2.side = .trade ∧ 0 < x.2.qty)
    (f : DeltaFactor Double) : (feed f x).ring =
      (f.advanceTime x.2.timestampNs).ring.modifyHead fun v =>
        if x.1 ≤ 0 ∨ x.1 ≤ x.2.price then { v with buyVol := v.buyVol + x.2.qty }
        else { v with sellVol := v.sellVol + x.2.qty } := by
  rw [feed, DeltaFactor.onEvent, DeltaFactor.recompute_ring, DeltaFactor.record_ring_of_trade h]
  rfl

theorem feed_ring_of_not_trade {x : Int × LOBEvent} (h : ¬ (x.2.side = .trade ∧ 0 < x.2.qty))
    (f : DeltaFactor Double) : (feed f x).ring = (f.advanceTime x.2.timestampNs).ring := by
  rw [feed, DeltaFactor.onEvent, DeltaFactor.recompute_ring, DeltaFactor.record, if_neg h]
  rfl

/-- What is added is what is traded, and the rounding error. -/
theorem added_eq (f : DeltaFactor Double) (x : Int × LOBEvent) :
    added f x = traded x.2 + roundingError f x := by
  by_cases htrade : x.2.side = .trade ∧ 0 < x.2.qty
  · rw [added, feed_ring_of_trade htrade, BucketRing.modifyHead_val, traded, if_pos htrade,
      roundingError]
    simp only [if_pos htrade, sideVolume]
    split_ifs <;>
      · simp only [volume, Double.add_val, Double.intCast_val]
        ring
  · rw [added, feed_ring_of_not_trade htrade, traded, if_neg htrade, roundingError]
    simp only [if_neg htrade, sub_self, Int.cast_zero, add_zero]

theorem totalAdded_eq (f : DeltaFactor Double) (xs : List (Int × LOBEvent)) :
    totalAdded f xs = ((xs.map Prod.snd).map traded).sum + totalError f xs := by
  induction xs generalizing f with
  | nil => simp [totalAdded, totalError]
  | cons x xs ih =>
    have hrest := ih (feed f x)
    rw [totalAdded, totalError] at hrest ⊢
    rw [outputs_cons, outputs_cons, List.sum_append, List.sum_append, hrest, List.sum_singleton,
      List.sum_singleton, added_eq, List.map_cons, List.map_cons, List.sum_cons, Int.cast_add]
    ring

section Exact

variable {f : DeltaFactor Double} {n : Int}

/-- A quantity added to one side of a bucket leaves whole volumes there, and is added exactly. -/
theorem whole_add {q : Int} {v : TradeVol Double} (h : Whole n v) (hq : 0 ≤ q)
    (hle : n + q ≤ 2 ^ 53) (midprice price : Int) :
    Whole (n + q) (if midprice ≤ 0 ∨ midprice ≤ price then
        { v with buyVol := v.buyVol + (q : Double) }
      else { v with sellVol := v.sellVol + (q : Double) }) ∧
      Binary64.round (sideVolume v midprice price + Binary64.round q) =
        sideVolume v midprice price + q := by
  obtain ⟨buy, sell, hbuy, hsell, hbuy0, hsell0, hsum⟩ := h
  rw [sideVolume]
  split_ifs with hside
  · have hadd := Double.add_intCast_val hbuy hbuy0 hq (by omega)
    refine ⟨⟨buy + q, sell, hadd, hsell, by omega, hsell0, by omega⟩, ?_⟩
    rw [Double.add_val, Double.intCast_val] at hadd
    rw [hadd, hbuy, Int.cast_add]
  · have hadd := Double.add_intCast_val hsell hsell0 hq (by omega)
    refine ⟨⟨buy, sell + q, hbuy, hadd, hbuy0, by omega, by omega⟩, ?_⟩
    rw [Double.add_val, Double.intCast_val] at hadd
    rw [hadd, hsell, Int.cast_add]

/-- As long as the volumes stay within 2^53, an event makes no error. -/
theorem whole_feed (hn : 0 ≤ n) (h : ∀ i, Whole n (f.ring.buckets i).val) {x : Int × LOBEvent}
    (hle : n + traded x.2 ≤ 2 ^ 53) :
    roundingError f x = 0 ∧
      ∀ i, Whole (n + traded x.2) ((feed f x).ring.buckets i).val := by
  have hadvance : ∀ i, Whole n ((f.advanceTime x.2.timestampNs).ring.buckets i).val :=
    BucketRing.val_advance (whole_zero hn) h x.2.timestampNs
  by_cases htrade : x.2.side = .trade ∧ 0 < x.2.qty
  · have hqty : traded x.2 = x.2.qty := if_pos htrade
    rw [hqty] at hle ⊢
    obtain ⟨hwhole, hexact⟩ := whole_add (hadvance _) htrade.2.le hle x.1 x.2.price
    refine ⟨?_, ?_⟩
    · rw [roundingError]
      simp only [if_pos htrade]
      exact sub_eq_zero.mpr hexact
    · rw [feed_ring_of_trade htrade]
      exact BucketRing.val_modifyHead (fun i => (hadvance i).mono (by omega)) hwhole
  · have hqty : traded x.2 = 0 := if_neg htrade
    rw [hqty, add_zero, feed_ring_of_not_trade htrade, roundingError]
    exact ⟨if_neg htrade, hadvance⟩

theorem totalError_of_whole (hn : 0 ≤ n) (h : ∀ i, Whole n (f.ring.buckets i).val)
    {xs : List (Int × LOBEvent)} (hle : n + ((xs.map Prod.snd).map traded).sum ≤ 2 ^ 53) :
    totalError f xs = 0 := by
  induction xs generalizing f n with
  | nil => rfl
  | cons x xs ih =>
    have hrest : 0 ≤ ((xs.map Prod.snd).map traded).sum := by
      refine List.sum_nonneg fun q hq => ?_
      obtain ⟨ev, -, rfl⟩ := List.mem_map.mp hq
      exact traded_nonneg ev
    rw [List.map_cons, List.map_cons, List.sum_cons, ← add_assoc] at hle
    obtain ⟨hexact, hnext⟩ := whole_feed hn h (x := x) (by omega)
    have htotal := ih (by have := traded_nonneg x.2; omega) hnext hle
    rw [totalError] at htotal ⊢
    rw [outputs_cons, List.sum_append, htotal, List.sum_singleton, hexact, add_zero]

/-- A new factor makes no error as long as all its trades add up to 2^53 at most. -/
theorem totalError_create {windowNs bucketNs : Nat}
    (hf : DeltaFactor.create windowNs bucketNs = .ok f) {xs : List (Int × LOBEvent)}
    (hle : ((xs.map Prod.snd).map traded).sum ≤ 2 ^ 53) : totalError f xs = 0 := by
  refine totalError_of_whole le_rfl (fun i => ?_) (by rwa [zero_add])
  rw [DeltaFactor.create_ring hf]
  exact whole_zero le_rfl

end Exact

/-- A trade always raises the volume of an empty bucket. -/
theorem added_initial_pos {ev : LOBEvent} (h : ev.side = .trade ∧ 0 < ev.qty) :
    0 < added .initial (0, ev) := by
  have hone : (1 : ℚ) ≤ Binary64.round ev.qty := by
    have hle : ((1 : Int) : ℚ) ≤ ev.qty := by exact_mod_cast h.2
    have hmono := Binary64.round_mono hle
    rwa [Binary64.round_intCast (by decide), Int.cast_one] at hmono
  have hempty : ((DeltaFactor.initial : DeltaFactor Double).advanceTime
      ev.timestampNs).ring.headBucket.val = {} :=
    congrArg Bucket.val (BucketRing.setHead_headBucket _ _)
  rw [added, feed_ring_of_trade h, BucketRing.modifyHead_val, hempty, if_pos (Or.inl le_rfl)]
  simp only [volume, Double.add_val, Double.intCast_val, Double.zero_val, zero_add, add_zero,
    sub_zero, Binary64.round_round]
  exact zero_lt_one.trans_le hone

/-- The quantity read from a whole size, if positive. -/
theorem max_qty_eq {v : Visit} (h : ∀ s ∈ v.entry.size, s.den = 1) :
    ((if 0 < v.entry.qty then v.entry.qty else 0 : Int) : ℚ) =
      if 0 < size v ∧ size v < 2 ^ 63 then size v else 0 := by
  rw [size, MDEntry.qty]
  cases hs : v.entry.size with
  | none => simp
  | some s =>
    have hden := h s hs
    have hnum : (s.num : ℚ) = s := Rat.coe_int_num_of_den_eq_one hden
    simp only [Option.getD_some, Option.map_some, truncate, hden, Nat.cast_one, Int.tdiv_one]
    rw [← hnum]
    norm_cast
    split_ifs <;> first | rfl | omega

/-- A visit that withdraws no print trades what was printed or changed, unless it is too much
for `int64_t`. -/
theorem traded_visit {v : Visit} (hsize : ∀ s ∈ v.entry.size, s.den = 1)
    (hdel : ¬ DeletesTrade v) :
    ((v.event.elim 0 traded : Int) : ℚ) + oversized v = printed v + changed v := by
  by_cases hact : v.action = some .delete
  · rw [Visit.event_of_delete hact, Option.elim_some]
    have hside : v.resolved.side ≠ .trade := by
      rw [DeletesTrade, not_and] at hdel
      have hother := hdel hact
      rw [Visit.resolved]
      cases hlook : v.book.lookupEntry v.entry.id with
      | none => simp
      | some old => simpa [hlook] using hother
    simp [traded, oversized, printed, changed, hact, hside]
  · rw [Visit.event_of_ne_delete hact]
    have hqty := max_qty_eq hsize
    rw [oversized, printed, changed]
    rcases ha : v.action with _ | a
    · simp
    · rcases hs : v.side with _ | side
      · simp
      · have hne : a ≠ .delete := fun hc => hact (by rw [ha, hc])
        by_cases htrade : side = .trade
        · subst htrade
          simp only [Option.bind_some, Option.map_some, Option.elim_some, traded, true_and, hqty]
          cases a with
          | delete => exact absurd rfl hne
          | new =>
            rcases lt_or_ge (size v) (2 ^ 63) with hlt | hge
            · simp [hlt, not_le.mpr hlt]
            · simp [hge, not_lt.mpr hge]
          | change => simp
        · simp [traded, htrade]

theorem added_of_not_trade {x : Int × LOBEvent} (h : ¬ (x.2.side = .trade ∧ 0 < x.2.qty))
    (f : DeltaFactor Double) : added f x = 0 := by
  rw [added, feed_ring_of_not_trade h, sub_self]

/-- A Delete adds nothing, to any factor, exactly when it withdraws no live trade. -/
theorem delete_adds_nothing_iff {v : Visit} (hpos : EntriesPos v.book)
    (hact : v.action = some .delete) :
    (∀ ev, v.event = some ev → ∀ (f : DeltaFactor Double) mid, added f (mid, ev) = 0) ↔
      ¬ DeletesTrade v := by
  have hevent := Visit.event_of_delete hact
  constructor
  · rintro h ⟨-, hlive⟩
    obtain ⟨old, hlook, hside⟩ := Option.map_eq_some_iff.mp hlive
    have hresolved : v.resolved = old := by rw [Visit.resolved, hlook, Option.getD_some]
    refine (added_initial_pos ⟨?_, ?_⟩).ne' (h _ hevent .initial 0)
    · rw [hresolved, hside]
    · rw [hresolved]
      exact hpos _ _ hlook
  · intro h ev hev f mid
    rw [hevent, Option.some.injEq] at hev
    subst hev
    refine added_of_not_trade ?_ f
    rintro ⟨hside, -⟩
    refine h ⟨hact, ?_⟩
    rw [Visit.resolved] at hside
    cases hlook : v.book.lookupEntry v.entry.id with
    | none => simp [hlook] at hside
    | some old => simpa [hlook] using hside

/-- Where no Delete withdraws a print, what a session trades is what is printed, changed and
not too large. -/
theorem sum_traded {ds : List Delivery} (hsizes : WholeSizes ds)
    (hdel : ∀ v ∈ visits {} ds, ¬ DeletesTrade v) :
    ((((run deliver {} ds).offered.map traded).sum : Int) : ℚ) +
        ((visits {} ds).map oversized).sum =
      ((visits {} ds).map printed).sum + ((visits {} ds).map changed).sum := by
  rw [run_offered rfl, List.nil_append, sum_filterMap]
  have hcast : ((((visits {} ds).map fun v => v.event.elim 0 traded).sum : Int) : ℚ) =
      ((visits {} ds).map fun v => ((v.event.elim 0 traded : Int) : ℚ)).sum := by
    rw [Int.cast_list_sum, List.map_map]
    rfl
  rw [hcast, ← List.sum_map_add, ← List.sum_map_add]
  refine congrArg List.sum (List.map_congr_left fun v hv => ?_)
  obtain ⟨d, hd, he⟩ := entry_mem_of_visits hv
  exact traded_visit (hsizes d hd v.entry he) (hdel v hv)

/-- Over every session with whole sizes, and whatever midprices are set, a factor adds the sizes
of the New trades and nothing on a Delete exactly when no handled Delete withdraws a live trade
and the Changes of type Trade, with the rounding errors, weigh as much as the prints that were
cut off or too large. -/
theorem countsTradesOnce_iff (f : DeltaFactor Double) (ds : List Delivery)
    (xs : List (Int × LOBEvent)) (hfeed : xs.map Prod.snd = (run deliver {} ds).offered)
    (hsizes : WholeSizes ds) : CountsTradesOnce f ds xs ↔ PrintsStand f ds xs := by
  have hpos := book_of_updates entriesPos_empty (fun b ev h => entriesPos_update h ev) ds
  have htotal := totalAdded_eq f xs
  rw [hfeed] at htotal
  constructor
  · intro h
    have hdel : ∀ v ∈ visits {} ds, ¬ DeletesTrade v := by
      intro v hv hdel
      exact (delete_adds_nothing_iff (hpos v hv) hdel.1).mp (h.deletes v hv hdel.1) hdel
    have hsum := h.total
    have hsplit := sum_traded hsizes hdel
    rw [htotal, List.map_append, List.sum_append] at hsum
    exact ⟨hdel, by linarith⟩
  · intro h
    have hsplit := sum_traded hsizes h.deletes
    refine ⟨?_, fun v hv hact => ?_⟩
    · rw [htotal, List.map_append, List.sum_append]
      linarith [h.changes]
    · exact (delete_adds_nothing_iff (hpos v hv) hact).mpr (h.deletes v hv)

/-- Up to 2^53 the rounding errors drop out of the condition. -/
theorem printsStand_iff {windowNs bucketNs : Nat} {f : DeltaFactor Double}
    (hf : DeltaFactor.create windowNs bucketNs = .ok f) {ds : List Delivery}
    {xs : List (Int × LOBEvent)} (hfeed : xs.map Prod.snd = (run deliver {} ds).offered)
    (hle : ((run deliver {} ds).offered.map traded).sum ≤ 2 ^ 53) :
    PrintsStand f ds xs ↔ (∀ v ∈ visits {} ds, ¬ DeletesTrade v) ∧
      ((visits {} ds).map changed).sum =
        ((visits {} ds).map oversized).sum + ((unreached {} ds).map printed).sum := by
  rw [← hfeed] at hle
  have hexact := totalError_create hf hle
  constructor
  · rintro ⟨hdel, hchanges⟩
    rw [hexact, add_zero] at hchanges
    exact ⟨hdel, hchanges⟩
  · rintro ⟨hdel, hchanges⟩
    refine ⟨hdel, ?_⟩
    rw [hexact, add_zero]
    exact hchanges

def print (action : Char) : MDEntry :=
  { updateAction := some action, entryType := some '2', entryId := some "9", px := some 2000
    size := some 5 }

def printedOnce : List Delivery := [refresh [print '0']]

theorem countsTradesOnce_iff_printedOnce :
    CountsTradesOnce .initial printedOnce
      ((run deliver {} printedOnce).offered.map fun ev => (0, ev)) :=
  (countsTradesOnce_iff .initial _ _ (by decide +kernel) (by decide +kernel)).mpr
    ⟨by decide +kernel, by decide +kernel⟩

def withdrawnPrint : List Delivery := [refresh [print '0', print '2']]

/-- Withdrawing a print of 5 makes the volume 10. -/
theorem not_countsTradesOnce_withdrawnPrint :
    ¬ CountsTradesOnce .initial withdrawnPrint
      ((run deliver {} withdrawnPrint).offered.map fun ev => (0, ev)) := by
  intro h
  have htotal := h.total
  revert htotal
  decide +kernel

end SmartQuant.TradeVolume
