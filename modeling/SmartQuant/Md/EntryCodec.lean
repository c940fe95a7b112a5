import Mathlib.Data.List.TakeWhile
import Mathlib.Data.Rat.Floor
import SmartQuant.Md.FixMdGateway

/-!
# Events on the wire

The broker's side of the entry loop: how an event is written as a group of
NoMDEntries. The id is decimal text that `stoull` reads back, prices are doubles in
dollars that `to_price` rounds to units, quantities are doubles that are truncated.
A price comes back from its double up to 2^50 units, a quantity up to 2^53.
What the loop makes of a written event is the event itself, and for a Delete, which
is written with its id alone, the event with what the book knows of the id.
-/
namespace SmartQuant.EntryCodec

open Std

def fromPrice (p : Int) : ℚ := Binary64.round (p / kPriceScale)

def actionChar : MDUpdateAction → Char
  | .new => '0'
  | .change => '1'
  | .delete => '2'

def typeChar : MDEntryType → Char
  | .bid => '0'
  | .offer => '1'
  | .trade => '2'

/-- The entry for an event; a Delete has its id only. -/
def ofEvent (ev : LOBEvent) : MDEntry :=
  match ev.action with
  | .delete => { updateAction := some '2', entryId := some (toString ev.entryId) }
  | action =>
    { updateAction := some (actionChar action)
      entryType := some (typeChar ev.side)
      entryId := some (toString ev.entryId)
      px := some (fromPrice ev.price)
      size := some (Binary64.round ev.qty) }

/-- The entry of a snapshot; it has no action. -/
def ofQuote (ev : LOBEvent) : MDEntry :=
  { entryType := some (typeChar ev.side)
    entryId := some (toString ev.entryId)
    px := some (fromPrice ev.price)
    size := some (Binary64.round ev.qty) }

/-- Price and quantity are such that doubles carry them. -/
structure FitsWire (ev : LOBEvent) : Prop where
  id_lt : ev.entryId < Word64.size
  price_nonneg : 0 ≤ ev.price
  price_le : ev.price ≤ 2 ^ 50
  qty_le : |ev.qty| ≤ 2 ^ 53

theorem truncate_intCast {n : Int} (h : |n| ≤ 2 ^ 53) : truncate (n : ℚ) = n := by
  have hrange := abs_le.mp h
  have hdiv : n.tdiv ((1 : Nat) : Int) = n := Int.tdiv_one n
  rw [truncate, Rat.num_intCast, Rat.den_intCast]
  simp only [hdiv]
  exact if_pos (by omega)

/-- A number between two neighbouring prices is cut off to the lower one. -/
theorem truncate_of_mem {d : ℚ} {p : Int} (hp : 0 ≤ p) (hlt : p < 2 ^ 63) (hle : (p : ℚ) ≤ d)
    (hd : d < p + 1) : truncate d = p := by
  have hp' : (0 : ℚ) ≤ p := by exact_mod_cast hp
  have hnonneg : 0 ≤ d := hp'.trans hle
  have hfloor : d.num.tdiv d.den = p := by
    rw [Int.tdiv_eq_ediv_of_nonneg (Rat.num_nonneg.mpr hnonneg), ← Rat.floor_def',
      Int.floor_eq_iff]
    exact ⟨hle, hd⟩
  rw [truncate]
  simp only [hfloor]
  exact if_pos (by omega)

/-- The three roundings of a price and back move it by less than half a unit. -/
theorem abs_toPrice_fromPrice_lt {p : Int} (hpos : 0 < p) (hle : p ≤ 2 ^ 50) :
    |Binary64.round (Binary64.round (fromPrice p * kPriceScale) + 1 / 2) - (p + 1 / 2)| <
      1 / 2 := by
  have hp : (1 : ℚ) ≤ p := by exact_mod_cast hpos
  have hp' : (p : ℚ) ≤ 2 ^ 50 := by exact_mod_cast hle
  have hscale : ((kPriceScale : Int) : ℚ) = 100 := rfl
  have hsmall : (2 : ℚ) ^ (-1022 : ℤ) ≤ 1 / 100 := by
    have hseven : (2 : ℚ) ^ (-1022 : ℤ) ≤ 2 ^ (-7 : ℤ) :=
      zpow_le_zpow_right₀ one_le_two (by decide)
    exact hseven.trans (by norm_num)
  have hdollars : |fromPrice p - p / 100| ≤ p / 100 / 2 ^ 53 := by
    have h := Binary64.abs_round_sub_le_mul (x := p / 100)
      (hsmall.trans ((div_le_div_of_nonneg_right hp (by norm_num)).trans (le_abs_self _)))
    rw [abs_of_pos (by linarith : (0 : ℚ) < p / 100)] at h
    rw [fromPrice, hscale]
    exact h
  rw [abs_le] at hdollars
  have hunits : |Binary64.round (fromPrice p * kPriceScale) - fromPrice p * kPriceScale| ≤
      fromPrice p * kPriceScale / 2 ^ 53 := by
    rw [hscale]
    have hpos' : (1 / 100 : ℚ) ≤ fromPrice p * 100 := by linarith
    have h := Binary64.abs_round_sub_le_mul (hsmall.trans (hpos'.trans (le_abs_self _)))
    rwa [abs_of_pos (by linarith : (0 : ℚ) < fromPrice p * 100)] at h
  rw [hscale] at hunits ⊢
  rw [abs_le] at hunits
  have hsum := Binary64.abs_round_sub_le_mul
    (x := Binary64.round (fromPrice p * 100) + 1 / 2)
    (hsmall.trans ((by linarith : (1 / 100 : ℚ) ≤ _).trans (le_abs_self _)))
  rw [abs_of_pos (by linarith : (0 : ℚ) < Binary64.round (fromPrice p * 100) + 1 / 2),
    abs_le] at hsum
  rw [abs_lt]
  constructor <;> linarith

/-- Rounding finds the price again; below zero it would round up. -/
theorem toPrice_fromPrice {p : Int} (h : 0 ≤ p) (hle : p ≤ 2 ^ 50) :
    toPrice (fromPrice p) = p := by
  rcases h.eq_or_lt with rfl | hpos
  · decide +kernel
  · have hnear := abs_lt.mp (abs_toPrice_fromPrice_lt hpos hle)
    exact truncate_of_mem h (by omega) (by linarith) (by linarith)

theorem not_isSpace_of_isDigit {c : Char} (h : c.isDigit = true) : isSpace c = false := by
  have hrange : 48 ≤ c.toNat ∧ c.toNat ≤ 57 := by
    simpa [Char.isDigit, UInt32.le_iff_toNat_le] using h
  have hblank : c ≠ ' ' := by
    rintro rfl
    exact absurd hrange.1 (by decide)
  simp [isSpace, hblank]
  omega

/-- `stoull` reads back the decimal text of a 64-bit number. -/
theorem stoull_toString {n : Nat} (h : n < Word64.size) : stoull (toString n) = some n := by
  have hlist : (toString n).toList = Nat.toDigits 10 n := Nat.toList_repr
  have hdigits : ∀ c ∈ Nat.toDigits 10 n, c.isDigit = true := fun c hc =>
    Nat.isDigit_of_mem_toDigits (by decide) (by decide) hc
  have hne : Nat.toDigits 10 n ≠ [] := Nat.toDigits_ne_nil
  have hvalue : (Nat.toDigits 10 n).foldl (fun n c => 10 * n + (c.toNat - 48)) 0 = n :=
    Nat.ofDigitChars_ten_toDigits
  cases hd : Nat.toDigits 10 n with
  | nil => exact absurd hd hne
  | cons c cs =>
    rw [hd] at hdigits hvalue hlist
    have hc := hdigits c List.mem_cons_self
    have hminus : c ≠ '-' := by
      rintro rfl
      exact absurd hc (by decide)
    have hplus : c ≠ '+' := by
      rintro rfl
      exact absurd hc (by decide)
    have hbody : (c :: cs).dropWhile isSpace = c :: cs :=
      List.dropWhile_cons_of_neg (by rw [not_isSpace_of_isDigit hc]; decide)
    have hall : (c :: cs).takeWhile Char.isDigit = c :: cs :=
      List.takeWhile_eq_self_iff.mpr hdigits
    simp only [stoull, hlist, hbody, List.head?_cons, Option.some.injEq, hminus, hplus, or_self,
      if_false, hall, hvalue]
    rw [if_neg]
    simpa using h

theorem parseAction_actionChar (a : MDUpdateAction) : parseAction (actionChar a) = some a := by
  cases a <;> rfl

theorem parseType_typeChar (t : MDEntryType) : parseType (typeChar t) = some t := by
  cases t <;> rfl

/-- The event a Delete becomes: the side, price and quantity are those of the live entry, or
the defaults. -/
def resolved (book : OrderBook) (ev : LOBEvent) : LOBEvent :=
  match book.lookupEntry ev.entryId with
  | some old => { ev with side := old.side, price := old.price, qty := old.qty }
  | none => { ev with side := .bid, price := 0, qty := 0 }

theorem id_of_text {e : MDEntry} {n : Nat} (h : e.entryId = some (toString n))
    (hn : n < Word64.size) : e.id = n := by
  rw [MDEntry.id, h, Option.bind_some, stoull_toString hn, Option.getD_some]

theorem price_of_px {e : MDEntry} {p : Int} (h : e.px = some (fromPrice p)) (hp : 0 ≤ p)
    (hle : p ≤ 2 ^ 50) : e.price = p := by
  rw [MDEntry.price, h, Option.map_some, toPrice_fromPrice hp hle, Option.getD_some]

theorem qty_of_size {e : MDEntry} {q : Int} (h : e.size = some (Binary64.round q))
    (hq : |q| ≤ 2 ^ 53) : e.qty = q := by
  rw [MDEntry.qty, h, Option.map_some, Binary64.round_intCast hq, truncate_intCast hq,
    Option.getD_some]

/-- A 35=X entry: what is written is read back, a Delete with what the book knows of its id. -/
theorem parseIncremental_ofEvent (book : OrderBook) (ev : LOBEvent)
    (hfits : FitsWire ev) : parseIncremental ev.timestampNs book (ofEvent ev) =
      .event (if ev.action = .delete then resolved book ev else ev) := by
  obtain ⟨hid, hprice, hprice', hqty⟩ := hfits
  have hid' : (ofEvent ev).id = ev.entryId := by
    apply id_of_text _ hid
    rw [ofEvent]
    split <;> rfl
  obtain ⟨timestampNs, entryId, price, qty, action, side⟩ := ev
  cases action with
  | delete =>
    simp only [parseIncremental, hid']
    simp only [ofEvent, resolved, if_true, show parseAction '2' = some .delete from rfl]
    cases book.lookupEntry entryId <;> rfl
  | new | change =>
    simp only [parseIncremental, hid']
    simp only [ofEvent, parseAction_actionChar, parseType_typeChar]
    rw [price_of_px rfl hprice hprice', qty_of_size rfl hqty]
    rfl

/-- A 35=W entry of a Bid or an Offer. -/
theorem parseSnapshot_ofQuote (ev : LOBEvent) (hfits : FitsWire ev) (hnew : ev.action = .new)
    (hside : ev.side ≠ .trade) : parseSnapshot ev.timestampNs (ofQuote ev) = .event ev := by
  have hid' : (ofQuote ev).id = ev.entryId := id_of_text rfl hfits.id_lt
  have hprice' : (ofQuote ev).price = ev.price := price_of_px rfl hfits.price_nonneg hfits.price_le
  have hqty : (ofQuote ev).qty = ev.qty := qty_of_size rfl hfits.qty_le
  obtain ⟨timestampNs, entryId, price, qty, action, side⟩ := ev
  obtain rfl : action = .new := hnew
  rw [parseSnapshot]
  simp only [hid', hprice', hqty]
  simp only [ofQuote, parseType_typeChar]

end SmartQuant.EntryCodec
