import Mathlib.Data.List.Basic

/-!
# Framed streams

A framing writes records as non-empty lists of symbols and reads one record off
the front of a stream. Reading a whole stream yields one list of records and a
rest that holds no whole record; both are determined by the stream.
-/
namespace SmartQuant

structure Framing (α β : Type*) where
  encode : α → List β
  /-- One record off the front, with what follows it; `none` when there is no whole one. -/
  decode : List β → Option (α × List β)
  decode_append : ∀ a rest, decode (encode a ++ rest) = some (a, rest)
  eq_of_decode : ∀ s a rest, decode s = some (a, rest) → s = encode a ++ rest
  encode_ne_nil : ∀ a, encode a ≠ []

namespace Framing

variable {α β : Type*} (f : Framing α β)

def encodeAll (as : List α) : List β := as.flatMap f.encode

/-- A stream reads as a list of records, with no whole record behind them. -/
def Reads (s : List β) (as : List α) : Prop :=
  ∃ rest, s = f.encodeAll as ++ rest ∧ f.decode rest = none

@[simp] theorem encodeAll_nil : f.encodeAll [] = [] := rfl

@[simp] theorem encodeAll_cons (a : α) (as : List α) :
    f.encodeAll (a :: as) = f.encode a ++ f.encodeAll as := rfl

theorem encodeAll_append (as bs : List α) :
    f.encodeAll (as ++ bs) = f.encodeAll as ++ f.encodeAll bs := List.flatMap_append

theorem decode_nil : f.decode [] = none := by
  cases h : f.decode [] with
  | none => rfl
  | some res =>
    have heq := f.eq_of_decode [] res.1 res.2 h
    exact absurd (List.append_eq_nil_iff.mp heq.symm).1 (f.encode_ne_nil res.1)

variable {f}

theorem reads_nil_iff {s : List β} : f.Reads s [] ↔ f.decode s = none := by
  constructor
  · rintro ⟨rest, rfl, h⟩
    exact h
  · intro h
    exact ⟨s, rfl, h⟩

theorem reads_cons_iff {s : List β} {a : α} {as : List α} :
    f.Reads s (a :: as) ↔ ∃ rest, f.decode s = some (a, rest) ∧ f.Reads rest as := by
  constructor
  · rintro ⟨rest, rfl, h⟩
    refine ⟨f.encodeAll as ++ rest, ?_, rest, rfl, h⟩
    rw [encodeAll_cons, List.append_assoc, f.decode_append]
  · rintro ⟨rest, hd, rest', rfl, h⟩
    refine ⟨rest', ?_, h⟩
    rw [f.eq_of_decode s a _ hd, encodeAll_cons, List.append_assoc]

/-- Reading a stream to its end always comes to an end. -/
theorem exists_reads (s : List β) : ∃ as, f.Reads s as := by
  induction hn : s.length using Nat.strongRecOn generalizing s with
  | _ n ih =>
    cases hd : f.decode s with
    | none => exact ⟨[], reads_nil_iff.mpr hd⟩
    | some res =>
      obtain ⟨a, rest⟩ := res
      have heq := f.eq_of_decode s a rest hd
      have hpos := List.length_pos_of_ne_nil (f.encode_ne_nil a)
      have hlen : rest.length < n := by
        rw [← hn, heq, List.length_append]
        omega
      obtain ⟨as, h⟩ := ih rest.length hlen rest rfl
      exact ⟨a :: as, reads_cons_iff.mpr ⟨rest, hd, h⟩⟩

theorem reads_encodeAll (as : List α) : f.Reads (f.encodeAll as) as :=
  ⟨[], (List.append_nil _).symm, f.decode_nil⟩

end Framing
end SmartQuant
