import SmartQuant.Lib.Runs
import SmartQuant.Md.OrderBook

/-!
# A Change is a Delete followed by a New

The branches of `update` are written apart. Both the Change branch and the pair of
the other two first take out what is live under the id, and then look at the sign
of the quantity alone, so they meet in the same book. A run of events therefore
has a normal form without Changes.
-/
namespace SmartQuant.ChangeAsReplace

open Std OrderBook Runs

/-- What is live under an id does not matter once the id is stored again. -/
theorem store_forget (b : OrderBook) (ev : LOBEvent) :
    (b.forget ev.entryId).store ev = b.store ev := by
  have hentries : (b.entries.erase ev.entryId).insert ev.entryId ⟨ev.side, ev.price, ev.qty⟩ =
      b.entries.insert ev.entryId ⟨ev.side, ev.price, ev.qty⟩ := by
    apply ExtTreeMap.ext_getElem?
    intro id
    rw [ExtTreeMap.getElem?_insert, ExtTreeMap.getElem?_insert]
    split
    · rfl
    · rename_i hne
      rw [ExtTreeMap.getElem?_erase, if_neg hne]
  unfold store forget
  rw [hentries]

theorem forget_of_not_live {b : OrderBook} {id : Nat} (h : b.entries[id]? = none) :
    b.forget id = b := by
  have herase : b.entries.erase id = b.entries := by
    apply ExtTreeMap.ext_getElem?
    intro other
    rw [ExtTreeMap.getElem?_erase]
    split
    · rename_i heq
      rw [← LawfulEqCmp.eq_of_compare heq, h]
    · rfl
  unfold forget
  rw [herase]

/-- The three branches start alike: the entry of the id, when there is one, is taken out. -/
def cleared (b : OrderBook) (id : Nat) : OrderBook :=
  (b.entries[id]?.elim b b.withdraw).forget id

theorem update_delete_cleared {b : OrderBook} {ev : LOBEvent} (h : ev.action = .delete) :
    b.update ev = cleared b ev.entryId := by
  rw [update_delete h, cleared]
  cases hold : b.entries[ev.entryId]? with
  | none =>
    show b = b.forget ev.entryId
    rw [forget_of_not_live hold]
  | some old => rfl

theorem update_change_cleared {b : OrderBook} {ev : LOBEvent} (h : ev.action = .change) :
    b.update ev = if ev.qty ≤ 0 then cleared b ev.entryId
      else (cleared b ev.entryId).store ev := by
  rw [update_change h, cleared]
  by_cases hq : 0 < ev.qty
  · rw [if_pos hq, if_neg (by omega), store_forget]
  · rw [if_neg hq, if_pos (by omega)]

/-- The Change of an event and the Delete of its id with its New lead to the same book. -/
theorem change_eq_delete_new (b : OrderBook) (e d : LOBEvent) :
    b.update { e with action := .change } =
      (b.update { d with action := .delete, entryId := e.entryId }).update
        { e with action := .new } := by
  have hdelete : b.update { d with action := .delete, entryId := e.entryId } =
      cleared b e.entryId := update_delete_cleared rfl
  rw [update_change_cleared rfl, hdelete, update_new rfl]
  rfl

/-- The same event without Change. -/
def expand (ev : LOBEvent) : List LOBEvent :=
  match ev.action with
  | .change => [{ ev with action := .delete }, { ev with action := .new }]
  | _ => [ev]

theorem run_expand (b : OrderBook) (ev : LOBEvent) : run update b (expand ev) = b.update ev := by
  unfold expand
  cases hact : ev.action with
  | new => rfl
  | change =>
    have hdelete : b.update { ev with action := .delete } = cleared b ev.entryId :=
      update_delete_cleared rfl
    show (b.update { ev with action := .delete }).update { ev with action := .new } = b.update ev
    rw [hdelete, update_new rfl, update_change_cleared hact]
    rfl
  | delete => rfl

/-- Every run of events leads where a run of News and Deletes leads. -/
theorem run_flatMap_expand (b : OrderBook) (evs : List LOBEvent) :
    run update b (evs.flatMap expand) = run update b evs := by
  induction evs generalizing b with
  | nil => rfl
  | cons ev evs ih =>
    rw [List.flatMap_cons, run_append, run_expand, ih]
    rfl

theorem no_change_of_mem_expand {ev ev' : LOBEvent} (h : ev' ∈ expand ev) :
    ev'.action ≠ .change := by
  unfold expand at h
  cases hact : ev.action with
  | change =>
    rw [hact] at h
    rcases List.mem_pair.mp h with rfl | rfl <;> simp
  | _ =>
    rw [hact] at h
    rw [List.mem_singleton.mp h, hact]
    decide

end SmartQuant.ChangeAsReplace
