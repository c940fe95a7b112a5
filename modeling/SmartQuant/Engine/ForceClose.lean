import Mathlib.Data.List.Nodup
import SmartQuant.Engine.AlphaLoop

/-!
# Chains of forced closes

A closing order goes through the same `send_ioc` as any other, so it becomes the
order the risk manager holds and times out in its turn. Every order is traced
back to the signal order at the root of its chain of timeouts: a signal order
causes one closing order at most exactly as long as the timer never forces a
close of an order that is a closing order itself.
-/
namespace SmartQuant.ForceClose

open OrderManager Engine Runs

variable {R : Type*} [Field R]

/-- An order sent, with the ClOrdID of the signal order it goes back to. -/
structure Caused where
  sent : SentOrder
  root : String
  deriving DecidableEq

abbrev Caused.id (c : Caused) : String := c.sent.order.clordid

/-- The engine together with the causes of the orders it sent. -/
structure Traced (R : Type*) [Field R] where
  engine : Engine R
  orders : List Caused := []

def rootOf (orders : List Caused) (id : String) : String :=
  ((orders.find? fun c => c.id = id).map Caused.root).getD id

/-- A signal order goes back to itself, a closing order to where the order goes back to that
the callback was invoked for. -/
def causedBy (s : Traced R) (so : SentOrder) : Caused where
  sent := so
  root := match so.kind with
    | .signal => so.order.clordid
    | .forceClose => rootOf s.orders s.engine.oms.riskMgr.openOrder.clordid

/-- The closing orders that go back to a signal order. -/
def closings (orders : List Caused) (root : String) : List Caused :=
  orders.filter fun c => c.sent.kind = .forceClose ∧ c.root = root

/-- Each signal order has caused one further order at most, on the opposite side. -/
def ClosesOnce (s : Traced R) : Prop :=
  ∀ c ∈ s.orders, c.sent.kind = .signal → (closings s.orders c.id).length ≤ 1 ∧
    ∀ d ∈ closings s.orders c.id, d.sent.order.side = closeSide c.sent.order.side

instance (s : Traced R) : Decidable (ClosesOnce s) :=
  inferInstanceAs (Decidable (∀ c ∈ s.orders, _))

/-- The order the risk manager holds was sent on a signal whenever the timer invokes the
callback for it and the closing order goes out. -/
def ClosesSignalOrder (s : Traced R) : EngineLabel R → Prop
  | .alpha i => s.engine.pc = .pop → s.engine.oms.loggedOn = true → i.session = true →
      ∀ o ∈ s.engine.oms.riskMgr.onTimer i.nowNs, ∀ c ∈ s.orders, c.id = o.clordid →
        c.sent.kind = .signal
  | _ => True

def init (cfg : RiskManager.Config R) : Traced R := { engine := Engine.init cfg }

/-- Ids are handed out once, roots are signal orders, and the order held is the last one sent. -/
structure Lineage (s : Traced R) : Prop where
  ids : ∀ c ∈ s.orders, ∃ k < s.engine.oms.orderSeq, c.id = nextClordid k
  nodup : (s.orders.map Caused.id).Nodup
  roots : ∀ c ∈ s.orders, ∃ d ∈ s.orders, d.sent.kind = .signal ∧ d.id = c.root
  own : ∀ c ∈ s.orders, c.sent.kind = .signal → c.root = c.id
  held : s.engine.oms.riskMgr.hasPosition = true → ∃ older c, s.orders = older ++ [c] ∧
    c.sent.order = s.engine.oms.riskMgr.openOrder ∧
    (c.sent.kind = .signal → closings s.orders c.id = [])

section Orders

variable {orders : List Caused}

theorem mem_closings {root : String} {d : Caused} :
    d ∈ closings orders root ↔ d ∈ orders ∧ d.sent.kind = .forceClose ∧ d.root = root := by
  simp [closings]

theorem closings_concat (c : Caused) (root : String) :
    closings (orders ++ [c]) root =
      closings orders root ++ if c.sent.kind = .forceClose ∧ c.root = root then [c] else [] := by
  simp only [closings, List.filter_append, List.filter_cons, List.filter_nil, decide_eq_true_eq]

theorem rootOf_last {older : List Caused} {c : Caused}
    (h : ((older ++ [c]).map Caused.id).Nodup) : rootOf (older ++ [c]) c.id = c.root := by
  have hnone : older.find? (fun d => d.id = c.id) = none := by
    rw [List.find?_eq_none]
    intro d hd hid
    rw [List.map_append, List.nodup_append] at h
    exact h.2.2 d.id (List.mem_map_of_mem hd) c.id (by simp) (by simpa using hid)
  rw [rootOf, List.find?_append, hnone]
  simp

end Orders

/-- What a step leaves behind that sends the order `so` out. -/
structure Sends (s s' : Traced R) (so : SentOrder) : Prop where
  orders : s'.orders = s.orders ++ [causedBy s so]
  fresh : ∃ k, s.engine.oms.orderSeq ≤ k ∧ k < s'.engine.oms.orderSeq ∧
    so.order.clordid = nextClordid k
  held : s'.engine.oms.riskMgr.openOrder = so.order

/-- What a step leaves behind that sends nothing. -/
structure Idles (s s' : Traced R) : Prop where
  orders : s'.orders = s.orders
  seq : s.engine.oms.orderSeq ≤ s'.engine.oms.orderSeq
  held : s'.engine.oms.riskMgr.hasPosition = true →
    s.engine.oms.riskMgr.hasPosition = true ∧
      s'.engine.oms.riskMgr.openOrder = s.engine.oms.riskMgr.openOrder

section Steps

variable {s s' : Traced R} {so : SentOrder}

theorem Idles.lineage (hi : Idles s s') (h : Lineage s) : Lineage s' := by
  refine ⟨fun c hc => ?_, ?_, ?_, ?_, fun hpos => ?_⟩
  · rw [hi.orders] at hc
    obtain ⟨k, hk, he⟩ := h.ids c hc
    exact ⟨k, hk.trans_le hi.seq, he⟩
  · rw [hi.orders]
    exact h.nodup
  · rw [hi.orders]
    exact h.roots
  · rw [hi.orders]
    exact h.own
  · obtain ⟨hpos', ho⟩ := hi.held hpos
    rw [hi.orders, ho]
    exact h.held hpos'

theorem Sends.id_ne (hs : Sends s s' so) (h : Lineage s) {c : Caused} (hc : c ∈ s.orders) :
    c.id ≠ so.order.clordid := by
  intro hid
  obtain ⟨k, hk, he⟩ := h.ids c hc
  obtain ⟨k', hle, -, he'⟩ := hs.fresh
  have hkk : k = k' := nextClordid_injective (he.symm.trans (hid.trans he'))
  omega

/-- A closing order joins those that go back to its root. -/
theorem Sends.closings_eq (hs : Sends s s' so) (root : String) :
    closings s'.orders root = closings s.orders root ++
      if so.kind = .forceClose ∧ (causedBy s so).root = root then [causedBy s so] else [] := by
  rw [hs.orders, closings_concat]
  rfl

/-- No order before a fresh one goes back to it. -/
theorem Sends.closings_new (hs : Sends s s' so) (h : Lineage s) :
    closings s.orders so.order.clordid = [] := by
  rw [List.eq_nil_iff_forall_not_mem]
  intro d hd
  obtain ⟨hd, -, hr⟩ := mem_closings.mp hd
  obtain ⟨e, he, -, hide⟩ := h.roots d hd
  exact hs.id_ne h he (hide.trans hr)

theorem Sends.lineage (hs : Sends s s' so) (h : Lineage s)
    (hroot : ∃ d ∈ s'.orders, d.sent.kind = .signal ∧ d.id = (causedBy s so).root) :
    Lineage s' := by
  obtain ⟨k, hle, hlt, hid⟩ := hs.fresh
  refine ⟨fun c hc => ?_, ?_, fun c hc => ?_, fun c hc hkind => ?_, fun _ => ?_⟩
  · rw [hs.orders] at hc
    rcases List.mem_append.mp hc with hc | hc
    · obtain ⟨k', hk', he'⟩ := h.ids c hc
      exact ⟨k', by omega, he'⟩
    · rw [List.mem_singleton.mp hc]
      exact ⟨k, hlt, hid⟩
  · rw [hs.orders, List.map_append, List.nodup_append]
    refine ⟨h.nodup, List.nodup_singleton _, ?_⟩
    rintro a ha b hb rfl
    obtain ⟨c, hc, hca⟩ := List.mem_map.mp ha
    exact hs.id_ne h hc (hca.trans (List.mem_singleton.mp hb))
  · rw [hs.orders] at hc
    rcases List.mem_append.mp hc with hc | hc
    · obtain ⟨d, hd, hdr⟩ := h.roots c hc
      exact ⟨d, hs.orders ▸ List.mem_append_left _ hd, hdr⟩
    · rw [List.mem_singleton.mp hc]
      exact hroot
  · rw [hs.orders] at hc
    rcases List.mem_append.mp hc with hc | hc
    · exact h.own c hc hkind
    · rw [List.mem_singleton.mp hc] at hkind ⊢
      simp only [causedBy] at hkind ⊢
      rw [hkind]
  · refine ⟨s.orders, causedBy s so, hs.orders, hs.held.symm, fun hkind => ?_⟩
    have hold : closings s.orders (causedBy s so).id = [] := hs.closings_new h
    have hsignal : so.kind = .signal := hkind
    rw [hs.closings_eq, hold, hsignal]
    rfl

end Steps

/-- A closing order goes back to the signal order that the order held goes back to. -/
theorem causedBy_forceClose {s : Traced R} (h : Lineage s) {so : SentOrder}
    (hkind : so.kind = .forceClose) (hpos : s.engine.oms.riskMgr.hasPosition = true) :
    ∃ c ∈ s.orders, c.sent.order = s.engine.oms.riskMgr.openOrder ∧
      (causedBy s so).root = c.root ∧ (c.sent.kind = .signal → closings s.orders c.id = []) := by
  obtain ⟨older, c, horders, hopen, hfirst⟩ := h.held hpos
  refine ⟨c, by rw [horders]; simp, hopen, ?_, hfirst⟩
  have hnodup := h.nodup
  rw [horders] at hnodup
  simp only [causedBy, hkind, ← hopen, horders]
  exact rootOf_last hnodup

/-- The traced state once the engine has moved to `engine`. -/
def follow (s : Traced R) (engine : Engine R) : Traced R where
  engine
  orders := s.orders ++ (engine.sent.drop s.engine.sent.length).map (causedBy s)

theorem idles_follow {s : Traced R} {engine : Engine R} (hsent : engine.sent = s.engine.sent)
    (hseq : s.engine.oms.orderSeq ≤ engine.oms.orderSeq)
    (hheld : engine.oms.riskMgr.hasPosition = true → s.engine.oms.riskMgr.hasPosition = true ∧
      engine.oms.riskMgr.openOrder = s.engine.oms.riskMgr.openOrder) :
    Idles s (follow s engine) := by
  refine ⟨?_, hseq, hheld⟩
  rw [follow, hsent, List.drop_length, List.map_nil, List.append_nil]

theorem sends_follow {s : Traced R} {engine : Engine R} {so : SentOrder} {k : Nat}
    (hsent : engine.sent = s.engine.sent ++ [so]) (hle : s.engine.oms.orderSeq ≤ k)
    (hseq : engine.oms.orderSeq = k + 1) (hid : so.order.clordid = nextClordid k)
    (hheld : engine.oms.riskMgr.openOrder = so.order) : Sends s (follow s engine) so := by
  refine ⟨?_, ⟨k, hle, ?_, hid⟩, hheld⟩
  · rw [follow, hsent, List.drop_left]
    rfl
  · rw [follow, hseq]
    exact Nat.lt_succ_self k

variable [LinearOrder R]

def step (s : Traced R) (l : EngineLabel R) : Traced R := follow s (s.engine.step l)

/-- The order that the timer hands to the callback goes out again as a closing order, or
nothing does because there is no session to send it to. -/
theorem step_timer {s : Traced R} {i : AlphaInput R} {o : Order} (hpc : s.engine.pc = .pop)
    (ho : s.engine.oms.riskMgr.onTimer i.nowNs = some o)
    (he : s.engine.alphaStep i = { s.engine.forceClose o i with pc := .polled i.nowNs }) :
    (Idles s (step s (.alpha i)) ∧ ClosesSignalOrder s (.alpha i)) ∨
    (∃ so, Sends s (step s (.alpha i)) so ∧ so.kind = .forceClose ∧
      s.engine.oms.riskMgr.hasPosition = true ∧
      so.order.side = closeSide s.engine.oms.riskMgr.openOrder.side ∧
      (ClosesSignalOrder s (.alpha i) ↔ ∀ c ∈ s.orders,
        c.id = s.engine.oms.riskMgr.openOrder.clordid → c.sent.kind = .signal)) := by
  obtain ⟨hpos, rfl⟩ := RiskManager.onTimer_eq_some ho
  have hseq := s.engine.oms.cancelOrder_orderSeq_ge s.engine.oms.riskMgr.openOrder.clordid
  show (Idles s (follow s (s.engine.alphaStep i)) ∧ _) ∨
    ∃ so, Sends s (follow s (s.engine.alphaStep i)) so ∧ _
  rw [he]
  obtain ⟨hout, hsent, hle, hheld⟩ | ⟨hl, hsession, so, hid, hside, hsent, hnext, hheld⟩ :=
    place_cases { s.engine with oms := s.engine.oms.cancelOrder _ } .forceClose
      (closeSide s.engine.oms.riskMgr.openOrder.side) s.engine.oms.riskMgr.openOrder.qty
      (if s.engine.oms.riskMgr.openOrder.side = Side.buy then i.bestBid else i.bestAsk)
      i.nowNs i.session
  · refine Or.inl ⟨idles_follow hsent (hseq.trans hle) ?_, ?_⟩
    · intro hp
      simpa [forceClose] using hheld hp
    · intro _ hl hsession
      exact absurd ⟨by simpa using hl, hsession⟩ hout
  · refine Or.inr ⟨_, sends_follow hsent hseq hnext hid hheld, rfl, hpos, hside, ?_⟩
    constructor
    · intro h
      exact h hpc (by simpa using hl) hsession _ ho
    · intro h _ _ _ o' ho'
      rw [ho] at ho'
      rwa [← Option.some.inj ho']

theorem step_cleared {s : Traced R} {i : AlphaInput R} {t : Nat} {sig : Signal R}
    (he : s.engine.alphaStep i =
      { s.engine.place .signal (signalSide sig) 1 sig.l1Price t i.session with pc := .pop }) :
    Idles s (step s (.alpha i)) ∨ ∃ so, Sends s (step s (.alpha i)) so ∧ so.kind = .signal := by
  show Idles s (follow s (s.engine.alphaStep i)) ∨
    ∃ so, Sends s (follow s (s.engine.alphaStep i)) so ∧ _
  rw [he]
  obtain ⟨-, hsent, hle, hheld⟩ | ⟨-, -, so, hid, -, hsent, hnext, hheld⟩ :=
    place_cases s.engine .signal (signalSide sig) 1 sig.l1Price t i.session
  · exact Or.inl (idles_follow hsent hle hheld)
  · exact Or.inr ⟨_, sends_follow hsent (Nat.le_refl _) hnext hid hheld, rfl⟩

theorem idles_report (s : Traced R) (r : ExecutionReport) (t : Nat) :
    Idles s (step s (.report r t)) := by
  apply idles_follow
  · rfl
  · exact (onExecutionReport_orderSeq s.engine.oms r t).ge
  · intro hpos
    simp only [Engine.step] at hpos ⊢
    have he := (onExecutionReport_of_hasPosition hpos).1
    rw [he] at hpos ⊢
    exact ⟨hpos, rfl⟩

/-- A step sends nothing, or the order of a signal, or a closing order for the order held; only
the last can break the rule that the order held was sent on a signal. -/
theorem step_cases (s : Traced R) (l : EngineLabel R) :
    (Idles s (step s l) ∧ ClosesSignalOrder s l) ∨
    (∃ so, Sends s (step s l) so ∧ so.kind = .signal ∧ ClosesSignalOrder s l) ∨
    (∃ so, Sends s (step s l) so ∧ so.kind = .forceClose ∧
      s.engine.oms.riskMgr.hasPosition = true ∧
      so.order.side = closeSide s.engine.oms.riskMgr.openOrder.side ∧
      (ClosesSignalOrder s l ↔ ∀ c ∈ s.orders,
        c.id = s.engine.oms.riskMgr.openOrder.clordid → c.sent.kind = .signal)) := by
  cases l with
  | logon => exact Or.inl ⟨idles_follow rfl (Nat.le_refl _) fun hpos => ⟨hpos, rfl⟩, trivial⟩
  | logout => exact Or.inl ⟨idles_follow rfl (Nat.le_refl _) fun hpos => ⟨hpos, rfl⟩, trivial⟩
  | report r t => exact Or.inl ⟨idles_report s r t, trivial⟩
  | alpha i =>
    obtain ⟨hsilent, pc, he⟩ | ⟨o, hpc, ho, he⟩ | ⟨t, sig, hpc, he⟩ := alphaStep_cases s.engine i
    · refine Or.inl ⟨?_, ?_⟩
      · show Idles s (follow s (s.engine.alphaStep i))
        rw [he]
        exact idles_follow rfl (Nat.le_refl _) fun hpos => ⟨hpos, rfl⟩
      · intro hpop _ _ o ho
        rw [hsilent hpop] at ho
        cases ho
    · exact (step_timer hpc ho he).imp_right Or.inr
    · have hrule : ClosesSignalOrder s (.alpha i) := by
        intro hpop
        rw [hpc] at hpop
        cases hpop
      obtain hidle | ⟨so, hsends, hkind⟩ := step_cleared he
      · exact Or.inl ⟨hidle, hrule⟩
      · exact Or.inr (Or.inl ⟨so, hsends, hkind, hrule⟩)

theorem lineage_step {s : Traced R} (l : EngineLabel R) (h : Lineage s) : Lineage (step s l) := by
  obtain ⟨hi, -⟩ | ⟨so, hs, hkind, -⟩ | ⟨so, hs, hkind, hpos, -⟩ := step_cases s l
  · exact hi.lineage h
  · refine hs.lineage h ⟨causedBy s so, ?_, hkind, ?_⟩
    · rw [hs.orders]
      simp
    · simp [causedBy, hkind]
  · obtain ⟨c, hc, -, hroot, -⟩ := causedBy_forceClose h hkind hpos
    obtain ⟨d, hd, hdk, hdr⟩ := h.roots c hc
    refine hs.lineage h ⟨d, ?_, hdk, hdr.trans hroot.symm⟩
    rw [hs.orders]
    exact List.mem_append_left _ hd

section Closing

omit [LinearOrder R]

variable {s s' : Traced R} {so : SentOrder}

theorem Sends.closings_forceClose (hs : Sends s s' so) (hkind : so.kind = .forceClose) {c : Caused}
    (hroot : (causedBy s so).root = c.root) (root : String) : closings s'.orders root =
      closings s.orders root ++ if c.root = root then [causedBy s so] else [] := by
  rw [hs.closings_eq, hroot]
  simp [hkind]

/-- A closing order for a closing order would be the second one that goes back to their root. -/
theorem signal_of_closesOnce (h : Lineage s) (hs : Sends s s' so) (hkind : so.kind = .forceClose)
    {c : Caused} (hc : c ∈ s.orders) (hroot : (causedBy s so).root = c.root)
    (hnew : ClosesOnce s') : c.sent.kind = .signal := by
  cases hck : c.sent.kind with
  | signal => rfl
  | forceClose =>
    obtain ⟨e, he, hek, heid⟩ := h.roots c hc
    have hmem : c ∈ closings s.orders e.id := mem_closings.mpr ⟨hc, hck, heid.symm⟩
    have he' : e ∈ s'.orders := by
      rw [hs.orders]
      exact List.mem_append_left _ he
    have hlen := (hnew e he' hek).1
    rw [hs.closings_forceClose hkind hroot, if_pos heid.symm, List.length_append,
      List.length_singleton] at hlen
    have hone := List.length_pos_of_mem hmem
    omega

theorem closesOnce_of_signal (h : Lineage s) (ho : ClosesOnce s) (hs : Sends s s' so)
    (hkind : so.kind = .forceClose) {c : Caused} (hc : c ∈ s.orders)
    (hroot : (causedBy s so).root = c.root) (hside : so.order.side = closeSide c.sent.order.side)
    (hck : c.sent.kind = .signal) (hfirst : closings s.orders c.id = []) : ClosesOnce s' := by
  intro e he hek
  rw [hs.orders] at he
  rw [hs.closings_forceClose hkind hroot]
  rcases List.mem_append.mp he with he | he
  · by_cases hid : c.root = e.id
    · -- the signal order it goes back to is the order held itself
      have hce : c = e := List.inj_on_of_nodup_map h.nodup hc he ((h.own c hc hck).symm.trans hid)
      subst hce
      rw [if_pos hid, hfirst, List.nil_append]
      refine ⟨Nat.le_refl _, ?_⟩
      intro d hd
      rw [List.mem_singleton.mp hd]
      exact hside
    · rw [if_neg hid, List.append_nil]
      exact ho e he hek
  · rw [List.mem_singleton.mp he, causedBy, hkind] at hek
    cases hek

/-- Sending a closing order for the order held keeps the rule exactly when that order was sent
on a signal. -/
theorem closesOnce_closing_iff (h : Lineage s) (ho : ClosesOnce s) (hs : Sends s s' so)
    (hkind : so.kind = .forceClose) (hpos : s.engine.oms.riskMgr.hasPosition = true)
    (hside : so.order.side = closeSide s.engine.oms.riskMgr.openOrder.side) :
    ClosesOnce s' ↔ ∀ c ∈ s.orders, c.id = s.engine.oms.riskMgr.openOrder.clordid →
      c.sent.kind = .signal := by
  obtain ⟨c, hc, hopen, hroot, hfirst⟩ := causedBy_forceClose h hkind hpos
  have hid : c.id = s.engine.oms.riskMgr.openOrder.clordid := by rw [Caused.id, hopen]
  constructor
  · intro hnew d hd hdid
    have hdc : d = c := List.inj_on_of_nodup_map h.nodup hd hc (hdid.trans hid.symm)
    rw [hdc]
    exact signal_of_closesOnce h hs hkind hc hroot hnew
  · intro hsignal
    have hck := hsignal c hc hid
    rw [← hopen] at hside
    exact closesOnce_of_signal h ho hs hkind hc hroot hside hck (hfirst hck)

end Closing

omit [LinearOrder R] in
theorem closesOnce_signal {s s' : Traced R} {so : SentOrder} (h : Lineage s)
    (ho : ClosesOnce s) (hs : Sends s s' so) (hkind : so.kind = .signal) : ClosesOnce s' := by
  have hclosings : ∀ root, closings s'.orders root = closings s.orders root := by
    intro root
    rw [hs.closings_eq]
    simp [hkind]
  intro e he hek
  rw [hclosings]
  rw [hs.orders] at he
  rcases List.mem_append.mp he with he | he
  · exact ho e he hek
  · have hnone : closings s.orders e.id = [] := by
      rw [List.mem_singleton.mp he]
      exact hs.closings_new h
    rw [hnone]
    exact ⟨Nat.zero_le _, fun d hd => by cases hd⟩

theorem closesOnce_step_iff {s : Traced R} (l : EngineLabel R) (h : Lineage s)
    (ho : ClosesOnce s) : ClosesOnce (step s l) ↔ ClosesSignalOrder s l := by
  obtain ⟨hi, hrule⟩ | ⟨so, hs, hkind, hrule⟩ | ⟨so, hs, hkind, hpos, hside, hrule⟩ :=
    step_cases s l
  · refine iff_of_true ?_ hrule
    rw [ClosesOnce, hi.orders]
    exact ho
  · exact iff_of_true (closesOnce_signal h ho hs hkind) hrule
  · rw [hrule]
    exact closesOnce_closing_iff h ho hs hkind hpos hside

omit [LinearOrder R] in
theorem lineage_init (cfg : RiskManager.Config R) : Lineage (init cfg) where
  ids c hc := by cases hc
  nodup := List.nodup_nil
  roots c hc := by cases hc
  own c hc := by cases hc
  held hpos := by cases hpos

/-- In every state of a run each signal order has caused at most one further order, on the
opposite side, exactly when no closing order goes out for an order that is a closing order. -/
theorem closesOnce_iff_closesSignalOrder (cfg : RiskManager.Config R)
    (ls : List (EngineLabel R)) :
    (∀ pre, pre <+: ls → ClosesOnce (run step (init cfg) pre)) ↔
      Along step ClosesSignalOrder (init cfg) ls := by
  rw [← always_iff_forall_run]
  exact always_iff_along (I := Lineage) (P := ClosesOnce)
    (fun s l h _ => lineage_step l h) (fun s l h ho => closesOnce_step_iff l h ho)
    (lineage_init cfg) (fun c hc => by cases hc)

/-- A buy order stays unanswered, and so does the order that closes it five seconds later. -/
def unansweredClose : List (EngineLabel ℚ) :=
  [.logon, .alpha { nowNs := 1000000000 },
    .alpha { signal := some { l1Price := 200000, direction := .buy } }, .alpha {},
    .alpha { nowNs := 6000000000, bestBid := 199900, bestAsk := 200000 }, .alpha {},
    .alpha { nowNs := 11000000000, bestBid := 199900, bestAsk := 200000 }]

/-- The closing order times out in its turn, and a second buy order goes out. -/
theorem not_closesOnce_unansweredClose :
    ¬ ClosesOnce (run step (init {}) unansweredClose) := by
  decide +kernel

end SmartQuant.ForceClose
