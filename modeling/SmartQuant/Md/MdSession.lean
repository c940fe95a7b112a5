import Mathlib.Data.List.Infix
import SmartQuant.Common.Types
import SmartQuant.Lib.Runs

/-!
# The market-data session

The session side of the gateway: a logon asks for market data unless a request
still counts as standing, a logout or a rejected request withdraws it. A logout
that comes within three seconds is taken for an authentication failure, and then
the handler returns before it withdraws the request.
-/
namespace SmartQuant

/-- The fields of the MarketDataRequest (35=V), as FIX values. -/
structure MarketDataRequest where
  mdReqId : String
  subscriptionRequestType : Char
  marketDepth : Nat
  mdUpdateType : Nat
  mdEntryTypes : List Char
  symbol : String
  deriving DecidableEq, Repr

/-- The members of `FixMdGateway` that the session callbacks read and write. -/
structure MdSession where
  symbolId : String
  symbolName : String := "XAUUSD"
  sessionId : String := ""
  subscribed : Bool := false
  authFailed : Bool := false
  /-- `logon_time_` in nanoseconds of the steady clock; 0 before the first logon. -/
  logonTime : Int := 0
  requests : List MarketDataRequest := []

inductive SessionCall where
  | onLogon (sid : String) (now : Int)
  | onLogout (now : Int)
  | onMdReject
  | fromAdmin (msgType : Char) (text : Option String)
  deriving DecidableEq, Repr

namespace MdSession

def marketDataRequest (s : MdSession) : MarketDataRequest where
  mdReqId := s.symbolName ++ "_SUB_1"
  subscriptionRequestType := '1'
  marketDepth := 0
  mdUpdateType := 1
  mdEntryTypes := ['0', '1', '2']
  symbol := s.symbolId

/-- `sendToTarget` is taken to succeed. -/
def subscribeMarketData (s : MdSession) : MdSession :=
  if s.subscribed then s
  else if s.symbolId = "" then s
  else { s with requests := s.requests ++ [s.marketDataRequest], subscribed := true }

def onLogon (s : MdSession) (sid : String) (now : Int) : MdSession :=
  { s with sessionId := sid, authFailed := false, logonTime := now }.subscribeMarketData

/-- `duration_cast` to milliseconds drops the fraction. -/
def aliveMs (logonTime now : Int) : Int := (now - logonTime).tdiv 1000000

def onLogout (s : MdSession) (now : Int) : MdSession :=
  if s.logonTime ≠ 0 ∧ aliveMs s.logonTime now < 3000 then { s with authFailed := true }
  else { s with subscribed := false }

def onMdReject (s : MdSession) : MdSession := { s with subscribed := false }

def authReasons : List String :=
  ["Invalid", "credential", "Unauthori", "password", "Password", "Username", "Login",
    "TargetSubID", "SenderSubID"]

/-- A Logout (35=5) whose text names the credentials or the sub ids is an authentication
failure. -/
def fromAdmin (s : MdSession) (msgType : Char) (text : Option String) : MdSession :=
  if msgType ≠ '5' then s
  else
    match text with
    | none => s
    | some reason =>
      if authReasons.any fun w => w.toList <:+: reason.toList then { s with authFailed := true }
      else s

def step (s : MdSession) : SessionCall → MdSession
  | .onLogon sid now => s.onLogon sid now
  | .onLogout now => s.onLogout now
  | .onMdReject => s.onMdReject
  | .fromAdmin msgType text => s.fromAdmin msgType text

/-- A logon sends exactly one request. -/
def SubscribesOnLogon (s : MdSession) : SessionCall → Prop
  | .onLogon sid now =>
      (s.step (.onLogon sid now)).requests = s.requests ++ [s.marketDataRequest]
  | _ => True

instance (s : MdSession) : (c : SessionCall) → Decidable (SubscribesOnLogon s c)
  | .onLogon _ _ => inferInstanceAs (Decidable (_ = _))
  | .onLogout _ | .onMdReject | .fromAdmin _ _ => inferInstanceAs (Decidable True)

end MdSession

/-- The call withdraws the request sent at `logonTime`: a reject, or a logout after three
seconds or more. -/
def SessionCall.Withdraws (logonTime : Int) : SessionCall → Prop
  | .onLogout now => logonTime = 0 ∨ 3000 ≤ MdSession.aliveMs logonTime now
  | .onMdReject => True
  | _ => False

def SessionCall.IsLogon : SessionCall → Prop
  | .onLogon _ _ => True
  | _ => False

/-- Between a logon and the next one some call withdraws the request. -/
def WithdrawsBetween (calls : List SessionCall) : Prop :=
  ∀ pre sid now mid sid' now' post,
    calls = pre ++ .onLogon sid now :: (mid ++ .onLogon sid' now' :: post) →
    (∀ c ∈ mid, ¬ c.IsLogon) → ∃ c ∈ mid, c.Withdraws now

namespace MdSession

open Runs

variable {s : MdSession}

@[simp] theorem onLogon_logonTime (s : MdSession) (sid : String) (now : Int) :
    (s.onLogon sid now).logonTime = now := by
  rw [onLogon, subscribeMarketData]
  split_ifs <;> rfl

@[simp] theorem onLogon_symbolId (s : MdSession) (sid : String) (now : Int) :
    (s.onLogon sid now).symbolId = s.symbolId := by
  rw [onLogon, subscribeMarketData]
  split_ifs <;> rfl

theorem onLogon_subscribed (h : s.symbolId ≠ "") (sid : String) (now : Int) :
    (s.onLogon sid now).subscribed = true := by
  rw [onLogon, subscribeMarketData]
  split_ifs with hsub
  · exact hsub
  · rfl

theorem subscribesOnLogon_iff (h : s.symbolId ≠ "") (sid : String) (now : Int) :
    SubscribesOnLogon s (.onLogon sid now) ↔ s.subscribed = false := by
  simp only [SubscribesOnLogon, step, onLogon, subscribeMarketData, if_neg h]
  cases hs : s.subscribed with
  | false => simp [marketDataRequest]
  | true => simp

@[simp] theorem step_symbolId (s : MdSession) (c : SessionCall) :
    (s.step c).symbolId = s.symbolId := by
  cases c with
  | onLogon sid now => exact onLogon_symbolId s sid now
  | onLogout now =>
    simp only [step, onLogout]
    split <;> rfl
  | onMdReject => rfl
  | fromAdmin msgType text =>
    simp only [step, fromAdmin]
    repeat' split
    all_goals rfl

/-- Outside a logon a call keeps the logon time, and the request unless it withdraws it. -/
theorem step_other {c : SessionCall} (hc : ¬ c.IsLogon) (s : MdSession) :
    (s.step c).logonTime = s.logonTime ∧
      ((s.step c).subscribed = true ↔ s.subscribed = true ∧ ¬ c.Withdraws s.logonTime) := by
  cases c with
  | onLogon sid now => exact absurd trivial hc
  | onLogout now =>
    simp only [step, onLogout, SessionCall.Withdraws]
    split_ifs with h
    · exact ⟨rfl, by simp [h.1, h.2]⟩
    · refine ⟨rfl, iff_of_false (by simp) fun hk => h ⟨fun hz => hk.2 (Or.inl hz), ?_⟩⟩
      by_contra hle
      exact hk.2 (Or.inr (by omega))
  | onMdReject => exact ⟨rfl, iff_of_false (by simp [step, onMdReject]) fun h => h.2 trivial⟩
  | fromAdmin msgType text =>
    have hkeep : (s.step (.fromAdmin msgType text)).logonTime = s.logonTime ∧
        (s.step (.fromAdmin msgType text)).subscribed = s.subscribed := by
      simp only [step, fromAdmin]
      repeat' split
      all_goals exact ⟨rfl, rfl⟩
    exact ⟨hkeep.1, by simp [hkeep.2, SessionCall.Withdraws]⟩

theorem run_symbolId (s : MdSession) (calls : List SessionCall) :
    (run step s calls).symbolId = s.symbolId :=
  run_invariant (I := fun s' : MdSession => s'.symbolId = s.symbolId)
    (fun _ c h => (step_symbolId _ c).trans h) rfl calls

theorem run_logonTime {calls : List SessionCall} (h : ∀ c ∈ calls, ¬ c.IsLogon) :
    (run step s calls).logonTime = s.logonTime := by
  induction calls generalizing s with
  | nil => rfl
  | cons c calls ih =>
    rw [run_cons, ih fun d hd => h d (List.mem_cons_of_mem _ hd)]
    exact (step_other (h c List.mem_cons_self) s).1

/-- A request stands after a run exactly when there was a logon that no call withdrew since. -/
theorem run_subscribed_iff (hsym : s.symbolId ≠ "") (hsub : s.subscribed = false)
    (calls : List SessionCall) :
    (run step s calls).subscribed = true ↔
      ∃ pre sid now mid, calls = pre ++ .onLogon sid now :: mid ∧
        (run step s calls).logonTime = now ∧ ∀ c ∈ mid, ¬ c.IsLogon ∧ ¬ c.Withdraws now := by
  induction calls using List.reverseRecOn with
  | nil => simp [hsub]
  | append_singleton calls c ih =>
    rw [run_concat]
    by_cases hc : c.IsLogon
    · obtain ⟨sid, now, rfl⟩ : ∃ sid now, c = .onLogon sid now := by
        cases c with
        | onLogon sid now => exact ⟨sid, now, rfl⟩
        | _ => exact hc.elim
      apply iff_of_true (onLogon_subscribed (by rwa [run_symbolId]) sid now)
      exact ⟨calls, sid, now, [], rfl, onLogon_logonTime _ sid now, fun c hc => by cases hc⟩
    · obtain ⟨htime, hkeep⟩ := step_other hc (run step s calls)
      rw [hkeep, ih, htime]
      constructor
      · intro hstands
        obtain ⟨⟨pre, sid, now, mid, rfl, hnow, hmid⟩, hw⟩ := hstands
        refine ⟨pre, sid, now, mid ++ [c], by simp, hnow, fun d hd => ?_⟩
        rcases List.mem_append.mp hd with hd | hd
        · exact hmid d hd
        · rw [List.mem_singleton.mp hd, ← hnow]
          exact ⟨hc, hw⟩
      · intro hlogon
        obtain ⟨pre, sid, now, mid, hsplit, hnow, hmid⟩ := hlogon
        rcases List.eq_nil_or_concat mid with rfl | ⟨mid, d, rfl⟩
        · -- the last call would be the logon itself
          have hlast := (List.append_inj' hsplit rfl).2
          rw [List.cons.injEq] at hlast
          exact absurd (hlast.1 ▸ trivial) hc
        · rw [List.concat_eq_append, ← List.cons_append, ← List.append_assoc] at hsplit
          obtain ⟨hcalls, hd⟩ := List.append_inj' hsplit rfl
          rw [List.cons.injEq] at hd
          obtain rfl := hd.1
          rw [hnow]
          exact ⟨⟨pre, sid, now, mid, hcalls, rfl, fun e he => hmid e (by simp [he])⟩,
            (hmid c (by simp)).2⟩

/-- From the start of the program every logon sends exactly one request if and only if between
any logon and the next some call withdraws the request. -/
theorem subscribesOnLogon_iff_withdrawsBetween {symbolId : String} (hsym : symbolId ≠ "")
    (symbolName : String) (calls : List SessionCall) :
    Along step SubscribesOnLogon { symbolId, symbolName } calls ↔ WithdrawsBetween calls := by
  rw [along_iff_forall_split]
  have hstart : ({ symbolId, symbolName } : MdSession).symbolId ≠ "" := hsym
  have hlogon : ∀ pre sid now, SubscribesOnLogon (run step { symbolId, symbolName } pre)
      (.onLogon sid now) ↔ (run step { symbolId, symbolName } pre).subscribed = false :=
    fun pre => subscribesOnLogon_iff (by rwa [run_symbolId])
  constructor
  · intro h pre sid now mid sid' now' post hcalls hmid
    have hnone := (hlogon (pre ++ .onLogon sid now :: mid) sid' now').mp
      (h _ _ post (by rw [hcalls]; simp))
    by_contra hno
    push Not at hno
    have htime : (run step { symbolId, symbolName } (pre ++ .onLogon sid now :: mid)).logonTime =
        now := by
      rw [run_append, run_cons, run_logonTime hmid]
      exact onLogon_logonTime _ sid now
    have hstands := (run_subscribed_iff hstart rfl (pre ++ .onLogon sid now :: mid)).mpr
      ⟨pre, sid, now, mid, rfl, htime, fun c hc => ⟨hmid c hc, hno c hc⟩⟩
    rw [hnone] at hstands
    cases hstands
  · intro h pre c post hcalls
    cases c with
    | onLogon sid' now' =>
      rw [hlogon]
      by_contra hsub
      obtain ⟨first, sid, now, mid, rfl, -, hmid⟩ :=
        (run_subscribed_iff hstart rfl pre).mp (by simpa using hsub)
      obtain ⟨d, hd, hw⟩ := h first sid now mid sid' now' post (by rw [hcalls]; simp)
        fun d hd => (hmid d hd).1
      exact (hmid d hd).2 hw
    | onLogout now => trivial
    | onMdReject => trivial
    | fromAdmin msgType text => trivial

/-- Two sessions of five seconds each. -/
def longSessions : List SessionCall :=
  [.onLogon "QUOTE" 1000000000, .onLogout 6000000000, .onLogon "QUOTE" 7000000000,
    .onLogout 12000000000]

theorem subscribesOnLogon_iff_withdrawsBetween_longSessions :
    Along step SubscribesOnLogon { symbolId := "41", symbolName := "XAUUSD" } longSessions ↔
      WithdrawsBetween longSessions :=
  subscribesOnLogon_iff_withdrawsBetween (by decide) "XAUUSD" longSessions

/-- A session of one second leaves the request standing, and the next logon sends none. -/
theorem not_subscribesOnLogon_shortSession :
    ¬ Along step SubscribesOnLogon { symbolId := "41", symbolName := "XAUUSD" }
      [.onLogon "QUOTE" 1000000000, .onLogout 2000000000, .onLogon "QUOTE" 7000000000] := by
  decide

end MdSession
end SmartQuant
