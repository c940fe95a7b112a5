import SmartQuant.Md.MdSession

/-!
# The logger's main loop

The loop wakes up once a second and gives up when it finds that the session was refused.
The callbacks run on the session's own thread meanwhile, and a logon clears the flag: a
refusal counts only if no logon comes between it and the next awakening.
-/
namespace SmartQuant.LoggerLoop

open Runs MdSession

/-- The program's process: its loop, the session callbacks, and SIGINT or SIGTERM. -/
inductive LoggerEvent where
  | callback (c : SessionCall)
  | signal
  | wake
  deriving DecidableEq, Repr

structure Logger where
  session : MdSession
  running : Bool := true
  /-- The loop has not ended. -/
  looping : Bool := true
  /-- It has ended because of an authentication failure. -/
  refused : Bool := false

/-- The body of the loop behind `usleep`, and the test of `g_running` that follows. -/
def wake (l : Logger) : Logger :=
  if !l.looping then l
  else if l.session.authFailed then { l with running := false, looping := false, refused := true }
  else { l with looping := l.running }

def loggerStep (l : Logger) : LoggerEvent → Logger
  | .callback c => { l with session := l.session.step c }
  | .signal => { l with running := false }
  | .wake => wake l

/-- The time of the last logon, 0 before the first. -/
def logonAt (t : Int) : SessionCall → Int
  | .onLogon _ now => now
  | _ => t

def lastLogon (calls : List SessionCall) : Int := run logonAt 0 calls

/-- The call says that the server refuses the session: a logout within three seconds of the
logon, or a Logout whose text names the credentials or the sub ids. -/
def Refuses (logonTime : Int) : SessionCall → Prop
  | .onLogout now => logonTime ≠ 0 ∧ aliveMs logonTime now < 3000
  | .fromAdmin msgType text =>
    msgType = '5' ∧ ∃ reason, text = some reason ∧
      ∃ w ∈ authReasons, w.toList <:+: reason.toList
  | _ => False

/-- A call has refused the session, and no logon came since. -/
def Refused (calls : List SessionCall) : Prop :=
  ∃ pre c mid, calls = pre ++ c :: mid ∧ Refuses (lastLogon pre) c ∧ ∀ d ∈ mid, ¬ d.IsLogon

/-- What the events say to the session. -/
def callbacks (es : List LoggerEvent) : List SessionCall :=
  es.filterMap fun e => match e with | .callback c => some c | _ => none

/-- No awakening found the session refused or the program interrupted. -/
def KeepsLooping (es : List LoggerEvent) : Prop :=
  ∀ pre post, es = pre ++ .wake :: post → .signal ∉ pre ∧ ¬ Refused (callbacks pre)

theorem step_authFailed (s : MdSession) (c : SessionCall) :
    (s.step c).authFailed = true ↔
      Refuses s.logonTime c ∨ s.authFailed = true ∧ ¬ c.IsLogon := by
  cases c with
  | onLogon sid now =>
    refine iff_of_false ?_ (by simp [Refuses, SessionCall.IsLogon])
    rw [step, onLogon, subscribeMarketData]
    split_ifs <;> simp
  | onLogout now =>
    rw [step, onLogout, Refuses]
    split_ifs with h
    · exact iff_of_true rfl (Or.inl h)
    · simp [h, SessionCall.IsLogon]
  | onMdReject => simp [step, onMdReject, Refuses, SessionCall.IsLogon]
  | fromAdmin msgType text =>
    simp only [step, fromAdmin, Refuses]
    by_cases htype : msgType = '5'
    · cases text with
      | none => simp [htype, SessionCall.IsLogon]
      | some reason =>
        by_cases hwords : ∃ w ∈ authReasons, w.toList <:+: reason.toList
        · simp [htype, hwords]
        · simp [htype, hwords, SessionCall.IsLogon]
    · simp [htype, SessionCall.IsLogon]

theorem run_lastLogon (s : MdSession) (calls : List SessionCall) :
    (run step s calls).logonTime = run logonAt s.logonTime calls := by
  induction calls generalizing s with
  | nil => rfl
  | cons c calls ih =>
    rw [run_cons, run_cons, ih]
    cases c with
    | onLogon sid now => rw [step, onLogon_logonTime, logonAt]
    | onLogout now =>
      rw [(step_other (c := .onLogout now) id s).1]
      rfl
    | onMdReject =>
      rw [(step_other (c := .onMdReject) id s).1]
      rfl
    | fromAdmin msgType text =>
      rw [(step_other (c := .fromAdmin msgType text) id s).1]
      rfl

theorem refused_concat_iff (calls : List SessionCall) (c : SessionCall) :
    Refused (calls ++ [c]) ↔ Refuses (lastLogon calls) c ∨ Refused calls ∧ ¬ c.IsLogon := by
  constructor
  · rintro ⟨pre, d, mid, hsplit, hrefuses, hmid⟩
    obtain ⟨rfl, rfl, -⟩ | ⟨mid', rfl, hcalls⟩ := concat_eq_split.mp hsplit
    · exact Or.inl hrefuses
    · refine Or.inr ⟨⟨pre, d, mid', hcalls, hrefuses, fun e he => hmid e ?_⟩, hmid c ?_⟩
      · exact List.mem_append_left _ he
      · exact List.mem_append_right _ List.mem_cons_self
  · rintro (hrefuses | ⟨⟨pre, d, mid, rfl, hrefuses, hmid⟩, hc⟩)
    · exact ⟨calls, c, [], rfl, hrefuses, by simp⟩
    · refine ⟨pre, d, mid ++ [c], by simp, hrefuses, fun e he => ?_⟩
      rcases List.mem_append.mp he with he | he
      · exact hmid e he
      · rwa [List.mem_singleton.mp he]

/-- The flag says that the session was refused since its last logon. -/
theorem run_authFailed {s : MdSession} (hlogon : s.logonTime = 0) (hflag : s.authFailed = false)
    (calls : List SessionCall) : (run step s calls).authFailed = true ↔ Refused calls := by
  induction calls using List.reverseRecOn with
  | nil =>
    refine iff_of_false (by simp [hflag]) ?_
    rintro ⟨pre, c, mid, hsplit, -⟩
    simp at hsplit
  | append_singleton calls c ih =>
    rw [run_concat, step_authFailed, refused_concat_iff, ih, run_lastLogon, hlogon, lastLogon]

theorem keepsLooping_concat_iff (es : List LoggerEvent) (e : LoggerEvent) :
    KeepsLooping (es ++ [e]) ↔
      KeepsLooping es ∧ (e = .wake → .signal ∉ es ∧ ¬ Refused (callbacks es)) := by
  constructor
  · intro h
    refine ⟨fun pre post hsplit => h pre (post ++ [e]) (by simp [hsplit]), ?_⟩
    rintro rfl
    exact h es [] rfl
  · rintro ⟨hkeeps, hlast⟩ pre post hsplit
    obtain ⟨rfl, rfl, -⟩ | ⟨post', -, hes⟩ := concat_eq_split.mp hsplit
    · exact hlast rfl
    · exact hkeeps pre post' hes

/-- What the state of the process says about its events. -/
structure Records (start : MdSession) (es : List LoggerEvent) (l : Logger) : Prop where
  session : l.session = run step start (callbacks es)
  running : l.looping = true → (l.running = true ↔ .signal ∉ es)
  looping : l.looping = true ↔ KeepsLooping es
  refused : l.refused = true ↔
    ∃ pre post, es = pre ++ .wake :: post ∧ KeepsLooping pre ∧ Refused (callbacks pre)

theorem wakes_concat_iff (es : List LoggerEvent) (e : LoggerEvent) :
    (∃ pre post, es ++ [e] = pre ++ .wake :: post ∧ KeepsLooping pre ∧
        Refused (callbacks pre)) ↔
      (∃ pre post, es = pre ++ .wake :: post ∧ KeepsLooping pre ∧ Refused (callbacks pre)) ∨
        e = .wake ∧ KeepsLooping es ∧ Refused (callbacks es) := by
  constructor
  · rintro ⟨pre, post, hsplit, hpre⟩
    obtain ⟨rfl, he, -⟩ | ⟨post', -, hes⟩ := concat_eq_split.mp hsplit
    · exact Or.inr ⟨he, hpre⟩
    · exact Or.inl ⟨pre, post', hes, hpre⟩
  · rintro (⟨pre, post, rfl, hpre⟩ | ⟨rfl, hes⟩)
    · exact ⟨pre, post ++ [e], by simp, hpre⟩
    · exact ⟨es, [], rfl, hes⟩

theorem callbacks_concat (es : List LoggerEvent) (e : LoggerEvent) :
    callbacks (es ++ [e]) = callbacks es ++ callbacks [e] := by
  rw [callbacks, callbacks, callbacks, List.filterMap_append]

/-- Only an awakening looks at anything. -/
theorem Records.other {start : MdSession} {es : List LoggerEvent} {l l' : Logger}
    (h : Records start es l) {e : LoggerEvent} (he : e ≠ .wake)
    (hsession : l'.session = run step l.session (callbacks [e]))
    (hrunning : l'.running = true ↔ l.running = true ∧ e ≠ .signal)
    (hlooping : l'.looping = l.looping) (hrefused : l'.refused = l.refused) :
    Records start (es ++ [e]) l' := by
  constructor
  · rw [hsession, h.session, callbacks_concat, run_append]
  · intro hl
    rw [hlooping] at hl
    rw [hrunning, h.running hl, List.mem_append, not_or, List.mem_singleton, ne_comm]
  · rw [hlooping, h.looping, keepsLooping_concat_iff]
    exact (and_iff_left fun hc => absurd hc he).symm
  · rw [hrefused, h.refused, wakes_concat_iff]
    exact (or_iff_left fun hc => he hc.1).symm

theorem records_wake {start : MdSession} {es : List LoggerEvent} {l : Logger}
    (h : Records start es l) (hfailed : l.session.authFailed = true ↔ Refused (callbacks es)) :
    Records start (es ++ [.wake]) (wake l) := by
  have hcallbacks : callbacks (es ++ [.wake]) = callbacks es := by
    rw [callbacks_concat]
    exact List.append_nil _
  have hsignal : (.signal ∉ es ++ [.wake]) ↔ .signal ∉ es := by simp
  have hkeeps := keepsLooping_concat_iff es .wake
  have hwakes := wakes_concat_iff es .wake
  rw [wake]
  cases hl : l.looping with
  | false =>
    have hnot : ¬ KeepsLooping es := by
      rw [← h.looping, hl]
      decide
    refine ⟨by rw [hcallbacks]; exact h.session, ?_, ?_, ?_⟩
    · intro hl'
      exact absurd (hl.symm.trans hl') (by decide)
    · exact iff_of_false (by simp [hl]) fun hc => hnot (hkeeps.mp hc).1
    · rw [hwakes]
      exact h.refused.trans (or_iff_left fun hc => hnot hc.2.1).symm
  | true =>
    have hkept : KeepsLooping es := h.looping.mp hl
    cases hf : l.session.authFailed with
    | true =>
      have hrefused := hfailed.mp hf
      refine ⟨by rw [hcallbacks]; exact h.session, fun hc => absurd hc Bool.false_ne_true, ?_, ?_⟩
      · exact iff_of_false Bool.false_ne_true fun hc => ((hkeeps.mp hc).2 rfl).2 hrefused
      · rw [hwakes]
        exact iff_of_true rfl (Or.inr ⟨rfl, hkept, hrefused⟩)
    | false =>
      have hclear : ¬ Refused (callbacks es) := by
        rw [← hfailed, hf]
        decide
      refine ⟨by rw [hcallbacks]; exact h.session, fun _ => ?_, ?_, ?_⟩
      · rw [hsignal]
        exact h.running hl
      · rw [hkeeps]
        refine (h.running hl).trans ⟨fun hs => ⟨hkept, fun _ => ⟨hs, hclear⟩⟩, fun hc => ?_⟩
        exact (hc.2 rfl).1
      · rw [hwakes]
        exact h.refused.trans (or_iff_left fun hc => hclear hc.2.2).symm

/-- From the start of the program, however the loop, the session and the signals are
interleaved: the loop goes on as long as no awakening finds a signal or a refusal that no logon
has erased, and it reports a refusal exactly if the awakening that ends it finds one. -/
theorem records_run (symbolId symbolName : String) (es : List LoggerEvent) :
    Records { symbolId, symbolName } es
      (run loggerStep { session := { symbolId, symbolName } } es) := by
  induction es using List.reverseRecOn with
  | nil =>
    refine ⟨rfl, fun _ => by simp, iff_of_true rfl ?_, ?_⟩
    · intro pre post hsplit
      simp at hsplit
    · simp
  | append_singleton es e ih =>
    rw [run_concat]
    cases e with
    | callback c => exact ih.other (by simp) rfl (by simp [loggerStep]) rfl rfl
    | signal => exact ih.other (by simp) rfl (by simp [loggerStep]) rfl rfl
    | wake =>
      refine records_wake ih ?_
      rw [ih.session]
      exact run_authFailed rfl rfl _

end SmartQuant.LoggerLoop
