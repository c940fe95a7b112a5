import SmartQuant.Lib.Runs

/-!
# Runs of keyed inputs

Each input belongs to a key. Where steps of different keys may change places, a run ends where
the histories of its keys lead, however they are mixed, and so do the outputs of every key.
-/
namespace SmartQuant.KeyedRuns

open Runs

variable {σ α β κ : Type*} [DecidableEq κ] {step : σ → α → σ} {out : σ → α → List β}
variable {I : σ → Prop} {key : α → κ} {keyOut : β → κ}

/-- Each key has the same inputs in the same order. -/
def SameByKey (key : α → κ) (as bs : List α) : Prop :=
  ∀ k, as.filter (fun a => key a = k) = bs.filter (fun a => key a = k)

/-- Steps of different keys do not see each other, as long as `I` holds. -/
structure Independent (step : σ → α → σ) (out : σ → α → List β) (key : α → κ) (keyOut : β → κ)
    (I : σ → Prop) : Prop where
  keeps : ∀ s a, I s → I (step s a)
  swap : ∀ s a b, I s → key a ≠ key b → step (step s a) b = step (step s b) a
  unseen : ∀ s a b, I s → key a ≠ key b → out (step s b) a = out s a
  own : ∀ s a, ∀ b ∈ out s a, keyOut b = key a

theorem filter_key_eq_nil {k : κ} {as : List α} (h : ∀ a ∈ as, key a ≠ k) :
    as.filter (fun a => key a = k) = [] := by
  rw [List.filter_eq_nil_iff]
  intro a ha hkey
  exact h a ha (of_decide_eq_true hkey)

/-- An input may be taken first if none of its key comes before it. -/
theorem Independent.front (h : Independent step out key keyOut I) {s : σ} (hs : I s) {a : α}
    {pre : List α} (hpre : ∀ b ∈ pre, key b ≠ key a) (post : List α) :
    run step s (pre ++ a :: post) = run step s (a :: (pre ++ post)) ∧
      ∀ k, (outputs step out s (pre ++ a :: post)).filter (fun b => keyOut b = k) =
        (outputs step out s (a :: (pre ++ post))).filter (fun b => keyOut b = k) := by
  induction pre generalizing s with
  | nil => exact ⟨rfl, fun _ => rfl⟩
  | cons c pre ih =>
    have hne : key c ≠ key a := hpre c List.mem_cons_self
    obtain ⟨hrun, hout⟩ := ih (h.keeps s c hs) fun b hb => hpre b (List.mem_cons_of_mem _ hb)
    refine ⟨?_, fun k => ?_⟩
    · rw [List.cons_append, run_cons, hrun, run_cons, run_cons, List.cons_append, run_cons,
        h.swap s c a hs hne]
    · rw [List.cons_append, outputs_cons, List.filter_append, hout, outputs_cons, outputs_cons,
        List.cons_append, outputs_cons, List.filter_append, List.filter_append, List.filter_append,
        h.unseen s a c hs hne.symm, h.unseen s c a hs hne, h.swap s c a hs hne, ← List.append_assoc,
        ← List.append_assoc]
      -- at most one of the two steps gives out anything of the key
      congr 1
      by_cases hk : key a = k
      · have hnone : ∀ b ∈ out s c, keyOut b ≠ k := fun b hb => by
          rw [h.own s c b hb, ← hk]
          exact hne
        rw [filter_key_eq_nil hnone, List.nil_append, List.append_nil]
      · have hnone : ∀ b ∈ out s a, keyOut b ≠ k := fun b hb => by
          rw [h.own s a b hb]
          exact hk
        rw [filter_key_eq_nil hnone, List.nil_append, List.append_nil]

theorem SameByKey.nil {bs : List α} (h : SameByKey key [] bs) : bs = [] := by
  cases bs with
  | nil => rfl
  | cons b bs =>
    have hb := h (key b)
    rw [List.filter_cons_of_pos (by simp)] at hb
    cases hb

/-- The first input comes up elsewhere behind inputs of other keys only. -/
theorem SameByKey.cons {a : α} {as bs : List α} (h : SameByKey key (a :: as) bs) :
    ∃ pre post, bs = pre ++ a :: post ∧ (∀ b ∈ pre, key b ≠ key a) ∧
      SameByKey key as (pre ++ post) := by
  have ha := (h (key a)).symm
  rw [List.filter_cons_of_pos (by simp)] at ha
  obtain ⟨pre, post, rfl, hpre, -, hpost⟩ := List.filter_eq_cons_iff.mp ha
  have hne : ∀ b ∈ pre, key b ≠ key a := fun b hb => by simpa using hpre b hb
  refine ⟨pre, post, rfl, hne, fun k => ?_⟩
  have hk := h k
  rw [List.filter_append] at hk ⊢
  by_cases hak : key a = k
  · have hnone : pre.filter (fun b => key b = k) = [] :=
      filter_key_eq_nil fun b hb => hak ▸ hne b hb
    rw [List.filter_cons_of_pos (by simpa using hak),
      List.filter_cons_of_pos (by simpa using hak), hnone, List.nil_append] at hk
    rw [hnone, List.nil_append]
    exact List.tail_eq_of_cons_eq hk
  · rwa [List.filter_cons_of_neg (by simpa using hak),
      List.filter_cons_of_neg (by simpa using hak)] at hk

/-- However the histories of the keys are mixed: the same end, and the same outputs by key. -/
theorem run_of_sameByKey (h : Independent step out key keyOut I) {s : σ} (hs : I s)
    {as bs : List α} (hsame : SameByKey key as bs) :
    run step s as = run step s bs ∧
      SameByKey keyOut (outputs step out s as) (outputs step out s bs) := by
  induction as generalizing s bs with
  | nil =>
    rw [hsame.nil]
    exact ⟨rfl, fun _ => rfl⟩
  | cons a as ih =>
    obtain ⟨pre, post, rfl, hpre, hrest⟩ := hsame.cons
    obtain ⟨hrun, hout⟩ := h.front hs hpre post
    obtain ⟨hend, hsameOut⟩ := ih (h.keeps s a hs) hrest
    refine ⟨?_, fun k => ?_⟩
    · rw [hrun, run_cons, run_cons, hend]
    · rw [hout k, outputs_cons, outputs_cons, List.filter_append, List.filter_append, hsameOut k]

end SmartQuant.KeyedRuns
