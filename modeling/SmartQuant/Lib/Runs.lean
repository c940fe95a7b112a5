import Mathlib.Data.List.Forall2
import Mathlib.Data.List.Infix

/-!
# Runs of a total step function

A run folds a step function over a list of inputs. `Always` speaks of the states
a run goes through, `Along` of its steps and the states they start from. The
rules below turn what one step preserves into what a whole run preserves, in one
direction (`always_of_along`) and, where a step breaks the property as soon as
it breaks the condition, in both (`always_iff_along`).
-/
namespace SmartQuant.Runs

variable {σ α β : Type*} {step : σ → α → σ}

def run (step : σ → α → σ) (s : σ) (as : List α) : σ := as.foldl step s

/-- `P` holds of the start state and of every state the run reaches. -/
def Always (step : σ → α → σ) (P : σ → Prop) : σ → List α → Prop
  | s, [] => P s
  | s, a :: as => P s ∧ Always step P (step s a) as

/-- Every step of the run meets `Q` in the state it starts from. -/
def Along (step : σ → α → σ) (Q : σ → α → Prop) : σ → List α → Prop
  | _, [] => True
  | s, a :: as => Q s a ∧ Along step Q (step s a) as

instance decidableAlong {Q : σ → α → Prop} [∀ s a, Decidable (Q s a)] :
    (s : σ) → (as : List α) → Decidable (Along step Q s as)
  | _, [] => inferInstanceAs (Decidable True)
  | s, a :: as =>
    have : Decidable (Along step Q (step s a) as) := decidableAlong _ _
    inferInstanceAs (Decidable (Q s a ∧ Along step Q (step s a) as))

@[simp] theorem run_nil (s : σ) : run step s [] = s := rfl

@[simp] theorem run_cons (s : σ) (a : α) (as : List α) :
    run step s (a :: as) = run step (step s a) as := rfl

theorem run_append (s : σ) (as bs : List α) :
    run step s (as ++ bs) = run step (run step s as) bs := List.foldl_append

theorem run_concat (s : σ) (as : List α) (a : α) :
    run step s (as ++ [a]) = step (run step s as) a := by
  rw [run_append, run_cons, run_nil]

theorem run_invariant {I : σ → Prop} (hstep : ∀ s a, I s → I (step s a)) {s : σ}
    (hs : I s) (as : List α) : I (run step s as) := by
  induction as generalizing s with
  | nil => exact hs
  | cons a as ih => exact ih (hstep s a hs)

/-- `Always` is a statement about the prefixes of the input list. -/
theorem always_iff_forall_run {P : σ → Prop} {s : σ} {as : List α} :
    Always step P s as ↔ ∀ pre, pre <+: as → P (run step s pre) := by
  induction as generalizing s with
  | nil =>
    constructor
    · intro h pre hpre
      rw [List.prefix_nil.mp hpre]
      exact h
    · intro h
      exact h [] (List.prefix_refl _)
  | cons a as ih =>
    constructor
    · rintro ⟨hs, has⟩ pre hpre
      cases pre with
      | nil => exact hs
      | cons b pre =>
        obtain ⟨rfl, htail⟩ := List.cons_prefix_cons.mp hpre
        exact ih.mp has pre htail
    · intro h
      refine ⟨h [] List.nil_prefix, ih.mpr fun pre hpre => ?_⟩
      exact h (a :: pre) (List.cons_prefix_cons.mpr ⟨rfl, hpre⟩)

/-- If a step that meets `Q` preserves `P`, a run whose steps all meet `Q` stays in `P`. -/
theorem always_of_along {P : σ → Prop} {Q : σ → α → Prop}
    (hstep : ∀ s a, P s → Q s a → P (step s a)) {s : σ} {as : List α}
    (hs : P s) (h : Along step Q s as) : Always step P s as := by
  induction as generalizing s with
  | nil => exact hs
  | cons a as ih => exact ⟨hs, ih (hstep s a hs h.1) h.2⟩

/-- If every step from a state in `P` keeps the invariant `I`, and stays in `P` exactly when
it meets `Q`, then a run stays in `P` exactly when all its steps meet `Q`. -/
theorem always_iff_along {I P : σ → Prop} {Q : σ → α → Prop}
    (hI : ∀ s a, I s → P s → I (step s a))
    (hstep : ∀ s a, I s → P s → (P (step s a) ↔ Q s a)) {s : σ} {as : List α}
    (hs : I s) (hP : P s) : Always step P s as ↔ Along step Q s as := by
  induction as generalizing s with
  | nil => exact ⟨fun _ => trivial, fun _ => hP⟩
  | cons a as ih =>
    constructor
    · rintro ⟨_, h⟩
      have hP' : P (step s a) := always_iff_forall_run.mp h [] List.nil_prefix
      exact ⟨(hstep s a hs hP).mp hP', (ih (hI s a hs hP) hP').mp h⟩
    · rintro ⟨hQ, h⟩
      have hP' : P (step s a) := (hstep s a hs hP).mpr hQ
      exact ⟨hP, (ih (hI s a hs hP) hP').mpr h⟩

theorem along_append {Q : σ → α → Prop} {s : σ} {as bs : List α} :
    Along step Q s (as ++ bs) ↔ Along step Q s as ∧ Along step Q (run step s as) bs := by
  induction as generalizing s with
  | nil => exact (and_iff_right trivial).symm
  | cons a as ih => rw [List.cons_append, Along, Along, ih, run_cons, and_assoc]

theorem along_congr {Q Q' : σ → α → Prop} {s : σ} {as : List α}
    (h : ∀ s, ∀ a ∈ as, Q s a ↔ Q' s a) : Along step Q s as ↔ Along step Q' s as := by
  induction as generalizing s with
  | nil => exact Iff.rfl
  | cons a as ih =>
    exact and_congr (h s a List.mem_cons_self)
      (ih fun s b hb => h s b (List.mem_cons_of_mem _ hb))

theorem along_of_invariant {I : σ → Prop} {Q : σ → α → Prop}
    (hI : ∀ s a, I s → I (step s a)) (h : ∀ s a, I s → Q s a) {s : σ} (hs : I s)
    (as : List α) : Along step Q s as := by
  induction as generalizing s with
  | nil => trivial
  | cons a as ih => exact ⟨h s a hs, ih (hI s a hs)⟩

theorem along_congr_of_invariant {I : σ → Prop} {Q Q' : σ → α → Prop}
    (hI : ∀ s a, I s → I (step s a)) (h : ∀ s a, I s → (Q s a ↔ Q' s a)) {s : σ} (hs : I s)
    (as : List α) : Along step Q s as ↔ Along step Q' s as := by
  induction as generalizing s with
  | nil => exact Iff.rfl
  | cons a as ih => exact and_congr (h s a hs) (ih (hI s a hs))

/-- `Along` is a statement about the places in the input list. -/
theorem along_iff_forall_split {Q : σ → α → Prop} {s : σ} {as : List α} :
    Along step Q s as ↔ ∀ pre a post, as = pre ++ a :: post → Q (run step s pre) a := by
  constructor
  · rintro h pre a post rfl
    exact (along_append.mp h).2.1
  · intro h
    induction as generalizing s with
    | nil => trivial
    | cons a as ih =>
      refine ⟨h [] a as rfl, ih fun pre b post hsplit => ?_⟩
      exact h (a :: pre) b post (by rw [hsplit, List.cons_append])

theorem along_mono_of_invariant {I : σ → Prop} {Q Q' : σ → α → Prop}
    (hI : ∀ s a, I s → I (step s a)) (h : ∀ s a, I s → Q s a → Q' s a) {s : σ} (hs : I s)
    {as : List α} (hQ : Along step Q s as) : Along step Q' s as := by
  induction as generalizing s with
  | nil => trivial
  | cons a as ih => exact ⟨h s a hs hQ.1, ih (hI s a hs) hQ.2⟩

theorem along_mono {Q Q' : σ → α → Prop} (h : ∀ s a, Q s a → Q' s a) {s : σ} {as : List α}
    (hQ : Along step Q s as) : Along step Q' s as := by
  induction as generalizing s with
  | nil => trivial
  | cons a as ih => exact ⟨h s a hQ.1, ih hQ.2⟩

/-- A condition on the inputs alone holds at every step. -/
theorem along_of_forall {P : α → Prop} {s : σ} {as : List α} (h : ∀ a ∈ as, P a) :
    Along step (fun _ a => P a) s as := by
  induction as generalizing s with
  | nil => trivial
  | cons a as ih =>
    exact ⟨h a List.mem_cons_self, ih fun b hb => h b (List.mem_cons_of_mem _ hb)⟩

/-- A place in a list with one more input is the last one, or a place in the list without it. -/
theorem concat_eq_split {as pre post : List α} {a b : α} :
    as ++ [a] = pre ++ b :: post ↔
      (as = pre ∧ a = b ∧ post = []) ∨ ∃ post', post = post' ++ [a] ∧ as = pre ++ b :: post' := by
  constructor
  · intro h
    rcases List.eq_nil_or_concat post with rfl | ⟨post', last, rfl⟩
    · obtain ⟨rfl, hlast⟩ := List.append_inj' h rfl
      exact Or.inl ⟨rfl, List.singleton_inj.mp hlast, rfl⟩
    · rw [List.concat_eq_append, ← List.cons_append, ← List.append_assoc] at h
      obtain ⟨rfl, hlast⟩ := List.append_inj' h rfl
      obtain rfl := List.singleton_inj.mp hlast
      exact Or.inr ⟨post', by rw [List.concat_eq_append], rfl⟩
  · rintro (⟨rfl, rfl, rfl⟩ | ⟨post', rfl, rfl⟩)
    · rfl
    · rw [← List.cons_append, List.append_assoc]

/-- What the steps of a run give out, in order. -/
def outputs (step : σ → α → σ) (out : σ → α → List β) : σ → List α → List β
  | _, [] => []
  | s, a :: as => out s a ++ outputs step out (step s a) as

@[simp] theorem outputs_nil (out : σ → α → List β) (s : σ) : outputs step out s [] = [] := rfl

@[simp] theorem outputs_cons (out : σ → α → List β) (s : σ) (a : α) (as : List α) :
    outputs step out s (a :: as) = out s a ++ outputs step out (step s a) as := rfl

theorem outputs_append (out : σ → α → List β) (s : σ) (as bs : List α) :
    outputs step out s (as ++ bs) =
      outputs step out s as ++ outputs step out (run step s as) bs := by
  induction as generalizing s with
  | nil => rfl
  | cons a as ih =>
    rw [List.cons_append, outputs_cons, outputs_cons, ih, run_cons, List.append_assoc]

theorem mem_outputs {out : σ → α → List β} {s : σ} {as : List α} {b : β}
    (h : b ∈ outputs step out s as) : ∃ s', ∃ a ∈ as, b ∈ out s' a := by
  induction as generalizing s with
  | nil => cases h
  | cons a as ih =>
    rcases List.mem_append.mp h with h | h
    · exact ⟨s, a, List.mem_cons_self, h⟩
    · obtain ⟨s', a', ha', hb⟩ := ih h
      exact ⟨s', a', List.mem_cons_of_mem _ ha', hb⟩

theorem forall_mem_outputs {out : σ → α → List β} {P : β → Prop} {s : σ} {as : List α} :
    (∀ b ∈ outputs step out s as, P b) ↔ Along step (fun s a => ∀ b ∈ out s a, P b) s as := by
  induction as generalizing s with
  | nil => exact iff_of_true (by simp) trivial
  | cons a as ih => rw [outputs_cons, List.forall_mem_append, ih, Along]

/-- A number that grows by those a step gives out with `p`. -/
theorem run_add_countP (total : σ → Nat) {out : σ → α → List β} {p : β → Bool}
    (h : ∀ s a, total (step s a) = total s + (out s a).countP p) (s : σ) (as : List α) :
    total (run step s as) = total s + (outputs step out s as).countP p := by
  induction as generalizing s with
  | nil => rfl
  | cons a as ih => rw [run_cons, ih, h, outputs_cons, List.countP_append, Nat.add_assoc]

/-- A number that a step raises at most by as many as it gives out. -/
theorem run_le_add_length (total : σ → Nat) {out : σ → α → List β}
    (h : ∀ s a, total (step s a) ≤ total s + (out s a).length) (s : σ) (as : List α) :
    total (run step s as) ≤ total s + (outputs step out s as).length := by
  induction as generalizing s with
  | nil => exact Nat.le_refl _
  | cons a as ih =>
    have hfirst := h s a
    have hrest := ih (step s a)
    rw [run_cons, outputs_cons, List.length_append]
    omega

/-- Where the state does not show in what a step gives out, the run is a map. -/
theorem outputs_eq_map {out : σ → α → List β} {f : α → β} (h : ∀ s a, out s a = [f a])
    (s : σ) (as : List α) : outputs step out s as = as.map f := by
  induction as generalizing s with
  | nil => rfl
  | cons a as ih => rw [outputs_cons, h, ih, List.map_cons, List.singleton_append]

/-- What a run gives out is in the order of its inputs. -/
theorem pairwise_outputs {out : σ → α → List β} {r : β → β → Prop} {as : List α}
    (hsame : ∀ s, ∀ a ∈ as, (out s a).Pairwise r)
    (hlater : as.Pairwise fun a a' => ∀ s s', ∀ b ∈ out s a, ∀ b' ∈ out s' a', r b b') (s : σ) :
    (outputs step out s as).Pairwise r := by
  induction as generalizing s with
  | nil => exact List.Pairwise.nil
  | cons a as ih =>
    obtain ⟨hfirst, hrest⟩ := List.pairwise_cons.mp hlater
    have htail := ih (fun s a' ha' => hsame s a' (List.mem_cons_of_mem _ ha')) hrest (step s a)
    refine List.pairwise_append.mpr ⟨hsame s a List.mem_cons_self, htail, fun b hb b' hb' => ?_⟩
    obtain ⟨s', a', ha', hmem⟩ := mem_outputs hb'
    exact hfirst a' ha' s s' b hb b' hmem

theorem outputs_map {γ : Type*} (f : β → γ) (out : σ → α → List β) (s : σ) (as : List α) :
    outputs step (fun s a => (out s a).map f) s as = (outputs step out s as).map f := by
  induction as generalizing s with
  | nil => rfl
  | cons a as ih => rw [outputs_cons, outputs_cons, List.map_append, ih]

/-- If a second machine can take what every step gives out, and stays in step with the first
by doing so, it can take what a whole run gives out. -/
theorem along_outputs {τ : Type*} {advance : τ → β → τ} {Legal : τ → β → Prop}
    {I : σ → τ → Prop} {out : σ → α → List β}
    (h : ∀ s t a, I s t →
      Along advance Legal t (out s a) ∧ I (step s a) (run advance t (out s a)))
    {s : σ} {t : τ} (hs : I s t) (as : List α) :
    Along advance Legal t (outputs step out s as) ∧
      I (run step s as) (run advance t (outputs step out s as)) := by
  induction as generalizing s t with
  | nil => exact ⟨trivial, hs⟩
  | cons a as ih =>
    obtain ⟨hlegal, hnext⟩ := h s t a hs
    obtain ⟨hrest, hlast⟩ := ih hnext
    rw [outputs_cons, run_append]
    exact ⟨along_append.mpr ⟨hlegal, hrest⟩, hlast⟩

section Related

variable {τ α' β' : Type*} {step' : τ → α' → τ} {rel : σ → τ → Prop} {Q : σ → α → Prop}

/-- Two machines that take related inputs, and give out related outputs while the steps of the
first meet `Q`, do so over whole runs. -/
theorem outputs_related {out : σ → α → List β} {out' : τ → α' → List β'} {rIn : α → α' → Prop}
    {rOut : β → β' → Prop}
    (hstep : ∀ s t a a', rel s t → rIn a a' → Q s a →
      List.Forall₂ rOut (out s a) (out' t a') ∧ rel (step s a) (step' t a'))
    {s : σ} {t : τ} {as : List α} {as' : List α'} (hst : rel s t) (hin : List.Forall₂ rIn as as')
    (h : Along step Q s as) :
    List.Forall₂ rOut (outputs step out s as) (outputs step' out' t as') ∧
      rel (run step s as) (run step' t as') := by
  induction hin generalizing s t with
  | nil => exact ⟨.nil, hst⟩
  | cons ha _ ih =>
    obtain ⟨hout, hnext⟩ := hstep s t _ _ hst ha h.1
    obtain ⟨hrest, hlast⟩ := ih hnext h.2
    exact ⟨List.rel_append hout hrest, hlast⟩

/-- The states of two machines that take corresponding inputs. -/
theorem run_related {f : α → α'} (hstep : ∀ s t a, rel s t → Q s a → rel (step s a) (step' t (f a)))
    {s : σ} {t : τ} {as : List α} (hst : rel s t) (h : Along step Q s as) :
    rel (run step s as) (run step' t (as.map f)) := by
  induction as generalizing s t with
  | nil => exact hst
  | cons a as ih => exact ih (hstep s t a hst h.1) h.2

end Related

theorem along_and {Q Q' : σ → α → Prop} {s : σ} {as : List α} :
    Along step (fun s a => Q s a ∧ Q' s a) s as ↔ Along step Q s as ∧ Along step Q' s as := by
  induction as generalizing s with
  | nil => exact ⟨fun _ => ⟨trivial, trivial⟩, fun _ => trivial⟩
  | cons a as ih =>
    constructor
    · intro hboth
      obtain ⟨⟨hq, hq'⟩, h⟩ := hboth
      exact ⟨⟨hq, (ih.mp h).1⟩, hq', (ih.mp h).2⟩
    · intro heach
      obtain ⟨⟨hq, h⟩, hq', h'⟩ := heach
      exact ⟨⟨hq, hq'⟩, ih.mpr ⟨h, h'⟩⟩

end SmartQuant.Runs
