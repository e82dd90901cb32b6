import Mathlib.Logic.Function.Basic

/-!
# Runs of a labelled machine

A machine is a step function that takes a state and a label and answers the
next state, or the reason why there is none. A run performs labels in order
and stops at the first refusal. The two rules below are the only inductions
over runs in the development: an invariant needs one step, and an invariant
that survives only some steps needs those steps to be the run's.
-/

namespace TrIrcd.Lib

variable {σ ι ε : Type}

/-- Perform the labels in order. -/
def run (step : σ → ι → Except ε σ) : σ → List ι → Except ε σ
  | s, [] => .ok s
  | s, o :: os =>
      match step s o with
      | .error e => .error e
      | .ok s' => run step s' os

/-- Every label of the run meets `G` in the state it is performed in. -/
def Meets (step : σ → ι → Except ε σ) (G : σ → ι → Prop) : σ → List ι → Prop
  | _, [] => True
  | s, o :: os => G s o ∧ ∀ s', step s o = .ok s' → Meets step G s' os

/-- On a given run the condition can be computed. -/
instance Meets.decidable (step : σ → ι → Except ε σ) (G : σ → ι → Prop)
    [∀ s o, Decidable (G s o)] :
    ∀ (s : σ) (os : List ι), Decidable (Meets step G s os)
  | _, [] => .isTrue trivial
  | s, o :: os =>
      match h : step s o with
      | .error e => decidable_of_iff (G s o)
          ⟨fun hg => ⟨hg, fun m hm => by rw [h] at hm; cases hm⟩, And.left⟩
      | .ok m =>
          have := Meets.decidable step G m os
          decidable_of_iff (G s o ∧ Meets step G m os)
            (and_congr_right fun _ =>
              ⟨fun hm m' hm' => by rw [h] at hm'; cases hm'; exact hm,
                fun hm => hm m h⟩)

variable {step : σ → ι → Except ε σ} {G : σ → ι → Prop} {I : σ → Prop}

theorem Meets.of_forall (hG : ∀ s o, G s o) : ∀ (os : List ι) {s : σ}, Meets step G s os
  | [], _ => trivial
  | o :: os, s => ⟨hG s o, fun _ _ => Meets.of_forall hG os⟩

theorem map_ok_iff {α β : Type} {x : Except ε α} {f : α → β} {b : β} :
    x.map f = .ok b ↔ ∃ a, x = .ok a ∧ f a = b := by
  cases x with
  | error e => simp [Except.map]
  | ok a => simp [Except.map]

theorem bind_ok_iff {α β : Type} {x : Except ε α} {f : α → Except ε β} {b : β} :
    x.bind f = .ok b ↔ ∃ a, x = .ok a ∧ f a = .ok b := by
  cases x with
  | error e => simp [Except.bind]
  | ok a => simp [Except.bind]

theorem run_nil (s : σ) : run step s [] = .ok s := rfl

theorem run_cons (s : σ) (o : ι) (os : List ι) :
    run step s (o :: os) = (step s o).bind (run step · os) := by
  rw [run]
  cases step s o <;> rfl

theorem run_cons_ok {s s' : σ} {o : ι} {os : List ι} :
    run step s (o :: os) = .ok s' ↔
      ∃ m, step s o = .ok m ∧ run step m os = .ok s' := by
  rw [run_cons, bind_ok_iff]

theorem run_append_ok {s s' : σ} {os ps : List ι} :
    run step s (os ++ ps) = .ok s' ↔
      ∃ m, run step s os = .ok m ∧ run step m ps = .ok s' := by
  induction os generalizing s with
  | nil => simp [run_nil]
  | cons o os ih =>
      simp only [List.cons_append, run_cons_ok, ih]
      constructor
      · rintro ⟨m, hm, k, hk, hs⟩
        exact ⟨k, ⟨m, hm, hk⟩, hs⟩
      · rintro ⟨k, ⟨m, hm, hk⟩, hs⟩
        exact ⟨m, hm, k, hk, hs⟩

/-- A run and what follows it. -/
theorem Meets.of_append {os ps : List ι} {s : σ} (h : Meets step G s (os ++ ps)) :
    Meets step G s os ∧ ∀ s', run step s os = .ok s' → Meets step G s' ps := by
  induction os generalizing s with
  | nil =>
      refine ⟨trivial, fun s' hs => ?_⟩
      cases hs
      exact h
  | cons o os ih =>
      refine ⟨⟨h.1, fun m hm => (ih (h.2 m hm)).1⟩, fun s' hs => ?_⟩
      obtain ⟨m, hm, hs'⟩ := run_cons_ok.mp hs
      exact (ih (h.2 m hm)).2 s' hs'

theorem run_singleton {s : σ} {o : ι} : run step s [o] = step s o := by
  rw [run_cons]
  cases step s o with
  | error e => rfl
  | ok m => rfl

/-- A machine that refuses nothing runs to the end. -/
theorem run_total (hstep : ∀ s o, ∃ s', step s o = .ok s') (os : List ι) (s : σ) :
    ∃ s', run step s os = .ok s' := by
  induction os generalizing s with
  | nil => exact ⟨s, rfl⟩
  | cons o os ih =>
      obtain ⟨m, hm⟩ := hstep s o
      obtain ⟨s', hs'⟩ := ih m
      exact ⟨s', run_cons_ok.mpr ⟨m, hm, hs'⟩⟩

/-- What one allowed step preserves, a whole allowed run preserves. -/
theorem run_invariant_of_meets
    (hstep : ∀ s o s', I s → G s o → step s o = .ok s' → I s') :
    ∀ (os : List ι) {s s' : σ}, I s → Meets step G s os →
      run step s os = .ok s' → I s' := by
  intro os
  induction os with
  | nil =>
      intro s s' hI _ hr
      cases hr
      exact hI
  | cons o os ih =>
      intro s s' hI hM hr
      obtain ⟨m, hm, hr'⟩ := run_cons_ok.mp hr
      exact ih (hstep s o m hI hM.1 hm) (hM.2 m hm) hr'

/-- What every step preserves, every run preserves. -/
theorem run_invariant (hstep : ∀ s o s', I s → step s o = .ok s' → I s')
    (os : List ι) {s s' : σ} (hI : I s) (hr : run step s os = .ok s') : I s' := by
  induction os generalizing s with
  | nil =>
      cases hr
      exact hI
  | cons o os ih =>
      obtain ⟨m, hm, hr'⟩ := run_cons_ok.mp hr
      exact ih (hstep s o m hI hm) hr'

/-- A property of the state and of what was performed so far: if it survives just
the allowed steps, it holds all along a run just when the whole run is allowed. -/
theorem run_history_iff {I : σ → List ι → Prop}
    (hstep : ∀ s seen o s', I s seen → step s o = .ok s' → (I s' (seen ++ [o]) ↔ G s o))
    (os : List ι) {s s' : σ} {seen : List ι} (hI : I s seen) (hr : run step s os = .ok s') :
    (∀ pre m, pre <+: os → run step s pre = .ok m → I m (seen ++ pre)) ↔
      Meets step G s os := by
  induction os generalizing s seen with
  | nil =>
      refine ⟨fun _ => trivial, fun _ pre m hpre hm => ?_⟩
      obtain rfl := List.prefix_nil.mp hpre
      cases hm
      rw [List.append_nil]
      exact hI
  | cons o os ih =>
      obtain ⟨k, hk, hr'⟩ := run_cons_ok.mp hr
      constructor
      · intro hall
        have hI' := hall [o] k (by simp) (by rw [run_singleton, hk])
        refine ⟨(hstep s seen o k hI hk).mp hI', fun m hm => ?_⟩
        obtain rfl := Except.ok.inj (hk.symm.trans hm)
        refine (ih hI' hr').mp fun pre m hpre hm' => ?_
        have hcons := hall (o :: pre) m (List.cons_prefix_cons.mpr ⟨rfl, hpre⟩)
          (run_cons_ok.mpr ⟨k, hk, hm'⟩)
        rwa [List.append_cons] at hcons
      · intro hM pre m hpre hm
        cases pre with
        | nil =>
            cases hm
            rw [List.append_nil]
            exact hI
        | cons p pre =>
            obtain ⟨rfl, hpre'⟩ := List.cons_prefix_cons.mp hpre
            obtain ⟨k', hk', hm'⟩ := run_cons_ok.mp hm
            obtain rfl := Except.ok.inj (hk.symm.trans hk')
            rw [List.append_cons]
            exact (ih ((hstep s seen p k hI hk).mpr hM.1) hr').mpr (hM.2 k hk) pre m hpre' hm'

/-! ## Simulations -/

section Simulations

variable {τ δ : Type} {step' : τ → ι → Except δ τ} {R : σ → τ → Prop}

/-- If another machine answers each allowed step with one of its own, it answers an allowed
run with a run. -/
theorem run_simulates
    (hstep : ∀ s t o s', R s t → G s o → step s o = .ok s' →
      ∃ t', step' t o = .ok t' ∧ R s' t') (os : List ι) {s s' : σ} {t : τ} (hR : R s t)
    (hM : Meets step G s os) (hr : run step s os = .ok s') :
    ∃ t', run step' t os = .ok t' ∧ R s' t' := by
  induction os generalizing s t with
  | nil =>
      cases hr
      exact ⟨t, rfl, hR⟩
  | cons o os ih =>
      obtain ⟨k, hk, hr'⟩ := run_cons_ok.mp hr
      obtain ⟨l, hl, hR'⟩ := hstep s t o k hR hM.1 hk
      obtain ⟨t', ht, hR''⟩ := ih hR' (hM.2 k hk) hr'
      exact ⟨t', run_cons_ok.mpr ⟨l, hl, ht⟩, hR''⟩

end Simulations

/-! ## Answers -/

/-- The value meets `I`, or the reason why there is none meets `P`. -/
def Answers {α : Type} (I : α → Prop) (P : ε → Prop) : Except ε α → Prop
  | .ok a => I a
  | .error e => P e

section Answers

variable {α β : Type} {P : ε → Prop} {Q : α → Prop} {R : β → Prop} {x : Except ε α}

instance Answers.decidable [DecidablePred Q] [DecidablePred P] :
    ∀ x : Except ε α, Decidable (Answers Q P x)
  | .ok a => inferInstanceAs (Decidable (Q a))
  | .error e => inferInstanceAs (Decidable (P e))

theorem Answers.imp {P' : ε → Prop} {Q' : α → Prop} (hx : Answers Q P x)
    (hq : ∀ a, Q a → Q' a) (hp : ∀ e, P e → P' e) : Answers Q' P' x := by
  cases x with
  | error e => exact hp e hx
  | ok a => exact hq a hx

theorem Answers.bind {f : α → Except ε β} (hx : Answers Q P x)
    (hf : ∀ a, Q a → Answers R P (f a)) : Answers R P (x.bind f) := by
  cases x with
  | error e => exact hx
  | ok a => exact hf a hx

theorem Answers.map {f : α → β} (hx : Answers Q P x) (hf : ∀ a, Q a → R (f a)) :
    Answers R P (x.map f) := by
  cases x with
  | error e => exact hx
  | ok a => exact hf a hx

/-- What one allowed step answers, a whole allowed run answers. -/
theorem run_answers {P : ε → Prop}
    (hstep : ∀ s o, I s → G s o → Answers I P (step s o)) :
    ∀ (os : List ι) {s : σ}, I s → Meets step G s os →
      Answers I P (run step s os) := by
  intro os
  induction os with
  | nil => exact fun hI _ => hI
  | cons o os ih =>
      intro s hI hM
      have hs := hstep s o hI hM.1
      rw [run_cons]
      cases hm : step s o with
      | error e =>
          rw [hm] at hs
          exact hs
      | ok m =>
          rw [hm] at hs
          exact ih hs (hM.2 m hm)

end Answers

/-- A property of what a fold comes to: if each element keeps it just when something holds
there, it is kept just when that holds at every element. -/
theorem foldl_iff {f : σ → ι → σ} {P : σ → Prop} (hI : ∀ s o, I s → I (f s o))
    (hstep : ∀ s o, I s → (P (f s o) ↔ P s ∧ G s o)) (os : List ι) {s : σ} (hs : I s) :
    P (os.foldl f s) ↔
      P s ∧ ∀ before o after, os = before ++ o :: after → G (before.foldl f s) o := by
  induction os generalizing s with
  | nil => simp
  | cons o os ih =>
      rw [List.foldl_cons, ih (hI s o hs), hstep s o hs]
      constructor
      · rintro ⟨⟨hP, hG⟩, hrest⟩
        refine ⟨hP, fun before o' after heq => ?_⟩
        cases before with
        | nil =>
            obtain ⟨rfl, -⟩ := List.cons.inj heq
            exact hG
        | cons b before =>
            obtain ⟨rfl, htail⟩ := List.cons.inj heq
            exact hrest before o' after htail
      · rintro ⟨hP, hall⟩
        refine ⟨⟨hP, hall [] o os rfl⟩, fun before o' after heq => ?_⟩
        exact hall (o :: before) o' after (by rw [heq, List.cons_append])

end TrIrcd.Lib
