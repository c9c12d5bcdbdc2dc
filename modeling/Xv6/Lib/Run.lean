import Mathlib

namespace Xv6.Lib

section Run

variable {σ ℓ : Type*} (step : σ → ℓ → Option σ)

-- Take the steps of a list in order. A label that is not enabled ends the
-- run without a state.
def run : σ → List ℓ → Option σ
  | s, [] => some s
  | s, l :: ls => (step s l).bind fun t => run t ls

-- Every step of the run meets a condition on its label and the state before it.
def Along (cond : σ → ℓ → Prop) : σ → List ℓ → Prop
  | _, [] => True
  | s, l :: ls => cond s l ∧ match step s l with
    | none => True
    | some t => Along cond t ls

def decideAlong (cond : σ → ℓ → Prop) [∀ s l, Decidable (cond s l)] :
    (s : σ) → (ls : List ℓ) → Decidable (Along step cond s ls)
  | _, [] => inferInstanceAs (Decidable True)
  | s, l :: ls =>
    letI : Decidable (match step s l with
        | none => True
        | some t => Along step cond t ls) :=
      match step s l with
      | none => inferInstanceAs (Decidable True)
      | some t => decideAlong cond t ls
    inferInstanceAs (Decidable (_ ∧ _))

instance (cond : σ → ℓ → Prop) [∀ s l, Decidable (cond s l)] (s : σ) (ls : List ℓ) :
    Decidable (Along step cond s ls) := decideAlong step cond s ls

variable {step}

variable {l : ℓ} {ls : List ℓ}

theorem run_cons {s t : σ} (h : run step s (l :: ls) = some t) :
    ∃ r, step s l = some r ∧ run step r ls = some t := Option.bind_eq_some_iff.1 h

theorem run_concat {s t : σ} (h : run step s (ls ++ [l]) = some t) :
    ∃ r, run step s ls = some r ∧ step r l = some t := by
  induction ls generalizing s with
  | nil =>
    obtain ⟨r, hr, ht⟩ := run_cons h
    exact ⟨s, rfl, hr.trans ht⟩
  | cons first ls ih =>
    obtain ⟨r, hr, ht⟩ := run_cons h
    obtain ⟨q, hq, hs⟩ := ih ht
    exact ⟨q, by simp [run, hr, hq], hs⟩

variable {cond : σ → ℓ → Prop} {s : σ}

theorem along_append {ls ms : List ℓ} (h : Along step cond s (ls ++ ms)) : Along step cond s ls := by
  induction ls generalizing s with
  | nil => trivial
  | cons l ls ih =>
    refine ⟨h.1, ?_⟩
    have hrest := h.2
    split at hrest
    · trivial
    · exact ih hrest

theorem along_concat {s r : σ}
    (h : Along step cond s (ls ++ [l])) (hr : run step s ls = some r) : cond r l := by
  induction ls generalizing s with
  | nil =>
    cases hr
    exact h.1
  | cons first ls ih =>
    obtain ⟨t, ht, hrun⟩ := run_cons hr
    have hrest := h.2
    rw [ht] at hrest
    exact ih hrest hrun

theorem along_concat_iff {s r : σ} (hr : run step s ls = some r) :
    Along step cond s (ls ++ [l]) ↔ Along step cond s ls ∧ cond r l := by
  refine ⟨fun h => ⟨along_append h, along_concat h hr⟩, ?_⟩
  rintro ⟨h, hl⟩
  induction ls generalizing s with
  | nil =>
    cases hr
    refine ⟨hl, ?_⟩
    split <;> trivial
  | cons first ls ih =>
    obtain ⟨t, ht, hrun⟩ := run_cons hr
    have hrest := h.2
    rw [ht] at hrest
    refine ⟨h.1, ?_⟩
    rw [ht]
    exact ih hrun hrest

theorem along_mono {cond weaker : σ → ℓ → Prop} (hcond : ∀ s l, cond s l → weaker s l)
    (h : Along step cond s ls) : Along step weaker s ls := by
  induction ls generalizing s with
  | nil => trivial
  | cons l ls ih =>
    refine ⟨hcond s l h.1, ?_⟩
    have hrest := h.2
    split at hrest
    · trivial
    · exact ih hrest

theorem along_true (s : σ) (ls : List ℓ) : Along step (fun _ _ => True) s ls := by
  induction ls generalizing s with
  | nil => trivial
  | cons l ls ih =>
    refine ⟨trivial, ?_⟩
    split
    · trivial
    · exact ih _

theorem along_singleton (h : cond s l) : Along step cond s [l] := by
  refine ⟨h, ?_⟩
  split <;> trivial

theorem along_cons {t : σ} (h : cond s l) (hstep : step s l = some t) (hrest : Along step cond t ls) :
    Along step cond s (l :: ls) := by
  rw [Along, hstep]
  exact ⟨h, hrest⟩

variable {start : σ}

theorem exists_of_run_any {p : σ → Bool}
    (h : (run step start ls).any p = true) : ∃ s, run step start ls = some s ∧ p s = true := by
  cases hs : run step start ls with
  | none =>
    rw [hs] at h
    exact absurd h (by simp)
  | some s =>
    rw [hs] at h
    exact ⟨s, rfl, h⟩

-- What every step preserves holds after every run. The condition may be used
-- for the steps of the run, and the labels already taken may be mentioned.
theorem run_invariant {inv : List ℓ → σ → Prop} (hstart : inv [] start)
    (hstep : ∀ ls s l t, run step start ls = some s → inv ls s → cond s l →
      step s l = some t → inv (ls ++ [l]) t)
    (hcond : Along step cond start ls) (hrun : run step start ls = some s) :
    inv ls s := by
  induction ls using List.reverseRecOn generalizing s with
  | nil =>
    cases hrun
    exact hstart
  | append_singleton ls l ih =>
    obtain ⟨r, hr, hs⟩ := run_concat hrun
    exact hstep ls r l s hr (ih (along_append hcond) hr) (along_concat hcond hr) hs

variable {P : σ → Prop}

-- An invariant of the states alone, for the runs whose steps meet a condition
-- and for all runs.
theorem run_preserves_along (hstart : P start) (hstep : ∀ s l t, P s → cond s l → step s l = some t → P t)
    (hcond : Along step cond start ls) (hrun : run step start ls = some s) : P s :=
  have hinv : ∀ ls s l t, run step start ls = some s → P s → cond s l → step s l = some t → P t :=
    fun _ s l t _ hs hl ht => hstep s l t hs hl ht
  run_invariant hstart hinv hcond hrun

theorem run_preserves (hstart : P start) (hstep : ∀ s l t, P s → step s l = some t → P t)
    (hrun : run step start ls = some s) : P s :=
  run_preserves_along hstart (fun s l t hs _ ht => hstep s l t hs ht) (along_true start ls) hrun

-- If every step that meets the condition is enabled and keeps the invariant,
-- so does every run.
theorem run_enabled (hstep : ∀ s l, P s → cond s l → ∃ t, step s l = some t ∧ P t) (hs : P s)
    (hcond : Along step cond s ls) : ∃ t, run step s ls = some t ∧ P t := by
  induction ls generalizing s with
  | nil => exact ⟨s, rfl, hs⟩
  | cons l ls ih =>
    obtain ⟨r, hr, hP⟩ := hstep s l hs hcond.1
    have hrest := hcond.2
    rw [hr] at hrest
    obtain ⟨t, ht, hPt⟩ := ih hP hrest
    exact ⟨t, by simp [run, hr, ht], hPt⟩

-- A relation that every step keeps, with a step of the other system for the
-- same label, is kept by runs.
theorem run_simulates {σ' : Type*} {step' : σ' → ℓ → Option σ'} {R : σ → σ' → Prop}
    (hstep : ∀ s s' l t, R s s' → step s l = some t → ∃ t', step' s' l = some t' ∧ R t t')
    {s t : σ} {s' : σ'} (h : R s s') (hrun : run step s ls = some t) :
    ∃ t', run step' s' ls = some t' ∧ R t t' := by
  induction ls generalizing s s' with
  | nil =>
    cases hrun
    exact ⟨s', rfl, h⟩
  | cons l ls ih =>
    obtain ⟨r, hr, hrest⟩ := run_cons hrun
    obtain ⟨r', hr', hsim⟩ := hstep s s' l r h hr
    obtain ⟨t', ht', hR⟩ := ih hsim hrest
    exact ⟨t', by simp [run, hr', ht'], hR⟩

end Run

end Xv6.Lib
