import Mathlib

namespace Xv6.Lib

variable {ε σ α β : Type}

theorem bind_of_ok {m : EStateM ε σ α} {f : α → EStateM ε σ β} {s t : σ} {a : α} (h : m s = .ok a t) :
    (m >>= f) s = f a t := by
  show EStateM.bind m f s = _
  simp only [EStateM.bind, h]

-- A run of m from s that returns meets Q, and one that stops with an error
-- meets E.
def Sat (m : EStateM ε σ α) (s : σ) (Q : α → σ → Prop) (E : ε → σ → Prop) : Prop :=
  match m s with
  | .ok a t => Q a t
  | .error e t => E e t

-- The same, where the state in which a run stops does not matter.
abbrev Meets (m : EStateM ε σ α) (s : σ) (Q : α → σ → Prop) (E : ε → Prop) : Prop := Sat m s Q fun e _ => E e

namespace Sat

variable {m : EStateM ε σ α} {f : α → EStateM ε σ β} {s t : σ}
variable {P Q : α → σ → Prop} {R : β → σ → Prop} {E F : ε → σ → Prop}

theorem pure {a : α} (h : Q a s) : Sat (Pure.pure a : EStateM ε σ α) s Q E := h

theorem throw {e : ε} (h : E e s) : Sat (throw e : EStateM ε σ α) s Q E := h

theorem of_eq_ok {a : α} (hm : m s = .ok a t) (h : Q a t) : Sat m s Q E := by
  simp only [Sat, hm]
  exact h

theorem ok {a : α} (h : Sat m s Q E) (hm : m s = .ok a t) : Q a t := by
  simp only [Sat, hm] at h
  exact h

theorem error {e : ε} (h : Sat m s Q E) (hm : m s = .error e t) : E e t := by
  simp only [Sat, hm] at h
  exact h

theorem tracked (h : Sat m s Q E) : Sat m s (fun a t => m s = .ok a t ∧ Q a t) E := by
  unfold Sat at h ⊢
  cases hm : m s with
  | ok a t =>
    rw [hm] at h
    exact ⟨rfl, h⟩
  | error e t =>
    rw [hm] at h
    exact h

theorem exists_ok (h : Sat m s Q fun _ _ => False) : ∃ a t, m s = .ok a t ∧ Q a t := by
  unfold Sat at h
  cases hm : m s with
  | ok a t =>
    rw [hm] at h
    exact ⟨a, t, rfl, h⟩
  | error e t =>
    rw [hm] at h
    exact h.elim

theorem mono (h : Sat m s P E) (hq : ∀ a t, P a t → Q a t) (he : ∀ e t, E e t → F e t) : Sat m s Q F := by
  unfold Sat at h ⊢
  cases hm : m s with
  | ok a t =>
    rw [hm] at h
    exact hq a t h
  | error e t =>
    rw [hm] at h
    exact he e t h

theorem top : Sat m s (fun _ _ => True) fun _ _ => True := by
  unfold Sat
  split <;> trivial

theorem post (h : Sat m s P E) (hq : ∀ a t, P a t → Q a t) : Sat m s Q E :=
  h.mono hq fun _ _ he => he

theorem and (hp : Sat m s P E) (hq : Sat m s Q F) :
    Sat m s (fun a t => P a t ∧ Q a t) (fun e t => E e t ∧ F e t) := by
  unfold Sat at hp hq ⊢
  cases hm : m s with
  | ok a t =>
    rw [hm] at hp hq
    exact ⟨hp, hq⟩
  | error e t =>
    rw [hm] at hp hq
    exact ⟨hp, hq⟩

theorem bind (h : Sat m s P E) (hf : ∀ a t, P a t → Sat (f a) t R E) : Sat (m >>= f) s R E := by
  unfold Sat at h
  change match EStateM.bind m f s with
    | .ok a t => R a t
    | .error e t => E e t
  unfold EStateM.bind
  cases hm : m s with
  | ok a t =>
    rw [hm] at h
    exact hf a t h
  | error e t =>
    rw [hm] at h
    exact h

theorem bind_ok {a : α} (hm : m s = .ok a t) (hf : Sat (f a) t R E) : Sat (m >>= f) s R E := by
  unfold Sat
  rw [bind_of_ok hm]
  exact hf

theorem ite {c : Prop} [Decidable c] {yes no : EStateM ε σ α} (hyes : c → Sat yes s Q E)
    (hno : ¬ c → Sat no s Q E) : Sat (if c then yes else no) s Q E := by
  split
  · exact hyes ‹_›
  · exact hno ‹_›

theorem of_get {f : σ → EStateM ε σ β} (h : Sat (f s) s R E) : Sat (get >>= f) s R E := h

theorem of_modify {g : σ → σ} {f : PUnit → EStateM ε σ β} (h : Sat (f ⟨⟩) (g s) R E) :
    Sat (modify g >>= f) s R E := h

end Sat

-- Whatever happens, the state m leaves is related to the one it starts from.
def Within (R : σ → σ → Prop) (m : EStateM ε σ α) : Prop :=
  ∀ s, Sat m s (fun _ => R s) fun _ => R s

theorem Sat.within {R : σ → σ → Prop} {m : EStateM ε σ α} {s : σ} {Q : α → σ → Prop} {E : ε → σ → Prop}
    (h : Sat m s Q E) (hm : Within R m) : Sat m s (fun a t => Q a t ∧ R s t) E :=
  (h.and (hm s)).mono (fun _ _ hq => hq) fun _ _ he => he.1

namespace Within

variable {R : σ → σ → Prop} [IsPreorder σ R] {m : EStateM ε σ α} {f : α → EStateM ε σ β}

theorem pure (a : α) : Within R (Pure.pure a : EStateM ε σ α) := fun s => refl_of R s

theorem throw (e : ε) : Within R (throw e : EStateM ε σ α) := fun s => refl_of R s

theorem get : Within R (get : EStateM ε σ σ) := fun s => refl_of R s

omit [IsPreorder σ R] in
theorem modify {g : σ → σ} (h : ∀ s, R s (g s)) : Within R (modify g : EStateM ε σ PUnit) := h

theorem bind (hm : Within R m) (hf : ∀ a, Within R (f a)) : Within R (m >>= f) := by
  intro s
  have hcomp : ∀ t, R s t → ∀ a, Sat (f a) t (fun _ => R s) fun _ => R s := by
    intro t hst a
    exact (hf a t).mono (fun _ u htu => trans_of R hst htu) fun _ u htu => trans_of R hst htu
  exact (hm s).bind fun a t hst => hcomp t hst a

omit [IsPreorder σ R] in
theorem ite {c : Prop} [Decidable c] {m n : EStateM ε σ α} (hm : Within R m) (hn : Within R n) :
    Within R (if c then m else n) := by
  split
  · exact hm
  · exact hn

theorem when {c : Prop} [Decidable c] {m : EStateM ε σ PUnit} (hm : Within R m) :
    Within R (if c then m else Pure.pure ⟨⟩) := ite hm (pure _)

end Within

end Xv6.Lib
