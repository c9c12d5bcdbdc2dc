import Mathlib

namespace Xv6.Lib

open Function

section Chain

variable {α : Type*} {next next' : α → Option α} {p : Option α} {l : List α} {a : α}

-- The list that starts at p and is linked through next.
def Chain (next : α → Option α) : Option α → List α → Prop
  | p, [] => p = none
  | p, a :: l => p = some a ∧ Chain next (next a) l

theorem Chain.congr (h : Chain next p l) (hsame : ∀ a ∈ l, next' a = next a) : Chain next' p l := by
  induction l generalizing p with
  | nil => exact h
  | cons a l ih =>
    refine ⟨h.1, ?_⟩
    rw [hsame a List.mem_cons_self]
    exact ih h.2 fun b hb => hsame b (List.mem_cons_of_mem a hb)

theorem Chain.head? (h : Chain next p l) : p = l.head? := by
  cases l with
  | nil => exact h
  | cons a l => exact h.1

theorem Chain.unique {l' : List α} (h : Chain next p l) (h' : Chain next p l') : l = l' := by
  induction l generalizing p l' with
  | nil =>
    cases l' with
    | nil => rfl
    | cons b l' => cases h.symm.trans h'.1
  | cons a l ih =>
    cases l' with
    | nil => cases h.1.symm.trans h'
    | cons b l' =>
      cases h.1.symm.trans h'.1
      rw [ih h.2 h'.2]

theorem Chain.suffix {l₁ : List α} (h : Chain next p (l₁ ++ a :: l)) : Chain next (some a) (a :: l) := by
  induction l₁ generalizing p with
  | nil => exact ⟨rfl, h.2⟩
  | cons b l₁ ih => exact ih h.2

-- A list that came back to an element would not end.
theorem Chain.nodup (h : Chain next p l) : l.Nodup := by
  induction l generalizing p with
  | nil => exact List.nodup_nil
  | cons a l ih =>
    refine List.nodup_cons.2 ⟨fun ha => ?_, ih h.2⟩
    obtain ⟨l₁, l₂, rfl⟩ := List.append_of_mem ha
    have hlong : Chain next (some a) (a :: (l₁ ++ a :: l₂)) := ⟨rfl, h.2⟩
    have hlen := congrArg List.length (hlong.unique h.2.suffix)
    simp at hlen
    omega

-- A place that holds a pointer of the list: the head or the link of an element.
inductive Link (α : Type*)
  | head
  | next (a : α)

def Link.get (head : Option α) (next : α → Option α) : Link α → Option α
  | .head => head
  | .next a => next a

-- for(pp = &head; *pp; pp = &(*pp)->next)
def walk (head : Option α) (next : α → Option α) : Nat → Link α → Option (Link α)
  | 0, _ => none
  | fuel + 1, pp => match pp.get head next with
    | none => some pp
    | some a => walk head next fuel (.next a)

def lastLink : Link α → List α → Link α
  | pp, [] => pp
  | _, a :: l => lastLink (.next a) l

theorem walk_eq {head : Option α} (fuel : Nat) (pp : Link α) (h : Chain next (pp.get head next) l)
    (hfuel : l.length < fuel) : walk head next fuel pp = some (lastLink pp l) := by
  induction l generalizing pp fuel with
  | nil =>
    obtain _ | fuel := fuel
    · omega
    rw [walk, show pp.get head next = none from h]
    rfl
  | cons a l ih =>
    rw [List.length_cons] at hfuel
    obtain _ | fuel := fuel
    · omega
    rw [walk, h.1]
    exact ih fuel (.next a) h.2 (by omega)

-- *pp = a
def Link.setHead (head : Option α) (a : α) : Link α → Option α
  | .head => some a
  | .next _ => head

theorem setHead_lastLink (b : α) (l : List α) : (lastLink (.next b) l).setHead p a = p := by
  induction l generalizing b with
  | nil => rfl
  | cons c l ih => exact ih c

variable [DecidableEq α]

def Link.setNext (next : α → Option α) (a : α) : Link α → α → Option α
  | .head => next
  | .next b => update next b (some a)

theorem setNext_lastLink {b c : α} (hc : c ∉ b :: l) : (lastLink (.next b) l).setNext next a c = next c := by
  induction l generalizing b with
  | nil => exact update_of_ne (List.ne_of_not_mem_cons hc) ..
  | cons d l ih => exact ih fun hmem => hc (List.mem_cons_of_mem b hmem)

theorem Chain.extend {b : α} (h : Chain next p (b :: l)) (hend : next a = none) (ha : a ∉ b :: l) :
    Chain ((lastLink (.next b) l).setNext next a) p (b :: l ++ [a]) := by
  have hnodup := h.nodup
  induction l generalizing p b with
  | nil =>
    have hne : a ≠ b := List.ne_of_not_mem_cons ha
    refine ⟨h.1, update_self .., ?_⟩
    exact (update_of_ne hne ..).trans hend
  | cons c l ih =>
    rw [List.nodup_cons] at hnodup
    refine ⟨h.1, ?_⟩
    show Chain _ ((lastLink (.next c) l).setNext next a b) _
    rw [setNext_lastLink hnodup.1]
    exact ih h.2 (fun hmem => ha (List.mem_cons_of_mem b hmem)) hnodup.2

theorem Chain.append (h : Chain next p l) (hend : next a = none) (ha : a ∉ l) :
    Chain ((lastLink .head l).setNext next a) ((lastLink .head l).setHead p a) (l ++ [a]) := by
  cases l with
  | nil => exact ⟨rfl, hend⟩
  | cons b l =>
    show Chain _ ((lastLink (.next b) l).setHead p a) _
    rw [setHead_lastLink]
    exact h.extend hend ha

end Chain

end Xv6.Lib
