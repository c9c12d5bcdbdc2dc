import Mathlib

namespace Xv6.Lib

section Seg

variable {α : Type*} {next next' : α → α} {l m : List α} {a z : α}

-- A part of a list linked through next: each element leads to the one behind
-- it, and the last to z. A circle is a part that leads to its first element.
def Seg (next : α → α) : List α → α → Prop
  | [], _ => True
  | a :: l, z => next a = l.headD z ∧ Seg next l z

theorem Seg.congr (h : Seg next l z) (hsame : ∀ a ∈ l, next' a = next a) : Seg next' l z := by
  induction l with
  | nil => trivial
  | cons a l ih =>
    exact ⟨(hsame a List.mem_cons_self).trans h.1, ih h.2 fun b hb => hsame b (List.mem_cons_of_mem a hb)⟩

theorem headD_append (l m : List α) (z : α) : (l ++ m).headD z = l.headD (m.headD z) := by
  cases l <;> rfl

theorem seg_append : Seg next (l ++ m) z ↔ Seg next l (m.headD z) ∧ Seg next m z := by
  induction l with
  | nil => exact ⟨fun h => ⟨trivial, h⟩, fun h => h.2⟩
  | cons a l ih =>
    show next a = (l ++ m).headD z ∧ Seg next (l ++ m) z ↔ _
    rw [ih, headD_append, ← and_assoc]
    rfl

theorem Seg.next_eq (h : Seg next (l ++ a :: m) z) : next a = m.headD z := (seg_append.1 h).2.1

theorem Seg.rotate (h : Seg next (l ++ a :: m) z) (hz : (l ++ a :: m).headD z = z) :
    Seg next (a :: m ++ l) a := by
  obtain ⟨hl, hm⟩ := seg_append.1 h
  refine seg_append.2 ⟨?_, hl⟩
  cases l with
  | nil =>
    have haz : a = z := hz
    exact haz ▸ hm
  | cons b l =>
    have hbz : b = z := hz
    exact hbz ▸ hm

-- for(p = a; !stop(p); p = next(p))
def seek (next : α → α) (stop : α → Bool) : Nat → α → Option α
  | 0, _ => none
  | k + 1, p => if stop p then some p else seek next stop k (next p)

theorem seek_of_mem {stop : α → Bool} {k : Nat} (h : Seg next (a :: l) z) (hk : (a :: l).length ≤ k)
    (hstop : ∃ b ∈ a :: l, stop b = true) : ∃ b ∈ a :: l, stop b = true ∧ seek next stop k a = some b := by
  induction l generalizing a k with
  | nil =>
    obtain ⟨b, hb, hs⟩ := hstop
    cases List.mem_singleton.1 hb
    obtain _ | k := k
    · simp at hk
    exact ⟨a, hb, hs, by rw [seek, if_pos hs]⟩
  | cons c l ih =>
    obtain _ | k := k
    · simp at hk
    by_cases hs : stop a = true
    · exact ⟨a, List.mem_cons_self, hs, by rw [seek, if_pos hs]⟩
    · have hrest : ∃ b ∈ c :: l, stop b = true := by
        obtain ⟨b, hb, hsb⟩ := hstop
        rcases List.mem_cons.1 hb with rfl | hb
        · exact absurd hsb hs
        · exact ⟨b, hb, hsb⟩
      obtain ⟨b, hb, hsb, hseek⟩ := ih h.2 (by simpa using hk) hrest
      refine ⟨b, List.mem_cons_of_mem a hb, hsb, ?_⟩
      rw [seek, if_neg hs, show next a = c from h.1]
      exact hseek

theorem seek_eq_find (stop : α → Bool) {k : Nat} (h : Seg next l z) (hz : stop z = true) (hk : l.length < k) :
    seek next stop k (l.headD z) = some ((l.find? stop).getD z) := by
  obtain _ | k := k
  · omega
  induction l generalizing k with
  | nil => exact if_pos hz
  | cons a l ih =>
    rw [seek, List.headD_cons, List.find?_cons]
    cases hs : stop a with
    | true => rfl
    | false =>
      obtain ⟨k, rfl⟩ : ∃ n, k = n + 1 := ⟨k - 1, by rw [List.length_cons] at hk; omega⟩
      rw [if_neg nofun, h.1]
      exact ih h.2 k (Nat.lt_of_succ_lt_succ hk)

theorem Seg.iterate (h : Seg next l z) {k : Nat} (hk : k ≤ l.length) : next^[k] (l.headD z) = l[k]?.getD z := by
  induction l generalizing k with
  | nil =>
    cases Nat.le_zero.1 hk
    rfl
  | cons a l ih =>
    cases k with
    | zero => rfl
    | succ k =>
      rw [Function.iterate_succ_apply, List.headD_cons, h.1, List.getElem?_cons_succ]
      exact ih h.2 (Nat.le_of_succ_le_succ hk)

variable [DecidableEq α] {b x : α}

open Function

-- x->next = a->next for the element a behind x.
theorem Seg.unlink (h : Seg next (l ++ x :: a :: m) z) (hx : x ∉ l ++ m) :
    Seg (update next x (next a)) (l ++ x :: m) z := by
  obtain ⟨hl, -, ha, hm⟩ := seg_append.1 h
  have hother : ∀ c ∈ l ++ m, update next x (next a) c = next c := fun c hc =>
    update_of_ne (ne_of_mem_of_not_mem hc hx) ..
  exact seg_append.2 ⟨hl.congr fun c hc => hother c (List.mem_append_left m hc), (update_self ..).trans ha,
    hm.congr fun c hc => hother c (List.mem_append_right l hc)⟩

-- b->next = x->next; x->next = b;
theorem Seg.insert (h : Seg next (l ++ x :: m) z) (hx : x ∉ l ++ m) (hb : b ∉ l ++ x :: m) :
    Seg (update (update next b (next x)) x b) (l ++ x :: b :: m) z := by
  obtain ⟨hl, hnext, hm⟩ := seg_append.1 h
  have hxb : b ≠ x := fun hbx => hb (by simp [hbx])
  have hother : ∀ c ∈ l ++ m, update (update next b (next x)) x b c = next c := by
    intro c hc
    rw [update_of_ne (ne_of_mem_of_not_mem hc hx), update_of_ne]
    rintro rfl
    exact hb (List.append_cons .. ▸ by simp_all)
  refine seg_append.2 ⟨hl.congr fun c hc => hother c (List.mem_append_left m hc), update_self .., ?_,
    hm.congr fun c hc => hother c (List.mem_append_right l hc)⟩
  rw [update_of_ne hxb, update_self, hnext]

end Seg

section Circle

variable {α : Type*} {next prev : α → α} {l pre post : List α} {a b z : α}

-- The elements of l between z and z, linked in both directions.
structure Circle (next prev : α → α) (z : α) (l : List α) : Prop where
  forth : Seg next (z :: l) z
  back : Seg prev (z :: l.reverse) z
  nodup : (z :: l).Nodup

theorem Circle.symm (h : Circle next prev z l) : Circle prev next z l.reverse where
  forth := h.back
  back := by rw [List.reverse_reverse]; exact h.forth
  nodup := by simpa [List.nodup_reverse] using h.nodup

theorem Circle.next_eq (h : Circle next prev z (pre ++ a :: post)) : next a = post.headD z :=
  Seg.next_eq (l := z :: pre) h.forth

theorem Circle.prev_eq (h : Circle next prev z (pre ++ a :: post)) : prev a = pre.reverse.headD z := by
  have hsymm := h.symm
  rw [List.reverse_append, List.reverse_cons, List.append_assoc] at hsymm
  exact hsymm.next_eq

theorem Circle.prev_next (h : Circle next prev z l) (ha : a ∈ z :: l) : prev (next a) = a := by
  obtain ⟨pre, post, hl, hnext⟩ : ∃ pre post, l = pre ++ post ∧ next a = post.headD z ∧ pre.reverse.headD z = a := by
    rcases List.mem_cons.1 ha with rfl | ha
    · exact ⟨[], l, rfl, h.forth.1, rfl⟩
    · obtain ⟨pre, post, rfl⟩ := List.append_of_mem ha
      exact ⟨pre ++ [a], post, by simp, h.next_eq, by simp⟩
  rw [hnext.1, ← hnext.2]
  cases post with
  | nil =>
    rw [hl, List.append_nil] at h
    exact h.back.1
  | cons c post =>
    subst hl
    exact h.prev_eq

theorem exists_last (l : List α) (z : α) : ∃ l', z :: l = l' ++ [l.reverse.headD z] := by
  rcases List.eq_nil_or_concat l with rfl | ⟨l, c, rfl⟩
  · exact ⟨[], rfl⟩
  · exact ⟨z :: l, by simp⟩

variable [DecidableEq α]

open Function

theorem Circle.unlink_forth (h : Circle next prev z (pre ++ b :: post)) :
    Seg (update next (prev b) (next b)) (z :: (pre ++ post)) z := by
  obtain ⟨l, hl⟩ := exists_last pre z
  have hall : z :: (pre ++ b :: post) = l ++ pre.reverse.headD z :: b :: post := by
    rw [← List.cons_append, hl, List.append_assoc, List.singleton_append]
  have hforth := h.forth
  have hnodup := h.nodup
  rw [hall] at hforth hnodup
  rw [← List.cons_append, hl, List.append_assoc, List.singleton_append, h.prev_eq]
  refine hforth.unlink fun hx => (List.nodup_cons.1 (List.nodup_middle.1 hnodup)).1 ?_
  exact List.mem_append.2 ((List.mem_append.1 hx).imp_right (List.mem_cons_of_mem b))

-- b->next->prev = b->prev; b->prev->next = b->next;
theorem Circle.unlink (h : Circle next prev z (pre ++ b :: post)) :
    Circle (update next (prev b) (next b)) (update prev (next b) (prev b)) z (pre ++ post) where
  forth := h.unlink_forth
  back := by
    have hsymm := h.symm
    rw [List.reverse_append, List.reverse_cons, List.append_assoc] at hsymm
    rw [List.reverse_append]
    exact hsymm.unlink_forth
  nodup := h.nodup.sublist (by simp)

-- b->next = z->next; b->prev = z; z->next->prev = b; z->next = b;
theorem Circle.push (h : Circle next prev z l) (hb : b ∉ z :: l) :
    Circle (update (update next b (next z)) z b) (update (update prev b z) (next z) b) z (b :: l) where
  forth := Seg.insert (l := []) h.forth (List.nodup_cons.1 h.nodup).1 hb
  back := by
    -- z->next is the last element in the other direction.
    obtain ⟨l', hl'⟩ := exists_last l.reverse z
    rw [List.reverse_reverse] at hl'
    have hback := h.back
    have hnodup := h.symm.nodup
    rw [hl'] at hback hnodup
    have hlast : prev (l.headD z) = z := hback.next_eq
    have hfresh : b ∉ l' ++ [l.headD z] := by
      rw [← hl']
      simpa using hb
    have hinsert := hback.insert (by simpa using (List.nodup_cons.1 (List.nodup_middle.1 hnodup)).1) hfresh
    rw [hlast] at hinsert
    rw [List.reverse_cons, ← List.cons_append, hl', List.append_assoc, h.forth.1]
    exact hinsert
  nodup := by
    have hnodup := h.nodup
    simp_all [List.nodup_cons, eq_comm]

end Circle

end Xv6.Lib
