import Xv6.Grep

namespace Xv6.Grep

-- What a pattern is read as.
inductive Item
  | many (c : UInt8)
  | any
  | lit (c : UInt8)
  | fin
deriving DecidableEq

def item (c : UInt8) : Item := if c = dot then .any else .lit c

-- A star belongs to the character in front of it, whatever that is. A dollar is
-- the end of the text only at the end of the pattern.
def items : List UInt8 → List Item
  | [] => []
  | [c] => if c = dollar then [.fin] else [item c]
  | c :: d :: re => if d = star then .many c :: items re else item c :: items (d :: re)

-- The item stands for the text w where rest follows.
def Item.Reads : Item → List UInt8 → List UInt8 → Prop
  | many c, w, _ => ∀ a ∈ w, a = c ∨ c = dot
  | any, w, _ => ∃ a, w = [a]
  | lit c, w, _ => w = [c]
  | fin, w, rest => w = [] ∧ rest = []

def Reads : List Item → List UInt8 → List UInt8 → Prop
  | [], w, _ => w = []
  | i :: is, w, rest => ∃ u v, w = u ++ v ∧ i.Reads u (v ++ rest) ∧ Reads is v rest

def ReadsHere (is : List Item) (text : List UInt8) : Prop := ∃ w rest, text = w ++ rest ∧ Reads is w rest

theorem matchhere_cons (c : UInt8) (re text : List UInt8) : matchhere (c :: re) text =
    if re.head? = some star then matchstar c re.tail text
    else if c = dollar ∧ re = [] then decide (text = [])
    else
      match text with
      | [] => false
      | a :: text => if c = dot ∨ c = a then matchhere re text else false :=
  (matchhere.eq_def (c :: re) text).trans rfl

section Here

variable {is : List Item} {re text : List UInt8} {c : UInt8}

theorem readsHere_nil (text : List UInt8) : ReadsHere [] text := ⟨[], text, rfl, rfl⟩

theorem readsHere_cons {i : Item} : ReadsHere (i :: is) text ↔
    ∃ u rest, text = u ++ rest ∧ i.Reads u rest ∧ ReadsHere is rest := by
  constructor
  · rintro ⟨w, rest, rfl, u, v, rfl, hi, his⟩
    exact ⟨u, v ++ rest, List.append_assoc .., hi, v, rest, rfl, his⟩
  · rintro ⟨u, rest, rfl, hi, v, rest', rfl, his⟩
    exact ⟨u ++ v, rest', (List.append_assoc ..).symm, u, v, rfl, hi, his⟩

theorem readsHere_fin : ReadsHere [.fin] text ↔ text = [] := by
  rw [readsHere_cons]
  constructor
  · rintro ⟨u, rest, rfl, ⟨rfl, rfl⟩, -⟩
    rfl
  · rintro rfl
    exact ⟨[], [], rfl, ⟨rfl, rfl⟩, readsHere_nil []⟩

theorem readsHere_item_cons {a : UInt8} :
    ReadsHere (item c :: is) (a :: text) ↔ (c = dot ∨ c = a) ∧ ReadsHere is text := by
  rw [readsHere_cons]
  unfold item
  constructor
  · rintro ⟨u, rest, htext, hi, his⟩
    split_ifs at hi with hc
    · obtain ⟨b, rfl⟩ := hi
      obtain ⟨-, rfl⟩ := List.cons.inj htext
      exact ⟨.inl hc, his⟩
    · obtain rfl : u = [c] := hi
      obtain ⟨rfl, rfl⟩ := List.cons.inj htext
      exact ⟨.inr rfl, his⟩
  · rintro ⟨hc, his⟩
    refine ⟨[a], text, rfl, ?_, his⟩
    split_ifs with hdot
    · exact ⟨a, rfl⟩
    · rw [hc.resolve_left hdot]
      rfl

theorem not_readsHere_item_nil : ¬ ReadsHere (item c :: is) [] := by
  rw [readsHere_cons]
  rintro ⟨u, rest, htext, hi, -⟩
  obtain ⟨rfl, -⟩ := List.append_eq_nil_iff.1 htext.symm
  unfold item at hi
  split_ifs at hi
  · obtain ⟨a, ha⟩ := hi
    exact nomatch ha
  · exact nomatch hi

theorem readsHere_many_nil : ReadsHere (.many c :: is) [] ↔ ReadsHere is [] := by
  rw [readsHere_cons]
  constructor
  · rintro ⟨u, rest, htext, -, his⟩
    obtain ⟨-, rfl⟩ := List.append_eq_nil_iff.1 htext.symm
    exact his
  · intro his
    exact ⟨[], [], rfl, fun _ ha => absurd ha List.not_mem_nil, his⟩

theorem readsHere_many_cons {a : UInt8} : ReadsHere (.many c :: is) (a :: text) ↔
    ReadsHere is (a :: text) ∨ (a = c ∨ c = dot) ∧ ReadsHere (.many c :: is) text := by
  rw [readsHere_cons, readsHere_cons]
  constructor
  · rintro ⟨u, rest, htext, hmany, his⟩
    cases u with
    | nil => exact .inl (by rw [htext]; exact his)
    | cons b u =>
      obtain ⟨rfl, rfl⟩ := List.cons.inj htext
      refine .inr ⟨hmany a List.mem_cons_self, u, rest, rfl, fun x hx => ?_, his⟩
      exact hmany x (List.mem_cons_of_mem a hx)
  · rintro (his | ⟨ha, u, rest, rfl, hmany, his⟩)
    · exact ⟨[], a :: text, rfl, fun _ hx => absurd hx List.not_mem_nil, his⟩
    · refine ⟨a :: u, rest, rfl, fun x hx => ?_, his⟩
      rcases List.mem_cons.1 hx with rfl | hx
      · exact ha
      · exact hmany x hx

theorem matchstar_iff (hre : ∀ text, matchhere re text = true ↔ ReadsHere is text) (c : UInt8) (text : List UInt8) :
    matchstar c re text = true ↔ ReadsHere (.many c :: is) text := by
  induction text with
  | nil => rw [matchstar, hre, readsHere_many_nil]
  | cons a text ih =>
    rw [matchstar, readsHere_many_cons, ← hre, ← ih]
    by_cases hhere : matchhere re (a :: text) = true
    · simp [hhere]
    · by_cases ha : a = c ∨ c = dot
      · simp [hhere, ha]
      · simp [hhere, ha]

theorem matchhere_iff (re text : List UInt8) : matchhere re text = true ↔ ReadsHere (items re) text := by
  induction re using items.induct generalizing text with
  | case1 =>
    rw [matchhere]
    exact iff_of_true rfl (readsHere_nil text)
  | case2 =>
    rw [matchhere_cons, items, if_pos rfl, readsHere_fin]
    simp
  | case3 c hc =>
    rw [matchhere_cons, items, if_neg hc]
    cases text with
    | nil => simp [hc, not_readsHere_item_nil]
    | cons a text =>
      rw [readsHere_item_cons]
      by_cases ha : c = dot ∨ c = a
      · simp [hc, ha, matchhere, readsHere_nil]
      · simp [hc, ha]
  | case4 c re ih =>
    have hhead : (star :: re).head? = some star := rfl
    rw [matchhere_cons, items, if_pos rfl, if_pos hhead]
    exact matchstar_iff ih c text
  | case5 c d re hd ih =>
    have hhead : (d :: re).head? ≠ some star := fun h => hd (Option.some.inj h)
    rw [matchhere_cons, items, if_neg hd, if_neg hhead, if_neg fun h => List.cons_ne_nil _ _ h.2]
    cases text with
    | nil => simp [not_readsHere_item_nil]
    | cons a text =>
      rw [readsHere_item_cons, ← ih]
      by_cases ha : c = dot ∨ c = a
      · simp [ha]
      · simp [ha]

end Here

theorem matchFrom_iff (re text : List UInt8) :
    matchFrom re text = true ↔ ∃ pre rest, text = pre ++ rest ∧ matchhere re rest = true := by
  induction text with
  | nil =>
    rw [matchFrom]
    constructor
    · intro h
      exact ⟨[], [], rfl, h⟩
    · rintro ⟨pre, rest, htext, h⟩
      obtain ⟨-, rfl⟩ := List.append_eq_nil_iff.1 htext.symm
      exact h
  | cons a text ih =>
    rw [matchFrom]
    split_ifs with hhere
    · exact iff_of_true rfl ⟨[], a :: text, rfl, hhere⟩
    · rw [ih]
      constructor
      · rintro ⟨pre, rest, rfl, h⟩
        exact ⟨a :: pre, rest, rfl, h⟩
      · rintro ⟨pre, rest, htext, h⟩
        cases pre with
        | nil => exact absurd (htext ▸ h) hhere
        | cons b pre =>
          obtain ⟨-, rfl⟩ := List.cons.inj htext
          exact ⟨pre, rest, rfl, h⟩

-- The pattern without a ^ at its beginning, which is the anchor also before a *.
def body (re : List UInt8) : List UInt8 := if re.head? = some caret then re.tail else re

-- The matcher finds a pattern exactly in the texts with a part that its items
-- stand for, which is at the beginning if the pattern starts with ^.
theorem matchText_iff (re text : List UInt8) : matchText re text = true ↔
    ∃ pre w post, text = pre ++ w ++ post ∧ (re.head? = some caret → pre = []) ∧ Reads (items (body re)) w post := by
  unfold matchText body
  split_ifs with hcaret
  · rw [matchhere_iff]
    constructor
    · rintro ⟨w, post, rfl, h⟩
      exact ⟨[], w, post, rfl, fun _ => rfl, h⟩
    · rintro ⟨pre, w, post, rfl, hpre, h⟩
      obtain rfl := hpre hcaret
      exact ⟨w, post, rfl, h⟩
  · rw [matchFrom_iff]
    constructor
    · rintro ⟨pre, rest, rfl, h⟩
      obtain ⟨w, post, rfl, hreads⟩ := (matchhere_iff re rest).1 h
      exact ⟨pre, w, post, (List.append_assoc ..).symm, fun hc => absurd hc hcaret, hreads⟩
    · rintro ⟨pre, w, post, rfl, -, h⟩
      exact ⟨pre, w ++ post, List.append_assoc .., (matchhere_iff ..).2 ⟨w, post, rfl, h⟩⟩

end Xv6.Grep
