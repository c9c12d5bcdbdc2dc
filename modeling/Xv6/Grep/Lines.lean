import Xv6.Grep.Match

namespace Xv6.Grep

-- The lines of a stream that end in a newline, without it, and what comes after
-- the last of them.
def complete (d : List UInt8) : List (List UInt8) := (d.splitOnP (· = nl)).dropLast

def rest (d : List UInt8) : List UInt8 := (d.splitOnP (· = nl)).getLast (List.splitOnP_ne_nil _ _)

def select (pattern d : List UInt8) : List UInt8 := ((complete d).filter (matchText pattern)).flatMap (· ++ [nl])

section Split

variable {d e l pattern : List UInt8}

theorem splitOnP_noNl (h : nl ∉ d) : d.splitOnP (· = nl) = [d] :=
  List.splitOnP_eq_singleton fun _ ha => decide_eq_false fun he => h (he ▸ ha)

theorem select_noNl (pattern : List UInt8) (h : nl ∉ d) : select pattern d = [] := by
  rw [select, complete, splitOnP_noNl h]
  rfl

theorem rest_noNl (h : nl ∉ d) : rest d = d := by
  simp only [rest, splitOnP_noNl h, List.getLast_singleton]

theorem splitOnP_line (h : nl ∉ l) (d : List UInt8) : (l ++ nl :: d).splitOnP (· = nl) = l :: d.splitOnP (· = nl) := by
  rw [List.splitOnP_append_cons l d (decide_eq_true rfl), splitOnP_noNl h, List.singleton_append]

theorem complete_line (h : nl ∉ l) (d : List UInt8) : complete (l ++ nl :: d) = l :: complete d := by
  rw [complete, splitOnP_line h, List.dropLast_cons_of_ne_nil (List.splitOnP_ne_nil _ _), complete]

theorem select_line (pattern : List UInt8) (h : nl ∉ l) (d : List UInt8) :
    select pattern (l ++ nl :: d) = (if matchText pattern l then l ++ [nl] else []) ++ select pattern d := by
  rw [select, complete_line h, List.filter_cons]
  split_ifs
  · rw [List.flatMap_cons, select]
  · rw [List.nil_append, select]

theorem rest_line (h : nl ∉ l) (d : List UInt8) : rest (l ++ nl :: d) = rest d := by
  simp only [rest, splitOnP_line h, List.getLast_cons (List.splitOnP_ne_nil _ _)]

theorem line_cases (d : List UInt8) : nl ∉ d ∨ ∃ l d', d = l ++ nl :: d' ∧ nl ∉ l := by
  by_cases h : nl ∈ d
  · exact .inr (List.eq_append_cons_of_mem h)
  · exact .inl h

theorem line_induction {P : List UInt8 → Prop} (hend : ∀ d, nl ∉ d → P d) (hline : ∀ l d, nl ∉ l → P d → P (l ++ nl :: d))
    (d : List UInt8) : P d := by
  induction hlen : d.length using Nat.strong_induction_on generalizing d with
  | _ k ih =>
    rcases line_cases d with h | ⟨l, d', rfl, h⟩
    · exact hend d h
    · refine hline l d' h (ih d'.length ?_ d' rfl)
      rw [← hlen, List.length_append, List.length_cons]
      omega

theorem select_append (pattern d e : List UInt8) :
    select pattern (d ++ e) = select pattern d ++ select pattern (rest d ++ e) := by
  induction d using line_induction with
  | hend d h => rw [select_noNl pattern h, rest_noNl h, List.nil_append]
  | hline l d h ih =>
    rw [List.append_assoc, List.cons_append, select_line pattern h, select_line pattern h, rest_line h, ih,
      List.append_assoc]

theorem nl_notMem_rest (d : List UInt8) : nl ∉ rest d := by
  induction d using line_induction with
  | hend d h => rwa [rest_noNl h]
  | hline l d h ih => rwa [rest_line h]

theorem length_rest_le (d : List UInt8) : (rest d).length ≤ d.length := by
  induction d using line_induction with
  | hend d h => rw [rest_noNl h]
  | hline l d h ih =>
    rw [rest_line h, List.length_append, List.length_cons]
    omega

theorem length_rest_lt (h : nl ∈ d) : (rest d).length < d.length := by
  obtain ⟨l, d', rfl, hl⟩ := (line_cases d).resolve_left (not_not_intro h)
  have hle := length_rest_le d'
  rw [rest_line hl, List.length_append, List.length_cons]
  omega

end Split

section Buffer

variable {pattern buf d tail out : List UInt8} {p k : Nat}

theorem strchr_line {l : List UInt8} (h0 : 0 ∉ l) (hl : nl ∉ l) (s : List UInt8) :
    strchr (l ++ nl :: s) nl = some l.length := by
  induction l with
  | nil => rfl
  | cons a l ih =>
    rw [List.mem_cons, not_or] at h0 hl
    rw [List.cons_append, strchr, if_neg fun h => h0.1 h.symm, if_neg fun h => hl.1 h.symm, ih h0.2 hl.2]
    rfl

theorem strchr_none {l : List UInt8} (h0 : 0 ∉ l) (hl : nl ∉ l) (s : List UInt8) : strchr (l ++ 0 :: s) nl = none := by
  induction l with
  | nil => rfl
  | cons a l ih =>
    rw [List.mem_cons, not_or] at h0 hl
    rw [List.cons_append, strchr, if_neg fun h => h0.1 h.symm, if_neg fun h => hl.1 h.symm, ih h0.2 hl.2]
    rfl

theorem cstr_line {l : List UInt8} (h0 : 0 ∉ l) (s : List UInt8) : cstr (l ++ 0 :: s) = l := by
  have hall : ∀ a ∈ l, decide (a ≠ 0) = true := fun a ha => decide_eq_true (ne_of_mem_of_not_mem ha h0)
  rw [cstr, List.takeWhile_append_of_pos hall]
  simp

theorem drop_set_line {l s : List UInt8} {a : UInt8} (hbuf : buf.drop p = l ++ a :: s) (b : UInt8) :
    (buf.set (p + l.length) b).drop p = l ++ b :: s ∧ (buf.set (p + l.length) b).drop (p + l.length + 1) = s := by
  have hset : (buf.set (p + l.length) b).drop p = l ++ b :: s := by
    rw [List.drop_set, if_neg (by omega), hbuf, Nat.add_sub_cancel_left, List.set_append_right _ _ (le_refl _),
      Nat.sub_self]
    rfl
  refine ⟨hset, ?_⟩
  have hsplit : p + l.length + 1 = p + (l.length + 1) := by omega
  rw [hsplit, ← List.drop_drop, hset, ← List.drop_drop, List.drop_left]
  rfl

theorem lines_spec (hbuf : buf.drop p = d ++ 0 :: tail) (h0 : 0 ∉ d) (hk : d.length ≤ k) :
    ∃ buf', lines pattern k buf p out = (buf', p + (d.length - (rest d).length), out ++ select pattern d) ∧
      buf'.length = buf.length ∧ buf'.drop (p + (d.length - (rest d).length)) = rest d ++ 0 :: tail := by
  induction d using line_induction generalizing buf p k out with
  | hend d h =>
    have hnone : lines pattern k buf p out = (buf, p, out) := by
      cases k with
      | zero => rfl
      | succ k => rw [lines, hbuf, strchr_none h0 h]
    refine ⟨buf, ?_, rfl, ?_⟩
    · rw [hnone, rest_noNl h, Nat.sub_self, Nat.add_zero, select_noNl pattern h, List.append_nil]
    · rw [rest_noNl h, Nat.sub_self, Nat.add_zero, hbuf]
  | hline l d h ih =>
    rw [List.mem_append, List.mem_cons, not_or, not_or] at h0
    have hbuf : buf.drop p = l ++ nl :: (d ++ 0 :: tail) := by
      rw [hbuf, List.append_assoc, List.cons_append]
    have hlen : (l ++ nl :: d).length = l.length + 1 + d.length := by
      rw [List.length_append, List.length_cons]
      omega
    obtain ⟨k, rfl⟩ : ∃ k', k = k' + 1 := ⟨k - 1, by omega⟩
    have hle := length_rest_le d
    have hpos : p + ((l ++ nl :: d).length - (rest d).length) = p + l.length + 1 + (d.length - (rest d).length) := by omega
    have hcut := drop_set_line hbuf 0
    rw [rest_line h, hpos, select_line pattern h, lines, hbuf, strchr_line h0.1 h]
    dsimp only
    rw [hcut.1, cstr_line h0.1]
    split_ifs
    · have hback := drop_set_line hcut.1 nl
      obtain ⟨buf', hlines, hlength, hdrop⟩ := ih (k := k) hback.2 h0.2.2 (by omega)
      have htake : (((buf.set (p + l.length) 0).set (p + l.length) nl).drop p).take (p + l.length + 1 - p) = l ++ [nl] := by
        have hcount : p + l.length + 1 - p = l.length + 1 := by omega
        rw [hback.1, hcount, List.take_length_add_append]
        rfl
      rw [htake, hlines, List.append_assoc]
      refine ⟨buf', rfl, ?_, hdrop⟩
      rw [hlength, List.length_set, List.length_set]
    · obtain ⟨buf', hlines, hlength, hdrop⟩ := ih (k := k) hcut.2 h0.2.2 (by omega)
      rw [hlines, List.nil_append]
      refine ⟨buf', rfl, ?_, hdrop⟩
      rw [hlength, List.length_set]

theorem take_memmove {dst src n : Nat} (hlt : dst < src) (hlen : src + n ≤ buf.length) :
    (memmove buf dst src n).take (dst + n) = buf.take dst ++ (buf.drop src).take n ∧
      (memmove buf dst src n).length = buf.length := by
  induction n generalizing buf dst src with
  | zero =>
    refine ⟨?_, rfl⟩
    rw [memmove, List.take_zero, List.append_nil, Nat.add_zero]
  | succ n ih =>
    have hsrc : src < buf.length := by omega
    have hdst : dst < buf.length := by omega
    have hx : buf.getD src 0 = buf[src] := by
      rw [List.getD_eq_getElem?_getD, List.getElem?_eq_getElem hsrc, Option.getD_some]
    have hset : (buf.set dst (buf.getD src 0)).length = buf.length := List.length_set
    obtain ⟨htake, hlength⟩ := @ih (buf.set dst (buf.getD src 0)) (dst + 1) (src + 1) (by omega) (by omega)
    have hcount : dst + (n + 1) = dst + 1 + n := by omega
    have hfront : (buf.set dst (buf.getD src 0)).take (dst + 1) = buf.take dst ++ [buf.getD src 0] := by
      rw [List.take_succ_eq_append_getElem (by omega), List.take_set_of_le (le_refl dst), List.getElem_set_self]
    have hback : (buf.set dst (buf.getD src 0)).drop (src + 1) = buf.drop (src + 1) := by
      rw [List.drop_set, if_pos (by omega)]
    refine ⟨?_, hlength.trans hset⟩
    rw [memmove, hcount, htake, hfront, hback, List.drop_eq_getElem_cons hsrc, List.take_succ_cons, hx, List.append_assoc,
      List.singleton_append]

end Buffer

-- Between two reads the buffer begins with the bytes of a line that has not
-- ended.
structure Holds (s : State) (carry : List UInt8) : Prop where
  length : s.buf.length = SIZE
  m_eq : s.m = carry.length
  front : s.buf.take s.m = carry
  noNl : nl ∉ carry
  noNul : 0 ∉ carry
  short : carry.length < SIZE - 1

-- What is kept of a line when a chunk has arrived. Without a newline in the
-- buffer it is thrown away.
def carried (carry chunk : List UInt8) : List UInt8 := if nl ∈ chunk then rest (carry ++ chunk) else []

section Round

variable {s : State} {pattern buf carry chunk : List UInt8} {chunks : List (List UInt8)}

theorem mem_rest {d : List UInt8} {a : UInt8} (h : a ∈ rest d) : a ∈ d := by
  induction d using line_induction with
  | hend d hd => rwa [rest_noNl hd] at h
  | hline l d hl ih =>
    rw [rest_line hl] at h
    exact List.mem_append_right _ (List.mem_cons_of_mem _ (ih h))

theorem Holds.round (h : Holds s carry) (hne : chunk ≠ []) (hlen : chunk.length ≤ SIZE - s.m - 1) (h0 : 0 ∉ chunk)
    (pattern : List UInt8) : (round pattern s chunk).out = s.out ++ select pattern (carry ++ chunk) ∧
      Holds (round pattern s chunk) (carried carry chunk) := by
  have hm := h.m_eq
  have hshort := h.short
  have hpos := List.length_pos_iff.2 hne
  have hd : (carry ++ chunk).length = s.m + chunk.length := by rw [List.length_append, hm]
  have hzero : 0 ∉ carry ++ chunk := by
    rw [List.mem_append, not_or]
    exact ⟨h.noNul, h0⟩
  have hlt : s.m + chunk.length < s.buf.length := by
    rw [h.length]
    omega
  obtain ⟨x, tail, hx⟩ : ∃ x tail, s.buf.drop (s.m + chunk.length) = x :: tail :=
    ⟨_, _, List.drop_eq_getElem_cons hlt⟩
  have hbuf : (s.buf.take s.m ++ chunk ++ s.buf.drop (s.m + chunk.length)).set (s.m + chunk.length) 0 =
      carry ++ chunk ++ 0 :: tail := by
    rw [h.front, hx, ← hd, List.set_append_right _ _ (le_refl _), Nat.sub_self]
    rfl
  have hsize : (carry ++ chunk ++ 0 :: tail).length = SIZE := by
    have htail := congrArg List.length hx
    rw [List.length_drop, List.length_cons, h.length] at htail
    rw [List.length_append, hd, List.length_cons]
    omega
  obtain ⟨buf', hlines, hlength, hdrop⟩ := @lines_spec pattern (carry ++ chunk ++ 0 :: tail) (carry ++ chunk)
    tail s.out 0 SIZE
    (List.drop_zero ..) hzero (by omega)
  rw [hsize] at hlength
  rw [Nat.zero_add] at hlines hdrop
  unfold Grep.round carried
  dsimp only
  rw [hbuf, hlines]
  dsimp only
  by_cases hnl : nl ∈ chunk
  · have hrest := length_rest_lt (List.mem_append_right carry hnl)
    have hp : ¬ (carry ++ chunk).length - (rest (carry ++ chunk)).length = 0 := by omega
    rw [if_neg hp, if_pos (by omega), if_pos hnl]
    refine ⟨rfl, ?_⟩
    have hcount : s.m + chunk.length - ((carry ++ chunk).length - (rest (carry ++ chunk)).length) =
        (rest (carry ++ chunk)).length := by omega
    obtain ⟨htake, hmoved⟩ := @take_memmove buf' 0 ((carry ++ chunk).length - (rest (carry ++ chunk)).length)
      (rest (carry ++ chunk)).length (by omega) (by omega)
    rw [hcount]
    refine ⟨hmoved.trans hlength, rfl, ?_, nl_notMem_rest _, fun hz => hzero (mem_rest hz), by omega⟩
    rw [Nat.zero_add, hdrop] at htake
    rw [htake, List.take_zero, List.nil_append, List.take_left]
  · have hnone : nl ∉ carry ++ chunk := by
      rw [List.mem_append, not_or]
      exact ⟨h.noNl, hnl⟩
    rw [rest_noNl hnone, Nat.sub_self, if_pos rfl, if_neg (lt_irrefl 0), if_neg hnl]
    exact ⟨rfl, hlength, rfl, rfl, List.not_mem_nil, List.not_mem_nil, by decide⟩

def output (pattern : List UInt8) : List UInt8 → List (List UInt8) → List UInt8
  | _, [] => []
  | carry, chunk :: chunks => select pattern (carry ++ chunk) ++ output pattern (carried carry chunk) chunks

theorem Holds.grep (h : Holds s carry) (harrives : Arrives pattern s chunks) (h0 : ∀ c ∈ chunks, 0 ∉ c) :
    (grep pattern s chunks).out = s.out ++ output pattern carry chunks := by
  induction chunks generalizing s carry with
  | nil => exact (List.append_nil _).symm
  | cons chunk chunks ih =>
    obtain ⟨⟨hne, hlen⟩, harrives⟩ := harrives
    rw [List.forall_mem_cons] at h0
    obtain ⟨hout, hnext⟩ := h.round hne hlen h0.1 pattern
    rw [Grep.grep, ih hnext harrives h0.2, hout, output, List.append_assoc]

theorem Holds.arrives {s' : State} {pattern' : List UInt8} (h : Holds s carry) (h' : Holds s' carry)
    (harrives : Arrives pattern s chunks) (h0 : ∀ c ∈ chunks, 0 ∉ c) : Arrives pattern' s' chunks := by
  induction chunks generalizing s s' carry with
  | nil => trivial
  | cons chunk chunks ih =>
    obtain ⟨⟨hne, hlen⟩, harrives⟩ := harrives
    rw [List.forall_mem_cons] at h0
    have hlen' : chunk.length ≤ SIZE - s'.m - 1 := by
      rw [h'.m_eq, ← h.m_eq]
      exact hlen
    exact ⟨⟨hne, hlen'⟩, ih (h.round hne hlen h0.1 pattern).2 (h'.round hne hlen' h0.1 pattern').2 harrives h0.2⟩

theorem holds_start (hbuf : buf.length = SIZE) : Holds (start buf) [] :=
  ⟨hbuf, rfl, rfl, List.not_mem_nil, List.not_mem_nil, by decide⟩

end Round

end Xv6.Grep
