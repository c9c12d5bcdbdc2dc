import Xv6.Grep.Lines

namespace Xv6.Grep

-- No line goes on over the end of a chunk that has no newline.
def Whole : List (List UInt8) → Prop
  | [] => True
  | chunk :: chunks => (nl ∈ chunk ∨ nl ∉ chunks.flatten) ∧ Whole chunks

variable {pattern buf carry chunk d : List UInt8} {chunks : List (List UInt8)}

theorem nl_notMem_carried (carry chunk : List UInt8) : nl ∉ carried carry chunk := by
  unfold carried
  split_ifs
  · exact nl_notMem_rest _
  · exact List.not_mem_nil

theorem carried_of_mem (carry : List UInt8) (h : nl ∈ chunk) : carried carry chunk = rest (carry ++ chunk) := if_pos h

theorem carried_of_notMem (carry : List UInt8) (h : nl ∉ chunk) : carried carry chunk = [] := if_neg h

theorem select_of_notMem (pattern : List UInt8) (hcarry : nl ∉ carry) (h : nl ∉ d) : select pattern (carry ++ d) = [] :=
  select_noNl pattern fun hnl => (List.mem_append.1 hnl).elim hcarry h

theorem output_of_whole (hwhole : Whole chunks) (hcarry : nl ∉ carry) :
    output pattern carry chunks = select pattern (carry ++ chunks.flatten) := by
  induction chunks generalizing carry with
  | nil => rw [List.flatten_nil, List.append_nil, select_noNl pattern hcarry, output]
  | cons chunk chunks ih =>
    obtain ⟨hhead, hwhole⟩ := hwhole
    rw [output, ih hwhole (nl_notMem_carried _ _), List.flatten_cons]
    by_cases hnl : nl ∈ chunk
    · rw [carried_of_mem carry hnl, ← List.append_assoc, select_append pattern (carry ++ chunk)]
    · -- Nothing that comes later would have been printed.
      have htail := hhead.resolve_left hnl
      have hflat : nl ∉ chunk ++ chunks.flatten := fun h => (List.mem_append.1 h).elim hnl htail
      rw [carried_of_notMem carry hnl, select_of_notMem pattern hcarry hnl, select_of_notMem pattern hcarry hflat,
        List.nil_append, List.nil_append, select_noNl pattern htail]

section Every

theorem matchText_nil (t : List UInt8) : matchText [] t = true := by
  cases t with
  | nil => simp [matchText, matchFrom, matchhere]
  | cons a t => simp [matchText, matchFrom, matchhere]

theorem length_select_nil (hcarry : nl ∉ carry) (h : nl ∈ d) :
    (select [] (carry ++ d)).length = carry.length + (select [] d).length := by
  obtain ⟨l, d, rfl, hl⟩ := (line_cases d).resolve_left (not_not_intro h)
  have hline : nl ∉ carry ++ l := fun h => (List.mem_append.1 h).elim hcarry hl
  rw [← List.append_assoc, select_line [] hline, select_line [] hl, if_pos (matchText_nil _), if_pos (matchText_nil _)]
  simp only [List.length_append]
  omega

theorem output_nil_le (hne : ∀ c ∈ chunks, c ≠ []) (hcarry : nl ∉ carry) :
    (output [] carry chunks).length ≤ (select [] (carry ++ chunks.flatten)).length ∧
      ((output [] carry chunks).length = (select [] (carry ++ chunks.flatten)).length → Whole chunks) := by
  induction chunks generalizing carry with
  | nil => exact ⟨Nat.zero_le _, fun _ => trivial⟩
  | cons chunk chunks ih =>
    rw [List.forall_mem_cons] at hne
    obtain ⟨hle, heq⟩ := ih hne.2 (nl_notMem_carried carry chunk)
    rw [output, List.flatten_cons, ← List.append_assoc, List.length_append]
    by_cases hnl : nl ∈ chunk
    · rw [carried_of_mem carry hnl] at hle heq ⊢
      rw [select_append [] (carry ++ chunk), List.length_append]
      exact ⟨Nat.add_le_add_left hle _, fun h => ⟨.inl hnl, heq (Nat.add_left_cancel h)⟩⟩
    · have hfirst : nl ∉ carry ++ chunk := fun h => (List.mem_append.1 h).elim hcarry hnl
      rw [carried_of_notMem carry hnl, List.nil_append] at hle heq
      rw [carried_of_notMem carry hnl, select_noNl [] hfirst, List.length_nil, Nat.zero_add]
      by_cases hflat : nl ∈ chunks.flatten
      · have hpos := List.length_pos_iff.2 hne.1
        have hsum := length_select_nil hfirst hflat
        rw [List.length_append] at hsum
        exact ⟨by omega, fun h => absurd h (by omega)⟩
      · rw [select_noNl [] hflat] at hle heq
        rw [select_of_notMem [] hfirst hflat]
        exact ⟨hle, fun h => ⟨.inr hflat, heq h⟩⟩

end Every

theorem Arrives.ne_nil {s : State} (h : Arrives pattern s chunks) : ∀ c ∈ chunks, c ≠ [] := by
  induction chunks generalizing s with
  | nil => exact fun _ hc => absurd hc List.not_mem_nil
  | cons chunk chunks ih =>
    rw [List.forall_mem_cons]
    exact ⟨h.1.1, ih h.2⟩

-- The output for every pattern is the one for the whole stream exactly when the
-- chunks do not cut a line behind a chunk without a newline.
theorem grep_select_iff (hbuf : buf.length = SIZE) (h0 : ∀ c ∈ chunks, 0 ∉ c)
    (harrives : Arrives pattern (start buf) chunks) :
    (∀ pattern, (grep pattern (start buf) chunks).out = select pattern chunks.flatten) ↔ Whole chunks := by
  have hstart := holds_start hbuf
  have hout : ∀ pattern, (grep pattern (start buf) chunks).out = output pattern [] chunks :=
    fun pattern => hstart.grep (hstart.arrives hstart harrives h0) h0
  constructor
  · intro h
    refine (output_nil_le harrives.ne_nil List.not_mem_nil).2 ?_
    rw [← hout [], h [], List.nil_append]
  · intro hwhole pattern
    rw [hout, output_of_whole hwhole List.not_mem_nil, List.nil_append]

theorem grep_select_one : (List.replicate SIZE (0 : UInt8)).length = SIZE ∧
    (∀ c ∈ [[97, 10, 98], [99, 10]], (0 : UInt8) ∉ c) ∧
      Arrives [97] (start (List.replicate SIZE 0)) [[97, 10, 98], [99, 10]] ∧
      ∀ pattern, (grep pattern (start (List.replicate SIZE 0)) [[97, 10, 98], [99, 10]]).out =
        select pattern [97, 10, 98, 99, 10] := by
  have hbuf : (List.replicate SIZE (0 : UInt8)).length = SIZE := List.length_replicate
  have h0 : ∀ c ∈ [[97, 10, 98], [99, 10]], (0 : UInt8) ∉ c := by decide
  have hround := (holds_start hbuf).round (List.cons_ne_nil 97 [10, 98]) (by decide) (by decide) [97]
  have hm : (round [97] (start (List.replicate SIZE 0)) [97, 10, 98]).m = 1 := hround.2.m_eq
  have harrives : Arrives [97] (start (List.replicate SIZE 0)) [[97, 10, 98], [99, 10]] := by
    refine ⟨⟨List.cons_ne_nil _ _, by decide⟩, ⟨List.cons_ne_nil _ _, ?_⟩, trivial⟩
    rw [hm]
    decide
  exact ⟨hbuf, h0, harrives, (grep_select_iff hbuf h0 harrives).2 ⟨.inl (by decide), .inl (by decide), trivial⟩⟩

-- A line in two chunks, the first of which has no newline.
theorem grep_drops_part : (∀ c ∈ [[97], [98, 10]], (0 : UInt8) ∉ c) ∧
    Arrives [97] (start (List.replicate SIZE 0)) [[97], [98, 10]] ∧
      (grep [97] (start (List.replicate SIZE 0)) [[97], [98, 10]]).out = [] ∧
        select [97] [97, 98, 10] = [97, 98, 10] := by
  have hbuf : (List.replicate SIZE (0 : UInt8)).length = SIZE := List.length_replicate
  have h0 : ∀ c ∈ [[97], [98, 10]], (0 : UInt8) ∉ c := by decide
  have hround := (holds_start hbuf).round (List.cons_ne_nil 97 []) (by decide) (by decide) [97]
  have hm : (round [97] (start (List.replicate SIZE 0)) [97]).m = 0 := hround.2.m_eq
  have harrives : Arrives [97] (start (List.replicate SIZE 0)) [[97], [98, 10]] := by
    refine ⟨⟨List.cons_ne_nil _ _, by decide⟩, ⟨List.cons_ne_nil _ _, ?_⟩, trivial⟩
    rw [hm]
    decide
  have hmiss : matchText [97] [98] = false := by simp [matchText, matchFrom, matchhere, star, dollar, dot, caret]
  have hhit : matchText [97] [97, 98] = true := by simp [matchText, matchFrom, matchhere, star, dollar, dot, caret]
  have hlast : select [97] [98, 10] = [] := by
    have h := select_line [97] (show nl ∉ [98] by decide) []
    rwa [hmiss] at h
  have hwhole : select [97] [97, 98, 10] = [97, 98, 10] := by
    have h := select_line [97] (show nl ∉ [97, 98] by decide) []
    rwa [hhit] at h
  refine ⟨h0, harrives, ?_, hwhole⟩
  rw [(holds_start hbuf).grep harrives h0]
  change [] ++ (select [97] [97] ++ (select [97] [98, 10] ++ [])) = []
  rw [hlast, select_noNl [97] (show nl ∉ [97] by decide)]
  rfl

end Xv6.Grep
