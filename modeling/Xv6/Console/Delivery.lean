import Xv6.Console.Reads

namespace Xv6.Console

open Function Lib

variable {ι : Type}

def taken (consumed : List (Nat × UInt8)) (id : Nat) : List UInt8 :=
  (consumed.filter fun x => x.1 = id).map Prod.snd

def Pc.call : Pc → Option (Nat × Int × List UInt8)
  | .out => none
  | .reading id n dst _ => some (id, n, dst)

-- How a call has ended, for the bytes committed so far. A ^D that is left is
-- the next byte to be taken.
def Return.Ended (log : List UInt8) (killed : ι → Bool) (r : Return ι) : Prop :=
  match r.why with
  | .full => r.dst.length = r.n.toNat
  | .newline => r.dst.getLast? = some LF
  | .eof => r.dst = []
  | .saved => r.dst ≠ [] ∧ log[r.pos]? = some (ctrl 'D')
  | .killed => killed r.reader = true

-- A finished call has taken the bytes it returns, in order, and perhaps a ^D.
structure Correct (log : List UInt8) (killed : ι → Bool) (consumed : List (Nat × UInt8)) (r : Return ι) :
    Prop where
  bytes : taken consumed r.id = r.dst ++ if r.why = .eof then [ctrl 'D'] else []
  noEof : ctrl 'D' ∉ r.dst
  line : LF ∉ r.dst.dropLast
  length : r.dst.length ≤ r.n.toNat
  ended : r.Ended log killed

structure Delivers (s : Sys Editor ι) : Prop where
  -- The committed bytes have been taken in order, up to the queue.
  order : s.input.log = s.readers.consumed.map Prod.snd ++ s.input.committed
  -- Every finished call is correct, and no two have one number.
  reads : ∀ r ∈ s.readers.returns, Correct s.input.log s.readers.killed s.readers.consumed r
  distinct : (s.readers.returns.map Return.id).Nodup
  -- A call in progress holds the bytes it has taken.
  waiting : ∀ i id n dst, (s.readers.pc i).call = some (id, n, dst) →
    taken s.readers.consumed id = dst ∧ LF ∉ dst ∧ ctrl 'D' ∉ dst ∧ dst.length ≤ n.toNat
  -- Every byte was taken by a call, and a ^D by one that ends with it.
  owner : ∀ x ∈ s.readers.consumed,
    x.1 ∈ s.readers.returns.map Return.id ∨ ∃ i n dst, (s.readers.pc i).call = some (x.1, n, dst)
  eofs : ∀ x ∈ s.readers.consumed, x.2 = ctrl 'D' → ∃ r ∈ s.readers.returns, r.id = x.1 ∧ r.why = .eof

structure Inv (s : Sys Editor ι) : Prop extends Delivers s where
  fresh : ∀ x ∈ s.readers.consumed, x.1 < s.readers.calls
  returned : ∀ r ∈ s.readers.returns, r.id < s.readers.calls
  started : ∀ i id n dst, (s.readers.pc i).call = some (id, n, dst) →
    id < s.readers.calls ∧ id ∉ s.readers.returns.map Return.id
  alone : ∀ i j id n n' dst dst', (s.readers.pc i).call = some (id, n, dst) →
    (s.readers.pc j).call = some (id, n', dst') → i = j

structure Calling (s : Sys Editor ι) (i : ι) (id : Nat) (n : Int) (dst : List UInt8) : Prop where
  taken : taken s.readers.consumed id = dst
  noLine : LF ∉ dst
  noEof : ctrl 'D' ∉ dst
  length : dst.length ≤ n.toNat
  lt : id < s.readers.calls
  running : id ∉ s.readers.returns.map Return.id
  alone : ∀ j n' dst', (s.readers.pc j).call = some (id, n', dst') → j = i
  own : ∀ id' n' dst', (s.readers.pc i).call = some (id', n', dst') → id' = id

variable {s : Sys Editor ι}

theorem Inv.calling {i : ι} {id : Nat} {n : Int} {dst : List UInt8} (h : Inv s)
    (hi : (s.readers.pc i).call = some (id, n, dst)) : Calling s i id n dst := by
  obtain ⟨htaken, hline, heof, hlen⟩ := h.waiting i id n dst hi
  obtain ⟨hlt, hrun⟩ := h.started i id n dst hi
  refine ⟨htaken, hline, heof, hlen, hlt, hrun, ?_, ?_⟩
  · intro j n' dst' hj
    exact h.alone j i id n' n dst' dst hj hi
  · intro id' n' dst' hi'
    cases hi.symm.trans hi'
    rfl

section Taken

variable {s : Readers ι} {id id' : Nat} {bytes : List UInt8}

theorem taken_take_self : taken (s.take id bytes).consumed id = taken s.consumed id ++ bytes := by
  have hall : (bytes.map (Prod.mk id)).filter (fun x => x.1 = id) = bytes.map (Prod.mk id) :=
    List.filter_eq_self.2 (by simp)
  simp only [taken, Readers.take, List.filter_append, List.map_append, hall, List.map_map]
  simp [comp_def]

theorem taken_take_of_ne (h : id' ≠ id) : taken (s.take id bytes).consumed id' = taken s.consumed id' := by
  have hnone : (bytes.map (Prod.mk id)).filter (fun x => x.1 = id') = [] :=
    List.filter_eq_nil_iff.2 (by simp [Ne.symm h])
  simp [taken, Readers.take, List.filter_append, hnone]

end Taken

theorem Return.Ended.mono {log log' : List UInt8} {killed killed' : ι → Bool} {r : Return ι}
    (h : r.Ended log killed) (hlog : ∃ more, log' = log ++ more)
    (hkilled : ∀ i, killed i = true → killed' i = true) : r.Ended log' killed' := by
  obtain ⟨more, rfl⟩ := hlog
  unfold Return.Ended at h ⊢
  split at h
  next => exact h
  next => exact h
  next => exact h
  next =>
    refine ⟨h.1, ?_⟩
    rw [List.getElem?_append_left (List.getElem?_eq_some_iff.1 h.2).1]
    exact h.2
  next => exact hkilled _ h

theorem Inv.still {s t : Sys Editor ι} (h : Inv s)
    (hinput : ∃ more, t.input.log = s.input.log ++ more ∧ t.input.committed = s.input.committed ++ more)
    (hcall : ∀ i, (t.readers.pc i).call = (s.readers.pc i).call)
    (hkilled : ∀ i, s.readers.killed i = true → t.readers.killed i = true)
    (hcalls : t.readers.calls = s.readers.calls) (hconsumed : t.readers.consumed = s.readers.consumed)
    (hreturns : t.readers.returns = s.readers.returns) : Inv t := by
  obtain ⟨more, hlog, hcommitted⟩ := hinput
  constructor
  · constructor
    · rw [hlog, hcommitted, hconsumed, h.order, List.append_assoc]
    · intro r hr
      rw [hreturns] at hr
      obtain ⟨hbytes, heof, hline, hlen, hended⟩ := h.reads r hr
      rw [hconsumed]
      exact ⟨hbytes, heof, hline, hlen, hended.mono ⟨more, hlog⟩ hkilled⟩
    · rw [hreturns]
      exact h.distinct
    · intro i id n dst hi
      rw [hcall] at hi
      rw [hconsumed]
      exact h.waiting i id n dst hi
    · simp only [hconsumed, hreturns, hcall]
      exact h.owner
    · simp only [hconsumed, hreturns]
      exact h.eofs
  · simp only [hconsumed, hcalls]
    exact h.fresh
  · simp only [hreturns, hcalls]
    exact h.returned
  · simp only [hreturns, hcalls, hcall]
    exact h.started
  · simp only [hcall]
    exact h.alone

theorem Calling.ne {i j : ι} {id id' : Nat} {n n' : Int} {dst dst' : List UInt8}
    (h : Calling s i id n dst) (hj : (s.readers.pc j).call = some (id', n', dst')) (hji : j ≠ i) : id' ≠ id := by
  rintro rfl
  exact hji (h.alone j n' dst' hj)

theorem Calling.correct {i : ι} {id : Nat} {n : Int} {dst bytes : List UInt8}
    (h : Calling s i id n dst) {r : Return ι} (hr : r ∈ s.readers.returns)
    (hcorrect : Correct s.input.log s.readers.killed s.readers.consumed r) :
    Correct s.input.log s.readers.killed (s.readers.take id bytes).consumed r := by
  have hne : r.id ≠ id := fun he => h.running (he ▸ List.mem_map_of_mem hr)
  exact { hcorrect with bytes := (taken_take_of_ne hne).trans hcorrect.bytes }

theorem mem_take {s : Readers ι} {id : Nat} {bytes : List UInt8} {x : Nat × UInt8} :
    x ∈ (s.take id bytes).consumed ↔ x ∈ s.consumed ∨ x.1 = id ∧ x.2 ∈ bytes := by
  obtain ⟨a, b⟩ := x
  simp only [Readers.take, List.mem_append, List.mem_map, Prod.mk.injEq]
  constructor
  · rintro (h | ⟨c, hc, rfl, rfl⟩)
    · exact .inl h
    · exact .inr ⟨rfl, hc⟩
  · rintro (h | ⟨rfl, hb⟩)
    · exact .inl h
    · exact .inr ⟨b, hb, rfl, rfl⟩

variable [DecidableEq ι]

theorem call_update {pc : ι → Pc} {i j : ι} {new : Pc} {c : Nat × Int × List UInt8}
    (h : (update pc i new j).call = some c) :
    j = i ∧ new.call = some c ∨ j ≠ i ∧ (pc j).call = some c := by
  by_cases hji : j = i
  · subst hji
    rw [update_self] at h
    exact .inl ⟨rfl, h⟩
  · rw [update_of_ne hji] at h
    exact .inr ⟨hji, h⟩

section Leave

variable {s : Sys Editor ι} {i : ι} {id : Nat} {n : Int} {dst got bytes : List UInt8} {ed : Editor}

theorem Inv.finish (h : Inv s) (hc : Calling s i id n dst) {why : End}
    (hqueue : s.input.committed = bytes ++ ed.committed) (hlog : ed.log = s.input.log)
    (hbytes : bytes = got ++ if why = .eof then [ctrl 'D'] else [])
    (hcorrect : ctrl 'D' ∉ got ∧ LF ∉ (dst ++ got).dropLast ∧ (dst ++ got).length ≤ n.toNat)
    (hended : Return.Ended s.input.log s.readers.killed
      ⟨i, id, n, dst ++ got, why, (s.readers.take id bytes).consumed.length⟩) :
    Inv { input := ed, readers := (s.readers.take id bytes).finish i id n (dst ++ got) why } := by
  have hcall : ∀ j id' n' dst', (update s.readers.pc i .out j).call = some (id', n', dst') →
      j ≠ i ∧ id' ≠ id ∧ (s.readers.pc j).call = some (id', n', dst') := by
    intro j id' n' dst' hj
    rcases call_update hj with ⟨-, hout⟩ | ⟨hji, hj⟩
    · cases hout
    · exact ⟨hji, hc.ne hj hji, hj⟩
  constructor
  · constructor
    · show ed.log = (s.readers.take id bytes).consumed.map Prod.snd ++ ed.committed
      rw [hlog, h.order, hqueue]
      simp [Readers.take, comp_def]
    · intro r hr
      show Correct ed.log s.readers.killed (s.readers.take id bytes).consumed r
      rw [hlog]
      rcases List.mem_append.1 hr with hr | hr
      · exact hc.correct hr (h.reads r hr)
      · cases List.mem_singleton.1 hr
        refine ⟨?_, ?_, hcorrect.2.1, hcorrect.2.2, hended⟩
        · show Console.taken (s.readers.take id bytes).consumed id = _
          rw [taken_take_self, hc.taken, hbytes, List.append_assoc]
        · rw [List.mem_append, not_or]
          exact ⟨hc.noEof, hcorrect.1⟩
    · show ((s.readers.returns ++ [_]).map Return.id).Nodup
      rw [List.map_append, List.map_singleton]
      refine List.nodup_append.2 ⟨h.distinct, List.nodup_singleton _, ?_⟩
      rintro _ ha b hb rfl
      cases List.mem_singleton.1 hb
      exact hc.running ha
    · intro j id' n' dst' hj
      obtain ⟨-, hne, hj⟩ := hcall j id' n' dst' hj
      show taken (s.readers.take id bytes).consumed id' = dst' ∧ _
      rw [taken_take_of_ne hne]
      exact h.waiting j id' n' dst' hj
    · intro x hx
      show x.1 ∈ (s.readers.returns ++ [_]).map Return.id ∨ _
      rw [List.map_append, List.mem_append]
      rcases mem_take.1 hx with hx | ⟨hid, -⟩
      · rcases h.owner x hx with hret | ⟨j, n', dst', hj⟩
        · exact .inl (.inl hret)
        · by_cases hji : j = i
          · subst hji
            exact .inl (.inr (List.mem_singleton.2 (hc.own _ _ _ hj)))
          · exact .inr ⟨j, n', dst', by rwa [← update_of_ne hji .out s.readers.pc] at hj⟩
      · exact .inl (.inr (List.mem_singleton.2 hid))
    · intro x hx hD
      rcases mem_take.1 hx with hx | ⟨hid, hmem⟩
      · obtain ⟨r, hr, hrest⟩ := h.eofs x hx hD
        exact ⟨r, List.mem_append_left _ hr, hrest⟩
      · refine ⟨_, List.mem_append_right _ (List.mem_singleton_self _), hid.symm, ?_⟩
        by_contra hne
        rw [hD, hbytes, if_neg hne, List.append_nil] at hmem
        exact hcorrect.1 hmem
  · intro x hx
    rcases mem_take.1 hx with hx | ⟨hid, -⟩
    · exact h.fresh x hx
    · exact hid ▸ hc.lt
  · intro r hr
    rcases List.mem_append.1 hr with hr | hr
    · exact h.returned r hr
    · cases List.mem_singleton.1 hr
      exact hc.lt
  · intro j id' n' dst' hj
    obtain ⟨-, hne, hj⟩ := hcall j id' n' dst' hj
    refine ⟨(h.started j id' n' dst' hj).1, ?_⟩
    show id' ∉ (s.readers.returns ++ [_]).map Return.id
    rw [List.map_append, List.mem_append, not_or, List.map_singleton, List.mem_singleton]
    exact ⟨(h.started j id' n' dst' hj).2, hne⟩
  · intro j k id' n' n'' dst' dst'' hj hk
    exact h.alone j k id' n' n'' dst' dst'' (hcall j id' n' dst' hj).2.2 (hcall k id' n'' dst'' hk).2.2

theorem Inv.sleep (h : Inv s) (hc : Calling s i id n dst) (hqueue : s.input.committed = got ++ ed.committed)
    (hlog : ed.log = s.input.log) (hgot : ctrl 'D' ∉ got ∧ LF ∉ got)
    (hlen : (dst ++ got).length ≤ n.toNat) :
    Inv { input := ed, readers := (s.readers.take id got).goto i (.reading id n (dst ++ got) false) } := by
  have hcall : ∀ j id' n' dst',
      (update s.readers.pc i (.reading id n (dst ++ got) false) j).call = some (id', n', dst') →
      j = i ∧ id' = id ∧ n' = n ∧ dst' = dst ++ got ∨
        j ≠ i ∧ id' ≠ id ∧ (s.readers.pc j).call = some (id', n', dst') := by
    intro j id' n' dst' hj
    rcases call_update hj with ⟨hji, hout⟩ | ⟨hji, hj⟩
    · cases hout
      exact .inl ⟨hji, rfl, rfl, rfl⟩
    · exact .inr ⟨hji, hc.ne hj hji, hj⟩
  constructor
  · constructor
    · show ed.log = (s.readers.take id got).consumed.map Prod.snd ++ ed.committed
      rw [hlog, h.order, hqueue]
      simp [Readers.take, comp_def]
    · intro r hr
      show Correct ed.log s.readers.killed (s.readers.take id got).consumed r
      rw [hlog]
      exact hc.correct hr (h.reads r hr)
    · exact h.distinct
    · intro j id' n' dst' hj
      show taken (s.readers.take id got).consumed id' = dst' ∧ _
      rcases hcall j id' n' dst' hj with ⟨-, rfl, rfl, rfl⟩ | ⟨-, hne, hj⟩
      · rw [taken_take_self, hc.taken, List.mem_append, List.mem_append, not_or, not_or]
        exact ⟨rfl, ⟨hc.noLine, hgot.2⟩, ⟨hc.noEof, hgot.1⟩, hlen⟩
      · rw [taken_take_of_ne hne]
        exact h.waiting j id' n' dst' hj
    · intro x hx
      have hown : (update s.readers.pc i (.reading id n (dst ++ got) false) i).call =
          some (id, n, dst ++ got) := by
        rw [update_self]
        rfl
      rcases mem_take.1 hx with hx | ⟨rfl, -⟩
      · refine (h.owner x hx).imp_right ?_
        rintro ⟨j, n', dst', hj⟩
        by_cases hji : j = i
        · subst hji
          exact ⟨j, n, dst ++ got, by rw [hc.own _ _ _ hj]; exact hown⟩
        · exact ⟨j, n', dst', by rwa [← update_of_ne hji _ s.readers.pc] at hj⟩
      · exact .inr ⟨i, n, dst ++ got, hown⟩
    · intro x hx hD
      rcases mem_take.1 hx with hx | ⟨-, hmem⟩
      · exact h.eofs x hx hD
      · exact absurd (hD ▸ hmem) hgot.1
  · intro x hx
    rcases mem_take.1 hx with hx | ⟨hid, -⟩
    · exact h.fresh x hx
    · exact hid ▸ hc.lt
  · exact h.returned
  · intro j id' n' dst' hj
    rcases hcall j id' n' dst' hj with ⟨-, rfl, -, -⟩ | ⟨-, -, hj⟩
    · exact ⟨hc.lt, hc.running⟩
    · exact h.started j id' n' dst' hj
  · intro j k id' n' n'' dst' dst'' hj hk
    rcases hcall j id' n' dst' hj with ⟨rfl, rfl, -, -⟩ | ⟨-, hne, hj⟩
    · rcases hcall k _ n'' dst'' hk with ⟨rfl, -⟩ | ⟨-, hne, -⟩
      · rfl
      · exact absurd rfl hne
    · rcases hcall k id' n'' dst'' hk with ⟨-, rfl, -⟩ | ⟨-, -, hk⟩
      · exact absurd rfl hne
      · exact h.alone j k id' n' n'' dst' dst'' hj hk

theorem not_mem_dropLast_append (hdst : LF ∉ dst) (hgot : LF ∉ got.dropLast) : LF ∉ (dst ++ got).dropLast := by
  cases got with
  | nil =>
    rw [List.append_nil]
    exact fun hmem => hdst (List.dropLast_subset _ hmem)
  | cons c got =>
    rw [List.dropLast_append_of_ne_nil (List.cons_ne_nil c got), List.mem_append, not_or]
    exact ⟨hdst, hgot⟩

theorem Inv.leave (h : Inv s) (hc : Calling s i id n dst) {why : Option End}
    (hread : Reads n.toNat (n.toNat - dst.length) s.input ed got why) :
    Inv { input := ed, readers := s.readers.leave i id n dst got why } := by
  have hdst := hc.length
  have hlen : (dst ++ got).length ≤ n.toNat := by
    have hgot := hread.length
    rw [List.length_append]
    omega
  have hcorrect : ctrl 'D' ∉ got ∧ LF ∉ (dst ++ got).dropLast ∧ (dst ++ got).length ≤ n.toNat :=
    ⟨hread.noEof, not_mem_dropLast_append hc.noLine hread.line, hlen⟩
  have hqueue := hread.queue
  have hending := hread.ending
  cases why with
  | none =>
    rw [if_neg nofun, List.append_nil] at hqueue
    unfold Readers.leave
    simp only
    split_ifs with hkilled
    · refine h.finish hc hqueue hread.log ?_ hcorrect hkilled
      rw [if_neg nofun, List.append_nil]
    · exact h.sleep hc hqueue hread.log ⟨hread.noEof, hread.noLine nofun⟩ hlen
  | some why =>
    simp only [Option.some.injEq] at hqueue
    refine h.finish hc hqueue hread.log rfl hcorrect ?_
    cases why with
    | full =>
      show (dst ++ got).length = n.toNat
      have hfull : got.length = n.toNat - dst.length := hending
      rw [List.length_append]
      omega
    | newline =>
      show (dst ++ got).getLast? = some LF
      rw [List.getLast?_append, show got.getLast? = some LF from hending]
      rfl
    | eof =>
      show dst ++ got = []
      have hnone : (dst ++ got).length = 0 := by
        obtain ⟨hlt, htarget⟩ := hending
        rw [List.length_append]
        omega
      exact List.eq_nil_of_length_eq_zero hnone
    | saved =>
      obtain ⟨hlt, htarget, hhead⟩ := hending
      refine ⟨fun hnil => ?_, ?_⟩
      · have hzero := congrArg List.length hnil
        rw [List.length_append, List.length_nil] at hzero
        omega
      · have hlog := h.order
        rw [hqueue, ← List.append_assoc] at hlog
        rw [hlog, List.getElem?_append_right (by simp [Readers.take])]
        simpa [Readers.take, List.head?_eq_getElem?] using hhead
    | killed => exact hending.elim

theorem Inv.read (h : Inv s) (hc : Calling s i id n dst) : Inv (consoleread Editor.read s i id n dst) :=
  h.leave hc (Editor.reads n.toNat (n.toNat - dst.length) s.input)

end Leave

theorem Editor.store_log (ed : Editor) (c : UInt8) (h : ed.committed.length + ed.edit.length < INPUT_BUF) :
    ∃ more, (ed.store c h).1.log = ed.log ++ more ∧ (ed.store c h).1.committed = ed.committed ++ more := by
  unfold Editor.store
  split_ifs
  · exact ⟨_, rfl, rfl⟩
  · exact ⟨[], (List.append_nil _).symm, (List.append_nil _).symm⟩

theorem Editor.key_log (ed : Editor) (c : UInt8) :
    ∃ more, (ed.key c).1.log = ed.log ++ more ∧ (ed.key c).1.committed = ed.committed ++ more := by
  have hsame : ∃ more, ed.log = ed.log ++ more ∧ ed.committed = ed.committed ++ more :=
    ⟨[], (List.append_nil _).symm, (List.append_nil _).symm⟩
  unfold Editor.key
  split_ifs with hP hU hH hroom hcr
  · exact hsame
  · exact hsame
  · exact hsame
  · exact ed.store_log LF hroom.2
  · exact ed.store_log c hroom.2
  · exact hsame

theorem Pc.call_wake (pc : Pc) : pc.wake.call = pc.call := by
  cases pc <;> rfl

theorem call_update_wake (pc : ι → Pc) (i j : ι) : (update pc i (pc i).wake j).call = (pc j).call := by
  by_cases hji : j = i
  · subst hji
    rw [update_self, Pc.call_wake]
  · rw [update_of_ne hji]

omit [DecidableEq ι] in
theorem Inv.intr (h : Inv s) (cs : List UInt8) : Inv (consoleintr Editor.key cs s) := by
  induction cs generalizing s with
  | nil => exact h
  | cons c cs ih =>
    have hkey := s.input.key_log c
    apply ih
    cases hflag : (s.input.key c).2 with
    | false => exact h.still hkey (fun _ => rfl) (fun _ hk => hk) rfl rfl rfl
    | true => exact h.still hkey (fun i => (s.readers.pc i).call_wake) (fun _ hk => hk) rfl rfl rfl

omit [DecidableEq ι] in
theorem Inv.begin {i : ι} (h : Inv s) (hout : s.readers.pc i = .out) (n : Int) :
    Inv { s with readers := { s.readers with calls := s.readers.calls + 1 } } ∧
      Calling { s with readers := { s.readers with calls := s.readers.calls + 1 } } i s.readers.calls n [] := by
  constructor
  · refine { h with fresh := ?_, returned := ?_, started := ?_ }
    · exact fun x hx => Nat.lt_succ_of_lt (h.fresh x hx)
    · exact fun r hr => Nat.lt_succ_of_lt (h.returned r hr)
    · intro j id n' dst hj
      obtain ⟨hlt, hrun⟩ := h.started j id n' dst hj
      exact ⟨Nat.lt_succ_of_lt hlt, hrun⟩
  · refine ⟨?_, by simp, by simp, Nat.zero_le _, Nat.lt_succ_self _, ?_, ?_, ?_⟩
    · rw [Console.taken, List.map_eq_nil_iff, List.filter_eq_nil_iff]
      intro x hx
      have hlt := h.fresh x hx
      simp only [decide_eq_true_eq]
      exact Nat.ne_of_lt hlt
    · intro hmem
      obtain ⟨r, hr, hid⟩ := List.mem_map.1 hmem
      exact absurd hid (Nat.ne_of_lt (h.returned r hr))
    · intro j n' dst hj
      exact absurd (h.started j _ n' dst hj).1 (Nat.lt_irrefl _)
    · intro id' n' dst hi
      rw [hout] at hi
      cases hi

theorem Inv.step {s t : Sys Editor ι} {l : Label ι} (h : Inv s) (hstep : editorStep s l = some t) : Inv t := by
  have hsame : ∃ more, s.input.log = s.input.log ++ more ∧ s.input.committed = s.input.committed ++ more :=
    ⟨[], (List.append_nil _).symm, (List.append_nil _).symm⟩
  cases l with
  | intr cs =>
    cases hstep
    exact h.intr cs
  | read i n =>
    simp only [editorStep, Console.step] at hstep
    split at hstep
    next hout =>
      cases hstep
      obtain ⟨hinv, hcalling⟩ := h.begin hout n
      exact hinv.read hcalling
    next => cases hstep
  | resume i =>
    simp only [editorStep, Console.step] at hstep
    split at hstep
    next id n dst hi =>
      cases hstep
      exact h.read (h.calling (by rw [hi]; rfl))
    next => cases hstep
  | kill i =>
    cases hstep
    refine h.still hsame (call_update_wake s.readers.pc i) (fun j hj => ?_) rfl rfl rfl
    show update s.readers.killed i true j = true
    by_cases hji : j = i
    · rw [hji, update_self]
    · rwa [update_of_ne hji]
  | wake i =>
    cases hstep
    exact h.still hsame (call_update_wake s.readers.pc i) (fun _ hk => hk) rfl rfl rfl

-- An empty ring at any count, and nobody in consoleread.
structure Quiet (s : Sys Input ι) : Prop where
  r : s.input.r = s.input.w
  w : s.input.w = s.input.e
  out : ∀ i, s.readers.pc i = .out
  consumed : s.readers.consumed = []
  returns : s.readers.returns = []

theorem Editor.open_nil : LF ∉ ([] : List UInt8) ∧ ctrl 'D' ∉ ([] : List UInt8) :=
  ⟨List.not_mem_nil, List.not_mem_nil⟩

def Editor.empty : Editor := ⟨[], [], [], Nat.zero_le _, Editor.open_nil⟩

omit [DecidableEq ι] in
theorem Quiet.represents {s : Sys Input ι} (h : Quiet s) : Represents s.input Editor.empty := by
  refine ⟨s.input.r.toNat, s.input.r.toNat, s.input.r.toNat, ?_⟩
  refine ⟨Nat.le_refl _, Nat.le_refl _, Nat.le_add_right .., ?_, ?_, ?_, ?_, ?_⟩
  · exact UInt32.ofNat_toNat.symm
  · rw [← h.r]
    exact UInt32.ofNat_toNat.symm
  · rw [← h.w, ← h.r]
    exact UInt32.ofNat_toNat.symm
  · rw [Nat.sub_self, contents_zero]
    rfl
  · rw [Nat.sub_self, contents_zero]
    rfl

omit [DecidableEq ι] in
theorem Quiet.inv {s : Sys Input ι} (h : Quiet s) : Inv { input := Editor.empty, readers := s.readers } := by
  have hcall : ∀ i c, (s.readers.pc i).call ≠ some c := fun i c hi => by
    rw [h.out i] at hi
    cases hi
  constructor
  · constructor
    · simp [Editor.empty, h.consumed]
    · simp [h.returns]
    · simp [h.returns]
    · exact fun i _ _ _ hi => absurd hi (hcall i _)
    · simp [h.consumed]
    · simp [h.consumed]
  · simp [h.consumed]
  · simp [h.returns]
  · exact fun i _ _ _ hi => absurd hi (hcall i _)
  · exact fun i _ _ _ _ _ _ hi => absurd hi (hcall i _)

-- Every run of the console is a run of the line editor with the same
-- characters and calls, and the same processes and results.
theorem run_refines_editor {s t : Sys Input ι} (hquiet : Quiet s) {ls : List (Label ι)}
    (hrun : run ringStep s ls = some t) :
    ∃ t', run editorStep { input := Editor.empty, readers := s.readers } ls = some t' ∧
      Represents t.input t'.input ∧ t.readers = t'.readers ∧ Delivers t' := by
  have hstart : Sim s { input := Editor.empty, readers := s.readers } := ⟨hquiet.represents, rfl⟩
  have hsim : ∀ (s : Sys Input ι) s' l t, Sim s s' → ringStep s l = some t →
      ∃ t', editorStep s' l = some t' ∧ Sim t t' := fun _ _ _ _ h hstep => h.step hstep
  obtain ⟨t', hrun', hrep, hreaders⟩ := run_simulates hsim hstart hrun
  have hinv : Inv t' := run_preserves hquiet.inv (fun _ _ _ h hstep => h.step hstep) hrun'
  exact ⟨t', hrun', hrep, hreaders, hinv.toDelivers⟩

-- Two processes and a ring whose counters are about to wrap.
def quiet : Sys Input (Fin 2) where
  input := ⟨fun _ => 0, 4294967295, 4294967295, 4294967295⟩
  readers := ⟨fun _ => .out, fun _ => false, 0, [], []⟩

-- A read waits; a, b, backspace, c and ^D are typed; the read gets ac, and the
-- next read gets the end of file.
def typing : List (Label (Fin 2)) :=
  [.read ⟨0, Nat.two_pos⟩ 10, .intr [97, 98, ctrl 'H', 99, ctrl 'D'], .resume ⟨0, Nat.two_pos⟩,
  .read ⟨1, Nat.one_lt_two⟩ 10]

theorem run_refines_editor_typing : ∃ t, run ringStep quiet typing = some t ∧
    t.readers.returns.map Return.value = [2, 0] ∧
    ∃ t', run editorStep { input := Editor.empty, readers := quiet.readers } typing = some t' ∧
      Represents t.input t'.input ∧ t.readers = t'.readers ∧ Delivers t' := by
  have hquiet : Quiet quiet := ⟨rfl, rfl, fun _ => rfl, rfl, rfl⟩
  have hany : (run ringStep quiet typing).any (fun t => t.readers.returns.map Return.value = [2, 0]) = true := by
    decide +kernel
  obtain ⟨t, hrun, ht⟩ := exists_of_run_any hany
  exact ⟨t, hrun, of_decide_eq_true ht, run_refines_editor hquiet hrun⟩

end Xv6.Console
