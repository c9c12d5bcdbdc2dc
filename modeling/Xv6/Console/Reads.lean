import Xv6.Console.Editor

namespace Xv6.Console

open Lib

variable {ι : Type}

-- The same processes with the line editor in place of the ring.
def editorStep [DecidableEq ι] : Sys Editor ι → Label ι → Option (Sys Editor ι) := step Editor.key Editor.read

def Sim (s : Sys Input ι) (s' : Sys Editor ι) : Prop := Represents s.input s'.input ∧ s.readers = s'.readers

variable {s' : Sys Editor ι}

theorem Sim.intr {s : Sys Input ι} (h : Sim s s') (cs : List UInt8) :
    Sim (consoleintr Input.key cs s) (consoleintr Editor.key cs s') := by
  induction cs generalizing s s' with
  | nil => exact h
  | cons c cs ih =>
    obtain ⟨hrep, hflag⟩ := h.1.key c
    refine ih ⟨hrep, ?_⟩
    rw [hflag, h.2]

variable [DecidableEq ι]

theorem Sim.read {s : Sys Input ι} (h : Sim s s') (i : ι) (id : Nat) (n : Int)
    (dst : List UInt8) : Sim (consoleread Input.read s i id n dst) (consoleread Editor.read s' i id n dst) := by
  obtain ⟨hrep, hout⟩ := h.1.read n.toNat (n.toNat - dst.length)
  refine ⟨hrep, ?_⟩
  simp only [consoleread, hout, h.2]

theorem Sim.step {s t : Sys Input ι} {l : Label ι} (h : Sim s s')
    (hstep : ringStep s l = some t) : ∃ t', editorStep s' l = some t' ∧ Sim t t' := by
  have hreaders := h.2
  cases l with
  | intr cs =>
    cases hstep
    exact ⟨_, rfl, h.intr cs⟩
  | read i n =>
    simp only [ringStep, Console.step] at hstep
    simp only [editorStep, Console.step, ← hreaders]
    split at hstep
    next hout =>
      cases hstep
      refine ⟨_, rfl, Sim.read ?_ i s.readers.calls n []⟩
      exact ⟨h.1, rfl⟩
    next => cases hstep
  | resume i =>
    simp only [ringStep, Console.step] at hstep
    simp only [editorStep, Console.step, ← hreaders]
    split at hstep
    next id n dst hi =>
      cases hstep
      exact ⟨_, rfl, h.read i id n dst⟩
    next => cases hstep
  | kill i =>
    cases hstep
    refine ⟨_, rfl, h.1, ?_⟩
    simp only [hreaders]
  | wake i =>
    cases hstep
    refine ⟨_, rfl, h.1, ?_⟩
    simp only [hreaders]

-- How a read of n of target bytes ends that got some bytes and leaves ed.
def Ends (target n : Nat) (ed : Editor) (got : List UInt8) : Option End → Prop
  | none => got.length < n
  | some .full => got.length = n
  | some .newline => got.getLast? = some LF
  | some .eof => got.length < n ∧ target ≤ n - got.length
  | some .saved => got.length < n ∧ n - got.length < target ∧ ed.committed.head? = some (ctrl 'D')
  | some .killed => False

-- What a read of n of target bytes does to the committed bytes.
structure Reads (target n : Nat) (ed ed' : Editor) (got : List UInt8) (why : Option End) : Prop where
  queue : ed.committed = got ++ (if why = some .eof then [ctrl 'D'] else []) ++ ed'.committed
  log : ed'.log = ed.log
  noEof : ctrl 'D' ∉ got
  line : LF ∉ got.dropLast
  noLine : why ≠ some .newline → LF ∉ got
  length : got.length ≤ n
  ending : Ends target n ed' got why

theorem Reads.cons {target n : Nat} {ed ed' : Editor} {got : List UInt8} {why : Option End} {c : UInt8}
    (h : Reads target n ed.tail ed' got why) (hc : ed.committed.head? = some c) (heof : c ≠ ctrl 'D')
    (hlf : c ≠ LF) : Reads target (n + 1) ed ed' (c :: got) why := by
  have hcons : ed.committed = c :: ed.committed.tail := List.eq_cons_of_mem_head? hc
  refine ⟨?_, h.log, ?_, ?_, ?_, Nat.succ_le_succ h.length, ?_⟩
  · rw [hcons, show ed.committed.tail = ed.tail.committed from rfl, h.queue]
    rfl
  · simp [h.noEof, Ne.symm heof]
  · cases got with
    | nil => nofun
    | cons d got => simp [h.line, Ne.symm hlf]
  · intro hne
    simp [h.noLine hne, Ne.symm hlf]
  · have hend := h.ending
    match why with
    | none => exact Nat.succ_lt_succ hend
    | some .full => exact congrArg Nat.succ hend
    | some .newline =>
      cases got with
      | nil => cases hend
      | cons d got => exact hend
    | some .eof =>
      simp only [Ends, List.length_cons] at hend ⊢
      omega
    | some .saved =>
      simp only [Ends, List.length_cons] at hend ⊢
      exact ⟨by omega, by omega, hend.2.2⟩
    | some .killed => exact hend

theorem Editor.reads (target n : Nat) (ed : Editor) :
    Reads target n ed (ed.read target n).1 (ed.read target n).2.1 (ed.read target n).2.2 := by
  have hnil : ∀ c : UInt8, c ∉ [] := fun _ => List.not_mem_nil
  induction n generalizing ed with
  | zero => exact ⟨rfl, rfl, hnil _, hnil _, fun _ => hnil _, Nat.le_refl 0, rfl⟩
  | succ n ih =>
    rw [Editor.read]
    split
    next hempty => exact ⟨rfl, rfl, hnil _, hnil _, fun _ => hnil _, Nat.zero_le _, Nat.succ_pos n⟩
    next c rest hcons =>
      have hhead : ed.committed.head? = some c := by rw [hcons]; rfl
      have htail : ed.committed = c :: ed.tail.committed := List.eq_cons_of_mem_head? hhead
      split_ifs with heof hsave hlf
      · rw [heof] at hhead
        exact ⟨rfl, rfl, hnil _, hnil _, fun _ => hnil _, Nat.zero_le _, Nat.succ_pos n, hsave, hhead⟩
      · rw [heof] at htail
        exact ⟨htail, rfl, hnil _, hnil _, fun _ => hnil _, Nat.zero_le _, Nat.succ_pos n, Nat.not_lt.1 hsave⟩
      · refine ⟨htail, rfl, ?_, hnil _, fun hne => absurd rfl hne, Nat.succ_le_succ (Nat.zero_le n), ?_⟩
        · rw [List.mem_singleton]
          exact Ne.symm heof
        · exact congrArg some hlf
      · exact (ih ed.tail).cons hhead heof hlf

end Xv6.Console
