import Xv6.Console
import Xv6.Lib.Ring

namespace Xv6.Console

open Lib

-- A line editor: the committed bytes that have not been read, the line being
-- edited, and all bytes that were ever committed.
structure Editor where
  committed : List UInt8
  edit : List UInt8
  log : List UInt8
  bounded : committed.length + edit.length ≤ INPUT_BUF
  open_line : LF ∉ edit ∧ ctrl 'D' ∉ edit

namespace Editor

def erase (ed : Editor) : Editor :=
  { ed with
    edit := []
    bounded := Nat.le_trans (Nat.le_add_right ..) ed.bounded
    open_line := ⟨nofun, nofun⟩ }

def back (ed : Editor) : Editor :=
  { ed with
    edit := ed.edit.dropLast
    bounded := by
      have h := ed.bounded
      rw [List.length_dropLast]
      omega
    open_line := ⟨fun h => ed.open_line.1 (List.dropLast_subset _ h),
      fun h => ed.open_line.2 (List.dropLast_subset _ h)⟩ }

def commit (ed : Editor) (c : UInt8) (h : ed.committed.length + ed.edit.length < INPUT_BUF) : Editor where
  committed := ed.committed ++ (ed.edit ++ [c])
  edit := []
  log := ed.log ++ (ed.edit ++ [c])
  bounded := by
    simp
    omega
  open_line := ⟨nofun, nofun⟩

def insert (ed : Editor) (c : UInt8) (h : ed.committed.length + ed.edit.length < INPUT_BUF)
    (hlf : c ≠ LF) (heof : c ≠ ctrl 'D') : Editor :=
  { ed with
    edit := ed.edit ++ [c]
    bounded := by
      simp
      omega
    open_line := by
      have hline := ed.open_line
      simp [hline, Ne.symm hlf, Ne.symm heof] }

def store (ed : Editor) (c : UInt8) (h : ed.committed.length + ed.edit.length < INPUT_BUF) : Editor × Bool :=
  if hc : c = LF ∨ c = ctrl 'D' ∨ ed.committed.length + ed.edit.length + 1 = INPUT_BUF then
    (ed.commit c h, true)
  else (ed.insert c h (fun he => hc (.inl he)) (fun he => hc (.inr (.inl he))), false)

def key (ed : Editor) (c : UInt8) : Editor × Bool :=
  if c = ctrl 'P' then (ed, false)
  else if c = ctrl 'U' then (ed.erase, false)
  else if c = ctrl 'H' ∨ c = DEL then (ed.back, false)
  else if h : c ≠ 0 ∧ ed.committed.length + ed.edit.length < INPUT_BUF then
    ed.store (if c = CR then LF else c) h.2
  else (ed, false)

def tail (ed : Editor) : Editor :=
  { ed with
    committed := ed.committed.tail
    bounded := by
      have h := ed.bounded
      rw [List.length_tail]
      omega }

def read (target : Nat) : Nat → Editor → Editor × List UInt8 × Option End
  | 0, ed => (ed, [], some .full)
  | n + 1, ed =>
    match ed.committed with
    | [] => (ed, [], none)
    | c :: _ =>
      if c = ctrl 'D' then if n + 1 < target then (ed, [], some .saved) else (ed.tail, [], some .eof)
      else if c = LF then (ed.tail, [c], some .newline)
      else
        let rest := read target n ed.tail
        (rest.1, c :: rest.2.1, rest.2.2)

end Editor

-- The counters of the ring are the counters R ≤ W ≤ E of an unbounded tape
-- modulo 2^32; between them are the committed bytes and the line.
structure Between (s : Input) (ed : Editor) (R W E : Nat) : Prop where
  read_le : R ≤ W
  write_le : W ≤ E
  edit_le : E ≤ R + INPUT_BUF
  r : s.r = UInt32.ofNat R
  w : s.w = UInt32.ofNat W
  e : s.e = UInt32.ofNat E
  committed : ed.committed = contents s.buf R (W - R)
  edit : ed.edit = contents s.buf W (E - W)

def Represents (s : Input) (ed : Editor) : Prop := ∃ R W E, Between s ed R W E

theorem ofNat_succ (k : Nat) : UInt32.ofNat k + 1 = UInt32.ofNat (k + 1) := by
  rw [UInt32.ofNat_add]
  rfl

theorem ofNat_pred {k : Nat} (h : 0 < k) : UInt32.ofNat k - 1 = UInt32.ofNat (k - 1) := by
  obtain _ | k := k
  · omega
  rw [← ofNat_succ]
  simp

theorem ofNat_eq_iff {a b : Nat} (h : a ≤ b) (hb : b ≤ a + INPUT_BUF) :
    UInt32.ofNat a = UInt32.ofNat b ↔ a = b := by
  rw [← UInt32.toNat_inj, UInt32.toNat_ofNat', UInt32.toNat_ofNat']
  simp only [INPUT_BUF] at hb
  omega

theorem toNat_ofNat_sub {a b : Nat} (h : a ≤ b) (hb : b ≤ a + INPUT_BUF) :
    (UInt32.ofNat b - UInt32.ofNat a).toNat = b - a := by
  rw [UInt32.toNat_sub, UInt32.toNat_ofNat', UInt32.toNat_ofNat']
  simp only [INPUT_BUF] at hb
  omega

theorem slot_ofNat (k : Nat) : slot (UInt32.ofNat k) = Fin.ofNat INPUT_BUF k := by
  apply ofNat_congr
  rw [UInt32.toNat_ofNat']
  simp only [INPUT_BUF]
  omega

section Key

variable {s : Input} {ed : Editor} {R W E : Nat}

theorem Between.empty_iff (h : Between s ed R W E) : s.e = s.w ↔ W = E := by
  have hle := h.edit_le
  have hread := h.read_le
  rw [h.e, h.w, eq_comm, ofNat_eq_iff h.write_le (by omega)]

theorem Between.length (h : Between s ed R W E) : ed.committed.length + ed.edit.length = E - R := by
  have hread := h.read_le
  have hwrite := h.write_le
  rw [h.committed, h.edit, length_contents, length_contents]
  omega

theorem Between.room_iff (h : Between s ed R W E) :
    s.e - s.r < UInt32.ofNat INPUT_BUF ↔ ed.committed.length + ed.edit.length < INPUT_BUF := by
  have hsize : (UInt32.ofNat INPUT_BUF).toNat = INPUT_BUF := rfl
  rw [UInt32.lt_iff_toNat_lt, h.e, h.r, toNat_ofNat_sub (Nat.le_trans h.read_le h.write_le) h.edit_le, hsize, h.length]

-- The loop of ^U takes back the whole line: there is no newline in it.
theorem killLine_eq {k : Nat} (hk : k ≤ INPUT_BUF) (hw : s.w = UInt32.ofNat W)
    (he : s.e = UInt32.ofNat (W + k)) (hline : LF ∉ contents s.buf W k) :
    Input.killLine k s = { s with e := UInt32.ofNat W } := by
  induction k generalizing s with
  | zero =>
    have hstop : s.e = UInt32.ofNat W := he
    rw [Input.killLine, ← hstop]
  | succ k ih =>
    rw [contents_succ, List.mem_append, not_or, List.mem_singleton] at hline
    have hprev : s.e - 1 = UInt32.ofNat (W + k) := by
      rw [he, ofNat_pred (by omega)]
      rfl
    have hne : s.e ≠ s.w := by
      rw [he, hw, ne_eq, eq_comm, ofNat_eq_iff (by omega) (by omega)]
      omega
    have hlast : s.buf (slot (s.e - 1)) ≠ LF := by
      rw [hprev, slot_ofNat]
      exact Ne.symm hline.2
    rw [Input.killLine, if_pos ⟨hne, hlast⟩, ih (s := { s with e := s.e - 1 }) (by omega) hw hprev hline.1]

section

variable (h : Between s ed R W E)
include h

theorem Between.erase : Between (Input.killLine (s.e - s.w).toNat s) ed.erase R W W := by
  have hle := h.edit_le
  have hread := h.read_le
  have hwrite := h.write_le
  have hcount : (s.e - s.w).toNat = E - W := by rw [h.e, h.w, toNat_ofNat_sub hwrite (by omega)]
  have hend : s.e = UInt32.ofNat (W + (E - W)) := by rw [h.e, Nat.add_sub_cancel' hwrite]
  rw [hcount, killLine_eq (by omega) h.w hend (h.edit ▸ ed.open_line.1)]
  refine { h with write_le := Nat.le_refl W, edit_le := by omega, e := rfl, edit := ?_ }
  rw [Nat.sub_self, contents_zero]
  rfl

theorem Between.back (hne : W < E) : Between { s with e := s.e - 1 } ed.back R W (E - 1) := by
  have hle := h.edit_le
  refine { h with write_le := by omega, edit_le := by omega, e := ?_, edit := ?_ }
  · show s.e - 1 = _
    rw [h.e, ofNat_pred (by omega)]
  · show ed.edit.dropLast = _
    rw [h.edit, show E - W = (E - 1 - W) + 1 by omega, contents_succ, List.dropLast_concat]

variable (hroom : ed.committed.length + ed.edit.length < INPUT_BUF)
include hroom

theorem Between.put (c : UInt8) :
    contents (s.put c).buf R (W - R) = ed.committed ∧
      contents (s.put c).buf W (E + 1 - W) = ed.edit ++ [c] := by
  have hread := h.read_le
  have hwrite := h.write_le
  rw [h.length] at hroom
  have hslot : slot s.e = Fin.ofNat INPUT_BUF (R + (E - R)) := by
    rw [h.e, slot_ofNat, Nat.add_sub_cancel' (Nat.le_trans hread hwrite)]
  have hstore : contents (s.put c).buf R (E - R + 1) = contents s.buf R (E - R) ++ [c] := by
    show contents (Function.update s.buf (slot s.e) c) R (E - R + 1) = _
    rw [hslot]
    exact contents_store s.buf R c (by omega)
  have hall : contents (s.put c).buf R (W - R) ++ contents (s.put c).buf W (E + 1 - W) =
      ed.committed ++ (ed.edit ++ [c]) := by
    calc contents (s.put c).buf R (W - R) ++ contents (s.put c).buf W (E + 1 - W)
        = contents (s.put c).buf R (E - R + 1) := by
          rw [show E - R + 1 = (W - R) + (E + 1 - W) by omega, contents_add, Nat.add_sub_cancel' hread]
      _ = contents s.buf R (E - R) ++ [c] := hstore
      _ = ed.committed ++ (ed.edit ++ [c]) := by
          rw [h.committed, h.edit, show E - R = (W - R) + (E - W) by omega, contents_add,
            Nat.add_sub_cancel' hread, List.append_assoc]
  exact List.append_inj hall (by rw [h.committed, length_contents, length_contents])

theorem Between.commit (c : UInt8) :
    Between { s.put c with w := (s.put c).e } (ed.commit c hroom) R (E + 1) (E + 1) := by
  have hput := h.put hroom c
  have hread := h.read_le
  have hwrite := h.write_le
  have hnext : (s.put c).e = UInt32.ofNat (E + 1) := by rw [← ofNat_succ, ← h.e]; rfl
  have hlen := h.length
  refine ⟨by omega, Nat.le_refl _, by omega, h.r, hnext, hnext, ?_, ?_⟩
  · show ed.committed ++ (ed.edit ++ [c]) = contents (s.put c).buf R (E + 1 - R)
    rw [show E + 1 - R = (W - R) + (E + 1 - W) by omega, contents_add, Nat.add_sub_cancel' hread, hput.1, hput.2]
  · rw [Nat.sub_self, contents_zero]
    rfl

theorem Between.insert {c : UInt8} (hlf : c ≠ LF) (heof : c ≠ ctrl 'D') :
    Between (s.put c) (ed.insert c hroom hlf heof) R W (E + 1) := by
  have hput := h.put hroom c
  have hwrite := h.write_le
  have hread := h.read_le
  have hlen := h.length
  refine ⟨hread, by omega, by omega, h.r, h.w, ?_, hput.1.symm, hput.2.symm⟩
  show s.e + 1 = _
  rw [h.e, ofNat_succ]

theorem Between.full_iff (c : UInt8) :
    (s.put c).e = (s.put c).r + UInt32.ofNat INPUT_BUF ↔
      ed.committed.length + ed.edit.length + 1 = INPUT_BUF := by
  have hread := h.read_le
  have hwrite := h.write_le
  have hlen := h.length
  have hnext : (s.put c).e = UInt32.ofNat (E + 1) := by rw [← ofNat_succ, ← h.e]; rfl
  have hlimit : (s.put c).r + UInt32.ofNat INPUT_BUF = UInt32.ofNat (R + INPUT_BUF) := by
    rw [UInt32.ofNat_add, ← h.r]
    rfl
  rw [hnext, hlimit, ofNat_eq_iff (by omega) (by omega)]
  omega

theorem Between.store (c : UInt8) :
    Represents (s.store c).1 (ed.store c hroom).1 ∧ (s.store c).2 = (ed.store c hroom).2 := by
  simp only [Input.store, Editor.store, h.full_iff hroom c]
  split_ifs with hc
  · exact ⟨⟨R, E + 1, E + 1, h.commit hroom c⟩, rfl⟩
  · exact ⟨⟨R, W, E + 1, h.insert hroom (fun he => hc (.inl he)) (fun he => hc (.inr (.inl he)))⟩, rfl⟩

end

theorem Represents.key (h : Represents s ed) (c : UInt8) :
    Represents (s.key c).1 (ed.key c).1 ∧ (s.key c).2 = (ed.key c).2 := by
  obtain ⟨R, W, E, h⟩ := h
  by_cases hP : c = ctrl 'P'
  · rw [Input.key, Editor.key, if_pos hP, if_pos hP]
    exact ⟨⟨R, W, E, h⟩, rfl⟩
  by_cases hU : c = ctrl 'U'
  · rw [Input.key, Editor.key, if_neg hP, if_neg hP, if_pos hU, if_pos hU]
    exact ⟨⟨R, W, W, h.erase⟩, rfl⟩
  by_cases hH : c = ctrl 'H' ∨ c = DEL
  · simp only [Input.key, Editor.key, if_neg hP, if_neg hU, if_pos hH]
    by_cases hempty : s.e = s.w
    · rw [if_neg (not_not.2 hempty)]
      have hE := h.empty_iff.1 hempty
      have hline := h.edit
      rw [hE, Nat.sub_self, contents_zero] at hline
      refine ⟨⟨R, W, E, { h with edit := ?_ }⟩, rfl⟩
      show ed.edit.dropLast = _
      rw [hline, hE, Nat.sub_self, contents_zero, List.dropLast_nil]
    · rw [if_pos hempty]
      have hlt : W < E := Nat.lt_of_le_of_ne h.write_le fun he => hempty (h.empty_iff.2 he)
      exact ⟨⟨R, W, E - 1, h.back hlt⟩, rfl⟩
  simp only [Input.key, Editor.key, if_neg hP, if_neg hU, if_neg hH]
  by_cases hroom : c ≠ 0 ∧ ed.committed.length + ed.edit.length < INPUT_BUF
  · rw [if_pos ⟨hroom.1, h.room_iff.2 hroom.2⟩, dif_pos hroom]
    exact h.store hroom.2 _
  · rw [if_neg fun hc => hroom ⟨hc.1, h.room_iff.1 hc.2⟩, dif_neg hroom]
    exact ⟨⟨R, W, E, h⟩, rfl⟩

theorem Represents.read (h : Represents s ed) (target n : Nat) :
    Represents (s.read target n).1 (ed.read target n).1 ∧
      (s.read target n).2 = (ed.read target n).2 := by
  induction n generalizing s ed with
  | zero => exact ⟨h, rfl⟩
  | succ n ih =>
    obtain ⟨R, W, E, h⟩ := h
    have hread := h.read_le
    have hwrite := h.write_le
    have hedit := h.edit_le
    have hempty : s.r = s.w ↔ R = W := by rw [h.r, h.w, ofNat_eq_iff hread (by omega)]
    rw [Input.read, Editor.read]
    by_cases hRW : R = W
    · rw [if_pos (hempty.2 hRW), h.committed, hRW, Nat.sub_self, contents_zero]
      exact ⟨⟨R, W, E, h⟩, rfl⟩
    · have hload : ed.committed = s.buf (slot s.r) :: contents s.buf (R + 1) (W - (R + 1)) := by
        rw [h.committed, show W - R = (W - (R + 1)) + 1 by omega, contents_load, h.r, slot_ofNat]
      have hnext : Between { s with r := s.r + 1 } ed.tail (R + 1) W E := by
        refine { h with read_le := by omega, edit_le := by omega, r := ?_, committed := ?_ }
        · rw [← ofNat_succ, ← h.r]
        · show ed.committed.tail = _
          rw [hload]
          rfl
      rw [if_neg fun he => hRW (hempty.1 he), hload]
      simp only
      split_ifs with heof hsave hlf
      · refine ⟨⟨R, W, E, ?_⟩, rfl⟩
        rwa [UInt32.add_sub_cancel]
      · exact ⟨⟨R + 1, W, E, hnext⟩, rfl⟩
      · exact ⟨⟨R + 1, W, E, hnext⟩, rfl⟩
      · obtain ⟨hrep, hout⟩ := ih ⟨R + 1, W, E, hnext⟩
        refine ⟨hrep, ?_⟩
        rw [hout]

end Key

end Xv6.Console
