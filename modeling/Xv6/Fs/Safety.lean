import Xv6.Fs.Reach

namespace Xv6.Fs

open Lib

section Safety

variable {sb : Super} {dev : Devsw} {s t : Kernel} {p : Fin NPROC} {disk : Nat → Block} {calls : List (Fin NPROC × Call)}

theorem Kernel.Good.stops (hsb : sb.Valid) (hs : s.Good sb) (hp : (s.proc p).cwd ≠ none) (c : Call) :
    Sat (c.run sb dev p) s (fun _ _ => ¬ c.SelfLink sb s p) fun e _ => (e = .asleep ∧ c.SelfLink sb s p) ∨
      ∃ q, e = .panic q ∧ (c.SelfLink sb s p → s.Crowded ∧ q = .igetNoInodes) := by
  by_cases hself : c.SelfLink sb s p
  · refine (call_ends (E := fun e => e = .asleep ∨ (s.Crowded ∧ e = .panic .igetNoInodes)) hsb hs hp c (fun _ => .inl rfl)
      (fun hnot => absurd hself hnot) fun hcrowd => .inr ⟨hcrowd, rfl⟩).mono (fun _ _ ht => ht.1) fun e _ he => ?_
    rcases he with rfl | ⟨hcrowd, rfl⟩
    · exact .inl ⟨rfl, hself⟩
    · exact .inr ⟨_, rfl, fun _ => ⟨hcrowd, rfl⟩⟩
  · refine (call_ends (E := fun e => ∃ q, e = .panic q) hsb hs hp c (fun hlink => absurd hlink hself) (fun _ q => ⟨q, rfl⟩)
      fun _ => ⟨_, rfl⟩).mono (fun _ _ ht => ht.1) fun e _ he => ?_
    obtain ⟨q, rfl⟩ := he
    exact .inr ⟨q, rfl, fun hlink => absurd hlink hself⟩

-- A call never takes a lock that it holds, unless it is a link of a name that its
-- directory has for itself. Such a link does, if iget finds slots for the walk.
theorem call_asleep (hsb : sb.Valid) (himage : Image sb disk)
    (hrun : run (Kernel.call sb dev) (boot disk) calls = some s) (hp : (s.proc p).cwd ≠ none) (c : Call) :
    (¬ c.SelfLink sb s p → ∀ t, c.run sb dev p s ≠ .error .asleep t) ∧
      (c.SelfLink sb s p → (∃ t, c.run sb dev p s = .error .asleep t) ∨
        s.Crowded ∧ ∃ t, c.run sb dev p s = .error (.panic .igetNoInodes) t) := by
  have hstops : Sat (c.run sb dev p) s _ _ := (run_good hsb himage hrun).stops hsb hp c
  constructor
  · intro hnot t ht
    rcases hstops.error ht with ⟨-, hself⟩ | ⟨q, hq, -⟩
    · exact hnot hself
    · exact nomatch hq
  · intro hself
    cases hc : c.run sb dev p s with
    | ok r t => exact absurd hself (hstops.ok hc)
    | error e t =>
      rcases hstops.error hc with ⟨rfl, -⟩ | ⟨q, rfl, hq⟩
      · exact .inl ⟨t, rfl⟩
      · obtain ⟨hcrowd, rfl⟩ := hq hself
        exact .inr ⟨hcrowd, t, rfl⟩

theorem call_asleep_unlink : tiny.Valid ∧ Image tiny tinyDisk ∧ ((boot tinyDisk).proc initproc).cwd ≠ none ∧
    ∀ t, (Call.unlink (some dot)).run tiny noDevices initproc (boot tinyDisk) ≠ .error .asleep t :=
  ⟨tiny_valid, tiny_image, by decide, (call_asleep tiny_valid tiny_image
    (rfl : run (Kernel.call tiny noDevices) (boot tinyDisk) [] = some (boot tinyDisk)) (by decide) _).1 id⟩

-- open("a", O_CREATE | O_RDWR)
def createA : Call := .openPath (some [97]) (some (UInt32.ofNat (O_CREATE + O_RDWR)))

-- link("a", ".") waits for the lock of the directory, which it has.
theorem link_dot_asleep : Image tiny tinyDisk ∧
    ∃ s, run (Kernel.call tiny noDevices) (boot tinyDisk) [(initproc, createA)] = some s ∧
    (s.proc initproc).cwd ≠ none ∧
    ∃ t, (Call.link (some [97]) (some dot)).run tiny noDevices initproc s = .error .asleep t := by
  have hany : (run (Kernel.call tiny noDevices) (boot tinyDisk) [(initproc, createA)]).any (fun s =>
      decide ((s.proc initproc).cwd ≠ none) &&
      match (Call.link (some [97]) (some dot)).run tiny noDevices initproc s with
      | .error .asleep _ => true
      | _ => false) = true := by decide +kernel
  obtain ⟨s, hrun, hs⟩ := exists_of_run_any hany
  rw [Bool.and_eq_true, decide_eq_true_eq] at hs
  refine ⟨tiny_image, s, hrun, hs.1, ?_⟩
  have hlink := hs.2
  split at hlink
  · rename_i t ht
    exact ⟨t, ht⟩
  · exact nomatch hlink

-- No transaction logs more blocks than it has reserved.
theorem run_maxOpBlocks (hsb : sb.Valid) (hbitmap : sb.bitmap.card = 1) (hs : s.Good sb)
    (hrun : run (Kernel.call sb dev) s calls = some t) :
    ∀ seg ∈ (txns t.trace).done, seg.toFinset.card ≤ MAXOPBLOCKS := by
  intro seg hseg
  have ht : t.Good sb := run_preserves hs (fun _ _ _ hs ht => hs.call hsb ht) hrun
  have hcap := ht.inv.capped seg hseg
  rw [Super.opBlocks, hbitmap] at hcap
  exact hcap

theorem run_maxOpBlocks_create : tiny.bitmap.card = 1 ∧ (boot tinyDisk).Good tiny ∧ ∃ s,
    run (Kernel.call tiny noDevices) (boot tinyDisk) [(initproc, createA)] = some s ∧ (txns s.trace).done ≠ [] ∧
      ∀ seg ∈ (txns s.trace).done, seg.toFinset.card ≤ MAXOPBLOCKS := by
  have hbitmap : tiny.bitmap.card = 1 := by decide
  have hany : (run (Kernel.call tiny noDevices) (boot tinyDisk) [(initproc, createA)]).any
      (fun s => (txns s.trace).done ≠ []) = true := by decide +kernel
  obtain ⟨s, hrun, hs⟩ := exists_of_run_any hany
  rw [decide_eq_true_eq] at hs
  have hgood := boot_good tiny_valid tiny_image
  exact ⟨hbitmap, hgood, s, hrun, hs, run_maxOpBlocks tiny_valid hbitmap hgood hrun⟩

-- A file that can be written is not one of a directory, so that no write changes
-- a directory.
theorem run_writable_not_dir (hsb : sb.Valid) (himage : Image sb disk)
    (hrun : run (Kernel.call sb dev) (boot disk) calls = some s) :
    (∀ f, 0 < (s.ftable f).ref → (s.ftable f).type = .inode → (s.ftable f).writable = true →
      (s.icache (s.ftable f).ip).valid = true ∧ (s.icache (s.ftable f).ip).copy.type ≠ T_DIR ∧
      ∃ n, s.nodes sb (s.icache (s.ftable f).ip).inum = some n ∧ n.type ≠ T_DIR) ∧
    ∀ p fd src t, (Call.write fd src).run sb dev p s = .ok () t →
      ∀ d n, s.nodes sb d = some n → n.type = T_DIR → t.nodes sb d = some n := by
  have hs := run_good hsb himage hrun
  constructor
  · intro f _ hf hw
    have hpos : 0 < s.refs (s.ftable f).ip := Kernel.refs_pos_file hf
    obtain ⟨ty, hkind, hty⟩ := hs.good.files f hf hw
    obtain ⟨hv, htype⟩ := hs.inv.kind_eq _ ty hpos hkind
    have hne : (s.icache (s.ftable f).ip).copy.type ≠ T_DIR := by
      rw [htype]
      exact hty
    have href : 0 < (s.icache (s.ftable f).ip).ref := hs.inv.ref_pos (.inr ⟨hpos, rfl⟩)
    have hcopy := hs.inv.coherent.copy _ href hv
    have halloc := hs.inv.coherent.alloc _ href hv
    rw [hcopy] at halloc
    refine ⟨hv, hne, _, if_neg halloc, ?_⟩
    rw [hcopy] at hne
    exact hne
  · intro p fd src t ht
    have hwrite : Sat ((Call.write fd src).run sb dev p) s (fun _ t => (store sb s.disk).SameDirs (store sb t.disk))
        fun _ _ => True := by
      refine ignore_sat (sat_argfd ?_)
      split
      · refine (filewrite_sess (E := fun _ => True) hsb (fun _ => trivial) hs.good hs.inv Kernel.refs_pos_file).bind
          fun r u hu => ?_
        split
        · exact hu.2
        · exact hu.2
      · exact fun _ _ hm _ => hm
    exact hwrite.ok ht

theorem run_writable_not_dir_create : ∃ s, run (Kernel.call tiny noDevices) (boot tinyDisk) [(initproc, createA)] = some s ∧
    (∃ f, 0 < (s.ftable f).ref ∧ (s.ftable f).type = .inode ∧ (s.ftable f).writable = true) ∧
    ∀ f, 0 < (s.ftable f).ref → (s.ftable f).type = .inode → (s.ftable f).writable = true →
      (s.icache (s.ftable f).ip).copy.type ≠ T_DIR := by
  have hany : (run (Kernel.call tiny noDevices) (boot tinyDisk) [(initproc, createA)]).any (fun s =>
      ∃ f, 0 < (s.ftable f).ref ∧ (s.ftable f).type = .inode ∧ (s.ftable f).writable = true) = true := by decide +kernel
  obtain ⟨s, hrun, hs⟩ := exists_of_run_any hany
  rw [decide_eq_true_eq] at hs
  have hfiles := (run_writable_not_dir tiny_valid tiny_image hrun).1
  exact ⟨s, hrun, hs, fun f href hf hw => (hfiles f href hf hw).2.1⟩

end Safety

end Xv6.Fs
