import Xv6.Fs.Reach

namespace Xv6.Fs

open Function Lib

-- The calls that take a path and return 0, a descriptor or -1.
inductive PathCall
  | openPath (path : Option (List UInt8)) (omode : Option UInt32)
  | link (old new : Option (List UInt8))
  | unlink (path : Option (List UInt8))
  | mkdir (path : Option (List UInt8))
  | mknod (path : Option (List UInt8)) (majorMinor : Option (UInt16 × UInt16))
  | chdir (path : Option (List UInt8))

def PathCall.run (sb : Super) (dev : Devsw) (p : Fin NPROC) : PathCall → FsM Int
  | openPath path omode => sysOpen sb dev p path omode
  | link old new => sysLink sb dev p old new
  | unlink path => sysUnlink sb dev p path
  | mkdir path => sysMkdir sb dev p path
  | mknod path majorMinor => sysMknod sb dev p path majorMinor
  | chdir path => sysChdir sb dev p path

-- Nothing of the file system has changed: the inodes with their contents, the
-- bitmap, the tables of files and processes and the references to inodes.
structure Unchanged (sb : Super) (s t : Kernel) : Prop where
  store_eq : store sb t.disk = store sb s.disk
  ftable : t.ftable = s.ftable
  proc : t.proc = s.proc
  ref : ∀ ip, (t.icache ip).ref = (s.icache ip).ref
  inum : ∀ ip, 0 < (s.icache ip).ref → (t.icache ip).inum = (s.icache ip).inum

-- An open that makes a new file for which there is no slot in the file table or
-- no descriptor.
def PathCall.Exhausted (sb : Super) (s : Kernel) (p : Fin NPROC) : PathCall → Prop
  | .openPath (some path) (some omode) => ∃ cp, (s.proc p).cwd = some cp ∧
      (omode &&& UInt32.ofNat O_CREATE ≠ 0 ∧ (Sess.start sb s).Absent path (s.icache cp).inum) ∧ s.Full p
  | _ => False

section Atomic

variable {sb : Super} {dev : Devsw} {s t : Kernel} {p : Fin NPROC}

theorem Kernel.Good.unchanged (hs : s.Good sb) (h : Inv sb (Sess.start sb s).calm t) : Unchanged sb s t := by
  have htabs : t.tabs = s.tabs := h.tabs_eq
  have href : ∀ ip, (t.icache ip).ref = (s.icache ip).ref := fun ip => (h.ref_eq ip).trans (hs.inv.ref_eq ip).symm
  refine ⟨h.store_eq, congrArg Tabs.ftable htabs, congrArg Tabs.proc htabs, href, fun ip hpos => ?_⟩
  rw [hs.inv.ref_eq ip] at hpos
  change 0 < s.refs ip + 0 at hpos
  rw [add_zero] at hpos
  exact h.key_eq ip hpos

theorem Kernel.Good.failed (hsb : sb.Valid) (hs : s.Good sb) (hp : (s.proc p).cwd ≠ none) (c : PathCall) :
    Sat (c.run sb dev p) s (fun r t => r = -1 →
      (¬ c.Exhausted sb s p ∧ Unchanged sb s t) ∨ (c.Exhausted sb s p ∧ store sb t.disk ≠ store sb s.disk))
      fun _ _ => True := by
  obtain ⟨cp, hcwd⟩ : ∃ cp, (s.proc p).cwd = some cp := Option.ne_none_iff_exists'.1 hp
  have hE : ∀ q, (fun _ : Stop => True) (.panic q) := fun _ => trivial
  have hcp : 0 < s.refs cp := Kernel.refs_pos_cwd hcwd
  have hseat := hs.good.seat hcwd hcp
  have hfailed : ∀ {c : PathCall} {m : FsM Int}, ¬ c.Exhausted sb s p →
      (Sat m s (fun r t => r = -1 → Inv sb (Sess.start sb s).calm t) fun _ _ => True) →
      Sat m s (fun r t => r = -1 → (¬ c.Exhausted sb s p ∧ Unchanged sb s t) ∨
        (c.Exhausted sb s p ∧ store sb t.disk ≠ store sb s.disk)) fun _ _ => True :=
    fun hnot hm => hm.post fun _ _ ht hr => .inl ⟨hnot, hs.unchanged (ht hr)⟩
  have hnode : ∀ {m : FsM Int} {P : Kernel → Prop}, (Sat m s (fun r t => (r = -1 ∧ Inv sb (Sess.start sb s).calm t) ∨
      (r = 0 ∧ P t)) fun _ _ => True) → Sat m s (fun r t => r = -1 → Inv sb (Sess.start sb s).calm t) fun _ _ => True := by
    refine fun hm => hm.post fun r t ht hr => ?_
    rcases ht with ⟨-, ht⟩ | ⟨h0, -⟩
    · exact ht
    · exact absurd (h0.symm.trans hr) (by decide)
  cases c with
  | openPath path omode =>
    cases path with
    | none => exact hfailed id fun _ => hs.inv
    | some path =>
      cases omode with
      | none => exact hfailed id fun _ => hs.inv
      | some omode =>
        have hiff : PathCall.Exhausted sb s p (.openPath (some path) (some omode)) ↔
            (omode &&& UInt32.ofNat O_CREATE ≠ 0 ∧ (Sess.start sb s).Absent path (s.icache cp).inum) ∧ s.Full p := by
          constructor
          · rintro ⟨cp', hcwd', hboth⟩
            cases hcwd.symm.trans hcwd'
            exact hboth
          · exact fun hboth => ⟨cp, hcwd, hboth⟩
        rw [hiff]
        refine (sysOpen_sess hsb hE hs.good hseat hs.settled.accounts.closed (fun _ => Kernel.refs_pos_file) hs.inv
          omode).post fun r t ht hr => ?_
        rcases ht with ⟨-, hnot, ht⟩ | ⟨-, hfull, i, st, hfree, hmade, -, ht⟩ | ⟨hpos, -⟩
        · exact .inl ⟨hnot, hs.unchanged ht⟩
        · refine .inr ⟨hfull, fun hsame => hmade ?_⟩
          have hst : store sb t.disk = st := ht.store_eq
          rw [← hst, hsame]
          exact hfree
        · rw [hr] at hpos
          exact absurd hpos (by decide)
  | link old new =>
    refine hfailed id ?_
    cases old with
    | none => exact fun _ => hs.inv
    | some old =>
      cases new with
      | none => exact fun _ => hs.inv
      | some new => exact hnode ((sysLink_sess hsb hseat hs.inv (fun _ => trivial) (fun _ => hE)
          fun _ => trivial).post fun _ _ ht => ht.2)
  | unlink path =>
    refine hfailed id ?_
    cases path with
    | none => exact fun _ => hs.inv
    | some path => exact hnode (sysUnlink_sess hsb hE hseat hs.inv)
  | mkdir path => exact hfailed id (hnode (makeNode_sess hsb hE hseat hs.inv (by decide) (by decide) path _))
  | mknod path majorMinor =>
    exact hfailed id (hnode (makeNode_sess hsb hE hseat hs.inv (by decide) (by decide) path majorMinor))
  | chdir path =>
    exact hfailed id (hnode (sysChdir_sess hsb hE hs.good hcwd hcp (fun _ => Kernel.refs_pos_file) hs.inv path))

theorem failed_unchanged_iff (hsb : sb.Valid) (hs : s.Good sb) (hp : (s.proc p).cwd ≠ none) {c : PathCall}
    (hc : c.run sb dev p s = .ok (-1) t) : Unchanged sb s t ↔ ¬ c.Exhausted sb s p := by
  rcases (hs.failed hsb hp c).ok hc rfl with ⟨hnot, hsame⟩ | ⟨hfull, hdiff⟩
  · exact iff_of_true hsame hnot
  · exact iff_of_false (fun hsame => hdiff hsame.store_eq) (not_not_intro hfull)

-- unlink("a") when there is no a.
theorem failed_unchanged_iff_unlink : (boot tinyDisk).Good tiny ∧ ((boot tinyDisk).proc initproc).cwd ≠ none ∧
    ∃ t, (PathCall.unlink (some [97])).run tiny noDevices initproc (boot tinyDisk) = .ok (-1) t ∧
      Unchanged tiny (boot tinyDisk) t := by
  have hgood := boot_good tiny_valid tiny_image
  have hret : (match (PathCall.unlink (some [97])).run tiny noDevices initproc (boot tinyDisk) with
      | .ok r _ => decide (r = -1)
      | .error _ _ => false) = true := by decide +kernel
  split at hret
  · rename_i r t ht
    rw [decide_eq_true_eq] at hret
    rw [hret] at ht
    exact ⟨hgood, by decide, t, ht, (failed_unchanged_iff tiny_valid hgood (by decide) ht).2 id⟩
  · exact nomatch hret

-- A process with all its descriptors in use: open("a", O_CREATE) and fifteen
-- times dup(0).
def allOpen : List (Fin NPROC × Call) :=
  (initproc, .openPath (some [97]) (some (UInt32.ofNat O_CREATE))) :: List.replicate 15 (initproc, .dup (some 0))

-- open("b", O_CREATE) then returns -1, and the directory has b.
theorem open_full_creates : ∃ s, run (Kernel.call tiny noDevices) (boot tinyDisk) allOpen = some s ∧
    ∃ t, (PathCall.openPath (some [98]) (some (UInt32.ofNat O_CREATE))).run tiny noDevices initproc s = .ok (-1) t ∧
      ((s.nodes tiny 3).isNone ∧ (t.nodes tiny 3).isSome) ∧ ¬ Unchanged tiny s t := by
  have hany : (run (Kernel.call tiny noDevices) (boot tinyDisk) allOpen).any (fun s =>
      match (PathCall.openPath (some [98]) (some (UInt32.ofNat O_CREATE))).run tiny noDevices initproc s with
      | .ok r t => decide (r = -1 ∧ (s.nodes tiny 3).isNone = true ∧ (t.nodes tiny 3).isSome = true)
      | .error _ _ => false) = true := by decide +kernel
  obtain ⟨s, hrun, hs⟩ := exists_of_run_any hany
  refine ⟨s, hrun, ?_⟩
  split at hs
  · rename_i r t ht
    rw [decide_eq_true_eq] at hs
    obtain ⟨rfl, hnone, hsome⟩ := hs
    refine ⟨t, ht, ⟨hnone, hsome⟩, fun hsame => ?_⟩
    have hnodes : t.nodes tiny = s.nodes tiny := congrArg Store.node hsame.store_eq
    rw [hnodes, Option.isNone_iff_eq_none.1 hnone] at hsome
    exact nomatch hsome
  · exact nomatch hs

-- filewrite of a regular file writes all or fails. When it fails the file stays
-- as it was, unless the first transaction has room and the whole buffer has not.
theorem filewrite_fails_iff (hsb : sb.Valid) (hs : s.Good sb) {f : Fin NFILE} {n : Node} {src : List UInt8} {r : Option Nat}
    (htype : (s.ftable f).type = .inode) (hn : s.nodes sb (s.icache (s.ftable f).ip).inum = some n)
    (hfile : n.type = T_FILE)
    (hc : filewrite sb dev f src s = .ok r t) :
    (∀ k, r = some k → k = src.length ∧
      t.nodes sb = update (s.nodes sb) (s.icache (s.ftable f).ip).inum
        (some (n.splice src (s.ftable f).off.toNat)) ∧
      t.ftable f = { s.ftable f with off := (s.ftable f).off + UInt32.ofNat src.length }) ∧
    (r = none → ((t.nodes sb = s.nodes sb ∧ t.ftable f = s.ftable f) ↔
      ¬ ((s.ftable f).writable = true ∧ n.Room (s.ftable f).off.toNat (min src.length maxChunk) ∧
        ¬ n.Room (s.ftable f).off.toNat src.length))) := by
  have hdev : n.type ≠ T_DEV := by
    rw [hfile]
    decide
  have hwrite : Sat (filewrite sb dev f src) s (fun r t => (r = none ∧ (s.ftable f).writable = false ∧ t = s) ∨
      ((s.ftable f).writable = true ∧ ∃ b, r = (if b then some src.length else none) ∧
        Chunked sb (Sess.start sb s) s f n src b t)) fun _ _ => True := by
    refine sat_getFile (Sat.ite (fun hw => .inl ⟨rfl, hw, rfl⟩) fun hw => ?_)
    rw [htype]
    have hw : (s.ftable f).writable = true := Bool.eq_true_of_not_eq_false hw
    refine (filewriteLoop_chunked (E := fun _ => True) hsb (fun _ => trivial) src.length (le_refl _) hs.good hs.inv htype hw
      (Kernel.refs_pos_file htype) hn hdev).bind fun b t ht => .inr ⟨hw, b, ?_, ht⟩
    cases b <;> rfl
  rcases hwrite.ok hc with ⟨rfl, hw, rfl⟩ | ⟨hw, b, rfl, hch⟩
  · refine ⟨fun _ hr => (nomatch hr), fun _ => iff_of_true ⟨rfl, rfl⟩ fun h => ?_⟩
    rw [hw] at h
    exact nomatch h.1
  · cases b with
    | true =>
      refine ⟨fun k hr => ⟨(Option.some.inj hr).symm, hch.written rfl⟩, fun hr => nomatch hr⟩
    | false =>
      refine ⟨fun _ hr => (nomatch hr), fun _ => ?_⟩
      have hnot : ¬ n.Room (s.ftable f).off.toNat src.length := fun hroom => nomatch hch.room.2 (.inr hroom)
      by_cases hfirst : n.Room (s.ftable f).off.toNat (min src.length maxChunk)
      · have hcut := hch.cut rfl hfirst
        refine iff_of_false (fun hsame => ?_) fun h => h ⟨hw, hfirst, hnot⟩
        rw [hsame.2] at hcut
        exact lt_irrefl _ hcut
      · obtain ⟨hstore, hsame⟩ := hch.refused rfl hfirst
        exact iff_of_true ⟨congrArg Store.node hstore, hsame⟩ fun h => hfirst h.2.1

def file0 : Fin NFILE := ⟨0, by decide⟩

-- write(0, "hi", 2) after open("a", O_CREATE | O_RDWR).
theorem filewrite_fails_iff_create : ∃ s t n, s.Good tiny ∧ (s.ftable file0).type = .inode ∧
    s.nodes tiny (s.icache (s.ftable file0).ip).inum = some n ∧ n.type = T_FILE ∧
    filewrite tiny noDevices file0 [104, 105] s = .ok (some 2) t ∧
    t.nodes tiny (s.icache (s.ftable file0).ip).inum = some (n.splice [104, 105] (s.ftable file0).off.toNat) := by
  have hany : (run (Kernel.call tiny noDevices) (boot tinyDisk)
      [(initproc, .openPath (some [97]) (some (UInt32.ofNat (O_CREATE + O_RDWR))))]).any (fun s =>
      decide ((s.ftable file0).type = .inode) &&
      (s.nodes tiny (s.icache (s.ftable file0).ip).inum).any (fun n => n.type = T_FILE) &&
      match filewrite tiny noDevices file0 [104, 105] s with
      | .ok r _ => decide (r = some 2)
      | .error _ _ => false) = true := by decide +kernel
  obtain ⟨s, hrun, hs⟩ := exists_of_run_any hany
  simp only [Bool.and_eq_true, decide_eq_true_eq] at hs
  obtain ⟨⟨htype, hnode⟩, hret⟩ := hs
  cases hn : s.nodes tiny (s.icache (s.ftable file0).ip).inum with
  | none =>
    rw [hn] at hnode
    exact nomatch hnode
  | some n =>
    rw [hn, Option.any_some, decide_eq_true_eq] at hnode
    split at hret
    · rename_i r t ht
      rw [decide_eq_true_eq] at hret
      rw [hret] at ht
      have hgood := run_good tiny_valid tiny_image hrun
      have hwritten := (filewrite_fails_iff tiny_valid hgood htype hn hnode ht).1 2 rfl
      refine ⟨s, t, n, hgood, htype, hn, hnode, ht, ?_⟩
      rw [hwritten.2.1, update_self]
    · exact nomatch hret

-- A disk of 160 blocks with a file f of the largest size.
def big : Super := { size := 160, nblocks := 155, ninodes := 16, inodestart := 2, bmapstart := 4 }

def bigRoot : Dinode :=
  { Dinode.fresh T_DIR with
    nlink := 1, size := 48, addrs := update (fun _ => 0) ⟨0, Nat.succ_pos NDIRECT⟩ 5 }

def bigFile : Dinode :=
  { Dinode.fresh T_FILE with
    nlink := 1, size := UInt32.ofNat (MAXFILE * BSIZE), addrs := fun k => UInt32.ofNat (6 + k.val) }

def bigEntries : List UInt8 := tinyEntries ++ Dirent.bytes { inum := 2, name := strncpy DIRSIZ [102] }

def bigDisk : Nat → Block
  | 2 => putDinode (putDinode zeroBlock ROOTINO bigRoot) 2 bigFile
  | 4 => zeroBlock.put 0 (List.replicate 18 0xff ++ [7])
  | 5 => zeroBlock.put 0 bigEntries
  | 18 => zeroBlock.put 0 ((List.range NINDIRECT).flatMap fun j => [UInt8.ofNat (19 + j), 0, 0, 0])
  | _ => zeroBlock

-- The file f is open at the offset from which the last chunk fits.
def nearEnd (s : Kernel) : Kernel :=
  s.setFile file0 { s.ftable file0 with off := UInt32.ofNat (MAXFILE * BSIZE - maxChunk) }

-- write(0, buf, 1537) then fails after it has written 1536 bytes.
theorem filewrite_cut : ∃ s, run (Kernel.call big noDevices) (boot bigDisk)
      [(initproc, .openPath (some [102]) (some (UInt32.ofNat O_RDWR)))] = some s ∧
    ∃ t, filewrite big noDevices file0 (List.replicate (maxChunk + 1) 1) (nearEnd s) = .ok none t ∧
      (t.ftable file0).off ≠ ((nearEnd s).ftable file0).off := by
  have hany : (run (Kernel.call big noDevices) (boot bigDisk)
      [(initproc, .openPath (some [102]) (some (UInt32.ofNat O_RDWR)))]).any (fun s =>
      match filewrite big noDevices file0 (List.replicate (maxChunk + 1) 1) (nearEnd s) with
      | .ok r t => decide (r = none ∧ (t.ftable file0).off ≠ ((nearEnd s).ftable file0).off)
      | .error _ _ => false) = true := by decide +kernel
  obtain ⟨s, hrun, hs⟩ := exists_of_run_any hany
  refine ⟨s, hrun, ?_⟩
  split at hs
  · rename_i r t ht
    rw [decide_eq_true_eq] at hs
    obtain ⟨rfl, hoff⟩ := hs
    exact ⟨t, ht, hoff⟩
  · exact nomatch hs

end Atomic

end Xv6.Fs
