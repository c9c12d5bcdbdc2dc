import Xv6.Vm.Conserve

namespace Xv6.Vm

open Lib
open Fs (PGSIZE)

-- A write of the kernel goes into the page that pgdir maps present and for the
-- user at its address, and not beyond.
def Mem.UserStore (m : Mem) (pgdir : Nat) (w : Store) : Prop :=
  (m.page pgdir (pdx (w.va / PGSIZE))).p = true ∧
  (m.page (m.page pgdir (pdx (w.va / PGSIZE))).ppn (ptx (w.va / PGSIZE))).p = true ∧
  (m.page (m.page pgdir (pdx (w.va / PGSIZE))).ppn (ptx (w.va / PGSIZE))).u = true ∧
  (m.page (m.page pgdir (pdx (w.va / PGSIZE))).ppn (ptx (w.va / PGSIZE))).ppn = w.ppn ∧
  w.va % PGSIZE + w.bytes.length ≤ PGSIZE

-- exec has loaded the file: a new page directory with an image of size sz.
def Loads (k : Symbols) (deny : Nat → Bool) (file : File) (m : Mem) (pgdir sz : Nat) (u : Mem) : Prop :=
  ∃ bytes s, readAll file 0 Fs.ELFHDR = some bytes ∧ (Fs.Elfhdr.ofBytes bytes).magic = Fs.ELF_MAGIC ∧
    setupkvm k deny m = .ok (some pgdir) s ∧
    loadImage k deny pgdir file (Fs.Elfhdr.ofBytes bytes) s = .ok (some sz) u

-- exec finds every page table entry it looks for, so that it returns; from the
-- loaded image u on it writes into user pages of pgdir only; and it returns -1
-- if the arguments do not fit the stack page.
def PushesArgs (k : Symbols) (deny : Nat → Bool) (file : File) (argv : List (List UInt8)) (old : Nat)
    (m : Mem) (pgdir sz : Nat) (u : Mem) : Prop :=
  ∃ r t, exec k deny file argv old m = .ok r t ∧
    (∃ new, t.stores = u.stores ++ new ∧ ∀ w ∈ new, u.UserStore pgdir w) ∧ (r.isSome ↔ Fits sz argv)

variable {k : Symbols} {deny : Nat → Bool} {m u : Mem} {A B : Spaces} {d sz : Nat} {file : File}
variable {argv : List (List UInt8)} {old : Nat}

theorem Rep.userStore {w : Store} (h : Rep k m A) (hd : A.Live d) (hw : A.Holds d w) : m.UserStore d w := by
  obtain ⟨e, he, hu, hppn, hfit⟩ := hw
  obtain ⟨hp, hv, hsome⟩ := h.present d _ e hd he
  obtain ⟨t, ht⟩ := Option.isSome_iff_exists.1 hsome
  have hentry := h.entry hd hv ht
  rw [he, Option.getD_some] at hentry
  unfold Mem.UserStore
  rw [h.dirs d hd, ht]
  simp only [pde, hentry]
  exact ⟨trivial, hp, hu, hppn, hfit⟩

def finishExec (k : Symbols) (deny : Nat → Bool) (argv : List (List UInt8)) (old pgdir sz : Nat) :
    VmM (Option Image) := do
  match ← pushArgs deny pgdir sz argv with
  | none =>
    freevm k deny pgdir
    return none
  | some sp =>
    freevm k deny old
    return some { pgdir := pgdir, sz := sz, sp := sp }

theorem exec_of_loads (hload : Loads k deny file m d sz u) :
    exec k deny file argv old m = finishExec k deny argv old d sz u := by
  obtain ⟨bytes, s, hread, hmagic, hsetup, himage⟩ := hload
  unfold exec
  rw [hread]
  dsimp only
  rw [if_neg (not_not.2 hmagic), bind_of_ok hsetup]
  dsimp only
  rw [bind_of_ok himage]
  rfl

theorem Loads.stack (hload : Loads k deny file m d sz u) (h : Rep k m A) :
    ∃ B, Rep k u B ∧ Opens d A B ∧ Stack k d sz B := by
  obtain ⟨bytes, s, -, -, hsetup, himage⟩ := hload
  obtain ⟨B, hl, hopened⟩ := (setupkvm_sat (E := fun _ _ => True) h).ok hsetup
  obtain ⟨C, hC, hext, hstack⟩ := (loadImage_sat (E := fun _ _ => True) hl.rep hopened.opens.live
    (hopened.heap hl.rep)).ok himage
  exact ⟨C, hC.rep, hopened.opens.extend hext.grows, hstack sz rfl⟩

theorem finishExec_sat (hs : Stack k d sz B) (h : Rep k u B) (hd : B.Live d) (hold : B.Live old)
    (hargs : ∀ arg ∈ argv, arg.length < KERNBASE) :
    Sat (finishExec k deny argv old d sz) u
      (fun r t => place sz argv 0 sz ≠ .gap ∧
        (∃ new, t.stores = u.stores ++ new ∧ ∀ w ∈ new, u.UserStore d w) ∧ (r.isSome ↔ Fits sz argv))
      (fun e _ => place sz argv 0 sz = .gap ∧ e = .nullPte) := by
  have hstores : ∀ t v : Mem, Wrote k u t B d → v.stores = t.stores →
      ∃ new, v.stores = u.stores ++ new ∧ ∀ w ∈ new, u.UserStore d w := by
    intro t v ht hv
    obtain ⟨new, hnew, hall⟩ := ht.stores
    exact ⟨new, by rw [hv, hnew], fun w hw => h.userStore hd (hall w hw)⟩
  refine Sat.bind (P := fun r t => Wrote k u t B d ∧ place sz argv 0 sz ≠ .gap ∧ (r.isSome ↔ Fits sz argv)) ?_ ?_
  · exact (pushArgs_sat hs h hd hargs).mono (fun _ _ hr => hr) fun _ _ hr => hr.2
  · rintro (_ | sp) t ⟨ht, hplace, hfits⟩
    · refine (freevm_sat ht.rep hd).bind fun _ v hv => ?_
      exact ⟨hplace, hstores t v ht hv.stores, hfits⟩
    · refine (freevm_sat ht.rep hold).bind fun _ v hv => ?_
      exact ⟨hplace, hstores t v ht hv.stores, hfits⟩

def emptyHeader : List UInt8 := [0x7f, 0x45, 0x4c, 0x46] ++ List.replicate 48 0

def emptyElf : File := fun _ n => some (emptyHeader.take n)

theorem emptyElf_loads (h : Rep k m A) (hfree : 1093 ≤ m.freelist.length)
    (hdeny : ∀ call, deny call = false) : ∃ pgdir u, Loads k deny emptyElf m pgdir (2 * PGSIZE) u := by
  obtain ⟨d, s, B, hsetup, hl, hopened⟩ := setupkvm_ok h (by omega) hdeny
  have hle := hopened.freelist_le h hl.rep
  have hphnum : (Fs.Elfhdr.ofBytes emptyHeader).phnum.toNat = 0 := by decide
  obtain ⟨u, hu⟩ := loadImage_ok hl.rep hopened.opens.live (hopened.heap hl.rep) (by omega) hdeny hphnum
  exact ⟨d, u, emptyHeader, s, by decide, by decide, hsetup, hu⟩

theorem exists_caller : ∃ s old A,
    run (Vms.step Vms.smallKernel) (Vms.boot Vms.smallKernel)
      [(fun _ => false, .setupkvm), (fun _ => false, .allocuvm old 0 0x3001000)] = some s ∧
    s.ok = true ∧ Rep Vms.smallKernel s.mem A ∧ A.Live old ∧ 1093 ≤ s.mem.freelist.length := by
  have hcount : pages 0x3001000 = 12289 := by decide
  obtain ⟨old, t, u, A, hsetup, halloc, h, hlive, -, hle⟩ :=
    Vms.exists_heap 0x3001000 (by decide) (by decide) (by rw [hcount]; decide)
  rw [hcount, NPDENTRIES] at hle
  refine ⟨{ mem := u, dirs := [old], ok := true }, old, A, ?_, rfl, h, hlive, ?_⟩
  · simp only [run, hsetup, halloc, Option.bind_some]
  · show 1093 ≤ u.freelist.length
    omega

theorem exec_gap_nullPte {s : Vms} (h : Rep k s.mem A) (hold : A.Live old)
    (hfree : 1093 ≤ s.mem.freelist.length) (hdeny : ∀ call, deny call = false)
    (hargs : ∀ arg ∈ argv, arg.length < KERNBASE)
    (hgap : place (2 * PGSIZE) argv 0 (2 * PGSIZE) = .gap) :
    ∃ t, exec k deny emptyElf argv old s.mem = .error .nullPte t := by
  obtain ⟨pgdir, u, hload⟩ := emptyElf_loads h hfree hdeny
  obtain ⟨B, hB, hopens, hstack⟩ := hload.stack h
  have hsat : Sat (finishExec k deny argv old pgdir (2 * PGSIZE)) u _ _ :=
    finishExec_sat hstack hB hopens.live (hopens.old hold).1 hargs
  rw [exec_of_loads hload]
  cases hr : finishExec k deny argv old pgdir (2 * PGSIZE) u with
  | ok r t => exact absurd hgap (hsat.ok hr).1
  | error e t =>
    rw [(hsat.error hr).2]
    exact ⟨t, rfl⟩

-- It does so unless a string that does not fit puts the stack pointer into the
-- gap of the kernel half that has no page tables.
theorem pushesArgs_iff {pgdir : Nat} (h : Rep k m A) (hold : A.Live old)
    (hargs : ∀ arg ∈ argv, arg.length < KERNBASE) (hload : Loads k deny file m pgdir sz u) :
    PushesArgs k deny file argv old m pgdir sz u ↔ place sz argv 0 sz ≠ .gap := by
  obtain ⟨B, hB, hopens, hstack⟩ := hload.stack h
  have hsat : Sat (finishExec k deny argv old pgdir sz) u _ _ :=
    finishExec_sat hstack hB hopens.live (hopens.old hold).1 hargs
  rw [PushesArgs, exec_of_loads hload]
  cases hr : finishExec k deny argv old pgdir sz u with
  | ok r t =>
    obtain ⟨hplace, hpost⟩ := hsat.ok hr
    exact ⟨fun _ => hplace, fun _ => ⟨r, t, rfl, hpost⟩⟩
  | error e t =>
    obtain ⟨hplace, -⟩ := hsat.error hr
    refine ⟨?_, fun hne => absurd hplace hne⟩
    rintro ⟨r, v, hc, -⟩
    cases hc

theorem pushesArgs_iff_sh : ∃ s old pgdir u,
    run (Vms.step Vms.smallKernel) (Vms.boot Vms.smallKernel)
      [(fun _ => false, .setupkvm), (fun _ => false, .allocuvm old 0 0x3001000)] = some s ∧
    PushesArgs Vms.smallKernel (fun _ => false) emptyElf [[115, 104]] old s.mem pgdir (2 * PGSIZE) u := by
  obtain ⟨s, old, A, hrun, -, h, hold, hfree⟩ := exists_caller
  obtain ⟨pgdir, u, hload⟩ := emptyElf_loads h hfree (fun _ => rfl)
  have hargs : ∀ arg ∈ [([115, 104] : List UInt8)], arg.length < KERNBASE := by decide
  exact ⟨s, old, pgdir, u, hrun, (pushesArgs_iff h hold hargs hload).2 (by decide)⟩

-- A string of 48 MB makes exec follow the null pointer that walkpgdir returns:
-- the stack pointer becomes 0xfd002000.
theorem longString_nullPte : ∃ s old t,
    run (Vms.step Vms.smallKernel) (Vms.boot Vms.smallKernel)
      [(fun _ => false, .setupkvm), (fun _ => false, .allocuvm old 0 0x3001000)] = some s ∧ s.ok = true ∧
    exec Vms.smallKernel (fun _ => false) emptyElf [List.replicate 0x2ffffff 97] old s.mem =
      .error .nullPte t := by
  obtain ⟨s, old, A, hrun, hok, h, hold, hfree⟩ := exists_caller
  have hlen : (List.replicate 0x2ffffff (97 : UInt8)).length = 0x2ffffff := List.length_replicate
  generalize List.replicate 0x2ffffff (97 : UInt8) = arg at hlen ⊢
  have hargs : ∀ arg' ∈ [arg], arg'.length < KERNBASE := by
    intro arg' harg
    rw [List.mem_singleton.1 harg, hlen]
    decide
  have hgap : place (2 * PGSIZE) [arg] 0 (2 * PGSIZE) = .gap := by
    simp only [place, hlen]
    decide
  obtain ⟨t, ht⟩ := exec_gap_nullPte h hold hfree (fun _ => rfl) hargs hgap
  exact ⟨s, old, t, hrun, hok, ht⟩

end Xv6.Vm
