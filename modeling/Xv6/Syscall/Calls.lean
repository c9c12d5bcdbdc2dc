import Xv6.Console
import Xv6.Fs.Boot
import Xv6.Syscall.Args

namespace Xv6.Syscall

open Lib
open Vm (KERNBASE)

variable {w t : World} {e : Env} {p n uargv : UInt32} {f : Fin NFILE}

variable {E : Fs.Stop → World → Prop}

theorem setArgv_reads {i : Nat} {arg : UInt32} (hi : i < MAXARG) (w : World) :
    Sat (setArgv i arg) w (fun _ => Reads w) E := by
  refine ⟨⟨rfl, rfl, fun _ _ ha => .inl ha, fun s hs => ?_⟩, rfl⟩
  obtain hs | hs := List.mem_append.1 hs
  · exact .inl hs
  · rw [List.mem_singleton.1 hs]
    exact .inr hi

theorem IsString.of_reads {u : UInt32} (h : IsString t.user p u) (ht : Reads w t) : IsString w.user p u := by
  unfold IsString at h ⊢
  rwa [ht.sz, ht.mem] at h

theorem IsString.fits {len : UInt32} (h : IsString w.user p len) : Fits w.user.sz p (len.toNat + 1) := fun _ => h.1

-- The loop of sys_exec ends for any array of pointers.
theorem argvFrom_reads (i : Nat) :
    Sat (argvFrom uargv i) w (fun r t => Reads w t ∧ ∀ strings, r = some strings →
      ∀ x ∈ strings, IsString w.user x.1 x.2) E := by
  induction hk : MAXARG - i generalizing i w with
  | zero =>
    unfold argvFrom
    rw [if_pos (by omega)]
    exact ⟨refl_of Reads w, nofun⟩
  | succ k ih =>
    have hi : i < MAXARG := by omega
    unfold argvFrom
    rw [if_neg (by omega)]
    refine fetchint_reads.bind ?_
    rintro (_ | uarg) t ⟨ht, -⟩
    · exact ⟨ht, nofun⟩
    refine Sat.ite (fun _ => ?_) fun _ => ?_
    · refine (setArgv_reads hi t).bind fun _ u hu => ⟨ht.trans hu, ?_⟩
      rintro strings ⟨⟩
      nofun
    · refine (fetchstr_reads (setArgv_reads hi)).bind ?_
      rintro (_ | len) u ⟨hu, hstr⟩
      · exact ⟨ht.trans hu, nofun⟩
      have htu := ht.trans hu
      refine (ih (i + 1) (by omega)).bind ?_
      rintro (_ | rest) v ⟨hv, hrest⟩
      · exact ⟨htu.trans hv, nofun⟩
      · refine ⟨htu.trans hv, ?_⟩
        rintro strings ⟨⟩
        exact List.forall_mem_cons.2 ⟨(hstr len rfl).of_reads ht, fun x hx => (hrest rest rfl x hx).of_reads htu⟩

theorem loadStrings_reads (argv : List (UInt32 × UInt32))
    (h : ∀ x ∈ argv, IsString w.user x.1 x.2) : Sat (loadStrings argv) w (fun _ => Reads w) E := by
  induction argv generalizing w with
  | nil => exact refl_of Reads w
  | cons x argv ih =>
    obtain ⟨hx, hargv⟩ := List.forall_mem_cons.1 h
    refine (loadBytes_reads _ hx.fits).bind fun _ t ht => ?_
    refine (ih fun y hy => ?_).post fun _ u hu => ht.trans hu
    have hstr := hargv y hy
    unfold IsString at hstr ⊢
    rwa [ht.sz, ht.mem]

theorem argpath_reads : Within Reads (argpath n) := by
  intro w
  refine argstr_reads.bind ?_
  rintro (_ | ⟨path, len⟩) t ⟨ht, hstr⟩
  · exact ht
  · have hfits : Fits t.user.sz path (len.toNat + 1) := ht.sz ▸ (hstr path len rfl).fits
    exact (loadBytes_reads _ hfits).bind fun _ u hu => ht.trans hu

theorem argint_within : Within Reads (argint n) := fun _ => argint_reads.post fun _ _ h => h.1

theorem argfd_reads : Within Reads (argfd e n) := by
  refine argint_within.bind ?_
  rintro (_ | fd)
  · exact Within.pure none
  · exact lower_within _

theorem readiLoop_length (sb : Fs.Super) (ip : Fin NINODE) (fuel off n : Nat) (s : Fs.Kernel) :
    Sat (Fs.readiLoop sb ip fuel off n) s (fun bytes _ => bytes.length ≤ n) fun _ _ => True := by
  induction fuel generalizing off n s with
  | zero => exact Nat.zero_le n
  | succ fuel ih =>
    refine Sat.ite (fun _ => Nat.zero_le n) fun _ => ?_
    refine Sat.top.bind fun addr t _ => Sat.top.bind fun bp u _ => (ih _ _ u).bind fun rest v hrest => ?_
    show (bp.slice _ _ ++ rest).length ≤ n
    rw [List.length_append, Bytes.length_slice]
    omega

theorem readi_length (ip : Fin NINODE) (off n : UInt32) (s : Fs.Kernel) :
    Sat (Fs.readi e.sb e.dev ip off n) s (fun r _ => ∀ bytes, r = some bytes → bytes.length ≤ n.toNat)
      fun _ _ => True := by
  refine Sat.top.bind fun node t _ => Sat.ite (fun _ => ?_) fun _ => Sat.ite (fun _ => nofun) fun hcheck => ?_
  · cases hfn : Fs.Devsw.lookup e.dev.read node.copy.major with
    | none => exact nofun
    | some fn =>
      unfold Fs.Devsw.lookup at hfn
      split at hfn
      · cases hfn
      · exact fun bytes hbytes => e.bounded _ fn n bytes hfn hbytes
  · refine (readiLoop_length ..).bind fun bytes u hlen => ?_
    rintro _ ⟨⟩
    refine hlen.trans ?_
    rw [not_or, UInt32.lt_iff_toNat_lt, UInt32.lt_iff_toNat_lt, UInt32.toNat_add] at hcheck
    have hoff := off.toNat_lt
    have hn := n.toNat_lt
    split
    · rename_i hshort
      rw [UInt32.lt_iff_toNat_lt, UInt32.toNat_add] at hshort
      rw [UInt32.toNat_sub_of_le _ _ (UInt32.le_iff_toNat_le.2 (by omega))]
      omega
    · exact Nat.le_refl _

theorem fileread_length (s : Fs.Kernel) :
    Sat (Fs.fileread e.sb e.dev f n) s (fun r _ => ∀ bytes, r = some bytes → bytes.length ≤ n.toNat)
      fun _ _ => True := by
  refine Sat.top.bind fun file t _ => Sat.ite (fun _ => nofun) fun _ => ?_
  cases file.type with
  | pipe => exact nofun
  | none => exact trivial
  | inode =>
    refine Sat.top.bind fun _ t _ => (readi_length ..).bind fun r u hr => ?_
    exact Sat.top.bind fun _ v _ => Sat.top.bind fun _ x _ => hr

theorem fileread_touches (h : Fits w.user.sz p n.toNat) :
    Sat (fileread e f p n) w (fun _ => Touches w) fun _ => Touches w := by
  refine ((lower_within _ w).mono (fun _ _ ht => ht) fun _ _ ht => ht.toTouches).bind fun file t ht => ?_
  have hstore : ∀ (bytes : List UInt8) (u : World), Reads w u → bytes.length ≤ n.toNat →
      Sat (storeBytes p bytes) u (fun _ => Touches w) fun _ => Touches w := by
    intro bytes u hu hlen
    exact (storeBytes_touches bytes (hu.sz ▸ h.mono hlen)).post fun _ v hv => hu.toTouches.trans hv
  refine Sat.ite (fun _ => ht.toTouches) fun _ => Sat.ite (fun _ => ?_) fun _ => ?_
  · exact (hstore _ t ht (List.length_take_le _ _)).bind fun _ u hu => hu
  · refine ((lower_reads fileread_length).mono (fun _ _ hu => hu) fun _ _ hu =>
      ht.toTouches.trans hu.toTouches).bind ?_
    rintro (_ | bytes) u ⟨hu, hlen⟩
    · exact ht.toTouches.trans hu.toTouches
    · exact (hstore bytes u (ht.trans hu) (hlen bytes rfl)).bind fun _ v hv => hv

theorem filewrite_touches (h : Fits w.user.sz p n.toNat) :
    Sat (filewrite e f p n) w (fun _ => Touches w) fun _ => Touches w := by
  refine ((lower_within _ w).mono (fun _ _ ht => ht) fun _ _ ht => ht.toTouches).bind fun file t ht => ?_
  have hload : ∀ m, m ≤ n.toNat → Sat (loadBytes p m) t (fun _ => Reads w) fun _ => Touches w :=
    fun m hm => (loadBytes_reads m (ht.sz ▸ h.mono hm)).post fun _ u hu => ht.trans hu
  refine Sat.ite (fun _ => ht.toTouches) fun _ => Sat.ite (fun _ => ?_) fun _ => ?_
  · exact (hload _ (Nat.min_le_left _ _)).bind fun _ u hu => hu.toTouches
  · refine (hload n.toNat (Nat.le_refl _)).bind fun src u hu => ?_
    refine ((lower_within _ u).mono (fun _ _ hv => hu.trans hv) fun _ _ hv =>
      hu.toTouches.trans hv.toTouches).bind ?_
    rintro (_ | r) v hv
    · exact hv.toTouches
    · exact hv.toTouches

variable {α : Type}

theorem store_part {off : UInt32} {size : Nat} {bytes : List UInt8} {k : Unit → SysM α} (len : Nat)
    (h : Fits w.user.sz p size) (ht : Touches w t) (hlen : bytes.length = len) (hoff : off.toNat + len ≤ size)
    (hk : ∀ u, Touches w u → Sat (k ()) u (fun _ => Touches w) fun _ => Touches w) :
    Sat (storeBytes (p + off) bytes >>= k) t (fun _ => Touches w) fun _ => Touches w := by
  have hfits : Fits t.user.sz (p + off) bytes.length := ht.sz ▸ h.part (hlen ▸ hoff)
  exact ((storeBytes_touches bytes hfits).post fun _ _ hu => ht.trans hu).bind fun _ u hu => hk u hu

theorem store_start {size : Nat} {bytes : List UInt8} {k : Unit → SysM α} (len : Nat)
    (h : Fits w.user.sz p size) (ht : Touches w t) (hlen : bytes.length = len) (hle : len ≤ size)
    (hk : ∀ u, Touches w u → Sat (k ()) u (fun _ => Touches w) fun _ => Touches w) :
    Sat (storeBytes p bytes >>= k) t (fun _ => Touches w) fun _ => Touches w := by
  have hfits : Fits t.user.sz p bytes.length := ht.sz ▸ h.mono (hlen ▸ hle)
  exact ((storeBytes_touches bytes hfits).post fun _ _ hu => ht.trans hu).bind fun _ u hu => hk u hu

theorem filestat_touches {st : UInt32} (h : Fits w.user.sz st STAT) :
    Sat (filestat e f st) w (fun _ => Touches w) fun _ => Touches w := by
  refine ((lower_within _ w).mono (fun _ _ ht => ht) fun _ _ ht => ht.toTouches).bind ?_
  rintro (_ | stat) t ht
  · exact ht.toTouches
  refine ((lower_within _ t).mono (fun _ _ hu => ht.trans hu) fun _ _ hu =>
    ht.toTouches.trans hu.toTouches).bind fun node u hu => ?_
  refine store_part 4 h hu.toTouches rfl (by decide) fun u hu => ?_
  refine store_part 4 h hu rfl (by decide) fun u hu => ?_
  refine store_start 2 h hu rfl (by decide) fun u hu => ?_
  refine store_part 2 h hu rfl (by decide) fun u hu => ?_
  exact store_part 4 h hu rfl (by decide) fun u hu => hu

theorem Touches.step {α β : Type} {m : SysM α} {k : α → SysM β} (hm : Within Reads m) (ht : Touches w t)
    (hk : ∀ a u, Touches w u → Sat (k a) u (fun _ => Touches w) fun _ => Touches w) :
    Sat (m >>= k) t (fun _ => Touches w) fun _ => Touches w :=
  ((hm t).mono (fun _ _ hu => ht.trans hu.toTouches) fun _ _ hu => ht.trans hu.toTouches).bind hk

theorem Touches.argptr {β : Type} {n size : UInt32} {k : Option UInt32 → SysM β} (ht : Touches w t)
    (hnone : ∀ u, Touches w u → Sat (k none) u (fun _ => Touches w) fun _ => Touches w)
    (hsome : ∀ p u, Touches w u → Fits u.user.sz p size.toNat →
      Sat (k (some p)) u (fun _ => Touches w) fun _ => Touches w) :
    Sat (Syscall.argptr n size >>= k) t (fun _ => Touches w) fun _ => Touches w := by
  refine argptr_reads.bind ?_
  rintro (_ | p) u ⟨hu, hfits⟩
  · exact hnone u (ht.trans hu.toTouches)
  · exact hsome p u (ht.trans hu.toTouches) (hu.sz ▸ (hfits p rfl).2)

theorem lower_touches (m : Fs.FsM α) (ht : Touches w t) :
    Sat (lower m) t (fun _ => Touches w) fun _ => Touches w :=
  (lower_within m t).mono (fun _ _ hu => ht.trans hu.toTouches) fun _ _ hu => ht.trans hu.toTouches

theorem transfer_touches {body : Fin NFILE → UInt32 → UInt32 → SysM Int}
    (hbody : ∀ f p n w, Fits w.user.sz p n.toNat →
      Sat (body f p n) w (fun _ => Touches w) fun _ => Touches w) : Within Touches (transfer e body) := by
  intro w
  refine Touches.step argfd_reads (refl_of Touches w) ?_
  rintro (_ | ⟨_, f⟩) t ht
  · exact ht
  refine Touches.step argint_within ht ?_
  rintro (_ | n) t ht
  · exact ht
  refine Touches.argptr ht (fun u hu => hu) fun p u hu hfits => ?_
  exact (hbody f p n u hfits).mono (fun _ _ hv => hu.trans hv) fun _ _ hv => hu.trans hv

theorem sysPipe_touches : Within Touches (sysPipe e) := by
  intro w
  refine Touches.argptr (refl_of Touches w) (fun u hu => hu) fun fd t ht hfits => ?_
  refine (lower_touches _ ht).bind ?_
  rintro (_ | ⟨fd0, fd1⟩) u hu
  · exact hu
  have hfits' : Fits w.user.sz fd 8 := ht.sz ▸ hfits
  refine store_start 4 hfits' hu rfl (by decide) fun u hu => ?_
  exact store_part 4 hfits' hu rfl (by decide) fun u hu => hu

theorem sysExec_touches : Within Touches (sysExec e) := by
  intro w
  refine Touches.step argpath_reads (refl_of Touches w) ?_
  rintro (_ | path) t ht
  · exact ht
  refine Touches.step argint_within ht ?_
  rintro (_ | uargv) t ht
  · exact ht
  refine Sat.of_modify ?_
  have hmemset : Touches w { t with argv := [] } := ht.trans ⟨rfl, rfl, fun _ _ ha => .inl ha, nofun⟩
  refine argvFrom_reads 0 |>.bind ?_
  rintro (_ | argv) u ⟨hu, hargv⟩
  · exact hmemset.trans hu.toTouches
  refine (loadStrings_reads argv fun x hx => ?_).bind fun _ v hv => ?_
  · have hstr := hargv argv rfl x hx
    unfold IsString at hstr ⊢
    rwa [hu.sz, hu.mem]
  · exact lower_touches _ ((hmemset.trans hu.toTouches).trans hv.toTouches)

theorem touches_of_reads {m : SysM α} (h : Within Reads m) : Within Touches m := fun w =>
  (h w).mono (fun _ _ ht => ht.toTouches) fun _ _ ht => ht.toTouches

-- Every call touches user memory below the size only.
theorem Call.touches (c : Call) : Within Touches (c.run e) := by
  have hpath : ∀ m : Option (List UInt8) → Fs.FsM Int, Within Reads (argpath 0 >>= fun path => lower (m path)) :=
    fun m => argpath_reads.bind fun path => lower_within _
  cases c with
  | dup | close =>
    refine touches_of_reads (argint_within.bind ?_)
    rintro (_ | fd)
    · exact Within.pure (-1)
    · exact lower_within _
  | read => exact transfer_touches fun f p n w => fileread_touches
  | write => exact transfer_touches fun f p n w => filewrite_touches
  | unlink => exact touches_of_reads (hpath _)
  | mkdir => exact touches_of_reads (hpath _)
  | chdir => exact touches_of_reads (hpath _)
  | exec => exact sysExec_touches
  | pipe => exact sysPipe_touches
  | fstat =>
    intro w
    refine Touches.step argfd_reads (refl_of Touches w) ?_
    rintro (_ | ⟨_, f⟩) t ht
    · exact ht
    refine Touches.argptr ht (fun u hu => hu) fun st u hu hfits => ?_
    exact (filestat_touches hfits).mono (fun _ _ hv => hu.trans hv) fun _ _ hv => hu.trans hv
  | link =>
    refine touches_of_reads (argpath_reads.bind ?_)
    rintro (_ | old)
    · exact lower_within _
    · exact argpath_reads.bind fun new => lower_within _
  | openPath =>
    refine touches_of_reads (argpath_reads.bind ?_)
    rintro (_ | path)
    · exact lower_within _
    · exact argint_within.bind fun omode => lower_within _
  | mknod =>
    refine touches_of_reads (argpath_reads.bind ?_)
    rintro (_ | path)
    · exact lower_within _
    refine argint_within.bind ?_
    rintro (_ | major)
    · exact lower_within _
    · exact argint_within.bind fun minor => lower_within _

-- The addresses of the bytes of a word.
def wordAt (addr : UInt32) : List UInt32 := [addr, addr + 1, addr + 2, addr + 3]

theorem Fits.mem_wordAt {sz addr a : UInt32} (h : Fits sz addr 4) (hle : sz.toNat ≤ KERNBASE)
    (ha : a ∈ wordAt addr) : a < sz := by
  have hfits : ∀ off : UInt32, off.toNat + 1 ≤ 4 → addr + off < sz := fun off hoff =>
    (h.part (m := 1) hoff).lt hle
  rcases ha with _ | ⟨_, _ | ⟨_, _ | ⟨_, _ | ⟨_, ⟨⟩⟩⟩⟩⟩
  · exact h.lt hle
  · exact hfits 1 (by decide)
  · exact hfits 2 (by decide)
  · exact hfits 3 (by decide)

-- What the functions for the arguments return is below the size of the process,
-- and so is all that the calls touch of its memory.
theorem arguments_below (hle : w.user.sz.toNat ≤ KERNBASE) :
    (∀ n size p t, argptr n size w = .ok (some p) t →
      0 ≤ int size ∧ ∀ a : Int, p.toNat ≤ a → a < p.toNat + int size → a < w.user.sz.toNat) ∧
    (∀ addr x t, fetchint addr w = .ok (some x) t →
      t.user.touched = w.user.touched ++ wordAt addr ∧ ∀ a ∈ wordAt addr, a < w.user.sz) ∧
    (∀ n x t, argint n w = .ok (some x) t →
      t.user.touched = w.user.touched ++ wordAt (w.user.esp + 4 + 4 * n) ∧
      ∀ a ∈ wordAt (w.user.esp + 4 + 4 * n), a < w.user.sz) ∧
    (∀ addr len t, fetchstr addr (pure ()) w = .ok (some len) t → IsString w.user addr len) ∧
    (∀ n p len t, argstr n w = .ok (some (p, len)) t → IsString w.user p len) ∧
    (∀ uargv, ∃ r t, argvFrom uargv 0 w = .ok r t ∧
      (∀ s ∈ t.argv, s ∈ w.argv ∨ s.1 < MAXARG) ∧
      ∀ a ∈ t.user.touched, a ∈ w.user.touched ∨ a < w.user.sz) ∧
    ∀ (e : Env) (c : Call), Sat (c.run e) w
      (fun _ t => ∀ a ∈ t.user.touched, a ∈ w.user.touched ∨ a < w.user.sz)
      fun _ t => ∀ a ∈ t.user.touched, a ∈ w.user.touched ∨ a < w.user.sz := by
  refine ⟨fun n size p t hrun => ?_, fun addr x t hrun => ?_, fun n x t hrun => ?_, fun addr len t hrun => ?_,
    fun n p len t hrun => ?_, fun uargv => ?_, fun e c => ?_⟩
  · have hsat : Sat (argptr n size) w _ fun _ _ => True := argptr_reads
    obtain ⟨hpos, hfits⟩ := (hsat.ok hrun).2 p rfl
    refine ⟨hpos, fun a _ ha => ?_⟩
    have hsum := hfits hle
    rw [(int_of_nonneg hpos).1] at ha
    omega
  · have hsat : Sat (fetchint addr) w _ fun _ _ => True := fetchint_reads
    obtain ⟨hfits, htouched⟩ := (hsat.ok hrun).2 x rfl
    exact ⟨htouched, fun a => hfits.mem_wordAt hle⟩
  · have hsat : Sat (argint n) w _ fun _ _ => True := argint_reads
    obtain ⟨hfits, htouched⟩ := (hsat.ok hrun).2 x rfl
    exact ⟨htouched, fun a => hfits.mem_wordAt hle⟩
  · have hsat : Sat (fetchstr addr (pure ())) w _ fun _ _ => True :=
      fetchstr_reads fun w => Sat.pure (refl_of Reads w)
    exact (hsat.ok hrun).2 len rfl
  · have hsat : Sat (argstr n) w _ fun _ _ => True := argstr_reads
    exact (hsat.ok hrun).2 p len rfl
  · have hsat : Sat (argvFrom uargv 0) w _ fun _ _ => False := argvFrom_reads 0
    obtain ⟨r, t, hrun, ht, -⟩ := hsat.exists_ok
    exact ⟨r, t, hrun, ht.argv, ht.below hle⟩
  · exact (c.touches w).mono (fun _ _ ht => ht.below hle) fun _ _ ht => ht.below hle

-- file.h
def CONSOLE : Int := 1

theorem read_length (target n : Nat) (input : Console.Input) : (input.read target n).2.1.length ≤ n := by
  induction n generalizing input with
  | zero => exact Nat.le_refl 0
  | succ n ih =>
    rw [Console.Input.read]
    dsimp only
    split_ifs
    · exact Nat.zero_le _
    · exact Nat.zero_le _
    · exact Nat.zero_le _
    · exact Nat.succ_le_succ (Nat.zero_le n)
    · exact Nat.succ_le_succ (ih _)

-- A call of consoleread with that input. Where it would have to wait the process
-- is killed.
def consoleread (input : Console.Input) (n : UInt32) : Option (List UInt8) :=
  (input.read n.toNat n.toNat).2.2.map fun _ => (input.read n.toNat n.toNat).2.1

def consoleEnv (input : Console.Input) : Env where
  sb := Fs.tiny
  dev := {
    read := fun major => if major = CONSOLE then some (consoleread input) else none
    write := fun major => if major = CONSOLE then some fun src => some src.length else none }
  uvm := { setupkvm := true, allocuvm := fun _ newsz => newsz, stack := fun _ => true }
  p := Fs.initproc
  page := true
  pipe := fun _ => []
  room := id
  bounded := by
    intro major fn n bytes hfn hbytes
    dsimp only at hfn
    split_ifs at hfn
    cases hfn
    obtain ⟨-, -, rfl⟩ := Option.map_eq_some_iff.1 hbytes
    exact read_length _ _ input

-- A process of one page whose first argument is the address 8.
def onePage : World :=
  { kernel := Fs.boot Fs.tinyDisk
    user := { sz := 4096, esp := 0, mem := fun a => if a = 4 then 8 else 0, touched := [] }
    argv := [] }

-- Its argument is good for the rest of the page and not for a byte more, and
-- not for a negative size. Calls on a console with a line of three letters stay
-- below the end of the page.
theorem arguments_below_onePage :
    (∃ t, argptr 0 4088 onePage = .ok (some 8) t) ∧ (∃ t, argptr 0 4089 onePage = .ok none t) ∧
    (∃ t, argptr 0 (-1) onePage = .ok none t) ∧
    (∀ a : Int, 8 ≤ a → a < 8 + 4088 → a < 4096) ∧
    ∀ c : Call, Sat (c.run (consoleEnv { buf := fun _ => 97, r := 0, w := 3, e := 3 })) onePage
      (fun _ t => ∀ a ∈ t.user.touched, a < 4096) fun _ t => ∀ a ∈ t.user.touched, a < 4096 := by
  have hrun : argptr 0 4088 onePage = .ok (some 8) _ := rfl
  obtain ⟨hargptr, -, -, -, -, -, hcalls⟩ := arguments_below (w := onePage) (by decide)
  have hbelow : ∀ t : World, (∀ a ∈ t.user.touched, a ∈ onePage.user.touched ∨ a < onePage.user.sz) →
      ∀ a ∈ t.user.touched, a < 4096 := fun t ht a ha => (ht a ha).resolve_left List.not_mem_nil
  exact ⟨⟨_, hrun⟩, ⟨_, rfl⟩, ⟨_, rfl⟩, (hargptr 0 4088 8 _ hrun).2,
    fun c => (hcalls _ c).mono (fun _ t => hbelow t) fun _ t => hbelow t⟩

end Xv6.Syscall
