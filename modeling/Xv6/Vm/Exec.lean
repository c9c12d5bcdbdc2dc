import Xv6.Vm.Image

namespace Xv6.Vm

open Lib
open Fs (PGSIZE)

variable {k : Symbols} {deny : Nat → Bool} {m : Mem} {A B : Spaces} {E : Stop → Mem → Prop}
variable {d vpn sz sp : Nat}

theorem uva2ka_eq {t : Nat} (h : Rep k m A) (hd : A.Live d) (hv : vpn < VPAGES)
    (ht : A.tab d (pdx vpn) = some t) :
    uva2ka deny d vpn m = .ok (((A.maps d vpn).filter Pte.u).map Pte.ppn) m := by
  have hwalk : walkpgdir deny d vpn false m = .ok (some (t, ptx vpn)) m := by
    show (if (m.page d (pdx vpn)).p then _ else _ : VmM _) m = _
    rw [h.dirs d hd, ht]
    rfl
  have hread := h.entry hd hv ht
  show EStateM.bind (walkpgdir deny d vpn false) _ m = _
  simp only [EStateM.bind, hwalk]
  show (if (m.page t (ptx vpn)).p = false then pure none
    else if (m.page t (ptx vpn)).u = false then pure none
    else pure (some (m.page t (ptx vpn)).ppn) : VmM _) m = _
  rw [hread]
  cases he : A.maps d vpn with
  | none => rfl
  | some e =>
    have hp := (h.present d vpn e hd he).1
    rw [Option.getD_some, if_neg (by simp [hp])]
    cases hu : e.u with
    | false => simp [hu, Option.filter]; rfl
    | true => simp [hu, Option.filter]; rfl

theorem uva2ka_absent (h : Rep k m A) (hd : A.Live d) (ht : A.tab d (pdx vpn) = none) :
    uva2ka deny d vpn m = .error .nullPte m := by
  have hwalk : walkpgdir deny d vpn false m = .ok none m := by
    show (if (m.page d (pdx vpn)).p then _ else _ : VmM _) m = _
    rw [h.dirs d hd, ht]
    rfl
  show EStateM.bind (walkpgdir deny d vpn false) _ m = _
  simp only [EStateM.bind, hwalk]
  rfl

structure Blocked (A : Spaces) (d v : Nat) : Prop where
  table : (A.tab d (pdx v)).isSome
  refused : (A.maps d v).filter Pte.u = none

theorem uva2ka_blocked (h : Rep k m A) (hd : A.Live d) (hv : vpn < VPAGES) (hblocked : Blocked A d vpn) :
    uva2ka deny d vpn m = .ok none m := by
  obtain ⟨t, ht⟩ := Option.isSome_iff_exists.1 hblocked.table
  rw [uva2ka_eq h hd hv ht, hblocked.refused]
  rfl

theorem uva2ka_user {e : Pte} (h : Rep k m A) (hd : A.Live d) (he : A.maps d vpn = some e)
    (hu : e.u = true) : uva2ka deny d vpn m = .ok (some e.ppn) m := by
  obtain ⟨-, hv, hsome⟩ := h.present d vpn e hd he
  obtain ⟨t, ht⟩ := Option.isSome_iff_exists.1 hsome
  rw [uva2ka_eq h hd hv ht, he]
  simp [Option.filter, hu]

theorem copyout_fits {va : Nat} {buf : List UInt8} (h : Rep k m A) (hd : A.Live d)
    (hpage : UserPage (A.maps d (va / PGSIZE))) (hbuf : buf ≠ [])
    (hfit : va % PGSIZE + buf.length ≤ PGSIZE) :
    Sat (copyout deny d va buf) m (fun r t => r = true ∧ Wrote k m t A d) E := by
  obtain ⟨e, he, -, hu⟩ := hpage
  have hmin : min (PGSIZE - va % PGSIZE) buf.length = buf.length := by omega
  unfold copyout
  cases hlen : buf.length with
  | zero => exact absurd (List.length_eq_zero_iff.1 hlen) hbuf
  | succ rounds =>
    refine Sat.ite (fun hc => absurd hc hbuf) fun _ => ?_
    refine (Sat.of_eq_ok (uva2ka_user h hd he hu) (Q := fun r t => r = some e.ppn ∧ t = m) ⟨rfl, rfl⟩).bind ?_
    rintro _ s ⟨rfl, rfl⟩
    dsimp only
    rw [hmin, List.take_length, List.drop_length]
    refine sat_store (d := d) h ⟨e, he, hu, rfl, hfit⟩ fun t ht => ?_
    cases rounds with
    | zero => exact ⟨rfl, ht⟩
    | succ rounds => exact ⟨rfl, ht⟩

-- Bytes that run into a blocked page: those before it are written.
theorem copyoutFrom_blocked {g : Nat} (rounds va : Nat) (buf : List UInt8) (h : Rep k m A) (hd : A.Live d)
    (hg : g < VPAGES) (hblocked : Blocked A d g) (hva : va / PGSIZE ≤ g)
    (huser : ∀ v, va / PGSIZE ≤ v → v < g → UserPage (A.maps d v)) (hbuf : buf ≠ [])
    (hreach : g * PGSIZE < va + buf.length) (hrounds : buf.length ≤ rounds) :
    Sat (copyoutFrom deny d rounds va buf) m (fun r t => r = false ∧ Wrote k m t A d) E := by
  induction rounds generalizing m va buf with
  | zero => exact absurd (List.length_eq_zero_iff.1 (Nat.le_zero.1 hrounds)) hbuf
  | succ rounds ih =>
    refine Sat.ite (fun hc => absurd hc hbuf) fun _ => ?_
    by_cases hlast : va / PGSIZE = g
    · rw [hlast]
      refine (Sat.of_eq_ok (uva2ka_blocked h hd hg hblocked) (Q := fun r t => r = none ∧ t = m)
        ⟨rfl, rfl⟩).bind ?_
      rintro _ s ⟨rfl, rfl⟩
      exact ⟨rfl, .refl h⟩
    · obtain ⟨e, he, -, hu⟩ := huser (va / PGSIZE) (le_refl _) (by omega)
      refine (Sat.of_eq_ok (uva2ka_user h hd he hu) (Q := fun r t => r = some e.ppn ∧ t = m)
        ⟨rfl, rfl⟩).bind ?_
      rintro _ s ⟨rfl, rfl⟩
      have hn := page_numbers
      simp only [PGSIZE] at hva hlast hreach huser
      have hlong : 4096 - va % 4096 < buf.length := by omega
      have hmin : min (PGSIZE - va % PGSIZE) buf.length = PGSIZE - va % PGSIZE := by
        simp only [PGSIZE]
        omega
      have hnext : (va / PGSIZE + 1) * PGSIZE % ADDRESSES = (va / PGSIZE + 1) * PGSIZE := by
        simp only [PGSIZE, ADDRESSES]
        omega
      dsimp only
      rw [hmin, hnext]
      refine sat_store (d := d) h ⟨e, he, hu, rfl, ?_⟩ fun t ht => ?_
      · have htake := List.length_take_le (PGSIZE - va % PGSIZE) buf
        have hmod : va % PGSIZE < PGSIZE := Nat.mod_lt _ (by decide)
        show va % PGSIZE + (buf.take (PGSIZE - va % PGSIZE)).length ≤ PGSIZE
        omega
      · have hpage : (va / PGSIZE + 1) * PGSIZE / PGSIZE = va / PGSIZE + 1 :=
          Nat.mul_div_cancel _ (by decide)
        refine (ih ((va / PGSIZE + 1) * PGSIZE) _ ht.rep ?_ ?_ ?_ ?_ ?_).post
          fun r u hr => ⟨hr.1, ht.trans (fun _ _ _ he => he) hr.2⟩
        · rw [hpage]
          simp only [PGSIZE]
          omega
        · rw [hpage]
          intro v hlo hhi
          simp only [PGSIZE] at hlo
          exact huser v (by omega) hhi
        · intro hnil
          have hzero := congrArg List.length hnil
          rw [List.length_drop, List.length_nil] at hzero
          simp only [PGSIZE] at hzero
          omega
        · rw [List.length_drop]
          simp only [PGSIZE]
          omega
        · rw [List.length_drop]
          simp only [PGSIZE]
          omega

theorem copyout_absent {va : Nat} {buf : List UInt8} (h : Rep k m A) (hd : A.Live d) (hbuf : buf ≠ [])
    (htab : A.tab d (pdx (va / PGSIZE)) = none) : copyout deny d va buf m = .error .nullPte m := by
  unfold copyout
  cases hlen : buf.length with
  | zero => exact absurd (List.length_eq_zero_iff.1 hlen) hbuf
  | succ rounds =>
    unfold copyoutFrom
    rw [if_neg hbuf]
    show EStateM.bind (uva2ka deny d (va / PGSIZE)) _ m = _
    simp only [EStateM.bind, uva2ka_absent h hd htab]

-- An address in the stack page below sz, and one in the gap between the memory
-- and the devices, which has no page tables.
def InPage (sz next : Nat) : Prop := sz ≤ next + PGSIZE ∧ next < sz

def InGap (next : Nat) : Prop := KERNBASE + PHYSTOP ≤ next ∧ next < DEVSPACE

instance (sz next : Nat) : Decidable (InPage sz next) := inferInstanceAs (Decidable (_ ∧ _))

instance (next : Nat) : Decidable (InGap next) := inferInstanceAs (Decidable (_ ∧ _))

-- Where the strings go: into the stack page, with the addresses they get, or one
-- does not fit. Its address may then wrap around into the gap.
inductive Placement
  | fits (sp : Nat) (strings : List Nat)
  | refused
  | gap
deriving DecidableEq

def place (sz : Nat) : List (List UInt8) → Nat → Nat → Placement
  | [], _, sp => .fits sp []
  | arg :: argv, argc, sp =>
    if MAXARG ≤ argc then .refused
    else
      let next := sub32 sp (arg.length + 1) / 4 * 4
      if InPage sz next then
        match place sz argv (argc + 1) next with
        | .fits sp strings => .fits sp (next :: strings)
        | r => r
      else if InGap next then .gap
      else .refused

structure InStack (sz sp : Nat) : Prop where
  lo : sz ≤ sp + PGSIZE
  hi : sp ≤ sz
  aligned : sp % 4 = 0

theorem sub32_eq {a b : Nat} (ha : a < ADDRESSES) (hb : b ≤ a) : sub32 a b = a - b := by
  simp only [sub32, ADDRESSES] at ha ⊢
  omega

theorem sub32_wrap {a b : Nat} (hb : b < ADDRESSES) (hab : a < b) : sub32 a b = a + ADDRESSES - b := by
  simp only [sub32, ADDRESSES] at hb ⊢
  omega

namespace Stack

-- The user pages below the guard page, the guard page and the pages of the
-- kernel.
theorem blocked_guard (hs : Stack k d sz A) (h : Rep k m A) (hd : A.Live d) :
    Blocked A d (sz / PGSIZE - 2) := by
  obtain ⟨e, he, -, hu⟩ := hs.guard
  refine ⟨(h.present d _ e hd he).2.2, ?_⟩
  rw [he]
  simp [Option.filter, hu]

theorem blocked_kernel {v : Nat} (hs : Stack k d sz A) (hlo : UPAGES ≤ v) (hhi : v < VPAGES)
    (hgap : ¬ (UPAGES + PHYSTOP / PGSIZE ≤ v ∧ v < DEVSPACE / PGSIZE)) : Blocked A d v := by
  have hn := page_numbers
  have hlt := hs.lt
  have hidx : KernelIndex (pdx v) := kernelIndex_pdx (by omega)
  have hnot : ¬ UserIndex (pdx v) := by
    rw [KernelIndex] at hidx
    rw [UserIndex]
    omega
  refine ⟨(hs.tables _ hnot).2 hidx, ?_⟩
  have habove : sz / PGSIZE ≤ v := by
    simp only [PGSIZE, KERNBASE] at hlt ⊢
    omega
  rw [hs.above v habove]
  cases he : kernelMap k v with
  | none => rfl
  | some e => simp [Option.filter, kernelMap_u he]

theorem absent_gap {v : Nat} (hs : Stack k d sz A)
    (hgap : UPAGES + PHYSTOP / PGSIZE ≤ v ∧ v < DEVSPACE / PGSIZE) : A.tab d (pdx v) = none := by
  have hn := page_numbers
  have hval : (pdx v).val = v / NPTENTRIES := pdx_val (by omega)
  rw [NPTENTRIES] at hval
  have hnot : ¬ UserIndex (pdx v) := by
    rw [UserIndex]
    omega
  have hidx : ¬ KernelIndex (pdx v) := by
    rw [KernelIndex]
    omega
  cases ht : A.tab d (pdx v) with
  | none => rfl
  | some t => exact absurd ((hs.tables _ hnot).1 (by rw [ht]; rfl)) hidx

end Stack

section Copyout

variable {next : Nat} {buf : List UInt8} (hs : Stack k d sz A) (h : Rep k m A) (hd : A.Live d)
variable (hsp : InStack sz sp) (hbuf : buf ≠ []) (hlen : buf.length ≤ KERNBASE)
variable (hnext : next = sub32 sp buf.length / 4 * 4)

include hs hsp hbuf hlen hnext

theorem next_cases : (next ≤ sp - buf.length ∧ sp < next + buf.length + 4 ∧ buf.length ≤ sp) ∨
    (sp < buf.length ∧ KERNBASE ≤ next ∧ next < ADDRESSES) := by
  have hhi := hsp.hi
  have hlt := hs.lt
  have hpos := List.length_pos_iff.2 hbuf
  by_cases hwrap : buf.length ≤ sp
  · rw [sub32_eq (by simp only [KERNBASE, ADDRESSES] at hlt ⊢; omega) hwrap] at hnext
    omega
  · rw [sub32_wrap (by simp only [KERNBASE, ADDRESSES] at hlen ⊢; omega) (by omega)] at hnext
    simp only [KERNBASE, ADDRESSES] at hlen hnext ⊢
    omega

include h hd

theorem copyout_inPage (hin : InPage sz next) :
    Sat (copyout deny d next buf) m (fun r t => r = true ∧ Wrote k m t A d) E := by
  have hcases := next_cases hs hsp hbuf hlen hnext
  obtain ⟨hlo, hhi⟩ := hin
  have hsp' := hsp.hi
  have haligned := hs.aligned
  have htwo := hs.two
  have hlt := hs.lt
  simp only [PGSIZE, KERNBASE] at hlo haligned htwo hlt hcases
  refine copyout_fits h hd (hs.user _ ?_ ?_) hbuf ?_
  · simp only [PGSIZE]
    omega
  · simp only [PGSIZE]
    omega
  · simp only [PGSIZE]
    omega

theorem copyout_refused (hout : ¬ InPage sz next) (hgap : ¬ InGap next) :
    Sat (copyout deny d next buf) m (fun r t => r = false ∧ Wrote k m t A d) E := by
  have hn := page_numbers
  have hcases := next_cases hs hsp hbuf hlen hnext
  have hpos := List.length_pos_iff.2 hbuf
  have hlo := hsp.lo
  have hhi := hsp.hi
  have haligned := hs.aligned
  have htwo := hs.two
  have hlt := hs.lt
  simp only [InPage, PGSIZE, KERNBASE] at hlo haligned htwo hlt hcases hout
  unfold copyout
  obtain hbelow | ⟨-, hkern, htop⟩ := hcases
  · -- The string runs into the guard page.
    refine copyoutFrom_blocked _ _ _ h hd ?_ (hs.blocked_guard h hd) ?_ (fun v hv hv' => hs.user v ?_ ?_) hbuf ?_
      (le_refl _)
    · simp only [PGSIZE]
      omega
    · simp only [PGSIZE]
      omega
    · omega
    · omega
    · simp only [PGSIZE]
      omega
  · -- The address is one of the kernel.
    have hpage : ¬ (UPAGES + PHYSTOP / PGSIZE ≤ next / PGSIZE ∧ next / PGSIZE < DEVSPACE / PGSIZE) := by
      simp only [InGap, KERNBASE, PHYSTOP, DEVSPACE, PGSIZE, UPAGES] at hgap ⊢
      omega
    simp only [ADDRESSES] at htop
    refine copyoutFrom_blocked _ _ _ h hd ?_ (hs.blocked_kernel ?_ ?_ hpage) (le_refl _) ?_ hbuf ?_ (le_refl _)
    · simp only [PGSIZE]
      omega
    · simp only [PGSIZE]
      omega
    · simp only [PGSIZE]
      omega
    · intro v hv hv'
      omega
    · have hdiv := Nat.div_mul_le_self next PGSIZE
      omega

omit hsp hlen hnext in
theorem copyout_inGap (hgap : InGap next) : copyout deny d next buf m = .error .nullPte m := by
  refine copyout_absent h hd hbuf (hs.absent_gap ?_)
  simp only [InGap, KERNBASE, PHYSTOP, DEVSPACE, PGSIZE, UPAGES] at hgap ⊢
  omega

end Copyout

def Placement.result : Placement → Option (Nat × List Nat)
  | fits sp strings => some (sp, strings)
  | refused => none
  | gap => none

theorem InPage.inStack {next : Nat} (h : InPage sz (next / 4 * 4)) : InStack sz (next / 4 * 4) :=
  ⟨h.1, h.2.le, Nat.mul_mod_left _ _⟩

variable {argv : List (List UInt8)}

theorem place_fits {argc newsp : Nat} {strings : List Nat}
    (hsp : InStack sz sp) (h : place sz argv argc sp = .fits newsp strings) :
    InStack sz newsp ∧ strings.length = argv.length ∧ (argv ≠ [] → argc + argv.length ≤ MAXARG) := by
  induction argv generalizing argc sp strings with
  | nil =>
    obtain ⟨rfl, rfl⟩ := Placement.fits.inj h
    exact ⟨hsp, rfl, fun hne => absurd rfl hne⟩
  | cons arg argv ih =>
    simp only [place] at h
    split_ifs at h with hmax hin
    cases hrest : place sz argv (argc + 1) (sub32 sp (arg.length + 1) / 4 * 4) with
    | fits sp' strings' =>
      rw [hrest] at h
      obtain ⟨rfl, rfl⟩ := Placement.fits.inj h
      obtain ⟨hsp', hlen, hcount⟩ := ih hin.inStack hrest
      refine ⟨hsp', by rw [List.length_cons, hlen, List.length_cons], fun _ => ?_⟩
      rw [List.length_cons]
      by_cases hnil : argv = []
      · rw [hnil, List.length_nil]
        omega
      · have hle := hcount hnil
        omega
    | refused =>
      rw [hrest] at h
      cases h
    | gap =>
      rw [hrest] at h
      cases h

theorem pushStrings_sat (argv : List (List UInt8)) (argc sp : Nat) (hs : Stack k d sz A) (h : Rep k m A)
    (hd : A.Live d) (hsp : InStack sz sp) (hargs : ∀ arg ∈ argv, arg.length < KERNBASE) :
    Sat (pushStrings deny d argv argc sp) m
      (fun r t => Wrote k m t A d ∧ place sz argv argc sp ≠ .gap ∧ r = (place sz argv argc sp).result)
      (fun e t => Wrote k m t A d ∧ place sz argv argc sp = .gap ∧ e = .nullPte) := by
  induction argv generalizing m argc sp with
  | nil => exact ⟨.refl h, nofun, rfl⟩
  | cons arg argv ih =>
    have hbuf : arg ++ [0] ≠ [] := by simp
    have hsize : (arg ++ [0]).length = arg.length + 1 := by simp
    have hlen : (arg ++ [0]).length ≤ KERNBASE := by
      rw [hsize]
      exact hargs arg List.mem_cons_self
    simp only [pushStrings, place]
    generalize hnext : sub32 sp (arg.length + 1) / 4 * 4 = next
    have hnext' : next = sub32 sp (arg ++ [0]).length / 4 * 4 := by rw [hsize, hnext]
    refine Sat.ite (fun hmax => ?_) fun hmax => ?_
    · rw [if_pos hmax]
      exact Sat.pure ⟨.refl h, nofun, rfl⟩
    rw [if_neg hmax]
    by_cases hin : InPage sz next
    · rw [if_pos hin]
      refine (copyout_inPage hs h hd hsp hbuf hlen hnext' hin).bind ?_
      rintro _ t ⟨rfl, ht⟩
      have hsp' : InStack sz next := by
        rw [← hnext] at hin ⊢
        exact hin.inStack
      have hrest := ih (argc + 1) next ht.rep hsp' fun arg' ha => hargs arg' (List.mem_cons_of_mem _ ha)
      cases hplace : place sz argv (argc + 1) next with
      | fits sp' strings =>
        rw [hplace] at hrest
        refine Sat.bind (P := fun r u => Wrote k m u A d ∧ r = some (sp', strings)) (hrest.mono ?_ ?_) ?_
        · rintro r u ⟨hu, -, hr⟩
          exact ⟨ht.trans (fun _ _ _ he => he) hu, hr⟩
        · rintro e u ⟨-, hc, -⟩
          cases hc
        · rintro _ u ⟨hu, rfl⟩
          exact Sat.pure ⟨hu, nofun, rfl⟩
      | refused =>
        rw [hplace] at hrest
        refine Sat.bind (P := fun r u => Wrote k m u A d ∧ r = none) (hrest.mono ?_ ?_) ?_
        · rintro r u ⟨hu, -, hr⟩
          exact ⟨ht.trans (fun _ _ _ he => he) hu, hr⟩
        · rintro e u ⟨-, hc, -⟩
          cases hc
        · rintro _ u ⟨hu, rfl⟩
          exact Sat.pure ⟨hu, nofun, rfl⟩
      | gap =>
        rw [hplace] at hrest
        refine Sat.bind (P := fun _ _ => False) (hrest.mono ?_ ?_) nofun
        · rintro r u ⟨-, hne, -⟩
          exact hne rfl
        · rintro e u ⟨hu, -, he⟩
          exact ⟨ht.trans (fun _ _ _ he => he) hu, rfl, he⟩
    · rw [if_neg hin]
      by_cases hgap : InGap next
      · rw [if_pos hgap]
        refine Sat.bind (P := fun _ _ => False) ?_ nofun
        rw [Sat, copyout_inGap hs h hd hbuf hgap]
        exact ⟨.refl h, rfl, rfl⟩
      · rw [if_neg hgap]
        refine (copyout_refused hs h hd hsp hbuf hlen hnext' hin hgap).bind ?_
        rintro _ t ⟨rfl, ht⟩
        exact Sat.pure ⟨ht, nofun, rfl⟩

-- The strings and ustack fit the stack page.
def Fits (sz : Nat) (argv : List (List UInt8)) : Prop :=
  ∃ sp strings, place sz argv 0 sz = .fits sp strings ∧ InPage sz (sub32 sp ((3 + argv.length + 1) * 4))

theorem length_flatMap_word (ws : List Nat) : (ws.flatMap word).length = ws.length * 4 := by
  induction ws with
  | nil => rfl
  | cons w ws ih =>
    rw [List.flatMap_cons, List.length_append, ih, List.length_cons, Nat.add_mul, Nat.add_comm]
    rfl

theorem pushArgs_sat (hs : Stack k d sz A) (h : Rep k m A) (hd : A.Live d)
    (hargs : ∀ arg ∈ argv, arg.length < KERNBASE) :
    Sat (pushArgs deny d sz argv) m
      (fun r t => Wrote k m t A d ∧ place sz argv 0 sz ≠ .gap ∧ (r.isSome ↔ Fits sz argv))
      (fun e t => Wrote k m t A d ∧ place sz argv 0 sz = .gap ∧ e = .nullPte) := by
  have hstart : InStack sz sz := by
    refine ⟨by omega, le_refl sz, ?_⟩
    have haligned := hs.aligned
    simp only [PGSIZE] at haligned
    omega
  refine (pushStrings_sat argv 0 sz hs h hd hstart hargs).bind ?_
  rintro r t ⟨ht, hne, rfl⟩
  cases hplace : place sz argv 0 sz with
  | gap => exact absurd hplace hne
  | refused =>
    refine Sat.pure ⟨ht, by rintro ⟨⟩, ?_⟩
    simp [Fits, hplace]
  | fits sp strings =>
    obtain ⟨hsp, hlen, hcount⟩ := place_fits hstart hplace
    have hargc : argv.length ≤ MAXARG := by
      by_cases hnil : argv = []
      · rw [hnil]
        exact Nat.zero_le _
      · have hle := hcount hnil
        omega
    dsimp only [Placement.result]
    generalize hustack : [0xffffffff, argv.length, sub32 sp ((argv.length + 1) * 4)] ++ strings ++ [0] = ustack
    have hbytes : (ustack.flatMap word).length = (3 + argv.length + 1) * 4 := by
      rw [length_flatMap_word, ← hustack]
      simp [hlen]
      omega
    have hbuf : ustack.flatMap word ≠ [] := by
      rw [← List.length_pos_iff, hbytes]
      omega
    have hfew : (ustack.flatMap word).length ≤ KERNBASE := by
      simp only [MAXARG] at hargc
      simp only [hbytes, KERNBASE]
      omega
    have hlo := hsp.lo
    have hhi := hsp.hi
    have hfour := hsp.aligned
    have htwo := hs.two
    have hlt := hs.lt
    simp only [PGSIZE, KERNBASE, MAXARG] at hlo htwo hlt hargc
    have hsub : sub32 sp ((3 + argv.length + 1) * 4) = sp - (3 + argv.length + 1) * 4 :=
      sub32_eq (by simp only [ADDRESSES]; omega) (by omega)
    generalize hnext : sub32 sp ((3 + argv.length + 1) * 4) = next
    have hnext' : next = sub32 sp (ustack.flatMap word).length / 4 * 4 := by
      rw [hbytes, hnext]
      omega
    have hgap : ¬ InGap next := by
      simp only [InGap, KERNBASE, PHYSTOP]
      omega
    by_cases hin : InPage sz next
    · refine (copyout_inPage hs ht.rep hd hsp hbuf hfew hnext' hin).bind ?_
      rintro _ u ⟨rfl, hu⟩
      refine Sat.pure ⟨ht.trans (fun _ _ _ he => he) hu, by rintro ⟨⟩, ?_⟩
      simp only [Option.isSome_some, true_iff]
      exact ⟨sp, strings, hplace, by rw [hnext]; exact hin⟩
    · refine (copyout_refused hs ht.rep hd hsp hbuf hfew hnext' hin hgap).bind ?_
      rintro _ u ⟨rfl, hu⟩
      refine Sat.pure ⟨ht.trans (fun _ _ _ he => he) hu, by rintro ⟨⟩, ?_⟩
      simp only [Option.isSome_none, Bool.false_eq_true, false_iff]
      rintro ⟨sp', strings', hplace', hin'⟩
      rw [hplace] at hplace'
      obtain ⟨rfl, rfl⟩ := Placement.fits.inj hplace'
      rw [hnext] at hin'
      exact hin hin'

theorem exec_sat {file : File} {old : Nat} (h : Rep k m A) (hold : A.Live old)
    (hargs : ∀ arg ∈ argv, arg.length < KERNBASE) :
    Sat (exec k deny file argv old) m (fun r t =>
      match r with
      | none => Rep k t A
      | some image => ∃ B, Opens image.pgdir A B ∧ Stack k image.pgdir image.sz B ∧
          Rep k t (B.discard old)) (fun e _ => e = .nullPte) := by
  unfold exec
  cases hread : readAll file 0 Fs.ELFHDR with
  | none => exact h
  | some bytes =>
    refine Sat.ite (fun _ => h) fun _ => ?_
    refine (setupkvm_sat h).bind ?_
    rintro (_ | d) s hs
    · exact hs.1.rep
    obtain ⟨B, hl, hopened⟩ := hs
    have hopen := hopened.opens
    refine (loadImage_sat hl.rep hopen.live (hopened.heap hl.rep)).bind ?_
    intro r t hr
    obtain ⟨C, hC, hext, hstack⟩ := hr
    have hopen' := hopen.extend hext.grows
    cases r with
    | none =>
      refine (freevm_sat hC.rep hopen'.live).bind ?_
      intro _ u hu
      exact hopen'.discard h hu.rep
    | some sz =>
      refine Sat.bind (P := fun _ u => Wrote k t u C d) ?_ ?_
      · refine (pushArgs_sat (hstack sz rfl) hC.rep hopen'.live hargs).mono (fun _ _ hu => hu.1) ?_
        intro e u hu
        exact hu.2.2
      · intro r u hu
        cases r with
        | none =>
          refine (freevm_sat hu.rep hopen'.live).bind ?_
          intro _ v hv
          exact hopen'.discard h hv.rep
        | some sp =>
          refine (freevm_sat hu.rep (hopen'.old hold).1).bind ?_
          intro _ v hv
          exact ⟨C, hopen', hstack sz rfl, hv.rep⟩

end Xv6.Vm
