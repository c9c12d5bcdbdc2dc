import Xv6.Vm.Argv
import Xv6.Vm.Procs

namespace Xv6.Vm

open Function Lib
open Fs (PGSIZE)

def Mem.read (m : Mem) (pgdir va : Nat) : Option UInt8 :=
  (m.lookup pgdir (va / PGSIZE)).map fun e => m.data e.ppn (va % PGSIZE)

-- A write of one byte; where nothing is mapped it changes nothing.
def Mem.write (m : Mem) (pgdir va : Nat) (b : UInt8) : Mem :=
  match m.lookup pgdir (va / PGSIZE) with
  | none => m
  | some e => m.setData e.ppn (update (m.data e.ppn) (va % PGSIZE) b)

structure Write where
  pgdir : Nat
  va : Nat
  byte : UInt8

def Mem.writes (m : Mem) (ws : List Write) : Mem := ws.foldl (fun m w => m.write w.pgdir w.va w.byte) m

variable {k : Symbols} {deny : Nat → Bool} {m s t : Mem} {A B : Spaces} {d p va : Nat}

theorem lookup_of_page (h : s.page = t.page) (d v : Nat) : s.lookup d v = t.lookup d v := by
  simp only [Mem.lookup, h]

theorem write_page (m : Mem) (d va : Nat) (b : UInt8) : (m.write d va b).page = m.page := by
  unfold Mem.write
  split <;> rfl

theorem user_page (hva : va < KERNBASE) : va / PGSIZE < UPAGES := by
  have hn := page_numbers
  simp only [KERNBASE, PGSIZE] at hva ⊢
  omega

-- Two memories with the same tables in which the user pages of p have the same
-- bytes.
structure Agree (p : Nat) (s t : Mem) : Prop where
  page : s.page = t.page
  data : ∀ v e, v < UPAGES → s.lookup p v = some e → s.data e.ppn = t.data e.ppn

theorem Agree.refl (p : Nat) (m : Mem) : Agree p m m := ⟨rfl, fun _ _ _ _ => rfl⟩

theorem Agree.read (h : Agree p s t) (hva : va < KERNBASE) : s.read p va = t.read p va := by
  unfold Mem.read
  rw [← lookup_of_page h.page]
  cases he : s.lookup p (va / PGSIZE) with
  | none => rfl
  | some e => rw [Option.map_some, Option.map_some, h.data _ e (user_page hva) he]

def Apart (m : Mem) (d p : Nat) : Prop :=
  ∀ v w e e', v < UPAGES → w < UPAGES → m.lookup d v = some e → m.lookup p w = some e' → e.ppn ≠ e'.ppn

theorem Apart.of_page (h : Apart s d p) (hpage : s.page = t.page) : Apart t d p := by
  intro v w e e' hv hw he he'
  rw [← lookup_of_page hpage] at he he'
  exact h v w e e' hv hw he he'

theorem write_data (m : Mem) (d va : Nat) (b : UInt8) (g : Nat)
    (hg : ∀ e, m.lookup d (va / PGSIZE) = some e → e.ppn ≠ g) : (m.write d va b).data g = m.data g := by
  unfold Mem.write
  cases he : m.lookup d (va / PGSIZE) with
  | none => rfl
  | some e => exact update_of_ne (hg e he).symm ..

theorem Agree.write_same (h : Agree p s t) (hva : va < KERNBASE) (b : UInt8) :
    Agree p (s.write p va b) (t.write p va b) := by
  refine ⟨by rw [write_page, write_page, h.page], fun v e hv he => ?_⟩
  rw [lookup_of_page (write_page s p va b)] at he
  unfold Mem.write
  rw [← lookup_of_page h.page]
  cases hw : s.lookup p (va / PGSIZE) with
  | none => exact h.data v e hv he
  | some e' =>
    show update s.data _ _ _ = update t.data _ _ _
    rw [h.data _ e' (user_page hva) hw, update_apply, update_apply, h.data v e hv he]

theorem Agree.write_other (h : Agree p s t) (hapart : Apart s d p) (hva : va < KERNBASE) (b : UInt8) :
    Agree p (s.write d va b) t := by
  refine ⟨by rw [write_page, h.page], fun v e hv he => ?_⟩
  rw [lookup_of_page (write_page s d va b)] at he
  rw [write_data, h.data v e hv he]
  intro e' he'
  exact hapart _ v e' e (user_page hva) hv he' he

theorem Agree.writes (ws : List Write) (h : Agree p s t) (hapart : Apart s d p)
    (hva : ∀ w ∈ ws, w.va < KERNBASE) (hws : ∀ w ∈ ws, w.pgdir = d ∨ w.pgdir = p) :
    Agree p (s.writes ws) (t.writes (ws.filter fun w => w.pgdir = p)) := by
  induction ws generalizing s t with
  | nil => exact h
  | cons w ws ih =>
    obtain ⟨hva₀, hva⟩ := List.forall_mem_cons.1 hva
    obtain ⟨hws₀, hws⟩ := List.forall_mem_cons.1 hws
    have hapart' := hapart.of_page (write_page s w.pgdir w.va w.byte).symm
    by_cases hp : w.pgdir = p
    · rw [List.filter_cons_of_pos (by simpa using hp)]
      refine ih ?_ hapart' hva hws
      show Agree p (s.write w.pgdir w.va w.byte) (t.write w.pgdir w.va w.byte)
      rw [hp]
      exact h.write_same hva₀ w.byte
    · rw [List.filter_cons_of_neg (by simpa using hp)]
      refine ih ?_ hapart' hva hws
      show Agree p (s.write w.pgdir w.va w.byte) t
      rw [hws₀.resolve_right hp]
      exact h.write_other hapart hva₀ w.byte

-- What p reads after writes through d and p does not depend on those through d.
def Isolated (m : Mem) (d p : Nat) : Prop :=
  ∀ ws : List Write, (∀ w ∈ ws, w.va < KERNBASE) → (∀ w ∈ ws, w.pgdir = d ∨ w.pgdir = p) →
    ∀ va, va < KERNBASE →
      (m.writes ws).read p va = (m.writes (ws.filter fun w => w.pgdir = p)).read p va

theorem Apart.isolated (h : Apart m d p) : Isolated m d p :=
  fun ws hva hws _ hva' => ((Agree.refl p m).writes ws h hva hws).read hva'

theorem Apart.symm (h : Apart m d p) : Apart m p d :=
  fun v w e e' hv hw he he' heq => h w v e' e hw hv he' he heq.symm

-- The directory d of t is a copy of p of m for the size sz.
structure Copied (k : Symbols) (m t : Mem) (p d sz : Nat) : Prop where
  bytes : ∀ va, va < sz → ∃ b, m.read p va = some b ∧ t.read d va = some b
  flags : ∀ v, v < pages sz → ∃ e e', m.lookup p v = some e ∧ t.lookup d v = some e' ∧
    e'.p = e.p ∧ e'.w = e.w ∧ e'.u = e.u
  apart : Apart t d p
  kernel : ∀ v, UPAGES ≤ v → v < VPAGES → t.lookup d v = kernelMap k v
  above : ∀ v, pages sz ≤ v → v < UPAGES → t.lookup d v = none

-- The directory p, its page tables and the bytes of its pages are the same.
structure Kept (m t : Mem) (p : Nat) : Prop where
  dir : t.page p = m.page p
  tables : ∀ i, (m.page p i).p = true → t.page (m.page p i).ppn = m.page (m.page p i).ppn
  pages : ∀ v e, v < UPAGES → m.lookup p v = some e → t.data e.ppn = m.data e.ppn

theorem Kept.of_opens (h : Opens d A B) (hfresh : Fresh m t) (hA : Rep k m A) (hB : Rep k t B)
    (hp : A.Live p) : Kept m t p := by
  have hn := page_numbers
  obtain ⟨hpB, htab, hmaps⟩ := h.old hp
  refine ⟨?_, fun i hi => ?_, fun v e hv he => ?_⟩
  · funext i
    rw [hA.dirs p hp, hB.dirs p hpB, htab]
  · rw [hA.dirs p hp] at hi ⊢
    cases ht : A.tab p i with
    | none =>
      rw [ht] at hi
      cases hi
    | some pgtab =>
      funext j
      rw [← htab] at ht
      have hentry := hB.entries p i pgtab hpB ht j
      rw [htab] at ht
      show t.page pgtab j = m.page pgtab j
      rw [hentry, hA.entries p i pgtab hp ht j, hmaps]
  · rw [hA.lookup_eq hp (by omega)] at he
    exact hfresh.data e.ppn (hA.not_free (hA.own_user hp hv he))

theorem Rep.apart (h : Rep k m A) (hd : A.Live d) (hp : A.Live p) (hne : p ≠ d) : Apart m d p := by
  have hn := page_numbers
  intro v w e e' hv hw he he' heq
  rw [h.lookup_eq hd (by omega)] at he
  rw [h.lookup_eq hp (by omega)] at he'
  have hown := h.own_user hd hv he
  rw [heq, h.own_user hp hw he'] at hown
  cases hown
  exact hne rfl

theorem copyuvm_setupkvm {sz : Nat} (hrun : copyuvm k deny p sz m = .ok (some d) t) :
    ∃ t₀, setupkvm k deny m = .ok (some d) t₀ := by
  have hsat : Sat (copyuvm k deny p sz) m (fun r _ => ∀ d, r = some d → ∃ t₀, setupkvm k deny m = .ok (some d) t₀)
      fun _ _ => True := by
    refine (Sat.top.tracked (m := setupkvm k deny)).bind ?_
    rintro (_ | d₀) t₀ ⟨hsetup, -⟩
    · exact nofun
    · refine Sat.top.bind ?_
      rintro (_ | _) u -
      · exact Sat.top.bind fun _ _ _ => nofun
      · rintro d ⟨⟩
        exact ⟨t₀, hsetup⟩
  exact hsat.ok hrun d rfl

-- The copy that fork makes is faithful, and then parent and child do not see
-- each other's writes.
theorem copyuvm_copies {sz : Nat} (h : Rep k m A) (hp : A.Live p) (hsz : sz ≤ KERNBASE)
    (hrun : copyuvm k deny p sz m = .ok (some d) t) :
    Copied k m t p d sz ∧ Kept m t p ∧
    (∃ t₀, setupkvm k deny m = .ok (some d) t₀ ∧
      ∀ v, UPAGES ≤ v → v < VPAGES → t.lookup d v = t₀.lookup d v) ∧
    Isolated t d p ∧ Isolated t p d := by
  have hn := page_numbers
  have hup := pages_le_upages hsz
  have hsat : Sat (copyuvm k deny p sz) m _ fun _ _ => True :=
    copyuvm_sat hsz h hp fun _ _ _ _ => ⟨trivial, trivial⟩
  obtain ⟨B, hB, hopens, hfresh, habove, hcopied⟩ := hsat.ok hrun
  have hapart := hB.rep.apart hopens.live (hopens.old hp).1 (hopens.ne hp)
  have hlook : ∀ v, v < VPAGES → t.lookup d v = B.maps d v := fun v hv => hB.rep.lookup_eq hopens.live hv
  have hpages : ∀ v, v < pages sz → ∃ e e', m.lookup p v = some e ∧ t.lookup d v = some e' ∧
      e'.p = e.p ∧ e'.w = e.w ∧ e'.u = e.u ∧ t.data e'.ppn = m.data e.ppn := by
    intro v hv
    obtain ⟨e, e', he, he', hw, hu, hdata⟩ := hcopied v hv
    have hpe := (h.present p v e hp he).1
    have hpe' := (hB.rep.present d v e' hopens.live he').1
    exact ⟨e, e', (h.lookup_eq hp (by omega)).trans he, (hlook v (by omega)).trans he',
      hpe'.trans hpe.symm, hw, hu, hdata⟩
  have hkernel : ∀ v, UPAGES ≤ v → v < VPAGES → t.lookup d v = kernelMap k v := by
    intro v hlo hv
    rw [hlook v hv, habove v (by omega)]
  refine ⟨⟨fun va hva => ?_, fun v hv => ?_, hapart, hkernel, fun v hlo hv => ?_⟩,
    .of_opens hopens hfresh h hB.rep hp, ?_, hapart.isolated, hapart.symm.isolated⟩
  · have hv : va / PGSIZE < pages sz := by
      simp only [pages, PGSIZE]
      omega
    obtain ⟨e, e', he, he', -, -, -, hdata⟩ := hpages (va / PGSIZE) hv
    refine ⟨m.data e.ppn (va % PGSIZE), ?_, ?_⟩
    · rw [Mem.read, he, Option.map_some]
    · rw [Mem.read, he', Option.map_some, hdata]
  · obtain ⟨e, e', he, he', hpe, hw, hu, -⟩ := hpages v hv
    exact ⟨e, e', he, he', hpe, hw, hu⟩
  · rw [hlook v (by omega), habove v hlo, kernelMap_user hv]
  · obtain ⟨t₀, hsetup⟩ := copyuvm_setupkvm hrun
    refine ⟨t₀, hsetup, fun v hlo hv => ?_⟩
    have hsat₀ : Sat (setupkvm k deny) m _ fun _ _ => True := setupkvm_sat h
    obtain ⟨C, hC, hopened⟩ := hsat₀.ok hsetup
    rw [hkernel v hlo hv, hC.rep.lookup_eq hopened.opens.live hv, hopened.maps]

theorem copyuvm_ok {sz : Nat} (h : Rep k m A) (hp : A.Live p) (hheap : Heap k p sz A)
    (hfree : 2 + (NPDENTRIES + pages sz) + 65 ≤ m.freelist.length) (hdeny : ∀ call, deny call = false) :
    ∃ d t, copyuvm k deny p sz m = .ok (some d) t := by
  have hsat : Sat (copyuvm k deny p sz) m _ fun _ _ => False :=
    copyuvm_sat hheap.le h hp fun v hv hnone => by
      obtain ⟨e, he, -⟩ := hheap.user v hv
      rw [hnone] at he
      cases he
  obtain ⟨r, t, hrun, hr⟩ := hsat.exists_ok
  cases r with
  | some d => exact ⟨d, t, hrun⟩
  | none => exact absurd hr.2 (not_short hfree hdeny)

theorem copyuvm_copies_small : ∃ m A p d t, Rep Vms.smallKernel m A ∧ A.Live p ∧
    Heap Vms.smallKernel p 8000 A ∧
    copyuvm Vms.smallKernel (fun _ => false) p 8000 m = .ok (some d) t ∧
    Copied Vms.smallKernel m t p d 8000 ∧ Isolated t d p := by
  have hcount : pages 8000 = 2 := by decide
  obtain ⟨p, -, m, A, -, -, h, hp, hheap, hle⟩ :=
    Vms.exists_heap 8000 (by decide) (by decide) (by rw [hcount]; decide)
  rw [hcount, NPDENTRIES] at hle
  obtain ⟨d, t, hrun⟩ := copyuvm_ok h hp hheap (by rw [hcount, NPDENTRIES]; omega) fun _ => rfl
  obtain ⟨hcopied, -, -, hisolated, -⟩ := copyuvm_copies h hp hheap.le hrun
  exact ⟨m, A, p, d, t, h, hp, hheap, hrun, hcopied, hisolated⟩

end Xv6.Vm
