import Xv6.Param

namespace Xv6.Mp

open Function

-- The bytes from the configuration table on.
abbrev Table := Nat → UInt8

-- mp.h
def MPPROC : UInt8 := 0x00
def MPBUS : UInt8 := 0x01
def MPIOAPIC : UInt8 := 0x02
def MPIOINTR : UInt8 := 0x03
def MPLINTR : UInt8 := 0x04

-- sizeof(struct mpconf)
def MPCONF : Nat := 44

-- conf->length, which is a ushort, and conf->lapicaddr
def length (conf : Table) : Nat := (conf 4).toNat + 256 * (conf 5).toNat

def lapicaddr (conf : Table) : UInt32 :=
  UInt32.ofNat ((conf 36).toNat + 256 * ((conf 37).toNat + 256 * ((conf 38).toNat + 256 * (conf 39).toNat)))

def sum (addr : Table) : Nat → UInt8
  | 0 => 0
  | len + 1 => sum addr len + addr len

-- What mpconfig checks of the table that it has found.
def mpconfig (conf : Table) : Bool :=
  [conf 0, conf 1, conf 2, conf 3] == [0x50, 0x43, 0x4d, 0x50] && (conf 6 == 1 || conf 6 == 4) &&
    sum conf (length conf) == 0

inductive Panic
  | expectSmp
  | noMachine

-- The variables of mpinit; p counts from the beginning of the table, and cpus
-- are the apicids.
structure State where
  p : Nat
  ismp : Bool
  lapic : UInt32
  cpus : Fin NCPU → UInt8
  ncpu : Nat
  ioapicid : UInt8

-- The switch. The break of its default case leaves the switch and not the loop.
def entry (conf : Table) (s : State) : State :=
  if conf s.p = MPPROC then
    let s := if h : s.ncpu < NCPU then
        { s with cpus := update s.cpus ⟨s.ncpu, h⟩ (conf (s.p + 1)), ncpu := s.ncpu + 1 }
      else s
    { s with p := s.p + 20 }
  else if conf s.p = MPIOAPIC then { s with ioapicid := conf (s.p + 1), p := s.p + 8 }
  else if conf s.p = MPBUS ∨ conf s.p = MPIOINTR ∨ conf s.p = MPLINTR then { s with p := s.p + 8 }
  else { s with ismp := false }

def scan (conf : Table) : Nat → State → Option State
  | 0, _ => none
  | fuel + 1, s => if s.p < length conf then scan conf fuel (entry conf s) else some s

def begin (conf : Table) (cpus : Fin NCPU → UInt8) : State :=
  { p := MPCONF, ismp := true, lapic := lapicaddr conf, cpus := cpus, ncpu := 0, ioapicid := 0 }

-- No result when the rounds are not enough.
def mpinit (conf : Table) (cpus : Fin NCPU → UInt8) (fuel : Nat) : Option (Except Panic State) :=
  if mpconfig conf then
    (scan conf fuel (begin conf cpus)).map fun s => if s.ismp then .ok s else .error .noMachine
  else some (.error .expectSmp)

-- The types that the switch knows, and the sizes of their entries.
def Known (type : UInt8) : Prop := type ∈ [MPPROC, MPBUS, MPIOAPIC, MPIOINTR, MPLINTR]

def size (type : UInt8) : Nat := if type = MPPROC then 20 else 8

-- Where entries begin, up to the first of an unknown type.
inductive Entry (conf : Table) : Nat → Prop
  | first : Entry conf MPCONF
  | next {p : Nat} (h : Entry conf p) (hp : p < length conf) (hk : Known (conf p)) : Entry conf (p + size (conf p))

variable {conf : Table} {cpus : Fin NCPU → UInt8} {s t : State} {fuel : Nat}

theorem entry_known (hk : Known (conf s.p)) :
    (entry conf s).p = s.p + size (conf s.p) ∧ (entry conf s).ismp = s.ismp := by
  simp only [Known, List.mem_cons, List.not_mem_nil, or_false] at hk
  rw [entry, size]
  split_ifs with h1 h2 h3 h4
  · exact ⟨rfl, rfl⟩
  · exact ⟨rfl, rfl⟩
  · exact ⟨rfl, rfl⟩
  · exact ⟨rfl, rfl⟩
  · tauto

theorem entry_unknown (hk : ¬Known (conf s.p)) : entry conf s = { s with ismp := false } := by
  simp only [Known, List.mem_cons, List.not_mem_nil, or_false, not_or] at hk
  rw [entry, if_neg hk.1, if_neg hk.2.2.1, if_neg]
  tauto

theorem entry_ncpu (h : s.ncpu ≤ NCPU) : (entry conf s).ncpu ≤ NCPU := by
  rw [entry]
  split_ifs with h1 h2
  · exact h2
  all_goals exact h

theorem scan_unknown (hk : ¬Known (conf s.p)) (hp : s.p < length conf) : scan conf fuel s = none := by
  induction fuel generalizing s with
  | zero => rfl
  | succ fuel ih =>
    rw [scan, if_pos hp, entry_unknown hk]
    exact ih hk hp

theorem scan_end (h : scan conf fuel s = some t) : t.ismp = s.ismp ∧ length conf ≤ t.p := by
  induction fuel generalizing s with
  | zero => cases h
  | succ fuel ih =>
    have hk : s.p < length conf → Known (conf s.p) := by
      intro hp
      by_contra hk
      rw [scan_unknown hk hp] at h
      cases h
    rw [scan] at h
    split_ifs at h with hp
    · obtain ⟨hismp, hend⟩ := ih h
      exact ⟨hismp.trans (entry_known (hk hp)).2, hend⟩
    · cases h
      exact ⟨rfl, Nat.le_of_not_lt hp⟩

theorem scan_passes {p : Nat} (he : Entry conf p) (h : scan conf fuel (begin conf cpus) = some t) :
    ∃ s fuel', s.p = p ∧ scan conf fuel' s = some t := by
  induction he with
  | first => exact ⟨_, fuel, rfl, h⟩
  | next he hp hk ih =>
    obtain ⟨s, fuel', rfl, hs⟩ := ih
    cases fuel' with
    | zero => cases hs
    | succ fuel' =>
      rw [scan, if_pos hp] at hs
      exact ⟨_, fuel', (entry_known hk).1, hs⟩

theorem scan_ends (hk : ∀ p, Entry conf p → p < length conf → Known (conf p)) (s : State) (he : Entry conf s.p) :
    ∃ fuel t, scan conf fuel s = some t := by
  by_cases hp : s.p < length conf
  · have hentry := entry_known (hk _ he hp)
    have hsize : 0 < size (conf s.p) := by
      rw [size]
      split_ifs <;> decide
    have hnext : Entry conf (entry conf s).p := by
      rw [hentry.1]
      exact he.next hp (hk _ he hp)
    obtain ⟨fuel, t, ht⟩ := scan_ends hk _ hnext
    exact ⟨fuel + 1, t, by rw [scan, if_pos hp, ht]⟩
  · exact ⟨1, s, by rw [scan, if_neg hp]⟩
termination_by length conf - s.p

theorem known_of_scan (h : scan conf fuel (begin conf cpus) = some t) {p : Nat} (he : Entry conf p)
    (hp : p < length conf) : Known (conf p) := by
  obtain ⟨s, fuel', rfl, hs⟩ := scan_passes he h
  by_contra hk
  rw [scan_unknown hk hp] at hs
  cases hs

-- mpinit comes to an end exactly for the tables whose entries have known types,
-- and then it does not panic.
theorem mpinit_ends_iff (conf : Table) (cpus : Fin NCPU → UInt8) (h : mpconfig conf = true) :
    ((∃ fuel, (mpinit conf cpus fuel).isSome) ↔ ∀ p, Entry conf p → p < length conf → Known (conf p)) ∧
    (∀ fuel r, mpinit conf cpus fuel = some r → ∃ s, r = .ok s ∧ length conf ≤ s.p) ∧
    ∀ k, ((entry conf)^[k] (begin conf cpus)).ncpu ≤ NCPU := by
  have hsome : ∀ fuel, mpinit conf cpus fuel =
      (scan conf fuel (begin conf cpus)).map fun s => if s.ismp then .ok s else .error .noMachine :=
    fun fuel => if_pos h
  simp only [hsome, Option.isSome_map, Option.map_eq_some_iff, Option.isSome_iff_exists]
  refine ⟨⟨fun ⟨fuel, t, ht⟩ p he hp => known_of_scan ht he hp, fun hk => ?_⟩, ?_, fun k => ?_⟩
  · exact scan_ends hk (begin conf cpus) .first
  · rintro fuel r ⟨t, ht, rfl⟩
    obtain ⟨hismp, hend⟩ : t.ismp = true ∧ length conf ≤ t.p := scan_end ht
    rw [if_pos hismp]
    exact ⟨t, rfl, hend⟩
  · induction k with
    | zero => exact Nat.zero_le _
    | succ k ih =>
      rw [iterate_succ_apply']
      exact entry_ncpu ih

-- A table of a given length and checksum in which all bytes behind the version
-- are zero but for the first entry.
def tableOf (len checksum type : UInt8) : Table := fun i =>
  [0x50, 0x43, 0x4d, 0x50, len, 0, 4, checksum].getD i (if i = MPCONF then type else 0)

-- Two processors.
theorem mpinit_ends_processors : ∃ fuel s, mpinit (tableOf 84 120 0) (fun _ => 0) fuel = some (.ok s) ∧ 84 ≤ s.p := by
  obtain ⟨hends, hok, -⟩ := mpinit_ends_iff (tableOf 84 120 0) (fun _ => 0) (by decide +kernel)
  have hknown : ∀ p, Entry (tableOf 84 120 0) p → p < length (tableOf 84 120 0) → Known (tableOf 84 120 0 p) := by
    intro p he _
    have hle : MPCONF ≤ p := by
      induction he with
      | first => exact Nat.le_refl _
      | next _ hq _ ih => exact (ih hq).trans (Nat.le_add_right _ _)
    have hzero : tableOf 84 120 0 p = MPPROC := by
      rw [tableOf, List.getD_eq_default _ _ (hle.trans' (by decide)), ite_self]
      rfl
    rw [hzero]
    exact List.mem_cons_self
  obtain ⟨fuel, hfuel⟩ := hends.2 hknown
  obtain ⟨r, hr⟩ := Option.isSome_iff_exists.1 hfuel
  obtain ⟨s, rfl, hend⟩ := hok fuel r hr
  exact ⟨fuel, s, hr, hend⟩

-- An entry of type 5 is never left.
theorem mpinit_spins : mpconfig (tableOf 45 154 5) = true ∧
    ∀ fuel, mpinit (tableOf 45 154 5) (fun _ => 0) fuel = none := by
  have hconf : mpconfig (tableOf 45 154 5) = true := by decide
  refine ⟨hconf, fun fuel => ?_⟩
  rw [mpinit, if_pos hconf, scan_unknown (by unfold Known; decide) (by decide)]
  rfl

end Xv6.Mp
