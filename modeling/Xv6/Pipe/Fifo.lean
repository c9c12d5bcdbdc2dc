import Xv6.Pipe.Steps

namespace Xv6.Pipe

open Function Lib

variable {ι : Type} [DecidableEq ι] {s t : Sys ι} {i : ι}

-- The counters wrap at a multiple of the size of the ring.

theorem ring_store (p : Pipe) (b : UInt8) (h : p.count < PIPESIZE) : (p.store b).ring = p.ring ++ [b] := by
  have hslot : Fin.ofNat PIPESIZE p.nwrite.toNat = Fin.ofNat PIPESIZE (p.nread.toNat + p.count) := by
    apply ofNat_congr
    simp only [count, UInt32.toNat_sub, PIPESIZE]
    have hr := p.nread.toNat_lt
    have hw := p.nwrite.toNat_lt
    omega
  have hstore := contents_store p.data p.nread.toNat b h
  rw [← hslot, ← count_store p b h] at hstore
  exact hstore

theorem ring_load (p : Pipe) (h : 0 < p.count) : p.ring = p.front :: p.load.ring := by
  have hnext : contents p.data (p.nread + 1).toNat p.load.count =
      contents p.data (p.nread.toNat + 1) p.load.count := by
    apply contents_congr
    simp only [UInt32.toNat_add, PIPESIZE]
    have hone : (1 : UInt32).toNat = 1 := rfl
    omega
  have hload := contents_load p.data p.nread.toNat p.load.count
  rw [count_load p h, ← hnext] at hload
  exact hload

def bytesOf (id : Nat) (log : List (Nat × UInt8)) : List UInt8 :=
  (log.filter fun e => e.1 = id).map Prod.snd

theorem bytesOf_append_self (id : Nat) (log : List (Nat × UInt8)) (b : UInt8) :
    bytesOf id (log ++ [(id, b)]) = bytesOf id log ++ [b] := by
  simp [bytesOf]

theorem bytesOf_append_of_ne {id id' : Nat} (log : List (Nat × UInt8)) (b : UInt8) (h : id' ≠ id) :
    bytesOf id (log ++ [(id', b)]) = bytesOf id log := by
  simp [bytesOf, h]

theorem bytesOf_fresh {id : Nat} {log : List (Nat × UInt8)} (h : ∀ e ∈ log, e.1 < id) :
    bytesOf id log = [] := by
  rw [bytesOf, List.map_eq_nil_iff, List.filter_eq_nil_iff]
  intro e he
  have hlt := h e he
  simp only [decide_eq_true_eq]
  omega

def Pc.id : Pc → Option Nat
  | write w | fill w .. | notify w _ | block w _ | blocked w _ | written w | endWrite w => some w.id
  | read r | test r | wait r | waiting r | copy r _ | copied r _ | endRead r _ => some r.id
  | idle | close _ | shut _ | announce _ | endClose => none

def Pc.sent : Pc → Option (Write × Nat)
  | write w => some (w, 0)
  | fill w k _ | notify w k | block w k | blocked w k => some (w, k)
  | written w | endWrite w => some (w, w.n.toNat)
  | _ => none

def Pc.got : Pc → Option (Read × List UInt8)
  | read r | test r | wait r | waiting r => some (r, [])
  | copy r buf | copied r buf | endRead r buf => some (r, buf)
  | _ => none

theorem Pc.id_of_sent {pc : Pc} {w : Write} {k : Nat} (h : pc.sent = some (w, k)) : pc.id = some w.id := by
  cases pc <;> simp_all [Pc.sent, Pc.id]

theorem Pc.id_of_got {pc : Pc} {r : Read} {buf : List UInt8} (h : pc.got = some (r, buf)) :
    pc.id = some r.id := by
  cases pc <;> simp_all [Pc.got, Pc.id]

def Return.id : Return → Nat
  | write w _ => w.id
  | read r _ _ => r.id

-- What a finished call has moved, unless it returned -1.
def Return.Done (stored delivered : List (Nat × UInt8)) : Return → Prop
  | write w value => value = -1 ∨
      value = w.n ∧ bytesOf w.id stored = (List.range w.n.toNat).map w.addr
  | read r buf value => value = -1 ∨ value = buf.length ∧ bytesOf r.id delivered = buf

-- A call in progress or finished has its own identifier, and its bytes are the
-- ones its arguments and its progress say.
structure Calls (s : Sys ι) : Prop where
  fresh : ∀ i id, (s.pc i).id = some id → id < s.calls
  unique : ∀ i j id, (s.pc i).id = some id → (s.pc j).id = some id → i = j
  past : ∀ ret ∈ s.returns, ret.id < s.calls ∧ ∀ i, (s.pc i).id ≠ some ret.id
  storedFresh : ∀ e ∈ s.stored, e.1 < s.calls
  deliveredFresh : ∀ e ∈ s.delivered, e.1 < s.calls
  sent : ∀ i w k, (s.pc i).sent = some (w, k) →
    k ≤ w.n.toNat ∧ bytesOf w.id s.stored = (List.range k).map w.addr
  got : ∀ i r buf, (s.pc i).got = some (r, buf) → bytesOf r.id s.delivered = buf
  done : ∀ ret ∈ s.returns, ret.Done s.stored s.delivered

namespace Calls

variable {a : Pc}

section

variable (h : Calls s)
include h

theorem advance (hpc : t.pc = update s.pc i a) (hid : a.id = (s.pc i).id)
    (hsent : a.sent = (s.pc i).sent) (hgot : a.got = (s.pc i).got) (hcalls : t.calls = s.calls)
    (hstored : t.stored = s.stored) (hdelivered : t.delivered = s.delivered)
    (hreturns : t.returns = s.returns) : Calls t := by
  have hids : ∀ j, (t.pc j).id = (s.pc j).id := by
    rw [hpc]
    exact forall_update (P := fun j (pc : Pc) => pc.id = (s.pc j).id) (fun _ => rfl) hid
  have hsents : ∀ j, (t.pc j).sent = (s.pc j).sent := by
    rw [hpc]
    exact forall_update (P := fun j (pc : Pc) => pc.sent = (s.pc j).sent) (fun _ => rfl) hsent
  have hgots : ∀ j, (t.pc j).got = (s.pc j).got := by
    rw [hpc]
    exact forall_update (P := fun j (pc : Pc) => pc.got = (s.pc j).got) (fun _ => rfl) hgot
  constructor <;> simp only [hids, hsents, hgots, hcalls, hstored, hdelivered, hreturns]
  · exact h.fresh
  · exact h.unique
  · exact h.past
  · exact h.storedFresh
  · exact h.deliveredFresh
  · exact h.sent
  · exact h.got
  · exact h.done

theorem call (hpc : t.pc = update s.pc i a) (hid : a.id = some s.calls)
    (hsent : ∀ w k, a.sent = some (w, k) → k = 0) (hgot : ∀ r buf, a.got = some (r, buf) → buf = [])
    (hcalls : t.calls = s.calls + 1) (hstored : t.stored = s.stored)
    (hdelivered : t.delivered = s.delivered) (hreturns : t.returns = s.returns) : Calls t := by
  have hother : ∀ j id, j ≠ i → (t.pc j).id = some id → (s.pc j).id = some id := by
    intro j id hji hj
    rwa [hpc, update_of_ne hji] at hj
  have hself : ∀ id, (t.pc i).id = some id → id = s.calls := by
    intro id hi
    rw [hpc, update_self, hid] at hi
    exact (Option.some.inj hi).symm
  refine ⟨fun j id hj => ?_, fun j k id hj hk => ?_, fun ret hret => ?_, fun e he => ?_,
    fun e he => ?_, fun j w k hj => ?_, fun j r buf hj => ?_, fun ret hret => ?_⟩
  · rw [hcalls]
    by_cases hji : j = i
    · subst hji
      have hnew := hself id hj
      omega
    · have hold := h.fresh j id (hother j id hji hj)
      omega
  · by_cases hji : j = i <;> by_cases hki : k = i
    · rw [hji, hki]
    · have hnew := hself id (hji ▸ hj)
      have hold := h.fresh k id (hother k id hki hk)
      omega
    · have hnew := hself id (hki ▸ hk)
      have hold := h.fresh j id (hother j id hji hj)
      omega
    · exact h.unique j k id (hother j id hji hj) (hother k id hki hk)
  · rw [hreturns] at hret
    obtain ⟨hlt, hne⟩ := h.past ret hret
    refine ⟨by omega, fun j hj => ?_⟩
    by_cases hji : j = i
    · have hnew := hself ret.id (hji ▸ hj)
      omega
    · exact hne j (hother j _ hji hj)
  · rw [hstored] at he
    have hold := h.storedFresh e he
    omega
  · rw [hdelivered] at he
    have hold := h.deliveredFresh e he
    omega
  · rw [hstored]
    by_cases hji : j = i
    · subst hji
      have hw := hself w.id (Pc.id_of_sent hj)
      rw [hpc, update_self] at hj
      rw [hsent w k hj, hw, bytesOf_fresh h.storedFresh]
      exact ⟨Nat.zero_le _, rfl⟩
    · rw [hpc, update_of_ne hji] at hj
      exact h.sent j w k hj
  · rw [hdelivered]
    by_cases hji : j = i
    · subst hji
      have hr := hself r.id (Pc.id_of_got hj)
      rw [hpc, update_self] at hj
      rw [hgot r buf hj, hr, bytesOf_fresh h.deliveredFresh]
    · rw [hpc, update_of_ne hji] at hj
      exact h.got j r buf hj
  · rw [hreturns] at hret
    rw [hstored, hdelivered]
    exact h.done ret hret

theorem finish (hpc : t.pc = update s.pc i .idle) {ret : Return}
    (hreturns : t.returns = s.returns ++ [ret]) (hid : (s.pc i).id = some ret.id)
    (hdone : ret.Done s.stored s.delivered) (hcalls : t.calls = s.calls)
    (hstored : t.stored = s.stored) (hdelivered : t.delivered = s.delivered) : Calls t := by
  have hother : ∀ {j}, t.pc j ≠ .idle → j ≠ i ∧ t.pc j = s.pc j := by
    intro j hj
    have hji : j ≠ i := by
      intro he
      rw [he, hpc, update_self] at hj
      exact hj rfl
    rw [hpc, update_of_ne hji]
    exact ⟨hji, rfl⟩
  have hids : ∀ j id, (t.pc j).id = some id → j ≠ i ∧ (s.pc j).id = some id := by
    intro j id hj
    have hne := hother (j := j) (fun he => by rw [he] at hj; cases hj)
    rw [hne.2] at hj
    exact ⟨hne.1, hj⟩
  refine ⟨fun j id hj => ?_, fun j k id hj hk => ?_, fun r hr => ?_, ?_, ?_, fun j w k hj => ?_,
    fun j r buf hj => ?_, fun r hr => ?_⟩
  · rw [hcalls]
    exact h.fresh j id (hids j id hj).2
  · exact h.unique j k id (hids j id hj).2 (hids k id hk).2
  · rw [hreturns, List.mem_append, List.mem_singleton] at hr
    rw [hcalls]
    obtain hr | rfl := hr
    · obtain ⟨hlt, hne⟩ := h.past r hr
      exact ⟨hlt, fun j hj => hne j (hids j _ hj).2⟩
    · refine ⟨h.fresh i _ hid, fun j hj => ?_⟩
      obtain ⟨hji, hj⟩ := hids j _ hj
      exact hji (h.unique j i _ hj hid)
  · rw [hstored, hcalls]
    exact h.storedFresh
  · rw [hdelivered, hcalls]
    exact h.deliveredFresh
  · have hne := hother (j := j) (fun he => by rw [he] at hj; cases hj)
    rw [hne.2] at hj
    rw [hstored]
    exact h.sent j w k hj
  · have hne := hother (j := j) (fun he => by rw [he] at hj; cases hj)
    rw [hne.2] at hj
    rw [hdelivered]
    exact h.got j r buf hj
  · rw [hreturns, List.mem_append, List.mem_singleton] at hr
    rw [hstored, hdelivered]
    obtain hr | rfl := hr
    · exact h.done r hr
    · exact hdone

-- A byte of the call of process i goes into a log: only the bytes of this call
-- change.
omit [DecidableEq ι] in
theorem others_bytes {id : Nat} (hid : (s.pc i).id = some id) (b : UInt8) (log : List (Nat × UInt8)) :
    (∀ j id', j ≠ i → (s.pc j).id = some id' → bytesOf id' (log ++ [(id, b)]) = bytesOf id' log) ∧
    ∀ ret ∈ s.returns, bytesOf ret.id (log ++ [(id, b)]) = bytesOf ret.id log := by
  constructor
  · intro j id' hji hj
    apply bytesOf_append_of_ne
    intro he
    exact hji (h.unique j i id' hj (he ▸ hid))
  · intro ret hret
    apply bytesOf_append_of_ne
    intro he
    exact (h.past ret hret).2 i (he ▸ hid)

theorem store {w : Write} {k since : Nat} (hpc : s.pc i = .fill w k since) (hk : (k : Int) < w.n) (p : Pipe) :
    Calls ({ s with pipe := p, stored := s.stored ++ [(w.id, w.addr k)] }.goto i
      (.fill w (k + 1) since)) := by
  have hid : (s.pc i).id = some w.id := by
    rw [hpc]
    rfl
  obtain ⟨hothers, hpast⟩ := h.others_bytes hid (w.addr k) s.stored
  have hids : ∀ j, (update s.pc i (.fill w (k + 1) since) j).id = (s.pc j).id :=
    forall_update (P := fun j (pc : Pc) => pc.id = (s.pc j).id) (fun _ => rfl) hid.symm
  have hgots : ∀ j, (update s.pc i (.fill w (k + 1) since) j).got = (s.pc j).got :=
    forall_update (P := fun j (pc : Pc) => pc.got = (s.pc j).got) (fun _ => rfl) (by rw [hpc]; rfl)
  refine ⟨?_, ?_, ?_, fun e he => ?_, h.deliveredFresh, fun j v m hj => ?_, ?_, fun ret hret => ?_⟩
  · simpa only [Sys.goto, hids] using h.fresh
  · simpa only [Sys.goto, hids] using h.unique
  · simpa only [Sys.goto, hids] using h.past
  · simp only [Sys.goto, List.mem_append, List.mem_singleton] at he
    obtain he | rfl := he
    · exact h.storedFresh e he
    · exact h.fresh i w.id hid
  · by_cases hji : j = i
    · subst hji
      simp only [Sys.goto, update_self, Pc.sent, Option.some.injEq, Prod.mk.injEq] at hj ⊢
      obtain ⟨rfl, rfl⟩ := hj
      obtain ⟨-, hbytes⟩ := h.sent j w k (by rw [hpc]; rfl)
      refine ⟨by omega, ?_⟩
      rw [bytesOf_append_self, hbytes, List.range_succ, List.map_append, List.map_singleton]
    · simp only [Sys.goto, update_of_ne hji] at hj ⊢
      obtain ⟨hle, hbytes⟩ := h.sent j v m hj
      rw [hothers j v.id hji (Pc.id_of_sent hj)]
      exact ⟨hle, hbytes⟩
  · simpa only [Sys.goto, hgots] using h.got
  · have hdone := h.done ret hret
    cases ret with
    | write v value =>
      have hsame := hpast _ hret
      simp only [Return.id] at hsame
      simpa only [Sys.goto, Return.Done, hsame] using hdone
    | read r buf value => exact hdone

theorem load {r : Read} {buf : List UInt8} (hpc : s.pc i = .copy r buf) (p : Pipe) (b : UInt8) :
    Calls ({ s with pipe := p, delivered := s.delivered ++ [(r.id, b)] }.goto i
      (.copy r (buf ++ [b]))) := by
  have hid : (s.pc i).id = some r.id := by
    rw [hpc]
    rfl
  obtain ⟨hothers, hpast⟩ := h.others_bytes hid b s.delivered
  have hids : ∀ j, (update s.pc i (.copy r (buf ++ [b])) j).id = (s.pc j).id :=
    forall_update (P := fun j (pc : Pc) => pc.id = (s.pc j).id) (fun _ => rfl) hid.symm
  have hsents : ∀ j, (update s.pc i (.copy r (buf ++ [b])) j).sent = (s.pc j).sent :=
    forall_update (P := fun j (pc : Pc) => pc.sent = (s.pc j).sent) (fun _ => rfl) (by rw [hpc]; rfl)
  refine ⟨?_, ?_, ?_, h.storedFresh, fun e he => ?_, ?_, fun j q m hj => ?_, fun ret hret => ?_⟩
  · simpa only [Sys.goto, hids] using h.fresh
  · simpa only [Sys.goto, hids] using h.unique
  · simpa only [Sys.goto, hids] using h.past
  · simp only [Sys.goto, List.mem_append, List.mem_singleton] at he
    obtain he | rfl := he
    · exact h.deliveredFresh e he
    · exact h.fresh i r.id hid
  · simpa only [Sys.goto, hsents] using h.sent
  · by_cases hji : j = i
    · subst hji
      simp only [Sys.goto, update_self, Pc.got, Option.some.injEq, Prod.mk.injEq] at hj ⊢
      obtain ⟨rfl, rfl⟩ := hj
      rw [bytesOf_append_self, h.got j r buf (by rw [hpc]; rfl)]
    · simp only [Sys.goto, update_of_ne hji] at hj ⊢
      rw [hothers j q.id hji (Pc.id_of_got hj)]
      exact h.got j q m hj
  · have hdone := h.done ret hret
    cases ret with
    | write v value => exact hdone
    | read q m value =>
      have hsame := hpast _ hret
      simp only [Return.id] at hsame
      simpa only [Sys.goto, Return.Done, hsame] using hdone

theorem step {b : Action} (hmove : Move s i b t) : Calls t := by
  have hsent := h.sent i
  have hgot := h.got i
  cases hmove with
  | kill => exact ⟨h.fresh, h.unique, h.past, h.storedFresh, h.deliveredFresh, h.sent, h.got, h.done⟩
  | callWrite addr n hpc => exact h.call rfl rfl (by simp [Pc.sent]) nofun rfl rfl rfl rfl
  | callRead n hpc => exact h.call rfl rfl nofun (by simp [Pc.got]) rfl rfl rfl rfl
  | giveUp w k since hpc hk hfull hwhy hlock =>
    exact h.finish rfl rfl (by rw [hpc]; rfl) (Or.inl rfl) rfl rfl rfl
  | store w k since hpc hk hfull => exact h.store hpc hk _
  | filled w k since hpc hk =>
    -- The loop has run to the end, so i is n.
    have hle := (hsent w k (by rw [hpc]; rfl)).1
    have hn : w.n.toNat = k := by omega
    refine h.advance rfl (by rw [hpc]; rfl) ?_ (by rw [hpc]; rfl) rfl rfl rfl rfl
    rw [hpc, Pc.sent, Pc.sent, hn]
  | endWrite w hpc hlock =>
    have hbytes := (hsent w _ (by rw [hpc]; rfl)).2
    exact h.finish rfl rfl (by rw [hpc]; rfl) (Or.inr ⟨rfl, hbytes⟩) rfl rfl rfl
  | refuse r hpc hlock => exact h.finish rfl rfl (by rw [hpc]; rfl) (Or.inl rfl) rfl rfl rfl
  | load r buf hpc hk hempty => exact h.load hpc _ _
  | endRead r buf hpc hlock =>
    have hbytes := hgot r buf (by rw [hpc]; rfl)
    exact h.finish rfl rfl (by rw [hpc]; rfl) (Or.inr ⟨rfl, hbytes⟩) rfl rfl rfl
  | callClose _ hpc | write _ hpc | full _ _ _ hpc | notify _ _ hpc | block _ _ hpc
  | blocked _ _ hpc | written _ hpc | read _ hpc | empty _ hpc | ready _ hpc | wait _ hpc
  | waiting _ hpc | loaded _ _ hpc | copied _ _ hpc | close _ hpc | shut _ hpc | announce _ hpc
  | endClose hpc =>
    exact h.advance rfl (by rw [hpc]; rfl) (by rw [hpc]; rfl) (by rw [hpc]; rfl) rfl rfl rfl rfl

end

omit [DecidableEq ι] in
theorem alloc (data : Fin PIPESIZE → UInt8) : Calls (alloc data : Sys ι) := by
  constructor <;> simp [Pipe.alloc, Pc.id, Pc.sent, Pc.got]

end Calls

-- The bytes in the ring are those that are stored and not delivered.
def Queued (s : Sys ι) : Prop :=
  s.stored.map Prod.snd = s.delivered.map Prod.snd ++ s.pipe.ring

theorem Queued.step {b : Action} (hl : Locked s) (h : Queued s) (hmove : Move s i b t) : Queued t := by
  cases hmove with
  | store w k since hpc hk hfull =>
    have hroom := hl.room
    have hne : s.pipe.count ≠ PIPESIZE := by
      intro he
      rw [(full_iff _).2 he] at hfull
      cases hfull
    have hring := ring_store s.pipe (w.addr k) (by omega)
    show (s.stored ++ [(w.id, w.addr k)]).map Prod.snd =
      s.delivered.map Prod.snd ++ (s.pipe.store (w.addr k)).ring
    rw [List.map_append, h, hring, List.append_assoc]
    rfl
  | load r buf hpc hk hempty =>
    have hne : s.pipe.count ≠ 0 := by
      intro he
      rw [(empty_iff _).2 he] at hempty
      cases hempty
    have hring := ring_load s.pipe (by omega)
    show s.stored.map Prod.snd =
      (s.delivered ++ [(r.id, s.pipe.front)]).map Prod.snd ++ s.pipe.load.ring
    rw [h, hring, List.map_append, List.append_assoc]
    rfl
  | shut writable hpc =>
    have hring : (s.pipe.close writable).ring = s.pipe.ring := by
      cases writable <;> rfl
    exact h.trans (by rw [← hring]; rfl)
  | _ => exact h

omit [DecidableEq ι] in
theorem Queued.alloc (data : Fin PIPESIZE → UInt8) : Queued (alloc data : Sys ι) := by
  show [] = [] ++ contents data 0 ((0 : UInt32) - 0).toNat
  rfl

theorem run_inv {data : Fin PIPESIZE → UInt8} {ls : List (ι × Action)}
    (h : run step (alloc data) ls = some s) : Locked s ∧ Calls s ∧ Queued s := by
  refine run_preserves (P := fun s => Locked s ∧ Calls s ∧ Queued s)
    ⟨Locked.alloc data, Calls.alloc data, Queued.alloc data⟩ ?_ h
  rintro s ⟨i, b⟩ t ⟨hl, hc, hq⟩ hstep
  have hmove := step_move hstep
  exact ⟨hl.step hmove, hc.step hmove, hq.step hl hmove⟩

-- In every run the delivered bytes are a prefix of the stored ones and the rest
-- is in the ring, of at most PIPESIZE bytes. A pipewrite that returns n > 0 has
-- stored its n bytes in order, what a piperead returns is what it has taken out,
-- and a piperead of n > 0 bytes that returns 0 does so on an empty ring with the
-- write end closed.
theorem run_fifo (data : Fin PIPESIZE → UInt8) (ls : List (ι × Action))
    (h : run step (alloc data) ls = some s) :
    (s.stored.map Prod.snd = s.delivered.map Prod.snd ++ s.pipe.ring ∧
      s.pipe.ring.length = (s.pipe.nwrite - s.pipe.nread).toNat ∧
      (s.pipe.nwrite - s.pipe.nread).toNat ≤ PIPESIZE) ∧
    (∀ w value, Return.write w value ∈ s.returns → 0 < value →
      value = w.n ∧ bytesOf w.id s.stored = (List.range w.n.toNat).map w.addr) ∧
    (∀ r buf value, Return.read r buf value ∈ s.returns → 0 ≤ value →
      value = buf.length ∧ bytesOf r.id s.delivered = buf) ∧
    ∀ l t r buf, step s l = some t → t.returns = s.returns ++ [Return.read r buf 0] → 0 < r.n →
      s.pipe.ring = [] ∧ s.pipe.writeopen = false := by
  obtain ⟨hl, hc, hq⟩ := run_inv h
  refine ⟨⟨hq, length_contents .., hl.room⟩, fun w value hret hpos => ?_, fun r buf value hret hpos => ?_,
    fun l t r buf hstep hret hn => ?_⟩
  · obtain hneg | hdone := hc.done _ hret
    · omega
    · exact hdone
  · obtain hneg | hdone := hc.done _ hret
    · omega
    · exact hdone
  · obtain ⟨i, b⟩ := l
    have hnew : ∀ ret, s.returns ++ [ret] = s.returns ++ [Return.read r buf 0] → ret = .read r buf 0 := by
      intro ret he
      simpa using he
    cases step_move hstep with
    | giveUp w k since hpc hk hfull hwhy hlock => cases hnew _ hret
    | endWrite w hpc hlock => cases hnew _ hret
    | refuse r hpc hlock => cases hnew _ hret
    | endRead r' buf' hpc hlock =>
      obtain ⟨hr, -, hlength⟩ := Return.read.inj (hnew _ hret)
      have hknows := hl.knows i
      rw [hpc] at hknows
      obtain ⟨hempty, hopen⟩ := hknows (List.length_eq_zero_iff.1 (by omega)) (hr ▸ hn)
      rw [ring, (empty_iff _).1 hempty]
      exact ⟨rfl, hopen⟩
    | _ => simp [Sys.goto, Sys.wakeup] at hret

def writeOne : List (Unit × Action) :=
  ((), .write (fun _ => 7) 1) :: List.replicate 5 ((), .go)

theorem run_fifo_writeOne : ∃ s, run step (alloc fun _ => 0) writeOne = some s ∧
    Return.write ⟨0, fun _ => 7, 1⟩ 1 ∈ s.returns ∧ bytesOf 0 s.stored = [7] := by
  have hrun : ∃ s, run step (alloc fun _ => 0) writeOne = some s ∧
      Return.write ⟨0, fun _ => 7, 1⟩ 1 ∈ s.returns :=
    ⟨_, rfl, List.mem_singleton_self _⟩
  obtain ⟨s, hs, hret⟩ := hrun
  exact ⟨s, hs, hret, ((run_fifo _ writeOne hs).2.1 _ _ hret (by decide)).2⟩

end Xv6.Pipe
