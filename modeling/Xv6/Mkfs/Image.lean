import Xv6.Mkfs
import Xv6.Fs.Blocks

namespace Xv6.Mkfs

open Function

open Lib Fs

theorem sb_nmeta : sb.nmeta = nmeta := by decide

theorem sb_valid : sb.Valid := by
  refine ⟨fun i hi => ?_, fun b hb => ?_, by decide, by decide, by decide, by decide⟩
  · simp only [sb, Super.iblock, NINODES, IPB, BSIZE, DINODE, nlog, ninodeblocks] at *
    omega
  · rw [sb_nmeta]
    simp only [sb, Super.bblock, BPB, BSIZE, FSSIZE, nmeta, nbitmap] at *
    omega

theorem sector_eq {b : Nat} (hb : b ≤ FSSIZE) : sector b = b := by
  simp only [sector, BSIZE, FSSIZE] at *
  omega

-- What the image holds. The bitmap is written at the end; up to then the
-- blocks below freeblock are in use.
def State.store (s : State) : Store :=
  { Fs.store sb s.disk with bit := fun b => decide (b < s.freeblock) }

-- The same with the inode i as iappend has it.
def State.mem (s : State) (i : Nat) (din : Dinode) : Store := s.store.setDino i din

def State.wrote (s : State) (b : Nat) (blk : Block) : State := { s with disk := update s.disk b blk }

def State.took (s : State) : State := { s with freeblock := s.freeblock + 1 }

-- The whole image has been written, and the blocks from freeblock on are zero.
structure Fine (s : State) : Prop where
  len : s.len = FSSIZE
  low : nmeta ≤ s.freeblock
  high : s.freeblock ≤ FSSIZE
  clean : ∀ b, s.freeblock ≤ b → b < FSSIZE → s.disk b = zeroBlock

variable {s : State}

theorem Fine.wrote (h : Fine s) {b : Nat} (hb : b < s.freeblock) (blk : Block) : Fine (s.wrote b blk) := by
  refine ⟨h.len, h.low, h.high, fun c hc hsize => ?_⟩
  have hne : c ≠ b := Nat.ne_of_gt (Nat.lt_of_lt_of_le hb hc)
  exact (update_of_ne hne _ _).trans (h.clean c hc hsize)

theorem Fine.took (h : Fine s) (hb : s.freeblock < FSSIZE) : Fine s.took :=
  ⟨h.len, Nat.le_succ_of_le h.low, hb, fun c hc hsize => h.clean c (Nat.le_of_succ_le hc) hsize⟩

theorem Fine.store_took (h : Fine s) (hb : s.freeblock < FSSIZE) : s.took.store = s.store.take s.freeblock := by
  have hdata : (Fs.store sb s.disk).data s.freeblock = zeroBlock :=
    (Store.data_eq (by rw [sb_nmeta]; exact h.low) hb).trans (h.clean _ (Nat.le_refl _) hb)
  ext1
  · rfl
  · funext b
    show decide (b < s.freeblock + 1) = update (fun b => decide (b < s.freeblock)) s.freeblock true b
    by_cases hbf : b = s.freeblock
    · rw [hbf, update_self]
      simp
    · rw [update_of_ne hbf]
      simp only [decide_eq_decide]
      omega
  · show (Fs.store sb s.disk).data = update (Fs.store sb s.disk).data s.freeblock zeroBlock
    rw [← hdata, update_eq_self]

theorem store_wrote {b : Nat} (hlow : nmeta ≤ b) (hb : b < FSSIZE) (blk : Block) :
    (s.wrote b blk).store = s.store.put b blk := by
  have hput := @Store.putData _ s.disk _ sb_valid (by rw [sb_nmeta]; exact hlow) hb blk
  unfold State.store State.wrote
  rw [hput]
  rfl

-- winode
def State.setDino (s : State) (i : Nat) (d : Dinode) : State :=
  s.wrote (sb.iblock i) (putDinode (s.disk (sb.iblock i)) (i % IPB) d)

variable {i : Nat}

theorem store_setDino (hi : i < NINODES) (d : Dinode) : (s.setDino i d).store = s.store.setDino i d := by
  have hput := @Store.putDinode _ s.disk sb_valid _ hi d
  unfold State.store State.setDino State.wrote
  rw [hput]
  rfl

theorem iblock_lt (hi : i < NINODES) : sb.iblock i < nmeta := by
  have hlt := Store.iblock_lt_nmeta sb_valid hi
  rwa [sb_nmeta] at hlt

theorem Fine.setDino (h : Fine s) (hi : i < NINODES) (d : Dinode) : Fine (s.setDino i d) :=
  h.wrote (Nat.lt_of_lt_of_le (iblock_lt hi) h.low) _

section Rules

variable {α : Type} {Q : α → State → Prop} {E : Prop}

theorem sat_assert {c : Prop} [Decidable c] {f : Unit → MkfsM α} (he : ¬ c → E)
    (hf : c → Sat (f ()) s Q fun _ _ => E) : Sat (assert c >>= f) s Q fun _ _ => E := by
  by_cases hc : c
  · have ha : assert c = pure () := if_pos hc
    rw [ha]
    exact hf hc
  · have ha : assert c = throw .assertion := if_neg hc
    rw [ha]
    exact he hc

theorem rsect_eq (hlen : s.len = FSSIZE) {b : Nat} (hb : b < FSSIZE) : rsect b s = .ok (s.disk b) s := by
  have hsect := sector_eq (Nat.le_of_lt hb)
  show (if sector b < s.len then _ else _ : MkfsM Block) s = _
  rw [if_pos (by rw [hsect, hlen]; exact hb), hsect]
  rfl

theorem wsect_eq (hlen : s.len = FSSIZE) {b : Nat} (hb : b < FSSIZE) (blk : Block) :
    wsect b blk s = .ok () (s.wrote b blk) := by
  have hsect := sector_eq (Nat.le_of_lt hb)
  have hmax : max s.len (b + 1) = s.len := by rw [hlen]; omega
  show EStateM.Result.ok () { s with disk := _, len := _ } = _
  rw [hsect, hmax]
  rfl

theorem sat_rsect (hlen : s.len = FSSIZE) {b : Nat} (hb : b ≤ FSSIZE) {f : Block → MkfsM α} (he : b = FSSIZE → E)
    (hf : b < FSSIZE → Sat (f (s.disk b)) s Q fun _ _ => E) : Sat (rsect b >>= f) s Q fun _ _ => E := by
  rcases Nat.lt_or_eq_of_le hb with hlt | heq
  · exact Sat.bind_ok (rsect_eq hlen hlt) (hf hlt)
  · refine Sat.bind (P := fun _ _ => False) ?_ fun _ _ hfalse => hfalse.elim
    show Sat (if sector b < s.len then _ else _ : MkfsM Block) s _ _
    rw [if_neg (by rw [sector_eq hb, hlen]; omega)]
    exact he heq

theorem sat_wsect (hlen : s.len = FSSIZE) {b : Nat} (hb : b < FSSIZE) {blk : Block} {f : Unit → MkfsM α}
    (hf : Sat (f ()) (s.wrote b blk) Q fun _ _ => E) : Sat (wsect b blk >>= f) s Q fun _ _ => E :=
  Sat.bind_ok (wsect_eq hlen hb blk) hf

theorem sat_nextBlock {f : UInt32 → MkfsM α} (hf : Sat (f (UInt32.ofNat s.freeblock)) s.took Q fun _ _ => E) :
    Sat (nextBlock >>= f) s Q fun _ _ => E := hf

end Rules

theorem iblock_lt_size (hi : i < NINODES) : sb.iblock i < FSSIZE :=
  Nat.lt_trans (iblock_lt hi) (by decide)

theorem rinode_eq (hlen : s.len = FSSIZE) (hi : i < NINODES) : rinode i s = .ok (s.store.dino i) s := by
  unfold rinode
  rw [bind_of_ok (rsect_eq hlen (iblock_lt_size hi))]
  exact congrArg (EStateM.Result.ok · s) (Store.dino_eq hi).symm

theorem winode_eq (hlen : s.len = FSSIZE) (hi : i < NINODES) (d : Dinode) :
    winode i d s = .ok () (s.setDino i d) := by
  unfold winode
  rw [bind_of_ok (rsect_eq hlen (iblock_lt_size hi))]
  exact wsect_eq hlen (iblock_lt_size hi) _

end Xv6.Mkfs
