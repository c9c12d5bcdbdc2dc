import Xv6.Fs.Write

namespace Xv6.Fs

open Lib

-- A file or directory as the system calls see it.
@[ext] structure Node where
  type : UInt16
  major : UInt16
  minor : UInt16
  nlink : UInt16
  data : List UInt8
deriving DecidableEq

-- The bytes src in place of what data has from off on.
def splice (data src : List UInt8) (off : Nat) : List UInt8 :=
  data.take off ++ src ++ data.drop (off + src.length)

theorem length_splice {data src : List UInt8} {off : Nat} (h : off ≤ data.length) :
    (splice data src off).length = max data.length (off + src.length) := by
  simp only [splice, List.length_append, List.length_take, List.length_drop]
  omega

theorem getElem?_splice {data src : List UInt8} {off : Nat} (h : off ≤ data.length) (x : Nat) :
    (splice data src off)[x]? =
      if off ≤ x ∧ x < off + src.length then src[x - off]? else data[x]? := by
  have htake : (data.take off).length = off := by
    rw [List.length_take]
    omega
  unfold splice
  by_cases hlow : x < off
  · rw [if_neg (by omega), List.append_assoc, List.getElem?_append_left (by omega),
      List.getElem?_take_of_lt hlow]
  · by_cases hmid : x < off + src.length
    · rw [if_pos (by omega), List.getElem?_append_left (by rw [List.length_append]; omega),
        List.getElem?_append_right (by omega), htake]
    · rw [if_neg (by omega), List.getElem?_append_right (by rw [List.length_append]; omega),
        List.length_append, htake, List.getElem?_drop]
      congr 1
      omega

namespace Store

def contents (st : Store) (i : Nat) : List UInt8 :=
  (List.range (st.dino i).size.toNat).map (st.byte i)

def node (st : Store) (i : Nat) : Option Node :=
  if (st.dino i).type = 0 then none
  else some
    { type := (st.dino i).type
      major := (st.dino i).major
      minor := (st.dino i).minor
      nlink := (st.dino i).nlink
      data := st.contents i }

variable {st st' : Store} {i : Nat}

@[simp] theorem length_contents : (st.contents i).length = (st.dino i).size.toNat := by
  simp [contents]

theorem getElem?_contents (x : Nat) :
    (st.contents i)[x]? = if x < (st.dino i).size.toNat then some (st.byte i x) else none := by
  unfold contents
  by_cases h : x < (st.dino i).size.toNat
  · rw [if_pos h, List.getElem?_map, List.getElem?_range h]
    rfl
  · rw [if_neg h, List.getElem?_eq_none]
    simp only [List.length_map, List.length_range]
    omega

theorem contents_congr (hsize : (st'.dino i).size = (st.dino i).size)
    (hbyte : ∀ x, x < (st.dino i).size.toNat → st'.byte i x = st.byte i x) :
    st'.contents i = st.contents i := by
  unfold contents
  rw [hsize]
  exact List.map_congr_left fun x hx => hbyte x (List.mem_range.1 hx)

theorem node_congr (hd : st'.dino i = st.dino i)
    (hbyte : ∀ x, x < (st.dino i).size.toNat → st'.byte i x = st.byte i x) :
    st'.node i = st.node i := by
  unfold node
  rw [contents_congr (by rw [hd]) hbyte, hd]

theorem node_eq_none_iff : st.node i = none ↔ (st.dino i).type = 0 := by
  unfold node
  split <;> simp_all

theorem node_some {n : Node} (h : st.node i = some n) : (st.dino i).type ≠ 0 ∧
    n.type = (st.dino i).type ∧ n.major = (st.dino i).major ∧ n.minor = (st.dino i).minor ∧
    n.nlink = (st.dino i).nlink ∧ n.data = st.contents i := by
  unfold node at h
  split at h
  · cases h
  · rename_i ht
    cases h
    exact ⟨ht, rfl, rfl, rfl, rfl, rfl⟩

end Store

def Kernel.nodes (sb : Super) (s : Kernel) : Nat → Option Node := (store sb s.disk).node

structure Coherent (sb : Super) (s : Kernel) : Prop where
  sound : (store sb s.disk).Sound sb
  nonneg : ∀ ip, 0 ≤ (s.icache ip).ref
  dev : ∀ ip, 0 < (s.icache ip).ref → (s.icache ip).dev = ROOTDEV
  inum_pos : ∀ ip, 0 < (s.icache ip).ref → 0 < (s.icache ip).inum
  unique : ∀ ip jp, 0 < (s.icache ip).ref → 0 < (s.icache jp).ref →
    (s.icache ip).inum = (s.icache jp).inum → ip = jp
  copy : ∀ ip, 0 < (s.icache ip).ref → (s.icache ip).valid →
    (s.icache ip).copy = (store sb s.disk).dino (s.icache ip).inum
  alloc : ∀ ip, 0 < (s.icache ip).ref → (s.icache ip).valid → (s.icache ip).copy.type ≠ 0

-- Which inodes are in the cache, and how often they are referenced.
def Inode.key (node : Inode) : Nat × Nat × Int × Bool := (node.dev, node.inum, node.ref, node.valid)

def SameKeys (s t : Kernel) : Prop := ∀ ip, (t.icache ip).key = (s.icache ip).key

structure Ready (s : Kernel) (ip : Fin NINODE) : Prop where
  ref : 0 < (s.icache ip).ref
  valid : (s.icache ip).valid

namespace Coherent

variable {sb : Super} {s t : Kernel} {ip : Fin NINODE}

section

variable (h : Coherent sb s) (hip : Ready s ip)
include h hip

theorem inum_lt : (s.icache ip).inum < sb.ninodes := by
  have htype := h.alloc ip hip.ref hip.valid
  rw [h.copy ip hip.ref hip.valid] at htype
  by_contra hlt
  exact htype (congrArg Dinode.type (if_neg hlt))

theorem mem_eq : s.mem sb ip = store sb s.disk := by
  unfold Kernel.mem
  rw [h.copy ip hip.ref hip.valid]
  ext1
  · exact Function.update_eq_self ..
  · rfl
  · rfl

theorem node : s.nodes sb (s.icache ip).inum =
    some { type := (s.icache ip).copy.type, major := (s.icache ip).copy.major
           minor := (s.icache ip).copy.minor, nlink := (s.icache ip).copy.nlink
           data := (store sb s.disk).contents (s.icache ip).inum } := by
  have hcopy := h.copy ip hip.ref hip.valid
  have htype := h.alloc ip hip.ref hip.valid
  rw [hcopy] at htype ⊢
  exact if_neg htype

end

end Coherent
end Xv6.Fs
