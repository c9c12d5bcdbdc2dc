import Xv6.Fs.Walk

namespace Xv6.Fs

open Function Lib

def dots (name : List UInt8) : Prop := namecmp name dot = 0 ∨ namecmp name dotdot = 0

instance (name : List UInt8) : Decidable (dots name) := inferInstanceAs (Decidable (_ ∨ _))

theorem dots_congr {name name' : List UInt8} (h : namecmp name name' = 0) : dots name ↔ dots name' := by
  unfold dots namecmp at *
  simp only [strncmp_eq_zero_iff] at *
  rw [h]

-- The bytes of directory d: whole entries, for inodes of the disk, of which only
-- those for . and .. can be for d itself.
structure DirOk (sb : Super) (d : Nat) (data : List UInt8) : Prop where
  whole : DIRENT ∣ data.length
  lt : ∀ de ∈ dirents data, de.inum ≠ 0 → de.inum.toNat < sb.ninodes
  other : ∀ de ∈ dirents data, de.inum ≠ 0 → ¬ dots de.name → de.inum.toNat ≠ d

def Dirs (sb : Super) (node : Nat → Option Node) : Prop :=
  ∀ d n, node d = some n → n.type = T_DIR → DirOk sb d n.data

section DirOk

variable {sb : Super} {d : Nat} {data : List UInt8}

theorem DirOk.nil : DirOk sb d [] :=
  ⟨⟨0, rfl⟩, fun _ hde => (nomatch hde), fun _ hde => nomatch hde⟩

theorem DirOk.splice (h : DirOk sb d data) {de : Dirent} {k : Nat} (hde : de.name.length = DIRSIZ)
    (hk : k ≤ (dirents data).length) (hlt : de.inum ≠ 0 → de.inum.toNat < sb.ninodes)
    (hother : de.inum ≠ 0 → ¬ dots de.name → de.inum.toNat ≠ d) :
    DirOk sb d (Fs.splice data de.bytes (k * DIRENT)) := by
  have hmem : ∀ de' ∈ dirents (Fs.splice data de.bytes (k * DIRENT)), de' = de ∨ de' ∈ dirents data := by
    intro de' hde'
    rw [dirents_splice hde h.whole hk, List.mem_append, List.mem_cons] at hde'
    rcases hde' with hde' | hde' | hde'
    · exact .inr (List.mem_of_mem_take hde')
    · exact .inl hde'
    · exact .inr (List.mem_of_mem_drop hde')
  refine ⟨whole_splice hde h.whole hk, fun de' hde' => ?_, fun de' hde' => ?_⟩
  · rcases hmem de' hde' with rfl | hde'
    · exact hlt
    · exact h.lt de' hde'
  · rcases hmem de' hde' with rfl | hde'
    · exact hother
    · exact h.other de' hde'

theorem dots_strncpy (name : List UInt8) : dots (strncpy DIRSIZ name) ↔ dots name := by
  refine dots_congr ?_
  unfold namecmp
  rw [strncmp_eq_zero_iff, strncpy_strncpy]

theorem DirOk.link {n : Node} (h : DirOk sb d n.data) (hsb : sb.Valid) {i : Nat} (hi : i < sb.ninodes) {name : List UInt8}
    (hother : ¬ dots name → i ≠ d) : DirOk sb d (n.link name i).data := by
  have hnum : (newDirent name i).inum.toNat = i := by
    have hmax := hsb.ninodes_le
    change (UInt16.ofNat i).toNat = i
    rw [UInt16.toNat_ofNat']
    omega
  refine h.splice (length_strncpy ..) (emptySlot_le _) (fun _ => by rw [hnum]; exact hi) fun _ hdots => ?_
  rw [hnum]
  exact hother fun hname => hdots ((dots_strncpy name).2 hname)

def Node.unlink (n : Node) (k : Nat) : Node := n.splice zeroDirent.bytes (k * DIRENT)

theorem DirOk.unlink {n : Node} (h : DirOk sb d n.data) {k : Nat} (hk : k ≤ (dirents n.data).length) :
    DirOk sb d (n.unlink k).data :=
  h.splice (by decide) hk (fun h0 => absurd rfl h0) fun h0 => absurd rfl h0

theorem DirOk.found (h : DirOk sb d data) {name : List UInt8} {k i : Nat}
    (hfind : dirfind name 0 (dirents data) = some (k, i)) :
    0 < i ∧ i < sb.ninodes ∧ (¬ dots name → i ≠ d) := by
  obtain ⟨x, de, rfl, hx, hbinds, rfl, -⟩ := dirfind_eq_some hfind
  have hmem := List.mem_of_getElem? hx
  refine ⟨?_, h.lt de hmem hbinds.1, fun hname => ?_⟩
  · rw [Nat.pos_iff_ne_zero]
    exact fun he => hbinds.1 (UInt16.toNat_inj.1 he)
  · exact h.other de hmem hbinds.1 fun hdots => hname ((dots_congr hbinds.2).2 hdots)

end DirOk

-- The inodes of node' are inodes of node, with any numbers of links.
def Fewer (node node' : Nat → Option Node) : Prop :=
  ∀ i m, node' i = some m → ∃ n, node i = some n ∧ m.type = n.type ∧ m.data = n.data

theorem Fewer.trans {node node' node'' : Nat → Option Node} (h : Fewer node node') (h' : Fewer node' node'') :
    Fewer node node'' := by
  intro i m hm
  obtain ⟨n', hn', htype', hdata'⟩ := h' i m hm
  obtain ⟨n, hn, htype, hdata⟩ := h i n' hn'
  exact ⟨n, hn, htype'.trans htype, hdata'.trans hdata⟩

-- One inode is freed, or its links are counted.
theorem Fewer.update {node : Nat → Option Node} {i : Nat} {o : Option Node}
    (h : ∀ m, o = some m → ∃ n, node i = some n ∧ m.type = n.type ∧ m.data = n.data) :
    Fewer node (update node i o) := by
  intro j m hm
  by_cases hj : j = i
  · rw [hj, update_self] at hm
    rw [hj]
    exact h m hm
  · rw [update_of_ne hj] at hm
    exact ⟨m, hm, rfl, rfl⟩

namespace Dirs

variable {sb : Super} {node node' : Nat → Option Node} {i : Nat}

theorem fewer (h : Dirs sb node) (hfewer : Fewer node node') : Dirs sb node' := by
  intro d m hm htype
  obtain ⟨n, hn, htype', hdata⟩ := hfewer d m hm
  rw [hdata]
  exact h d n hn (htype' ▸ htype)

theorem set (h : Dirs sb node) {n : Node} (hn : n.type = T_DIR → DirOk sb i n.data) :
    Dirs sb (update node i (some n)) := by
  intro d n' hn' htype
  by_cases hd : d = i
  · subst hd
    rw [update_self] at hn'
    cases hn'
    exact hn htype
  · rw [update_of_ne hd] at hn'
    exact h d n' hn' htype

theorem free (h : Dirs sb node) : Dirs sb (update node i none) :=
  h.fewer (.update fun m hm => by cases hm)

theorem walkable {st : Store} (h : Dirs sb st.node) : Walkable sb st (· < sb.ninodes) :=
  ⟨fun _ hi _ => hi, fun i n _ hn htype => (h i n hn htype).whole,
    fun i n _ _ _ _ hn htype hfind => ((h i n hn htype).found hfind).2.1⟩

end Dirs

end Xv6.Fs
