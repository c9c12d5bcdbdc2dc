import Xv6.Fs.Effects
import Xv6.Fs.Entries

namespace Xv6.Fs

open Lib

variable {sb : Super} {dev : Devsw} {E : Stop → Prop} {S : Sess} {s t : Kernel} {dp : Fin NINODE} {d : Nat} {n : Node}

theorem Inv.length_le (h : Inv sb S s) {i : Nat} (hn : S.st.node i = some n) : n.data.length ≤ MAXFILE * BSIZE := by
  obtain ⟨halloc, -, -, -, -, hdata⟩ := Store.node_some hn
  rw [hdata, Store.length_contents]
  exact ((h.store_eq ▸ h.coherent.sound : S.st.Sound sb).full i halloc).size_le

-- A call has locked the directory d, which consists of whole entries.
structure Sess.Dir (S : Sess) (dp : Fin NINODE) (d : Nat) (n : Node) : Prop where
  has : S.Has dp d
  held : dp ∈ S.held
  node : S.st.node d = some n
  type : n.type = T_DIR
  whole : DIRENT ∣ n.data.length

namespace Sess.Dir

theorem not_dev (hd : S.Dir dp d n) : n.type ≠ T_DEV := by
  rw [hd.type]
  decide

theorem readDirent_eq (h : Inv sb S s) (hd : S.Dir dp d n) (failure : Panic) {k : Nat}
    (hk : k < (dirents n.data).length) :
    readDirent sb dev dp (k * DIRENT) failure s = .ok (direntAt n.data k) s := by
  rw [length_dirents] at hk
  have hend : k * DIRENT + DIRENT ≤ n.data.length := by
    simp only [DIRENT] at *
    omega
  have hmax := h.length_le hd.node
  have hoff : (UInt32.ofNat (k * DIRENT)).toNat = k * DIRENT := by
    rw [UInt32.toNat_ofNat']
    simp only [MAXFILE, NDIRECT, NINDIRECT, BSIZE] at hmax
    omega
  have hlen : (UInt32.ofNat DIRENT).toNat = DIRENT := by decide
  have hread := readi_sess h hd.has hd.held hd.node hd.not_dev dev (UInt32.ofNat (k * DIRENT)) (UInt32.ofNat DIRENT)
  have hok : ¬ (n.data.length < (UInt32.ofNat (k * DIRENT)).toNat ∨
      UInt32.ofNat (k * DIRENT) + UInt32.ofNat DIRENT < UInt32.ofNat (k * DIRENT)) := by
    rw [hoff, UInt32.lt_iff_toNat_lt, UInt32.toNat_add, hoff, hlen]
    simp only [MAXFILE, NDIRECT, NINDIRECT, BSIZE] at hmax
    omega
  rw [if_neg hok, hoff, hlen] at hread
  unfold readDirent
  rw [bind_of_ok hread]
  have hwhole : ((n.data.drop (k * DIRENT)).take DIRENT).length = DIRENT := by
    rw [List.length_take, List.length_drop]
    omega
  show (if ((n.data.drop (k * DIRENT)).take DIRENT).length = DIRENT then _ else _ : FsM Dirent) s = _
  rw [if_pos hwhole]
  rfl

end Sess.Dir

-- What dirlookup gives for a name that has or has not been found.
def Found (sb : Super) (S : Sess) (s : Kernel) (r : Option (Fin NINODE × Nat)) (t : Kernel) : Option (Nat × Nat) → Prop
  | none => r = none ∧ t = s
  | some (k, i) => ∃ ip, r = some (ip, k * DIRENT) ∧ Inv sb (S.refer ip i) t

theorem Sess.Dir.dirlookupFrom_sess (hE : (∀ jp, S.uses jp + own S.refs jp ≠ 0) → E (.panic .igetNoInodes))
    (h : Inv sb S s) (hd : S.Dir dp d n) (name : List UInt8) (m : Nat) {k : Nat} (hm : k + m = (dirents n.data).length) :
    Meets (dirlookupFrom sb dev dp name ((List.range' k m).map (· * DIRENT))) s
      (fun r t => Found sb S s r t (dirfind name k ((dirents n.data).drop k))) E := by
  induction m generalizing k with
  | zero =>
    rw [List.drop_eq_nil_of_le (by omega)]
    exact ⟨rfl, rfl⟩
  | succ m ih =>
    have hk : k < (dirents n.data).length := by omega
    rw [List.range'_succ, List.map_cons, drop_dirents hk]
    refine Sat.bind_ok (hd.readDirent_eq h _ hk) ?_
    have hnext := ih (k := k + 1) (by omega)
    unfold dirfind
    by_cases h0 : (direntAt n.data k).inum = 0
    · have hnot : ¬ (direntAt n.data k).Binds name := fun hb => hb.1 h0
      rw [if_pos h0, if_neg hnot]
      exact hnext
    · rw [if_neg h0]
      by_cases hname : namecmp name (direntAt n.data k).name = 0
      · have hbinds : (direntAt n.data k).Binds name := ⟨h0, hname⟩
        rw [if_pos hname, if_pos hbinds]
        have hpos : 0 < (direntAt n.data k).inum.toNat := by
          rw [Nat.pos_iff_ne_zero]
          exact fun he => h0 (UInt16.toNat_inj.1 he)
        have hdev := h.coherent.dev dp (h.ready dp hd.held).ref
        refine sat_getInode ?_
        rw [hdev]
        exact (iget_sess hE h hpos).bind fun ip t ht => ⟨ip, rfl, ht⟩
      · have hnot : ¬ (direntAt n.data k).Binds name := fun hb => hname hb.2
        rw [if_neg hname, if_neg hnot]
        exact hnext

theorem direntOffsets_whole {size : Nat} (h : DIRENT ∣ size) (k : Nat) :
    direntOffsets k size = (List.range' k (size / DIRENT - k)).map (· * DIRENT) := by
  have hceil : (size + DIRENT - 1) / DIRENT = size / DIRENT := by
    simp only [DIRENT] at *
    omega
  rw [direntOffsets, hceil, List.range'_eq_map_range, List.map_map]
  rfl

theorem dirlookup_sess (hE : (∀ jp, S.uses jp + own S.refs jp ≠ 0) → E (.panic .igetNoInodes)) (h : Inv sb S s)
    (hd : S.Dir dp d n) (name : List UInt8) :
    Meets (dirlookup sb dev dp name) s (fun r t => Found sb S s r t (dirfind name 0 (dirents n.data))) E := by
  have hview := h.view hd.has hd.held hd.node
  refine sat_getInode (sat_panicIf (fun hne => absurd (hview.type_eq.trans hd.type) hne) fun _ => ?_)
  rw [hview.size_eq, direntOffsets_whole hd.whole]
  exact hd.dirlookupFrom_sess hE h name (n.data.length / DIRENT) (by rw [length_dirents, Nat.zero_add])

theorem Sess.Dir.emptyDirent_eq (h : Inv sb S s) (hd : S.Dir dp d n) (m : Nat) {k : Nat}
    (hm : k + m = (dirents n.data).length) :
    emptyDirent sb dev dp ((dirents n.data).length * DIRENT) ((List.range' k m).map (· * DIRENT)) s =
      .ok ((k + emptySlot ((dirents n.data).drop k)) * DIRENT) s := by
  induction m generalizing k with
  | zero =>
    have hk : k = (dirents n.data).length := hm
    rw [List.drop_eq_nil_of_le (Nat.le_of_eq hk.symm), ← hk]
    rfl
  | succ m ih =>
    have hk : k < (dirents n.data).length := by omega
    rw [List.range'_succ, List.map_cons, drop_dirents hk]
    unfold emptyDirent
    rw [bind_of_ok (hd.readDirent_eq h _ hk), emptySlot, List.findIdx_cons]
    by_cases h0 : (direntAt n.data k).inum = 0
    · rw [if_pos h0, decide_eq_true h0]
      rfl
    · rw [if_neg h0, decide_eq_false h0, ih (by omega), cond_false, emptySlot, Nat.add_assoc, Nat.add_comm 1]

-- Every inode that the call has to put is one that it has a reference to.
def Sess.Pays (S : Sess) : Prop := ∀ i ∈ S.owed, ∃ ip, (ip, i) ∈ S.refs

theorem iput_back (hsb : sb.Valid) {ip : Fin NINODE} {i : Nat} (hpays : S.Pays) (h : Inv sb (S.refer ip i) s)
    (hfree : ip ∈ S.held → E .asleep) :
    Meets (iput sb ip) s (fun _ t => ip ∉ S.held ∧ Inv sb S t) E := by
  have hmore : i ∈ S.owed → (ip, i) ∈ S.refs := by
    intro howed
    obtain ⟨jp, hjp⟩ := hpays i howed
    have hslot := h.slot_eq (.inl List.mem_cons_self) (.inl (List.mem_cons_of_mem _ hjp))
    rwa [hslot]
  have hput := iput_keep (E := E) hsb h rfl hfree hmore
  exact hput

theorem spanned_dirent (k : Nat) : spanned (k * DIRENT) DIRENT = 1 := by
  rw [spanned, if_neg (by decide)]
  simp only [DIRENT, BSIZE]
  omega

theorem writeDirent_sess (hsb : sb.Valid) (hE : E (.panic .ballocOutOfBlocks)) (h : Inv sb S s) (hd : S.Dir dp d n)
    {de : Dirent} (hde : de.name.length = DIRSIZ) {k : Nat} (hk : k ≤ (dirents n.data).length) {failure : Panic}
    (hfail : ¬ n.Room (k * DIRENT) DIRENT → E (.panic failure)) :
    Meets (writeDirent sb dev dp de (k * DIRENT) failure) s (fun _ t => n.Room (k * DIRENT) DIRENT ∧
      ∃ st m, S.st.Sets d (some (n.splice de.bytes (k * DIRENT))) st ∧ m ≤ 2 ∧ Inv sb (S.write st d m) t) E := by
  have hlen := Dirent.length_bytes hde
  have hmax := h.length_le hd.node
  have hoff : (UInt32.ofNat (k * DIRENT)).toNat = k * DIRENT := by
    rw [length_dirents] at hk
    rw [UInt32.toNat_ofNat']
    simp only [MAXFILE, NDIRECT, NINDIRECT, BSIZE, DIRENT] at *
    omega
  have hshort : de.bytes.length < 2 ^ 32 := by
    rw [hlen]
    decide
  have hwrite := writei_sess hsb hE h hd.has hd.held hd.node hd.not_dev dev hshort (UInt32.ofNat (k * DIRENT))
  rw [hoff, hlen] at hwrite
  refine hwrite.bind fun r t ht => ?_
  rcases ht with ⟨hr, hroom, st, m, hsets, hm, hinv⟩ | ⟨hr, hroom, rfl⟩
  · refine sat_panicIf_last (fun hne => absurd hr hne) fun _ => ⟨hroom, st, m, hsets, ?_, hinv⟩
    rwa [spanned_dirent] at hm
  · exact sat_panicIf_last (fun _ => hfail hroom) fun hne => absurd (by rw [hr]; rintro ⟨⟩) hne

-- The entry that dirlink makes, and where.
def newDirent (name : List UInt8) (inum : Nat) : Dirent := { inum := UInt16.ofNat inum, name := strncpy DIRSIZ name }

def Node.link (n : Node) (name : List UInt8) (inum : Nat) : Node :=
  n.splice (newDirent name inum).bytes (emptySlot (dirents n.data) * DIRENT)

theorem dirlink_sess (hsb : sb.Valid) (hE : (∀ jp, S.uses jp + own S.refs jp ≠ 0) → E (.panic .igetNoInodes))
    (h : Inv sb S s) (hd : S.Dir dp d n) (hpays : S.Pays) {name : List UInt8}
    (hfull : dirfind name 0 (dirents n.data) = none → E (.panic .ballocOutOfBlocks) ∧
      (¬ n.Room (emptySlot (dirents n.data) * DIRENT) DIRENT → E (.panic .dirlink)))
    (hself : ∀ k i, dirfind name 0 (dirents n.data) = some (k, i) → S.held = {dp} ∧ (i = d → E .asleep)) (inum : Nat) :
    Meets (dirlink sb dev dp name inum) s (fun r t =>
      (r = false ∧ (∃ k i, dirfind name 0 (dirents n.data) = some (k, i) ∧ i ≠ d) ∧ Inv sb S t) ∨
      (r = true ∧ dirfind name 0 (dirents n.data) = none ∧ n.Room (emptySlot (dirents n.data) * DIRENT) DIRENT ∧
        ∃ st m, S.st.Sets d (some (n.link name inum)) st ∧ m ≤ 2 ∧ Inv sb (S.write st d m) t)) E := by
  refine (dirlookup_sess hE h hd name).bind fun r t ht => ?_
  cases hfind : dirfind name 0 (dirents n.data) with
  | some found =>
    obtain ⟨k, i⟩ := found
    rw [hfind] at ht
    obtain ⟨ip, rfl, hinv⟩ := ht
    obtain ⟨hheld, hown⟩ := hself k i hfind
    have hnum : ip ∈ S.held → i = d := by
      intro hip
      rw [hheld, Finset.mem_singleton] at hip
      subst hip
      exact hinv.number_eq (.inl List.mem_cons_self) (hd.has.imp_left (List.mem_cons_of_mem _))
    refine (iput_back hsb hpays hinv fun hip => hown (hnum hip)).bind fun _ u hu => .inl ⟨rfl, ⟨k, i, rfl, ?_⟩, hu.2⟩
    rintro rfl
    have hslot := hinv.slot_eq (.inl List.mem_cons_self) (hd.has.imp_left (List.mem_cons_of_mem _))
    exact hu.1 (hslot ▸ hd.held)
  | none =>
    rw [hfind] at ht
    obtain ⟨rfl, rfl⟩ := ht
    have hview := h.view hd.has hd.held hd.node
    have hceil : (n.data.length + DIRENT - 1) / DIRENT * DIRENT = (dirents n.data).length * DIRENT := by
      have hwhole := hd.whole
      rw [length_dirents]
      simp only [DIRENT] at *
      omega
    have hslot : emptyDirent sb dev dp (((t.icache dp).copy.size.toNat + DIRENT - 1) / DIRENT * DIRENT)
        (direntOffsets 0 (t.icache dp).copy.size.toNat) t = .ok (emptySlot (dirents n.data) * DIRENT) t := by
      rw [hview.size_eq, hceil, direntOffsets_whole hd.whole, Nat.sub_zero,
        hd.emptyDirent_eq h (n.data.length / DIRENT) (by rw [length_dirents, Nat.zero_add]), List.drop_zero, Nat.zero_add]
    refine sat_getInode (Sat.bind_ok hslot ?_)
    obtain ⟨hblocks, hroom⟩ := hfull hfind
    refine (writeDirent_sess hsb hblocks h hd (length_strncpy ..) (emptySlot_le _) hroom).bind fun _ u hu => ?_
    exact .inr ⟨rfl, rfl, hu⟩

def vacant (data : List UInt8) : Prop := ∀ de ∈ (dirents data).drop 2, de.inum = 0

instance (data : List UInt8) : Decidable (vacant data) := inferInstanceAs (Decidable (∀ _ ∈ _, _))

theorem Sess.Dir.isdiremptyFrom_eq (h : Inv sb S s) (hd : S.Dir dp d n) (m : Nat) {k : Nat}
    (hm : k + m = (dirents n.data).length) : isdiremptyFrom sb dev dp ((List.range' k m).map (· * DIRENT)) s =
      .ok (decide (∀ de ∈ (dirents n.data).drop k, de.inum = 0)) s := by
  induction m generalizing k with
  | zero =>
    rw [List.drop_eq_nil_of_le (by omega)]
    rfl
  | succ m ih =>
    have hk : k < (dirents n.data).length := by omega
    rw [List.range'_succ, List.map_cons, drop_dirents hk]
    unfold isdiremptyFrom
    rw [bind_of_ok (hd.readDirent_eq h _ hk)]
    by_cases h0 : (direntAt n.data k).inum = 0
    · rw [if_neg (not_not_intro h0), ih (by omega)]
      simp [h0]
    · rw [if_pos h0]
      simp [h0]
      rfl

theorem isdirempty_eq (h : Inv sb S s) (hd : S.Dir dp d n) :
    isdirempty sb dev dp s = .ok (decide (vacant n.data)) s := by
  have hview := h.view hd.has hd.held hd.node
  show isdiremptyFrom sb dev dp (direntOffsets 2 (s.icache dp).copy.size.toNat) s = _
  rw [hview.size_eq, direntOffsets_whole hd.whole]
  by_cases hlen : 2 ≤ n.data.length / DIRENT
  · exact hd.isdiremptyFrom_eq h (n.data.length / DIRENT - 2) (by rw [length_dirents]; omega)
  · have hnone : (dirents n.data).drop 2 = [] := List.drop_eq_nil_of_le (by rw [length_dirents]; omega)
    have hvacant : vacant n.data := by
      rw [vacant, hnone]
      exact fun _ hde => nomatch hde
    have hrange : n.data.length / DIRENT - 2 = 0 := by omega
    rw [hrange, decide_eq_true hvacant]
    rfl

end Xv6.Fs
