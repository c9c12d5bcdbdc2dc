import Xv6.Fs.Handles

namespace Xv6.Fs

open Function Lib

theorem advance_eq (f : Fin NFILE) (n : Nat) (s : Kernel) :
    advance f n s = .ok () (s.setFile f { s.ftable f with off := (s.ftable f).off + UInt32.ofNat n }) := by
  by_cases hn : n > 0
  · show (if n > 0 then _ else _ : FsM Unit) s = _
    rw [if_pos hn]
    rfl
  · obtain rfl : n = 0 := by omega
    have hoff : (s.ftable f).off + UInt32.ofNat 0 = (s.ftable f).off := UInt32.add_zero _
    have hsame : s.setFile f { s.ftable f with off := (s.ftable f).off + UInt32.ofNat 0 } = s := by
      rw [hoff]
      show { s with ftable := update s.ftable f (s.ftable f) } = s
      rw [update_eq_self]
    rw [hsame]
    rfl

theorem spanned_chunk {off n : Nat} (hn : n ≤ maxChunk) : spanned off n ≤ 4 := by
  have hmax : maxChunk = 1536 := rfl
  have hmod : off % BSIZE < BSIZE := Nat.mod_lt _ (by decide)
  unfold spanned
  split
  · decide
  · simp only [BSIZE] at *
    omega

section Writes

variable {sb : Super} {dev : Devsw} {E : Stop → Prop} {S : Sess} {s t : Kernel} {ip : Fin NINODE} {i : Nat}
variable {n : Node} {p : Fin NPROC} {f : Fin NFILE} {src : List UInt8}

-- What a chunk of filewrite does to the inode n of its file: nothing if it is a
-- device or there is no room.
def Node.Writes (n : Node) (i : Nat) (src : List UInt8) (off : Nat) (r : Option Nat) (st st' : Store) : Prop :=
  (n.type = T_DEV ∧ st' = st) ∨
  (n.type ≠ T_DEV ∧ n.Room off src.length ∧ r = some src.length ∧ st.Sets i (some (n.splice src off)) st') ∨
  (n.type ≠ T_DEV ∧ ¬ n.Room off src.length ∧ r = none ∧ st' = st)

def Store.SameDirs (st st' : Store) : Prop := ∀ d m, st.node d = some m → m.type = T_DIR → st'.node d = some m

structure Chunk (sb : Super) (S : Sess) (s : Kernel) (f : Fin NFILE) (src : List UInt8) (r : Option Nat) (S' : Sess)
    (t : Kernel) : Prop where
  good : S'.Good sb
  same : S.st.SameDirs S'.st
  uses : S'.uses = S.uses
  key : S'.key = S.key
  file : t.ftable f = { s.ftable f with off := (s.ftable f).off + UInt32.ofNat (r.getD 0) }
  written : ∃ n, S.st.node (S.key (s.ftable f).ip) = some n ∧
    n.Writes (S.key (s.ftable f).ip) src (s.ftable f).off.toNat r S.st S'.st
  inv : Inv sb S'.calm t

theorem writei_any (hsb : sb.Valid) (hE : ∀ p, E (.panic p)) (h : Inv sb S s) (hip : S.Has ip i)
    (hheld : ip ∈ S.held) (hn : S.st.node i = some n) (dev : Devsw) (hlen : src.length < 2 ^ 32) (off : UInt32) :
    Meets (writei sb dev ip src off) s (fun r t => ∃ st D k, n.Writes i src off.toNat r S.st st ∧ D ⊆ insert i S.dirty ∧
      k ≤ spanned off.toNat src.length + 1 ∧ Inv sb { S with st := st, dirty := D, blocks := S.blocks + k } t) E := by
  by_cases hdev : n.type = T_DEV
  · have hview := h.view hip hheld hn
    have htype : (s.icache ip).copy.type = T_DEV := hview.type_eq.trans hdev
    refine sat_getInode ?_
    rw [if_pos htype]
    have hsame : ∀ r, ∃ st D k, n.Writes i src off.toNat r S.st st ∧ D ⊆ insert i S.dirty ∧
        k ≤ spanned off.toNat src.length + 1 ∧ Inv sb { S with st := st, dirty := D, blocks := S.blocks + k } s :=
      fun _ => ⟨S.st, S.dirty, 0, .inl ⟨hdev, rfl⟩, Finset.subset_insert .., Nat.zero_le _, h⟩
    cases Devsw.lookup dev.write (s.icache ip).copy.major with
    | some fn => exact hsame _
    | none => exact hsame _
  · refine (writei_sess hsb (hE _) h hip hheld hn hdev dev hlen off).post fun r t ht => ?_
    rcases ht with ⟨rfl, hroom, st, k, hsets, hk, ht⟩ | ⟨rfl, hroom, rfl⟩
    · exact ⟨st, insert i S.dirty, k, .inr (.inl ⟨hdev, hroom, rfl, hsets⟩), Finset.Subset.refl _, hk, ht⟩
    · exact ⟨S.st, S.dirty, 0, .inr (.inr ⟨hdev, hroom, rfl, rfl⟩), Finset.subset_insert .., Nat.zero_le _, h⟩

theorem Inv.not_dir (h : Inv sb (S.calm.lock ip) s) (hgood : S.Good sb) (hf : (S.tabs.ftable f).type = .inode)
    (hw : (S.tabs.ftable f).writable = true) (hip : (S.tabs.ftable f).ip = ip) (hpos : 0 < S.uses ip)
    (hn : S.st.node (S.key ip) = some n) : n.type ≠ T_DIR := by
  obtain ⟨ty, hkind, hty⟩ := hgood.files f hf hw
  rw [hip] at hkind
  have hview := h.view (.inr ⟨hpos, rfl⟩) (Finset.mem_insert_self ..) hn
  rw [← hview.type_eq, (h.kind_eq ip ty hpos hkind).2]
  exact hty

variable {off : Nat}

theorem Node.Writes.dirs {st st' : Store} {r : Option Nat} (h : n.Writes i src off r st st')
    (hdir : n.type ≠ T_DIR) (hdirs : Dirs sb st.node) : Dirs sb st'.node := by
  rcases h with ⟨-, rfl⟩ | ⟨-, -, -, hsets⟩ | ⟨-, -, -, rfl⟩
  · exact hdirs
  · rw [hsets.node_eq]
    exact hdirs.set fun htype => absurd htype hdir
  · exact hdirs

theorem Node.Writes.sameDirs {st st' : Store} {r : Option Nat} (h : n.Writes i src off r st st')
    (hn : st.node i = some n) (hdir : n.type ≠ T_DIR) : st.SameDirs st' := by
  intro d m hm htype
  rcases h with ⟨-, rfl⟩ | ⟨-, -, -, hsets⟩ | ⟨-, -, -, rfl⟩
  · exact hm
  · have hd : d ≠ i := by
      rintro rfl
      cases hn.symm.trans hm
      exact hdir htype
    rw [hsets.node_eq, update_of_ne hd]
    exact hm
  · exact hm

theorem chunk_sess (hsb : sb.Valid) (hE : ∀ p, E (.panic p)) (hgood : S.Good sb) (h : Inv sb S.calm s)
    (htype : (s.ftable f).type = .inode) (hw : (s.ftable f).writable = true) (hpos : 0 < S.uses (s.ftable f).ip)
    (hlen : src.length ≤ maxChunk) {α : Type} {rest : Option Nat → FsM α} {Q : α → Kernel → Prop}
    (hrest : ∀ r S' t, Chunk sb S s f src r S' t → Meets (rest r) t Q E) :
    Meets (do
      beginOp
      let file ← getFile f
      ilock sb file.ip
      let r ← writei sb dev file.ip src (← getFile f).off
      advance f (r.getD 0)
      iunlock file.ip
      endOp
      rest r) s Q E := by
  refine sat_beginOp (sat_getFile ?_)
  change Sat (ilock sb (s.ftable f).ip >>= _) _ _ _
  refine (ilock_use hE hgood h.beginOp hpos).bind fun _ t ht => sat_getFile ?_
  obtain ⟨ht, n, hn⟩ := ht
  have hfile : t.ftable f = s.ftable f := (ht.ftable_eq f).trans (h.ftable_eq f).symm
  rw [hfile]
  have hlt : src.length < 2 ^ 32 := lt_of_le_of_lt hlen (by decide)
  refine (writei_any hsb hE ht (.inr ⟨hpos, rfl⟩) (Finset.mem_insert_self ..) hn dev hlt (s.ftable f).off).bind
    fun r u hu => ?_
  obtain ⟨st, D, k, hwrites, hD, hk, hu⟩ := hu
  have hfile' : u.ftable f = s.ftable f := (hu.ftable_eq f).trans (h.ftable_eq f).symm
  refine Sat.bind_ok (advance_eq f _ u) ?_
  rw [hfile']
  let v := u.setFile f { s.ftable f with off := (s.ftable f).off + UInt32.ofNat (r.getD 0) }
  have htabs : Tables u v := by
    refine Tables.setFile fun hf => ?_
    rw [hfile']
    exact ⟨hf, rfl, id⟩
  have hv : Inv sb (((Sess.calm { S with tabs := v.tabs }).onto st D (0 + k)).lock (s.ftable f).ip) v := hu.tables htabs
  refine (iunlock_back (S := (Sess.calm { S with tabs := v.tabs }).onto st D (0 + k)) (Finset.notMem_empty _) hv).bind
    fun _ w hw' => sat_endOp ?_
  have hcost : D.card + (0 + k) ≤ 9 := by
    have hcard : D.card ≤ 1 := (Finset.card_le_card hD).trans (Finset.card_insert_le _ _)
    have hspan := @spanned_chunk (s.ftable f).off.toNat _ hlen
    omega
  have hfile'' : S.tabs.ftable f = s.ftable f := (h.ftable_eq f).symm
  have hdir : n.type ≠ T_DIR :=
    ht.not_dir hgood (f := f) (by rw [hfile'']; exact htype) (by rw [hfile'']; exact hw) (by rw [hfile'']) hpos hn
  have hdirs := hwrites.dirs hdir hgood.dirs
  have hgood' := hgood.tables hu.tabs_eq htabs
  refine hrest r { S with tabs := v.tabs, st := st } _ ⟨⟨hdirs, hgood'.lt, hgood'.files⟩,
    hwrites.sameDirs hn hdir, rfl, rfl, ?_,
    ⟨n, hn, hwrites⟩,
    Inv.endOp (S := { S with tabs := v.tabs }) hw' hcost⟩
  exact (hw'.ftable_eq f).trans (update_self ..)

theorem Inv.sameDirs (h : Inv sb S s) : S.st.SameDirs (store sb s.disk) := by
  intro d m hm _
  rw [h.store_eq]
  exact hm

theorem filewriteLoop_sess (hsb : sb.Valid) (hE : ∀ p, E (.panic p)) (fuel : Nat) (hgood : S.Good sb)
    (h : Inv sb S.calm s) (htype : (s.ftable f).type = .inode) (hw : (s.ftable f).writable = true)
    (hpos : 0 < S.uses (s.ftable f).ip) :
    Meets (filewriteLoop sb dev f fuel src) s (fun _ t => Ends sb t ∧ S.st.SameDirs (store sb t.disk)) E := by
  have hnothing : Ends sb s ∧ S.st.SameDirs (store sb s.disk) := ⟨⟨S, hgood, h⟩, h.sameDirs⟩
  induction fuel generalizing S s src with
  | zero => exact hnothing
  | succ fuel ih =>
    refine Sat.ite (fun _ => hnothing) fun _ => ?_
    have hlen : (src.take (min src.length maxChunk)).length ≤ maxChunk := by
      rw [List.length_take]
      omega
    refine chunk_sess hsb hE hgood h htype hw hpos hlen fun r S' t hchunk => ?_
    have hdone : Ends sb t ∧ S'.st.SameDirs (store sb t.disk) := ⟨⟨S', hchunk.good, hchunk.inv⟩, hchunk.inv.sameDirs⟩
    have hback : ∀ {u}, Ends sb u ∧ S'.st.SameDirs (store sb u.disk) → Ends sb u ∧ S.st.SameDirs (store sb u.disk) :=
      fun hu => ⟨hu.1, fun d m hm htype => hu.2 d m (hchunk.same d m hm htype) htype⟩
    cases r with
    | none => exact hback hdone
    | some r =>
      refine Sat.ite (fun _ => hE _) fun _ => ?_
      have hfile := hchunk.file
      refine (ih hchunk.good hchunk.inv ?_ ?_ ?_ hdone).post fun _ u hu => hback hu
      · rw [hfile]
        exact htype
      · rw [hfile]
        exact hw
      · rw [hfile, hchunk.uses]
        exact hpos

theorem filewrite_sess (hsb : sb.Valid) (hE : ∀ p, E (.panic p)) (hgood : S.Good sb) (h : Inv sb S.calm s)
    (huse : (s.ftable f).type = .inode → 0 < S.uses (s.ftable f).ip) :
    Meets (filewrite sb dev f src) s (fun _ t => Ends sb t ∧ S.st.SameDirs (store sb t.disk)) E := by
  have hnothing : Ends sb s ∧ S.st.SameDirs (store sb s.disk) := ⟨⟨S, hgood, h⟩, h.sameDirs⟩
  refine sat_getFile (Sat.ite (fun _ => hnothing) fun hw => ?_)
  cases htype : (s.ftable f).type with
  | none => exact hE _
  | pipe => exact hnothing
  | inode =>
    have hw : (s.ftable f).writable = true := Bool.eq_true_of_not_eq_false hw
    exact (filewriteLoop_sess hsb hE _ hgood h htype hw (huse htype)).bind fun _ t ht => ht

theorem splice_nil (data : List UInt8) (off : Nat) : splice data [] off = data := by
  rw [splice, List.append_nil, List.length_nil, Nat.add_zero, List.take_append_drop]

theorem splice_splice {data a b : List UInt8} (hoff : off ≤ data.length) :
    splice (splice data a off) b (off + a.length) = splice data (a ++ b) off := by
  have htake : (data.take off).length = off := by
    rw [List.length_take]
    omega
  have hfront : (data.take off ++ a).length = off + a.length := by rw [List.length_append, htake]
  have hback : (splice data a off).drop (off + a.length + b.length) = data.drop (off + (a ++ b).length) := by
    rw [splice, ← List.drop_drop, List.drop_left' hfront, List.drop_drop, List.length_append, Nat.add_assoc]
  rw [splice, hback, splice, splice, List.take_left' hfront, List.append_assoc (data.take off)]

theorem Node.Room.first (h : n.Room off src.length) : n.Room off (min src.length maxChunk) :=
  ⟨h.1, by have := h.2; omega⟩

structure Chunked (sb : Super) (S : Sess) (s : Kernel) (f : Fin NFILE) (n : Node) (src : List UInt8) (r : Bool)
    (t : Kernel) :
    Prop where
  ends : ∃ S', Inv sb (Sess.calm S') t
  room : r = true ↔ src = [] ∨ n.Room (s.ftable f).off.toNat src.length
  written : r = true → (store sb t.disk).node =
      update S.st.node (S.key (s.ftable f).ip) (some (n.splice src (s.ftable f).off.toNat)) ∧
    t.ftable f = { s.ftable f with off := (s.ftable f).off + UInt32.ofNat src.length }
  refused : r = false → ¬ n.Room (s.ftable f).off.toNat (min src.length maxChunk) →
    store sb t.disk = S.st ∧ t.ftable f = s.ftable f
  cut : r = false → n.Room (s.ftable f).off.toNat (min src.length maxChunk) →
    (s.ftable f).off.toNat < (t.ftable f).off.toNat

theorem Chunked.step {S' : Sess} {u : Kernel} {r : Bool} {m : Nat} (hm : m = min src.length maxChunk) (hsrc : src ≠ [])
    (hroom : n.Room (s.ftable f).off.toNat m)
    (hkey : S'.key = S.key) (hoff : t.ftable f = { s.ftable f with off := (s.ftable f).off + UInt32.ofNat m })
    (hnode : S'.st.node = update S.st.node (S.key (s.ftable f).ip) (some (n.splice (src.take m) (s.ftable f).off.toNat)))
    (h : Chunked sb S' t f (n.splice (src.take m) (s.ftable f).off.toNat) (src.drop m) r u) :
    Chunked sb S s f n src r u := by
  have hip : (t.ftable f).ip = (s.ftable f).ip := by rw [hoff]
  have hlen : (src.take m).length = m := by
    rw [List.length_take]
    omega
  have hdrop : (src.drop m).length = src.length - m := List.length_drop ..
  have hpos : 0 < m := by
    have hne : 0 < src.length := List.length_pos_of_ne_nil hsrc
    have hmax : 0 < maxChunk := by decide
    omega
  have hmax : MAXFILE * BSIZE < 2 ^ 32 := by decide
  have hend := hroom.2
  have hsize : (n.splice (src.take m) (s.ftable f).off.toNat).data.length =
      max n.data.length ((s.ftable f).off.toNat + m) := by
    rw [Node.splice, length_splice hroom.1, hlen]
  have htoNat : (t.ftable f).off.toNat = (s.ftable f).off.toNat + m := by
    have hofNat : (UInt32.ofNat m).toNat = m := UInt32.toNat_ofNat_of_lt' (show m < 2 ^ 32 by omega)
    rw [hoff, UInt32.toNat_add, hofNat, Nat.mod_eq_of_lt (by omega)]
  refine ⟨h.ends, h.room.trans ?_, fun hr => ?_, fun hr hnot => absurd (hm ▸ hroom) hnot, fun hr _ => ?_⟩
  · rw [htoNat, hdrop]
    constructor
    · rintro (hnil | hrest)
      · have h0 : src.length - m = 0 := by rw [← hdrop, hnil, List.length_nil]
        exact .inr ⟨hroom.1, by omega⟩
      · exact .inr ⟨hroom.1, by have := hrest.2; omega⟩
    · rintro (hnil | hall)
      · exact absurd hnil hsrc
      · exact .inr ⟨by rw [hsize]; omega, by have := hall.2; omega⟩
  · obtain ⟨hnodes, hfile⟩ := h.written hr
    constructor
    · have hjoin := splice_splice (a := src.take m) (b := src.drop m) hroom.1
      rw [hlen, List.take_append_drop] at hjoin
      have hnode' : (n.splice (src.take m) (s.ftable f).off.toNat).splice (src.drop m) ((s.ftable f).off.toNat + m) =
          n.splice src (s.ftable f).off.toNat := congrArg (fun data => { n with data := data }) hjoin
      rw [hnodes, hnode, hkey, hip, update_idem, htoNat, hnode']
    · have hsum : (s.ftable f).off + UInt32.ofNat m + UInt32.ofNat (src.drop m).length =
          (s.ftable f).off + UInt32.ofNat src.length := by
        rw [UInt32.add_assoc, ← UInt32.ofNat_add, hdrop, Nat.add_sub_cancel' (by omega)]
      rw [hfile, hoff, hsum]
  · by_cases hfirst : (n.splice (src.take m) (s.ftable f).off.toNat).Room (t.ftable f).off.toNat
      (min (src.drop m).length maxChunk)
    · have hcut := h.cut hr hfirst
      omega
    · rw [(h.refused hr hfirst).2]
      omega

theorem Chunked.nil (h : Inv sb S.calm s) (hn : S.st.node (S.key (s.ftable f).ip) = some n) :
    Chunked sb S s f n [] true s := by
  refine ⟨⟨S, h⟩, iff_of_true rfl (.inl rfl), fun _ => ⟨?_, ?_⟩, fun hr => (nomatch hr), fun hr => nomatch hr⟩
  · have hsplice : n.splice [] (s.ftable f).off.toNat = n := congrArg (fun data => { n with data := data }) (splice_nil ..)
    rw [hsplice, ← hn, update_eq_self]
    exact congrArg Store.node h.store_eq
  · exact congrArg (fun off => { s.ftable f with off := off }) (UInt32.add_zero _).symm

theorem filewriteLoop_chunked (hsb : sb.Valid) (hE : ∀ p, E (.panic p)) (fuel : Nat) (hfuel : src.length ≤ fuel)
    (hgood : S.Good sb) (h : Inv sb S.calm s) (htype : (s.ftable f).type = .inode) (hw : (s.ftable f).writable = true)
    (hpos : 0 < S.uses (s.ftable f).ip) (hn : S.st.node (S.key (s.ftable f).ip) = some n) (hfile : n.type ≠ T_DEV) :
    Meets (filewriteLoop sb dev f fuel src) s (fun r => Chunked sb S s f n src r) E := by
  induction fuel generalizing S s src n with
  | zero =>
    obtain rfl : src = [] := List.length_eq_zero_iff.1 (by omega)
    exact Chunked.nil h hn
  | succ fuel ih =>
    refine Sat.ite (fun hnil => hnil ▸ Chunked.nil h hn) fun hsrc => ?_
    have hmin : 0 < min src.length maxChunk := lt_min (List.length_pos_of_ne_nil hsrc) (by decide)
    have hlen : (src.take (min src.length maxChunk)).length = min src.length maxChunk := by
      rw [List.length_take]
      omega
    refine chunk_sess hsb hE hgood h htype hw hpos (by omega) fun r S' t hchunk => ?_
    obtain ⟨n', hn', hwrites⟩ := hchunk.written
    cases hn.symm.trans hn'
    rcases hwrites with ⟨hdev, -⟩ | ⟨-, hroom, rfl, hsets⟩ | ⟨-, hroom, rfl, hsame⟩
    · exact absurd hdev hfile
    · rw [hlen] at hroom
      have hoff := hchunk.file
      dsimp only [Option.getD_some] at hoff ⊢
      rw [hlen] at hoff ⊢
      refine Sat.ite (fun hne => absurd rfl hne) fun _ => ?_
      have hip : (t.ftable f).ip = (s.ftable f).ip := by rw [hoff]
      have hnode : S'.st.node (S'.key (t.ftable f).ip) = some (n.splice (src.take (min src.length maxChunk))
        (s.ftable f).off.toNat) := by
        rw [hchunk.key, hip, hsets.node_eq, update_self]
      refine (ih ?_ hchunk.good hchunk.inv ?_ ?_ ?_ hnode hfile).post fun r u hu => ?_
      · rw [List.length_drop]
        omega
      · rw [hoff]
        exact htype
      · rw [hoff]
        exact hw
      · rw [hip, hchunk.uses]
        exact hpos
      · exact hu.step rfl hsrc hroom hchunk.key hoff hsets.node_eq
    · rw [hlen] at hroom
      have hoff : t.ftable f = s.ftable f :=
        hchunk.file.trans (congrArg (fun off => { s.ftable f with off := off }) (UInt32.add_zero _))
      refine ⟨⟨S', hchunk.inv⟩, iff_of_false (fun hr => nomatch hr) ?_, fun hr => (nomatch hr), fun _ _ => ⟨?_, hoff⟩,
        fun _ hfirst => absurd hfirst hroom⟩
      · rintro (hnil | hall)
        · exact hsrc hnil
        · exact hroom hall.first
      · exact hchunk.inv.store_eq.trans hsame

end Writes

end Xv6.Fs
