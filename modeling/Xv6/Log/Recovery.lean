import Xv6.Log

namespace Xv6.Log

open Function Lib

def view (s : Dev) (b : Nat) : Block := (s.cache b).getD (s.disk b)

-- Log code acts on the device only through the writes it issues. Each of
-- them reaches the disk and the buffer of its block.
def Effect {α : Type} (m : DevM α) (s : Dev) (a : α) (ws : List (Nat × Block)) : Prop :=
  (m.run s).1 = a ∧ (m.run s).2.disk = applyWrites ws s.disk ∧
    view (m.run s).2 = applyWrites ws (view s) ∧ (m.run s).2.writes = s.writes ++ ws

theorem effect_pure {α : Type} (s : Dev) (a : α) : Effect (pure a) s a [] :=
  ⟨rfl, rfl, rfl, (List.append_nil _).symm⟩

theorem effect_bind {α β : Type} {m : DevM α} {f : α → DevM β} {s : Dev} {a : α} {c : β}
    {ws vs : List (Nat × Block)} (hm : Effect m s a ws)
    (hf : ∀ t, view t = applyWrites ws (view s) → Effect (f a) t c vs) :
    Effect (m >>= f) s c (ws ++ vs) := by
  obtain ⟨ha, hd, hv, hw⟩ := hm
  obtain ⟨hc, hd', hv', hw'⟩ := hf (m.run s).2 hv
  have hrun : (m >>= f).run s = (f a).run (m.run s).2 := by
    rw [← ha]
    rfl
  refine ⟨?_, ?_, ?_, ?_⟩
  · rw [hrun, hc]
  · rw [hrun, hd', hd, applyWrites_append]
  · rw [hrun, hv', hv, applyWrites_append]
  · rw [hrun, hw', hw, List.append_assoc]

theorem effect_bind_read {α β : Type} {m : DevM α} {f : α → DevM β} {s : Dev} {a : α} {c : β}
    {vs : List (Nat × Block)} (hm : Effect m s a [])
    (hf : ∀ t, view t = view s → Effect (f a) t c vs) : Effect (m >>= f) s c vs :=
  effect_bind hm hf

theorem effect_bread (b : Nat) (s : Dev) : Effect (bread b) s (view s b) [] := by
  cases hc : s.cache b with
  | some data =>
    have hrun : (bread b).run s = (data, s) := by
      simp only [bread, StateT.run_bind, StateT.run_get, pure_bind, hc]
      rfl
    unfold Effect
    rw [hrun]
    exact ⟨by simp [view, hc], rfl, rfl, (List.append_nil _).symm⟩
  | none =>
    have hrun : (bread b).run s =
        (s.disk b, { s with cache := update s.cache b (some (s.disk b)) }) := by
      simp only [bread, StateT.run_bind, StateT.run_get, pure_bind, hc]
      rfl
    unfold Effect
    rw [hrun]
    refine ⟨by simp [view, hc], rfl, ?_, (List.append_nil _).symm⟩
    funext c
    by_cases h : c = b
    · subst h
      simp [view, hc]
    · simp [view, update_of_ne h]

theorem effect_bwrite (b : Nat) (data : Block) (s : Dev) : Effect (bwrite b data) s () [(b, data)] := by
  refine ⟨rfl, rfl, ?_, rfl⟩
  funext c
  change ((update s.cache b (some data)) c).getD (update s.disk b data c) =
    update (view s) b data c
  by_cases h : c = b
  · subst h
    simp
  · simp [update_of_ne h, view]

theorem issued_eq {α : Type} {m : DevM α} {s : Dev} {a : α} {ws : List (Nat × Block)}
    (h : ∀ t, view t = view s → Effect m t a ws) : issued m s = ws := by
  obtain ⟨_, _, _, hw⟩ := h { s with writes := [] } rfl
  exact hw

-- The writes of write_log and install_trans, given the contents `home` that
-- the blocks of the transaction have in the cache.
def logWrites (log : Area) (home : Nat → Block) (tail : Nat) : List UInt32 → List (Nat × Block)
  | [] => []
  | src :: rest => (log.start + tail + 1, home src.toNat) :: logWrites log home (tail + 1) rest

def homeWrites (home : Nat → Block) (blocks : List UInt32) : List (Nat × Block) :=
  blocks.map fun dst => (dst.toNat, home dst.toNat)

@[simp] theorem length_logWrites (log : Area) (home : Nat → Block) (tail : Nat)
    (blocks : List UInt32) : (logWrites log home tail blocks).length = blocks.length := by
  induction blocks generalizing tail with
  | nil => rfl
  | cons src rest ih => simp [logWrites, ih]

theorem mem_logWrites (log : Area) (home : Nat → Block) (tail : Nat) (blocks : List UInt32)
    (w : Nat × Block) (hw : w ∈ logWrites log home tail blocks) :
    log.start + tail < w.1 ∧ w.1 ≤ log.start + tail + blocks.length := by
  induction blocks generalizing tail with
  | nil => exact absurd hw (List.not_mem_nil)
  | cons src rest ih =>
    rcases List.mem_cons.1 hw with rfl | hw
    · simp only [List.length_cons]
      omega
    · have hrest := ih (tail + 1) hw
      simp only [List.length_cons]
      omega

def Logged (log : Area) (home : Nat → Block) (store : Nat → Block) (tail : Nat) :
    List UInt32 → Prop
  | [] => True
  | src :: rest =>
    store (log.start + tail + 1) = home src.toNat ∧ Logged log home store (tail + 1) rest

theorem logged_congr (log : Area) (home store store' : Nat → Block) (tail : Nat)
    (blocks : List UInt32) (hl : Logged log home store tail blocks)
    (he : ∀ b, log.start + tail < b → b ≤ log.start + tail + blocks.length → store' b = store b) :
    Logged log home store' tail blocks := by
  induction blocks generalizing tail with
  | nil => trivial
  | cons src rest ih =>
    simp only [List.length_cons] at he
    refine ⟨(he _ (by omega) (by omega)).trans hl.1, ih (tail + 1) hl.2 ?_⟩
    intro b hlo hhi
    exact he b (by omega) (by omega)

theorem logged_applyWrites (log : Area) (home store : Nat → Block) (tail : Nat) (blocks : List UInt32) :
    Logged log home (applyWrites (logWrites log home tail blocks) store) tail blocks := by
  induction blocks generalizing tail store with
  | nil => trivial
  | cons src rest ih =>
    refine ⟨?_, ih _ _⟩
    rw [logWrites, applyWrites_cons, applyWrites_of_notMem]
    · exact update_self ..
    · intro w hw
      have hb := mem_logWrites log home (tail + 1) rest w hw
      omega

section Transaction

variable (log : Area) (lh : Header)

-- The blocks of a transaction lie outside the log region and its log copies
-- fit behind the header block.
structure Fits : Prop where
  room : lh.block.length + 1 ≤ log.size
  outside : ∀ b ∈ lh.block, ¬log.Region b.toNat

theorem effect_writeLogFrom (home : Nat → Block) (tail : Nat) (blocks : List UInt32) (s : Dev)
    (hroom : tail + blocks.length + 1 ≤ log.size)
    (hout : ∀ b ∈ blocks, ¬log.Region b.toNat) (hhome : ∀ b ∈ blocks, view s b.toNat = home b.toNat) :
    Effect (writeLogFrom log tail blocks) s () (logWrites log home tail blocks) := by
  induction blocks generalizing tail s with
  | nil => exact effect_pure s ()
  | cons src rest ih =>
    simp only [List.length_cons] at hroom
    unfold writeLogFrom
    refine effect_bind_read (effect_bread _ s) fun t hv => ?_
    refine effect_bind_read (effect_bread _ t) fun u hv' => ?_
    rw [hv, hhome src (by simp)]
    refine effect_bind (effect_bwrite _ _ u) fun r hv'' => ?_
    apply ih (tail + 1) r (by omega) (fun b hb => hout b (List.mem_cons_of_mem _ hb))
    intro b hb
    -- the write went to a log block, and `b` lies outside the log region
    have hne : b.toNat ≠ log.start + tail + 1 := by
      intro heq
      apply hout b (List.mem_cons_of_mem _ hb)
      unfold Area.Region
      omega
    rw [hv'', applyWrites_cons, applyWrites_nil, update_of_ne hne, hv', hv]
    exact hhome b (List.mem_cons_of_mem _ hb)

theorem effect_installTransFrom (home : Nat → Block) (tail : Nat) (blocks : List UInt32) (s : Dev)
    (hroom : tail + blocks.length + 1 ≤ log.size)
    (hout : ∀ b ∈ blocks, ¬log.Region b.toNat) (hlog : Logged log home (view s) tail blocks) :
    Effect (installTransFrom log tail blocks) s () (homeWrites home blocks) := by
  induction blocks generalizing tail s with
  | nil => exact effect_pure s ()
  | cons dst rest ih =>
    simp only [List.length_cons] at hroom
    unfold installTransFrom
    refine effect_bind_read (effect_bread _ s) fun t hv => ?_
    refine effect_bind_read (effect_bread _ t) fun u hv' => ?_
    rw [hlog.1]
    refine effect_bind (effect_bwrite _ _ u) fun r hv'' => ?_
    apply ih (tail + 1) r (by omega) (fun b hb => hout b (List.mem_cons_of_mem _ hb))
    apply logged_congr log home (view s) (view r) (tail + 1) rest hlog.2
    intro b hlo hhi
    -- the write went home, so the remaining log blocks are as before
    have hne : b ≠ dst.toNat := by
      rintro rfl
      apply hout dst (by simp)
      unfold Area.Region
      omega
    rw [hv'', applyWrites_cons, applyWrites_nil, update_of_ne hne, hv', hv]

theorem effect_writeHead (s : Dev) :
    Effect (writeHead log lh) s () [(log.start, putHeader lh (view s log.start))] := by
  unfold writeHead
  exact effect_bind_read (effect_bread _ s) fun t _ => effect_bwrite _ _ t

theorem headerN_putHeader (buf : Block) : headerN (putHeader lh buf) = lh.block.length := by
  have hlen := lh.length_le
  simp only [LOGSIZE, MAXOPBLOCKS] at hlen
  unfold headerN putHeader
  rw [Bytes.getU32_putWords_before _ _ _ _ (by omega),
    Bytes.getU32_putU32_same _ _ _ (by simp [BSIZE])]
  rw [UInt32.toBitVec_ofNat', BitVec.toInt_eq_toNat_of_lt] <;> rw [BitVec.toNat_ofNat] <;> omega

theorem getHeader_putHeader (buf : Block) : getHeader (putHeader lh buf) = some lh := by
  have hlen := lh.length_le
  have hn : (headerN (putHeader lh buf)).toNat = lh.block.length := by
    rw [headerN_putHeader]
    exact Int.toNat_natCast _
  unfold getHeader
  rw [dif_pos (by rw [hn]; exact hlen)]
  congr 1
  have hw := Bytes.getWords_putWords_same (buf.putU32 0 (UInt32.ofNat lh.block.length)) 4 lh.block
    (by simp only [LOGSIZE, MAXOPBLOCKS, BSIZE] at hlen ⊢; omega)
  rcases lh with ⟨block, length_le⟩
  simp only [Header.mk.injEq]
  rw [hn]
  exact hw

theorem getHeader_of_zero (buf : Block) (h : headerN buf = 0) : getHeader buf = some Header.empty := by
  simp [getHeader, h, Header.empty, Bytes.getWords]

-- A disk whose log is empty and whose home blocks are `home`.
structure Clean (home disk : Nat → Block) : Prop where
  header : headerN (disk log.start) = 0
  blocks : ∀ b, ¬log.Region b → disk b = home b

-- A disk whose log holds the whole transaction. The home blocks of the
-- transaction may hold anything, since recovery writes all of them.
structure Committed (home disk : Nat → Block) : Prop where
  header : getHeader (disk log.start) = some lh
  copies : Logged log home disk 0 lh.block
  blocks : ∀ b, ¬log.Region b → (∀ c ∈ lh.block, c.toNat ≠ b) → disk b = home b

variable {log lh} {home disk : Nat → Block}

section

variable (hfits : Fits log lh)
include hfits

theorem region_start : log.Region log.start := by
  have hroom := hfits.room
  unfold Area.Region
  omega

theorem homeWrites_outside (w : Nat × Block) (hw : w ∈ homeWrites home lh.block) : ¬log.Region w.1 := by
  obtain ⟨b, hb, rfl⟩ := List.mem_map.1 hw
  exact hfits.outside b hb

theorem Committed.take (hc : Committed log lh home disk) (count : Nat) :
    Committed log lh home (applyWrites ((homeWrites home lh.block).take count) disk) := by
  have hsame : ∀ b, log.Region b →
      applyWrites ((homeWrites home lh.block).take count) disk b = disk b := by
    intro b hb
    apply applyWrites_of_notMem
    rintro w hw rfl
    exact homeWrites_outside hfits w (List.mem_of_mem_take hw) hb
  refine ⟨?_, ?_, ?_⟩
  · rw [hsame _ (region_start hfits)]
    exact hc.header
  · apply logged_congr log home disk _ 0 lh.block hc.copies
    intro b hlo hhi
    apply hsame
    have hroom := hfits.room
    unfold Area.Region
    omega
  · intro b hb hnot
    rw [applyWrites_of_notMem]
    · exact hc.blocks b hb hnot
    · intro w hw
      obtain ⟨c, hcm, rfl⟩ := List.mem_map.1 (List.mem_of_mem_take hw)
      exact hnot c hcm

theorem Committed.install (hc : Committed log lh home disk) (buf : Block) :
    Clean log home (applyWrites (homeWrites home lh.block ++ [(log.start, putHeader Header.empty buf)])
      disk) := by
  rw [applyWrites_append, applyWrites_cons, applyWrites_nil]
  refine ⟨?_, ?_⟩
  · rw [update_self, headerN_putHeader]
    rfl
  · intro b hb
    have hne : b ≠ log.start := by
      rintro rfl
      exact hb (region_start hfits)
    rw [update_of_ne hne]
    by_cases hm : ∃ w ∈ homeWrites home lh.block, w.1 = b
    · apply applyWrites_of_mem _ _ _ _ hm
      rintro w hw rfl
      obtain ⟨c, _, rfl⟩ := List.mem_map.1 hw
      rfl
    · rw [applyWrites_of_notMem _ _ _ (fun w hw he => hm ⟨w, hw, he⟩)]
      apply hc.blocks b hb
      intro c hcm he
      exact hm ⟨(c.toNat, home c.toNat), List.mem_map.2 ⟨c, hcm, rfl⟩, he⟩

theorem effect_recover_committed (hc : Committed log lh home disk) (s : Dev) (hv : view s = disk) :
    ∃ buf, Effect (recoverFromLog log) s true
      (homeWrites home lh.block ++ [(log.start, putHeader Header.empty buf)]) := by
  refine ⟨disk log.start, ?_⟩
  have hread : Effect (readHead log) s (some lh) [] := by
    have hh := hc.header
    rw [← hv] at hh
    rw [← hh]
    exact effect_bind_read (effect_bread _ s) fun t _ => effect_pure t _
  refine effect_bind_read hread fun t hvt => ?_
  refine effect_bind (effect_installTransFrom log home 0 lh.block t
    (by have := hfits.room; omega) hfits.outside ?_) fun u hvu => ?_
  · rw [hvt, hv]
    exact hc.copies
  · have hstart : view u log.start = disk log.start := by
      rw [hvu, applyWrites_of_notMem, hvt, hv]
      rintro w hw he
      apply homeWrites_outside hfits w hw
      rw [he]
      exact region_start hfits
    have hhead := effect_writeHead log Header.empty u
    rw [hstart] at hhead
    exact effect_bind hhead fun r _ => effect_pure r true

end

theorem effect_recover_clean (hc : Clean log home disk) (s : Dev) (hv : view s = disk) :
    Effect (recoverFromLog log) s true
      [(log.start, putHeader Header.empty (disk log.start))] := by
  have hread : Effect (readHead log) s (some Header.empty) [] := by
    have hh := getHeader_of_zero _ hc.header
    rw [← hv] at hh
    rw [← hh]
    exact effect_bind_read (effect_bread _ s) fun t _ => effect_pure t _
  refine effect_bind_read hread fun t hvt => ?_
  refine effect_bind_read (effect_pure t ()) fun u hvu => ?_
  have hhead := effect_writeHead log Header.empty u
  rw [hvu, hvt, hv] at hhead
  exact effect_bind hhead fun r _ => effect_pure r true

theorem recovered_eq {ws : List (Nat × Block)} (h : Effect (recoverFromLog log) (boot disk) true ws) :
    recovered log disk = applyWrites ws disk := h.2.1

section

variable (hfits : Fits log lh)
include hfits

theorem Clean.writeHead (hc : Clean log home disk) :
    Clean log home (update disk log.start (putHeader Header.empty (disk log.start))) := by
  refine ⟨?_, ?_⟩
  · rw [update_self, headerN_putHeader]
    rfl
  · intro b hb
    have hne : b ≠ log.start := by
      rintro rfl
      exact hb (region_start hfits)
    rw [update_of_ne hne]
    exact hc.blocks b hb

-- Recovery of a clean disk, complete or cut short, leaves it clean.
theorem Clean.crashRecover (hc : Clean log home disk) (count : Nat) :
    Clean log home (crashRecover log disk count) := by
  unfold Log.crashRecover
  rw [issued_eq (s := boot disk) fun t hv => effect_recover_clean hc t hv]
  cases count with
  | zero => exact hc
  | succ count => simpa using hc.writeHead hfits

theorem Clean.recovered (hc : Clean log home disk) : Clean log home (recovered log disk) := by
  rw [recovered_eq (effect_recover_clean hc (boot disk) rfl)]
  exact hc.writeHead hfits

-- Recovery cut short leaves the transaction in the log, or has ended it.
theorem Committed.crashRecover (hc : Committed log lh home disk) (count : Nat) :
    Committed log lh home (crashRecover log disk count) ∨
      Clean log home (crashRecover log disk count) := by
  obtain ⟨buf, he⟩ := effect_recover_committed hfits hc (boot disk) rfl
  have hissued : issued (recoverFromLog log) (boot disk) =
      homeWrites home lh.block ++ [(log.start, putHeader Header.empty buf)] := he.2.2.2
  unfold Log.crashRecover
  rw [hissued]
  by_cases hcount : count ≤ (homeWrites home lh.block).length
  · rw [List.take_append_of_le_length hcount]
    exact Or.inl (hc.take hfits count)
  · rw [List.take_of_length_le (by simp only [List.length_append, List.length_singleton]; omega)]
    exact Or.inr (hc.install hfits buf)

theorem Committed.recovered (hc : Committed log lh home disk) : Clean log home (recovered log disk) := by
  obtain ⟨buf, he⟩ := effect_recover_committed hfits hc (boot disk) rfl
  rw [recovered_eq he]
  exact hc.install hfits buf

theorem Clean.reboots (hc : Clean log home disk) (counts : List Nat) :
    Clean log home (reboots log disk counts) := by
  induction counts generalizing disk with
  | nil => exact hc
  | cons count counts ih => exact ih (hc.crashRecover hfits count)

theorem Committed.reboots (hc : Committed log lh home disk) (counts : List Nat) :
    Committed log lh home (reboots log disk counts) ∨ Clean log home (reboots log disk counts) := by
  induction counts generalizing disk with
  | nil => exact Or.inl hc
  | cons count counts ih =>
    rcases hc.crashRecover hfits count with hc' | hc'
    · exact ih hc'
    · exact Or.inr (hc'.reboots hfits counts)

end

-- The home blocks as the transaction leaves them: its blocks from the cache,
-- the others as on the disk.
def transaction (lh : Header) (s : Dev) (b : Nat) : Block :=
  if ∃ c ∈ lh.block, c.toNat = b then view s b else s.disk b

theorem transaction_of_mem (lh : Header) (s : Dev) (b : UInt32) (hb : b ∈ lh.block) :
    transaction lh s b.toNat = view s b.toNat := if_pos ⟨b, hb, rfl⟩

theorem transaction_of_notMem (lh : Header) (s : Dev) (b : Nat)
    (hb : ∀ c ∈ lh.block, c.toNat ≠ b) : transaction lh s b = s.disk b := by
  apply if_neg
  rintro ⟨c, hc, he⟩
  exact hb c hc he

section

variable (hfits : Fits log lh)
include hfits

-- The four stages of commit issue the log copies, the header, the home
-- blocks and the cleared header, in this order.
theorem issued_commit (hpos : 0 < lh.block.length) (s : Dev) :
    ∃ buf buf', issued (commit log lh) s =
      logWrites log (transaction lh s) 0 lh.block ++ (log.start, putHeader lh buf) ::
        (homeWrites (transaction lh s) lh.block ++ [(log.start, putHeader Header.empty buf')]) := by
  have hroom := hfits.room
  refine ⟨view s log.start, putHeader lh (view s log.start), ?_⟩
  apply issued_eq (a := ())
  intro t hvt
  unfold commit
  rw [if_pos hpos]
  refine effect_bind (effect_writeLogFrom log (transaction lh s) 0 lh.block t (by omega)
    hfits.outside ?_) fun u hvu => ?_
  · intro b hb
    rw [hvt, transaction_of_mem lh s b hb]
  have hlogged := logged_applyWrites log (transaction lh s) (view t) 0 lh.block
  rw [← hvu] at hlogged
  have hstart : view u log.start = view s log.start := by
    rw [hvu, applyWrites_of_notMem, hvt]
    intro w hw he
    have hb := mem_logWrites _ _ _ _ w hw
    omega
  have hhead := effect_writeHead log lh u
  rw [hstart] at hhead
  refine effect_bind hhead fun r hvr => ?_
  have hlogged' : Logged log (transaction lh s) (view r) 0 lh.block := by
    apply logged_congr log _ (view u) _ 0 lh.block hlogged
    intro b hlo hhi
    rw [hvr, applyWrites_cons, applyWrites_nil, update_of_ne (by omega)]
  refine effect_bind (effect_installTransFrom log (transaction lh s) 0 lh.block r (by omega)
    hfits.outside hlogged') fun q hvq => ?_
  have hstart' : view q log.start = putHeader lh (view s log.start) := by
    rw [hvq, applyWrites_of_notMem, hvr, applyWrites_cons, applyWrites_nil, update_self]
    intro w hw he
    apply homeWrites_outside hfits w hw
    rw [he]
    exact region_start hfits
  have hclear := effect_writeHead log Header.empty q
  rw [hstart'] at hclear
  exact hclear

theorem clean_of_logWrites (home old : Nat → Block) (h : headerN (old log.start) = 0) (count : Nat) :
    Clean log old (applyWrites ((logWrites log home 0 lh.block).take count) old) := by
  have hroom := hfits.room
  have hsame : ∀ b, b = log.start ∨ ¬log.Region b →
      applyWrites ((logWrites log home 0 lh.block).take count) old b = old b := by
    intro b hb
    apply applyWrites_of_notMem
    intro w hw he
    have hm := mem_logWrites log home 0 lh.block w (List.mem_of_mem_take hw)
    unfold Area.Region at hb
    omega
  refine ⟨?_, fun b hb => hsame b (Or.inr hb)⟩
  rw [hsame _ (Or.inl rfl)]
  exact h

theorem committed_of_header (home old : Nat → Block) (buf : Block)
    (hhome : ∀ b, (∀ c ∈ lh.block, c.toNat ≠ b) → home b = old b) :
    Committed log lh home (update (applyWrites (logWrites log home 0 lh.block) old)
      log.start (putHeader lh buf)) := by
  refine ⟨?_, ?_, ?_⟩
  · rw [update_self]
    exact getHeader_putHeader lh buf
  · apply logged_congr log home _ _ 0 lh.block (logged_applyWrites log home old 0 lh.block)
    intro b hlo hhi
    exact update_of_ne (by omega) _ _
  · intro b hb hnot
    have hroom := hfits.room
    have hne : b ≠ log.start := by
      rintro rfl
      exact hb (region_start hfits)
    rw [update_of_ne hne, applyWrites_of_notMem]
    · exact (hhome b hnot).symm
    · intro w hw he
      have hm := mem_logWrites log home 0 lh.block w hw
      unfold Area.Region at hb
      omega

theorem crashCommit_old (s : Dev) (h : headerN (s.disk log.start) = 0)
    (count : Nat) (hcount : count ≤ lh.block.length) :
    Clean log s.disk (crashCommit log lh s count) := by
  unfold crashCommit
  by_cases hpos : 0 < lh.block.length
  · obtain ⟨buf, buf', hissued⟩ := issued_commit hfits hpos s
    rw [hissued, List.take_append_of_le_length (by simpa using hcount)]
    exact clean_of_logWrites hfits _ _ h count
  · have hzero : count = 0 := by omega
    subst hzero
    exact ⟨h, fun _ _ => rfl⟩

theorem crashCommit_new (s : Dev) (h : headerN (s.disk log.start) = 0)
    (count : Nat) (hcount : lh.block.length < count) :
    Committed log lh (transaction lh s) (crashCommit log lh s count) ∨
      Clean log (transaction lh s) (crashCommit log lh s count) := by
  unfold crashCommit
  by_cases hpos : 0 < lh.block.length
  · obtain ⟨buf, buf', hissued⟩ := issued_commit hfits hpos s
    have hcommitted := committed_of_header hfits (transaction lh s) s.disk buf
      (transaction_of_notMem lh s)
    -- the log copies and the header are there, then `rest` of the home writes
    obtain ⟨rest, rfl⟩ : ∃ rest, count = (logWrites log (transaction lh s) 0 lh.block).length +
        (rest + 1) := ⟨count - lh.block.length - 1, by simp only [length_logWrites]; omega⟩
    rw [hissued, List.take_length_add_append, List.take_succ_cons, applyWrites_append,
      applyWrites_cons]
    by_cases hrest : rest ≤ (homeWrites (transaction lh s) lh.block).length
    · rw [List.take_append_of_le_length hrest]
      exact Or.inl (hcommitted.take hfits rest)
    · rw [List.take_of_length_le (by simp only [List.length_append, List.length_singleton]; omega)]
      exact Or.inr (hcommitted.install hfits buf')
  · -- an empty transaction issues no write
    have hnil : lh.block = [] := List.length_eq_zero_iff.1 (by omega)
    have hnone : issued (commit log lh) s = [] := by
      apply issued_eq (a := ())
      intro t _
      unfold commit
      rw [if_neg hpos]
      exact effect_pure t ()
    rw [hnone, List.take_nil, applyWrites_nil]
    refine Or.inr ⟨h, fun b _ => (transaction_of_notMem lh s b ?_).symm⟩
    simp [hnil]

end

end Transaction

-- Cut commit after any number of its writes, then cut the recovery of any
-- number of boots. The first recovery that completes finds a readable header
-- and leaves the log empty. Its home blocks are those of the transaction if
-- the header write was among the writes that reached the disk, and the old
-- ones otherwise.
theorem commit_crash_atomic (log : Area) (lh : Header) (s : Dev) (hroom : lh.block.length + 1 ≤ log.size)
    (hout : ∀ b ∈ lh.block, ¬log.Region b.toNat)
    (hempty : headerN (s.disk log.start) = 0) (count : Nat) (counts : List Nat) :
    let disk := reboots log (crashCommit log lh s count) counts
    ((recoverFromLog log).run (boot disk)).1 = true ∧
    headerN (recovered log disk log.start) = 0 ∧
    (count ≤ lh.block.length → ∀ b, ¬log.Region b → recovered log disk b = s.disk b) ∧
    (lh.block.length < count → ∀ b, ¬log.Region b → recovered log disk b = transaction lh s b) := by
  intro disk
  have hfits : Fits log lh := ⟨hroom, hout⟩
  by_cases hcount : count ≤ lh.block.length
  · have hclean := (crashCommit_old hfits s hempty count hcount).reboots hfits counts
    have hdone := hclean.recovered hfits
    exact ⟨(effect_recover_clean hclean (boot disk) rfl).1, hdone.header,
      fun _ => hdone.blocks, fun h => absurd h (by omega)⟩
  · have hnew : Committed log lh (transaction lh s) disk ∨ Clean log (transaction lh s) disk := by
      rcases crashCommit_new hfits s hempty count (by omega) with hc | hc
      · exact hc.reboots hfits counts
      · exact Or.inr (hc.reboots hfits counts)
    have hdone : Clean log (transaction lh s) (recovered log disk) := by
      rcases hnew with hc | hc
      · exact hc.recovered hfits
      · exact hc.recovered hfits
    refine ⟨?_, hdone.header, fun h => absurd h hcount, fun _ => hdone.blocks⟩
    rcases hnew with hc | hc
    · obtain ⟨buf, he⟩ := effect_recover_committed hfits hc (boot disk) rfl
      exact he.1
    · exact (effect_recover_clean hc (boot disk) rfl).1

-- A transaction of two blocks, cut after its first home write and again
-- after the first write of the recovery.
def twoBlocks : Header := ⟨[40, 41], by decide⟩

def twoBlocksDev : Dev :=
  { disk := fun _ _ => 0
    cache := fun b => if b = 40 ∨ b = 41 then some (fun _ => 7) else none
    writes := [] }

theorem commit_crash_atomic_twoBlocks :
    recovered ⟨2, 30⟩ (reboots ⟨2, 30⟩ (crashCommit ⟨2, 30⟩ twoBlocks twoBlocksDev 4) [1]) 41 =
      fun _ => 7 :=
  ((commit_crash_atomic ⟨2, 30⟩ twoBlocks twoBlocksDev (by decide) (by simp [twoBlocks, Area.Region]) (by decide)
    4 [1]).2.2.2 (by decide) 41 (by decide)).trans (transaction_of_mem twoBlocks twoBlocksDev 41
      (by decide))

end Xv6.Log
