import Xv6.Log.Group.Contents

namespace Xv6.Log.Group

open Lib

variable {β : Type} {procs : Nat}

def Held (s : Sys β procs) (p : Fin procs) (i : Fin NBUF) (b : Nat) : Prop :=
  (s.buf i).lock = some p ∧ (s.buf i).blockno = some b ∧ (s.buf i).valid = true

-- The first m log blocks on the disk hold all writes made to their blocks.
def Logged (area : Area) (s : Sys β procs) (m : Nat) : Prop :=
  ∀ k b, k < m → s.log.block[k]? = some b → (s.disk (area.start + k + 1)).writers = s.made b

def Installed (s : Sys β procs) (m : Nat) : Prop :=
  ∀ k b, k < m → s.log.block[k]? = some b → (s.disk b).writers = s.made b

def Settled (s : Sys β procs) : Prop := ∀ op ∈ s.group, op ∈ s.durable

def Body.done (tail : Nat) : Body → Nat
  | dropping _ _ | last _ => tail + 1
  | _ => tail

def Body.Ready (area : Area) (s : Sys β procs) (p : Fin procs) (install : Bool) (tail : Nat) :
    Body → Prop
  | getHome l => Held s p l (area.start + tail + 1)
  | copying l h => Held s p l (area.start + tail + 1) ∧
      ∃ b, s.log.block[tail]? = some b ∧ Held s p h b
  | writing l h => Held s p l (area.start + tail + 1) ∧
      ∃ b, s.log.block[tail]? = some b ∧ Held s p h b ∧
        (install = false → (s.buf l).data.writers = s.made b)
  | _ => True

def Head.Ready (area : Area) (s : Sys β procs) (p : Fin procs) : Head → Prop
  | put i | writing i => Held s p i area.start
  | _ => True

-- What holds while a process is at a stage of commit. The number of log blocks
-- is small as soon as bget has found a buffer for the first of them.
def Stage.Inv (area : Area) (s : Sys β procs) (p : Fin procs) : Stage → Prop
  | enter => Pinned s
  | loop false tail body => tail < s.log.block.length ∧
      (s.log.block.length < NBUF ∨ tail = 0 ∧ body = .getLog ∧ Pinned s) ∧
      Logged area s (body.done tail) ∧ body.Ready area s p false tail
  | loop true tail body => tail < s.log.block.length ∧ s.log.block.length < NBUF ∧
      Logged area s s.log.block.length ∧ Settled s ∧ Installed s (body.done tail) ∧
      body.Ready area s p true tail
  | head false part => s.log.block.length < NBUF ∧ Logged area s s.log.block.length ∧
      part.Ready area s p ∧ ((∃ i, part = .dropping i) → Settled s)
  | head true part => s.log.block = [] ∧ part.Ready area s p
  | erase => Settled s ∧ Installed s s.log.block.length
  | finish => s.log.block = []

structure Inv (area : Area) (s : Sys β procs) : Prop where
  ops : s.Ops
  cache : Cache area s
  contents : Contents area s
  stage : ∀ p stage, s.job p = .commit stage → stage.Inv area s p

section Stage

variable {area : Area} {s t : Sys β procs} {p : Fin procs}

-- A step of another process, or one of p itself that is not commit's.
structure Still (s t : Sys β procs) (p : Fin procs) : Prop where
  block : t.log.block = s.log.block
  disk : t.disk = s.disk
  made : t.made = s.made
  records : t.records = s.records
  epoch : t.epoch = s.epoch
  durable : t.durable = s.durable
  held : ∀ i, (s.buf i).lock = some p → (s.buf i).valid = true → (t.buf i).lock = some p ∧
    (t.buf i).blockno = (s.buf i).blockno ∧ (t.buf i).valid = true ∧ (t.buf i).data = (s.buf i).data
  pinned : Pinned s → Pinned t

theorem Still.group (h : Still s t p) : t.group = s.group := by
  rw [Sys.group, Sys.group, h.records, h.epoch]

variable {i : Fin NBUF}

section

variable (h : Still s t p)
include h

theorem Still.held_iff {b : Nat} (hheld : Held s p i b) : Held t p i b := by
  obtain ⟨hl, hb, hv⟩ := hheld
  obtain ⟨hl', hb', hv', -⟩ := h.held i hl hv
  exact ⟨hl', hb'.trans hb, hv'⟩

theorem Still.logged {m : Nat} (hlog : Logged area s m) : Logged area t m := by
  intro k b hk hb
  rw [h.disk, h.made]
  exact hlog k b hk (h.block ▸ hb)

theorem Still.installed {m : Nat} (hins : Installed s m) : Installed t m := by
  intro k b hk hb
  rw [h.disk, h.made]
  exact hins k b hk (h.block ▸ hb)

theorem Still.settled (hset : Settled s) : Settled t := by
  intro op hop
  rw [h.durable]
  exact hset op (h.group ▸ hop)

theorem Still.body {install : Bool} {tail : Nat} {body : Body}
    (hready : body.Ready area s p install tail) : body.Ready area t p install tail := by
  cases body with
  | getLog | dropping | last => trivial
  | getHome l => exact h.held_iff hready
  | copying l g =>
    obtain ⟨hl, b, hb, hg⟩ := hready
    exact ⟨h.held_iff hl, b, by rw [h.block]; exact hb, h.held_iff hg⟩
  | writing l g =>
    obtain ⟨hl, b, hb, hg, hdata⟩ := hready
    refine ⟨h.held_iff hl, b, by rw [h.block]; exact hb, h.held_iff hg, ?_⟩
    rw [(h.held l hl.1 hl.2.2).2.2.2, h.made]
    exact hdata

theorem Still.head {head : Head} (hready : head.Ready area s p) : head.Ready area t p := by
  cases head with
  | get | dropping => trivial
  | put i | writing i => exact h.held_iff hready

theorem Still.stage {stage : Stage} (hinv : stage.Inv area s p) : stage.Inv area t p := by
  cases stage with
  | enter => exact h.pinned hinv
  | loop install tail body =>
    cases install with
    | false =>
      obtain ⟨htail, hsmall, hlog, hbody⟩ := hinv
      change tail < t.log.block.length ∧ _
      rw [h.block]
      refine ⟨htail, hsmall.imp_right fun hpin => ?_, h.logged hlog, h.body hbody⟩
      exact ⟨hpin.1, hpin.2.1, h.pinned hpin.2.2⟩
    | true =>
      obtain ⟨htail, hsmall, hlog, hset, hins, hbody⟩ := hinv
      change tail < t.log.block.length ∧ t.log.block.length < NBUF ∧
        Logged area t t.log.block.length ∧ _
      rw [h.block]
      exact ⟨htail, hsmall, h.logged hlog, h.settled hset, h.installed hins, h.body hbody⟩
  | head clear head =>
    cases clear with
    | false =>
      obtain ⟨hsmall, hlog, hhead, hset⟩ := hinv
      change t.log.block.length < NBUF ∧ Logged area t t.log.block.length ∧ _
      rw [h.block]
      exact ⟨hsmall, h.logged hlog, h.head hhead, fun hd => h.settled (hset hd)⟩
    | true => exact ⟨h.block.trans hinv.1, h.head hinv.2⟩
  | erase =>
    change Settled t ∧ Installed t t.log.block.length
    rw [h.block]
    exact ⟨h.settled hinv.1, h.installed hinv.2⟩
  | finish => exact h.block.trans hinv

end

theorem region_log (hsize : LOGSIZE ≤ area.size) {k : Nat} (hk : k + 1 < NBUF) :
    area.Region (area.start + k + 1) := by
  simp only [LOGSIZE, NBUF, MAXOPBLOCKS] at hsize hk
  exact ⟨by omega, by omega⟩

theorem region_head (hsize : LOGSIZE ≤ area.size) : area.Region area.start := by
  simp only [LOGSIZE, MAXOPBLOCKS] at hsize
  exact ⟨by omega, by omega⟩

-- The pinned blocks leave a buffer for a block that is not among them.
theorem Pinned.small (h : Pinned s) (hnodup : s.log.block.Nodup) {c : Nat}
    (hi : (s.buf i).blockno = some c) (hc : c ∉ s.log.block) : s.log.block.length < NBUF := by
  have hsub : s.log.block.toFinset.image some ⊆
      (Finset.univ.erase i).image fun j => (s.buf j).blockno := by
    intro b hb
    obtain ⟨d, hd, rfl⟩ := Finset.mem_image.1 hb
    obtain ⟨j, hj, -⟩ := h d (List.mem_toFinset.1 hd)
    refine Finset.mem_image.2 ⟨j, Finset.mem_erase.2 ⟨?_, Finset.mem_univ j⟩, hj⟩
    rintro rfl
    rw [hi] at hj
    exact hc (Option.some.inj hj ▸ List.mem_toFinset.1 hd)
  have hcard := (Finset.card_le_card hsub).trans Finset.card_image_le
  rw [Finset.card_image_of_injective _ (Option.some_injective _),
    List.toFinset_card_of_nodup hnodup, Finset.card_erase_of_mem (Finset.mem_univ i),
    Finset.card_univ, Fintype.card_fin] at hcard
  simp only [NBUF, MAXOPBLOCKS] at hcard ⊢
  omega

theorem Stage.Inv.got (hsize : LOGSIZE ≤ area.size) (hcon : Contents area s) {stage : Stage}
    (hinv : stage.Inv area s p) {b : Nat}
    (hwants : stage.wants area.start s.log.block = some b) (hheld : Held s p i b) :
    (stage.got i).Inv area s p := by
  cases stage with
  | enter | erase | finish => cases hwants
  | loop install tail body =>
    cases body with
    | copying | writing | dropping | last => cases hwants
    | getLog =>
      cases hwants
      cases install with
      | true => exact ⟨hinv.1, hinv.2.1, hinv.2.2.1, hinv.2.2.2.1, hinv.2.2.2.2.1, hheld⟩
      | false =>
        obtain ⟨htail, hsmall, hlog, -⟩ := hinv
        refine ⟨htail, Or.inl ?_, hlog, hheld⟩
        rcases hsmall with hsmall | ⟨rfl, -, hpin⟩
        · exact hsmall
        · refine hpin.small hcon.nodup hheld.2.1 fun hmem => ?_
          exact hcon.home _ hmem (region_log (k := 0) hsize (by decide))
    | getHome l =>
      cases install with
      | true =>
        obtain ⟨htail, hsmall, hlog, hset, hins, hl⟩ := hinv
        exact ⟨htail, hsmall, hlog, hset, hins, hl, b, hwants, hheld⟩
      | false =>
        obtain ⟨htail, hsmall, hlog, hl⟩ := hinv
        refine ⟨htail, Or.inl (hsmall.resolve_right ?_), hlog, hl, b, hwants, hheld⟩
        rintro ⟨-, hbody, -⟩
        cases hbody
  | head clear part =>
    cases part with
    | put | writing | dropping => cases hwants
    | get =>
      cases hwants
      cases clear with
      | true => exact ⟨hinv.1, hheld⟩
      | false => exact ⟨hinv.1, hinv.2.1, hheld, by rintro ⟨j, hj⟩; cases hj⟩

theorem Stage.Inv.loopAt {install : Bool} {tail : Nat} (hsmall : s.log.block.length < NBUF)
    (htail : tail ≤ s.log.block.length)
    (hlog : Logged area s (if install then s.log.block.length else tail))
    (hins : install = true → Settled s ∧ Installed s tail) :
    (loopAt install tail s.log.block.length).Inv area s p := by
  unfold Group.loopAt
  split_ifs with hlt hinstall
  · cases install with
    | true => exact ⟨hlt, hsmall, hlog, (hins rfl).1, (hins rfl).2, trivial⟩
    | false => exact ⟨hlt, Or.inl hsmall, hlog, trivial⟩
  · obtain ⟨hset, hdone⟩ := hins hinstall
    obtain rfl : tail = s.log.block.length := by omega
    exact ⟨hset, hdone⟩
  · obtain rfl : tail = s.log.block.length := by omega
    rw [if_neg hinstall] at hlog
    exact ⟨hsmall, hlog, trivial, by rintro ⟨j, hj⟩; cases hj⟩

theorem Stage.Inv.drops {stage next : Stage} (hinv : stage.Inv area s p)
    (hdrop : stage.drops s.log.block.length = some (i, next)) : next.Inv area s p := by
  cases stage with
  | enter | erase | finish => cases hdrop
  | loop install tail body =>
    cases body with
    | getLog | getHome | copying | writing => cases hdrop
    | dropping l h =>
      cases install with
      | true =>
        cases hdrop
        exact hinv
      | false =>
        obtain ⟨htail, hsmall, hlog, -⟩ := hinv
        cases hdrop
        refine ⟨htail, Or.inl (hsmall.resolve_right ?_), hlog, trivial⟩
        rintro ⟨-, hbody, -⟩
        cases hbody
    | last j =>
      cases install with
      | true =>
        obtain ⟨htail, hsmall, hlog, hset, hins, -⟩ := hinv
        cases hdrop
        exact Stage.Inv.loopAt hsmall htail hlog fun _ => ⟨hset, hins⟩
      | false =>
        obtain ⟨htail, hsmall, hlog, -⟩ := hinv
        cases hdrop
        refine Stage.Inv.loopAt (hsmall.resolve_right ?_) htail hlog (by simp)
        rintro ⟨-, hbody, -⟩
        cases hbody
  | head clear part =>
    cases part with
    | get | put | writing => cases hdrop
    | dropping j =>
      cases clear with
      | true =>
        cases hdrop
        exact hinv.1
      | false =>
        obtain ⟨hsmall, hlog, -, hset⟩ := hinv
        cases hdrop
        exact Stage.Inv.loopAt hsmall (Nat.zero_le _) hlog
          fun _ => ⟨hset ⟨_, rfl⟩, fun k b hk => absurd hk (Nat.not_lt_zero k)⟩

end Stage

end Xv6.Log.Group
