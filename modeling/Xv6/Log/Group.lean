import Xv6.Log
import Xv6.Log.Ops
import Xv6.Lib.Run

namespace Xv6.Log.Group

open Function Lib

-- The bytes of a block and the operations whose writes they contain. memmove
-- and the disk carry both along.
structure Data (β : Type) where
  bytes : β
  writers : List Nat

-- struct buf. `fresh` is the operation that has changed the data since the
-- last log_write of the buffer.
structure Buf (β : Type) (procs : Nat) where
  blockno : Option Nat
  valid : Bool
  dirty : Bool
  refcnt : Nat
  lock : Option (Fin procs)
  data : Data β
  fresh : Option Nat

-- Where a process is inside bget, bread, brelse or log_write.
inductive Pc
  | idle
  | getting (i : Fin NBUF)
  | filling (i : Fin NBUF)
  | leaving (i : Fin NBUF)
  | logging (i : Fin NBUF)
deriving DecidableEq

-- Where a process is in the body of the loops of write_log and install_trans:
-- both take the log buffer and then the home buffer.
inductive Body
  | getLog
  | getHome (l : Fin NBUF)
  | copying (l h : Fin NBUF)
  | writing (l h : Fin NBUF)
  | dropping (l h : Fin NBUF)
  | last (i : Fin NBUF)
deriving DecidableEq

inductive Head
  | get
  | put (i : Fin NBUF)
  | writing (i : Fin NBUF)
  | dropping (i : Fin NBUF)
deriving DecidableEq

-- Where a process is inside commit. `install` tells install_trans from
-- write_log and `clear` the second write_head from the first.
inductive Stage
  | enter
  | loop (install : Bool) (tail : Nat) (body : Body)
  | head (clear : Bool) (head : Head)
  | erase
  | finish
deriving DecidableEq

inductive Job
  | outside
  | inOp (op : Nat)
  | commit (stage : Stage)
deriving DecidableEq

-- A log_write of a block by an operation, in the epoch of a commit.
structure Record where
  epoch : Nat
  op : Nat
  block : Nat
deriving DecidableEq

-- The fields from `made` on are history: the operations that have modified
-- each block, the log_writes, the number of commits done, and the operations
-- whose log_writes a written header covers.
structure Sys (β : Type) (procs : Nat) where
  buf : Fin NBUF → Buf β procs
  disk : Nat → Data β
  log : State
  pc : Fin procs → Pc
  job : Fin procs → Job
  made : Nat → List Nat
  nextOp : Nat
  records : List Record
  epoch : Nat
  durable : List Nat

inductive Act (β : Type)
  | bget (b : Nat) (i : Fin NBUF)
  | acquire
  | fill
  | release (i : Fin NBUF)
  | decref
  | beginOp
  | modify (i : Fin NBUF) (bytes : β)
  | logWrite (i : Fin NBUF)
  | record
  | endOp
  | commit

variable {β : Type} {procs : Nat}

def Stage.wants (start : Nat) (block : List Nat) : Stage → Option Nat
  | loop _ tail .getLog => some (start + tail + 1)
  | loop _ tail (.getHome _) => block[tail]?
  | head _ .get => some start
  | _ => none

def Stage.got (i : Fin NBUF) : Stage → Stage
  | loop install tail .getLog => loop install tail (.getHome i)
  | loop install tail (.getHome l) => loop install tail (.copying l i)
  | head clear .get => head clear (.put i)
  | stage => stage

def loopAt (install : Bool) (tail n : Nat) : Stage :=
  if tail < n then .loop install tail .getLog else if install then .erase else .head false .get

-- File system code reads blocks outside the log only.
def Job.wants (area : Area) (block : List Nat) (b : Nat) : Job → Prop
  | outside | inOp _ => ¬area.Region b
  | commit stage => stage.wants area.start block = some b

instance (area : Area) (block : List Nat) (b : Nat) : (job : Job) →
    Decidable (job.wants area block b)
  | .outside | .inOp _ => inferInstanceAs (Decidable (¬_))
  | .commit _ => inferInstanceAs (Decidable (_ = _))

def Job.got (i : Fin NBUF) : Job → Job
  | commit stage => commit (stage.got i)
  | job => job

def Job.client : Job → Bool
  | outside | inOp _ => true
  | commit _ => false

def Sys.setBuf (s : Sys β procs) (i : Fin NBUF) (buf : Buf β procs) : Sys β procs :=
  { s with buf := update s.buf i buf }

def Sys.setPc (s : Sys β procs) (p : Fin procs) (pc : Pc) : Sys β procs :=
  { s with pc := update s.pc p pc }

def Sys.setJob (s : Sys β procs) (p : Fin procs) (job : Job) : Sys β procs :=
  { s with job := update s.job p job }

-- A dirty buffer is written to the disk, another one read from it.
def iderw (s : Sys β procs) (i : Fin NBUF) (b : Nat) : Sys β procs :=
  if (s.buf i).dirty then
    { s.setBuf i { s.buf i with valid := true, dirty := false } with
      disk := update s.disk b (s.buf i).data }
  else s.setBuf i { s.buf i with valid := true, data := s.disk b }

def bwrite (s : Sys β procs) (i : Fin NBUF) (b : Nat) : Sys β procs :=
  iderw (s.setBuf i { s.buf i with dirty := true }) i b

-- bwrite marks the buffer dirty, so the disk is written.
theorem bwrite_eq (s : Sys β procs) (i : Fin NBUF) (b : Nat) :
    bwrite s i b = { s.setBuf i { s.buf i with valid := true, dirty := false } with
      disk := update s.disk b (s.buf i).data } := by
  simp [bwrite, iderw, Sys.setBuf]

def brelse (s : Sys β procs) (p : Fin procs) (i : Fin NBUF) : Sys β procs :=
  (s.setBuf i { s.buf i with lock := none }).setPc p (.leaving i)

def memmove (s : Sys β procs) (dst src : Fin NBUF) : Sys β procs :=
  s.setBuf dst { s.buf dst with data := (s.buf src).data }

def Sys.group (s : Sys β procs) : List Nat :=
  (s.records.filter (·.epoch = s.epoch)).map Record.op

def Stage.drops (n : Nat) : Stage → Option (Fin NBUF × Stage)
  | loop install tail (.dropping l h) =>
    some (bif install then (l, loop install tail (.last h)) else (h, loop install tail (.last l)))
  | loop install tail (.last i) => some (i, loopAt install (tail + 1) n)
  | head clear (.dropping i) => some (i, bif clear then .finish else loopAt true 0 n)
  | _ => none

-- A step of commit that does not wait for a buffer. `putHead` stores the
-- header in the bytes of the header block.
def commitStep (putHead : List Nat → β → β) (s : Sys β procs) (p : Fin procs) :
    Stage → Option (Sys β procs)
  | .enter =>
    some (s.setJob p (.commit (if 0 < s.log.block.length then loopAt false 0 s.log.block.length
      else .finish)))
  | .loop install tail (.copying l h) =>
    some ((bif install then memmove s h l else memmove s l h).setJob p
      (.commit (.loop install tail (.writing l h))))
  | .loop install tail (.writing l h) =>
    if (s.buf (bif install then h else l)).lock = some p then
      (s.buf (bif install then h else l)).blockno.map fun b =>
        (bwrite s (bif install then h else l) b).setJob p
          (.commit (.loop install tail (.dropping l h)))
    else none
  | .head clear (.put i) =>
    let data := { (s.buf i).data with bytes := putHead s.log.block (s.buf i).data.bytes }
    some ((s.setBuf i { s.buf i with data := data }).setJob p (.commit (.head clear (.writing i))))
  | .head clear (.writing i) =>
    if (s.buf i).lock = some p then
      (s.buf i).blockno.map fun b =>
        { (bwrite s i b).setJob p (.commit (.head clear (.dropping i))) with
          durable := bif clear then s.durable else s.durable ++ s.group }
    else none
  | .erase =>
    some { s.setJob p (.commit (.head true .get)) with
      log := { s.log with block := [] }
      epoch := s.epoch + 1 }
  | .finish => some { s.setJob p .outside with log := { s.log with committing := false } }
  | stage =>
    match stage.drops s.log.block.length with
    | some (i, next) =>
      if (s.buf i).lock = some p then some ((brelse s p i).setJob p (.commit next)) else none
    | none => none

-- The part of bget under bcache.lock: a cached block gets one more
-- reference, otherwise a buffer that is not in use is recycled. The buffer is
-- a choice of the label, as the order of the list is not modelled.
def bget (area : Area) (s : Sys β procs) (p : Fin procs) (b : Nat) (i : Fin NBUF) :
    Option (Sys β procs) :=
  if s.pc p = .idle ∧ (s.job p).wants area s.log.block b then
    if (s.buf i).blockno = some b then
      some ((s.setBuf i { s.buf i with refcnt := (s.buf i).refcnt + 1 }).setPc p (.getting i))
    else if (∀ j, (s.buf j).blockno ≠ some b) ∧ (s.buf i).refcnt = 0 ∧ (s.buf i).dirty = false then
      some ((s.setBuf i { s.buf i with
        blockno := some b, valid := false, dirty := false, refcnt := 1 }).setPc p (.getting i))
    else none
  else none

def acquiresleep (s : Sys β procs) (p : Fin procs) : Option (Sys β procs) :=
  match s.pc p with
  | .getting i =>
    if (s.buf i).lock = none then
      some ((s.setBuf i { s.buf i with lock := some p }).setPc p (.filling i))
    else none
  | _ => none

def fill (s : Sys β procs) (p : Fin procs) : Option (Sys β procs) :=
  match s.pc p with
  | .filling i =>
    (s.buf i).blockno.map fun b =>
      ((if (s.buf i).valid then s else iderw s i b).setPc p .idle).setJob p ((s.job p).got i)
  | _ => none

-- brelse outside commit. A buffer that has been modified is logged first.
def release (s : Sys β procs) (p : Fin procs) (i : Fin NBUF) : Option (Sys β procs) :=
  if s.pc p = .idle ∧ (s.job p).client ∧ (s.buf i).lock = some p ∧ (s.buf i).fresh = none then
    some (brelse s p i)
  else none

def decref (s : Sys β procs) (p : Fin procs) : Option (Sys β procs) :=
  match s.pc p with
  | .leaving i => some ((s.setBuf i { s.buf i with refcnt := (s.buf i).refcnt - 1 }).setPc p .idle)
  | _ => none

def modify (area : Area) (s : Sys β procs) (p : Fin procs) (i : Fin NBUF) (bytes : β) :
    Option (Sys β procs) :=
  match s.job p, (s.buf i).blockno with
  | .inOp op, some b =>
    if s.pc p = .idle ∧ (s.buf i).lock = some p ∧ ¬area.Region b then
      some { s.setBuf i { s.buf i with
          data := { bytes := bytes, writers := (s.buf i).data.writers ++ [op] }
          fresh := some op } with
        made := update s.made b (s.made b ++ [op]) }
    else none
  | _, _ => none

-- log_write up to the lock; a failed test is a panic.
def logWrite (area : Area) (s : Sys β procs) (p : Fin procs) (i : Fin NBUF) :
    Option (Sys β procs) :=
  match s.job p, (s.buf i).blockno with
  | .inOp _, some b =>
    if s.pc p = .idle ∧ (s.buf i).lock = some p ∧ ¬area.Region b ∧ logWriteTests s.log = none then
      some (s.setPc p (.logging i))
    else none
  | _, _ => none

def record (s : Sys β procs) (p : Fin procs) : Option (Sys β procs) :=
  match s.pc p, s.job p with
  | .logging i, .inOp op =>
    (s.buf i).blockno.map fun b =>
      { (s.setBuf i { s.buf i with dirty := true, fresh := none }).setPc p .idle with
        log := logWriteRecord s.log b
        records := s.records ++ [⟨s.epoch, op, b⟩] }
  | _, _ => none

def enterOp (s : Sys β procs) (p : Fin procs) : Option (Sys β procs) :=
  if s.pc p = .idle ∧ s.job p = .outside then
    (beginOp s.log).map fun log =>
      { s.setJob p (.inOp s.nextOp) with log := log, nextOp := s.nextOp + 1 }
  else none

def leaveOp (s : Sys β procs) (p : Fin procs) : Option (Sys β procs) :=
  match s.job p, endOp s.log with
  | .inOp _, .ok (log, doCommit) =>
    if s.pc p = .idle ∧ ∀ i, (s.buf i).lock = some p → (s.buf i).fresh = none then
      some { s.setJob p (bif doCommit then .commit .enter else .outside) with log := log }
    else none
  | _, _ => none

def step (area : Area) (putHead : List Nat → β → β) (s : Sys β procs) :
    Fin procs × Act β → Option (Sys β procs)
  | (p, .bget b i) => bget area s p b i
  | (p, .acquire) => acquiresleep s p
  | (p, .fill) => fill s p
  | (p, .release i) => release s p i
  | (p, .decref) => decref s p
  | (p, .beginOp) => enterOp s p
  | (p, .modify i bytes) => modify area s p i bytes
  | (p, .logWrite i) => logWrite area s p i
  | (p, .record) => record s p
  | (p, .endOp) => leaveOp s p
  | (p, .commit) =>
    match s.pc p, s.job p with
    | .idle, .commit stage => commitStep putHead s p stage
    | _, _ => none

inductive Step (area : Area) (putHead : List Nat → β → β) (s : Sys β procs) (p : Fin procs) :
    Sys β procs → Prop
  | hit (i b) (hpc : s.pc p = .idle) (hwants : (s.job p).wants area s.log.block b)
      (hb : (s.buf i).blockno = some b) : Step area putHead s p
        ((s.setBuf i { s.buf i with refcnt := (s.buf i).refcnt + 1 }).setPc p (.getting i))
  | recycle (i b) (hpc : s.pc p = .idle) (hwants : (s.job p).wants area s.log.block b)
      (hmiss : ∀ j, (s.buf j).blockno ≠ some b) (href : (s.buf i).refcnt = 0)
      (hdirty : (s.buf i).dirty = false) : Step area putHead s p
        ((s.setBuf i { s.buf i with
          blockno := some b, valid := false, dirty := false, refcnt := 1 }).setPc p (.getting i))
  | acquire (i) (hpc : s.pc p = .getting i) (hlock : (s.buf i).lock = none) : Step area putHead s p
      ((s.setBuf i { s.buf i with lock := some p }).setPc p (.filling i))
  | fill (i b) (hpc : s.pc p = .filling i) (hb : (s.buf i).blockno = some b) : Step area putHead s p
      (((if (s.buf i).valid then s else iderw s i b).setPc p .idle).setJob p ((s.job p).got i))
  | release (i) (hpc : s.pc p = .idle) (hjob : (s.job p).client = true)
      (hlock : (s.buf i).lock = some p) (hfresh : (s.buf i).fresh = none) :
      Step area putHead s p (brelse s p i)
  | decref (i) (hpc : s.pc p = .leaving i) : Step area putHead s p
      ((s.setBuf i { s.buf i with refcnt := (s.buf i).refcnt - 1 }).setPc p .idle)
  | beginOp (log) (hpc : s.pc p = .idle) (hjob : s.job p = .outside)
      (hlog : beginOp s.log = some log) : Step area putHead s p
        { s.setJob p (.inOp s.nextOp) with log := log, nextOp := s.nextOp + 1 }
  | modify (i b op bytes) (hpc : s.pc p = .idle) (hjob : s.job p = .inOp op)
      (hlock : (s.buf i).lock = some p) (hb : (s.buf i).blockno = some b) (hhome : ¬area.Region b) :
      Step area putHead s p
        { s.setBuf i { s.buf i with
            data := { bytes := bytes, writers := (s.buf i).data.writers ++ [op] }
            fresh := some op } with
          made := update s.made b (s.made b ++ [op]) }
  | logWrite (i b op) (hpc : s.pc p = .idle) (hjob : s.job p = .inOp op)
      (hlock : (s.buf i).lock = some p) (hb : (s.buf i).blockno = some b) (hhome : ¬area.Region b) :
      Step area putHead s p (s.setPc p (.logging i))
  | record (i b op) (hpc : s.pc p = .logging i) (hjob : s.job p = .inOp op)
      (hb : (s.buf i).blockno = some b) : Step area putHead s p
        { (s.setBuf i { s.buf i with dirty := true, fresh := none }).setPc p .idle with
          log := logWriteRecord s.log b
          records := s.records ++ [⟨s.epoch, op, b⟩] }
  | endOp (op log doCommit) (hpc : s.pc p = .idle) (hjob : s.job p = .inOp op)
      (hfresh : ∀ i, (s.buf i).lock = some p → (s.buf i).fresh = none)
      (hlog : endOp s.log = .ok (log, doCommit)) : Step area putHead s p
        { s.setJob p (bif doCommit then .commit .enter else .outside) with log := log }
  | enter (hpc : s.pc p = .idle) (hjob : s.job p = .commit .enter) : Step area putHead s p
      (s.setJob p (.commit (if 0 < s.log.block.length then loopAt false 0 s.log.block.length
        else .finish)))
  | copy (install tail l h) (hpc : s.pc p = .idle)
      (hjob : s.job p = .commit (.loop install tail (.copying l h))) : Step area putHead s p
        ((bif install then memmove s h l else memmove s l h).setJob p
          (.commit (.loop install tail (.writing l h))))
  | writeBlock (install tail l h b) (hpc : s.pc p = .idle)
      (hjob : s.job p = .commit (.loop install tail (.writing l h)))
      (hb : (s.buf (bif install then h else l)).blockno = some b) : Step area putHead s p
        ((bwrite s (bif install then h else l) b).setJob p
          (.commit (.loop install tail (.dropping l h))))
  | putHead (clear i) (hpc : s.pc p = .idle) (hjob : s.job p = .commit (.head clear (.put i))) :
      Step area putHead s p ((s.setBuf i { s.buf i with
        data := { (s.buf i).data with bytes := putHead s.log.block (s.buf i).data.bytes } }).setJob p
          (.commit (.head clear (.writing i))))
  | writeHead (clear i b) (hpc : s.pc p = .idle)
      (hjob : s.job p = .commit (.head clear (.writing i))) (hb : (s.buf i).blockno = some b) :
      Step area putHead s p { (bwrite s i b).setJob p (.commit (.head clear (.dropping i))) with
        durable := bif clear then s.durable else s.durable ++ s.group }
  | drop (stage i next) (hpc : s.pc p = .idle) (hjob : s.job p = .commit stage)
      (hdrop : stage.drops s.log.block.length = some (i, next)) (hlock : (s.buf i).lock = some p) :
      Step area putHead s p ((brelse s p i).setJob p (.commit next))
  | erase (hpc : s.pc p = .idle) (hjob : s.job p = .commit .erase) : Step area putHead s p
      { s.setJob p (.commit (.head true .get)) with
        log := { s.log with block := [] }
        epoch := s.epoch + 1 }
  | finish (hpc : s.pc p = .idle) (hjob : s.job p = .commit .finish) : Step area putHead s p
      { s.setJob p .outside with log := { s.log with committing := false } }

section Sound

variable {area : Area} {putHead : List Nat → β → β} {s t : Sys β procs} {p : Fin procs}

theorem commitStep_sound {stage : Stage} (hpc : s.pc p = .idle) (hjob : s.job p = .commit stage)
    (h : commitStep putHead s p stage = some t) : Step area putHead s p t := by
  unfold commitStep at h
  split at h
  · cases h
    exact .enter hpc hjob
  · cases h
    exact .copy _ _ _ _ hpc hjob
  · split_ifs at h
    obtain ⟨b, hb, rfl⟩ := Option.map_eq_some_iff.1 h
    exact .writeBlock _ _ _ _ b hpc hjob hb
  · cases h
    exact .putHead _ _ hpc hjob
  · split_ifs at h
    obtain ⟨b, hb, rfl⟩ := Option.map_eq_some_iff.1 h
    exact .writeHead _ _ b hpc hjob hb
  · cases h
    exact .erase hpc hjob
  · cases h
    exact .finish hpc hjob
  · split at h
    · split_ifs at h with hlock
      cases h
      exact .drop _ _ _ hpc hjob (by assumption) hlock
    · cases h

theorem step_sound {act : Act β} (h : step area putHead s (p, act) = some t) : Step area putHead s p t := by
  cases act with
  | bget b i =>
    simp only [step, bget] at h
    split_ifs at h with hg hb hmiss
    · cases h
      exact .hit i b hg.1 hg.2 hb
    · cases h
      exact .recycle i b hg.1 hg.2 hmiss.1 hmiss.2.1 hmiss.2.2
  | acquire =>
    simp only [step, acquiresleep] at h
    split at h
    · split_ifs at h with hlock
      cases h
      exact .acquire _ (by assumption) hlock
    · cases h
  | fill =>
    simp only [step, fill] at h
    split at h
    · obtain ⟨b, hb, rfl⟩ := Option.map_eq_some_iff.1 h
      exact .fill _ b (by assumption) hb
    · cases h
  | release i =>
    simp only [step, release] at h
    split_ifs at h with hg
    cases h
    exact .release i hg.1 hg.2.1 hg.2.2.1 hg.2.2.2
  | decref =>
    simp only [step, decref] at h
    split at h
    · cases h
      exact .decref _ (by assumption)
    · cases h
  | beginOp =>
    simp only [step, enterOp] at h
    split_ifs at h with hg
    obtain ⟨log, hlog, rfl⟩ := Option.map_eq_some_iff.1 h
    exact .beginOp log hg.1 hg.2 hlog
  | modify i bytes =>
    simp only [step, modify] at h
    split at h
    · split_ifs at h with hg
      cases h
      exact .modify i _ _ bytes hg.1 (by assumption) hg.2.1 (by assumption) hg.2.2
    · cases h
  | logWrite i =>
    simp only [step, logWrite] at h
    split at h
    · split_ifs at h with hg
      cases h
      exact .logWrite i _ _ hg.1 (by assumption) hg.2.1 (by assumption) hg.2.2.1
    · cases h
  | record =>
    simp only [step, record] at h
    split at h
    · obtain ⟨b, hb, rfl⟩ := Option.map_eq_some_iff.1 h
      exact .record _ b _ (by assumption) (by assumption) hb
    · cases h
  | endOp =>
    simp only [step, leaveOp] at h
    split at h
    · split_ifs at h with hg
      cases h
      exact .endOp _ _ _ hg.1 (by assumption) hg.2 (by assumption)
    · cases h
  | commit =>
    simp only [step] at h
    split at h
    · exact commitStep_sound (by assumption) (by assumption) h
    · cases h

end Sound

end Xv6.Log.Group
