import Xv6.Param

namespace Xv6.Log

inductive Panic
  | tooBigTransaction
  | outsideOfTrans
  | committing
deriving DecidableEq, Repr

-- struct log without its lock and its place on the disk. `block` is the
-- in-memory header lh, with lh.n its length.
structure State where
  size : Nat
  outstanding : Int
  committing : Bool
  block : List Nat

-- The state after initlog on a log of `size` blocks.
def State.init (size : Nat) : State :=
  { size := size, outstanding := 0, committing := false, block := [] }

-- No result when the caller has to sleep.
def beginOp (log : State) : Option State :=
  if log.committing then none
  else if log.block.length + (log.outstanding + 1) * MAXOPBLOCKS > LOGSIZE then none
  else some { log with outstanding := log.outstanding + 1 }

-- The result tells whether the caller is to commit.
def endOp (log : State) : Except Panic (State × Bool) :=
  let log := { log with outstanding := log.outstanding - 1 }
  if log.committing then .error .committing
  else if log.outstanding = 0 then .ok ({ log with committing := true }, true)
  else .ok (log, false)

-- The two tests log_write makes before it takes the lock.
def logWriteTests (log : State) : Option Panic :=
  if log.block.length ≥ LOGSIZE ∨ (log.block.length : Int) ≥ log.size - 1 then
    some .tooBigTransaction
  else if log.outstanding < 1 then some .outsideOfTrans
  else none

-- The rest of log_write, with absorption of a block that is in the log.
def logWriteRecord (log : State) (b : Nat) : State :=
  if b ∈ log.block then log else { log with block := log.block ++ [b] }

-- The end of end_op, when commit has erased the transaction.
def commitDone (log : State) : State := { log with block := [], committing := false }

theorem beginOp_eq_some {log next : State} (h : beginOp log = some next) :
    log.committing = false ∧ log.block.length + (log.outstanding + 1) * MAXOPBLOCKS ≤ LOGSIZE ∧
      next = { log with outstanding := log.outstanding + 1 } := by
  unfold beginOp at h
  split_ifs at h with hc hroom
  exact ⟨by simpa using hc, by omega, (Option.some.inj h).symm⟩

theorem endOp_eq_ok {log next : State} {doCommit : Bool} (h : endOp log = .ok (next, doCommit)) :
    log.committing = false ∧
      ((doCommit = true ∧ log.outstanding - 1 = 0 ∧
          next = { log with outstanding := log.outstanding - 1, committing := true }) ∨
        (doCommit = false ∧ log.outstanding - 1 ≠ 0 ∧
          next = { log with outstanding := log.outstanding - 1 })) := by
  simp only [endOp] at h
  split_ifs at h with hc hzero
  · cases h
    exact ⟨by simpa using hc, Or.inl ⟨rfl, hzero, rfl⟩⟩
  · cases h
    exact ⟨by simpa using hc, Or.inr ⟨rfl, hzero, rfl⟩⟩

theorem endOp_eq_error {log : State} {panic : Panic} (h : endOp log = .error panic) :
    log.committing = true := by
  simp only [endOp] at h
  split_ifs at h with hc
  exact hc

theorem nodup_logWriteRecord {log : State} (b : Nat) (h : log.block.Nodup) :
    (logWriteRecord log b).block.Nodup := by
  unfold logWriteRecord
  split_ifs with hb
  · exact h
  · exact List.nodup_append.2 ⟨h, List.nodup_singleton b, by
      rintro a ha c hc rfl
      exact hb (List.mem_singleton.1 hc ▸ ha)⟩

theorem mem_logWriteRecord (log : State) (b c : Nat) :
    c ∈ (logWriteRecord log b).block ↔ c = b ∨ c ∈ log.block := by
  unfold logWriteRecord
  split_ifs with hb
  · constructor
    · exact Or.inr
    · rintro (rfl | hc)
      · exact hb
      · exact hc
  · simp [or_comm]

@[simp] theorem logWriteRecord_size (log : State) (b : Nat) : (logWriteRecord log b).size = log.size := by
  unfold logWriteRecord
  split_ifs <;> rfl

@[simp] theorem logWriteRecord_outstanding (log : State) (b : Nat) :
    (logWriteRecord log b).outstanding = log.outstanding := by
  unfold logWriteRecord
  split_ifs <;> rfl

@[simp] theorem logWriteRecord_committing (log : State) (b : Nat) :
    (logWriteRecord log b).committing = log.committing := by
  unfold logWriteRecord
  split_ifs <;> rfl

end Xv6.Log
