import Mathlib.Algebra.Group.Nat.Defs
import Mathlib.Order.Lattice
import Mathlib.Order.WellFounded
import Mathlib.Logic.Function.Basic

/-! # Data of the Raft node

The constants and records of `raft.h`. Indexes, terms and ids are 64-bit words;
`log_len` and `peer_count` are sizes bounded by the arrays they count, and are
natural numbers here.
-/

instance UInt64.instLinearOrder : LinearOrder UInt64 where
  le_refl _ := UInt64.le_refl _
  le_trans _ _ _ := UInt64.le_trans
  lt_iff_le_not_ge _ _ := by
    simp only [UInt64.lt_iff_toNat_lt, UInt64.le_iff_toNat_le]; omega
  le_antisymm _ _ := UInt64.le_antisymm
  le_total := UInt64.le_total
  toDecidableLE := inferInstance
  toDecidableEq := inferInstance
  toDecidableLT := inferInstance

instance UInt64.instWellFoundedLT : WellFoundedLT UInt64 :=
  ⟨(measure UInt64.toNat).wf.mono fun _ _ h => UInt64.lt_iff_toNat_lt.mp h⟩

namespace Corestack.Raft

def raftMaxPeers : Nat := 8
def raftLogCap : Nat := 1024
def raftAppendBatch : Nat := 64

/-- No vote and no leader. -/
def raftNone : UInt64 := 18446744073709551615

inductive ServerState
  | follower | candidate | leader | failed
  deriving DecidableEq, Repr

/-- A client command. The type is an enumeration to the source, but `restore_pstate` casts any
integer it reads to it, so it is the word that holds it. -/
structure ClientCommand where
  type : UInt32
  roomKey : UInt64
  playerId : UInt64
  input : UInt32
  deriving DecidableEq, Repr, Inhabited

structure LogEntry where
  index : UInt64
  term : UInt64
  command : ClientCommand
  deriving DecidableEq, Repr, Inhabited

/-- `log_len` is the length of `log`, whose array has `RAFT_APPEND_BATCH` places. -/
structure AppendEntriesRequest where
  term : UInt64
  leaderId : UInt64
  prevLogIndex : UInt64
  prevLogTerm : UInt64
  leaderCommit : UInt64
  log : List LogEntry
  length_le : log.length ≤ raftAppendBatch
  deriving DecidableEq, Repr

structure AppendEntriesResponse where
  term : UInt64
  success : Bool
  matchIndex : UInt64
  deriving DecidableEq, Repr

structure RequestVoteRequest where
  term : UInt64
  lastLogIndex : UInt64
  lastLogTerm : UInt64
  candidateId : UInt64
  deriving DecidableEq, Repr

structure RequestVoteResponse where
  term : UInt64
  voteGranted : Bool
  deriving DecidableEq, Repr

/-- The union of `raft_message` under its type tag. -/
inductive RaftMessage
  | requestVote (req : RequestVoteRequest)
  | requestVoteResponse (resp : RequestVoteResponse)
  | appendEntries (req : AppendEntriesRequest)
  | appendEntriesResponse (resp : AppendEntriesResponse)
  deriving DecidableEq, Repr

/-- The log array is a function of the place; only places below `RAFT_LOG_CAP` are ever used. -/
structure PersistentState where
  currentTerm : UInt64
  votedFor : UInt64
  log : Nat → LogEntry
  logLen : Nat

structure VolatileState where
  commitIndex : UInt64
  lastApplied : UInt64
  deriving DecidableEq, Repr

structure VolatileStateCandidate where
  electionTerm : UInt64
  votesResponded : Nat → Bool
  votesGranted : Nat → Bool

structure VolatileStateLeader where
  nextIndex : Nat → UInt64
  matchIndex : Nat → UInt64

/-- The log file behind the descriptor. `faults` are the outcomes of the next writes: `true`
is a write that fails and leaves the file as it was, and once it is empty all succeed. -/
structure LogFile where
  isOpen : Bool
  content : Option (List Char)
  faults : List Bool
  deriving DecidableEq, Repr

/-- `peers` lists the ids of `peers[0..peer_count)`. -/
structure RaftNode where
  state : ServerState
  id : UInt64
  leaderId : UInt64
  peers : List UInt64
  pstate : PersistentState
  vstate : VolatileState
  cstate : VolatileStateCandidate
  lstate : VolatileStateLeader
  electionTimeoutDurationMs : Int
  latestHeartbeatMs : Int
  heartbeatIntervalMs : Int
  logFile : LogFile

/-- What `clock_gettime` and `rand` give during one call; a failed clock reads `-1`. -/
structure Clock where
  now : Int
  rand : Nat
  deriving DecidableEq, Repr

namespace PersistentState

/-- `log[0..log_len)` -/
def entries (p : PersistentState) : List LogEntry := (List.range p.logLen).map p.log

/-- Write an entry at the end of the log. -/
def push (p : PersistentState) (e : LogEntry) : PersistentState :=
  { p with log := Function.update p.log p.logLen e, logLen := p.logLen + 1 }

/-- Cut the log to its first `n` entries. -/
def truncate (p : PersistentState) (n : Nat) : PersistentState := { p with logLen := n }

@[simp] theorem length_entries (p : PersistentState) : p.entries.length = p.logLen := by
  simp [entries]

theorem getElem?_entries (p : PersistentState) {i : Nat} (h : i < p.logLen) :
    p.entries[i]? = some (p.log i) := by
  simp [entries, h]

theorem getElem_entries (p : PersistentState) {i : Nat} (h : i < p.entries.length) :
    p.entries[i] = p.log i := by
  simp [entries]

@[simp] theorem entries_push (p : PersistentState) (e : LogEntry) :
    (p.push e).entries = p.entries ++ [e] := by
  simp only [entries, push, List.range_succ, List.map_append, List.map_cons, List.map_nil,
    Function.update_self, List.append_cancel_right_eq]
  refine List.map_congr_left fun i hi => Function.update_of_ne ?_ _ _
  exact (List.mem_range.mp hi).ne

@[simp] theorem entries_truncate (p : PersistentState) {n : Nat} (h : n ≤ p.logLen) :
    (p.truncate n).entries = p.entries.take n := by
  simp [entries, truncate, ← List.map_take, List.take_range, h]

theorem take_pred_append (p : PersistentState) {n : Nat} (hpos : 0 < n) (h : n ≤ p.logLen) :
    p.entries.take (n - 1) ++ [p.log (n - 1)] = p.entries.take n := by
  have hlt : n - 1 < p.entries.length := by simp; omega
  rw [← p.getElem_entries hlt, List.take_append_getElem hlt, Nat.sub_add_cancel hpos]

end PersistentState

/-! ## Indexes

Indexes of the log and lengths of requests are far below the range of a word.
-/

theorem toNat_ofNat {n : Nat} (h : n ≤ raftLogCap) : (UInt64.ofNat n).toNat = n := by
  apply UInt64.toNat_ofNat_of_lt'
  simp only [raftLogCap] at h
  simp only [UInt64.size]
  omega

theorem toNat_add_ofNat {i : UInt64} {n : Nat} (h : i.toNat + n ≤ raftLogCap) :
    (i + .ofNat n).toNat = i.toNat + n := by
  rw [UInt64.toNat_add, toNat_ofNat (by omega)]
  simp only [raftLogCap] at h
  omega

theorem toNat_add_one {i : UInt64} (h : i.toNat ≤ raftLogCap) : (i + 1).toNat = i.toNat + 1 := by
  rw [UInt64.toNat_add, UInt64.toNat_one]
  simp only [raftLogCap] at h
  omega

theorem toNat_sub_one {i : UInt64} (h : 0 < i.toNat) : (i - 1).toNat = i.toNat - 1 := by
  rw [UInt64.toNat_sub_of_le _ _ (by rw [UInt64.le_iff_toNat_le, UInt64.toNat_one]; exact h),
    UInt64.toNat_one]

end Corestack.Raft
