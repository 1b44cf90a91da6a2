import Mathlib.Data.Fin.Basic
import Mathlib.Data.Fintype.Card
import Corestack.Raft.Durability

/-! # A cluster of Raft nodes

A fixed group of nodes and the messages they have sent. A message stays in the
network for good: it may be delivered late, in another order, many times or never.
Every handler is one step, and every write succeeds.
-/

namespace Corestack.Raft

/-- A group of `n + 1` nodes, each of which has all the others as its peers. -/
structure Config where
  n : Nat
  n_le : n ≤ raftMaxPeers
  id : Fin (n + 1) → UInt64
  id_injective : Function.Injective id
  id_ne_none : ∀ a, id a ≠ raftNone
  peers : Fin (n + 1) → List (Fin (n + 1))
  peers_nodup : ∀ a, (peers a).Nodup
  mem_peers : ∀ {a b}, b ∈ peers a ↔ b ≠ a

/-- The places of the group. -/
abbrev Config.Node (cfg : Config) := Fin (cfg.n + 1)

/-- `peers[0..peer_count)` of a node. -/
def Config.peerIds (cfg : Config) (a : cfg.Node) : List UInt64 := (cfg.peers a).map cfg.id

structure Packet (cfg : Config) where
  src : cfg.Node
  dst : cfg.Node
  body : RaftMessage

/-- `delivered` has what `raft_commit_entry` has handed out, for each start of a node, the
present one first. -/
structure Cluster (cfg : Config) where
  node : cfg.Node → RaftNode
  net : List (Packet cfg)
  delivered : cfg.Node → List (List LogEntry)

inductive Event (cfg : Config) where
  | timeout (a : cfg.Node) (clk : Clock) (outCap : Nat)
  | heartbeat (a : cfg.Node)
  | appendEntries (a : cfg.Node) (peerIdx : Nat)
  | deliver (k : Nat) (clk : Clock)
  | sendCommand (a : cfg.Node) (command : ClientCommand)
  | commitEntry (a : cfg.Node) (outCap : Nat)
  | restart (a : cfg.Node) (clk : Clock)

variable {cfg : Config}

/-- What the receiver of a packet does with it, and what it sends back. -/
def Packet.receive (p : Packet cfg) (clk : Clock) (r : RaftNode) : RaftNode × Option RaftMessage :=
  match p.body with
  | .requestVote req =>
    let (r, resp) := handleRequestVoteRequest clk r req
    (r, some (.requestVoteResponse resp))
  | .requestVoteResponse resp => (handleRequestVoteResponse clk r resp (cfg.id p.src), none)
  | .appendEntries req =>
    let (r, resp) := handleAppendEntriesRequest clk r req
    (r, some (.appendEntriesResponse resp))
  | .appendEntriesResponse resp => (handleAppendEntriesResponse clk r resp (cfg.id p.src), none)

namespace Cluster

/-- One node moves on and sends packets. -/
def update (s : Cluster cfg) (a : cfg.Node) (r : RaftNode) (out : List (Packet cfg)) :
    Cluster cfg :=
  { s with node := Function.update s.node a r, net := s.net ++ out }

/-- The vote requests of `raft_timeout` under their addresses. -/
def addressed (a : cfg.Node) (out : List (Nat × RequestVoteRequest)) : List (Packet cfg) :=
  out.filterMap fun (peerIdx, req) => (cfg.peers a)[peerIdx]?.map (⟨a, ·, .requestVote req⟩)

/-- Entries that a node hands out in its present start. -/
def handOut (out : List LogEntry) : List (List LogEntry) → List (List LogEntry)
  | [] => [out]
  | now :: before => (now ++ out) :: before

def step (s : Cluster cfg) : Event cfg → Cluster cfg
  | .timeout a clk outCap =>
    let (r, out) := raftTimeout clk (s.node a) outCap
    s.update a r (addressed a out)
  | .heartbeat a =>
    match heartbeatTick (s.node a) with
    | some req => s.update a (s.node a) ((cfg.peers a).map (⟨a, ·, .appendEntries req⟩))
    | none => s
  | .appendEntries a peerIdx =>
    match raftAppendEntries (s.node a) peerIdx, (cfg.peers a)[peerIdx]? with
    | some req, some b => s.update a (s.node a) [⟨a, b, .appendEntries req⟩]
    | _, _ => s
  | .deliver k clk =>
    match s.net[k]? with
    | some p =>
      let (r, reply) := p.receive clk (s.node p.dst)
      s.update p.dst r (reply.toList.map (⟨p.dst, p.src, ·⟩))
    | none => s
  | .sendCommand a command => s.update a (raftLeaderSendCommand (s.node a) command).1 []
  | .commitEntry a outCap =>
    let (r, out) := raftCommitEntry (s.node a) outCap
    { s.update a r [] with
      delivered := Function.update s.delivered a (handOut out (s.delivered a)) }
  | .restart a clk =>
    { s.update a (startNode clk (s.node a).logFile (cfg.id a) (cfg.peerIds a)) [] with
      delivered := Function.update s.delivered a ([] :: s.delivered a) }

/-- All nodes before their first message. -/
def init (clk : cfg.Node → Clock) : Cluster cfg where
  node a := freshNode (clk a) (cfg.id a) (cfg.peerIds a)
  net := []
  delivered _ := [[]]

/-- No node has reached the last term, after which terms start again. -/
def TermsBelow (s : Cluster cfg) : Prop :=
  ∀ a, (s.node a).pstate.currentTerm.toNat < 2 ^ 64 - 1

/-- The states of a run, the last one first. -/
inductive Run : List (Cluster cfg) → Prop
  | init (clk : cfg.Node → Clock) : Run [init clk]
  | step {s : Cluster cfg} {past : List (Cluster cfg)} (e : Event cfg) (h : Run (s :: past))
      (ht : (s.step e).TermsBelow) : Run (s.step e :: s :: past)

/-- Node `a` is `LEADER` in term `t`. -/
def Leads (s : Cluster cfg) (a : cfg.Node) (t : UInt64) : Prop :=
  (s.node a).state = .leader ∧ (s.node a).pstate.currentTerm = t

instance (s : Cluster cfg) : Decidable s.TermsBelow :=
  inferInstanceAs (Decidable (∀ _ : Fin (cfg.n + 1), _))

instance (s : Cluster cfg) (a : cfg.Node) (t : UInt64) : Decidable (s.Leads a t) :=
  inferInstanceAs (Decidable (_ ∧ _))

/-- The state after a list of events, the last one first. -/
def after (clk : cfg.Node → Clock) : List (Event cfg) → Cluster cfg
  | [] => init clk
  | e :: es => (after clk es).step e

/-- The states that the events lead through. -/
def states (clk : cfg.Node → Clock) : List (Event cfg) → List (Cluster cfg)
  | [] => [init clk]
  | e :: es => after clk (e :: es) :: states clk es

theorem run_states (clk : cfg.Node → Clock) (es : List (Event cfg))
    (h : ∀ s ∈ states clk es, s.TermsBelow) : Run (states clk es) := by
  induction es with
  | nil => exact .init clk
  | cons e es ih =>
    have ht := h _ List.mem_cons_self
    have hr := ih fun s hs => h s (List.mem_cons_of_mem _ hs)
    cases es with
    | nil => exact .step e hr ht
    | cons e' es => exact .step e hr ht

theorem after_mem_states (clk : cfg.Node → Clock) (es es' : List (Event cfg)) :
    after clk es ∈ states clk (es' ++ es) := by
  induction es' with
  | nil => cases es <;> simp [states, after]
  | cons e es' ih => exact List.mem_cons_of_mem _ ih

end Cluster

/-- Three nodes with the ids 0, 1 and 2. -/
def Config.trio : Config where
  n := 2
  n_le := by decide
  id a := .ofNat a.val
  id_injective := by decide
  id_ne_none := by decide
  peers a := (List.finRange 3).filter (· ≠ a)
  peers_nodup := by decide
  mem_peers := by decide

namespace Cluster

/-- Clocks of a start at time `0`. -/
def atZero (_ : Config.trio.Node) : Clock := ⟨0, 0⟩

/-- Node 0 is elected in term 1 by node 1. The first delivery of its request is answered with the
old term of the voter, the second with the term of the request. -/
def elected : List (Event .trio) :=
  [.deliver 3 ⟨1000, 0⟩, .deliver 0 ⟨1000, 0⟩, .deliver 0 ⟨1000, 0⟩,
    .timeout 0 ⟨1000, 0⟩ 8]

/-- Node 0 sends two entries to node 1 and commits them on the reply. -/
def replicated : List (Event .trio) :=
  [.deliver 5 ⟨1000, 0⟩, .deliver 4 ⟨1000, 0⟩, .appendEntries 0 0,
    .sendCommand 0 ⟨0, 0, 0, 2⟩, .sendCommand 0 ⟨0, 0, 0, 1⟩] ++ elected

/-- Node 0 tells node 1 by a heartbeat what it has committed, and both deliver it. -/
def agreed : List (Event .trio) :=
  [.commitEntry 1 1, .commitEntry 0 8, .deliver 6 ⟨1000, 0⟩, .heartbeat 0] ++ replicated

/-- Node 0 appends an entry that it sends to nobody. Node 1 wins term 2, commits two other entries
with node 2 and tells node 0 by a heartbeat. -/
def diverged : List (Event .trio) :=
  [.deliver 10 ⟨2000, 0⟩, .heartbeat 1, .deliver 9 ⟨2000, 0⟩, .deliver 8 ⟨2000, 0⟩,
    .appendEntries 1 1, .sendCommand 1 ⟨0, 0, 0, 3⟩, .sendCommand 1 ⟨0, 0, 0, 2⟩,
    .deliver 7 ⟨2000, 0⟩, .deliver 5 ⟨2000, 0⟩, .deliver 5 ⟨2000, 0⟩, .timeout 1 ⟨2000, 0⟩ 8,
    .sendCommand 0 ⟨0, 0, 0, 1⟩] ++ elected

/-- Node 1 has an entry of node 0 and refuses node 2, which has none, in term 2. Then node 0
starts again. -/
def refused : List (Event .trio) :=
  [.restart 0 ⟨1000, 0⟩, .deliver 10 ⟨1000, 0⟩, .timeout 2 ⟨2000, 0⟩ 8, .deliver 7 ⟨1000, 0⟩,
    .heartbeat 0, .deliver 4 ⟨1000, 0⟩, .appendEntries 0 0, .sendCommand 0 ⟨0, 0, 0, 1⟩] ++ elected

/-- Node 0 is elected in term 1 and takes one command. -/
def commanded : List (Event .trio) := .sendCommand 0 ⟨0, 0, 0, 1⟩ :: elected

def commandedTwice : List (Event .trio) := .sendCommand 0 ⟨0, 0, 0, 2⟩ :: commanded

end Cluster

/-! ## Peers -/

theorem findPeerIdxFrom_some {peer : UInt64} {ps : List UInt64} {i j : Nat} {found : Option Nat}
    (h : findPeerIdxFrom peer ps i found = some j) :
    found = some j ∨ ∃ k, j = i + k ∧ ps[k]? = some peer := by
  induction ps generalizing i found with
  | nil => exact Or.inl h
  | cons p ps ih =>
    rcases ih h with hf | ⟨k, rfl, hk⟩
    · split_ifs at hf with hp
      · obtain rfl := Option.some.inj hf
        exact Or.inr ⟨0, rfl, by simp [hp]⟩
      · exact Or.inl hf
    · exact Or.inr ⟨k + 1, by omega, by simpa using hk⟩

theorem findPeerIdxFrom_ne_none {peer : UInt64} {ps : List UInt64} {i : Nat} {found : Option Nat}
    (h : peer ∈ ps ∨ found ≠ none) : findPeerIdxFrom peer ps i found ≠ none := by
  induction ps generalizing i found with
  | nil => simpa [findPeerIdxFrom] using h
  | cons p ps ih =>
    apply ih
    by_cases hp : p = peer
    · exact Or.inr (by simp [hp])
    · rcases h with h | h
      · exact Or.inl ((List.mem_cons.mp h).resolve_left (Ne.symm hp))
      · exact Or.inr (by simpa [hp] using h)

namespace Config

theorem getElem?_peerIds {a : cfg.Node} {i : Nat} {x : UInt64} :
    (cfg.peerIds a)[i]? = some x ↔ ∃ b, (cfg.peers a)[i]? = some b ∧ cfg.id b = x := by
  simp [peerIds]

/-- The place of a peer is found from its id. -/
theorem findPeerIdx_eq {r : RaftNode} {a b : cfg.Node} (hp : r.peers = cfg.peerIds a) {i : Nat}
    (h : findPeerIdx r (cfg.id b) = some i) : (cfg.peers a)[i]? = some b := by
  rcases findPeerIdxFrom_some h with h | ⟨k, rfl, hk⟩
  · simp at h
  · rw [hp, getElem?_peerIds] at hk
    obtain ⟨c, hc, hcb⟩ := hk
    rw [Nat.zero_add, hc, cfg.id_injective hcb]

theorem exists_findPeerIdx {r : RaftNode} {a b : cfg.Node} (hp : r.peers = cfg.peerIds a)
    (hb : b ≠ a) : ∃ i, findPeerIdx r (cfg.id b) = some i := by
  refine Option.ne_none_iff_exists'.mp (findPeerIdxFrom_ne_none (Or.inl ?_))
  rw [hp]
  exact List.mem_map_of_mem (cfg.mem_peers.mpr hb)

/-- No peer stands at two places. -/
theorem peers_inj {a b : cfg.Node} {i j : Nat} (hi : (cfg.peers a)[i]? = some b)
    (hj : (cfg.peers a)[j]? = some b) : i = j := by
  obtain ⟨hi', hib⟩ := List.getElem?_eq_some_iff.mp hi
  obtain ⟨hj', hjb⟩ := List.getElem?_eq_some_iff.mp hj
  exact (cfg.peers_nodup a).getElem_inj_iff.mp (hib.trans hjb.symm)

theorem length_peers (a : cfg.Node) : (cfg.peers a).length = cfg.n := by
  have hcard : ((cfg.peers a).toFinset).card = (cfg.peers a).length :=
    List.toFinset_card_of_nodup (cfg.peers_nodup a)
  have hset : (cfg.peers a).toFinset = Finset.univ.erase a := by
    ext b
    simp [cfg.mem_peers]
  rw [← hcard, hset, Finset.card_erase_of_mem (Finset.mem_univ a), Finset.card_univ,
    Fintype.card_fin, Nat.add_sub_cancel]

/-- The nodes at the marked places of a peer list, and the owner of the list. -/
theorem exists_quorum (a : cfg.Node) (f : Nat → Bool) :
    ∃ Q : Finset cfg.Node, Q.card = 1 + (List.range (cfg.peers a).length).countP f ∧
      ∀ q, q ∈ Q ↔ q = a ∨ ∃ i, (cfg.peers a)[i]? = some q ∧ f i = true := by
  set l := ((cfg.peers a).zipIdx.filter fun x => f x.2).map Prod.fst with hl
  have hsub : List.Sublist l (cfg.peers a) := by
    have h := (List.filter_sublist (p := fun x : cfg.Node × Nat => f x.2)
      (l := (cfg.peers a).zipIdx)).map Prod.fst
    rwa [List.zipIdx_map_fst] at h
  have hnotin : a ∉ l.toFinset := fun ha =>
    cfg.mem_peers.mp (hsub.subset (List.mem_toFinset.mp ha)) rfl
  refine ⟨insert a l.toFinset, ?_, ?_⟩
  · rw [Finset.card_insert_of_notMem hnotin,
      List.toFinset_card_of_nodup (hsub.nodup (cfg.peers_nodup a)), Nat.add_comm, hl,
      List.length_map, ← List.countP_eq_length_filter, List.range_eq_range',
      ← List.zipIdx_map_snd, List.countP_map]
    rfl
  · intro q
    rw [Finset.mem_insert, List.mem_toFinset]
    refine or_congr_right ⟨fun hq => ?_, fun ⟨i, hi, hf⟩ => ?_⟩
    · obtain ⟨⟨q', i⟩, hm, rfl⟩ := List.mem_map.mp hq
      obtain ⟨hm, hf⟩ := List.mem_filter.mp hm
      exact ⟨i, List.mem_zipIdx_iff_getElem?.mp hm, hf⟩
    · refine List.mem_map.mpr ⟨(q, i), List.mem_filter.mpr ⟨?_, hf⟩, rfl⟩
      exact List.mem_zipIdx_iff_getElem?.mpr hi

end Config

end Corestack.Raft
