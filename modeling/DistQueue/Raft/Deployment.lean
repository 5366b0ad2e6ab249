import DistQueue.Raft.Safety
import DistQueue.Table

/-!
# What can be deployed

A membership is what one should deploy: every node has exactly the others as its peers. What the
broker's command line admits is more than that, since every node is started by a command line of
its own and nothing compares them. A node may be given no peers, itself as a peer, peers that do
not know it, or peers that do not exist; and it may be given no directory for its files.

`DistQueue.Raft.Deployment` is a collection of nodes that have been started in this way. What they
do is defined for nodes with whatever configurations they have (`DistQueue.Raft.step`), so that a
membership whose configurations are admitted is a deployment with the same runs
(`DistQueue.Raft.Membership.deployment`).
-/

namespace DistQueue

namespace Raft

/-! ### The command line -/

/-- `strings.Split`. -/
def split (s : String) (sep : Char) : List String := (s.toList.splitOn sep).map String.ofList

/-- A map from the names of nodes to addresses. -/
abbrev Addrs := Table (Prod.fst : String × String → String)

/-- One part of the flag `--peers`. -/
def addPeer (addrs : Addrs × Addrs) (part : String) : Except String (Addrs × Addrs) :=
  match split part '=' with
  | [id, raftAddr, clientAddr] => .ok (addrs.1.put (id, raftAddr), addrs.2.put (id, clientAddr))
  | _ => .error ("bad peer " ++ part.quote ++ " (want id=raftAddr=clientAddr)")

/-- Parses `id=raftAddr=clientAddr,...` into two maps. -/
def parsePeers (s : String) : Except String (Addrs × Addrs) :=
  if s = "" then .ok (.empty, .empty) else (split s ',').foldlM addPeer (.empty, .empty)

/-- The configuration that `runCluster` gives to its node, or the text it ends with. -/
def runCluster (nodeID dataDir peersFlag : String) : Except String Config :=
  if nodeID = "" then .error "--node-id is required in cluster mode"
  else match parsePeers peersFlag with
    | .error err => .error ("--peers: " ++ err)
    | .ok (peerRaft, _) =>
      .ok { id := nodeID, peers := peerRaft.vals.map Prod.fst, dataDir := dataDir }

/-- **A configuration that the command line admits.** The peers are taken from a map, and so in
any order. -/
def Config.Admitted (cfg : Config) : Prop :=
  ∃ peersFlag cfg', runCluster cfg.id cfg.dataDir peersFlag = .ok cfg' ∧
    cfg.peers.Perm cfg'.peers

/-- The peers of a node are those of its flag. -/
theorem parsePeers_of_runCluster {nodeID dataDir peersFlag : String} {cfg : Config}
    (h : runCluster nodeID dataDir peersFlag = .ok cfg) :
    ∃ addrs, parsePeers peersFlag = .ok addrs ∧ cfg.peers = addrs.1.vals.map Prod.fst := by
  unfold runCluster at h
  split at h
  · cases h
  · split at h
    · cases h
    · rename_i addrs hparse
      obtain rfl := Except.ok.inj h
      exact ⟨_, hparse, rfl⟩

/-- No peer is listed twice. -/
theorem Config.Admitted.nodup {cfg : Config} (h : cfg.Admitted) : cfg.peers.Nodup := by
  obtain ⟨peersFlag, cfg', hrun, hperm⟩ := h
  obtain ⟨addrs, -, hpeers⟩ := parsePeers_of_runCluster hrun
  rw [hperm.nodup_iff, hpeers]
  exact addrs.1.nodup

/-! ### Deployments -/

/-- **Nodes that have been started**, each with a configuration that the command line admits. -/
structure Deployment extends Nodes where
  config_id : ∀ n ∈ ids, (config n).id = n
  admitted : ∀ n ∈ ids, (config n).Admitted

instance : Coe Deployment Nodes := ⟨Deployment.toNodes⟩

/-- A membership that can be typed on the command lines. -/
def Membership.deployment (M : Membership) (h : ∀ n ∈ M.ids, (M.config n).Admitted) :
    Deployment where
  toNodes := M.toNodes
  config_id := M.config_id
  admitted := h

end Raft

end DistQueue
