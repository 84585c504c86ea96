import Mathlib.Data.List.Nodup
import UtxoWorkshop.PlainText

/-! The generator of the experiment's networks: base nodes in subnets of a fixed size, and connector
nodes with a network of their own to each of the base nodes drawn for them. A draw is checked
against the network that is just being made, so none is ever drawn again, and a connector can be
linked to one base node twice. -/
namespace NetworkGenerator

open PlainText

/-- The constants of the generator and of its nodes. -/
structure Config where
  nodeCount : ℤ
  subnetCount : ℤ
  randomNodes : ℤ
  connectors : ℤ
  maxPeerCount : ℤ
  delay : ℤ

def image : String := "byf3lix/sub-node"

structure Node where
  name : String
  cmd : String
  withList : Bool
  validator : Bool
  connector : Bool
  otherNetworks : List String
  networks : List String
  deriving DecidableEq

def Node.new (name : String) (validator connector : Bool) : Node where
  name := name
  cmd := ""
  withList := false
  validator := validator
  connector := connector
  otherNetworks := []
  networks := []

/-- The networks in a node's part of the compose file. -/
def Node.services (node : Node) : List String := node.networks ++ node.otherNetworks

def Node.getCommand (config : Config) (node : Node) : String :=
  (if node.validator then
      ",\" " ++ node.cmd ++ " --validator --max-parallel-downloads " ++
        toString config.maxPeerCount ++ "\""
    else
      ",\" " ++ node.cmd ++ " --max-parallel-downloads " ++ toString config.maxPeerCount ++ "\"") ++
  (if 0 < node.otherNetworks.length ∨ node.withList then ",\"/var/tmp/public_addresses.txt\""
    else ",\"/var/tmp/public_addresses.txt\"") ++
  (if node.connector ∧ 0 < config.delay then ",\"" ++ toString config.delay ++ "\"" else "")

def indent (width : ℕ) : String := String.ofList (List.replicate width ' ')

def Node.getStringWithOffset (config : Config) (node : Node) (offset : ℕ) : String :=
  let line (depth : ℕ) (text : String) : String :=
    indent (2 * offset) ++ indent (2 * depth) ++ text ++ "\n"
  line 0 (node.name ++ ":") ++ line 1 ("image: " ++ image) ++ line 1 "volumes:" ++
    line 2 "- ~/logs:/var/tmp/" ++
    line 1 ("command: [\"" ++ node.name ++ "\" " ++ node.getCommand config ++ "]") ++
    (if 0 < node.networks.length then line 1 "networks:" else "") ++
    String.join (node.services.map fun net => line 2 ("- " ++ net)) ++
    (if node.connector then line 1 "cap_add:" ++ line 2 "- NET_ADMIN" else "")

/-- The static fields of the generator. The two texts are the exported edges. -/
structure NetGen where
  networks : List String
  nodes : List Node
  fromText : String
  toText : String
  deriving DecidableEq

def netName (net : ℕ) : String := "net" ++ toString net

def connectName (i j : ℕ) : String := "connect" ++ toString i ++ "-" ++ toString j

/-- The state of the loop that makes the base nodes. -/
structure Subnets where
  net : ℕ
  netCount : ℕ
  gen : NetGen

def addBase (config : Config) (s : Subnets) (i : ℕ) : Subnets :=
  let full : Prop := config.subnetCount ≤ s.netCount
  let net := if full then s.net + 1 else s.net
  let netCount := if full then 0 else s.netCount
  let tempNode := { Node.new ("Node" ++ toString i) (i = 0) false with networks := [netName net] }
  { net := net
    netCount := netCount + 1
    gen := { s.gen with
      networks := if netCount = 0 then s.gen.networks ++ [netName net] else s.gen.networks
      nodes := s.gen.nodes ++ [tempNode] } }

def makeBase (config : Config) : Subnets :=
  (List.range config.nodeCount.toNat).foldl (addBase config)
    { net := 0, netCount := 0, gen := { networks := [], nodes := [], fromText := "", toText := "" } }

/-- The loop over `j` for the connector `i`, with the numbers that will be drawn. A number whose node
has the network already is drawn again, with the same `j`. -/
def connectLoop (config : Config) (i : ℕ) :
    List ℕ → ℕ → Node → NetGen → Option (Node × NetGen × List ℕ)
  | [], j, tempNode, gen => if (j : ℤ) < config.randomNodes then none else some (tempNode, gen, [])
  | number :: draws, j, tempNode, gen =>
    if (j : ℤ) < config.randomNodes then
      let tempNode := { tempNode with networks := tempNode.networks ++ [connectName i j] }
      let gen := { gen with networks := gen.networks ++ [connectName i j] }
      match gen.nodes[number]? with
      | none => none
      | some node =>
        if connectName i j ∈ node.otherNetworks then connectLoop config i draws j tempNode gen
        else connectLoop config i draws (j + 1) tempNode { gen with
          nodes := gen.nodes.set number
            { node with otherNetworks := node.otherNetworks ++ [connectName i j] }
          fromText := gen.fromText ++ (" " ++ toString ((i : ℤ) + config.nodeCount))
          toText := gen.toText ++ (" " ++ toString number) }
    else some (tempNode, gen, number :: draws)

def addConnector (config : Config) (s : NetGen × List ℕ) (i : ℕ) : Option (NetGen × List ℕ) := do
  let tempNode := Node.new ("Node" ++ toString ((i : ℤ) + config.nodeCount)) false true
  let (tempNode, gen, draws) ← connectLoop config i s.2 0 tempNode s.1
  pure ({ gen with nodes := gen.nodes ++ [tempNode] }, draws)

def connectorCount (config : Config) (net : ℕ) : ℕ :=
  if 0 < net then if 0 < config.connectors then config.connectors.toNat else net + 2 else 0

def composeText (config : Config) (gen : NetGen) : String :=
  "version: \x273.3\x27\nservices:\n" ++
    String.join (gen.nodes.map fun node => node.getStringWithOffset config 1) ++ "networks:\n" ++
    String.join (gen.networks.map fun net =>
      indent 2 ++ net ++ ":\n" ++ (indent 4 ++ "external: True\n"))

/-- The static fields at the end, whose two texts are the files of the edges, the compose file, and
the numbers that were not drawn. -/
structure Generated where
  gen : NetGen
  compose : String
  rest : List ℕ

/-- There is no result while the numbers do not suffice. -/
def generateCompose (config : Config) (draws : List ℕ) : Option Generated := do
  let base := makeBase config
  let (gen, rest) ← (List.range (connectorCount config base.net)).foldlM (addConnector config)
    (base.gen, draws)
  pure { gen := gen, compose := composeText config gen, rest := rest }

/-- The node numbers with a network in their part of the compose file. -/
def NetGen.Joins (gen : NetGen) (k : ℕ) (net : String) : Prop :=
  ∃ node, gen.nodes[k]? = some node ∧ net ∈ node.services

/-- The networks of a connector lead to different base nodes, each to one of them, and the edges are
the pairs of a connector and a base node on one network. -/
structure WellConnected (config : Config) (gen : NetGen) : Prop where
  named : ∀ (k : ℕ) node, gen.nodes[k]? = some node → node.name = "Node" ++ toString k
  peers : ∀ (k : ℕ) node, gen.nodes[k]? = some node → node.connector →
    ∃ peers : List ℕ, peers.length = config.randomNodes.toNat ∧ peers.Nodup ∧
      (∀ b ∈ peers, (b : ℤ) < config.nodeCount) ∧
      List.Forall₂ (fun net b => ∀ k', gen.Joins k' net ↔ k' = k ∨ k' = b) node.networks peers
  networks : gen.networks.Nodup
  services : ∀ node ∈ gen.nodes, node.services.Nodup
  edges : ∃ edges : List (ℕ × ℕ), edges.Nodup ∧
    gen.fromText = String.join (edges.map fun e => " " ++ toString e.1) ∧
    gen.toText = String.join (edges.map fun e => " " ++ toString e.2) ∧
    ∀ k b, (k, b) ∈ edges ↔ ∃ node, gen.nodes[k]? = some node ∧ node.connector ∧ b ≠ k ∧
      ∃ net ∈ node.networks, gen.Joins b net

variable {config : Config} {base gen : NetGen} {peers : List (List ℕ)} {qs : List ℕ}

/-- A connector's network and the base node it leads to. -/
structure Link where
  connector : ℕ
  slot : ℕ
  base : ℕ

def Link.name (l : Link) : String := connectName l.connector l.slot

/-- The links of one connector, in the order of its draws. -/
def linksOf (i : ℕ) (peers : List ℕ) : List Link := peers.mapIdx fun j b => ⟨i, j, b⟩

def allLinks (peers : List (List ℕ)) : List Link := (peers.mapIdx linksOf).flatten

def attach (nodes : List Node) (links : List Link) : List Node :=
  nodes.mapIdx fun b node => { node with
    otherNetworks := (links.filter fun l => l.base = b).map Link.name }

def connectorNode (config : Config) (i : ℕ) (peers : List ℕ) : Node :=
  { Node.new ("Node" ++ toString ((i : ℤ) + config.nodeCount)) false true with
    networks := (linksOf i peers).map Link.name }

/-- What the draws so far have made of the base nodes: `peers` has the finished connectors and
`links` also those of the one that is being made. -/
def wired (config : Config) (base : NetGen) (peers : List (List ℕ)) (links : List Link) :
    NetGen where
  networks := base.networks ++ links.map Link.name
  nodes := attach base.nodes links ++ peers.mapIdx (connectorNode config)
  fromText := String.join (links.map fun l => " " ++ toString ((l.connector : ℤ) + config.nodeCount))
  toText := String.join (links.map fun l => " " ++ toString l.base)

theorem linksOf_concat (i : ℕ) (qs : List ℕ) (b : ℕ) :
    linksOf i (qs ++ [b]) = linksOf i qs ++ [⟨i, qs.length, b⟩] := List.mapIdx_concat

theorem allLinks_concat (peers : List (List ℕ)) (qs : List ℕ) :
    allLinks (peers ++ [qs]) = allLinks peers ++ linksOf peers.length qs := by
  rw [allLinks, List.mapIdx_concat, List.flatten_concat, allLinks]

theorem allLinks_draw (peers : List (List ℕ)) (qs : List ℕ) (b : ℕ) :
    allLinks (peers ++ [qs ++ [b]]) =
      allLinks (peers ++ [qs]) ++ [⟨peers.length, qs.length, b⟩] := by
  rw [allLinks_concat, allLinks_concat, linksOf_concat, List.append_assoc]

theorem mem_linksOf {i : ℕ} {qs : List ℕ} {l : Link} :
    l ∈ linksOf i qs ↔ l.connector = i ∧ qs[l.slot]? = some l.base := by
  rw [linksOf, List.mem_mapIdx]
  constructor
  · intro h
    rcases h with ⟨j, hj, rfl⟩
    exact ⟨rfl, List.getElem?_eq_getElem hj⟩
  · intro h
    rcases h with ⟨rfl, hslot⟩
    obtain ⟨hj, hbase⟩ := List.getElem?_eq_some_iff.mp hslot
    exact ⟨l.slot, hj, by rw [hbase]⟩

theorem mem_allLinks {l : Link} :
    l ∈ allLinks peers ↔ ∃ qs, peers[l.connector]? = some qs ∧ qs[l.slot]? = some l.base := by
  rw [allLinks, List.mem_flatten]
  constructor
  · intro h
    rcases h with ⟨links, hlinks, hl⟩
    obtain ⟨i, hi, rfl⟩ := List.mem_mapIdx.mp hlinks
    obtain ⟨rfl, hslot⟩ := mem_linksOf.mp hl
    exact ⟨_, List.getElem?_eq_getElem hi, hslot⟩
  · intro h
    rcases h with ⟨qs, hqs, hslot⟩
    obtain ⟨hi, rfl⟩ := List.getElem?_eq_some_iff.mp hqs
    exact ⟨_, List.mem_mapIdx.mpr ⟨l.connector, hi, rfl⟩, mem_linksOf.mpr ⟨rfl, hslot⟩⟩

theorem Link.name_injective {l l' : Link} (h : l.name = l'.name) :
    l.connector = l'.connector ∧ l.slot = l'.slot := numbered_pair_injective h

/-- A network has one link. -/
theorem link_unique {l l' : Link} (hl : l ∈ allLinks peers) (hl' : l' ∈ allLinks peers)
    (h : l.name = l'.name) : l = l' := by
  obtain ⟨hconnector, hslot⟩ := Link.name_injective h
  obtain ⟨qs, hqs, hbase⟩ := mem_allLinks.mp hl
  obtain ⟨qs', hqs', hbase'⟩ := mem_allLinks.mp hl'
  rw [hconnector, hqs'] at hqs
  cases hqs
  rw [hslot, hbase'] at hbase
  cases l
  cases l'
  simp_all

theorem attach_length (nodes : List Node) (links : List Link) :
    (attach nodes links).length = nodes.length := List.length_mapIdx

/-- One more link is one more network at its base node. -/
theorem attach_concat {nodes : List Node} {links : List Link} {l : Link} {node : Node}
    (hnode : (attach nodes links)[l.base]? = some node) :
    attach nodes (links ++ [l]) = (attach nodes links).set l.base
      { node with otherNetworks := node.otherNetworks ++ [l.name] } := by
  apply List.ext_getElem?
  intro k
  rw [List.getElem?_set]
  by_cases hk : l.base = k
  · subst hk
    obtain ⟨hlt, rfl⟩ := List.getElem?_eq_some_iff.mp hnode
    rw [if_pos rfl, if_pos hlt]
    rw [attach_length] at hlt
    simp [attach, hlt, List.filter_append]
  · rw [if_neg hk]
    simp [attach, List.filter_append, hk]

/-- The name that is tested is made of the connector and the slot that come next, so it is new. -/
theorem connectName_fresh {l : Link} (hl : l ∈ allLinks (peers ++ [qs])) :
    l.name ≠ connectName peers.length qs.length := by
  intro hname
  obtain ⟨hconnector, hslot⟩ := numbered_pair_injective hname
  obtain ⟨qs', hqs, hbase⟩ := mem_allLinks.mp hl
  rw [hconnector, List.getElem?_concat_length] at hqs
  cases hqs
  rw [hslot, List.getElem?_eq_none le_rfl] at hbase
  cases hbase

theorem connectorNode_concat (i : ℕ) (qs : List ℕ) (b : ℕ) : connectorNode config i (qs ++ [b]) =
    { connectorNode config i qs with
      networks := (connectorNode config i qs).networks ++ [connectName i qs.length] } := by
  rw [connectorNode, linksOf_concat, List.map_append]
  rfl

theorem join_concat (parts : List String) (part : String) :
    String.join (parts ++ [part]) = String.join parts ++ part := by
  rw [String.join_append, String.join_cons, String.join_nil, String.append_empty]

/-- No draw is rejected: the next one makes the next link. -/
theorem connectLoop_draw (hj : (qs.length : ℤ) < config.randomNodes) {number : ℕ}
    (hnumber : number < base.nodes.length) (draws : List ℕ) :
    connectLoop config peers.length (number :: draws) qs.length
        (connectorNode config peers.length qs)
        (wired config base peers (allLinks (peers ++ [qs]))) =
      connectLoop config peers.length draws (qs ++ [number]).length
        (connectorNode config peers.length (qs ++ [number]))
        (wired config base peers (allLinks (peers ++ [qs ++ [number]]))) := by
  have hlt : number < (attach base.nodes (allLinks (peers ++ [qs]))).length := by
    rwa [attach_length]
  obtain ⟨node, hnode⟩ : ∃ node,
      (attach base.nodes (allLinks (peers ++ [qs])))[number]? = some node :=
    ⟨_, List.getElem?_eq_getElem hlt⟩
  have hget : (wired config base peers (allLinks (peers ++ [qs]))).nodes[number]? = some node := by
    rw [wired, List.getElem?_append_left hlt, hnode]
  have hfresh : connectName peers.length qs.length ∉ node.otherNetworks := by
    intro hmem
    rw [attach, List.getElem?_mapIdx] at hnode
    obtain ⟨_, -, rfl⟩ := Option.map_eq_some_iff.mp hnode
    obtain ⟨l, hl, hname⟩ := List.mem_map.mp hmem
    exact connectName_fresh (List.mem_of_mem_filter hl) hname
  have hattach := attach_concat (l := ⟨peers.length, qs.length, number⟩) hnode
  rw [connectLoop, if_pos hj]
  simp only [hget, if_neg hfresh, connectorNode_concat, List.length_append, List.length_singleton]
  congr 1
  simp only [wired, allLinks_draw, hattach, List.map_append, List.map_singleton, join_concat,
    List.append_assoc, List.set_append_left _ _ hlt]
  rfl

/-- The loop takes as many numbers as it needs, and waits for more only when there are too few. -/
theorem connectLoop_eq (draws : List ℕ) (hdraws : ∀ number ∈ draws, number < base.nodes.length)
    (hqs : qs.length ≤ config.randomNodes.toNat) :
    connectLoop config peers.length draws qs.length (connectorNode config peers.length qs)
        (wired config base peers (allLinks (peers ++ [qs]))) =
      if qs.length + draws.length < config.randomNodes.toNat then none
      else some (connectorNode config peers.length
          (qs ++ draws.take (config.randomNodes.toNat - qs.length)),
        wired config base peers
          (allLinks (peers ++ [qs ++ draws.take (config.randomNodes.toNat - qs.length)])),
        draws.drop (config.randomNodes.toNat - qs.length)) := by
  induction draws generalizing qs with
  | nil =>
    rw [connectLoop]
    by_cases hj : (qs.length : ℤ) < config.randomNodes
    · rw [if_pos hj, if_pos (by simp only [List.length_nil]; omega)]
    · rw [if_neg hj, if_neg (by simp only [List.length_nil]; omega)]
      simp
  | cons number draws ih =>
    by_cases hj : (qs.length : ℤ) < config.randomNodes
    · have hnumber := hdraws number List.mem_cons_self
      have hrest : config.randomNodes.toNat - qs.length =
          config.randomNodes.toNat - (qs ++ [number]).length + 1 := by
        rw [List.length_append, List.length_singleton]
        omega
      have hcount : (qs ++ [number]).length + draws.length =
          qs.length + (number :: draws).length := by
        simp only [List.length_append, List.length_cons, List.length_nil]
        omega
      rw [connectLoop_draw hj hnumber, ih (fun d hd => hdraws d (List.mem_cons_of_mem _ hd))
        (by rw [List.length_append, List.length_singleton]; omega), hcount, hrest,
        List.take_succ_cons, List.drop_succ_cons, List.append_assoc, List.singleton_append]
    · have hdone : config.randomNodes.toNat - qs.length = 0 := by omega
      rw [connectLoop, if_neg hj, hdone, if_neg (by omega), List.take_zero, List.drop_zero,
        List.append_nil]

theorem addConnector_eq {i : ℕ} (hi : peers.length = i) (draws : List ℕ)
    (hdraws : ∀ number ∈ draws, number < base.nodes.length) :
    addConnector config (wired config base peers (allLinks peers), draws) i =
      if draws.length < config.randomNodes.toNat then none
      else some (wired config base (peers ++ [draws.take config.randomNodes.toNat])
          (allLinks (peers ++ [draws.take config.randomNodes.toNat])),
        draws.drop config.randomNodes.toNat) := by
  have hstart : allLinks (peers ++ [[]]) = allLinks peers := by
    rw [allLinks_concat]
    exact List.append_nil _
  have hloop := @connectLoop_eq config base peers [] draws hdraws (Nat.zero_le _)
  rw [hstart, List.length_nil, Nat.zero_add, Nat.sub_zero] at hloop
  subst hi
  have hnode : Node.new ("Node" ++ toString ((peers.length : ℤ) + config.nodeCount)) false true =
      connectorNode config peers.length [] := rfl
  simp only [addConnector, hnode, hloop]
  split_ifs with hfew
  · rfl
  · simp only [Option.bind_eq_bind, Option.bind_some, wired, List.mapIdx_concat,
      List.append_assoc, List.nil_append]
    rfl

/-- The numbers drawn for each connector. -/
def peersOf (config : Config) (draws : List ℕ) (i : ℕ) : List ℕ :=
  (draws.drop (i * config.randomNodes.toNat)).take config.randomNodes.toNat

theorem addConnectors_eq (draws : List ℕ) (hdraws : ∀ number ∈ draws, number < base.nodes.length)
    (count : ℕ) :
    (List.range count).foldlM (addConnector config) (wired config base [] [], draws) =
      if draws.length < count * config.randomNodes.toNat then none
      else some (wired config base ((List.range count).map (peersOf config draws))
          (allLinks ((List.range count).map (peersOf config draws))),
        draws.drop (count * config.randomNodes.toNat)) := by
  induction count with
  | zero =>
    rw [Nat.zero_mul, if_neg (Nat.not_lt_zero _)]
    rfl
  | succ count ih =>
    rw [List.range_succ, List.foldlM_append, ih]
    have hstep : (count + 1) * config.randomNodes.toNat =
      count * config.randomNodes.toNat + config.randomNodes.toNat := Nat.succ_mul _ _
    by_cases hfew : draws.length < count * config.randomNodes.toNat
    · rw [if_pos hfew, if_pos (by omega)]
      rfl
    · have hlength : ((List.range count).map (peersOf config draws)).length = count := by simp
      have hrest : ∀ number ∈ draws.drop (count * config.randomNodes.toNat),
          number < base.nodes.length := fun d hd => hdraws d (List.mem_of_mem_drop hd)
      rw [if_neg hfew]
      simp only [Option.bind_eq_bind, Option.bind_some, List.foldlM_cons, List.foldlM_nil,
        addConnector_eq hlength _ hrest, List.length_drop, List.map_append, List.map_singleton]
      by_cases hlast : draws.length - count * config.randomNodes.toNat < config.randomNodes.toNat
      · rw [if_pos hlast, if_pos (by omega)]
        rfl
      · rw [if_neg hlast, if_neg (by omega), List.drop_drop, hstep]
        rfl

/-- A base node before any connector is made. -/
structure Bare (b : ℕ) (node : Node) : Prop where
  named : node.name = "Node" ++ toString b
  base : node.connector = false
  otherNetworks : node.otherNetworks = []
  networks : ∃ k, node.networks = [netName k]

/-- The networks of the subnets so far are numbered up to the current one, each once. -/
structure BaseInvariant (n : ℕ) (s : Subnets) : Prop where
  networks : ∃ nets : List ℕ, nets.Nodup ∧ s.gen.networks = nets.map netName ∧
    (∀ k ∈ nets, k ≤ s.net) ∧ (s.netCount = 0 → nets = [])
  length : s.gen.nodes.length = n
  nodes : ∀ (b : ℕ) node, s.gen.nodes[b]? = some node → Bare b node
  texts : s.gen.fromText = "" ∧ s.gen.toText = ""

theorem addBase_net_le (config : Config) (s : Subnets) (i : ℕ) :
    s.net ≤ (addBase config s i).net := by
  rw [addBase]
  by_cases hfull : config.subnetCount ≤ s.netCount
  · simp [hfull]
  · simp [hfull]

/-- A network is opened for the first node and behind a full subnet. -/
theorem addBase_networks (config : Config) (s : Subnets) (i : ℕ) :
    (addBase config s i).gen.networks = s.gen.networks ∨
    ((addBase config s i).gen.networks = s.gen.networks ++ [netName (addBase config s i).net] ∧
      (s.net < (addBase config s i).net ∨ s.netCount = 0)) := by
  rw [addBase]
  by_cases hfull : config.subnetCount ≤ s.netCount
  · exact .inr (by simp [hfull])
  · by_cases hzero : s.netCount = 0
    · simp only [if_neg hfull, if_pos hzero]
      exact .inr ⟨trivial, .inr hzero⟩
    · exact .inl (by simp [hfull, hzero])

theorem BaseInvariant.addBase_networks {n : ℕ} {s : Subnets} (h : BaseInvariant n s) (i : ℕ) :
    ∃ nets : List ℕ, nets.Nodup ∧ (addBase config s i).gen.networks = nets.map netName ∧
      (∀ k ∈ nets, k ≤ (addBase config s i).net) ∧
      ((addBase config s i).netCount = 0 → nets = []) := by
  obtain ⟨nets, hnodup, hnets, hle, hempty⟩ := h.networks
  have hgrows := addBase_net_le config s i
  have hcount : (NetworkGenerator.addBase config s i).netCount ≠ 0 := Nat.succ_ne_zero _
  rcases NetworkGenerator.addBase_networks config s i with hsame | ⟨hopened, hnew⟩
  · refine ⟨nets, hnodup, hsame.trans hnets, ?_, fun hzero => absurd hzero hcount⟩
    intro k hk
    exact (hle k hk).trans hgrows
  · have hfresh : (NetworkGenerator.addBase config s i).net ∉ nets := by
      intro hmem
      rcases hnew with hlt | hzero
      · exact absurd (hle _ hmem) (not_le.mpr hlt)
      · rw [hempty hzero] at hmem
        cases hmem
    refine ⟨nets.concat (NetworkGenerator.addBase config s i).net, hnodup.concat hfresh, ?_, ?_,
      fun hzero => absurd hzero hcount⟩
    · rw [hopened, hnets, List.map_concat, List.concat_eq_append]
    · intro k hk
      rcases List.mem_append.mp (List.concat_eq_append ▸ hk) with hk | hk
      · exact (hle k hk).trans hgrows
      · exact (List.mem_singleton.mp hk).le

theorem BaseInvariant.addBase {n : ℕ} {s : Subnets} (h : BaseInvariant n s) :
    BaseInvariant (n + 1) (addBase config s n) := by
  refine ⟨h.addBase_networks n, ?_, ?_, h.texts⟩
  · simp [NetworkGenerator.addBase, h.length]
  · intro b node hnode
    simp only [NetworkGenerator.addBase] at hnode
    by_cases hb : b < n
    · rw [List.getElem?_append_left (by rwa [h.length])] at hnode
      exact h.nodes b node hnode
    · rw [List.getElem?_append_right (by rw [h.length]; omega), h.length] at hnode
      obtain ⟨hzero, rfl⟩ := List.getElem?_eq_some_iff.mp hnode
      simp only [List.length_singleton] at hzero
      obtain rfl : b = n := by omega
      simp only [Nat.sub_self, List.getElem_cons_zero]
      exact ⟨rfl, rfl, rfl, _, rfl⟩

theorem makeBase_invariant (config : Config) :
    BaseInvariant config.nodeCount.toNat (makeBase config) := by
  rw [makeBase]
  induction config.nodeCount.toNat with
  | zero => exact ⟨⟨[], by simp⟩, rfl, by simp, rfl, rfl⟩
  | succ n ih =>
    rw [List.range_succ, List.foldl_append]
    exact ih.addBase

theorem nodeCount_pos (h : 0 < (makeBase config).net) : 0 < config.nodeCount := by
  by_contra hle
  have hnone : config.nodeCount.toNat = 0 := by omega
  simp [makeBase, hnone] at h

theorem wired_nil (config : Config) :
    wired config (makeBase config).gen [] [] = (makeBase config).gen := by
  have hinv := makeBase_invariant config
  have hattach : attach (makeBase config).gen.nodes [] = (makeBase config).gen.nodes := by
    apply List.ext_getElem?
    intro b
    rw [attach, List.getElem?_mapIdx]
    cases hnode : (makeBase config).gen.nodes[b]? with
    | none => rfl
    | some node =>
      have hother := (hinv.nodes b node hnode).otherNetworks
      rw [Option.map_some, List.filter_nil, List.map_nil, ← hother]
  obtain ⟨hfrom, hto⟩ := hinv.texts
  rw [wired, hattach]
  generalize (makeBase config).gen = gen at hfrom hto
  cases gen
  simp_all

/-- The run as a whole: the first numbers are the peers of the connectors, taken in order. -/
theorem generateCompose_eq (config : Config) (draws : List ℕ)
    (hdraws : ∀ number ∈ draws, (number : ℤ) < config.nodeCount) :
    generateCompose config draws =
      if draws.length <
          connectorCount config (makeBase config).net * config.randomNodes.toNat then none
      else
        let peers := (List.range (connectorCount config (makeBase config).net)).map
          (peersOf config draws)
        let gen := wired config (makeBase config).gen peers (allLinks peers)
        some {
          gen := gen
          compose := composeText config gen
          rest := draws.drop
            (connectorCount config (makeBase config).net * config.randomNodes.toNat) } := by
  have hbase : ∀ number ∈ draws, number < (makeBase config).gen.nodes.length := by
    intro number hnumber
    have hlt := hdraws number hnumber
    rw [(makeBase_invariant config).length]
    omega
  have hrun := @addConnectors_eq config _ draws hbase (connectorCount config (makeBase config).net)
  rw [wired_nil] at hrun
  rw [generateCompose, hrun]
  split_ifs with hfew <;> rfl

theorem linksOf_base (i : ℕ) (qs : List ℕ) : (linksOf i qs).map Link.base = qs := by
  apply List.ext_getElem?
  intro j
  rw [linksOf, List.getElem?_map, List.getElem?_mapIdx]
  cases qs[j]? <;> rfl

theorem linksOf_names_nodup (i : ℕ) (qs : List ℕ) : ((linksOf i qs).map Link.name).Nodup := by
  apply List.pairwise_iff_getElem.mpr
  intro j j' hj hj' hlt hname
  simp only [linksOf, List.getElem_map, List.getElem_mapIdx] at hname
  exact hlt.ne (Link.name_injective hname).2

theorem allLinks_names_nodup (peers : List (List ℕ)) :
    ((allLinks peers).map Link.name).Nodup := by
  induction peers using List.reverseRecOn with
  | nil => exact .nil
  | append_singleton peers qs ih =>
    rw [allLinks_concat, List.map_append, List.nodup_append]
    refine ⟨ih, linksOf_names_nodup _ _, ?_⟩
    intro name hname name' hname' heq
    obtain ⟨l, hl, rfl⟩ := List.mem_map.mp hname
    obtain ⟨l', hl', rfl⟩ := List.mem_map.mp hname'
    obtain ⟨qs', hqs', -⟩ := mem_allLinks.mp hl
    have hlt := (List.getElem?_eq_some_iff.mp hqs').1
    rw [(Link.name_injective heq).1, (mem_linksOf.mp hl').1] at hlt
    exact lt_irrefl _ hlt

theorem netName_ne (k : ℕ) (l : Link) : netName k ≠ l.name := by
  intro h
  have hnet : "net".toList = ['n', 'e', 't'] := by decide +kernel
  have hconnect : "connect".toList = ['c', 'o', 'n', 'n', 'e', 'c', 't'] := by decide +kernel
  have hlist := congrArg String.toList h
  simp [netName, Link.name, connectName, String.toList_append, hnet, hconnect] at hlist

/-- What the draws of a run can be: `peersOf` the numbers below the number of base nodes. -/
structure Drawn (config : Config) (peers : List (List ℕ)) : Prop where
  base : peers ≠ [] → 0 < config.nodeCount
  length : ∀ qs ∈ peers, qs.length = config.randomNodes.toNat
  lt : ∀ qs ∈ peers, ∀ b ∈ qs, b < config.nodeCount.toNat

section

variable {subnets : Subnets}

theorem Drawn.link_lt (h : Drawn config peers) {l : Link} (hl : l ∈ allLinks peers) :
    l.base < config.nodeCount.toNat := by
  obtain ⟨qs, hqs, hbase⟩ := mem_allLinks.mp hl
  exact h.lt qs (List.mem_of_getElem? hqs) _ (List.mem_of_getElem? hbase)

theorem Drawn.number (h : Drawn config peers) (hne : peers ≠ []) (i : ℕ) :
    toString ((i : ℤ) + config.nodeCount) = toString (config.nodeCount.toNat + i) := by
  have hpos := h.base hne
  have hnumber : (i : ℤ) + config.nodeCount = ((config.nodeCount.toNat + i : ℕ) : ℤ) := by omega
  rw [hnumber]
  rfl

theorem BaseInvariant.length_attach {n : ℕ} (hbase : BaseInvariant n subnets)
    (links : List Link) : (attach subnets.gen.nodes links).length = n := by
  rw [attach_length, hbase.length]

/-- The nodes of the whole network. -/
theorem wired_node (hbase : BaseInvariant config.nodeCount.toNat subnets) {links : List Link}
    {k : ℕ} {node : Node} (hnode : (wired config subnets.gen peers links).nodes[k]? = some node) :
    (k < config.nodeCount.toNat ∧ ∃ bare, Bare k bare ∧ node = { bare with
      otherNetworks := (links.filter fun l => l.base = k).map Link.name }) ∨
    ∃ i qs, k = config.nodeCount.toNat + i ∧ peers[i]? = some qs ∧
      node = connectorNode config i qs := by
  have hlength := hbase.length_attach links
  rw [wired] at hnode
  by_cases hk : k < config.nodeCount.toNat
  · rw [List.getElem?_append_left (by omega), attach, List.getElem?_mapIdx] at hnode
    obtain ⟨bare, hbare, rfl⟩ := Option.map_eq_some_iff.mp hnode
    exact .inl ⟨hk, bare, hbase.nodes k bare hbare, rfl⟩
  · rw [List.getElem?_append_right (by omega), hlength, List.getElem?_mapIdx] at hnode
    obtain ⟨qs, hqs, rfl⟩ := Option.map_eq_some_iff.mp hnode
    exact .inr ⟨k - config.nodeCount.toNat, qs, by omega, hqs, rfl⟩

theorem connector_node (hbase : BaseInvariant config.nodeCount.toNat subnets) {links : List Link}
    {k : ℕ} {node : Node} (hnode : (wired config subnets.gen peers links).nodes[k]? = some node)
    (hconnector : node.connector) : ∃ i qs, k = config.nodeCount.toNat + i ∧
      peers[i]? = some qs ∧ node = connectorNode config i qs := by
  rcases wired_node hbase hnode with ⟨-, bare, hbare, rfl⟩ | hnode
  · rw [hbare.base] at hconnector
    cases hconnector
  · exact hnode

theorem wired_base (hbase : BaseInvariant config.nodeCount.toNat subnets) (links : List Link)
    {k : ℕ} (hk : k < config.nodeCount.toNat) : ∃ node,
      (wired config subnets.gen peers links).nodes[k]? = some node ∧
      node.otherNetworks = (links.filter fun l => l.base = k).map Link.name := by
  have hlt : k < (attach subnets.gen.nodes links).length := by rwa [hbase.length_attach links]
  refine ⟨_, (List.getElem?_append_left hlt).trans (List.getElem?_eq_getElem hlt), ?_⟩
  simp [attach]

theorem wired_connector (hbase : BaseInvariant config.nodeCount.toNat subnets)
    (links : List Link) {i : ℕ} (hqs : peers[i]? = some qs) :
    (wired config subnets.gen peers links).nodes[config.nodeCount.toNat + i]? =
      some (connectorNode config i qs) := by
  have hlength := hbase.length_attach links
  rw [wired, List.getElem?_append_right (by omega), hlength, Nat.add_sub_cancel_left,
    List.getElem?_mapIdx, hqs, Option.map_some]

theorem connector_services (config : Config) (i : ℕ) (qs : List ℕ) :
    (connectorNode config i qs).services = (linksOf i qs).map Link.name := List.append_nil _

theorem mem_connector_services {i : ℕ} {name : String} :
    name ∈ (connectorNode config i qs).services ↔ ∃ l ∈ linksOf i qs, l.name = name := by
  rw [connector_services, List.mem_map]

theorem linksOf_subset {i : ℕ} (hqs : peers[i]? = some qs) {l : Link} (hl : l ∈ linksOf i qs) :
    l ∈ allLinks peers := by
  obtain ⟨rfl, hslot⟩ := mem_linksOf.mp hl
  exact mem_allLinks.mpr ⟨qs, hqs, hslot⟩

/-- A connector's network has the connector and one base node. -/
theorem joins_link_iff (hbase : BaseInvariant config.nodeCount.toNat subnets)
    (hdrawn : Drawn config peers) {l : Link} (hl : l ∈ allLinks peers) (k : ℕ) :
    (wired config subnets.gen peers (allLinks peers)).Joins k l.name ↔
      k = config.nodeCount.toNat + l.connector ∨ k = l.base := by
  constructor
  · intro h
    rcases h with ⟨node, hnode, hmem⟩
    rcases wired_node hbase hnode with ⟨-, bare, hbare, rfl⟩ | ⟨i, qs, rfl, hqs, rfl⟩
    · obtain ⟨j, hj⟩ := hbare.networks
      rw [Node.services, hj] at hmem
      rcases List.mem_append.mp hmem with hmem | hmem
      · exact absurd (List.mem_singleton.mp hmem).symm (netName_ne j l)
      · obtain ⟨l', hl', hname⟩ := List.mem_map.mp hmem
        obtain ⟨hl', hk⟩ := List.mem_filter.mp hl'
        rw [link_unique hl' hl hname] at hk
        exact .inr (of_decide_eq_true hk).symm
    · obtain ⟨l', hl', hname⟩ := mem_connector_services.mp hmem
      rw [link_unique (linksOf_subset hqs hl') hl hname] at hl'
      rw [(mem_linksOf.mp hl').1]
      exact .inl rfl
  · rintro (rfl | rfl)
    · obtain ⟨qs, hqs, hslot⟩ := mem_allLinks.mp hl
      exact ⟨_, wired_connector hbase _ hqs,
        mem_connector_services.mpr ⟨l, mem_linksOf.mpr ⟨rfl, hslot⟩, rfl⟩⟩
    · obtain ⟨node, hnode, hother⟩ := wired_base hbase (allLinks peers) (hdrawn.link_lt hl)
      refine ⟨node, hnode, List.mem_append_right _ ?_⟩
      rw [hother]
      exact List.mem_map_of_mem (List.mem_filter.mpr ⟨hl, by simp⟩)

theorem wired_networks_nodup (hbase : BaseInvariant config.nodeCount.toNat subnets)
    (peers : List (List ℕ)) :
    (wired config subnets.gen peers (allLinks peers)).networks.Nodup := by
  obtain ⟨nets, hnodup, hnets, -, -⟩ := hbase.networks
  rw [wired, hnets, List.nodup_append]
  refine ⟨hnodup.map (numbered_injective "net"), allLinks_names_nodup peers, ?_⟩
  intro name hname name' hname' heq
  obtain ⟨k, -, rfl⟩ := List.mem_map.mp hname
  obtain ⟨l, -, rfl⟩ := List.mem_map.mp hname'
  exact netName_ne k l heq

theorem wired_services_nodup (hbase : BaseInvariant config.nodeCount.toNat subnets)
    {node : Node} (hnode : node ∈ (wired config subnets.gen peers (allLinks peers)).nodes) :
    node.services.Nodup := by
  obtain ⟨k, hk⟩ := List.getElem?_of_mem hnode
  rcases wired_node hbase hk with ⟨-, bare, hbare, rfl⟩ | ⟨i, qs, -, -, rfl⟩
  · obtain ⟨j, hj⟩ := hbare.networks
    rw [Node.services, hj, List.singleton_append, List.nodup_cons]
    constructor
    · intro hmem
      obtain ⟨l, -, hname⟩ := List.mem_map.mp hmem
      exact netName_ne j l hname.symm
    · exact (allLinks_names_nodup peers).sublist (List.filter_sublist.map _)
  · rw [connector_services]
    exact linksOf_names_nodup i qs

theorem wired_named (hbase : BaseInvariant config.nodeCount.toNat subnets)
    (hdrawn : Drawn config peers) {links : List Link} {k : ℕ} {node : Node}
    (hnode : (wired config subnets.gen peers links).nodes[k]? = some node) :
    node.name = "Node" ++ toString k := by
  rcases wired_node hbase hnode with ⟨-, bare, hbare, rfl⟩ | ⟨i, qs, rfl, hqs, rfl⟩
  · exact hbare.named
  · have hne : peers ≠ [] := List.ne_nil_of_mem (List.mem_of_getElem? hqs)
    rw [← hdrawn.number hne]
    rfl

/-- The peers of a connector are the numbers drawn for it, and no others. -/
theorem peers_iff (hbase : BaseInvariant config.nodeCount.toNat subnets)
    (hdrawn : Drawn config peers) {i : ℕ} (hqs : peers[i]? = some qs) {ps : List ℕ} :
    List.Forall₂ (fun net b => ∀ k, (wired config subnets.gen peers (allLinks peers)).Joins k net ↔
        k = config.nodeCount.toNat + i ∨ k = b) (connectorNode config i qs).networks ps ↔
      ps = qs := by
  have hnetworks : (connectorNode config i qs).networks = (linksOf i qs).map Link.name := rfl
  rw [hnetworks, List.forall₂_map_left_iff]
  constructor
  · intro h
    have hlinks : List.Forall₂ (fun l b => l.base = b) (linksOf i qs) ps := by
      apply ((List.forall₂_and_left _ _).mpr ⟨fun l hl => linksOf_subset hqs hl, h⟩).imp
      rintro l b ⟨hl, hjoins⟩
      have hlt := hdrawn.link_lt hl
      rcases (hjoins l.base).mp ((joins_link_iff hbase hdrawn hl _).mpr (.inr rfl)) with hk | hk
      · omega
      · exact hk
    have hmap := List.forall₂_map_left_iff.mpr hlinks
    rw [List.forall₂_eq_eq_eq, linksOf_base] at hmap
    exact hmap.symm
  · rintro rfl
    have hself : List.Forall₂ (fun l b => ∀ k,
        (wired config subnets.gen peers (allLinks peers)).Joins k (Link.name l) ↔
          k = config.nodeCount.toNat + i ∨ k = b) (linksOf i ps) ((linksOf i ps).map Link.base) := by
      rw [List.forall₂_map_right_iff, List.forall₂_same]
      intro l hl
      rw [← (mem_linksOf.mp hl).1]
      exact joins_link_iff hbase hdrawn (linksOf_subset hqs hl)
    rwa [linksOf_base] at hself

/-- A link of a connector back from a network that the connector and a base node are on. -/
theorem edge_iff (hbase : BaseInvariant config.nodeCount.toNat subnets)
    (hdrawn : Drawn config peers) (k b : ℕ) :
    (∃ l ∈ allLinks peers, config.nodeCount.toNat + l.connector = k ∧ l.base = b) ↔
      ∃ node, (wired config subnets.gen peers (allLinks peers)).nodes[k]? = some node ∧
        node.connector ∧ b ≠ k ∧ ∃ net ∈ node.networks,
          (wired config subnets.gen peers (allLinks peers)).Joins b net := by
  constructor
  · intro h
    rcases h with ⟨l, hl, rfl, rfl⟩
    obtain ⟨qs, hqs, hslot⟩ := mem_allLinks.mp hl
    have hlt := hdrawn.link_lt hl
    refine ⟨_, wired_connector hbase _ hqs, rfl, by omega, l.name, ?_, ?_⟩
    · exact List.mem_map_of_mem (mem_linksOf.mpr ⟨rfl, hslot⟩)
    · exact (joins_link_iff hbase hdrawn hl _).mpr (.inr rfl)
  · intro h
    rcases h with ⟨node, hnode, hconnector, hne, net, hnet, hjoins⟩
    obtain ⟨i, qs, rfl, hqs, rfl⟩ := connector_node hbase hnode hconnector
    obtain ⟨l, hl, rfl⟩ := List.mem_map.mp hnet
    have hmem := linksOf_subset hqs hl
    obtain rfl := (mem_linksOf.mp hl).1
    rcases (joins_link_iff hbase hdrawn hmem b).mp hjoins with rfl | rfl
    · exact absurd rfl hne
    · exact ⟨l, hmem, rfl, rfl⟩

def edgesOf (config : Config) (links : List Link) : List (ℕ × ℕ) :=
  links.map fun l => (config.nodeCount.toNat + l.connector, l.base)

/-- Two links of one connector to one base node are two draws of one number. -/
theorem edges_nodup (config : Config) (hnodup : ∀ qs ∈ peers, qs.Nodup) :
    (edgesOf config (allLinks peers)).Nodup := by
  apply List.Nodup.map_on _ (allLinks_names_nodup peers).of_map
  intro l hl l' hl' heq
  obtain ⟨hconnector, hbase⟩ := Prod.mk.inj heq
  replace hconnector : l.connector = l'.connector := by omega
  obtain ⟨qs, hqs, hslot⟩ := mem_allLinks.mp hl
  obtain ⟨qs', hqs', hslot'⟩ := mem_allLinks.mp hl'
  rw [hconnector, hqs'] at hqs
  cases hqs
  rw [hbase] at hslot
  obtain ⟨hlt, hget⟩ := List.getElem?_eq_some_iff.mp hslot
  obtain ⟨hlt', hget'⟩ := List.getElem?_eq_some_iff.mp hslot'
  have hsame : l.slot = l'.slot :=
    (hnodup _ (List.mem_of_getElem? hqs')).getElem_inj_iff.mp (hget.trans hget'.symm)
  cases l
  cases l'
  simp_all

/-- All that the configuration asks of the network but the peers holds for any draws. -/
theorem wellConnected_iff (hbase : BaseInvariant config.nodeCount.toNat subnets)
    (hdrawn : Drawn config peers) :
    WellConnected config (wired config subnets.gen peers (allLinks peers)) ↔
      ∀ qs ∈ peers, qs.Nodup := by
  constructor
  · intro h qs hmem
    obtain ⟨i, hqs⟩ := List.getElem?_of_mem hmem
    obtain ⟨ps, -, hnodup, -, hpeers⟩ := h.peers _ _ (wired_connector hbase _ hqs) rfl
    rwa [(peers_iff hbase hdrawn hqs).mp hpeers] at hnodup
  · intro hnodup
    refine ⟨fun k node => wired_named hbase hdrawn, ?_, wired_networks_nodup hbase peers,
      fun node => wired_services_nodup hbase, ?_⟩
    · intro k node hnode hconnector
      obtain ⟨i, qs, rfl, hqs, rfl⟩ := connector_node hbase hnode hconnector
      have hmem := List.mem_of_getElem? hqs
      refine ⟨qs, hdrawn.length qs hmem, hnodup qs hmem, ?_,
        (peers_iff hbase hdrawn hqs).mpr rfl⟩
      intro b hb
      have hlt := hdrawn.lt qs hmem b hb
      omega
    · refine ⟨edgesOf config (allLinks peers), edges_nodup config hnodup, ?_, ?_, ?_⟩
      · rw [edgesOf, List.map_map]
        apply congrArg String.join
        apply List.map_congr_left
        intro l hl
        obtain ⟨qs, hqs, -⟩ := mem_allLinks.mp hl
        rw [hdrawn.number (List.ne_nil_of_mem (List.mem_of_getElem? hqs))]
        rfl
      · rw [edgesOf, List.map_map, wired]
        rfl
      · intro k b
        rw [← edge_iff hbase hdrawn, edgesOf, List.mem_map]
        simp only [Prod.mk.injEq]

end

/-- The numbers a run has taken, connector by connector. -/
theorem drawn_peersOf {draws : List ℕ} (hdraws : ∀ number ∈ draws, (number : ℤ) < config.nodeCount)
    (henough : connectorCount config (makeBase config).net * config.randomNodes.toNat ≤
      draws.length) :
    Drawn config ((List.range (connectorCount config (makeBase config).net)).map
      (peersOf config draws)) := by
  refine ⟨?_, ?_, ?_⟩
  · intro hne
    apply nodeCount_pos
    by_contra hnet
    simp [connectorCount, hnet] at hne
  · intro qs hqs
    obtain ⟨i, hi, rfl⟩ := List.mem_map.mp hqs
    have hle := Nat.mul_le_mul_right config.randomNodes.toNat (List.mem_range.mp hi)
    rw [Nat.succ_mul] at hle
    rw [peersOf, List.length_take, List.length_drop]
    omega
  · intro qs hqs b hb
    obtain ⟨i, -, rfl⟩ := List.mem_map.mp hqs
    have hlt := hdraws b (List.mem_of_mem_drop (List.mem_of_mem_take hb))
    omega

/-- Nothing is left to draw from behind the last connector's numbers. -/
theorem peersOf_past {draws : List ℕ} {i : ℕ}
    (h : draws.length ≤ i * config.randomNodes.toNat) : peersOf config draws i = [] := by
  rw [peersOf, List.drop_eq_nil_of_le h, List.take_nil]

/-- A result comes of a run with enough numbers, and the numbers behind are left. -/
theorem generateCompose_eq_some {draws : List ℕ} {out : Generated}
    (hdraws : ∀ number ∈ draws, (number : ℤ) < config.nodeCount)
    (hout : generateCompose config draws = some out) :
    connectorCount config (makeBase config).net * config.randomNodes.toNat ≤ draws.length ∧
    out.gen = wired config (makeBase config).gen
      ((List.range (connectorCount config (makeBase config).net)).map (peersOf config draws))
      (allLinks
        ((List.range (connectorCount config (makeBase config).net)).map (peersOf config draws))) ∧
    out.rest = draws.drop
      (connectorCount config (makeBase config).net * config.randomNodes.toNat) := by
  rw [generateCompose_eq config draws hdraws] at hout
  split_ifs at hout with hfew
  obtain rfl := Option.some.inj hout
  exact ⟨not_lt.mp hfew, rfl, rfl⟩

theorem generated_iff {draws : List ℕ} {out : Generated}
    (hdraws : ∀ number ∈ draws, (number : ℤ) < config.nodeCount)
    (hout : generateCompose config draws = some out) :
    WellConnected config out.gen ↔
      ∀ i < connectorCount config (makeBase config).net, (peersOf config draws i).Nodup := by
  obtain ⟨henough, hgen, -⟩ := generateCompose_eq_some hdraws hout
  rw [hgen, wellConnected_iff (makeBase_invariant config) (drawn_peersOf hdraws henough),
    List.forall_mem_map]
  simp only [List.mem_range]

/-- The numbers of a whole run make the network that was asked for exactly if no connector has got
one of them twice. -/
theorem well_connected_iff_draws_distinct {draws : List ℕ} {out : Generated}
    (hdraws : ∀ number ∈ draws, (number : ℤ) < config.nodeCount)
    (hout : generateCompose config draws = some out) (hrest : out.rest = []) :
    WellConnected config out.gen ↔ ∀ i, (peersOf config draws i).Nodup := by
  obtain ⟨-, -, hleft⟩ := generateCompose_eq_some hdraws hout
  rw [hleft, List.drop_eq_nil_iff] at hrest
  rw [generated_iff hdraws hout]
  constructor
  · intro h i
    by_cases hi : i < connectorCount config (makeBase config).net
    · exact h i hi
    · have hpast := Nat.mul_le_mul_right config.randomNodes.toNat (not_lt.mp hi)
      rw [peersOf_past (hrest.trans hpast)]
      exact .nil
  · intro h i _
    exact h i

/-- Three base nodes in two subnets, and one connector to two of them. -/
def demo : Config where
  nodeCount := 3
  subnetCount := 2
  randomNodes := 2
  connectors := 1
  maxPeerCount := 35
  delay := 0

theorem demo_well_connected :
    WellConnected demo ((generateCompose demo [2, 0]).get (by decide +kernel)).gen := by
  apply (well_connected_iff_draws_distinct (by decide) (Option.some_get _).symm
    (by decide +kernel)).mpr
  intro i
  cases i with
  | zero => decide
  | succ i =>
    have hpast : 2 ≤ (i + 1) * 2 := by omega
    rw [peersOf_past hpast]
    exact .nil

/-- The second draw of the same number is taken like the first. -/
theorem repeated_draw_linked_twice :
    ((generateCompose demo [1, 1]).get (by decide +kernel)).rest = [] ∧
    ((generateCompose demo [1, 1]).get (by decide +kernel)).gen.fromText = " 3 3" ∧
    ((generateCompose demo [1, 1]).get (by decide +kernel)).gen.toText = " 1 1" ∧
    ¬WellConnected demo ((generateCompose demo [1, 1]).get (by decide +kernel)).gen := by
  refine ⟨by decide +kernel, by decide +kernel, by decide +kernel, ?_⟩
  rw [generated_iff (by decide) (Option.some_get _).symm]
  intro h
  exact absurd (h 0 (by decide +kernel)) (by decide)

end NetworkGenerator
