import UtxoWorkshop.NetworkGenerator

/-! The shell script that starts a generated network: first the connectors and the base nodes that
none of them leads to, in lines of at most 21 names, then, when the addresses of those have been
collected, the base nodes that connectors lead to. -/
namespace StartScript

open PlainText NetworkGenerator

/-- The loop over the first nodes, with the text so far and the names on its last line. -/
def addName (s : String × ℕ) (node : Node) : String × ℕ :=
  if node.otherNetworks.length = 0 then
    let (content, counter) :=
      if 20 < s.2 then (s.1 ++ "\ndocker-compose up -d --remove-orphans", 0) else s
    (content ++ (" " ++ node.name), counter + 1)
  else s

def generateBash (retrieveLocation : String) (config : Config) (gen : NetGen) : String :=
  let content := "#!/bin/bash\n" ++ "sudo rm ~/logs/* \n" ++
    "sudo chmod 666 /var/run/docker.sock\n" ++ "docker network prune -f \n"
  let content := gen.networks.foldl
    (fun content net => content ++ ("docker network create " ++ net ++ "\n")) content
  let content := content ++ "docker-compose up -d --remove-orphans"
  let content := (gen.nodes.foldl addName (content, 0)).1 ++ "\n"
  if config.subnetCount < config.nodeCount then
    let content := content ++ "sleep 10\n" ++ ("java -jar " ++ retrieveLocation ++ "\n") ++
      "docker-compose up -d --remove-orphans"
    gen.nodes.foldl (fun content node =>
      if 0 < node.otherNetworks.length then content ++ (" " ++ node.name) else content) content ++
      "\n"
  else content

/-- The lines of the script. An `up` without names starts every node. -/
inductive Command where
  | interpreter
  | removeLogs
  | openSocket
  | pruneNetworks
  | createNetwork (net : String)
  | up (names : List String)
  | sleep
  | retrieve
  deriving DecidableEq

def composeUp : String := "docker-compose up -d --remove-orphans"

def upText (names : List String) : String :=
  composeUp ++ String.join (names.map fun name => " " ++ name)

def Command.text (retrieveLocation : String) : Command → String
  | interpreter => "#!/bin/bash\n"
  | removeLogs => "sudo rm ~/logs/* \n"
  | openSocket => "sudo chmod 666 /var/run/docker.sock\n"
  | pruneNetworks => "docker network prune -f \n"
  | createNetwork net => "docker network create " ++ net ++ "\n"
  | up names => upText names ++ "\n"
  | sleep => "sleep 10\n"
  | retrieve => "java -jar " ++ retrieveLocation ++ "\n"

def scriptText (retrieveLocation : String) (script : List Command) : String :=
  String.join (script.map (Command.text retrieveLocation))

/-- The nodes that are started before the addresses are collected. -/
def firstNames (gen : NetGen) : List String :=
  (gen.nodes.filter fun node => node.otherNetworks.length = 0).map Node.name

def laterNames (gen : NetGen) : List String :=
  (gen.nodes.filter fun node => 0 < node.otherNetworks.length).map Node.name

/-- What the script starts after it has collected the addresses. -/
def later (config : Config) (gen : NetGen) : List (List String) :=
  if config.subnetCount < config.nodeCount then [laterNames gen] else []

def preparation : List Command := [.interpreter, .removeLogs, .openSocket, .pruneNetworks]

/-- What the script does once it has started the first nodes. -/
def conclusion (names : List String) : List Command := [.sleep, .retrieve, .up names]

def startScript (config : Config) (gen : NetGen) (batches : List (List String)) : List Command :=
  preparation ++ gen.networks.map Command.createNetwork ++ batches.map Command.up ++
    (later config gen).flatMap conclusion

theorem text_createNetwork (loc net : String) :
    (Command.createNetwork net).text loc = "docker network create " ++ net ++ "\n" := rfl

theorem text_up (loc : String) (names : List String) :
    (Command.up names).text loc = upText names ++ "\n" := rfl

variable {content loc : String} {names : List String} {s : String × ℕ} {full : List (List String)}
  {last : List String} {config : Config} {gen : NetGen}

/-- The lines that the loop has filled, and its last one. -/
structure Lines (content : String) (names : List String) (s : String × ℕ)
    (full : List (List String)) (last : List String) : Prop where
  text : s.1 = content ++ String.join (full.map fun names => upText names ++ "\n") ++ upText last
  counter : s.2 = last.length
  filled : ∀ batch ∈ full, batch.length = 21
  room : last.length ≤ 21
  unnamed : last = [] → names = []
  all : full.flatten ++ last = names

theorem upText_concat (names : List String) (name : String) :
    upText (names ++ [name]) = upText names ++ (" " ++ name) := by
  have hjoin := join_concat (names.map fun name => " " ++ name) (" " ++ name)
  unfold upText
  rw [List.map_append, List.map_singleton, hjoin]
  exact (String.append_assoc ..).symm

theorem Lines.addName (h : Lines content names s full last) {node : Node}
    (hnode : node.otherNetworks.length = 0) :
    ∃ full' last', Lines content (names ++ [node.name]) (addName s node) full' last' := by
  have hcounter := h.counter
  by_cases hfull : 20 < s.2
  · refine ⟨full ++ [last], [node.name], ?_⟩
    have hnew : "\ndocker-compose up -d --remove-orphans" = "\n" ++ upText [] := by decide +kernel
    simp only [StartScript.addName, if_pos hnode, if_pos hfull]
    refine ⟨?_, rfl, ?_, by simp, by simp, ?_⟩
    · have hone : upText [node.name] = upText [] ++ (" " ++ node.name) := upText_concat [] _
      simp only [h.text, hnew, hone, List.map_append, List.map_singleton, join_concat,
        String.append_assoc]
    · intro batch hbatch
      rcases List.mem_append.mp hbatch with hbatch | hbatch
      · exact h.filled batch hbatch
      · have hle := h.room
        rw [List.mem_singleton.mp hbatch]
        omega
    · rw [List.flatten_concat, h.all]
  · refine ⟨full, last ++ [node.name], ?_⟩
    simp only [StartScript.addName, if_pos hnode, if_neg hfull]
    refine ⟨?_, ?_, h.filled, ?_, by simp, ?_⟩
    · rw [h.text, upText_concat, String.append_assoc]
    · rw [hcounter, List.length_append, List.length_singleton]
    · rw [List.length_append, List.length_singleton]
      omega
    · rw [← List.append_assoc, h.all]

theorem lines_nodes (content : String) (nodes : List Node) : ∃ full last,
    Lines content ((nodes.filter fun node => node.otherNetworks.length = 0).map Node.name)
      (nodes.foldl addName (content ++ upText [], 0)) full last := by
  induction nodes using List.reverseRecOn with
  | nil =>
    refine ⟨[], [], ?_, rfl, by simp, by simp, by simp, rfl⟩
    simp
  | append_singleton nodes node ih =>
    obtain ⟨full, last, h⟩ := ih
    rw [List.foldl_append, List.foldl_cons, List.foldl_nil, List.filter_append, List.map_append]
    by_cases hnode : node.otherNetworks.length = 0
    · have hone : [node].filter (fun node => node.otherNetworks.length = 0) = [node] := by
        rw [List.filter_singleton, decide_eq_true hnode, cond_true]
      rw [hone]
      exact h.addName hnode
    · have hnone : [node].filter (fun node => node.otherNetworks.length = 0) = [] := by
        rw [List.filter_singleton, decide_eq_false hnode, cond_false]
      rw [hnone, List.map_nil, List.append_nil, StartScript.addName, if_neg hnode]
      exact ⟨full, last, h⟩

theorem scriptText_append (loc : String) (script script' : List Command) :
    scriptText loc (script ++ script') = scriptText loc script ++ scriptText loc script' := by
  rw [scriptText, List.map_append, String.join_append]
  rfl

theorem preparation_text (loc : String) : scriptText loc preparation =
    "#!/bin/bash\n" ++ "sudo rm ~/logs/* \n" ++ "sudo chmod 666 /var/run/docker.sock\n" ++
      "docker network prune -f \n" := by
  have hparts : scriptText loc preparation = String.join ["#!/bin/bash\n", "sudo rm ~/logs/* \n",
    "sudo chmod 666 /var/run/docker.sock\n", "docker network prune -f \n"] := rfl
  rw [hparts]
  simp only [String.join_cons, String.join_nil, String.append_empty, String.append_assoc]

theorem networks_text (loc : String) (networks : List String) :
    scriptText loc (networks.map Command.createNetwork) =
      String.join (networks.map fun net => "docker network create " ++ net ++ "\n") := by
  simp only [scriptText, List.map_map, Function.comp_def, text_createNetwork]

theorem batches_text (loc : String) (batches : List (List String)) :
    scriptText loc (batches.map Command.up) =
      String.join (batches.map fun names => upText names ++ "\n") := by
  simp only [scriptText, List.map_map, Function.comp_def, text_up]

theorem conclusion_text (loc : String) (names : List String) : scriptText loc (conclusion names) =
    "sleep 10\n" ++ ("java -jar " ++ loc ++ "\n") ++ upText names ++ "\n" := by
  have hparts : scriptText loc (conclusion names) =
      String.join ["sleep 10\n", "java -jar " ++ loc ++ "\n", upText names ++ "\n"] := rfl
  rw [hparts]
  simp only [String.join_cons, String.join_nil, String.append_empty, String.append_assoc]

theorem upText_nil : upText [] = "docker-compose up -d --remove-orphans" := by
  unfold upText
  rw [List.map_nil, String.join_nil, String.append_empty, composeUp]

theorem upText_later (gen : NetGen) : upText (laterNames gen) = upText [] ++ String.join
    ((gen.nodes.filter fun node => 0 < node.otherNetworks.length).map
      fun node => " " ++ node.name) := by
  simp only [laterNames, upText, List.map_map, Function.comp_def, List.map_nil, String.join_nil,
    String.append_empty]

/-- The script is the text of its lines. -/
theorem generateBash_text (loc : String) (config : Config) (gen : NetGen) : ∃ full last,
    generateBash loc config gen = scriptText loc (startScript config gen (full ++ [last])) ∧
    (∀ batch ∈ full, batch.length = 21) ∧ last.length ≤ 21 ∧
    (last = [] → firstNames gen = []) ∧ (full ++ [last]).flatten = firstNames gen := by
  obtain ⟨full, last, h⟩ := lines_nodes
    (scriptText loc (preparation ++ gen.networks.map Command.createNetwork)) gen.nodes
  have hlast : (gen.nodes.foldl addName (scriptText loc
      (preparation ++ gen.networks.map Command.createNetwork) ++ upText [], 0)).1 ++ "\n" =
        scriptText loc (preparation ++ gen.networks.map Command.createNetwork ++
          (full ++ [last]).map Command.up) := by
    rw [h.text, scriptText_append _ _ (List.map _ (full ++ [last])), batches_text,
      List.map_append, List.map_singleton, join_concat]
    simp only [String.append_assoc]
  have hfirst : generateBash loc config gen = if config.subnetCount < config.nodeCount then
      gen.nodes.foldl (fun content node =>
        if 0 < node.otherNetworks.length then content ++ (" " ++ node.name) else content)
        (scriptText loc (preparation ++ gen.networks.map Command.createNetwork ++
          (full ++ [last]).map Command.up) ++ "sleep 10\n" ++ ("java -jar " ++ loc ++ "\n") ++
          upText []) ++ "\n"
      else scriptText loc (preparation ++ gen.networks.map Command.createNetwork ++
        (full ++ [last]).map Command.up) := by
    rw [← hlast, upText_nil, scriptText_append, preparation_text, networks_text, ← foldl_text]
    rfl
  refine ⟨full, last, ?_, h.filled, h.room, h.unnamed, ?_⟩
  · rw [hfirst, startScript, later]
    by_cases hsplit : config.subnetCount < config.nodeCount
    · rw [if_pos hsplit, if_pos hsplit, List.flatMap_singleton, foldl_filter_text,
        scriptText_append _ _ (conclusion _), conclusion_text, upText_later]
      simp only [String.append_assoc]
    · rw [if_neg hsplit, if_neg hsplit, List.flatMap_nil, List.append_nil]
  · rw [List.flatten_concat, h.all]
    rfl

/-- The subnets of the nodes so far are among the networks, and a second subnet is opened only when
the nodes do not fit in one. -/
structure Subnetted (config : Config) (n : ℕ) (s : Subnets) : Prop where
  services : ∀ node ∈ s.gen.nodes, ∀ net ∈ node.networks, net ∈ s.gen.networks
  current : s.netCount ≠ 0 → netName s.net ∈ s.gen.networks
  netCount_le : s.netCount ≤ n
  split : 0 < s.net → config.subnetCount < n

theorem Subnetted.addBase {n : ℕ} {s : Subnets} (h : Subnetted config n s) (i : ℕ) :
    Subnetted config (n + 1) (addBase config s i) := by
  have hle := h.netCount_le
  have hnet : netName (NetworkGenerator.addBase config s i).net ∈
      (NetworkGenerator.addBase config s i).gen.networks := by
    by_cases hfull : config.subnetCount ≤ s.netCount
    · simp [NetworkGenerator.addBase, hfull]
    · by_cases hzero : s.netCount = 0
      · simp only [NetworkGenerator.addBase, if_neg hfull, if_pos hzero]
        exact List.mem_append_right _ List.mem_cons_self
      · simpa [NetworkGenerator.addBase, hfull, hzero] using h.current hzero
  have hgrows : ∀ net ∈ s.gen.networks, net ∈ (NetworkGenerator.addBase config s i).gen.networks := by
    intro net hmem
    rcases addBase_networks config s i with hsame | ⟨hopened, -⟩
    · rwa [hsame]
    · rw [hopened]
      exact List.mem_append_left _ hmem
  refine ⟨?_, fun _ => hnet, ?_, ?_⟩
  · intro node hnode net hmem
    rcases List.mem_append.mp hnode with hnode | hnode
    · exact hgrows net (h.services node hnode net hmem)
    · rw [List.mem_singleton.mp hnode] at hmem
      rw [List.mem_singleton.mp hmem]
      exact hnet
  · by_cases hfull : config.subnetCount ≤ s.netCount
    · simp [NetworkGenerator.addBase, hfull]
    · simp only [NetworkGenerator.addBase, if_neg hfull]
      omega
  · by_cases hfull : config.subnetCount ≤ s.netCount
    · omega
    · simp only [NetworkGenerator.addBase, if_neg hfull]
      intro hpos
      have hsplit := h.split hpos
      omega

theorem makeBase_subnetted (config : Config) :
    Subnetted config config.nodeCount.toNat (makeBase config) := by
  rw [makeBase]
  induction config.nodeCount.toNat with
  | zero => exact ⟨by simp, by simp, by simp, by simp⟩
  | succ n ih =>
    rw [List.range_succ, List.foldl_append]
    exact ih.addBase n

/-- Each node is started once, and a base node that a connector leads to after the connector, with
the addresses in between. A line without names would start every node, and has none to start. -/
structure Staged (config : Config) (gen : NetGen) (batches : List (List String)) : Prop where
  filled : ∀ batch ∈ batches.dropLast, batch.length = 21
  room : ∀ batch ∈ batches, batch.length ≤ 21
  once : (batches ++ later config gen).flatten.Perm (gen.nodes.map Node.name) ∧
    (gen.nodes.map Node.name).Nodup
  created : ∀ node ∈ gen.nodes, ∀ net ∈ node.services, net ∈ gen.networks
  unnamed : ∀ before after, batches ++ later config gen = before ++ [] :: after →
    before.flatten.Perm (gen.nodes.map Node.name)
  linked : ∀ (k b : ℕ) node net, gen.nodes[k]? = some node → node.connector → b ≠ k →
    net ∈ node.networks → gen.Joins b net →
      "Node" ++ toString k ∈ batches.flatten ∧ "Node" ++ toString b ∈ (later config gen).flatten

section

variable {subnets : Subnets} {peers : List (List ℕ)}

theorem wired_names_nodup (hbase : BaseInvariant config.nodeCount.toNat subnets)
    (hdrawn : Drawn config peers) (links : List Link) :
    ((wired config subnets.gen peers links).nodes.map Node.name).Nodup := by
  apply List.pairwise_iff_getElem.mpr
  intro k k' hk hk' hlt hname
  rw [List.length_map] at hk hk'
  simp only [List.getElem_map] at hname
  rw [wired_named hbase hdrawn (List.getElem?_eq_getElem hk),
    wired_named hbase hdrawn (List.getElem?_eq_getElem hk')] at hname
  exact hlt.ne (PlainText.numbered_injective "Node" hname)

theorem wired_created (hsub : Subnetted config config.nodeCount.toNat subnets) {links : List Link}
    (hlinks : links = allLinks peers) {node : Node}
    (hnode : node ∈ (wired config subnets.gen peers links).nodes) {net : String}
    (hnet : net ∈ node.services) : net ∈ (wired config subnets.gen peers links).networks := by
  rw [wired] at hnode ⊢
  rcases List.mem_append.mp hnode with hnode | hnode
  · obtain ⟨b, hb, rfl⟩ := List.mem_mapIdx.mp hnode
    rcases List.mem_append.mp hnet with hnet | hnet
    · exact List.mem_append_left _ (hsub.services _ (List.getElem_mem hb) net hnet)
    · obtain ⟨l, hl, rfl⟩ := List.mem_map.mp hnet
      exact List.mem_append_right _ (List.mem_map_of_mem (List.mem_of_mem_filter hl))
  · obtain ⟨i, hi, rfl⟩ := List.mem_mapIdx.mp hnode
    obtain ⟨l, hl, rfl⟩ := mem_connector_services.mp hnet
    rw [hlinks]
    exact List.mem_append_right _
      (List.mem_map_of_mem (linksOf_subset (List.getElem?_eq_getElem hi) hl))

theorem mem_firstNames {k : ℕ} {node : Node} (hnode : gen.nodes[k]? = some node)
    (hother : node.otherNetworks = []) : node.name ∈ firstNames gen := by
  apply List.mem_map_of_mem
  exact List.mem_filter.mpr ⟨List.mem_of_getElem? hnode, by simp [hother]⟩

theorem mem_laterNames {k : ℕ} {node : Node} (hnode : gen.nodes[k]? = some node) {net : String}
    (hnet : net ∈ node.otherNetworks) : node.name ∈ laterNames gen := by
  apply List.mem_map_of_mem
  exact List.mem_filter.mpr
    ⟨List.mem_of_getElem? hnode, decide_eq_true (List.length_pos_of_mem hnet)⟩

/-- Without connectors no base node has another network. -/
theorem alone_otherNetworks (hbase : BaseInvariant config.nodeCount.toNat subnets) {node : Node}
    (hnode : node ∈ (wired config subnets.gen [] (allLinks [])).nodes) :
    node.otherNetworks = [] := by
  obtain ⟨k, hk⟩ := List.getElem?_of_mem hnode
  rcases wired_node hbase hk with ⟨-, bare, -, rfl⟩ | ⟨i, qs, -, hqs, -⟩
  · rfl
  · cases hqs

theorem wired_first_ne_nil (hbase : BaseInvariant config.nodeCount.toNat subnets)
    (h : firstNames (wired config subnets.gen peers (allLinks peers)) = []) :
    (wired config subnets.gen peers (allLinks peers)).nodes = [] := by
  cases peers with
  | nil =>
    apply List.eq_nil_iff_forall_not_mem.mpr
    intro node hnode
    obtain ⟨k, hk⟩ := List.getElem?_of_mem hnode
    have hmem := mem_firstNames hk (alone_otherNetworks hbase hnode)
    rw [h] at hmem
    cases hmem
  | cons qs peers =>
    have hqs : (qs :: peers)[0]? = some qs := rfl
    have hmem := mem_firstNames (wired_connector hbase (allLinks (qs :: peers)) hqs) rfl
    rw [h] at hmem
    cases hmem

theorem wired_linked (hbase : BaseInvariant config.nodeCount.toNat subnets)
    (hdrawn : Drawn config peers) {k b : ℕ} {node : Node} {net : String}
    (hnode : (wired config subnets.gen peers (allLinks peers)).nodes[k]? = some node)
    (hconnector : node.connector) (hne : b ≠ k) (hnet : net ∈ node.networks)
    (hjoins : (wired config subnets.gen peers (allLinks peers)).Joins b net) :
    "Node" ++ toString k ∈ firstNames (wired config subnets.gen peers (allLinks peers)) ∧
      "Node" ++ toString b ∈ laterNames (wired config subnets.gen peers (allLinks peers)) := by
  obtain ⟨l, hl, rfl, rfl⟩ := (edge_iff hbase hdrawn k b).mpr
    ⟨node, hnode, hconnector, hne, net, hnet, hjoins⟩
  constructor
  · obtain ⟨i, qs, -, -, rfl⟩ := connector_node hbase hnode hconnector
    rw [← wired_named hbase hdrawn hnode]
    exact mem_firstNames hnode rfl
  · obtain ⟨base, hbaseNode, hother⟩ := wired_base hbase (allLinks peers) (hdrawn.link_lt hl)
    rw [← wired_named hbase hdrawn hbaseNode]
    have hmem : l.name ∈ base.otherNetworks := by
      rw [hother]
      exact List.mem_map_of_mem (List.mem_filter.mpr ⟨hl, by simp⟩)
    exact mem_laterNames hbaseNode hmem

end

theorem names_perm (gen : NetGen) :
    (firstNames gen ++ laterNames gen).Perm (gen.nodes.map Node.name) := by
  have hsplit := List.filter_append_perm (fun node : Node => decide (node.otherNetworks.length = 0))
    gen.nodes
  have hnot : (fun node : Node => !decide (node.otherNetworks.length = 0)) =
      fun node => decide (0 < node.otherNetworks.length) := by
    funext node
    rw [← decide_not]
    exact decide_eq_decide.mpr Nat.pos_iff_ne_zero.symm
  rw [hnot] at hsplit
  rw [firstNames, laterNames, ← List.map_append]
  exact hsplit.map _

/-- Whoever has to wait for the addresses is started behind them: in one subnet there is none. -/
theorem later_flatten {peers : List (List ℕ)} (hpeers : (makeBase config).net = 0 → peers = []) :
    (later config (wired config (makeBase config).gen peers (allLinks peers))).flatten =
      laterNames (wired config (makeBase config).gen peers (allLinks peers)) := by
  rw [later]
  by_cases hsplit : config.subnetCount < config.nodeCount
  · rw [if_pos hsplit, List.flatten_singleton]
  · rw [if_neg hsplit, List.flatten_nil]
    have hnet : (makeBase config).net = 0 := by
      by_contra hne
      have hlt := (makeBase_subnetted config).split (Nat.pos_of_ne_zero hne)
      have hpos := nodeCount_pos (Nat.pos_of_ne_zero hne)
      omega
    rw [hpeers hnet, laterNames, eq_comm, List.map_eq_nil_iff, List.filter_eq_nil_iff]
    intro node hnode
    rw [alone_otherNetworks (makeBase_invariant config) hnode]
    simp

/-- A line without names is the last one. -/
theorem later_unnamed {batches before after : List (List String)} (hmem : [] ∉ batches)
    (h : batches ++ later config gen = before ++ [] :: after) :
    before = batches ∧ laterNames gen = [] := by
  rw [later] at h
  split_ifs at h with hsplit
  · obtain ⟨hbefore, hnone, -⟩ := (List.append_cons_inj_of_notMem hmem List.not_mem_nil).mp h
    exact ⟨hbefore.symm, hnone⟩
  · rw [List.append_nil] at h
    exact absurd (h ▸ List.mem_append_right _ List.mem_cons_self) hmem

/-- For any numbers drawn, the script that is written starts the network in two stages. -/
theorem start_script_staged (retrieveLocation : String) {draws : List ℕ} {out : Generated}
    (hdraws : ∀ number ∈ draws, (number : ℤ) < config.nodeCount)
    (hout : generateCompose config draws = some out) : ∃ batches,
      generateBash retrieveLocation config out.gen =
        scriptText retrieveLocation (startScript config out.gen batches) ∧
      Staged config out.gen batches := by
  obtain ⟨henough, hgen, -⟩ := generateCompose_eq_some hdraws hout
  have hbase := makeBase_invariant config
  have hdrawn := drawn_peersOf hdraws henough
  have hlater := @later_flatten config
    ((List.range (connectorCount config (makeBase config).net)).map (peersOf config draws))
    (fun hnet => by simp [hnet, connectorCount])
  have hperm := names_perm out.gen
  rw [← hgen] at hlater
  obtain ⟨full, last, htext, hfilled, hroom, hunnamed, hfirst⟩ :=
    generateBash_text retrieveLocation config out.gen
  have honce : ((full ++ [last]) ++ later config out.gen).flatten.Perm
      (out.gen.nodes.map Node.name) := by
    rw [List.flatten_append, hfirst, hlater]
    exact hperm
  refine ⟨full ++ [last], htext, ?_, ?_, ⟨honce, ?_⟩, ?_, ?_, ?_⟩
  · rwa [List.dropLast_concat]
  · intro batch hbatch
    rcases List.mem_append.mp hbatch with hbatch | hbatch
    · exact (hfilled batch hbatch).le
    · rwa [List.mem_singleton.mp hbatch]
  · rw [hgen]
    exact wired_names_nodup hbase hdrawn _
  · intro node hnode net hnet
    rw [hgen] at hnode ⊢
    exact wired_created (makeBase_subnetted config) rfl hnode hnet
  · intro before after hsplit
    by_cases hmem : [] ∈ full ++ [last]
    · have hlast : last = [] := by
        rcases List.mem_append.mp hmem with hmem | hmem
        · exact absurd (hfilled [] hmem) (by decide)
        · exact (List.mem_singleton.mp hmem).symm
      have hnodes : out.gen.nodes = [] := by
        have hnone := hunnamed hlast
        rw [hgen] at hnone ⊢
        exact wired_first_ne_nil hbase hnone
      rw [hsplit, hnodes, List.map_nil, List.perm_nil, List.flatten_append,
        List.append_eq_nil_iff] at honce
      rw [hnodes, honce.1]
      exact .nil
    · obtain ⟨rfl, hnone⟩ := later_unnamed hmem hsplit
      rw [hfirst]
      rw [hnone, List.append_nil] at hperm
      exact hperm
  · intro k b node net hnode hconnector hne hnet hjoins
    rw [hfirst, hlater]
    rw [hgen] at hnode hjoins ⊢
    exact wired_linked hbase hdrawn hnode hconnector hne hnet hjoins

theorem demo_generates : (generateCompose demo [2, 0]).isSome := by decide +kernel

theorem demo_script_staged : ∃ batches,
    generateBash "App.jar" demo ((generateCompose demo [2, 0]).get demo_generates).gen =
      scriptText "App.jar"
        (startScript demo ((generateCompose demo [2, 0]).get demo_generates).gen batches) ∧
    Staged demo ((generateCompose demo [2, 0]).get demo_generates).gen batches :=
  start_script_staged "App.jar" (by decide) (Option.some_get _).symm

end StartScript
