import UtxoWorkshop.NetworkActions
import UtxoWorkshop.PlainText
import UtxoWorkshop.ResourceRegistry

/-! What holds of the registry of networks after any actions. -/
namespace NetworkRegistry

open EventWorker (Outcome)
open NetworkActions ResourceRegistry

variable {D W α : Type}

/-- What docker documents of its networks: `inspect` succeeds on those that exist, and a command
that fails changes nothing. -/
structure Lawful (docker : Docker D) (existing : D → Finset String) : Prop where
  inspect : ∀ name d, docker.networkInspect name d = 0 ↔ name ∈ existing d
  create : ∀ isInternal name d, existing (docker.networkCreate isInternal name d).2 =
    if (docker.networkCreate isInternal name d).1 = 0 then insert name (existing d) else existing d
  rm : ∀ name d, existing (docker.networkRm name d).2 =
    if (docker.networkRm name d).1 = 0 then (existing d).erase name else existing d
  connect : ∀ name container d, existing (docker.networkConnect name container d).2 = existing d
  disconnect : ∀ name container d,
    existing (docker.networkDisconnect name container d).2 = existing d
  tcQdisc : ∀ container arguments d, existing (docker.tcQdisc container arguments d).2 = existing d
  compose : ∀ verb container d, existing (docker.compose verb container d).2 = existing d

/-- A docker that keeps its networks and what is attached to them. A container that is stopped is
attached to nothing. -/
structure Bridges where
  names : List String
  endpoints : List (String × String)
  deriving DecidableEq

theorem bridges_free (names : List String) :
    ∃ i ≤ names.length, networkPrefix ++ toString i ∉ names := by
  by_contra hall
  push Not at hall
  have hsub : (Finset.range (names.length + 1)).image (fun i : ℕ => networkPrefix ++ toString i) ⊆
      names.toFinset := by
    intro name hname
    obtain ⟨i, hi, rfl⟩ := Finset.mem_image.mp hname
    exact List.mem_toFinset.mpr (hall i (Nat.lt_succ_iff.mp (Finset.mem_range.mp hi)))
  have hcard := (Finset.card_le_card hsub).trans names.toFinset_card_le
  rw [Finset.card_image_of_injective _ (PlainText.numbered_injective networkPrefix),
    Finset.card_range] at hcard
  omega

def bridges : Docker Bridges where
  networkInspect name d := if name ∈ d.names then 0 else 1
  networkCreate _ name d :=
    if name ∈ d.names then (1, d) else (0, { d with names := name :: d.names })
  networkRm name d :=
    if name ∈ d.names ∧ name ∉ d.endpoints.map Prod.fst then
      (0, { d with names := d.names.filter (· ≠ name) })
    else (1, d)
  networkConnect name container d :=
    if name ∈ d.names ∧ (name, container) ∉ d.endpoints then
      (0, { d with endpoints := (name, container) :: d.endpoints })
    else (1, d)
  networkDisconnect name container d :=
    if (name, container) ∈ d.endpoints then
      (0, { d with endpoints := d.endpoints.filter (· ≠ (name, container)) })
    else (1, d)
  getNetworkInterfaces container d :=
    "lo" :: (d.endpoints.filter (·.2 = container)).map fun endpoint => "eth-" ++ endpoint.1
  tcQdisc _ _ d := (0, d)
  compose verb container d :=
    let stopped := "networksimulator_" ++ container ++ "_1"
    if verb = "stop" then (0, { d with endpoints := d.endpoints.filter (·.2 ≠ stopped) })
    else (0, d)
  currentMilliTime _ := 0
  networkCount d := d.names.length
  free d := by
    obtain ⟨i, hi, hnot⟩ := bridges_free d.names
    refine ⟨i, hi, ?_⟩
    rw [if_neg hnot]
    decide

theorem bridges_lawful : Lawful bridges fun d => d.names.toFinset := by
  constructor
  · intro name d
    by_cases h : name ∈ d.names <;> simp [bridges, h]
  · intro isInternal name d
    by_cases h : name ∈ d.names <;> simp [bridges, h]
  · intro name d
    by_cases h : name ∈ d.names ∧ name ∉ d.endpoints.map Prod.fst
    · simp only [bridges, if_pos h, if_true]
      apply Finset.ext
      intro name'
      simp [and_comm]
    · simp only [bridges, if_neg h]
      simp
  · intro name container d
    simp only [bridges]
    split_ifs <;> rfl
  · intro name container d
    simp only [bridges]
    split_ifs <;> rfl
  · intro container arguments d
    rfl
  · intro verb container d
    simp only [bridges]
    split_ifs <;> rfl

/-- Two containers that are started without a network. -/
def exampleStart : World Bridges where
  networks := ∅
  currentTimers := ∅
  docker := ⟨["bridge", "host", "none"],
    [("none", "networksimulator_node1_1"), ("none", "networksimulator_node2_1")]⟩

/-- The first two events of `example-network.yaml`. -/
def exampleWorld : World Bridges :=
  (executeAction bridges "networksimulator"
    (.delay { network := some ["node1", "node2"], time := some (some "100ms") })
    (executeAction bridges "networksimulator"
      (.join { container := some ["node1", "node2"], isInternal := some true }) exampleStart).2).2

def registered (w : World D) (key : String) : Option String :=
  (w.networks.lookup key).map Network.networkName

theorem forEach_preserves {f : α → W → ℤ × W} {P : W → Prop} (hf : ∀ a w, P w → P (f a w).2)
    (l : List α) (exitCode : ℤ) {w : W} (h : P w) : P (forEach f l exitCode w).2 := by
  induction l generalizing exitCode w with
  | nil => exact h
  | cons a l ih => exact ih _ (hf a w h)

theorem le_forEach (f : α → W → ℤ × W) (l : List α) (exitCode : ℤ) (w : W) :
    exitCode ≤ (forEach f l exitCode w).1 := by
  induction l generalizing exitCode w with
  | nil => exact le_rfl
  | cons a l ih => exact (le_max_left _ _).trans (ih _ _)

theorem lookup_modify (w : World D) (mapKey : String) (f : Network → Network) (key : String) :
    (w.modify mapKey f).networks.lookup key =
      if key = mapKey then (w.networks.lookup mapKey).map f else w.networks.lookup key := by
  unfold World.modify
  by_cases hkey : key = mapKey
  · subst hkey
    cases h : w.networks.lookup key with
    | none => simp [h]
    | some network => simp
  · cases h : w.networks.lookup mapKey with
    | none => simp [hkey]
    | some network => simp [hkey]

@[simp] theorem modify_docker (w : World D) (mapKey : String) (f : Network → Network) :
    (w.modify mapKey f).docker = w.docker := by
  unfold World.modify
  split <;> rfl

theorem modify_registered (w : World D) (mapKey : String) {f : Network → Network}
    (hf : ∀ network, (f network).networkName = network.networkName) :
    registered (w.modify mapKey f) = registered w := by
  funext key
  simp only [registered, lookup_modify]
  by_cases hkey : key = mapKey
  · subst hkey
    cases w.networks.lookup key <;> simp [hf]
  · simp [hkey]

section tracking

variable {docker : Docker D} {project : String} {existing : D → Finset String}
  {base : Finset String} {w w₀ : World D}

/-- Two worlds with the same networks, here and in docker. -/
def Same (existing : D → Finset String) (w w' : World D) : Prop :=
  registered w' = registered w ∧ existing w'.docker = existing w.docker

theorem Same.trans {w₁ w₂ w₃ : World D} (h : Same existing w₁ w₂) (h' : Same existing w₂ w₃) :
    Same existing w₁ w₃ :=
  ⟨h'.1.trans h.1, h'.2.trans h.2⟩

theorem forEach_same {f : α → World D → ℤ × World D} (hf : ∀ a w, Same existing w (f a w).2)
    (l : List α) (exitCode : ℤ) (w : World D) : Same existing w (forEach f l exitCode w).2 :=
  forEach_preserves (P := Same existing w) (fun a w' h => h.trans (hf a w')) l exitCode ⟨rfl, rfl⟩

def Tracked (existing : D → Finset String) (base : Finset String) (w : World D) : Prop :=
  Tracks base (existing w.docker) (registered w)

theorem Same.tracked {w' : World D} (h : Same existing w w') (ht : Tracked existing base w) :
    Tracked existing base w' := by
  rw [Tracked, h.1, h.2]
  exact ht

theorem connectContainer_same (hlaw : Lawful docker existing) (mapKey networkName container : String)
    (w : World D) :
    Same existing w (connectContainer docker mapKey networkName container w).2 := by
  have hlive : existing (docker.networkConnect networkName container
      (docker.networkDisconnect "none" container w.docker).2).2 = existing w.docker := by
    rw [hlaw.connect, hlaw.disconnect]
  simp only [connectContainer]
  split
  · split_ifs
    · exact ⟨modify_registered _ _ fun _ => rfl, by simpa using hlive⟩
    · exact ⟨rfl, hlive⟩
  · exact ⟨rfl, hlive⟩

theorem disconnectContainer_same (hlaw : Lawful docker existing)
    (mapKey networkName container : String) (w : World D) :
    Same existing w (disconnectContainer docker mapKey networkName container w).2 := by
  have hlive := hlaw.disconnect networkName container w.docker
  simp only [disconnectContainer]
  split_ifs
  · exact ⟨modify_registered _ _ fun _ => rfl, by simpa using hlive⟩
  · exact ⟨rfl, hlive⟩

/-- A created network is not one that exists. -/
theorem createNetwork_fresh (hlaw : Lawful docker existing) (isInternal : Bool) (w : World D) :
    match createNetwork docker isInternal w with
    | (none, w') => Same existing w w'
    | (some networkName, w') => networkName ∉ existing w.docker ∧
        w'.networks = w.networks ∧ existing w'.docker = insert networkName (existing w.docker) := by
  obtain ⟨j, hj, hunused⟩ := docker.free w.docker
  have hfuel : j ≤ 0 + docker.networkCount w.docker := by omega
  have hfree := unusedNumber_unused hunused (Nat.zero_le j) hfuel
  rw [Ne, hlaw.inspect] at hfree
  generalize hname : networkPrefix ++
    toString (unusedNumber docker w.docker (docker.networkCount w.docker) 0) = name at hfree
  have hcreate := hlaw.create isInternal name w.docker
  simp only [createNetwork, hname]
  by_cases hok : (docker.networkCreate isInternal name w.docker).1 = 0
  · rw [if_pos hok] at hcreate
    simp only [if_pos hok]
    exact ⟨hfree, trivial, hcreate⟩
  · rw [if_neg hok] at hcreate
    simp only [if_neg hok]
    exact ⟨rfl, hcreate⟩

theorem connect_tracked (hlaw : Lawful docker existing) (containerList : List String)
    (isInternal : Bool) (ht : Tracked existing base w) :
    Tracked existing base (connect docker project containerList isInternal w).2 := by
  unfold connect
  by_cases hkey : getMapKey (convertToContainerNames project containerList) ∈ w.networks
  · simpa only [if_pos hkey] using ht
  · have hfresh := createNetwork_fresh hlaw isInternal w
    simp only [if_neg hkey]
    split
    · rename_i w' hcreated
      rw [hcreated] at hfresh
      exact hfresh.tracked ht
    · rename_i networkName w' hcreated
      rw [hcreated] at hfresh
      obtain ⟨hnew, hnetworks, hlive⟩ := hfresh
      refine (forEach_same (fun _ _ => connectContainer_same hlaw _ _ _ _) _ _ _).tracked ?_
      have hnone : registered w (getMapKey (convertToContainerNames project containerList)) =
          none := by
        simp [registered, AList.lookup_eq_none.mpr hkey]
      have hacquired := Tracks.acquire ht hnone hnew
      rw [Tracked, hlive]
      convert hacquired using 1
      funext key
      by_cases hk : key = getMapKey (convertToContainerNames project containerList)
      · subst hk
        simp [registered]
      · simp [registered, hk, hnetworks]

theorem deleteNetwork_existing (hlaw : Lawful docker existing) (networkName : String)
    (w : World D) : existing (deleteNetwork docker networkName w).2.docker =
      if (deleteNetwork docker networkName w).1 = 0 then (existing w.docker).erase networkName
      else existing w.docker :=
  hlaw.rm networkName w.docker

theorem disconnect_tracked (hlaw : Lawful docker existing) (containerList : List String)
    (ht : Tracked existing base w) :
    Tracked existing base (disconnect docker project containerList w).2 := by
  simp only [disconnect]
  cases hl : w.networks.lookup (getMapKey (convertToContainerNames project containerList)) with
  | none => exact ht
  | some network =>
    dsimp only
    have hsame := forEach_same
      (fun container w => disconnectContainer_same hlaw
        (getMapKey (convertToContainerNames project containerList)) network.networkName container w)
      (convertToContainerNames project containerList) (-1) w
    generalize hleft : forEach (disconnectContainer docker
      (getMapKey (convertToContainerNames project containerList)) network.networkName)
      (convertToContainerNames project containerList) (-1) w = left at hsame ⊢
    have htl := hsame.tracked ht
    have hheld : registered left.2
        (getMapKey (convertToContainerNames project containerList)) =
          some network.networkName := by
      rw [hsame.1]
      simp [registered, hl]
    have hlive := deleteNetwork_existing hlaw network.networkName left.2
    by_cases hok : left.1 = 0
    · by_cases hrm : (deleteNetwork docker network.networkName left.2).1 = 0
      · rw [if_pos hrm] at hlive
        have hreleased := Tracks.release htl hheld
        simp only [hok, hrm, ne_eq, not_true_eq_false, if_false]
        rw [Tracked, hlive]
        convert hreleased using 1
        funext key
        by_cases hk : key = getMapKey (convertToContainerNames project containerList)
        · subst hk
          simp [registered]
        · simp [registered, hk, deleteNetwork]
      · rw [if_neg hrm] at hlive
        simp only [hok, hrm, ne_eq, not_true_eq_false, not_false_eq_true, if_false, if_true]
        rw [Tracked, hlive]
        exact htl
    · simpa only [hok, ne_eq, not_false_eq_true, if_true] using htl

theorem join_tracked (hlaw : Lawful docker existing) (actionObject : JoinObject)
    (ht : Tracked existing base w) :
    Tracked existing base (join docker project actionObject w).2 := by
  cases hc : actionObject.container with
  | none => simpa [join, hc] using ht
  | some containerList =>
    simp only [join, hc]
    generalize hjoined : (if actionObject.mode.getD "cluster" = "cluster" then _ else _) = joined
    have hj : Tracked existing base joined.2 := by
      subst hjoined
      split_ifs
      · exact connect_tracked hlaw _ _ ht
      · exact forEach_preserves (fun _ _ h => connect_tracked hlaw _ _ h) _ _ ht
      · exact ht
    split_ifs
    · split
      · exact connect_tracked hlaw _ _ hj
      · exact hj
    · exact hj

theorem netemContainers_same (hlaw : Lawful docker existing) (networkKey command : String)
    (arguments containers : List String) (exitCode : ℤ) (w : World D) : Same existing w
      (netemContainers docker networkKey command arguments containers exitCode w).2 := by
  induction containers generalizing exitCode w with
  | nil => exact ⟨rfl, rfl⟩
  | cons container rest ih =>
    rw [netemContainers]
    split
    · exact ⟨rfl, rfl⟩
    · rename_i localExitCode d hbind
      have hlive : existing d = existing w.docker := by
        obtain ⟨network, _, hcommand⟩ := Option.bind_eq_some_iff.mp hbind
        unfold executeNetemCommand at hcommand
        split at hcommand
        · have hd := congrArg Prod.snd (Option.some.inj hcommand)
          dsimp only at hd
          rw [← hd]
          exact hlaw.tcQdisc _ _ _
        · cases hcommand
      refine Same.trans ?_ (ih _ _)
      split_ifs
      · exact ⟨modify_registered _ _ fun _ => rfl, by simpa using hlive⟩
      · exact ⟨rfl, hlive⟩

theorem netem_same (hlaw : Lawful docker existing) (networkList : Option (List String))
    (command : String) (arguments : List String) (w : World D) : Same existing w
      (executeNetemCommandsForNetwork docker project networkList command arguments w).2 := by
  unfold executeNetemCommandsForNetwork
  split
  · exact ⟨rfl, rfl⟩
  · dsimp only
    split
    · exact ⟨rfl, rfl⟩
    · exact netemContainers_same hlaw _ _ _ _ _ _

theorem delay_same (hlaw : Lawful docker existing) (actionObject : NetemObject) (w : World D) :
    Same existing w (delay docker project actionObject w).2 := by
  unfold delay
  split
  · exact ⟨rfl, rfl⟩
  · exact ⟨rfl, rfl⟩
  · exact netem_same hlaw _ _ _ _

theorem percentCommand_same (hlaw : Lawful docker existing) (command : String)
    (actionObject : NetemObject) (w : World D) :
    Same existing w (percentCommand docker project command actionObject w).2 := by
  unfold percentCommand
  split
  · exact ⟨rfl, rfl⟩
  · exact netem_same hlaw _ _ _ _

theorem composeContainers_same (hlaw : Lawful docker existing) (verb : String)
    (actionObject : List String) (w : World D) :
    Same existing w (composeContainers docker verb actionObject w).2 :=
  forEach_same (fun container w => ⟨rfl, hlaw.compose verb container w.docker⟩) _ _ _

theorem timers_same {f : String → World D → ℤ × World D} (hf : ∀ identifier w,
    (f identifier w).2.networks = w.networks ∧ (f identifier w).2.docker = w.docker)
    (identifiers : List String) (exitCode : ℤ) (w : World D) :
    Same existing w (forEach f identifiers exitCode w).2 := by
  apply forEach_same
  intro identifier w
  obtain ⟨hnetworks, hdocker⟩ := hf identifier w
  exact ⟨by unfold registered; rw [hnetworks], by rw [hdocker]⟩

theorem executeAction_tracked (hlaw : Lawful docker existing) (action : Action)
    (ht : Tracked existing base w) :
    Tracked existing base (executeAction docker project action w).2 := by
  cases action with
  | join actionObject => exact join_tracked hlaw actionObject ht
  | cut container =>
    cases container with
    | none => exact ht
    | some containerList => exact disconnect_tracked hlaw containerList ht
  | startContainer containers => exact (composeContainers_same hlaw _ containers w).tracked ht
  | stopContainer containers => exact (composeContainers_same hlaw _ containers w).tracked ht
  | restartContainer containers => exact (composeContainers_same hlaw _ containers w).tracked ht
  | startTimer identifiers => exact ht
  | stopTimer identifiers =>
    exact (timers_same (fun _ _ => ⟨rfl, rfl⟩) identifiers (-1) w).tracked ht
  | printTimer identifiers =>
    exact (timers_same (fun _ _ => ⟨rfl, rfl⟩) identifiers (-1) w).tracked ht
  | delay actionObject => exact (delay_same hlaw actionObject w).tracked ht
  | duplicate actionObject => exact (percentCommand_same hlaw _ actionObject w).tracked ht
  | corrupt actionObject => exact (percentCommand_same hlaw _ actionObject w).tracked ht
  | loss actionObject => exact (percentCommand_same hlaw _ actionObject w).tracked ht
  | other action => exact ht

theorem reachable_tracked (hlaw : Lawful docker existing) (hw : w₀.networks = ∅)
    (hr : Reachable docker project w₀ w) : Tracked existing (existing w₀.docker) w := by
  induction hr with
  | start => exact tracks_start _ (by simp [registered, hw])
  | act action _ ih => exact executeAction_tracked hlaw action ih

theorem deleteNetworks_existing (hlaw : Lawful docker existing) (names : List String)
    (exitCode : ℤ) (w : World D) :
    (∀ name ∈ existing (forEach (deleteNetwork docker) names exitCode w).2.docker,
      name ∈ existing w.docker) ∧
    ∀ name ∈ existing w.docker, name ∉ names →
      name ∈ existing (forEach (deleteNetwork docker) names exitCode w).2.docker := by
  induction names generalizing exitCode w with
  | nil => exact ⟨fun _ h => h, fun _ h _ => h⟩
  | cons networkName names ih =>
    obtain ⟨hsub, hkeep⟩ := ih (max exitCode (deleteNetwork docker networkName w).1)
      (deleteNetwork docker networkName w).2
    have hlive := deleteNetwork_existing hlaw networkName w
    constructor
    · intro name hname
      have hmem := hsub name hname
      rw [hlive] at hmem
      split_ifs at hmem
      · exact Finset.mem_of_mem_erase hmem
      · exact hmem
    · intro name hname hnot
      rw [List.mem_cons, not_or] at hnot
      obtain ⟨hne, hrest⟩ := hnot
      apply hkeep name _ hrest
      rw [hlive]
      split_ifs
      · exact Finset.mem_erase.mpr ⟨hne, hname⟩
      · exact hname

/-- An exit code of at most 0 says that every removal went through. -/
theorem deleteNetworks_gone (hlaw : Lawful docker existing)
    (hexit : ∀ name d, 0 ≤ (docker.networkRm name d).1) (names : List String) (exitCode : ℤ)
    (w : World D) (hcode : (forEach (deleteNetwork docker) names exitCode w).1 ≤ 0) :
    ∀ name ∈ names, name ∉ existing (forEach (deleteNetwork docker) names exitCode w).2.docker := by
  induction names generalizing exitCode w with
  | nil => simp
  | cons networkName names ih =>
    have hle := le_forEach (deleteNetwork docker) names
      (max exitCode (deleteNetwork docker networkName w).1) (deleteNetwork docker networkName w).2
    have hzero : (deleteNetwork docker networkName w).1 = 0 := by
      have hnonneg := hexit networkName w.docker
      have hmax := le_max_right exitCode (deleteNetwork docker networkName w).1
      simp only [forEach] at hcode
      exact le_antisymm (hmax.trans (hle.trans hcode)) hnonneg
    have hlive := deleteNetwork_existing hlaw networkName w
    rw [if_pos hzero] at hlive
    intro name hname
    rcases List.mem_cons.mp hname with rfl | hname
    · intro hmem
      have hbefore := (deleteNetworks_existing hlaw names _ _).1 name hmem
      simp [hlive] at hbefore
    · exact ih _ _ hcode name hname

theorem registered_iff {networkName : String} : (∃ key, registered w key = some networkName) ↔
    networkName ∈ w.networks.entries.map fun entry => entry.2.networkName := by
  simp only [registered, Option.map_eq_some_iff, List.mem_map]
  constructor
  · rintro ⟨key, network, hlookup, rfl⟩
    exact ⟨⟨key, network⟩, AList.mem_lookup_iff.mp hlookup, rfl⟩
  · rintro ⟨⟨key, network⟩, hmem, rfl⟩
    exact ⟨key, network, AList.mem_lookup_iff.mpr hmem, rfl⟩

/-- After any actions the networks that docker has gained are exactly the registered ones, so that
deleting them all, if docker agrees, leaves what was there before. -/
theorem networks_tracked (hlaw : Lawful docker existing) (hw : w₀.networks = ∅)
    (hr : Reachable docker project w₀ w) :
    (∀ name, name ∈ existing w.docker ↔
      name ∈ existing w₀.docker ∨ ∃ key, registered w key = some name) ∧
    (∀ key key' name, registered w key = some name → name ∉ existing w₀.docker ∧
      (registered w key' = some name → key = key')) ∧
    existing w₀.docker ⊆ existing (deleteAllNetworks docker w).2.docker ∧
    ((∀ name d, 0 ≤ (docker.networkRm name d).1) → (deleteAllNetworks docker w).1 ≤ 0 →
      existing (deleteAllNetworks docker w).2.docker = existing w₀.docker) := by
  have ht := reachable_tracked hlaw hw hr
  obtain ⟨hsub, hkeep⟩ := deleteNetworks_existing hlaw
    (w.networks.entries.map fun entry => entry.2.networkName) (-1) w
  have hbase : existing w₀.docker ⊆ existing (deleteAllNetworks docker w).2.docker := by
    intro name hname
    apply hkeep name ((ht.exact name).mpr (.inl hname))
    intro hmem
    obtain ⟨key, hkey⟩ := registered_iff.mpr hmem
    exact ht.apart key name hkey hname
  refine ⟨ht.exact, fun key key' name h => ⟨ht.apart key name h, ht.distinct key key' name h⟩,
    hbase, fun hexit hcode => ?_⟩
  apply Finset.Subset.antisymm _ hbase
  intro name hname
  rcases (ht.exact name).mp (hsub name hname) with hold | hheld
  · exact hold
  · exact absurd hname (deleteNetworks_gone hlaw hexit _ _ _ hcode name (registered_iff.mp hheld))

/-- The world of the example once its containers have been stopped. -/
def stoppedWorld : World Bridges :=
  (executeAction bridges "networksimulator" (.stopContainer ["node1", "node2"]) exampleWorld).2

theorem bridges_rm_nonneg (name : String) (d : Bridges) : 0 ≤ (bridges.networkRm name d).1 := by
  simp only [bridges]
  split_ifs <;> simp

theorem stopped_deletes : (deleteAllNetworks bridges stoppedWorld).1 = 0 := by decide +kernel

theorem example_networks_tracked :
    (∀ name, name ∈ stoppedWorld.docker.names.toFinset ↔
      name ∈ exampleStart.docker.names.toFinset ∨
        ∃ key, registered stoppedWorld key = some name) ∧
    (∀ key key' name, registered stoppedWorld key = some name →
      name ∉ exampleStart.docker.names.toFinset ∧
        (registered stoppedWorld key' = some name → key = key')) ∧
    exampleStart.docker.names.toFinset ⊆
      (deleteAllNetworks bridges stoppedWorld).2.docker.names.toFinset ∧
    (deleteAllNetworks bridges stoppedWorld).2.docker.names.toFinset =
      exampleStart.docker.names.toFinset := by
  have hw : exampleStart.networks = ∅ := rfl
  have hr : Reachable bridges "networksimulator" exampleStart stoppedWorld :=
    .act _ (.act _ (.act _ .start))
  obtain ⟨hexact, hdistinct, hkept, hgone⟩ := networks_tracked bridges_lawful hw hr
  exact ⟨hexact, hdistinct, hkept, hgone bridges_rm_nonneg stopped_deletes.le⟩

end tracking

section errors

variable {docker : Docker D} {project : String} {w w₀ : World D}

def NetworkReady (network : Network) : Prop :=
  ∀ container ∈ network.connectedContainer, container ∈ network.netemInitialized

/-- Every container that is connected has its flag. -/
def NetemReady (w : World D) : Prop :=
  ∀ key network, w.networks.lookup key = some network → NetworkReady network

theorem NetemReady.of_networks {w' : World D} (h : NetemReady w) (hn : w'.networks = w.networks) :
    NetemReady w' := by
  unfold NetemReady
  rw [hn]
  exact h

theorem NetemReady.modify (h : NetemReady w) (mapKey : String) {f : Network → Network}
    (hf : ∀ network, NetworkReady network → NetworkReady (f network)) :
    NetemReady (w.modify mapKey f) := by
  intro key network hlookup
  rw [lookup_modify] at hlookup
  split_ifs at hlookup
  · obtain ⟨before, hbefore, rfl⟩ := Option.map_eq_some_iff.mp hlookup
    exact hf before (h mapKey before hbefore)
  · exact h key network hlookup

theorem connect_ready {network : Network} (h : NetworkReady network)
    (container interfaceName : String) :
    NetworkReady (network.connect container interfaceName) := by
  intro c hc
  simp only [Network.connect, AList.mem_insert] at hc ⊢
  exact hc.imp_right (h c)

theorem disconnect_ready {network : Network} (h : NetworkReady network) (container : String) :
    NetworkReady (network.disconnect container) := by
  intro c hc
  exact h c (AList.mem_erase.mp hc).2

theorem setNetemInitialized_ready {network : Network} (h : NetworkReady network)
    (container : String) (newValue : Bool) :
    NetworkReady (network.setNetemInitialized container newValue) := by
  intro c hc
  simp only [Network.setNetemInitialized, AList.mem_insert]
  exact .inr (h c hc)

theorem forEach_netemReady {f : α → World D → ℤ × World D}
    (hf : ∀ a w, NetemReady w → NetemReady (f a w).2) (h : NetemReady w) (l : List α)
    (exitCode : ℤ) : NetemReady (forEach f l exitCode w).2 :=
  forEach_preserves hf l exitCode h

theorem connectContainer_netemReady (h : NetemReady w) (mapKey networkName container : String) :
    NetemReady (connectContainer docker mapKey networkName container w).2 := by
  simp only [connectContainer]
  split
  · split_ifs
    · refine NetemReady.modify ?_ mapKey fun network hn => connect_ready hn _ _
      exact h.of_networks rfl
    · exact h.of_networks rfl
  · exact h.of_networks rfl

theorem connect_netemReady (h : NetemReady w) (containerList : List String)
    (isInternal : Bool) : NetemReady (connect docker project containerList isInternal w).2 := by
  unfold connect
  by_cases hkey : getMapKey (convertToContainerNames project containerList) ∈ w.networks
  · simpa only [if_pos hkey] using h
  · have hnetworks : (createNetwork docker isInternal w).2.networks = w.networks := rfl
    simp only [if_neg hkey]
    split
    · rename_i w' hcreated
      rw [hcreated] at hnetworks
      exact h.of_networks hnetworks
    · rename_i networkName w' hcreated
      rw [hcreated] at hnetworks
      apply forEach_netemReady fun container w'' hw => connectContainer_netemReady hw _ _ _
      intro key network hlookup
      by_cases hk : key = getMapKey (convertToContainerNames project containerList)
      · subst hk
        rw [AList.lookup_insert] at hlookup
        cases hlookup
        intro c hc
        cases hc
      · rw [AList.lookup_insert_ne hk, hnetworks] at hlookup
        exact h key network hlookup

theorem disconnectContainer_netemReady (h : NetemReady w) (mapKey networkName container : String) :
    NetemReady (disconnectContainer docker mapKey networkName container w).2 := by
  simp only [disconnectContainer]
  split_ifs
  · refine NetemReady.modify ?_ mapKey fun network hn => disconnect_ready hn _
    exact h.of_networks rfl
  · exact h.of_networks rfl

theorem disconnect_netemReady (h : NetemReady w) (containerList : List String) :
    NetemReady (disconnect docker project containerList w).2 := by
  simp only [disconnect]
  split
  · exact h
  · rename_i network hlookup
    have hleft : NetemReady (forEach (disconnectContainer docker
        (getMapKey (convertToContainerNames project containerList)) network.networkName)
        (convertToContainerNames project containerList) (-1) w).2 :=
      forEach_netemReady (fun _ _ hw => disconnectContainer_netemReady hw _ _ _) h _ _
    split_ifs
    · exact hleft
    · exact hleft.of_networks rfl
    · intro key network' hlookup'
      by_cases hk : key = getMapKey (convertToContainerNames project containerList)
      · subst hk
        simp at hlookup'
      · rw [AList.lookup_erase_ne hk] at hlookup'
        exact hleft key network' hlookup'

theorem join_netemReady (h : NetemReady w) (actionObject : JoinObject) :
    NetemReady (join docker project actionObject w).2 := by
  cases hc : actionObject.container with
  | none => simpa [join, hc] using h
  | some containerList =>
    simp only [join, hc]
    generalize hjoined : (if actionObject.mode.getD "cluster" = "cluster" then _ else _) = joined
    have hj : NetemReady joined.2 := by
      subst hjoined
      split_ifs
      · exact connect_netemReady h _ _
      · exact forEach_netemReady (fun _ _ hw => connect_netemReady hw _ _) h _ _
      · exact h
    split_ifs
    · split
      · exact connect_netemReady hj _ _
      · exact hj
    · exact hj

theorem netemContainers_netemReady (h : NetemReady w) (networkKey command : String)
    (arguments containers : List String) (exitCode : ℤ) : NetemReady
      (netemContainers docker networkKey command arguments containers exitCode w).2 := by
  induction containers generalizing exitCode w with
  | nil => exact h
  | cons container rest ih =>
    rw [netemContainers]
    split
    · exact h
    · apply ih
      split_ifs
      · refine NetemReady.modify ?_ networkKey fun network hn => setNetemInitialized_ready hn _ _
        exact h.of_networks rfl
      · exact h.of_networks rfl

theorem netem_netemReady (h : NetemReady w) (networkList : Option (List String))
    (command : String) (arguments : List String) : NetemReady
      (executeNetemCommandsForNetwork docker project networkList command arguments w).2 := by
  unfold executeNetemCommandsForNetwork
  split
  · exact h
  · dsimp only
    split
    · exact h
    · exact netemContainers_netemReady h _ _ _ _ _

theorem percentCommand_netemReady (h : NetemReady w) (command : String)
    (actionObject : NetemObject) :
    NetemReady (percentCommand docker project command actionObject w).2 := by
  unfold percentCommand
  split
  · exact h
  · exact netem_netemReady h _ _ _

theorem executeAction_netemReady (h : NetemReady w) (action : Action) :
    NetemReady (executeAction docker project action w).2 := by
  cases action with
  | join actionObject => exact join_netemReady h actionObject
  | cut container =>
    cases container with
    | none => exact h
    | some containerList => exact disconnect_netemReady h containerList
  | startContainer containers => exact forEach_netemReady (fun _ _ hw => hw.of_networks rfl) h containers (-1)
  | stopContainer containers => exact forEach_netemReady (fun _ _ hw => hw.of_networks rfl) h containers (-1)
  | restartContainer containers => exact forEach_netemReady (fun _ _ hw => hw.of_networks rfl) h containers (-1)
  | startTimer identifiers => exact h.of_networks rfl
  | stopTimer identifiers => exact forEach_netemReady (fun _ _ hw => hw.of_networks rfl) h identifiers (-1)
  | printTimer identifiers => exact forEach_netemReady (fun _ _ hw => hw.of_networks rfl) h identifiers (-1)
  | delay actionObject =>
    simp only [executeAction, delay]
    split
    · exact h
    · exact h
    · exact netem_netemReady h _ _ _
  | duplicate actionObject => exact percentCommand_netemReady h _ actionObject
  | corrupt actionObject => exact percentCommand_netemReady h _ actionObject
  | loss actionObject => exact percentCommand_netemReady h _ actionObject
  | other action => exact h

theorem reachable_netemReady (hw : w₀.networks = ∅) (hr : Reachable docker project w₀ w) :
    NetemReady w := by
  induction hr with
  | start =>
    intro key network hlookup
    simp [hw] at hlookup
  | act action _ ih => exact executeAction_netemReady ih action

/-- Over the containers that a network has, the emulator commands come back. -/
theorem netemContainers_returns (h : NetemReady w) (networkKey command : String)
    (arguments containers : List String) (exitCode : ℤ) {network : Network}
    (hn : w.networks.lookup networkKey = some network)
    (hc : ∀ container ∈ containers, container ∈ network.connectedContainer) :
    (netemContainers docker networkKey command arguments containers exitCode w).1 ≠ .raised := by
  induction containers generalizing exitCode w network with
  | nil => simp [netemContainers]
  | cons container rest ih =>
    have hconnected := hc container List.mem_cons_self
    obtain ⟨interface, hi⟩ := Option.isSome_iff_exists.mp (AList.lookup_isSome.mpr hconnected)
    obtain ⟨flag, hflag⟩ := Option.isSome_iff_exists.mp
      (AList.lookup_isSome.mpr (h networkKey network hn container hconnected))
    have hrest : ∀ c ∈ rest, c ∈ network.connectedContainer :=
      fun c hmem => hc c (List.mem_cons_of_mem _ hmem)
    obtain ⟨called, hcalled⟩ : ∃ called,
        executeNetemCommand docker network container command arguments w.docker = some called := by
      simp only [executeNetemCommand, hi, hflag]
      exact ⟨_, rfl⟩
    simp only [netemContainers, hn, Option.bind_some, hcalled]
    by_cases hok : called.1 = 0
    · rw [if_pos hok]
      apply ih
      · refine NetemReady.modify ?_ networkKey fun network hn => setNetemInitialized_ready hn _ _
        exact h.of_networks rfl
      · rw [lookup_modify, if_pos rfl, hn]
        rfl
      · exact hrest
    · rw [if_neg hok]
      apply ih
      · exact h.of_networks rfl
      · exact hn
      · exact hrest

/-- The key of a network that is missing or names none that is registered. -/
def Unknown (project : String) (w : World D) (networkList : Option (List String)) : Prop :=
  ∀ names, networkList = some names →
    getMapKey (convertToContainerNames project names) ∉ w.networks

theorem netem_raises_iff (h : NetemReady w) (networkList : Option (List String))
    (command : String) (arguments : List String) :
    (executeNetemCommandsForNetwork docker project networkList command arguments w).1 = .raised ↔
      Unknown project w networkList := by
  cases networkList with
  | none => simp [executeNetemCommandsForNetwork, Unknown]
  | some names =>
    simp only [executeNetemCommandsForNetwork, Unknown, Option.some.injEq, forall_eq']
    cases hl : w.networks.lookup (getMapKey (convertToContainerNames project names)) with
    | none => simp [AList.lookup_eq_none.mp hl]
    | some network =>
      have hmem : getMapKey (convertToContainerNames project names) ∈ w.networks :=
        AList.lookup_isSome.mp (by simp [hl])
      have hreturns : (netemContainers docker (getMapKey (convertToContainerNames project names))
          command arguments network.connectedContainer.keys (-1) w).1 ≠ .raised :=
        netemContainers_returns h _ command arguments _ (-1) hl fun c hc => AList.mem_keys.mpr hc
      simp [hmem, hreturns]

/-- What an action's object lacks for the action to go through. -/
def Missing (project : String) (w : World D) : Action → Prop
  | .join actionObject => actionObject.container = none ∨
      actionObject.mode = some "ring" ∧ actionObject.container = some []
  | .cut container => container = none
  | .delay actionObject => actionObject.time = none ∨
      (∃ time, actionObject.time = some (some time)) ∧ Unknown project w actionObject.network
  | .duplicate actionObject | .corrupt actionObject | .loss actionObject =>
    actionObject.percent = none ∨ Unknown project w actionObject.network
  | _ => False

theorem join_raises_iff (actionObject : JoinObject) :
    (join docker project actionObject w).1 = .raised ↔
      actionObject.container = none ∨
        actionObject.mode = some "ring" ∧ actionObject.container = some [] := by
  cases hc : actionObject.container with
  | none => simp [join, hc]
  | some containerList =>
    cases hm : actionObject.mode with
    | none => simp [join, hc, hm]
    | some mode =>
      by_cases hring : mode = "ring"
      · subst hring
        cases containerList with
        | nil => simp [join, hc, hm]
        | cons first rest =>
          have hlast : (first :: rest).getLast? = some ((first :: rest).getLast (by simp)) :=
            List.getLast?_eq_some_getLast (by simp)
          simp [join, hc, hm, hlast]
      · simp [join, hc, hm, hring]

/-- After any actions, the ones that raise are those that lack a field or name a network that is not
there, but for a delay whose time is null; no dictionary of a network is ever short of a container. -/
theorem raises_iff (hw : w₀.networks = ∅) (hr : Reachable docker project w₀ w) (action : Action) :
    (executeAction docker project action w).1 = .raised ↔ Missing project w action := by
  have h := reachable_netemReady hw hr
  have hpercent : ∀ command actionObject,
      (percentCommand docker project command actionObject w).1 = .raised ↔
        actionObject.percent = none ∨ Unknown project w actionObject.network := by
    intro command actionObject
    cases hp : actionObject.percent with
    | none => simp [percentCommand, hp]
    | some percent => simp [percentCommand, hp, netem_raises_iff h]
  cases action with
  | join actionObject => exact join_raises_iff actionObject
  | cut container => cases container <;> simp [executeAction, cut, Missing]
  | delay actionObject =>
    rcases ht : actionObject.time with _ | _ | time
    · simp [executeAction, delay, Missing, ht]
    · simp [executeAction, delay, Missing, ht]
    · simp [executeAction, delay, Missing, ht, netem_raises_iff h]
  | duplicate actionObject => exact hpercent _ actionObject
  | corrupt actionObject => exact hpercent _ actionObject
  | loss actionObject => exact hpercent _ actionObject
  | _ => simp [executeAction, composeContainers, startTimer, stopTimer, printTimer, Missing]

/-- The network of `node1` alone was never joined. -/
theorem example_raises_iff :
    (executeAction bridges "networksimulator"
      (.loss { network := some ["node1"], percent := some "10" }) exampleWorld).1 = .raised ↔
        Missing "networksimulator" exampleWorld
          (.loss { network := some ["node1"], percent := some "10" }) :=
  raises_iff rfl (.act _ (.act _ .start)) _

end errors

end NetworkRegistry
