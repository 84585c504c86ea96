import UtxoWorkshop.EventWorker
import Mathlib.Data.List.AList
import Mathlib.Data.List.Sort
import Mathlib.Data.String.Basic

/-! The actions of the docker network simulator: the registry of the networks it has made, and the
docker commands it issues. Docker itself is a parameter. -/
namespace NetworkActions

open EventWorker (Outcome)

def networkPrefix : String := "network-simulator-network_"

/-- The commands of docker that the actions call, with the exit code each gives. -/
structure Docker (D : Type) where
  networkInspect : String → D → ℤ
  networkCreate : Bool → String → D → ℤ × D
  networkRm : String → D → ℤ × D
  networkConnect : String → String → D → ℤ × D
  networkDisconnect : String → String → D → ℤ × D
  getNetworkInterfaces : String → D → List String
  tcQdisc : String → List String → D → ℤ × D
  compose : String → String → D → ℤ × D
  currentMilliTime : D → ℤ
  networkCount : D → ℕ
  /-- With so many networks, docker does not have all of the first numbers and one more. -/
  free : ∀ d, ∃ i ≤ networkCount d, networkInspect (networkPrefix ++ toString i) d ≠ 0

abbrev Dict (V : Type) := AList fun _ : String => V

structure Network where
  key : String
  networkName : String
  connectedContainer : Dict String
  netemInitialized : Dict Bool

def Network.connect (network : Network) (containerName interfaceName : String) : Network :=
  { network with
    netemInitialized := network.netemInitialized.insert containerName false
    connectedContainer := network.connectedContainer.insert containerName interfaceName }

def Network.disconnect (network : Network) (containerName : String) : Network :=
  { network with connectedContainer := network.connectedContainer.erase containerName }

def Network.setNetemInitialized (network : Network) (container : String) (newValue : Bool) :
    Network :=
  { network with netemInitialized := network.netemInitialized.insert container newValue }

/-- The globals of the actions, beside docker. -/
structure World (D : Type) where
  networks : Dict Network
  currentTimers : Dict ℤ
  docker : D

variable {D W α : Type}

/-- `networks[mapKey]` is a reference: what is done to the network is seen through the registry. -/
def World.modify (w : World D) (mapKey : String) (f : Network → Network) : World D :=
  match w.networks.lookup mapKey with
  | some network => { w with networks := w.networks.insert mapKey (f network) }
  | none => w

/-- A loop that keeps the largest of the exit codes. -/
def forEach (f : α → W → ℤ × W) : List α → ℤ → W → ℤ × W
  | [], exitCode, w => (exitCode, w)
  | a :: rest, exitCode, w => forEach f rest (max exitCode (f a w).1) (f a w).2

def convertToContainerNames (project : String) (containerList : List String) : List String :=
  containerList.map fun container => project ++ "_" ++ container ++ "_1"

def getMapKey (containerList : List String) : String :=
  String.join ((containerList.insertionSort (· ≤ ·)).map (· ++ ";"))

section commands

variable (docker : Docker D) (project : String)

/-- The loop of `createNetwork`: on to the first number whose network docker does not know. -/
def unusedNumber (d : D) : ℕ → ℕ → ℕ
  | 0, i => i
  | fuel + 1, i =>
    if docker.networkInspect (networkPrefix ++ toString i) d = 0 then unusedNumber d fuel (i + 1)
    else i

def createNetwork (isInternal : Bool) (w : World D) : Option String × World D :=
  let i := unusedNumber docker w.docker (docker.networkCount w.docker) 0
  let networkName := networkPrefix ++ toString i
  let created := docker.networkCreate isInternal networkName w.docker
  (if created.1 = 0 then some networkName else none, { w with docker := created.2 })

def deleteNetwork (networkName : String) (w : World D) : ℤ × World D :=
  let removed := docker.networkRm networkName w.docker
  (removed.1, { w with docker := removed.2 })

def connectContainer (mapKey networkName container : String) (w : World D) : ℤ × World D :=
  let alone := (docker.networkDisconnect "none" container w.docker).2
  let preNetworkInterfaces := docker.getNetworkInterfaces container alone
  let connected := docker.networkConnect networkName container alone
  let postNetworkInterfaces := docker.getNetworkInterfaces container connected.2
  let w := { w with docker := connected.2 }
  match (postNetworkInterfaces.filter (· ∉ preNetworkInterfaces)).getLast? with
  | some interfaceName =>
    (connected.1,
      if connected.1 = 0 then w.modify mapKey (·.connect container interfaceName) else w)
  | none => (connected.1, w)

def connect (containerList : List String) (isInternal : Bool) (w : World D) : ℤ × World D :=
  let containerList := convertToContainerNames project containerList
  let mapKey := getMapKey containerList
  if mapKey ∈ w.networks then (1, w)
  else
    match createNetwork docker isInternal w with
    | (none, w) => (1, w)
    | (some networkName, w) =>
      forEach (connectContainer docker mapKey networkName) containerList (-1)
        { w with networks := w.networks.insert mapKey ⟨mapKey, networkName, ∅, ∅⟩ }

def disconnectContainer (mapKey networkName container : String) (w : World D) : ℤ × World D :=
  let gone := docker.networkDisconnect networkName container w.docker
  let w := { w with docker := gone.2 }
  (gone.1, if gone.1 = 0 then w.modify mapKey (·.disconnect container) else w)

def disconnect (containerList : List String) (w : World D) : ℤ × World D :=
  let containerList := convertToContainerNames project containerList
  let mapKey := getMapKey containerList
  match w.networks.lookup mapKey with
  | none => (1, w)
  | some network =>
    let left := forEach (disconnectContainer docker mapKey network.networkName) containerList (-1) w
    if left.1 ≠ 0 then (1, left.2)
    else
      let deleted := deleteNetwork docker network.networkName left.2
      if deleted.1 ≠ 0 then deleted
      else (deleted.1, { deleted.2 with networks := deleted.2.networks.erase mapKey })

structure JoinObject where
  container : Option (List String) := none
  isInternal : Option Bool := none
  mode : Option String := none

/-- `row` and `ring` connect neighbours; `ring` closes with the first and the last. A list with no
first container is an `IndexError`. -/
def join (actionObject : JoinObject) (w : World D) : Outcome × World D :=
  match actionObject.container with
  | none => (.raised, w)
  | some containerList =>
    let isInternal := actionObject.isInternal.getD false
    let mode := actionObject.mode.getD "cluster"
    let joined :=
      if mode = "cluster" then connect docker project containerList isInternal w
      else if mode = "row" ∨ mode = "ring" then
        forEach (fun i => connect docker project ((containerList.drop i).take 2) isInternal)
          (List.range (containerList.length - 1)) 0 w
      else (0, w)
    if mode = "ring" then
      match containerList.head?, containerList.getLast? with
      | some first, some last =>
        let closed := connect docker project [first, last] isInternal joined.2
        (.returned (some (max closed.1 joined.1)), closed.2)
      | _, _ => (.raised, joined.2)
    else (.returned (some joined.1), joined.2)

def cut (container : Option (List String)) (w : World D) : Outcome × World D :=
  match container with
  | none => (.raised, w)
  | some containerList =>
    let r := disconnect docker project containerList w
    (.returned (some r.1), r.2)

def deleteAllNetworks (w : World D) : ℤ × World D :=
  forEach (deleteNetwork docker) (w.networks.entries.map fun entry => entry.2.networkName) (-1) w

/-- `add` sets the emulator up on an interface and `change` alters it. Either dictionary of the
network can lack the container, which is a `KeyError`. -/
def executeNetemCommand (network : Network) (containerName command : String)
    (arguments : List String) (d : D) : Option (ℤ × D) :=
  match network.connectedContainer.lookup containerName,
      network.netemInitialized.lookup containerName with
  | some interface, some isNetemInitialized =>
    some (docker.tcQdisc containerName
      ([if isNetemInitialized then "change" else "add", "dev", interface, "root", "netem",
        command] ++ arguments) d)
  | _, _ => none

def netemContainers (networkKey command : String) (arguments : List String) :
    List String → ℤ → World D → Outcome × World D
  | [], exitCode, w => (.returned (some exitCode), w)
  | container :: rest, exitCode, w =>
    match (w.networks.lookup networkKey).bind fun network =>
        executeNetemCommand docker network container command arguments w.docker with
    | none => (.raised, w)
    | some (localExitCode, d) =>
      let w := { w with docker := d }
      netemContainers networkKey command arguments rest (max localExitCode exitCode)
        (if localExitCode = 0 then w.modify networkKey (·.setNetemInitialized container true)
          else w)

def executeNetemCommandsForNetwork (networkList : Option (List String)) (command : String)
    (arguments : List String) (w : World D) : Outcome × World D :=
  match networkList with
  | none => (.raised, w)
  | some networkList =>
    let networkKey := getMapKey (convertToContainerNames project networkList)
    match w.networks.lookup networkKey with
    | none => (.raised, w)
    | some network =>
      netemContainers docker networkKey command arguments network.connectedContainer.keys (-1) w

/-- The keys that the netem actions read; a `time` that is there but null is `some none`. -/
structure NetemObject where
  network : Option (List String) := none
  time : Option (Option String) := none
  jitter : Option String := none
  correlation : Option String := none
  distribution : Option String := none
  percent : Option String := none

def delay (actionObject : NetemObject) (w : World D) : Outcome × World D :=
  match actionObject.time with
  | none => (.raised, w)
  | some none => (.returned (some 1), w)
  | some (some time) =>
    let arguments := match actionObject.jitter with
      | none => [time]
      | some jitter =>
        [time, jitter] ++ actionObject.correlation.toList ++
          (match actionObject.distribution with
            | some distribution => ["distribution", distribution]
            | none => [])
    executeNetemCommandsForNetwork docker project actionObject.network "delay" arguments w

/-- `duplicate`, `corrupt` and `loss` differ in the name of the command only. -/
def percentCommand (command : String) (actionObject : NetemObject) (w : World D) :
    Outcome × World D :=
  match actionObject.percent with
  | none => (.raised, w)
  | some percent =>
    executeNetemCommandsForNetwork docker project actionObject.network command
      ([percent ++ "%"] ++ actionObject.correlation.toList) w

def duplicate (actionObject : NetemObject) (w : World D) : Outcome × World D :=
  percentCommand docker project "duplicate" actionObject w

def corrupt (actionObject : NetemObject) (w : World D) : Outcome × World D :=
  percentCommand docker project "corrupt" actionObject w

def loss (actionObject : NetemObject) (w : World D) : Outcome × World D :=
  percentCommand docker project "loss" actionObject w

/-- `startContainer`, `stopContainer` and `restartContainer` differ in the verb only. -/
def composeContainers (verb : String) (actionObject : List String) (w : World D) :
    Outcome × World D :=
  let r := forEach (fun container w =>
    let called := docker.compose verb container w.docker
    (called.1, { w with docker := called.2 })) actionObject (-1) w
  (.returned (some r.1), r.2)

def startTimer (actionObject : List String) (w : World D) : Outcome × World D :=
  (.returned (some 0), { w with
    currentTimers := actionObject.foldl (fun timers identifier =>
      timers.insert identifier (docker.currentMilliTime w.docker)) w.currentTimers })

def printSingleTimer (identifier : String) (w : World D) : ℤ :=
  if identifier ∈ w.currentTimers then 0 else 1

def stopTimer (actionObject : List String) (w : World D) : Outcome × World D :=
  let r := forEach (fun identifier w => (printSingleTimer identifier w,
    { w with currentTimers := w.currentTimers.erase identifier })) actionObject (-1) w
  (.returned (some r.1), r.2)

def printTimer (actionObject : List String) (w : World D) : Outcome × World D :=
  let r := forEach (fun identifier w => (printSingleTimer identifier w, w)) actionObject (-1) w
  (.returned (some r.1), r.2)

/-- An entry of a `do` map, with the object that its action takes. -/
inductive Action where
  | join (actionObject : JoinObject)
  | cut (container : Option (List String))
  | startContainer (actionObject : List String)
  | stopContainer (actionObject : List String)
  | restartContainer (actionObject : List String)
  | startTimer (actionObject : List String)
  | stopTimer (actionObject : List String)
  | printTimer (actionObject : List String)
  | delay (actionObject : NetemObject)
  | duplicate (actionObject : NetemObject)
  | corrupt (actionObject : NetemObject)
  | loss (actionObject : NetemObject)
  | other (action : String)

def executeAction (action : Action) (w : World D) : Outcome × World D :=
  match action with
  | .join actionObject => join docker project actionObject w
  | .cut container => cut docker project container w
  | .startContainer actionObject => composeContainers docker "start" actionObject w
  | .stopContainer actionObject => composeContainers docker "stop" actionObject w
  | .restartContainer actionObject => composeContainers docker "restart" actionObject w
  | .startTimer actionObject => startTimer docker actionObject w
  | .stopTimer actionObject => stopTimer actionObject w
  | .printTimer actionObject => printTimer actionObject w
  | .delay actionObject => delay docker project actionObject w
  | .duplicate actionObject => duplicate docker project actionObject w
  | .corrupt actionObject => corrupt docker project actionObject w
  | .loss actionObject => loss docker project actionObject w
  | .other _ => (.returned none, w)

variable {docker} in
/-- The loop stops before its fuel does. -/
theorem unusedNumber_unused {d : D} {i fuel j : ℕ}
    (hj : docker.networkInspect (networkPrefix ++ toString j) d ≠ 0) (hi : i ≤ j)
    (hfuel : j ≤ i + fuel) :
    docker.networkInspect (networkPrefix ++ toString (unusedNumber docker d fuel i)) d ≠ 0 := by
  induction fuel generalizing i with
  | zero =>
    obtain rfl : i = j := by omega
    exact hj
  | succ fuel ih =>
    rw [unusedNumber]
    split_ifs with hused
    · apply ih _ (by omega)
      by_contra hle
      obtain rfl : i = j := by omega
      exact hj hused
    · exact hused

/-- The worlds that any actions, one after another, lead to. -/
inductive Reachable (w₀ : World D) : World D → Prop where
  | start : Reachable w₀ w₀
  | act {w : World D} (action : Action) :
      Reachable w₀ w → Reachable w₀ (executeAction docker project action w).2

end commands

end NetworkActions
