import UtxoWorkshop.NetworkRegistry

/-! A `join` and the `cut` of what it joined undo one another. -/
namespace NetworkJoins

open EventWorker (Outcome)
open NetworkActions NetworkRegistry ResourceRegistry

variable {D W α : Type}

/-- The networks that a `join` is to make, by its mode. -/
def segments (mode : String) (containerList : List String) : List (List String) :=
  if mode = "cluster" then [containerList]
  else if mode = "row" ∨ mode = "ring" then
    ((List.range (containerList.length - 1)).map fun i => (containerList.drop i).take 2) ++
      if mode = "ring" then
        match containerList.head?, containerList.getLast? with
        | some first, some last => [[first, last]]
        | _, _ => []
      else []
  else []

def networkKey (project : String) (containerList : List String) : String :=
  getMapKey (convertToContainerNames project containerList)

/-- The order of the containers does not matter. -/
theorem getMapKey_perm {l l' : List String} (h : l.Perm l') : getMapKey l = getMapKey l' := by
  have hsorted : l.insertionSort (· ≤ ·) = l'.insertionSort (· ≤ ·) := by
    apply List.Perm.eq_of_pairwise' (List.pairwise_insertionSort _ _)
      (List.pairwise_insertionSort _ _)
    exact (List.perm_insertionSort _ l).trans (h.trans (List.perm_insertionSort _ l').symm)
  rw [getMapKey, hsorted, getMapKey]

theorem networkKey_perm (project : String) {l l' : List String} (h : l.Perm l') :
    networkKey project l = networkKey project l' :=
  getMapKey_perm (h.map _)

def contentsKey (project : String) (containers : Multiset String) : String :=
  Quotient.liftOn containers (networkKey project) fun _ _ h => networkKey_perm project h

/-- Lists of containers that are the same up to order have the same keys up to order. -/
theorem networkKeys_perm (project : String) {cuts made : List (List String)}
    (h : (cuts.map Multiset.ofList).Perm (made.map Multiset.ofList)) :
    (cuts.map (networkKey project)).Perm (made.map (networkKey project)) := by
  have hlift : ∀ ls : List (List String), ls.map (networkKey project) =
      (ls.map Multiset.ofList).map (contentsKey project) := by
    intro ls
    rw [List.map_map]
    rfl
  rw [hlift, hlift]
  exact h.map _

/-- Every call of a loop came back with 0. -/
inductive Succeeds (f : α → W → ℤ × W) : List α → W → W → Prop where
  | nil (w : W) : Succeeds f [] w w
  | cons {a : α} {l : List α} {w w' : W} : (f a w).1 = 0 → Succeeds f l (f a w).2 w' →
      Succeeds f (a :: l) w w'

/-- Where no exit code is negative, a loop that ends with 0 had no other. -/
theorem forEach_succeeds {f : α → W → ℤ × W} {l : List α} {w : W}
    (hnonneg : ∀ a ∈ l, ∀ w, 0 ≤ (f a w).1) (h : (forEach f l 0 w).1 = 0) :
    Succeeds f l w (forEach f l 0 w).2 := by
  induction l generalizing w with
  | nil => exact .nil w
  | cons a l ih =>
    have hle := le_forEach f l (max 0 (f a w).1) (f a w).2
    have hmax := le_max_right 0 (f a w).1
    have hzero : (f a w).1 = 0 := by
      simp only [forEach] at h
      have ha := hnonneg a List.mem_cons_self w
      omega
    have hstep : forEach f (a :: l) 0 w = forEach f l 0 (f a w).2 := by
      rw [forEach, hzero, max_self]
    rw [hstep] at h ⊢
    exact .cons hzero (ih (fun b hb => hnonneg b (List.mem_cons_of_mem _ hb)) h)

theorem Succeeds.append {f : α → W → ℤ × W} {l : List α} {a : α} {w w' : W}
    (h : Succeeds f l w w') (ha : (f a w').1 = 0) : Succeeds f (l ++ [a]) w (f a w').2 := by
  induction h with
  | nil w => exact .cons ha (.nil _)
  | cons hb _ ih => exact .cons hb (ih ha)

theorem Succeeds.map {β : Type} {g : β → α} {f : α → W → ℤ × W} {l : List β} {w w' : W}
    (h : Succeeds (fun b => f (g b)) l w w') : Succeeds f (l.map g) w w' := by
  induction h with
  | nil w => exact .nil w
  | cons hb _ ih => exact .cons hb ih

section

variable {docker : Docker D} {project : String} {w w' w₀ : World D} {isInternal : Bool}

theorem connectContainer_lookup (mapKey networkName container : String) (w : World D)
    {key : String} (hkey : key ≠ mapKey) :
    (connectContainer docker mapKey networkName container w).2.networks.lookup key =
      w.networks.lookup key := by
  simp only [connectContainer]
  split
  · split_ifs
    · rw [lookup_modify, if_neg hkey]
    · rfl
  · rfl

theorem connectContainer_mem (mapKey networkName container : String) (w : World D)
    (hmem : mapKey ∈ w.networks) :
    mapKey ∈ (connectContainer docker mapKey networkName container w).2.networks := by
  simp only [connectContainer]
  split
  · split_ifs
    · rw [← AList.lookup_isSome, lookup_modify, if_pos rfl, Option.isSome_map,
        AList.lookup_isSome]
      exact hmem
    · exact hmem
  · exact hmem

theorem disconnectContainer_lookup (mapKey networkName container : String) (w : World D)
    {key : String} (hkey : key ≠ mapKey) :
    (disconnectContainer docker mapKey networkName container w).2.networks.lookup key =
      w.networks.lookup key := by
  simp only [disconnectContainer]
  split_ifs
  · rw [lookup_modify, if_neg hkey]
  · rfl

/-- A connection that succeeds registers one network, which was not there. -/
theorem connect_ok {containerList : List String}
    (h : (connect docker project containerList isInternal w).1 = 0) :
    networkKey project containerList ∉ w.networks ∧
    networkKey project containerList ∈
      (connect docker project containerList isInternal w).2.networks ∧
    ∀ key, key ≠ networkKey project containerList →
      (connect docker project containerList isInternal w).2.networks.lookup key =
        w.networks.lookup key := by
  unfold connect networkKey at *
  by_cases hkey : getMapKey (convertToContainerNames project containerList) ∈ w.networks
  · simp [hkey] at h
  · simp only [if_neg hkey] at h ⊢
    refine ⟨hkey, ?_⟩
    have hnetworks : (createNetwork docker isInternal w).2.networks = w.networks := rfl
    revert h
    split
    · intro h
      cases h
    · rename_i networkName w' hcreated
      intro _
      rw [hcreated] at hnetworks
      constructor
      · apply forEach_preserves
          (P := fun w : World D =>
            getMapKey (convertToContainerNames project containerList) ∈ w.networks)
          (fun container w hw => connectContainer_mem _ _ container w hw)
        simp
      · intro key hne
        apply forEach_preserves
          (P := fun w'' : World D => w''.networks.lookup key = w.networks.lookup key)
          (fun container w hw => (connectContainer_lookup _ _ container w hne).trans hw)
        rw [AList.lookup_insert_ne hne, hnetworks]

/-- A `cut` that succeeds takes one network, which was there. -/
theorem disconnect_ok {containerList : List String}
    (h : (disconnect docker project containerList w).1 = 0) :
    networkKey project containerList ∈ w.networks ∧
    ∀ key, (disconnect docker project containerList w).2.networks.lookup key =
      if key = networkKey project containerList then none else w.networks.lookup key := by
  unfold networkKey
  simp only [disconnect] at h ⊢
  cases hl : w.networks.lookup (getMapKey (convertToContainerNames project containerList)) with
  | none => simp [hl] at h
  | some network =>
    refine ⟨AList.lookup_isSome.mp (by simp [hl]), fun key => ?_⟩
    simp only [hl] at h ⊢
    have hother : ∀ key, key ≠ getMapKey (convertToContainerNames project containerList) →
        (forEach (disconnectContainer docker
          (getMapKey (convertToContainerNames project containerList)) network.networkName)
          (convertToContainerNames project containerList) (-1) w).2.networks.lookup key =
            w.networks.lookup key := by
      intro key hne
      exact forEach_preserves
        (P := fun w'' : World D => w''.networks.lookup key = w.networks.lookup key)
        (fun container w hw => (disconnectContainer_lookup _ _ container w hne).trans hw) _ _ rfl
    generalize forEach (disconnectContainer docker
      (getMapKey (convertToContainerNames project containerList)) network.networkName)
      (convertToContainerNames project containerList) (-1) w = left at h hother ⊢
    by_cases hleft : left.1 = 0
    · by_cases hdeleted : (deleteNetwork docker network.networkName left.2).1 = 0
      · simp only [hleft, hdeleted, ne_eq, not_true_eq_false, if_false]
        by_cases hk : key = getMapKey (convertToContainerNames project containerList)
        · subst hk
          simp
        · rw [AList.lookup_erase_ne hk, if_neg hk]
          exact hother key hk
      · simp [hleft, hdeleted] at h
    · simp [hleft] at h

/-- The registry after connections that all succeeded: every one has added its own network. -/
theorem connects_ok {made : List (List String)} {isInternal : Bool}
    (h : Succeeds (fun l => connect docker project l isInternal) made w w') :
    (made.map (networkKey project)).Nodup ∧
    (∀ key ∈ made.map (networkKey project), key ∉ w.networks ∧ key ∈ w'.networks) ∧
    ∀ key ∉ made.map (networkKey project),
      w'.networks.lookup key = w.networks.lookup key := by
  induction h with
  | nil w => simp
  | @cons l made w w' hl hrest ih =>
    obtain ⟨hnew, hthere, hother⟩ := connect_ok hl
    obtain ⟨hnodup, hfresh, hsame⟩ := ih
    have hnot : networkKey project l ∉ made.map (networkKey project) :=
      fun hmem => (hfresh _ hmem).1 hthere
    refine ⟨?_, ?_, ?_⟩
    · exact List.nodup_cons.mpr ⟨hnot, hnodup⟩
    · intro key hkey
      by_cases hk : key = networkKey project l
      · subst hk
        rw [← AList.lookup_isSome, ← AList.lookup_isSome, hsame _ hnot]
        exact ⟨by simpa [AList.lookup_isSome] using hnew, AList.lookup_isSome.mpr hthere⟩
      · have hmem : key ∈ made.map (networkKey project) := by
          simpa [hk] using hkey
        obtain ⟨hbefore, hafter⟩ := hfresh key hmem
        refine ⟨?_, hafter⟩
        rwa [← AList.lookup_isSome, hother key hk, AList.lookup_isSome] at hbefore
    · intro key hkey
      rw [List.map_cons, List.mem_cons, not_or] at hkey
      rw [hsame key hkey.2, hother key hkey.1]

/-- The registry after cuts that all succeeded. -/
theorem cuts_ok {cuts : List (List String)}
    (h : Succeeds (disconnect docker project) cuts w w') (key : String) :
    w'.networks.lookup key =
      if key ∈ cuts.map (networkKey project) then none else w.networks.lookup key := by
  induction h with
  | nil w => simp
  | @cons l cuts w w' hl _ ih =>
    simp only [ih, (disconnect_ok hl).2 key, List.map_cons, List.mem_cons]
    by_cases hk : key = networkKey project l
    · simp [hk]
    · simp [hk]

theorem connect_nonneg (hexit : ∀ name container d, 0 ≤ (docker.networkConnect name container d).1)
    {containerList : List String} (hne : containerList ≠ []) (w : World D) :
    0 ≤ (connect docker project containerList isInternal w).1 := by
  unfold connect
  by_cases hkey : getMapKey (convertToContainerNames project containerList) ∈ w.networks
  · simp [hkey]
  · simp only [if_neg hkey]
    split
    · simp
    · cases containerList with
      | nil => exact absurd rfl hne
      | cons container rest =>
        simp only [convertToContainerNames, List.map_cons, forEach]
        refine le_trans (le_trans ?_ (le_max_right _ _)) (le_forEach _ _ _ _)
        simp only [connectContainer]
        split
        · exact hexit _ _ _
        · exact hexit _ _ _

/-- Neighbours that were connected one after another, all with 0. -/
theorem row_ok (hexit : ∀ name container d, 0 ≤ (docker.networkConnect name container d).1)
    {containerList : List String}
    (h : (forEach (fun i => connect docker project ((containerList.drop i).take 2) isInternal)
      (List.range (containerList.length - 1)) 0 w).1 = 0) :
    Succeeds (fun l => connect docker project l isInternal)
      ((List.range (containerList.length - 1)).map fun i => (containerList.drop i).take 2) w
      (forEach (fun i => connect docker project ((containerList.drop i).take 2) isInternal)
        (List.range (containerList.length - 1)) 0 w).2 := by
  apply Succeeds.map
  apply forEach_succeeds _ h
  intro i hi w
  apply connect_nonneg hexit
  have hlt := List.mem_range.mp hi
  have hlen : ((containerList.drop i).take 2).length ≠ 0 := by
    simp
    omega
  intro hnil
  simp [hnil] at hlen

/-- A `join` that ends with 0 has made each network of its mode. -/
theorem join_ok (hexit : ∀ name container d, 0 ≤ (docker.networkConnect name container d).1)
    {actionObject : JoinObject} {containerList : List String}
    (hc : actionObject.container = some containerList)
    (h : (join docker project actionObject w).1 = .returned (some 0)) :
    Succeeds (fun l => connect docker project l (actionObject.isInternal.getD false))
      (segments (actionObject.mode.getD "cluster") containerList) w
      (join docker project actionObject w).2 := by
  simp only [join, hc] at h ⊢
  generalize actionObject.mode.getD "cluster" = mode at h ⊢
  by_cases hcluster : mode = "cluster"
  · subst hcluster
    simp [segments] at h ⊢
    exact .cons h (.nil _)
  by_cases hring : mode = "ring"
  · subst hring
    cases containerList with
    | nil => simp at h
    | cons first rest =>
      have hlast : (first :: rest).getLast? = some ((first :: rest).getLast (by simp)) :=
        List.getLast?_eq_some_getLast (by simp)
      simp only [segments, hlast, List.head?_cons, String.reduceEq, if_true, if_false, or_true,
        Outcome.returned.injEq, Option.some.injEq] at h ⊢
      have hrow := le_forEach (fun i => connect docker project
        (((first :: rest).drop i).take 2) (actionObject.isInternal.getD false))
        (List.range ((first :: rest).length - 1)) 0 w
      have hclosed : ∀ joined : World D, 0 ≤ (connect docker project
          [first, (first :: rest).getLast (by simp)] (actionObject.isInternal.getD false) joined).1 :=
        connect_nonneg hexit (by simp)
      refine (row_ok hexit ?_).append ?_
      · exact le_antisymm ((le_max_right _ _).trans h.le) hrow
      · exact le_antisymm ((le_max_left _ _).trans h.le) (hclosed _)
  by_cases hrow : mode = "row"
  · subst hrow
    simp [segments] at h ⊢
    exact row_ok hexit h
  · simp [segments, hcluster, hring, hrow] at h ⊢
    exact .nil _

/-- Actions that all come back with 0. -/
inductive Performs (docker : Docker D) (project : String) :
    List Action → World D → World D → Prop where
  | nil (w : World D) : Performs docker project [] w w
  | cons {action : Action} {actions : List Action} {w w' : World D} :
      (executeAction docker project action w).1 = .returned (some 0) →
      Performs docker project actions (executeAction docker project action w).2 w' →
      Performs docker project (action :: actions) w w'

theorem performs_cuts {cuts : List (List String)}
    (h : Performs docker project (cuts.map fun names => .cut (some names)) w w') :
    Succeeds (disconnect docker project) cuts w w' := by
  induction cuts generalizing w with
  | nil =>
    cases h
    exact .nil _
  | cons names cuts ih =>
    cases h with
    | cons hcode hrest =>
      simp only [executeAction, cut, Outcome.returned.injEq, Option.some.injEq] at hcode
      exact .cons hcode (ih hrest)

theorem Performs.reachable {actions : List Action} (h : Performs docker project actions w w')
    (hr : Reachable docker project w₀ w) : Reachable docker project w₀ w' := by
  induction h with
  | nil w => exact hr
  | cons _ _ ih => exact ih (hr.act _)

/-- One new network for each of the lists `made`, in the registry and in docker. -/
structure Joined (existing : D → Finset String) (project : String) (made : List (List String))
    (w w' : World D) : Prop where
  keys_nodup : (made.map (networkKey project)).Nodup
  keys_fresh : ∀ key ∈ made.map (networkKey project), key ∉ w.networks
  keys_iff : ∀ key, key ∈ w'.networks ↔ key ∈ w.networks ∨ key ∈ made.map (networkKey project)
  others : ∀ key ∉ made.map (networkKey project), w'.networks.lookup key = w.networks.lookup key
  gained : ∀ key ∈ made.map (networkKey project), ∃ name, registered w' key = some name ∧
    name ∈ existing w'.docker \ existing w.docker
  kept : existing w.docker ⊆ existing w'.docker
  count : (existing w'.docker \ existing w.docker).card = made.length

theorem Succeeds.joined {existing : D → Finset String} {base : Finset String}
    {made : List (List String)} (hbefore : Tracked existing base w)
    (hafter : Tracked existing base w')
    (h : Succeeds (fun l => connect docker project l isInternal) made w w') :
    Joined existing project made w w' := by
  obtain ⟨hnodup, hfresh, hsame⟩ := connects_ok h
  have hnew : ∀ key ∈ (made.map (networkKey project)).toFinset, registered w key = none := by
    intro key hkey
    have habsent := (hfresh key (List.mem_toFinset.mp hkey)).1
    rw [registered, AList.lookup_eq_none.mpr habsent, Option.map_none]
  have hold : ∀ key ∉ (made.map (networkKey project)).toFinset,
      registered w' key = registered w key := by
    intro key hkey
    rw [registered, hsame key (mt List.mem_toFinset.mpr hkey), registered]
  have hheld : ∀ key ∈ (made.map (networkKey project)).toFinset, (registered w' key).isSome := by
    intro key hkey
    rw [registered, Option.isSome_map, AList.lookup_isSome]
    exact (hfresh key (List.mem_toFinset.mp hkey)).2
  obtain ⟨hkept, hcard⟩ := Tracks.gained hbefore hafter hnew hold hheld
  constructor
  · exact hnodup
  · exact fun key hkey => (hfresh key hkey).1
  · intro key
    by_cases hkey : key ∈ made.map (networkKey project)
    · simp only [hkey, (hfresh key hkey).2, or_true]
    · rw [← AList.lookup_isSome, hsame key hkey, AList.lookup_isSome]
      simp only [hkey, or_false]
  · exact hsame
  · intro key hkey
    have hmem := List.mem_toFinset.mpr hkey
    obtain ⟨name, hname⟩ := Option.isSome_iff_exists.mp (hheld key hmem)
    have hlive := (hafter.exact name).mpr (.inr ⟨key, hname⟩)
    have hgained := Tracks.gained_notMem hbefore hafter hnew hold hmem hname
    exact ⟨name, hname, Finset.mem_sdiff.mpr ⟨hlive, hgained⟩⟩
  · exact hkept
  · rw [hcard, List.toFinset_card_of_nodup hnodup, List.length_map]

/-- A `join` that ends with 0 has added one new network for each pair or cluster of its mode. Cutting
those again, in any order and with the containers in any order, restores the registry if all goes
well, and docker has the networks that it had before. -/
theorem join_cut_round_trip {existing : D → Finset String} {actionObject : JoinObject}
    {containerList : List String} (hlaw : Lawful docker existing) (hw : w₀.networks = ∅)
    (hr : Reachable docker project w₀ w)
    (hexit : ∀ name container d, 0 ≤ (docker.networkConnect name container d).1)
    (hc : actionObject.container = some containerList)
    (hjoin : Performs docker project [.join actionObject] w w') :
    Joined existing project (segments (actionObject.mode.getD "cluster") containerList) w w' ∧
    ∀ (cuts : List (List String)) w'', Performs docker project (cuts.map fun names => .cut (some names)) w' w'' →
      (cuts.map Multiset.ofList).Perm
        ((segments (actionObject.mode.getD "cluster") containerList).map Multiset.ofList) →
      (∀ key, w''.networks.lookup key = w.networks.lookup key) ∧
        existing w''.docker = existing w.docker := by
  have hbefore := reachable_tracked hlaw hw hr
  have hafter := reachable_tracked hlaw hw (hjoin.reachable hr)
  have hmade : Succeeds (fun l => connect docker project l (actionObject.isInternal.getD false))
      (segments (actionObject.mode.getD "cluster") containerList) w w' := by
    cases hjoin with
    | cons hcode hrest =>
      cases hrest
      exact join_ok hexit hc hcode
  have hjoined := hmade.joined hbefore hafter
  refine ⟨hjoined, fun cuts w'' hcuts hperm => ?_⟩
  have hkeys := networkKeys_perm project hperm
  have hrestored : ∀ key, w''.networks.lookup key = w.networks.lookup key := by
    intro key
    rw [cuts_ok (performs_cuts hcuts) key]
    by_cases hkey : key ∈ (segments (actionObject.mode.getD "cluster") containerList).map
        (networkKey project)
    · rw [if_pos (hkeys.mem_iff.mpr hkey)]
      exact (AList.lookup_eq_none.mpr (hjoined.keys_fresh key hkey)).symm
    · rw [if_neg fun hmem => hkey (hkeys.mem_iff.mp hmem)]
      exact hjoined.others key hkey
  refine ⟨hrestored, ?_⟩
  have hend := reachable_tracked hlaw hw (hcuts.reachable (hjoin.reachable hr))
  have hheld : registered w'' = registered w := by
    funext key
    rw [registered, registered, hrestored]
  rw [Tracked, hheld] at hend
  exact hend.live_eq hbefore

/-- Three containers without a network. -/
def ringStart : World Bridges where
  networks := ∅
  currentTimers := ∅
  docker := ⟨["bridge", "host", "none"], [("none", "networksimulator_Node1_1"),
    ("none", "networksimulator_Node2_1"), ("none", "networksimulator_Node3_1")]⟩

def ringObject : JoinObject where
  container := some ["Node1", "Node2", "Node3"]
  isInternal := some true
  mode := some "ring"

def ringWorld : World Bridges :=
  (executeAction bridges "networksimulator" (.join ringObject) ringStart).2

/-- The pairs of the ring, each given the other way round. -/
def ringCuts : List (List String) := [["Node3", "Node1"], ["Node2", "Node1"], ["Node3", "Node2"]]

def cutWorld : World Bridges :=
  ringCuts.foldl (fun w names => (executeAction bridges "networksimulator" (.cut (some names)) w).2)
    ringWorld

theorem ring_round_trip :
    Joined (fun d => d.names.toFinset) "networksimulator"
      (segments "ring" ["Node1", "Node2", "Node3"]) ringStart ringWorld ∧
    (∀ key, cutWorld.networks.lookup key = ringStart.networks.lookup key) ∧
    cutWorld.docker.names.toFinset = ringStart.docker.names.toFinset := by
  have hexit : ∀ name container d, 0 ≤ (bridges.networkConnect name container d).1 := by
    intro name container d
    simp only [bridges]
    split_ifs <;> simp
  have hjoin : Performs bridges "networksimulator" [.join ringObject] ringStart ringWorld :=
    .cons (by decide +kernel) (.nil _)
  have hcuts : Performs bridges "networksimulator" (ringCuts.map fun names => .cut (some names))
      ringWorld cutWorld :=
    .cons (by decide +kernel) (.cons (by decide +kernel) (.cons (by decide +kernel) (.nil _)))
  have hc : ringObject.container = some ["Node1", "Node2", "Node3"] := rfl
  obtain ⟨hjoined, hback⟩ := join_cut_round_trip bridges_lawful rfl .start hexit hc hjoin
  exact ⟨hjoined, hback ringCuts cutWorld hcuts (by decide +kernel)⟩

end

end NetworkJoins
