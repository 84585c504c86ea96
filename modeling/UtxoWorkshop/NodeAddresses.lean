import UtxoWorkshop.PlainText

/-! The addresses that the nodes of an experiment have published, read from their logs: the name
that a log gives leads to the node's container and its addresses, and the identity in the log
completes each of them. The file is given to other nodes word by word. -/
namespace NodeAddresses

open PlainText

/-- A line in which the marker stands somewhere. -/
def Mentions (marker data : String) : Prop := marker.toList <:+: data.toList

instance (marker data : String) : Decidable (Mentions marker data) :=
  inferInstanceAs (Decidable (_ <:+: _))

/-- What `parseFile` knows of the node whose log it reads. -/
structure Parsing where
  name : String
  id : String
  ips : List String
  deriving DecidableEq

section program

variable (script : String → List String)

/-- `script` gives the lines that the shell script prints for a node, none if it cannot be run. -/
def getIps (name : String) : String := String.join ((script name).map fun line => line ++ " ")

def readName (s : Parsing) (data : String) : Option Parsing :=
  if Mentions "Node name:" data then do
    let name ← fromEnd (split data) 1
    pure { s with name := name, ips := split (getIps script name) }
  else some s

def readId (s : Parsing) (data : String) : Option Parsing :=
  if Mentions "Local node identity is:" data then do
    let id ← fromEnd (split data) 4
    pure { s with id := id }
  else some s

/-- `none` is an exception of the array accesses, which nothing catches. -/
def parseLine (s : Parsing) (data : String) : Option Parsing := do
  let s ← readName script s data
  readId s data

def addressText (id ip : String) : String := "/ip4/" ++ ip ++ "/tcp/30333/p2p/" ++ id

/-- What a file adds to the output. A file that is not found has no lines. -/
def parseFile (output : String) (lines : List String) : Option String := do
  let s ← lines.foldlM (parseLine script) { name := "", id := "", ips := [] }
  pure (s.ips.foldl (fun output ip => if ip = "" then output
    else output ++ (addressText s.id ip ++ " ")) output)

/-- The text of `public_addresses.txt`. -/
def retrieveAddresses (files : List (List String)) : Option String :=
  files.foldlM (parseFile script) ""

end program

/-- The name and the identity that a line gives, if it gives one. -/
def nameIn (data : String) : Option String :=
  if Mentions "Node name:" data then fromEnd (split data) 1 else none

def idIn (data : String) : Option String :=
  if Mentions "Local node identity is:" data then fromEnd (split data) 4 else none

def lastName (lines : List String) : Option String := (lines.filterMap nameIn).getLast?

def lastId (lines : List String) : Option String := (lines.filterMap idIn).getLast?

/-- The addresses of the node that a log is of: the ones that its container has, each with the
node's identity. -/
def addresses (script : String → List String) (lines : List String) : List String :=
  (lastName lines).toList.flatMap fun name =>
    (words (getIps script name)).map (addressText ((lastId lines).getD ""))

/-- The line in which a node gives its name, behind a date and a time. -/
structure NameLine where
  front : List String
  name : String
  front_nonempty : front ≠ []
  no_blank : ∀ w ∈ front ++ [name], ' ' ∉ w.toList
  name_nonempty : name ≠ ""

def NameLine.text (l : NameLine) : String :=
  String.intercalate " " (l.front ++ ["Node", "name:"] ++ [l.name])

/-- The line in which a node gives its identity, in the new and in the old form. -/
structure IdLine where
  front : List String
  id : String
  legacy : String
  front_nonempty : front ≠ []
  no_blank : ∀ w ∈ front ++ [id, legacy], ' ' ∉ w.toList
  legacy_nonempty : legacy ≠ ""

def IdLine.text (l : IdLine) : String :=
  String.intercalate " " (l.front ++ ["Local", "node", "identity", "is:"] ++
    [l.id, "(legacy", "representation:", l.legacy])

/-- A log whose last lines of either kind are as a node writes them. -/
structure NodeLog where
  lines : List String
  nameLine : NameLine
  idLine : IdLine
  named : (lines.filter fun data => Mentions "Node name:" data).getLast? = some nameLine.text
  identified : (lines.filter fun data => Mentions "Local node identity is:" data).getLast? =
    some idLine.text

variable {script : String → List String} {data : String}

theorem mentions_split {marker : String} (front : List Char) (c : Char) {k : ℕ} (hc : c ≠ ' ')
    (hmarker : marker.toList = front ++ [c]) (hcount : front.count ' ' + 1 = k) (hk : 1 < k)
    (h : Mentions marker data) : k ≤ (split data).length := by
  obtain ⟨before, after, hdata⟩ := h
  rw [hmarker, List.append_assoc, List.append_assoc, List.singleton_append,
    ← List.append_assoc] at hdata
  have hblank : ' ' ∈ data.toList := by
    rw [← hdata, ← List.count_pos_iff, List.count_append, List.count_append]
    omega
  have hlength := @count_lt_length_split (before ++ front) after c hc
  rw [hdata, List.count_append] at hlength
  rw [split, if_pos hblank, List.length_map]
  omega

theorem exists_fromEnd {temp : List String} {k : ℕ} (hpos : 0 < k) (h : k ≤ temp.length) :
    ∃ w ∈ temp, fromEnd temp k = some w := by
  have hlt : temp.length - k < temp.length := by omega
  exact ⟨_, List.getElem_mem hlt, by rw [fromEnd, if_pos h, List.getElem?_eq_getElem hlt]⟩

/-- The pattern of a line has as many words as its array accesses need. -/
theorem exists_name (h : Mentions "Node name:" data) :
    ∃ name, fromEnd (split data) 1 = some name ∧ ' ' ∉ name.toList := by
  have hlength : 2 ≤ (split data).length :=
    mentions_split "Node name".toList ':' (by decide) (by decide +kernel) (by decide +kernel)
      (by decide) h
  obtain ⟨name, hmem, hname⟩ := exists_fromEnd (by decide) (by omega : 1 ≤ (split data).length)
  exact ⟨name, hname, split_no_blank hmem⟩

theorem exists_id (h : Mentions "Local node identity is:" data) :
    ∃ id, fromEnd (split data) 4 = some id ∧ ' ' ∉ id.toList := by
  have hlength : 4 ≤ (split data).length :=
    mentions_split "Local node identity is".toList ':' (by decide) (by decide +kernel)
      (by decide +kernel) (by decide) h
  obtain ⟨id, hmem, hid⟩ := exists_fromEnd (by decide) hlength
  exact ⟨id, hid, split_no_blank hmem⟩

/-- A line changes what it gives. -/
def afterLine (script : String → List String) (s : Parsing) (data : String) : Parsing where
  name := (nameIn data).getD s.name
  id := (idIn data).getD s.id
  ips := ((nameIn data).map fun name => split (getIps script name)).getD s.ips

theorem readName_eq (s : Parsing) (data : String) : readName script s data =
    some { afterLine script s data with id := s.id } := by
  by_cases h : Mentions "Node name:" data
  · obtain ⟨name, hname, -⟩ := exists_name h
    simp [readName, afterLine, nameIn, h, hname]
  · simp [readName, afterLine, nameIn, h]

theorem readId_eq (s : Parsing) (data : String) :
    readId s data = some { s with id := (idIn data).getD s.id } := by
  by_cases h : Mentions "Local node identity is:" data
  · obtain ⟨id, hid, -⟩ := exists_id h
    simp [readId, idIn, h, hid]
  · simp [readId, idIn, h]

/-- No line ends the program. -/
theorem parse_lines (s : Parsing) (lines : List String) :
    lines.foldlM (parseLine script) s = some (lines.foldl (afterLine script) s) := by
  induction lines generalizing s with
  | nil => rfl
  | cons data lines ih =>
    have hline : parseLine script s data = some (afterLine script s data) := by
      rw [parseLine, readName_eq, Option.bind_eq_bind, Option.bind_some, readId_eq]
      rfl
    rw [List.foldlM_cons, hline, Option.bind_eq_bind, Option.bind_some, ih, List.foldl_cons]

/-- The last line of each kind counts. -/
theorem afterLines (s : Parsing) (lines : List String) :
    (lines.foldl (afterLine script) s).id = (lastId lines).getD s.id ∧
    (lines.foldl (afterLine script) s).ips =
      ((lastName lines).map fun name => split (getIps script name)).getD s.ips := by
  induction lines using List.reverseRecOn with
  | nil => exact ⟨rfl, rfl⟩
  | append_singleton lines data ih =>
    rw [List.foldl_append, List.foldl_cons, List.foldl_nil, lastId, lastName,
      List.filterMap_append, List.filterMap_append, List.getLast?_append, List.getLast?_append]
    constructor
    · cases h : idIn data <;> simp [afterLine, h, ih.1, lastId]
    · cases h : nameIn data <;> simp [afterLine, h, ih.2, lastName]

theorem parseFile_eq (output : String) (lines : List String) : parseFile script output lines =
    some (output ++ String.join ((addresses script lines).map fun address => address ++ " ")) := by
  obtain ⟨hid, hips⟩ := @afterLines script { name := "", id := "", ips := [] } lines
  have hadded := foldl_filter_text (· ≠ "")
    (fun ip => addressText ((lastId lines).getD "") ip ++ " ")
  simp only [ne_eq, ite_not] at hadded
  rw [parseFile, parse_lines, Option.bind_eq_bind, Option.bind_some, hid, hips, hadded,
    Option.pure_def, addresses]
  cases lastName lines with
  | none => simp
  | some name =>
    have hwords := filter_split (getIps script name)
    simp only [ne_eq] at hwords
    simp only [Option.map_some, Option.getD_some, Option.toList_some, List.flatMap_singleton,
      List.map_map, Function.comp_def, hwords]

theorem lastId_no_blank (lines : List String) : ' ' ∉ ((lastId lines).getD "").toList := by
  cases h : lastId lines with
  | none =>
    rw [Option.getD_none]
    decide +kernel
  | some id =>
    obtain ⟨data, -, hdata⟩ := List.mem_filterMap.mp (List.mem_of_getLast? h)
    rw [idIn] at hdata
    split_ifs at hdata with hmentions
    obtain ⟨id', hid, hblank⟩ := exists_id hmentions
    rw [hdata] at hid
    rwa [Option.getD_some, Option.some.inj hid]

theorem addresses_visible {lines : List String} {address : String}
    (h : address ∈ addresses script lines) : address ≠ "" ∧ ' ' ∉ address.toList := by
  obtain ⟨name, -, hmem⟩ := List.mem_flatMap.mp h
  obtain ⟨ip, hip, rfl⟩ := List.mem_map.mp hmem
  have hblank : ' ' ∉ ip.toList := words_no_blank hip
  have hid := lastId_no_blank lines
  have hfront : ' ' ∉ "/ip4/".toList := by decide +kernel
  have hmiddle : ' ' ∉ "/tcp/30333/p2p/".toList := by decide +kernel
  constructor
  · intro hempty
    have hlist := congrArg String.toList hempty
    have hslash : "/ip4/".toList = ['/', 'i', 'p', '4', '/'] := by decide +kernel
    simp [addressText, String.toList_append, hslash] at hlist
  · simp only [addressText, String.toList_append, List.mem_append, not_or]
    exact ⟨⟨⟨hfront, hblank⟩, hmiddle⟩, hid⟩

theorem retrieveAddresses_eq (files : List (List String)) : retrieveAddresses script files =
    some (String.join ((files.flatMap (addresses script)).map fun address => address ++ " ")) := by
  rw [retrieveAddresses]
  have hrun : ∀ output, files.foldlM (parseFile script) output = some (output ++
      String.join ((files.flatMap (addresses script)).map fun address => address ++ " ")) := by
    induction files with
    | nil => simp
    | cons lines files ih =>
      intro output
      rw [List.foldlM_cons, parseFile_eq, Option.bind_eq_bind, Option.bind_some, ih,
        List.flatMap_cons, List.map_append, String.join_append, String.append_assoc]
  rw [hrun, String.empty_append]

theorem mentions_text {front middle back : List String} (hfront : front ≠ []) (hmiddle : middle ≠ [])
    (hback : back ≠ []) : Mentions (String.intercalate " " middle)
      (String.intercalate " " (front ++ middle ++ back)) := by
  have hne : front ++ middle ≠ [] := by simp [hfront]
  refine ⟨(String.intercalate " " front ++ " ").toList, (" " ++ String.intercalate " " back).toList,
    ?_⟩
  rw [String.intercalate_append_of_ne_nil hne hback,
    String.intercalate_append_of_ne_nil hfront hmiddle]
  simp only [String.toList_append, List.append_assoc]

theorem NameLine.split_text (l : NameLine) : split l.text = l.front ++ ["Node", "name:", l.name] := by
  have hwords : ∀ w ∈ ["Node", "name:"], ' ' ∉ w.toList := by decide +kernel
  have hsplit : split l.text = l.front ++ ["Node", "name:"] ++ [l.name] := by
    apply split_intercalate
    · intro w hw
      simp only [List.append_assoc, List.mem_append] at hw
      rcases hw with hw | hw | hw
      · exact l.no_blank w (List.mem_append_left _ hw)
      · exact hwords w hw
      · exact l.no_blank w (List.mem_append_right _ hw)
    · exact l.name_nonempty
    · simp
  rw [hsplit, List.append_assoc]
  rfl

theorem NameLine.fromEnd_split (l : NameLine) : fromEnd (split l.text) 1 = some l.name := by
  have hend := fromEnd_append (l.front ++ ["Node", "name:"]) l.name []
  rw [List.append_assoc] at hend
  rw [split_text]
  exact hend

theorem NameLine.nameIn_text (l : NameLine) : nameIn l.text = some l.name := by
  have hmark : "Node name:" = String.intercalate " " ["Node", "name:"] := by decide +kernel
  have hmentions : Mentions "Node name:" l.text := by
    rw [hmark]
    exact mentions_text l.front_nonempty (by simp) (by simp)
  rw [nameIn, if_pos hmentions, fromEnd_split]

theorem IdLine.idIn_text (l : IdLine) : idIn l.text = some l.id := by
  have hmark : "Local node identity is:" =
      String.intercalate " " ["Local", "node", "identity", "is:"] := by decide +kernel
  have hwords : ∀ w ∈ ["Local", "node", "identity", "is:", "(legacy", "representation:"],
      ' ' ∉ w.toList := by decide +kernel
  have hmentions : Mentions "Local node identity is:" l.text := by
    rw [hmark]
    exact mentions_text l.front_nonempty (by simp) (by simp)
  have hsplit : split l.text = l.front ++ ["Local", "node", "identity", "is:", l.id, "(legacy",
      "representation:"] ++ [l.legacy] := by
    have htext : l.text = String.intercalate " " (l.front ++ ["Local", "node", "identity", "is:",
        l.id, "(legacy", "representation:"] ++ [l.legacy]) := by
      simp [text]
    rw [htext]
    apply split_intercalate
    · intro w hw
      simp only [List.mem_append, List.mem_cons, List.not_mem_nil, or_false] at hw
      rcases hw with (hw | rfl | rfl | rfl | rfl | rfl | rfl | rfl) | rfl
      · exact l.no_blank w (by simp [hw])
      · exact hwords _ (by simp)
      · exact hwords _ (by simp)
      · exact hwords _ (by simp)
      · exact hwords _ (by simp)
      · exact l.no_blank _ (by simp)
      · exact hwords _ (by simp)
      · exact hwords _ (by simp)
      · exact l.no_blank _ (by simp)
    · exact l.legacy_nonempty
    · simp
  rw [idIn, if_pos hmentions, hsplit]
  have hend := fromEnd_append (l.front ++ ["Local", "node", "identity", "is:"]) l.id
    ["(legacy", "representation:", l.legacy]
  simpa using hend

/-- The last line that mentions something is the last that gives something. -/
theorem last_given {give : String → Option String} {marker w : String} {lines : List String}
    (hnone : ∀ data, ¬Mentions marker data → give data = none)
    (hlast : (lines.filter fun data => Mentions marker data).getLast? = some data)
    (hgive : give data = some w) : (lines.filterMap give).getLast? = some w := by
  have hsame : lines.filterMap give =
      (lines.filter fun data => Mentions marker data).filterMap give := by
    rw [List.filterMap_filter]
    apply List.filterMap_congr
    intro data _
    by_cases h : Mentions marker data
    · simp [h]
    · simp [h, hnone data h]
  obtain ⟨front, hfront⟩ := List.getLast?_eq_some_iff.mp hlast
  rw [hsame, hfront, List.filterMap_append]
  simp [hgive]

/-- Whatever the logs are, the words of the file are their addresses, log by log, and the log of a
node gives each address of the node's container the node's identity. -/
theorem addresses_retrieved (script : String → List String) :
    (∀ files, ∃ output, retrieveAddresses script files = some output ∧
      words output = files.flatMap (addresses script)) ∧
    ∀ log : NodeLog,
      (∀ ip ∈ script log.nameLine.name, ip ≠ "" ∧ ' ' ∉ ip.toList) →
      addresses script log.lines =
        (script log.nameLine.name).map (addressText log.idLine.id) := by
  constructor
  · intro files
    refine ⟨_, retrieveAddresses_eq files, words_join fun address hmem => ?_⟩
    obtain ⟨lines, -, haddress⟩ := List.mem_flatMap.mp hmem
    exact addresses_visible haddress
  · intro log hips
    have hname : lastName log.lines = some log.nameLine.name :=
      last_given (fun data h => if_neg h) log.named log.nameLine.nameIn_text
    have hid : lastId log.lines = some log.idLine.id :=
      last_given (fun data h => if_neg h) log.identified log.idLine.idIn_text
    rw [addresses, hname, hid, Option.toList_some, List.flatMap_singleton, getIps,
      words_join hips, Option.getD_some]

def node2Name : NameLine where
  front := ["2020-11-09", "10:00:00"]
  name := "Node2"
  front_nonempty := by decide
  no_blank := by decide +kernel
  name_nonempty := by decide +kernel

def node2Id : IdLine where
  front := ["2020-11-09", "10:00:00"]
  id := "12D3KooWQHqsciroFcWgL5EZEbDYuxWAZwiB8JrQcZ7wkHv2CtLm"
  legacy := "QmNode2)"
  front_nonempty := by decide
  no_blank := by decide +kernel
  legacy_nonempty := by decide +kernel

/-- The log of a node that was started twice. -/
def node2Log : NodeLog where
  lines := ["2020-11-09 09:59:00 Node name: Random-Node-7", node2Name.text,
    "2020-11-09 10:00:00 Role: FULL", node2Id.text]
  nameLine := node2Name
  idLine := node2Id
  named := by decide +kernel
  identified := by decide +kernel

def containerIps (name : String) : List String :=
  if name = "Node2" then ["172.27.0.5", "172.28.0.2"] else []

theorem node2_retrieved : ∃ output, retrieveAddresses containerIps [node2Log.lines] = some output ∧
    words output = ["172.27.0.5", "172.28.0.2"].map (addressText node2Id.id) := by
  have hips : ∀ ip ∈ containerIps node2Log.nameLine.name, ip ≠ "" ∧ ' ' ∉ ip.toList := by
    decide +kernel
  obtain ⟨hfiles, hlogs⟩ := addresses_retrieved containerIps
  obtain ⟨output, houtput, hwords⟩ := hfiles [node2Log.lines]
  refine ⟨output, houtput, ?_⟩
  rw [hwords, List.flatMap_singleton, hlogs node2Log hips]
  rfl

end NodeAddresses
