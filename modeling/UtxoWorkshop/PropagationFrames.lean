import UtxoWorkshop.NetworkLogs
import UtxoWorkshop.NodeAddresses
import UtxoWorkshop.PropagationCurves

/-! The animation of a block's way through the network: the logs are read a second time, now with
the number of the node that each of them is of, and every frame marks the nodes that have imported
the block by its time. -/
namespace PropagationFrames

open PlainText NodeAddresses NetworkLogs PropagationCurves

/-- The time of an import in milliseconds, and the node. -/
abbrev Entry := ℤ × ℤ

/-- What `parseFileWithID` holds while it reads. -/
structure IdReading where
  timestampsWithId : List (List Entry)
  name : String
  id : ℤ
  deriving DecidableEq

/-- The handler around the loop prints an exception and gives the file up. -/
abbrev Reads := EStateM Unit IdReading

def orGiveUp {α : Type} (o : Option α) : Reads α :=
  match o with
  | some a => pure a
  | none => throw ()

/-- `\s` -/
def isSpace (c : Char) : Bool :=
  c == ' ' || c == '\t' || c == '\n' || c == '\x0b' || c == '\x0c' || c == '\r'

/-- `.*(Node name: )\S*$` matches a line that ends in one word behind `Node name: `. -/
def nameLinePattern (data : String) : Bool :=
  data.toList.tails.any fun rest =>
    "Node name: ".toList.isPrefixOf rest && (rest.drop 11).all fun c => !isSpace c

/-- `Integer.parseInt(name.substring(4))` -/
def idOfName (name : String) : Option ℤ :=
  if 4 ≤ name.toList.length then parseInt (String.ofList (name.toList.drop 4)) else none

def readName (data : String) : Reads Unit := do
  let r ← get
  if r.name = "" ∧ nameLinePattern data then
    let name ← orGiveUp (fromEnd (split data) 1)
    modify fun r => { r with name := name }
    let id ← orGiveUp (idOfName name)
    modify fun r => { r with id := id }

/-- `get(block - 1).add(entry)` -/
def addEntry (table : List (List Entry)) (block : ℤ) (entry : Entry) :
    Option (List (List Entry)) :=
  if 1 ≤ block then
    (table[(block - 1).toNat]?).map fun times => table.set (block - 1).toNat (times ++ [entry])
  else none

def readImport (parse : String → Option ℤ) (data : String) : Reads Unit := do
  if importedPattern data then
    let temp := split data
    let word ← orGiveUp (fromEnd temp 2)
    let digits ← orGiveUp word.toList.tail?
    let block ← orGiveUp (parseInt (String.ofList digits))
    modify fun r => { r with timestampsWithId := growTo r.timestampsWithId block }
    let time ← orGiveUp temp[1]?
    let ms ← orGiveUp (parse time)
    let r ← get
    let table ← orGiveUp (addEntry r.timestampsWithId block (ms, r.id))
    set { r with timestampsWithId := table }

def readLine (parse : String → Option ℤ) (data : String) : Reads Unit := do
  readName data
  readImport parse data

def afterReading : EStateM.Result Unit IdReading Unit → List (List Entry)
  | .ok _ r => r.timestampsWithId
  | .error _ r => r.timestampsWithId

def parseFileWithID (parse : String → Option ℤ) (table : List (List Entry)) (lines : List String) :
    List (List Entry) :=
  afterReading ((lines.forM (readLine parse)).run
    { timestampsWithId := table, name := "", id := -1 })

def parseFilesWithID (parse : String → Option ℤ) (files : List (List String)) :
    List (List Entry) :=
  files.foldl (parseFileWithID parse) []

/-- The smallest time, the largest time and the largest node, from the values of `Integer` on. -/
def minTime (times : List Entry) : ℤ :=
  times.foldl (fun least item => if item.1 < least then item.1 else least) (2 ^ 31 - 1)

def maxTime (times : List Entry) : ℤ :=
  times.foldl (fun most item => if most < item.1 then item.1 else most) (-2 ^ 31)

def biggestId (times : List Entry) : ℤ :=
  times.foldl (fun most item => if most < item.2 then item.2 else most) (-2 ^ 31)

def frameCount : ℤ := 10

def msPerFrame (times : List Entry) : ℤ :=
  toInt (toInt ((maxTime times - minTime times).tdiv frameCount) + 1)

def markItem (ms : ℤ) (state : List ℕ) (item : Entry) : Option (List ℕ) :=
  if item.1 ≤ ms then
    if 0 ≤ item.2 ∧ item.2 < state.length then some (state.set item.2.toNat 1) else none
  else some state

/-- One frame, over the times from the first on; `none` is an exception. -/
def frame (times : List Entry) (biggest ms : ℤ) : Option (List ℕ) :=
  if 0 ≤ toInt (biggest + 1) then
    times.foldlM (markItem ms) (List.replicate (toInt (biggest + 1)).toNat 0)
  else none

def frames (times : List Entry) : List (Option (List ℕ)) :=
  let shifted := times.map fun item => (item.1 - minTime times, item.2)
  (List.range 11).map fun (i : ℕ) => frame shifted (biggestId times) (toInt (i * msPerFrame times))

def frameText (state : List ℕ) : String := String.intercalate " " (state.map toString) ++ "\n"

/-- The text that has been written, and whether the writer was closed. -/
structure GifFile where
  text : String
  closed : Bool
  deriving DecidableEq

def makeGif (times : List Entry) : GifFile where
  text := String.join ((((frames times).takeWhile Option.isSome).filterMap id).map frameText)
  closed := (frames times).all Option.isSome

/-- The node has imported by then. -/
def Imported (times : List Entry) (ms : ℤ) (n : ℕ) : Prop := ∃ e ∈ times, e.2 = n ∧ e.1 ≤ ms

instance (times : List Entry) (ms : ℤ) (n : ℕ) : Decidable (Imported times ms n) :=
  inferInstanceAs (Decidable (∃ e ∈ times, e.2 = n ∧ e.1 ≤ ms))

/-- The frame that it should be. -/
def marks (times : List Entry) (size : ℕ) (ms : ℤ) : List ℕ :=
  (List.range size).map fun n => if Imported times ms n then 1 else 0

variable {parse : String → Option ℤ} {times : List Entry} {ms : ℤ}

theorem imported_cons (item : Entry) (items : List Entry) (ms : ℤ) (n : ℕ) :
    Imported (item :: items) ms n ↔ item.2 = n ∧ item.1 ≤ ms ∨ Imported items ms n :=
  List.exists_mem_cons_iff ..

theorem markItems (ms : ℤ) {items : List Entry} {state : List ℕ}
    (h : ∀ e ∈ items, 0 ≤ e.2 ∧ e.2 < state.length) : ∃ state',
      items.foldlM (markItem ms) state = some state' ∧
      ∀ n : ℕ, state'[n]? = if Imported items ms n then (state[n]?).map fun _ => 1
        else state[n]? := by
  induction items generalizing state with
  | nil => exact ⟨state, rfl, by simp [Imported]⟩
  | cons item items ih =>
    obtain ⟨hitem, hitems⟩ := List.forall_mem_cons.mp h
    by_cases hms : item.1 ≤ ms
    · obtain ⟨state', hrun, hget⟩ := @ih (state.set item.2.toNat 1) (by simpa using hitems)
      refine ⟨state', ?_, fun n => ?_⟩
      · rw [List.foldlM_cons, markItem, if_pos hms, if_pos hitem]
        exact hrun
      · have hindex : item.2.toNat = n ↔ item.2 = n := by omega
        rw [hget, List.getElem?_set']
        by_cases hn : item.2 = n
        · rw [if_pos (hindex.mpr hn), if_pos ((imported_cons ..).mpr (.inl ⟨hn, hms⟩))]
          cases state[n]? <;> split_ifs <;> rfl
        · rw [if_neg (mt hindex.mp hn)]
          simp only [imported_cons, hn, false_and, false_or]
    · obtain ⟨state', hrun, hget⟩ := ih hitems
      refine ⟨state', ?_, fun n => ?_⟩
      · rw [List.foldlM_cons, markItem, if_neg hms]
        exact hrun
      · rw [hget]
        simp only [imported_cons, hms, and_false, false_or]

theorem frame_eq {biggest : ℤ} (hsize : 0 ≤ biggest ∧ biggest < 2 ^ 31 - 1)
    (h : ∀ e ∈ times, 0 ≤ e.2 ∧ e.2 ≤ biggest) (ms : ℤ) :
    frame times biggest ms = some (marks times (biggest + 1).toNat ms) := by
  have hint : toInt (biggest + 1) = biggest + 1 := toInt_eq (by omega) (by omega)
  have hlength : (List.replicate (biggest + 1).toNat 0).length = (biggest + 1).toNat :=
    List.length_replicate
  obtain ⟨state', hrun, hget⟩ := @markItems ms times (List.replicate (biggest + 1).toNat 0)
    (by
      intro e he
      have hid := h e he
      rw [hlength]
      omega)
  rw [frame, hint, if_pos (by omega), hrun]
  apply congrArg
  apply List.ext_getElem?
  intro n
  rw [hget, marks, List.getElem?_map, List.getElem?_replicate]
  by_cases hn : n < (biggest + 1).toNat
  · rw [List.getElem?_range hn, if_pos hn, Option.map_some, Option.map_some]
    split_ifs <;> rfl
  · rw [List.getElem?_eq_none (by simpa using hn), if_neg hn]
    split_ifs <;> rfl

/-- A loop that keeps the better of two values ends with the best. -/
theorem foldl_best {R : ℤ → ℤ → Prop} [DecidableRel R] (hasymm : ∀ x y, R x y → ¬R y x)
    (htrans : ∀ x y z, ¬R x y → ¬R y z → ¬R x z) (f : Entry → ℤ) (items : List Entry) (a : ℤ) :
    let best := items.foldl (fun best item => if R (f item) best then f item else best) a
    ¬R a best ∧ (∀ e ∈ items, ¬R (f e) best) ∧ (best = a ∨ ∃ e ∈ items, f e = best) := by
  have hirrefl : ∀ x, ¬R x x := fun x h => hasymm x x h h
  induction items generalizing a with
  | nil => exact ⟨hirrefl a, by simp, .inl rfl⟩
  | cons item items ih =>
    obtain ⟨hfirst, hitems, hbest⟩ := ih (if R (f item) a then f item else a)
    rw [List.foldl_cons]
    by_cases h : R (f item) a
    · rw [if_pos h] at hfirst hitems hbest ⊢
      refine ⟨htrans _ _ _ (hasymm _ _ h) hfirst, List.forall_mem_cons.mpr ⟨hfirst, hitems⟩, ?_⟩
      rcases hbest with hbest | ⟨e, he, hbest⟩
      · exact .inr ⟨item, List.mem_cons_self, hbest.symm⟩
      · exact .inr ⟨e, List.mem_cons_of_mem _ he, hbest⟩
    · rw [if_neg h] at hfirst hitems hbest ⊢
      refine ⟨hfirst, List.forall_mem_cons.mpr ⟨htrans _ _ _ h hfirst, hitems⟩, ?_⟩
      exact hbest.imp_right fun ⟨e, he, hbest⟩ => ⟨e, List.mem_cons_of_mem _ he, hbest⟩

/-- Times of one day and numbers of nodes. -/
structure OneDay (midnight : ℤ) (times : List Entry) : Prop where
  low : -2 ^ 31 ≤ midnight
  high : midnight + 86400000 < 2 ^ 31
  time : ∀ e ∈ times, midnight ≤ e.1 ∧ e.1 < midnight + 86400000
  node : ∀ e ∈ times, 0 ≤ e.2 ∧ e.2 < 2 ^ 31 - 1

variable {midnight : ℤ}

theorem OneDay.time_int (h : OneDay midnight times) : ∀ e ∈ times, -2 ^ 31 ≤ e.1 :=
  fun e he => le_trans h.low (h.time e he).1

theorem OneDay.node_int (h : OneDay midnight times) : ∀ e ∈ times, -2 ^ 31 ≤ e.2 :=
  fun e he => le_trans (by omega) (h.node e he).1

theorem minTime_spec (h : OneDay midnight times) (hne : times ≠ []) :
    (∃ e ∈ times, e.1 = minTime times) ∧ ∀ e ∈ times, minTime times ≤ e.1 := by
  obtain ⟨-, hleast, hbest⟩ := foldl_best (R := (· < ·)) (fun x y => lt_asymm)
    (fun x y z hxy hyz => by omega) Prod.fst times (2 ^ 31 - 1)
  refine ⟨?_, fun e he => not_lt.mp (hleast e he)⟩
  rcases hbest with hbest | hbest
  · obtain ⟨e, he⟩ := List.exists_mem_of_ne_nil times hne
    have hlt := not_lt.mp (hleast e he)
    have hday := h.time e he
    have hhigh := h.high
    rw [hbest] at hlt
    omega
  · exact hbest

theorem most_spec {f : Entry → ℤ} (hlow : ∀ e ∈ times, -2 ^ 31 ≤ f e) (hne : times ≠ []) :
    let best := times.foldl (fun most item => if most < f item then f item else most) (-2 ^ 31)
    (∃ e ∈ times, f e = best) ∧ ∀ e ∈ times, f e ≤ best := by
  obtain ⟨-, hmost, hbest⟩ := foldl_best (R := fun x y => y < x) (fun x y h => lt_asymm h)
    (fun x y z hxy hyz => by omega) f times (-2 ^ 31)
  refine ⟨?_, fun e he => not_lt.mp (hmost e he)⟩
  rcases hbest with hbest | hbest
  · obtain ⟨e, he⟩ := List.exists_mem_of_ne_nil times hne
    have hle := not_lt.mp (hmost e he)
    rw [hbest] at hle ⊢
    exact ⟨e, he, le_antisymm hle (hlow e he)⟩
  · exact hbest

/-- Eleven pictures of all nodes, in equal steps from the first import until all have been. -/
structure Animates (times : List Entry) (first step : ℤ) (rows : List (List ℕ)) : Prop where
  count : rows.length = 11
  starts : ∃ e ∈ times, e.1 = first
  span : ∀ e ∈ times, first ≤ e.1 ∧ e.1 < first + 10 * step
  wide : ∀ row ∈ rows, ∀ e ∈ times, e.2 < row.length
  entry : ∀ (i n : ℕ) row v, rows[i]? = some row → row[n]? = some v →
    v = if Imported times (first + i * step) n then 1 else 0

theorem imported_shift (times : List Entry) (first ms : ℤ) (n : ℕ) :
    Imported (times.map fun item => (item.1 - first, item.2)) ms n ↔
      Imported times (first + ms) n := by
  constructor
  · rintro ⟨e, he, hnode, htime⟩
    obtain ⟨item, hitem, rfl⟩ := List.mem_map.mp he
    have htime : item.1 - first ≤ ms := htime
    exact ⟨item, hitem, hnode, by omega⟩
  · rintro ⟨item, hitem, hnode, htime⟩
    exact ⟨_, List.mem_map_of_mem hitem, hnode, show item.1 - first ≤ ms by omega⟩

/-- The division drops the rest, and the step is one more than the quotient. -/
theorem msPerFrame_spec (h : OneDay midnight times) (hne : times ≠ []) :
    0 < msPerFrame times ∧ msPerFrame times ≤ 8640000 ∧
      maxTime times < minTime times + 10 * msPerFrame times := by
  obtain ⟨⟨first, hfirst, hmin⟩, hleast⟩ := minTime_spec h hne
  obtain ⟨⟨last, hlast, hmax⟩, -⟩ := most_spec h.time_int hne
  have hfirstDay := h.time first hfirst
  have hlastDay := h.time last hlast
  have hspan := hleast last hlast
  have hmax : last.1 = maxTime times := hmax
  have hstep : msPerFrame times = (maxTime times - minTime times) / 10 + 1 := by
    rw [msPerFrame, frameCount, Int.tdiv_eq_ediv_of_nonneg (by omega), toInt_eq (v := _ / 10),
      toInt_eq] <;> omega
  rw [hstep]
  omega

theorem frames_eq (h : OneDay midnight times) (hne : times ≠ []) : frames times =
    ((List.range 11).map fun (i : ℕ) => marks times (biggestId times + 1).toNat
      (minTime times + i * msPerFrame times)).map some := by
  obtain ⟨hpos, hstep, -⟩ := msPerFrame_spec h hne
  obtain ⟨⟨biggest, hbiggest, hid⟩, hmost⟩ := most_spec h.node_int hne
  have hnode := h.node biggest hbiggest
  have hid : biggest.2 = biggestId times := hid
  have hmost : ∀ e ∈ times, e.2 ≤ biggestId times := hmost
  rw [frames, List.map_map]
  apply List.map_congr_left
  intro i hi
  have hi := List.mem_range.mp hi
  have hms : 0 ≤ i * msPerFrame times ∧ i * msPerFrame times < 2 ^ 31 := by
    have hlow : (0 : ℤ) ≤ i * msPerFrame times := Int.mul_nonneg (by omega) hpos.le
    have hhigh : i * msPerFrame times ≤ 10 * 8640000 :=
      Int.mul_le_mul (by omega) hstep hpos.le (by omega)
    omega
  rw [toInt_eq (by omega) hms.2, frame_eq (by omega)]
  · simp only [Function.comp_apply, marks, imported_shift]
  · intro e he
    obtain ⟨item, hitem, rfl⟩ := List.mem_map.mp he
    exact ⟨(h.node item hitem).1, hmost item hitem⟩

theorem makeGif_animates (h : OneDay midnight times) (hne : times ≠ []) : ∃ rows first step,
    makeGif times = { text := String.join (rows.map frameText), closed := true } ∧
    Animates times first step rows := by
  obtain ⟨hpos, hstep, hspan⟩ := msPerFrame_spec h hne
  obtain ⟨hfirst, hleast⟩ := minTime_spec h hne
  obtain ⟨-, hmost⟩ := most_spec h.time_int hne
  obtain ⟨-, hids⟩ := most_spec h.node_int hne
  refine ⟨(List.range 11).map fun (i : ℕ) => marks times (biggestId times + 1).toNat
    (minTime times + i * msPerFrame times), minTime times, msPerFrame times, ?_, ?_⟩
  · have hall : ∀ row ∈ frames times, row.isSome := by
      rw [frames_eq h hne]
      simp
    rw [makeGif, List.takeWhile_eq_self_iff.mpr hall, List.all_eq_true.mpr hall, frames_eq h hne]
    simp only [List.filterMap_map, Function.comp_def, id_eq, List.filterMap_eq_map']
  · refine ⟨by simp, hfirst, ?_, ?_, ?_⟩
    · intro e he
      have hlast : e.1 ≤ maxTime times := hmost e he
      exact ⟨hleast e he, by omega⟩
    · intro row hrow e he
      obtain ⟨i, -, rfl⟩ := List.mem_map.mp hrow
      have hid : e.2 ≤ biggestId times := hids e he
      rw [marks, List.length_map, List.length_range]
      omega
    · intro i n row v hrow hv
      rw [List.getElem?_map] at hrow
      obtain ⟨i', hi, rfl⟩ := Option.map_eq_some_iff.mp hrow
      obtain ⟨hlt, rfl⟩ := List.getElem?_eq_some_iff.mp hi
      rw [List.getElem_range, marks, List.getElem?_map] at hv
      obtain ⟨n', hn, rfl⟩ := Option.map_eq_some_iff.mp hv
      obtain ⟨hlt', rfl⟩ := List.getElem?_eq_some_iff.mp hn
      rw [List.getElem_range]

/-- The log of a node: its name comes before its first import. -/
structure NodeFile where
  before : List String
  nameLine : NameLine
  number : ℕ
  lines : LogFile
  quiet : ∀ data ∈ before, nameLinePattern data = false ∧ importedPattern data = false
  named : nameLine.name = "Node" ++ toString number
  silent : importedPattern nameLine.text = false
  number_int : number < 2 ^ 31 - 1

def NodeFile.text (f : NodeFile) : List String :=
  f.before ++ f.nameLine.text :: f.lines.map LogLine.text

/-- The imports of a block in the lines of a node. -/
def entries (parse : String → Option ℤ) (id : ℤ) (lines : LogFile) (n : ℕ) : List Entry :=
  (lines.filterMap (LogLine.timeOf n)).filterMap fun time => (parse time).map fun ms => (ms, id)

variable {r : IdReading} {data : String}

theorem readName_skip (h : r.name ≠ "" ∨ nameLinePattern data = false) :
    (readName data).run r = .ok () r := by
  have hskip : ¬(r.name = "" ∧ nameLinePattern data) := by
    rintro ⟨hname, hmatch⟩
    rcases h with h | h
    · exact h hname
    · rw [h] at hmatch
      cases hmatch
  simp [readName, EStateM.run_bind, hskip]

theorem readImport_skip (h : importedPattern data = false) :
    (readImport parse data).run r = .ok () r := by
  simp [readImport, h]

theorem readLine_skip (hname : r.name ≠ "" ∨ nameLinePattern data = false)
    (himport : importedPattern data = false) : (readLine parse data).run r = .ok () r := by
  rw [readLine, EStateM.run_bind, readName_skip hname]
  exact readImport_skip himport

theorem idOfName_node {n : ℕ} (hn : n < 2 ^ 31) : idOfName ("Node" ++ toString n) = some (n : ℤ) := by
  have hnode : "Node".toList = ['N', 'o', 'd', 'e'] := by decide +kernel
  have htext : ("Node" ++ toString n).toList = ['N', 'o', 'd', 'e'] ++ (toString n).toList := by
    rw [String.toList_append, hnode]
  have hdrop : ("Node" ++ toString n).toList.drop 4 = (toString n).toList := by
    rw [htext]
    rfl
  have hlength : 4 ≤ ("Node" ++ toString n).toList.length := by
    rw [htext, List.length_append]
    exact Nat.le_add_right _ _
  rw [idOfName, if_pos hlength, hdrop, String.ofList_toList, parseInt_toString hn]

/-- The name has no blank of any kind in it. -/
theorem nameLinePattern_text (l : NameLine) {n : ℕ} (hname : l.name = "Node" ++ toString n) :
    nameLinePattern l.text := by
  have hmark : "Node name: ".toList = (String.intercalate " " ["Node", "name:"]).toList ++
      " ".toList := by decide +kernel
  have htext : l.text.toList = (String.intercalate " " l.front).toList ++ " ".toList ++
      ("Node name: ".toList ++ l.name.toList) := by
    rw [NameLine.text, String.intercalate_append_of_ne_nil (by simp) (by simp),
      String.intercalate_append_of_ne_nil l.front_nonempty (by simp), hmark,
      String.intercalate_singleton]
    simp [String.toList_append]
  apply List.any_eq_true.mpr
  refine ⟨_, (List.mem_tails _ _).mpr ⟨_, htext.symm⟩, ?_⟩
  rw [Bool.and_eq_true, List.isPrefixOf_iff_prefix, List.drop_left' (by decide +kernel)]
  refine ⟨List.prefix_append _ _, List.all_eq_true.mpr fun c hc => ?_⟩
  rw [hname, String.toList_append, List.mem_append] at hc
  rcases hc with hc | hc
  · have hnode : "Node".toList.all fun c => !isSpace c := by decide +kernel
    exact List.all_eq_true.mp hnode c hc
  · have hdigit := isDigit_of_mem hc
    rw [Bool.not_eq_true', isSpace]
    by_contra hspace
    simp only [Bool.not_eq_false, Bool.or_eq_true, beq_iff_eq] at hspace
    rcases hspace with ((((rfl | rfl) | rfl) | rfl) | rfl) | rfl <;> cases hdigit

theorem readName_run (hname : r.name = "") (l : NameLine) {n : ℕ} (hn : n < 2 ^ 31)
    (hnamed : l.name = "Node" ++ toString n) :
    (readName l.text).run r = .ok () { r with name := l.name, id := n } := by
  have hid : idOfName l.name = some (n : ℤ) := by rw [hnamed, idOfName_node hn]
  simp [readName, EStateM.run_bind, hname, nameLinePattern_text l hnamed, l.fromEnd_split, hid,
    orGiveUp]

/-- The table with one more entry for a block. -/
def recorded (table : List (List Entry)) (n : ℕ) (entry : Entry) : List (List Entry) :=
  (growTo table n).set (n - 1) (table[n - 1]?.getD [] ++ [entry])

theorem addEntry_grown {n : ℕ} (hn : 1 ≤ n) (table : List (List Entry)) (entry : Entry) :
    addEntry (growTo table n) n entry = some (recorded table n entry) := by
  have hlt : n - 1 < (growTo table n).length := by
    rw [length_growTo]
    omega
  have hindex : ((n : ℤ) - 1).toNat = n - 1 := by omega
  have hget : (growTo table n)[n - 1]? = some (table[n - 1]?.getD []) := by
    rw [← growTo_getD table n, List.getElem?_eq_getElem hlt, Option.getD_some]
  rw [addEntry, if_pos (by omega), hindex, hget, Option.map_some, recorded]

theorem recorded_getD {n : ℕ} (hn : 1 ≤ n) (table : List (List Entry)) (entry : Entry) (i : ℕ) :
    (recorded table n entry)[i]?.getD [] =
      table[i]?.getD [] ++ if n = i + 1 then [entry] else [] := by
  have hlt : n - 1 < (growTo table n).length := by
    rw [length_growTo]
    omega
  rw [recorded, List.getElem?_set]
  by_cases hi : n - 1 = i
  · subst hi
    rw [if_pos rfl, if_pos hlt, Option.getD_some, if_pos (by omega)]
  · rw [if_neg hi, growTo_getD, if_neg (by omega), List.append_nil]

theorem readImport_run (l : ImportLine) {ms : ℤ} (hms : parse l.time = some ms) :
    (readImport parse l.text).run r = .ok () { r with
      timestampsWithId := recorded r.timestampsWithId l.block (ms, r.id) } := by
  have hsplit : split l.text = [l.date, l.time] ++ l.words ++ ["Imported"] ++
      ("#" ++ toString l.block) :: [l.hash] := by
    rw [l.split_text, ImportLine.front]
    simp
  obtain ⟨word, hword, digits, htail, hblock⟩ : ∃ word, fromEnd (split l.text) 2 = some word ∧
      ∃ digits, word.toList.tail? = some digits ∧
        parseInt (String.ofList digits) = some (l.block : ℤ) := by
    have hsharp : "#".toList = ['#'] := by decide +kernel
    refine ⟨"#" ++ toString l.block, ?_, (toString l.block).toList, ?_, ?_⟩
    · rw [hsplit]
      exact fromEnd_append _ _ [l.hash]
    · rw [String.toList_append, hsharp]
      rfl
    · rw [String.ofList_toList, parseInt_toString l.block_int]
  have htime : (split l.text)[1]? = some l.time := by
    rw [hsplit]
    rfl
  have hadd := addEntry_grown l.block_pos r.timestampsWithId (ms, r.id)
  simp [readImport, EStateM.run_bind, l.importedPattern_text, hword, htail, hblock, htime, hms,
    hadd, orGiveUp]

theorem forM_ok {f : String → Reads Unit} {r₁ : IdReading} (h : (f data).run r = .ok () r₁)
    (rest : List String) : ((data :: rest).forM f).run r = (rest.forM f).run r₁ := by
  have hrun : ((data :: rest).forM f).run r = (f data >>= fun _ => rest.forM f).run r := rfl
  rw [hrun, EStateM.run_bind, h]

/-- Behind the name each import goes to its block, and nothing else changes. -/
theorem read_lines {lines : LogFile} (hparse : ∀ l, LogLine.imported l ∈ lines →
      ∃ ms, parse l.time = some ms) (hname : r.name ≠ "") :
    ∃ r', ((lines.map LogLine.text).forM (readLine parse)).run r = .ok () r' ∧
      ∀ i : ℕ, r'.timestampsWithId[i]?.getD [] =
        r.timestampsWithId[i]?.getD [] ++ entries parse r.id lines (i + 1) := by
  induction lines generalizing r with
  | nil => exact ⟨r, rfl, fun i => (List.append_nil _).symm⟩
  | cons line lines ih =>
    have hlater : ∀ l, LogLine.imported l ∈ lines → ∃ ms, parse l.time = some ms :=
      fun l hl => hparse l (List.mem_cons_of_mem _ hl)
    cases line with
    | imported l =>
      obtain ⟨ms, hms⟩ := hparse l List.mem_cons_self
      obtain ⟨r', hrun, htable⟩ := @ih { r with
        timestampsWithId := recorded r.timestampsWithId l.block (ms, r.id) } hlater hname
      refine ⟨r', ?_, fun i => ?_⟩
      · have hline : (readLine parse (LogLine.imported l).text).run r = .ok () { r with
            timestampsWithId := recorded r.timestampsWithId l.block (ms, r.id) } := by
          rw [readLine, EStateM.run_bind, readName_skip (.inl hname)]
          exact readImport_run l hms
        rw [List.map_cons, forM_ok hline, hrun]
      · rw [htable, recorded_getD l.block_pos, List.append_assoc]
        by_cases hblock : l.block = i + 1
        · simp [entries, LogLine.timeOf, hblock, hms]
        · simp [entries, LogLine.timeOf, hblock]
    | other data hdata =>
      obtain ⟨r', hrun, htable⟩ := ih hlater hname
      refine ⟨r', ?_, htable⟩
      have hline : (readLine parse (LogLine.other data hdata).text).run r = .ok () r :=
        readLine_skip (.inl hname) hdata
      rw [List.map_cons, forM_ok hline, hrun]

theorem read_before {before : List String} {rest : List String}
    (hquiet : ∀ data ∈ before, nameLinePattern data = false ∧ importedPattern data = false) :
    ((before ++ rest).forM (readLine parse)).run r = (rest.forM (readLine parse)).run r := by
  induction before with
  | nil => rfl
  | cons data before ih =>
    obtain ⟨⟨hmatch, himport⟩, hlater⟩ := List.forall_mem_cons.mp hquiet
    rw [List.cons_append, forM_ok (readLine_skip (.inr hmatch) himport), ih hlater]

/-- A file adds its own imports to each block, under its node's number. -/
theorem parseFileWithID_getD (table : List (List Entry)) (f : NodeFile)
    (hparse : ∀ l, LogLine.imported l ∈ f.lines → ∃ ms, parse l.time = some ms) (i : ℕ) :
    (parseFileWithID parse table f.text)[i]?.getD [] =
      table[i]?.getD [] ++ entries parse f.number f.lines (i + 1) := by
  have hnumber := f.number_int
  have hnamed : f.nameLine.name ≠ "" := f.nameLine.name_nonempty
  have hline : (readLine parse f.nameLine.text).run
      { timestampsWithId := table, name := "", id := -1 } = .ok ()
      { timestampsWithId := table, name := f.nameLine.name, id := f.number } := by
    rw [readLine, EStateM.run_bind, readName_run rfl f.nameLine (by omega) f.named]
    exact readImport_skip f.silent
  obtain ⟨r', hrun, htable⟩ := @read_lines parse
    { timestampsWithId := table, name := f.nameLine.name, id := f.number } f.lines hparse hnamed
  rw [parseFileWithID, NodeFile.text, read_before f.quiet, forM_ok hline, hrun]
  exact htable i

/-- The times of every file are read as times of one day. -/
def OfOneDay (parse : String → Option ℤ) (midnight : ℤ) (files : List NodeFile) : Prop :=
  ∀ f ∈ files, ∀ l, LogLine.imported l ∈ f.lines →
    ∃ ms, parse l.time = some ms ∧ midnight ≤ ms ∧ ms < midnight + 86400000

theorem parseFilesWithID_getD {files : List NodeFile} (h : OfOneDay parse midnight files) (i : ℕ) :
    (parseFilesWithID parse (files.map NodeFile.text))[i]?.getD [] =
      files.flatMap fun f => entries parse f.number f.lines (i + 1) := by
  have hrun : ∀ table : List (List Entry), OfOneDay parse midnight files →
      ((files.map NodeFile.text).foldl (parseFileWithID parse) table)[i]?.getD [] =
        table[i]?.getD [] ++ files.flatMap fun f => entries parse f.number f.lines (i + 1) := by
    induction files with
    | nil =>
      intro table _
      exact (List.append_nil _).symm
    | cons f files ih =>
      intro table h
      obtain ⟨hfile, hfiles⟩ := List.forall_mem_cons.mp h
      have hparse : ∀ l, LogLine.imported l ∈ f.lines → ∃ ms, parse l.time = some ms := by
        intro l hl
        obtain ⟨ms, hms, -⟩ := hfile l hl
        exact ⟨ms, hms⟩
      rw [List.map_cons, List.foldl_cons, ih hfiles _ hfiles, parseFileWithID_getD _ _ hparse,
        List.flatMap_cons, List.append_assoc]
  exact hrun [] h

theorem mem_entries {id : ℤ} {lines : LogFile} {n : ℕ} {e : Entry} :
    e ∈ entries parse id lines n ↔
      e.2 = id ∧ ∃ l, LogLine.imported l ∈ lines ∧ l.block = n ∧ parse l.time = some e.1 := by
  simp only [entries, List.mem_filterMap]
  constructor
  · rintro ⟨time, ⟨line, hline, htime⟩, hentry⟩
    obtain ⟨ms, hms, rfl⟩ := Option.map_eq_some_iff.mp hentry
    cases line with
    | imported l =>
      rw [LogLine.timeOf] at htime
      split_ifs at htime with hblock
      cases htime
      exact ⟨rfl, l, hline, hblock, hms⟩
    | other data hdata => cases htime
  · rintro ⟨hid, l, hline, hblock, hms⟩
    refine ⟨l.time, ⟨_, hline, if_pos hblock⟩, ?_⟩
    rw [hms, Option.map_some, ← hid]

/-- The animation of a block that was imported at all shows, in each frame, exactly the nodes whose
logs have an import of the block by then; the last frame comes after all of them. -/
theorem animation_exact {files : List NodeFile} (hlow : -2 ^ 31 ≤ midnight)
    (hhigh : midnight + 86400000 < 2 ^ 31) (h : OfOneDay parse midnight files) {n : ℕ} (hn : 1 ≤ n)
    (himported : ∃ f ∈ files, ∃ l, LogLine.imported l ∈ f.lines ∧ l.block = n) :
    ∃ times rows first step,
      (parseFilesWithID parse (files.map NodeFile.text))[n - 1]? = some times ∧
      (∀ e : Entry, e ∈ times ↔ ∃ f ∈ files, e.2 = f.number ∧
        ∃ l, LogLine.imported l ∈ f.lines ∧ l.block = n ∧ parse l.time = some e.1) ∧
      makeGif times = { text := String.join (rows.map frameText), closed := true } ∧
      Animates times first step rows := by
  have htable := parseFilesWithID_getD h (n - 1)
  rw [Nat.sub_add_cancel hn] at htable
  have hmem : ∀ e : Entry, (e ∈ files.flatMap fun f => entries parse f.number f.lines n) ↔
      ∃ f ∈ files, e.2 = f.number ∧
        ∃ l, LogLine.imported l ∈ f.lines ∧ l.block = n ∧ parse l.time = some e.1 := by
    intro e
    simp only [List.mem_flatMap, mem_entries]
  have hne : (files.flatMap fun f => entries parse f.number f.lines n) ≠ [] := by
    obtain ⟨f, hf, l, hl, hblock⟩ := himported
    obtain ⟨ms, hms, -⟩ := h f hf l hl
    exact List.ne_nil_of_mem ((hmem (ms, f.number)).mpr ⟨f, hf, rfl, l, hl, hblock, hms⟩)
  have hday : OneDay midnight (files.flatMap fun f => entries parse f.number f.lines n) := by
    refine ⟨hlow, hhigh, ?_, ?_⟩
    · intro e he
      obtain ⟨f, hf, -, l, hl, -, hms⟩ := (hmem e).mp he
      obtain ⟨ms, hms', hspan⟩ := h f hf l hl
      cases hms.symm.trans hms'
      exact hspan
    · intro e he
      obtain ⟨f, -, hid, -⟩ := (hmem e).mp he
      have hnumber := f.number_int
      omega
  obtain ⟨rows, first, step, hgif, hanimates⟩ := makeGif_animates hday hne
  refine ⟨_, rows, first, step, ?_, hmem, hgif, hanimates⟩
  cases hget : (parseFilesWithID parse (files.map NodeFile.text))[n - 1]? with
  | none =>
    rw [hget] at htable
    exact absurd htable.symm hne
  | some times =>
    rw [hget, Option.getD_some] at htable
    rw [htable]

/-- The log of a node that imports block 1 only. -/
def blockOneAt (time : String) (htime : ' ' ∉ time.toList) : ImportLine where
  date := "2020-08-21"
  time := time
  words := []
  block := 1
  hash := "(0x6ad9…7e32)"
  no_blank := by
    have hdate : ' ' ∉ "2020-08-21".toList := by decide +kernel
    have hhash : ' ' ∉ "(0x6ad9…7e32)".toList := by decide +kernel
    intro w hw
    simp only [List.append_nil, List.cons_append, List.nil_append, List.mem_cons,
      List.not_mem_nil, or_false] at hw
    rcases hw with rfl | rfl | rfl
    · exact hdate
    · exact htime
    · exact hhash
  hash_nonempty := by decide +kernel
  block_pos := le_rfl
  block_int := by omega

def miner : NodeFile where
  before := ["2020-08-21 11:59:58.000 Substrate Node"]
  nameLine := ⟨["2020-08-21", "11:59:58.001"], "Node0", by decide, by decide +kernel,
    by decide +kernel⟩
  number := 0
  lines := [.imported (blockOneAt "12:00:00.100" (by decide +kernel))]
  quiet := by decide +kernel
  named := by decide +kernel
  silent := by decide +kernel
  number_int := by omega

def follower : NodeFile where
  before := []
  nameLine := ⟨["2020-08-21", "11:59:59.400"], "Node1", by decide, by decide +kernel,
    by decide +kernel⟩
  number := 1
  lines := [.imported (blockOneAt "12:00:00.400" (by decide +kernel))]
  quiet := by decide
  named := by decide +kernel
  silent := by decide +kernel
  number_int := by omega

theorem twoNodes_one_day : OfOneDay clockTime 0 [miner, follower] := by
  intro f hf l hl
  simp only [List.mem_cons, List.not_mem_nil, or_false] at hf
  rcases hf with rfl | rfl
  · obtain rfl := LogLine.imported.inj (List.mem_singleton.mp hl)
    exact ⟨43200100, by decide +kernel, by omega, by omega⟩
  · obtain rfl := LogLine.imported.inj (List.mem_singleton.mp hl)
    exact ⟨43200400, by decide +kernel, by omega, by omega⟩

theorem miner_imports : ∃ f ∈ [miner, follower], ∃ l, LogLine.imported l ∈ f.lines ∧ l.block = 1 :=
  ⟨miner, List.mem_cons_self, blockOneAt "12:00:00.100" (by decide +kernel),
    List.mem_singleton_self _, rfl⟩

theorem two_nodes_animated : ∃ times rows first step,
    (parseFilesWithID clockTime ([miner, follower].map NodeFile.text))[1 - 1]? = some times ∧
    (∀ e : Entry, e ∈ times ↔ ∃ f ∈ [miner, follower], e.2 = f.number ∧
      ∃ l, LogLine.imported l ∈ f.lines ∧ l.block = 1 ∧ clockTime l.time = some e.1) ∧
    makeGif times = { text := String.join (rows.map frameText), closed := true } ∧
    Animates times first step rows :=
  animation_exact (by omega) (by omega) twoNodes_one_day (le_refl 1) miner_imports

end PropagationFrames
