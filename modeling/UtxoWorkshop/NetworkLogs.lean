import Mathlib.Data.List.Infix
import UtxoWorkshop.PlainText

/-! The log parser of the network experiments. The files are read one after the other into one
table of import times, a list for each block; a file that imports a block again overwrites the
last entry of the block's list, which is its own as long as no other file is read in between. -/
namespace NetworkLogs

open PlainText

/-- What `parseFile` holds while it reads: the shared table, and the blocks of this file. -/
structure Reading where
  timestamps : List (List String)
  checkedBlocks : List ℤ
  deriving DecidableEq

/-- `.*(Imported #)(\d+).*` matches a line with a digit somewhere behind `Imported #`. -/
def importedPattern (data : String) : Bool :=
  data.toList.tails.any fun rest =>
    "Imported #".toList.isPrefixOf rest && (rest.drop 10).head?.any Char.isDigit

/-- The time and the block number of a line; `none` is an exception of the array accesses or of
the number format. -/
def importOf (data : String) : Option (String × ℤ) := do
  let temp := split data
  let time ← temp[1]?
  let word ← temp[temp.length - 2]?
  let digits ← word.toList.tail?
  let block ← parseInt (String.ofList digits)
  pure (time, block)

def getBlock (timestamps : List (List String)) (block : ℤ) : Option (List String) :=
  if 1 ≤ block then timestamps[(block - 1).toNat]? else none

def setBlock (timestamps : List (List String)) (block : ℤ) (times : List String) :
    List (List String) :=
  timestamps.set (block - 1).toNat times

/-- `set(size() - 1, time)` -/
def setLast (times : List String) (time : String) : Option (List String) :=
  if times = [] then none else some (times.set (times.length - 1) time)

/-- The loop that adds empty lists until there is one for the block. -/
def growTo {α : Type} (timestamps : List (List α)) (block : ℤ) : List (List α) :=
  timestamps ++ List.replicate (block.toNat - timestamps.length) []

def recordImport (r : Reading) (time : String) (block : ℤ) : Option Reading :=
  if block ∈ r.checkedBlocks then do
    let times ← getBlock r.timestamps block
    let times ← setLast times time
    pure { r with timestamps := setBlock r.timestamps block times }
  else do
    let timestamps := growTo r.timestamps block
    let times ← getBlock timestamps block
    pure {
      timestamps := setBlock timestamps block (times ++ [time])
      checkedBlocks := r.checkedBlocks ++ [block] }

def parseLine (r : Reading) (data : String) : Option Reading :=
  if importedPattern data then do
    let (time, block) ← importOf data
    recordImport r time block
  else some r

def parseFile (timestamps : List (List String)) (lines : List String) :
    Option (List (List String)) := do
  let r ← lines.foldlM parseLine { timestamps := timestamps, checkedBlocks := [] }
  pure r.timestamps

/-- The files of the log directory, in whatever order it lists them. -/
def parseFiles (files : List (List String)) : Option (List (List String)) :=
  files.foldlM parseFile []

/-- An import line as a node writes it: a date, a time, any words, the block and its hash. -/
structure ImportLine where
  date : String
  time : String
  words : List String
  block : ℕ
  hash : String
  no_blank : ∀ w ∈ [date, time] ++ words ++ [hash], ' ' ∉ w.toList
  hash_nonempty : hash ≠ ""
  block_pos : 1 ≤ block
  block_int : block < 2 ^ 31

/-- All words but the last. -/
def ImportLine.front (l : ImportLine) : List String :=
  [l.date, l.time] ++ l.words ++ ["Imported", "#" ++ toString l.block]

def ImportLine.text (l : ImportLine) : String := String.intercalate " " (l.front ++ [l.hash])

theorem ImportLine.split_text (l : ImportLine) : split l.text = l.front ++ [l.hash] := by
  have hnumber : ' ' ∉ ("#" ++ toString l.block).toList := by
    have hsharp : "#".toList = ['#'] := by decide +kernel
    have hdigits : ' ' ∉ (toString l.block).toList := notMem_of_not_isDigit (by decide) _
    rw [String.toList_append, hsharp, List.mem_append, not_or]
    exact ⟨by decide, hdigits⟩
  have hword : ' ' ∉ "Imported".toList := by decide +kernel
  apply split_intercalate
  · intro w hw
    simp only [front, List.mem_append, List.mem_cons, List.not_mem_nil, or_false] at hw
    rcases hw with (((rfl | rfl) | hw) | rfl | rfl) | rfl
    · exact l.no_blank _ (by simp)
    · exact l.no_blank _ (by simp)
    · exact l.no_blank w (by simp [hw])
    · exact hword
    · exact hnumber
    · exact l.no_blank _ (by simp)
  · exact l.hash_nonempty
  · simp [front]

theorem ImportLine.importOf_text (l : ImportLine) :
    importOf l.text = some (l.time, (l.block : ℤ)) := by
  have htail : ("#" ++ toString l.block).toList.tail? = some (toString l.block).toList := by
    have hsharp : "#".toList = ['#'] := by decide +kernel
    rw [String.toList_append, hsharp]
    rfl
  have htime : (l.front ++ [l.hash])[1]? = some l.time := rfl
  have hword : (l.front ++ [l.hash])[(l.front ++ [l.hash]).length - 2]? =
      some ("#" ++ toString l.block) := by
    simp [front]
  simp only [importOf, split_text, htime, hword, htail, Option.bind_eq_bind, Option.bind_some,
    String.ofList_toList, parseInt_toString l.block_int, Option.pure_def]

theorem ImportLine.importedPattern_text (l : ImportLine) : importedPattern l.text := by
  have hmark : "Imported #".toList = "Imported".toList ++ " ".toList ++ "#".toList := by
    decide +kernel
  have htext : l.text.toList = (String.intercalate " " ([l.date, l.time] ++ l.words)).toList ++
      " ".toList ++
      ("Imported #".toList ++ ((toString l.block).toList ++ " ".toList ++ l.hash.toList)) := by
    rw [text, front, List.append_assoc,
      String.intercalate_append_of_ne_nil (by simp) (by simp), hmark]
    simp [String.toList_append]
  have hdigit : ((toString l.block).toList ++ " ".toList ++ l.hash.toList).head?.any
      Char.isDigit := by
    cases hcs : (toString l.block).toList with
    | nil => exact absurd (toList_toString _ ▸ hcs) Nat.toDigits_ne_nil
    | cons c cs => exact isDigit_of_mem (hcs ▸ List.mem_cons_self)
  apply List.any_eq_true.mpr
  refine ⟨_, (List.mem_tails _ _).mpr ⟨_, htext.symm⟩, ?_⟩
  rw [Bool.and_eq_true, List.isPrefixOf_iff_prefix, List.drop_left' (by decide +kernel)]
  exact ⟨List.prefix_append _ _, hdigit⟩

/-- A line of a log file: an import, or anything the parser passes over. -/
inductive LogLine where
  | imported (l : ImportLine)
  | other (data : String) (h : importedPattern data = false)

abbrev LogFile := List LogLine

def LogLine.text : LogLine → String
  | .imported l => l.text
  | .other data _ => data

def LogLine.block : LogLine → ℕ
  | .imported l => l.block
  | .other _ _ => 0

def LogLine.timeOf (n : ℕ) : LogLine → Option String
  | .imported l => if l.block = n then some l.time else none
  | .other _ _ => none

/-- The time on the last import line for a block, if the file imports it. -/
def lastTime (n : ℕ) (lines : LogFile) : Option String :=
  (lines.filterMap (LogLine.timeOf n)).getLast?

def largestBlock (lines : LogFile) : ℕ := (lines.map LogLine.block).foldr max 0

variable {before : List LogFile} {lines : LogFile} {r : Reading} {line : LogLine}

theorem lastTime_concat (n : ℕ) (lines : LogFile) (line : LogLine) :
    lastTime n (lines ++ [line]) = (line.timeOf n).or (lastTime n lines) := by
  rw [lastTime, List.filterMap_append, List.getLast?_append]
  cases h : line.timeOf n <;> simp [h, lastTime]

theorem largestBlock_concat (lines : LogFile) (line : LogLine) :
    largestBlock (lines ++ [line]) = max (largestBlock lines) line.block := by
  induction lines with
  | nil => simp [largestBlock]
  | cons l ls ih =>
    simp only [largestBlock, List.cons_append, List.map_cons, List.foldr_cons] at ih ⊢
    rw [ih, max_assoc]

/-- The entries of a block: one for each file read before, and one for the file being read if it
has imported the block. -/
def entriesOf (before : List LogFile) (lines : LogFile) (n : ℕ) : List String :=
  before.filterMap (lastTime n) ++ (lastTime n lines).toList

structure Tracks (before : List LogFile) (lines : LogFile) (r : Reading) : Prop where
  checked : ∀ n : ℕ, (n : ℤ) ∈ r.checkedBlocks ↔ lastTime n lines ≠ none
  length : r.timestamps.length = largestBlock (before.flatten ++ lines)
  entries : ∀ i : ℕ, r.timestamps[i]?.getD [] = entriesOf before lines (i + 1)

theorem getBlock_natCast {timestamps : List (List String)} {n : ℕ} (hn : 1 ≤ n) :
    getBlock timestamps n = timestamps[n - 1]? := by
  have hindex : ((n : ℤ) - 1).toNat = n - 1 := by omega
  rw [getBlock, if_pos (by omega), hindex]

theorem setLast_concat (times : List String) (old time : String) :
    setLast (times ++ [old]) time = some (times ++ [time]) := by
  simp [setLast]

theorem setBlock_getD (timestamps : List (List String)) {n : ℕ} (hn : 1 ≤ n)
    (hle : n ≤ timestamps.length) (times : List String) (i : ℕ) :
    (setBlock timestamps n times)[i]?.getD [] =
      if i = n - 1 then times else timestamps[i]?.getD [] := by
  have hindex : ((n : ℤ) - 1).toNat = n - 1 := by omega
  rw [setBlock, hindex, List.getElem?_set]
  by_cases hi : n - 1 = i
  · rw [if_pos hi, if_pos (by omega), if_pos hi.symm, Option.getD_some]
  · rw [if_neg hi, if_neg (fun h => hi h.symm)]

theorem length_growTo {α : Type} (timestamps : List (List α)) (n : ℕ) :
    (growTo timestamps n).length = max timestamps.length n := by
  simp only [growTo, List.length_append, List.length_replicate, Int.toNat_natCast]
  omega

theorem growTo_getD {α : Type} (timestamps : List (List α)) (n i : ℕ) :
    (growTo timestamps n)[i]?.getD [] = timestamps[i]?.getD [] := by
  rw [growTo, List.getElem?_append]
  split_ifs with hi
  · rfl
  · rw [List.getElem?_eq_none (by omega : timestamps.length ≤ i), List.getElem?_replicate]
    split_ifs <;> rfl

theorem recordImport_new {n : ℕ} (hn : 1 ≤ n) (hchecked : (n : ℤ) ∉ r.checkedBlocks)
    (time : String) : recordImport r time n = some {
      timestamps := setBlock (growTo r.timestamps n) n (r.timestamps[n - 1]?.getD [] ++ [time])
      checkedBlocks := r.checkedBlocks ++ [(n : ℤ)] } := by
  have hlt : n - 1 < (growTo r.timestamps n).length := by
    rw [length_growTo]
    omega
  have hget : getBlock (growTo r.timestamps n) n = some (r.timestamps[n - 1]?.getD []) := by
    rw [getBlock_natCast hn, ← growTo_getD r.timestamps n, List.getElem?_eq_getElem hlt,
      Option.getD_some]
  simp only [recordImport, if_neg hchecked, hget, Option.bind_eq_bind, Option.bind_some,
    Option.pure_def]

theorem recordImport_again {n : ℕ} (hn : 1 ≤ n) (hchecked : (n : ℤ) ∈ r.checkedBlocks)
    {times : List String} {old : String} (htimes : r.timestamps[n - 1]?.getD [] = times ++ [old])
    (time : String) : recordImport r time n =
      some { r with timestamps := setBlock r.timestamps n (times ++ [time]) } := by
  have hget : getBlock r.timestamps n = some (times ++ [old]) := by
    rw [getBlock_natCast hn]
    cases h : r.timestamps[n - 1]? with
    | none => simp [h] at htimes
    | some ts => rw [← htimes, h, Option.getD_some]
  simp only [recordImport, if_pos hchecked, hget, setLast_concat, Option.bind_eq_bind,
    Option.bind_some, Option.pure_def]

theorem lastTime_imported (n : ℕ) (lines : LogFile) (l : ImportLine) :
    lastTime n (lines ++ [.imported l]) = if l.block = n then some l.time else lastTime n lines := by
  rw [lastTime_concat, LogLine.timeOf]
  split_ifs <;> rfl

/-- The table with the new time behind the entries of the files before is the table of one more
line, whether the list was grown or one of its entries replaced. -/
theorem Tracks.entries_imported (h : Tracks before lines r) (l : ImportLine)
    {timestamps : List (List String)} (hle : l.block ≤ timestamps.length)
    (hsame : ∀ i : ℕ, timestamps[i]?.getD [] = r.timestamps[i]?.getD []) (i : ℕ) :
    (setBlock timestamps l.block (before.filterMap (lastTime l.block) ++ [l.time]))[i]?.getD [] =
      entriesOf before (lines ++ [.imported l]) (i + 1) := by
  have hn := l.block_pos
  rw [setBlock_getD _ hn hle, entriesOf, lastTime_imported, hsame, h.entries]
  by_cases hi : i = l.block - 1
  · have hindex : i + 1 = l.block := by omega
    rw [if_pos hi, if_pos hindex.symm, hindex, Option.toList_some]
  · rw [if_neg hi, if_neg (by omega), entriesOf]

/-- The last entry of a block that this file has imported is this file's own, so one more import
replaces nothing else. -/
theorem Tracks.imported (h : Tracks before lines r) (l : ImportLine) :
    ∃ r', recordImport r l.time l.block = some r' ∧
      Tracks before (lines ++ [.imported l]) r' := by
  have hn := l.block_pos
  have hlength : largestBlock (before.flatten ++ (lines ++ [.imported l])) =
      max r.timestamps.length l.block := by
    rw [← List.append_assoc, largestBlock_concat, ← h.length]
    rfl
  have htracked := h.entries (l.block - 1)
  rw [Nat.sub_add_cancel hn, entriesOf] at htracked
  cases hold : lastTime l.block lines with
  | none =>
    have hnew : (l.block : ℤ) ∉ r.checkedBlocks := fun hmem => (h.checked _).mp hmem hold
    have hgrown : l.block ≤ (growTo r.timestamps l.block).length :=
      (le_max_right _ _).trans_eq (length_growTo _ _).symm
    rw [hold, Option.toList_none, List.append_nil] at htracked
    refine ⟨_, recordImport_new hn hnew l.time, ?_, ?_, ?_⟩
    · intro n
      rw [List.mem_append, List.mem_singleton, h.checked, lastTime_imported, Int.natCast_inj]
      by_cases heq : l.block = n
      · simp [heq]
      · simp [heq, Ne.symm heq]
    · rw [hlength, setBlock, List.length_set, length_growTo]
    · rw [htracked]
      exact h.entries_imported l hgrown (growTo_getD _ _)
  | some old =>
    have hagain : (l.block : ℤ) ∈ r.checkedBlocks := (h.checked _).mpr (by simp [hold])
    have hle : l.block ≤ r.timestamps.length := by
      by_contra hlt
      rw [List.getElem?_eq_none (by omega), hold] at htracked
      simp at htracked
    rw [hold, Option.toList_some] at htracked
    refine ⟨_, recordImport_again hn hagain htracked l.time, ?_, ?_, ?_⟩
    · intro n
      rw [h.checked, lastTime_imported]
      by_cases heq : l.block = n
      · subst heq
        simp [hold]
      · simp [heq]
    · rw [hlength, max_eq_left hle, setBlock, List.length_set]
    · exact h.entries_imported l hle fun _ => rfl

theorem Tracks.other (h : Tracks before lines r) {data : String}
    (hdata : importedPattern data = false) : Tracks before (lines ++ [.other data hdata]) r := by
  have hlast : ∀ n, lastTime n (lines ++ [.other data hdata]) = lastTime n lines :=
    fun n => lastTime_concat n lines _
  refine ⟨?_, ?_, ?_⟩
  · intro n
    rw [hlast, h.checked]
  · rw [← List.append_assoc, largestBlock_concat, ← h.length]
    exact (max_eq_left (Nat.zero_le _)).symm
  · intro i
    rw [h.entries, entriesOf, entriesOf, hlast]

theorem Tracks.parseLine (h : Tracks before lines r) (line : LogLine) :
    ∃ r', parseLine r line.text = some r' ∧ Tracks before (lines ++ [line]) r' := by
  cases line with
  | imported l =>
    obtain ⟨r', hr, htracks⟩ := h.imported l
    refine ⟨r', ?_, htracks⟩
    simp only [NetworkLogs.parseLine, LogLine.text, l.importedPattern_text, if_true,
      l.importOf_text, Option.bind_eq_bind, Option.bind_some, hr]
  | other data hdata =>
    refine ⟨r, ?_, h.other hdata⟩
    simp [NetworkLogs.parseLine, LogLine.text, hdata]

theorem Tracks.parseLines (h : Tracks before lines r) (more : LogFile) :
    ∃ r', (more.map LogLine.text).foldlM NetworkLogs.parseLine r = some r' ∧
      Tracks before (lines ++ more) r' := by
  induction more generalizing lines r with
  | nil => exact ⟨r, rfl, by rwa [List.append_nil]⟩
  | cons line more ih =>
    obtain ⟨r₁, h₁, htracks⟩ := h.parseLine line
    obtain ⟨r₂, h₂, htracks⟩ := ih htracks
    refine ⟨r₂, ?_, by rwa [List.append_assoc] at htracks⟩
    rw [List.map_cons, List.foldlM_cons, h₁]
    exact h₂

/-- A file that has been read to its end is one of the files before the next one. -/
theorem Tracks.next (h : Tracks before lines r) :
    Tracks (before ++ [lines]) [] { timestamps := r.timestamps, checkedBlocks := [] } := by
  refine ⟨?_, ?_, ?_⟩
  · intro n
    simp [lastTime]
  · rw [h.length]
    simp
  · intro i
    have hfile : List.filterMap (lastTime (i + 1)) [lines] = (lastTime (i + 1) lines).toList := by
      rw [List.filterMap_cons]
      cases lastTime (i + 1) lines <;> rfl
    rw [h.entries, entriesOf, entriesOf, List.filterMap_append, hfile]
    exact (List.append_nil _).symm

theorem tracks_nil : Tracks [] [] { timestamps := [], checkedBlocks := [] } :=
  ⟨by simp [lastTime], rfl, by simp [entriesOf, lastTime]⟩

/-- The table after some files, with which the next file begins. -/
theorem parseFiles_tracks (files : List LogFile) :
    ∃ timestamps, parseFiles (files.map (List.map LogLine.text)) = some timestamps ∧
      Tracks files [] { timestamps := timestamps, checkedBlocks := [] } := by
  induction files using List.reverseRecOn with
  | nil => exact ⟨[], rfl, tracks_nil⟩
  | append_singleton files file ih =>
    obtain ⟨timestamps, hfiles, htracks⟩ := ih
    obtain ⟨r, hr, htracks⟩ := htracks.parseLines file
    refine ⟨r.timestamps, ?_, htracks.next⟩
    rw [parseFiles] at hfiles ⊢
    rw [List.map_append, List.foldlM_append, hfiles]
    simp [parseFile, hr]

theorem Tracks.getElem? (h : Tracks before lines r) {n : ℕ} (hn : 1 ≤ n)
    (hle : n ≤ r.timestamps.length) : r.timestamps[n - 1]? = some (entriesOf before lines n) := by
  have hentries := h.entries (n - 1)
  rw [Nat.sub_add_cancel hn, List.getElem?_eq_getElem (by omega), Option.getD_some] at hentries
  rw [List.getElem?_eq_getElem (by omega), hentries]

/-- Each file has one entry for each block it imports, the time of its last import line for it;
and at any point within a file the entries of the files before it are what they were. -/
theorem entries_once_per_file (files : List LogFile) : ∃ timestamps,
    parseFiles (files.map (List.map LogLine.text)) = some timestamps ∧
    timestamps.length = largestBlock files.flatten ∧
    (∀ n, 1 ≤ n → n ≤ largestBlock files.flatten →
      timestamps[n - 1]? = some (files.filterMap (lastTime n))) ∧
    ∀ lines : LogFile, ∃ r, (lines.map LogLine.text).foldlM parseLine
        { timestamps := timestamps, checkedBlocks := [] } = some r ∧
      ∀ n, 1 ≤ n → n ≤ largestBlock (files.flatten ++ lines) → r.timestamps[n - 1]? =
        some (files.filterMap (lastTime n) ++ (lastTime n lines).toList) := by
  obtain ⟨timestamps, hfiles, htracks⟩ := parseFiles_tracks files
  have hlength : timestamps.length = largestBlock files.flatten := by
    have h := htracks.length
    rwa [List.append_nil] at h
  refine ⟨timestamps, hfiles, hlength, ?_, ?_⟩
  · intro n hn hle
    have hget := htracks.getElem? hn (hle.trans_eq hlength.symm)
    rwa [entriesOf, lastTime, List.filterMap_nil, List.getLast?_nil, Option.toList_none,
      List.append_nil] at hget
  · intro lines
    obtain ⟨r, hr, htracks⟩ := htracks.parseLines lines
    rw [List.nil_append] at htracks
    refine ⟨r, hr, ?_⟩
    intro n hn hle
    exact htracks.getElem? hn (hle.trans_eq htracks.length.symm)

/-- The first node imports two different blocks 2; the second node follows it. -/
example : parseFiles [
    ["2020-08-21 12:00:00.100 Imported #1 (0x6ad9…7e32)",
      "2020-08-21 12:00:03.200 Imported #2 (0x41c0…93d5)",
      "2020-08-21 12:00:03.900 Imported #2 (0xe117…08fa)"],
    ["2020-08-21 12:00:00.400 Imported #1 (0x6ad9…7e32)", "2020-08-21 12:00:01.000 Idle (1 peers)",
      "2020-08-21 12:00:04.300 Imported #2 (0xe117…08fa)"]] =
    some [["12:00:00.100", "12:00:00.400"], ["12:00:03.900", "12:00:04.300"]] := by
  decide +kernel

end NetworkLogs
