import Mathlib.Data.List.Pairwise
import Mathlib.Data.List.Sort
import UtxoWorkshop.PlainText

/-! The propagation curves of the network experiments: for each block the number of nodes that
have imported it by each millisecond, one line a block. All lines are written in one `try`, and a
side output of the loop cuts the first and the last time off each block: a block with fewer than
two times ends the loop, and its line and all later ones are missing. -/
namespace PropagationCurves

open PlainText

def STARTBLOCK : ℕ := 50

/-- The exceptions of the loop. The handler around it prints them and goes on. -/
inductive Exception where
  | parse
  | arrayIndexOutOfBounds
  | negativeArraySize
  | illegalArgument
  deriving DecidableEq

/-- What has been handed to the writers of `r_graph` and `Gaus`, and the two maxima so far. -/
structure Progress where
  rGraph : String
  gaus : String
  biggest : ℤ
  nodes : ℤ
  deriving DecidableEq

abbrev Writing := EStateM Exception Progress

def orThrow {α : Type} (o : Option α) (e : Exception) : Writing α :=
  match o with
  | some a => pure a
  | none => throw e

/-- The cast to `int`, and what is left of a sum of two of them. -/
def toInt (v : ℤ) : ℤ := v.bmod (2 ^ 32)

/-- The length of `copyOfRange` is checked before its start; places behind the end are zero. -/
def copyOfRange (original : List ℤ) (start stop : ℤ) : Writing (List ℤ) :=
  if stop < start then throw .illegalArgument
  else if start < 0 ∨ original.length < start then throw .arrayIndexOutOfBounds
  else pure (((original ++ List.replicate (stop.toNat - original.length) 0).drop
    start.toNat).take (stop - start).toNat)

/-- The double loop that counts the times up to each millisecond. -/
def countUntil (timesLong : List ℤ) (size : ℕ) : List ℕ :=
  (List.range size).map fun (i : ℕ) => timesLong.countP fun t => t ≤ (i : ℤ)

def rowText (atTime : List ℕ) : String :=
  String.join (atTime.map fun n => toString n ++ " ") ++ "\n"

/-- The body of the loop; `parse` is the formatter, in milliseconds, and fails with an
exception. -/
def writeBlock (parse : String → Option ℤ) (times : List String) : Writing Unit := do
  let timesLong ← orThrow (times.mapM parse) .parse
  let timesLong := timesLong.insertionSort (· ≤ ·)
  let min ← orThrow timesLong.head? .arrayIndexOutOfBounds
  let timesLong := timesLong.map fun t => t - min
  let last ← orThrow timesLong.getLast? .arrayIndexOutOfBounds
  modify fun p => { p with
    nodes := if p.nodes < timesLong.length then timesLong.length else p.nodes
    biggest := if p.biggest < last then last else p.biggest }
  let size := toInt (toInt last + 1)
  if size < 0 then throw .negativeArraySize
  let atTime := countUntil timesLong size.toNat
  let gausTimes ← copyOfRange (timesLong.insertionSort (· ≤ ·)) 1 (timesLong.length - 1)
  modify fun p => { p with
    gaus := p.gaus ++ (String.intercalate " " (gausTimes.map toString) ++ " ")
    rGraph := p.rGraph ++ rowText atTime }

/-- The three files. A writer that was not closed may keep the end of its text to itself. -/
structure Files where
  rGraph : String
  gaus : String
  longestTime : String
  closed : Bool
  deriving DecidableEq

def Progress.files (p : Progress) (blocks : ℕ) (closed : Bool) : Files where
  rGraph := p.rGraph
  gaus := p.gaus
  longestTime := toString p.biggest ++ " " ++ toString blocks ++ " " ++ toString p.nodes
  closed := closed

/-- The loop has ended at the last block or at an exception, which is only printed. -/
def afterLoop (blocks : ℕ) : EStateM.Result Exception Progress Unit → Files
  | .ok _ p => p.files blocks true
  | .error _ p => p.files blocks false

def makeRecieverFile (parse : String → Option ℤ) (times : List (List String)) : Files :=
  afterLoop times.length (((times.drop STARTBLOCK).forM (writeBlock parse)).run
    { rGraph := "", gaus := "", biggest := 0, nodes := 0 })

/-- The text that can stand in the file of `rGraph` afterwards. -/
def Files.Leaves (f : Files) (text : String) : Prop :=
  text.toList <+: f.rGraph.toList ∧ (f.closed → text = f.rGraph)

/-- The curve of a block: at each millisecond after the first import the number of nodes that
have imported it by then, up to all of them. -/
structure IsCurve (ms : List ℤ) (row : List ℕ) : Prop where
  entry : ∀ first ∈ ms, (∀ t ∈ ms, first ≤ t) → ∀ (i : ℕ) c, row[i]? = some c →
    c = ms.countP fun t => t ≤ first + i
  nondecreasing : row.Pairwise (· ≤ ·)
  last : row.getLast? = some ms.length

/-- One line for each block from `STARTBLOCK` on, and a curve in the line of each block that was
imported at all. -/
def Covers (parse : String → Option ℤ) (times : List (List String)) (text : String) : Prop :=
  ∃ rows : List (List ℕ), text = String.join (rows.map rowText) ∧
    rows.length = times.length - STARTBLOCK ∧
    ∀ block, STARTBLOCK ≤ block → ∀ imports, times[block]? = some imports → imports ≠ [] →
      ∃ ms row, imports.mapM parse = some ms ∧ rows[block - STARTBLOCK]? = some row ∧
        IsCurve ms row

/-- The times of a table are parsed to milliseconds of one day. -/
def SameDay (parse : String → Option ℤ) (midnight : ℤ) (times : List (List String)) : Prop :=
  ∀ imports ∈ times, ∀ t ∈ imports,
    ∃ ms, parse t = some ms ∧ midnight ≤ ms ∧ ms < midnight + 86400000

variable {parse : String → Option ℤ} {ms : List ℤ} {first last midnight : ℤ} {p : Progress}
  {imports : List String} {times : List (List String)}

/-- The ends of the sorted times are the bounds of all. -/
theorem exists_ends (hne : ms ≠ []) : ∃ first last, first ∈ ms ∧ last ∈ ms ∧
    (∀ t ∈ ms, first ≤ t ∧ t ≤ last) ∧ (ms.insertionSort (· ≤ ·)).head? = some first ∧
    (ms.insertionSort (· ≤ ·)).getLast? = some last := by
  have hperm := List.perm_insertionSort (· ≤ ·) ms
  have hsorted := List.pairwise_insertionSort (· ≤ ·) ms
  have hne' : ms.insertionSort (· ≤ ·) ≠ [] := fun h => hne (List.perm_nil.mp (h ▸ hperm.symm))
  refine ⟨_, _, hperm.mem_iff.mp (List.head_mem hne'), hperm.mem_iff.mp (List.getLast_mem hne'),
    ?_, List.head?_eq_some_head hne', List.getLast?_eq_some_getLast hne'⟩
  intro t ht
  have hmem := hperm.mem_iff.mpr ht
  exact ⟨hsorted.rel_head hmem, hsorted.rel_getLast hmem⟩

theorem countUntil_eq_some {times : List ℤ} {size i c : ℕ} :
    (countUntil times size)[i]? = some c ↔
      i < size ∧ c = times.countP fun t => t ≤ (i : ℤ) := by
  rw [countUntil, List.getElem?_map]
  by_cases hi : i < size
  · simp [hi, eq_comm]
  · simp [hi]

theorem countUntil_pairwise (times : List ℤ) (size : ℕ) :
    (countUntil times size).Pairwise (· ≤ ·) := by
  rw [countUntil, List.pairwise_map]
  apply List.pairwise_lt_range.imp
  intro i j hij
  apply List.countP_mono_left
  intro t _ ht
  simp only [decide_eq_true_eq] at ht ⊢
  omega

theorem isCurve_countUntil (hfirst : first ∈ ms) (hlast : last ∈ ms)
    (hends : ∀ t ∈ ms, first ≤ t ∧ t ≤ last) :
    IsCurve ms (countUntil ((ms.insertionSort (· ≤ ·)).map fun t => t - first)
      (last - first + 1).toNat) := by
  have hcount : ∀ i : ℤ, (((ms.insertionSort (· ≤ ·)).map fun t => t - first).countP
      fun t => t ≤ i) = ms.countP fun t => t ≤ first + i := by
    intro i
    rw [List.countP_map, (List.perm_insertionSort (· ≤ ·) ms).countP_eq]
    apply List.countP_congr
    intro t _
    simp only [Function.comp_apply, decide_eq_true_eq]
    omega
  have hspan := (hends last hlast).1
  refine ⟨?_, countUntil_pairwise _ _, ?_⟩
  · intro first' hfirst' hleast i c hc
    obtain ⟨-, rfl⟩ := countUntil_eq_some.mp hc
    have hsame : first = first' := le_antisymm (hends first' hfirst').1 (hleast first hfirst)
    rw [hcount, hsame]
  · have hlength : (countUntil ((ms.insertionSort (· ≤ ·)).map fun t => t - first)
        (last - first + 1).toNat).length = (last - first + 1).toNat := by
      simp [countUntil]
    rw [List.getLast?_eq_getElem?, hlength, countUntil_eq_some, hcount]
    refine ⟨by omega, ?_⟩
    symm
    apply List.countP_eq_length.mpr
    intro t ht
    have hle := (hends t ht).2
    simp only [decide_eq_true_eq]
    omega

/-- A block's times as numbers, all of them on one day. -/
structure Parsed (parse : String → Option ℤ) (midnight : ℤ) (imports : List String)
    (ms : List ℤ) : Prop where
  parsed : imports.mapM parse = some ms
  length : ms.length = imports.length
  day : ∀ t ∈ ms, midnight ≤ t ∧ t < midnight + 86400000

theorem SameDay.exists_parsed (h : SameDay parse midnight [imports]) :
    ∃ ms, Parsed parse midnight imports ms := by
  replace h := h imports (List.mem_singleton.mpr rfl)
  induction imports with
  | nil => exact ⟨[], rfl, rfl, by simp⟩
  | cons t imports ih =>
    obtain ⟨v, hv, hlow, hhigh⟩ := h t List.mem_cons_self
    obtain ⟨ms, hparsed, hlength, hday⟩ := ih fun t ht => h t (List.mem_cons_of_mem _ ht)
    refine ⟨v :: ms, ?_, by rw [List.length_cons, hlength, List.length_cons], ?_⟩
    · rw [List.mapM_cons, hv, hparsed]
      rfl
    · intro u hu
      rcases List.mem_cons.mp hu with rfl | hu
      · exact ⟨hlow, hhigh⟩
      · exact hday u hu

theorem toInt_eq {v : ℤ} (hlow : -2 ^ 31 ≤ v) (hhigh : v < 2 ^ 31) : toInt v = v := by
  rw [toInt, Int.bmod_eq_of_le] <;> omega

/-- The times of a block less their minimum. -/
def shifted (ms : List ℤ) (first : ℤ) : List ℤ := (ms.insertionSort (· ≤ ·)).map fun t => t - first

/-- A block with any times reaches the side output, which decides on its line. -/
theorem writeBlock_run (h : Parsed parse midnight imports ms) (hne : ms ≠ []) (p : Progress) :
    ∃ (first last : ℤ) (p' : Progress), (first ∈ ms ∧ last ∈ ms ∧ ∀ t ∈ ms, first ≤ t ∧ t ≤ last) ∧
      p'.rGraph = p.rGraph ∧ (writeBlock parse imports).run p =
      (do
        let gausTimes ← copyOfRange ((shifted ms first).insertionSort (· ≤ ·)) 1
          ((shifted ms first).length - 1)
        modify fun p => { p with
          gaus := p.gaus ++ (String.intercalate " " (gausTimes.map toString) ++ " ")
          rGraph := p.rGraph ++
            rowText (countUntil (shifted ms first) (last - first + 1).toNat) } :
        Writing Unit).run p' := by
  obtain ⟨first, last, hfirst, hlast, hends, hhead, hgetLast⟩ := exists_ends hne
  have hlow := (hends last hlast).1
  have hhigh := (h.day last hlast).2
  have hday := (h.day first hfirst).1
  have hlength : toInt (last - first) = last - first := toInt_eq (by omega) (by omega)
  have hsize : toInt (toInt (last - first) + 1) = last - first + 1 := by
    rw [hlength, toInt_eq (by omega) (by omega)]
  have hspan : (shifted ms first).getLast? = some (last - first) := by
    rw [shifted, List.getLast?_map, hgetLast, Option.map_some]
  have hshift : ((ms.insertionSort (· ≤ ·)).map fun t => t - first) = shifted ms first := rfl
  refine ⟨first, last, { p with
    nodes := if p.nodes < (shifted ms first).length then (shifted ms first).length else p.nodes
    biggest := if p.biggest < last - first then last - first else p.biggest },
    ⟨hfirst, hlast, hends⟩, rfl, ?_⟩
  simp only [writeBlock, h.parsed, orThrow, hhead, hshift, hspan, hsize,
    if_neg (by omega : ¬last - first + 1 < 0), pure_bind]
  rfl

theorem length_shifted (ms : List ℤ) (first : ℤ) : (shifted ms first).length = ms.length := by
  rw [shifted, List.length_map, List.length_insertionSort]

/-- Nothing is left to cut off: the line of a block with one time is not written, nor is that of a
block without any. -/
theorem writeBlock_short (h : Parsed parse midnight imports ms) (hlength : ms.length < 2)
    (p : Progress) : ∃ e p', (writeBlock parse imports).run p = .error e p' ∧
      p'.rGraph = p.rGraph := by
  by_cases hne : ms = []
  · subst hne
    refine ⟨.arrayIndexOutOfBounds, p, ?_, rfl⟩
    simp only [writeBlock, h.parsed, orThrow, pure_bind]
    rfl
  · obtain ⟨first, last, p', -, hp', hrun⟩ := writeBlock_run h hne p
    refine ⟨.illegalArgument, p', ?_, hp'⟩
    have hcut : ((shifted ms first).length : ℤ) - 1 < 1 := by
      rw [length_shifted]
      omega
    rw [hrun, copyOfRange, if_pos hcut]
    rfl

/-- With two times or more the line is the block's curve. -/
theorem writeBlock_long (h : Parsed parse midnight imports ms) (hlength : 2 ≤ ms.length)
    (p : Progress) : ∃ row p', (writeBlock parse imports).run p = .ok () p' ∧
      p'.rGraph = p.rGraph ++ rowText row ∧ IsCurve ms row := by
  have hne : ms ≠ [] := fun hnil => by simp [hnil] at hlength
  obtain ⟨first, last, p', ⟨hfirst, hlast, hends⟩, hp', hrun⟩ := writeBlock_run h hne p
  have hcut : ¬((shifted ms first).length : ℤ) - 1 < 1 := by
    rw [length_shifted]
    omega
  have hstart : ¬((1 : ℤ) < 0 ∨
      (((shifted ms first).insertionSort (· ≤ ·)).length : ℤ) < 1) := by
    rw [List.length_insertionSort, length_shifted]
    omega
  rw [copyOfRange, if_neg hcut, if_neg hstart] at hrun
  refine ⟨_, _, hrun, ?_, isCurve_countUntil hfirst hlast hends⟩
  simp only [hp']
  rfl

theorem SameDay.head {rest : List (List String)} (h : SameDay parse midnight (imports :: rest)) :
    SameDay parse midnight [imports] := by
  intro imports' hmem
  rw [List.mem_singleton.mp hmem]
  exact h imports List.mem_cons_self

theorem SameDay.tail {rest : List (List String)} (h : SameDay parse midnight (imports :: rest)) :
    SameDay parse midnight rest := fun imports' hmem => h imports' (List.mem_cons_of_mem _ hmem)

/-- A line of the file for a block that the loop got past. -/
def HasCurve (parse : String → Option ℤ) (imports : List String) (row : List ℕ) : Prop :=
  ∃ ms, imports.mapM parse = some ms ∧ IsCurve ms row

/-- The loop writes the curves of the blocks before the first one with fewer than two times. -/
theorem afterLoop_forM (blocks : List (List String)) (h : SameDay parse midnight blocks) (n : ℕ)
    (p : Progress) : ∃ rows,
      List.Forall₂ (HasCurve parse) (blocks.takeWhile fun imports => 2 ≤ imports.length) rows ∧
      (afterLoop n ((blocks.forM (writeBlock parse)).run p)).rGraph =
        p.rGraph ++ String.join (rows.map rowText) ∧
      ((afterLoop n ((blocks.forM (writeBlock parse)).run p)).closed ↔
        ∀ imports ∈ blocks, 2 ≤ imports.length) := by
  induction blocks generalizing p with
  | nil => exact ⟨[], .nil, (String.append_empty).symm, by simp [afterLoop, Progress.files]⟩
  | cons imports blocks ih =>
    obtain ⟨ms, hparsed⟩ := h.head.exists_parsed
    have hrun : ((imports :: blocks).forM (writeBlock parse)).run p =
        (writeBlock parse imports >>= fun _ => blocks.forM (writeBlock parse)).run p := rfl
    rw [hrun, EStateM.run_bind]
    by_cases hlength : 2 ≤ imports.length
    · obtain ⟨row, p', hblock, hrow, hcurve⟩ :=
        writeBlock_long hparsed (hlength.trans_eq hparsed.length.symm) p
      obtain ⟨rows, hrows, htext, hclosed⟩ := ih h.tail p'
      refine ⟨row :: rows, ?_, ?_, ?_⟩
      · rw [List.takeWhile_cons_of_pos (by simpa using hlength)]
        exact .cons ⟨ms, hparsed.parsed, hcurve⟩ hrows
      · simp only [hblock, htext, hrow, List.map_cons, String.join_cons, String.append_assoc]
      · simp only [hblock, hclosed, List.forall_mem_cons, hlength, true_and]
    · obtain ⟨e, p', hblock, htext⟩ :=
        writeBlock_short hparsed (hparsed.length.trans_lt (not_le.mp hlength)) p
      refine ⟨[], ?_, ?_, ?_⟩
      · rw [List.takeWhile_cons_of_neg (by simpa using hlength)]
        exact .nil
      · simp only [hblock, afterLoop, Progress.files, htext, List.map_nil, String.join_nil,
          String.append_empty]
      · simp [hblock, afterLoop, Progress.files, hlength]

theorem count_newline_rowText (row : List ℕ) : (rowText row).toList.count '\n' = 1 := by
  have hentries : '\n' ∉ (String.join (row.map fun n => toString n ++ " ")).toList := by
    intro hmem
    rw [String.toList_join, List.mem_flatMap] at hmem
    obtain ⟨entry, hentry, hmem⟩ := hmem
    obtain ⟨n, -, rfl⟩ := List.mem_map.mp hentry
    rw [String.toList_append, List.mem_append] at hmem
    rcases hmem with hmem | hmem
    · exact notMem_of_not_isDigit (by decide) n hmem
    · exact absurd hmem (by decide +kernel)
  rw [rowText, String.toList_append, List.count_append, List.count_eq_zero.mpr hentries]
  decide +kernel

theorem count_newline_rows (rows : List (List ℕ)) :
    (String.join (rows.map rowText)).toList.count '\n' = rows.length := by
  induction rows with
  | nil => decide +kernel
  | cons row rows ih =>
    rw [List.map_cons, String.join_cons, String.toList_append, List.count_append,
      count_newline_rowText, ih, List.length_cons, Nat.add_comm]

theorem Covers.count_newline {text : String} (h : Covers parse times text) :
    text.toList.count '\n' = times.length - STARTBLOCK := by
  obtain ⟨rows, rfl, hlength, -⟩ := h
  rw [count_newline_rows, hlength]

theorem exists_curve {blocks : List (List String)} {rows : List (List ℕ)}
    (h : List.Forall₂ (HasCurve parse) blocks rows) {i : ℕ} (hi : blocks[i]? = some imports) :
    ∃ row, rows[i]? = some row ∧ HasCurve parse imports row := by
  obtain ⟨hlt, rfl⟩ := List.getElem?_eq_some_iff.mp hi
  have hlt' : i < rows.length := hlt.trans_eq h.length_eq
  exact ⟨rows[i], List.getElem?_eq_getElem hlt', h.get hlt hlt'⟩

/-- The loop over the whole table, from the empty file. -/
theorem makeRecieverFile_rows (h : SameDay parse midnight times) : ∃ rows,
    List.Forall₂ (HasCurve parse)
      ((times.drop STARTBLOCK).takeWhile fun imports => 2 ≤ imports.length) rows ∧
    (makeRecieverFile parse times).rGraph = String.join (rows.map rowText) ∧
    ((makeRecieverFile parse times).closed ↔
      ∀ imports ∈ times.drop STARTBLOCK, 2 ≤ imports.length) := by
  have hday : SameDay parse midnight (times.drop STARTBLOCK) :=
    fun imports hmem => h imports (List.mem_of_mem_drop hmem)
  obtain ⟨rows, hrows, htext, hclosed⟩ := afterLoop_forM (times.drop STARTBLOCK) hday times.length
    { rGraph := "", gaus := "", biggest := 0, nodes := 0 }
  exact ⟨rows, hrows, htext.trans String.empty_append, hclosed⟩

/-- Every block has its line, with its curve, exactly if each was imported by two nodes or more. -/
theorem covers_iff_two_imports (h : SameDay parse midnight times) {text : String}
    (hleaves : (makeRecieverFile parse times).Leaves text) :
    Covers parse times text ↔ ∀ imports ∈ times.drop STARTBLOCK, 2 ≤ imports.length := by
  obtain ⟨rows, hrows, htext, hclosed⟩ := makeRecieverFile_rows h
  constructor
  · intro hcovers
    have hle : times.length - STARTBLOCK ≤ rows.length := by
      rw [← hcovers.count_newline, ← count_newline_rows rows, ← htext]
      exact hleaves.1.sublist.count_le '\n'
    have hall : (times.drop STARTBLOCK).takeWhile (fun imports => 2 ≤ imports.length) =
        times.drop STARTBLOCK := by
      apply (List.takeWhile_prefix _).eq_of_length_le
      rw [List.length_drop, hrows.length_eq]
      exact hle
    intro imports hmem
    simpa using List.takeWhile_eq_self_iff.mp hall imports hmem
  · intro hlong
    have hall : (times.drop STARTBLOCK).takeWhile (fun imports => 2 ≤ imports.length) =
        times.drop STARTBLOCK :=
      List.takeWhile_eq_self_iff.mpr fun imports hmem => by simpa using hlong imports hmem
    rw [hall] at hrows
    refine ⟨rows, (hleaves.2 (hclosed.mpr hlong)).trans htext, ?_, ?_⟩
    · rw [← hrows.length_eq, List.length_drop]
    · intro block hblock imports himports _
      have hdrop : (times.drop STARTBLOCK)[block - STARTBLOCK]? = some imports := by
        rw [List.getElem?_drop, Nat.add_sub_cancel' hblock, himports]
      obtain ⟨row, hrow, ms, hparsed, hcurve⟩ := exists_curve hrows hdrop
      exact ⟨ms, row, hparsed, hrow, hcurve⟩

/-- The formatter in UTC, on a time of day with all its parts; the hour 24 is midnight. -/
def clockTime (s : String) : Option ℤ :=
  match (s.toList.splitOn ':').map (List.splitOn '.') with
  | [[kk], [mm], [ss, sss]] => do
    let hours ← digitsValue kk
    let minutes ← digitsValue mm
    let seconds ← digitsValue ss
    let ms ← digitsValue sss
    pure (((hours % 24 * 60 + minutes) * 60 + seconds) * 1000 + ms : ℕ)
  | _ => none

/-- The first fifty blocks are passed over, so their times are left out here. -/
def fromStart (blocks : List (List String)) : List (List String) :=
  List.replicate STARTBLOCK [] ++ blocks

theorem sameDay_clockTime (blocks : List (List String))
    (h : ∀ imports ∈ blocks, ∀ t ∈ imports, (clockTime t).any fun ms => 0 ≤ ms ∧ ms < 86400000) :
    SameDay clockTime 0 (fromStart blocks) := by
  intro imports hmem t ht
  rcases List.mem_append.mp hmem with hmem | hmem
  · rw [List.eq_of_mem_replicate hmem] at ht
    cases ht
  · obtain ⟨ms, hms, hday⟩ := (Option.any_eq_true _ _).mp (h imports hmem t ht)
    exact ⟨ms, hms, by simpa using hday⟩

/-- Three nodes import the one block and two the other. -/
theorem covers_two_blocks :
    Covers clockTime (fromStart [["12:00:00.102", "12:00:00.100", "12:00:00.103"],
      ["12:00:07.000", "12:00:07.001"]]) "1 1 2 3 \n1 2 \n" :=
  (covers_iff_two_imports (sameDay_clockTime _ (by decide +kernel))
    ⟨by decide +kernel, by decide +kernel⟩).mpr (by decide +kernel)

/-- A block that only its miner has imported, between two that two nodes have. -/
def minerOnly : List (List String) :=
  fromStart [["12:00:00.100", "12:00:00.101"], ["12:00:07.000"], ["12:00:09.000", "12:00:09.002"]]

/-- Its line is missing, and the next block's with it. -/
theorem minerOnly_not_covered : SameDay clockTime 0 minerOnly ∧
    (makeRecieverFile clockTime minerOnly).rGraph = "1 2 \n" ∧
    ∀ text, (makeRecieverFile clockTime minerOnly).Leaves text →
      ¬Covers clockTime minerOnly text := by
  refine ⟨sameDay_clockTime _ (by decide +kernel), by decide +kernel, ?_⟩
  intro text hleaves hcovers
  have hcount := hleaves.1.sublist.count_le '\n'
  rw [hcovers.count_newline] at hcount
  exact absurd hcount (by decide +kernel)

end PropagationCurves
