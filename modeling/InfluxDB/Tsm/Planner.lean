import Mathlib.Data.Finset.Union
import InfluxDB.Lib.Bytes
import InfluxDB.Lib.FinMap
import InfluxDB.Tsm.Values

/-!
    The compaction planner.  Files are grouped into generations by their names, the generations are cut
    into groups by level, size and tombstones, and the files of the groups are marked as in use until
    they are released.  Times are natural numbers with 0 for the zero time.
-/

namespace InfluxDB.Tsm

open Lib

/-- `maxTSMFileSize`. -/
def maxTSMFileSize : ℕ := 2048 * 1024 * 1024

/-- What the planner reads of the stats of a file. -/
structure FileStat where
  path : Bytes
  hasTombstone : Bool
  size : ℕ
  deriving DecidableEq

/-- The file store as the planner sees it; the planner ignores the error of `ParseFileName`. -/
structure FileStore where
  stats : List FileStat
  lastModified : ℕ
  blockCount : Bytes → ℕ → ℕ
  parseFileName : Bytes → ℤ × ℕ

/-- The files of one generation, of which there is at least one. -/
structure TsmGeneration where
  id : ℤ
  files : List FileStat
  nonempty : files ≠ []

namespace TsmGeneration

variable (fs : FileStore) (t : TsmGeneration)

def size : ℕ := (t.files.map (·.size)).sum

def level : ℕ :=
  let seq := (fs.parseFileName (t.files.head t.nonempty).path).2
  if seq < 4 then seq else 4

def count : ℕ := t.files.length

def hasTombstones : Bool := t.files.any (·.hasTombstone)

/-- The first file of the generation starts with a full block. -/
def startsFull : Bool := fs.blockCount (t.files.head t.nonempty).path 1 == maxPointsPerBlock

/-- The generation is over the maximum size and contains a full block. -/
def overSize : Bool := t.size > maxTSMFileSize && t.startsFull fs

end TsmGeneration

/-- Generations by ascending id. -/
abbrev TsmGenerations := List TsmGeneration

namespace TsmGenerations

variable (fs : FileStore)

def hasTombstones (a : TsmGenerations) : Bool := a.any (·.hasTombstones)

def level (a : TsmGenerations) : ℕ := a.foldl (fun level g => if g.level fs > level then g.level fs else level) 0

/-- `chunk`; the size is never 0. -/
def chunk (size : ℕ) (a : TsmGenerations) : List TsmGenerations :=
  if _h : a = [] ∨ size = 0 then []
  else if a.length ≥ size then a.take size :: chunk size (a.drop size)
  else [a]
termination_by a.length
decreasing_by
  have := List.length_pos_of_ne_nil fun hnil => _h (.inl hnil)
  rw [List.length_drop]
  omega

def isSorted : TsmGenerations → Bool
  | a :: b :: rest => !decide (b.id < a.id) && isSorted (b :: rest)
  | _ => true

/-- The paths of all files, in order. -/
def paths (a : TsmGenerations) : List Bytes := a.flatMap fun g => g.files.map (·.path)

/-- The loop that groups adjacent generations of one level, and a generation with the next one if that
has a higher level. -/
def groupLevels (skip : TsmGeneration → Bool) :
    TsmGenerations → TsmGenerations → List TsmGenerations → List TsmGenerations
  | [], currentGen, groups => if currentGen.length > 0 then groups ++ [currentGen] else groups
  | cur :: rest, currentGen, groups =>
    if skip cur then groupLevels skip rest currentGen groups
    else if rest.head?.any fun next => cur.level fs < next.level fs
      then groupLevels skip rest (currentGen ++ [cur]) groups
    else if currentGen.length = 0 || level fs currentGen = cur.level fs then
      groupLevels skip rest (currentGen ++ [cur]) groups
    else groupLevels skip rest [cur] (groups ++ [currentGen])

/-- The generations of a full plan, out of `n`: one that is over-size is skipped, unless the next one
has a level of at most 3. -/
def full (n : ℕ) : TsmGenerations → TsmGenerations
  | [] => []
  | group :: rest =>
    let skip := n > 2 && group.overSize fs && !group.hasTombstones
    let skip := if rest.head?.any fun next => next.level fs ≤ 3 then false else skip
    if skip then full n rest else group :: full n rest

/-- The number of generations in front of the first one with a level of at most 3. -/
def endOf (a : TsmGenerations) : ℕ := (a.takeWhile fun g => g.level fs > 3).length

/-- The loop that skips the oldest generations while they are maxed out; `prev` is the generation
before the `i`-th. -/
def startOf : ℕ → Option TsmGeneration → Bool → ℕ → TsmGenerations → ℕ
  | _, _, _, start, [] => start
  | i, prev, hasTombstones, start, g :: rest =>
    if hasTombstones || g.hasTombstones then startOf (i + 1) (some g) true start rest
    else
      let start := if g.overSize fs then i + 1 else start
      if prev.any fun p => g.size * 2 < p.size then i else startOf (i + 1) (some g) false start rest

/-- What a step of the plan keeps of its generations: nothing if one has a level of at most 3, and
otherwise all but as many in front as are over-size. -/
def window (w : TsmGenerations) : Option TsmGenerations :=
  if w.any fun gen => gen.level fs ≤ 3 then none
  else
    let skipped := w.countP fun gen => gen.size ≥ maxTSMFileSize && gen.startsFull fs && !gen.hasTombstones
    if w.length - skipped > 0 then some (w.drop skipped) else none

end TsmGenerations

/-- A list of files eligible to be compacted together. -/
abbrev CompactionGroup := List Bytes

/-- `DefaultPlanner`. -/
structure DefaultPlanner where
  fileStore : FileStore
  compactFullWriteColdDuration : ℤ
  lastPlanCheck : ℕ
  lastFindGenerations : ℕ
  lastGenerations : TsmGenerations
  forceFull : Bool
  filesInUse : Finset Bytes

/-- `NewDefaultPlanner`. -/
def newDefaultPlanner (fs : FileStore) (writeColdDuration : ℤ) : DefaultPlanner where
  fileStore := fs
  compactFullWriteColdDuration := writeColdDuration
  lastPlanCheck := 0
  lastFindGenerations := 0
  lastGenerations := []
  forceFull := false
  filesInUse := ∅

namespace FileStore

variable (fs : FileStore)

/-- The generation that the name of a file gives. -/
def generation (path : Bytes) : ℤ := (fs.parseFileName path).1

/-- A file is put behind the files of its generation. -/
def addFile (generations : FinMap ℤ TsmGeneration) (f : FileStat) : FinMap ℤ TsmGeneration :=
  let gen := fs.generation f.path
  match generations.lookup gen with
  | none => generations.insert gen ⟨gen, [f], by simp⟩
  | some group => generations.insert gen ⟨group.id, group.files ++ [f], by simp⟩

/-- The generations of the files that are not skipped. -/
def generationsOf (skipped : Finset Bytes) : TsmGenerations :=
  let generations := (fs.stats.filter fun f => f.path ∉ skipped).foldl fs.addFile ∅
  let ordered := generations.entries.map (·.2)
  if TsmGenerations.isSorted ordered then ordered else ordered.insertionSort fun a b => a.id ≤ b.id

end FileStore

namespace DefaultPlanner

open TsmGenerations

variable (c : DefaultPlanner)

/-- `findGenerations`: the generations are computed anew when the file store has changed. -/
def findGenerations (skipInUse : Bool) : TsmGenerations × DefaultPlanner :=
  if c.lastFindGenerations ≠ 0 ∧ c.fileStore.lastModified = c.lastFindGenerations then (c.lastGenerations, c)
  else
    let ordered := c.fileStore.generationsOf (if skipInUse then c.filesInUse else ∅)
    (ordered, { c with lastFindGenerations := c.fileStore.lastModified, lastGenerations := ordered })

/-- `acquire`: no file may be in use already. -/
def acquire (groups : List CompactionGroup) : List CompactionGroup × DefaultPlanner :=
  if groups.any fun g => g.any fun f => f ∈ c.filesInUse then ([], c)
  else (groups, { c with filesInUse := c.filesInUse ∪ groups.flatten.toFinset })

/-- `Release`. -/
def release (groups : List CompactionGroup) : DefaultPlanner :=
  { c with filesInUse := c.filesInUse \ groups.flatten.toFinset }

/-- `PlanLevel`. -/
def planLevel (level : ℕ) : List CompactionGroup × DefaultPlanner :=
  if c.forceFull then ([], c)
  else
    let (generations, c) := c.findGenerations true
    if generations.length ≤ 1 && !hasTombstones generations then ([], c)
    else
      let groups := groupLevels c.fileStore (fun _ => false) generations [] []
      let levelGroups := groups.filter fun cur => TsmGenerations.level c.fileStore cur = level
      let minGenerations := if level = 1 then 8 else 4
      let chunks := (levelGroups.flatMap (chunk minGenerations)).filter fun chunk =>
        !(chunk.length < minGenerations && !hasTombstones chunk)
      c.acquire (chunks.map paths)

/-- `PlanOptimize`. -/
def planOptimize : List CompactionGroup × DefaultPlanner :=
  if c.forceFull then ([], c)
  else
    let (generations, c) := c.findGenerations true
    if generations.length ≤ 1 && !hasTombstones generations then ([], c)
    else
      let skip : TsmGeneration → Bool := fun cur => cur.count > 2 && cur.overSize c.fileStore && !cur.hasTombstones
      let groups := groupLevels c.fileStore skip generations [] []
      let levelGroups := groups.filter fun cur => level c.fileStore cur = 4
      let worthwhile := levelGroups.filter fun group => !(group.length < 4 && !hasTombstones group)
      c.acquire (worthwhile.map paths)

/-- `Plan` of a full compaction. -/
def planFull (generations : TsmGenerations) : List CompactionGroup × DefaultPlanner :=
  let c := { c with forceFull := false }
  let kept := full c.fileStore generations.length generations
  let tsmFiles := (paths kept).insertionSort (· ≤ ·)
  if tsmFiles.length ≤ 1 || kept.length ≤ 1 then ([], c) else c.acquire [tsmFiles]

/-- `Plan`; `now` is the time of the call. -/
def plan (lastWrite now : ℕ) : List CompactionGroup × DefaultPlanner :=
  let (generations, c) := c.findGenerations true
  if c.forceFull || c.compactFullWriteColdDuration > 0 && (now : ℤ) - lastWrite > c.compactFullWriteColdDuration &&
      generations.length > 1 then
    c.planFull generations
  else if c.lastPlanCheck > c.fileStore.lastModified && !hasTombstones generations then ([], c)
  else
    let c := { c with lastPlanCheck := now }
    if generations.length ≤ 1 && !hasTombstones generations then ([], c)
    else
      let stop := endOf c.fileStore generations
      let start := startOf c.fileStore 0 none false 0 (generations.take stop)
      let step := if 4 > stop then stop else 4
      let groups := (chunk step ((generations.take stop).drop start)).filterMap (window c.fileStore)
      let compactable := groups.filter fun group => !(group.length < 4 && !hasTombstones group)
      c.acquire (compactable.map fun group => (paths group).insertionSort (· ≤ ·))

/-- `FullyCompacted`. -/
def fullyCompacted : Bool × DefaultPlanner :=
  let (gens, c) := c.findGenerations false
  (gens.length ≤ 1 && !hasTombstones gens, c)

end DefaultPlanner

end InfluxDB.Tsm
