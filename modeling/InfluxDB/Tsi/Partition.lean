import InfluxDB.Tsi.IndexFiles
import Mathlib.Data.Finset.Sort

/-!
    A partition of the series index: its files, newest first, the writes to the active log file, and
    the compactions that run beside them.

    The first file is the active log file.  When it is full, a new one is put in front and the old one
    is compacted to an index file of level 1; several log files may be in work at a time.  For every
    level at most one compaction of index files runs, which picks its files when it starts and
    replaces them when it ends.  Files of a set are compared by pointers, here by their id and level.
-/

namespace InfluxDB.Tsi

open Lib Models List

/-- A log file has level 0. -/
structure File where
  id : ℕ
  level : ℕ
  contents : Contents
  deriving DecidableEq

/-- `MustReplace` fails, or runs out of bounds. -/
inductive ReplaceError where
  | notFound
  | nonContiguous
  | panic
  deriving DecidableEq

/-- The check that all old files are contiguous, from the first one on. -/
def checkContiguous : List File → List File → Except ReplaceError Unit
  | _, [] => .ok ()
  | [], _ :: _ => .error .panic
  | f :: files, o :: oldFiles => if f = o then checkContiguous files oldFiles else .error .nonContiguous

/-- Swap a list of files for a single file. -/
def mustReplace (files oldFiles : List File) (newFile : File) : Except ReplaceError (List File) :=
  match oldFiles with
  | [] => .error .panic
  | o :: _ =>
    let i := files.findIdx fun f => f = o
    if i = files.length ∧ files ≠ [] then .error .notFound
    else
      match checkContiguous (files.drop i) oldFiles with
      | .error e => .error e
      | .ok () => .ok (files.take i ++ newFile :: files.drop (i + oldFiles.length))

/-- The loop of `LastContiguousIndexFilesByLevel`, from the last file on. -/
def lastContiguousLoop (level : ℕ) : List File → List File → List File
  | [], a => a
  | f :: files, a =>
    if level < f.level then lastContiguousLoop level files a
    else if level > f.level then a
    else lastContiguousLoop level files (f :: a)

def lastContiguousIndexFilesByLevel (files : List File) (level : ℕ) : List File :=
  if level = 0 then [] else lastContiguousLoop level files.reverse []

/-- A call of `compactToLevel` before it swaps its files: their level, and the id of the new file once it is taken. -/
structure Compaction where
  level : ℕ
  files : List File
  id : Option ℕ
  deriving DecidableEq

structure Partition where
  /-- The file set, with the active log file in front. -/
  files : List File
  seq : ℕ
  seriesIDSet : Finset ℕ
  /-- The number of levels. -/
  levels : ℕ
  levelCompacting : Finset ℕ
  /-- The log files of calls of `compactLogFile` that have not swapped them yet. -/
  logs : List File
  compactions : List Compaction
  /-- Levels whose compaction has ended but is still marked. -/
  ended : List ℕ

namespace Partition

/-- A partition that is opened for the first time. -/
def new (levels : ℕ) : Partition where
  files := [⟨1, 0, Contents.new⟩]
  seq := 1
  seriesIDSet := ∅
  levels := levels
  levelCompacting := ∅
  logs := []
  compactions := []
  ended := []

/-! ### Writes -/

variable (p : Partition)

/-- Change the active log file. -/
def writeActive (g : Contents → Contents) : Partition :=
  { p with files := p.files.modifyHead fun f => { f with contents := g f.contents } }

/-- One turn of the second loop of `AddSeriesList`: the series set, the log file and the series that were created. -/
def addSeries (st : Finset ℕ × Contents × List (ℕ × SeriesKey)) (s : ℕ × SeriesKey) :
    Finset ℕ × Contents × List (ℕ × SeriesKey) :=
  if s.1 ∈ st.1 then st
  else
    let entry : LogEntry := { flag := 0, seriesID := s.1, name := [], key := [], value := [], cached := some s.2 }
    (insert s.1 st.1, st.2.1.execEntry (fun _ => none) entry, st.2.2 ++ [s])

/-- `LogFile.AddSeriesList`. -/
def addSeriesList (seriesSet : Finset ℕ) (f : Contents) (collection : List (ℕ × SeriesKey)) :
    Finset ℕ × Contents × List (ℕ × SeriesKey) :=
  (collection.filter fun s => s.1 ∉ seriesSet).foldl addSeries (seriesSet, f, [])

/-- The contents of the active log file. -/
def active : Contents := (p.files.head?.map File.contents).getD .new

def createSeriesListIfNotExists (collection : List (ℕ × SeriesKey)) : Partition :=
  let (seriesSet, f, _) := addSeriesList p.seriesIDSet p.active collection
  { p.writeActive fun _ => f with seriesIDSet := seriesSet }

/-- The series that a call of `createSeriesListIfNotExists` creates. -/
def created (collection : List (ℕ × SeriesKey)) : List (ℕ × SeriesKey) :=
  (addSeriesList p.seriesIDSet p.active collection).2.2

/-- The entry of `DeleteSeriesID`. -/
def deleteSeriesEntry (id : ℕ) : LogEntry :=
  { flag := logEntrySeriesTombstoneFlag, seriesID := id, name := [], key := [], value := [], cached := none }

def dropSeries (sfile : SeriesFile) (id : ℕ) : Partition :=
  if id ∉ p.seriesIDSet then p
  else { p.writeActive fun f => f.execEntry sfile (deleteSeriesEntry id) with seriesIDSet := p.seriesIDSet.erase id }

/-- The contents of the files, newest first. -/
def fileSet : FileSet := p.files.map File.contents

/-- The entries that delete a tag key and its values, which are read from the elements of the files. -/
def deleteTagKeyEntries (name key : Bytes) (es : List TagKey) : List LogEntry :=
  let entry : LogEntry := { flag := 0, seriesID := 0, name := name, key := key, value := [], cached := none }
  (if (es.head?.map TagKey.deleted).getD false then [] else [{ entry with flag := logEntryTagKeyTombstoneFlag }]) ++
    (SortedMap.merge ((IndexFiles.untilTombstone es).map TagKey.tagValues)).entries.flatMap fun v =>
      if (v.2.head?.map TagValue.deleted).getD false then []
      else [{ entry with flag := logEntryTagValueTombstoneFlag, value := v.1 }]

/-- The entries that `DropMeasurement` appends to the active log file. -/
def dropMeasurementEntries (fs : FileSet) (name : Bytes) : List LogEntry :=
  ((SortedMap.merge (fs.filterMap fun f => f.tagKeyIterator name)).entries.flatMap fun k =>
    deleteTagKeyEntries name k.1 k.2) ++
  (((fs.measurementSeriesIDs name).sort).map deleteSeriesEntry ++
  [{ flag := logEntryMeasurementTombstoneFlag, seriesID := 0, name := name, key := [], value := [], cached := none }])

def dropMeasurement (sfile : SeriesFile) (name : Bytes) : Partition :=
  { p.writeActive fun f => f.execEntries sfile (dropMeasurementEntries p.fileSet name) with
    seriesIDSet := p.seriesIDSet \ p.fileSet.measurementSeriesIDs name }

/-! ### Compactions -/

def nextSequence : Partition := { p with seq := p.seq + 1 }

/-- `checkLogFile` when the active log file is full: a new one is put in front, the old one will be compacted. -/
def rollOver : Partition :=
  { p.nextSequence with
    files := ⟨p.seq + 1, 0, Contents.new⟩ :: p.files
    logs := p.files.head?.toList ++ p.logs }

/-- The swap of `compactLogFile`. -/
def finishLog (f : File) : Partition :=
  if f ∈ p.logs then
    match mustReplace p.files [f] ⟨f.id, 1, f.contents.compactTo⟩ with
    | .ok files => { p with files := files, logs := p.logs.erase f }
    | .error _ => { p with logs := p.logs.erase f }
  else p

/-- `compactLogFile` ends with an error. -/
def failLog (f : File) : Partition := { p with logs := p.logs.erase f }

/-- The maximum number of files that can be merged together at once. -/
def maxIndexMergeCount : ℕ := 2

/-- One turn of the loop of `compact`. -/
def compactLevel (level : ℕ) : Partition :=
  if level ∈ p.levelCompacting then p
  else
    let files := lastContiguousIndexFilesByLevel p.files level
    if files.length < 2 then p
    else
      let files := if files.length > maxIndexMergeCount then files.drop (files.length - maxIndexMergeCount) else files
      { p with
        levelCompacting := insert level p.levelCompacting
        compactions := ⟨level, files, none⟩ :: p.compactions }

/-- Start a compaction of every level but the first and the last one, where there is something to compact. -/
def compact : Partition := (range' 1 (p.levels - 2)).foldl compactLevel p

/-- `compactToLevel` takes the id of its new file. -/
def createFile (c : Compaction) : Partition :=
  if c ∈ p.compactions ∧ c.id = none then
    { p.nextSequence with compactions := { c with id := some (p.seq + 1) } :: p.compactions.erase c }
  else p

/-- `compactToLevel` ends. -/
def endLevel (c : Compaction) : Partition :=
  { p with compactions := p.compactions.erase c, ended := c.level :: p.ended }

/-- The swap of `compactToLevel`. -/
def finishLevel (c : Compaction) : Partition :=
  match c.id with
  | none => p
  | some id =>
    if c ∈ p.compactions then
      match mustReplace p.files c.files ⟨id, c.level + 1, IndexFiles.compactTo (c.files.map File.contents)⟩ with
      | .ok files => { p.endLevel c with files := files }
      | .error _ => p.endLevel c
    else p

/-- `compactToLevel` ends with an error. -/
def failLevel (c : Compaction) : Partition := if c ∈ p.compactions then p.endLevel c else p

/-- The mark of a level is taken away. -/
def release (level : ℕ) : Partition :=
  if level ∈ p.ended then { p with ended := p.ended.erase level, levelCompacting := p.levelCompacting.erase level }
  else p

/-! ### Runs -/

/-- What happens to a partition; deletions read the series file. -/
inductive Op where
  | createSeriesListIfNotExists (collection : List (ℕ × SeriesKey))
  | dropSeries (sfile : SeriesFile) (id : ℕ)
  | dropMeasurement (sfile : SeriesFile) (name : Bytes)
  | rollOver
  | finishLog (f : File)
  | failLog (f : File)
  | compact
  | createFile (c : Compaction)
  | finishLevel (c : Compaction)
  | failLevel (c : Compaction)
  | release (level : ℕ)

def step : Op → Partition
  | .createSeriesListIfNotExists collection => p.createSeriesListIfNotExists collection
  | .dropSeries sfile id => p.dropSeries sfile id
  | .dropMeasurement sfile name => p.dropMeasurement sfile name
  | .rollOver => p.rollOver
  | .finishLog f => p.finishLog f
  | .failLog f => p.failLog f
  | .compact => p.compact
  | .createFile c => p.createFile c
  | .finishLevel c => p.finishLevel c
  | .failLevel c => p.failLevel c
  | .release level => p.release level

def run (ops : List Op) : Partition := ops.foldl step p

/-! ### Queries -/

def measurementExists (name : Bytes) : Bool := (p.fileSet.measurement name).any fun m => !m.deleted

def hasTagKey (name key : Bytes) : Bool := p.fileSet.hasTagKey name key

def hasTagValue (name key value : Bytes) : Bool := p.fileSet.hasTagValue name key value

/-- The keys of an iterator, without those that are deleted. -/
def undeleted (itr : Option (SortedMap Bytes Bool)) : List Bytes :=
  match itr with
  | none => []
  | some m => (m.entries.filter fun e => !e.2).map Prod.fst

/-- `TagKeyIterator`, as the keys it returns. -/
def tagKeyIterator (name : Bytes) : List Bytes := undeleted (p.fileSet.tagKeyIterator name)

/-- `TagValueIterator`, as the values it returns. -/
def tagValueIterator (name key : Bytes) : List Bytes := undeleted (p.fileSet.tagValueIterator name key)

end Partition

/-! ### Replacing files -/

variable {files oldFiles pre post : List File} {newFile : File}

theorem checkContiguous_eq_ok_iff : checkContiguous files oldFiles = .ok () ↔ ∃ post, files = oldFiles ++ post := by
  induction oldFiles generalizing files with
  | nil => exact iff_of_true (by rw [checkContiguous]) ⟨files, rfl⟩
  | cons o oldFiles ih =>
    cases files with
    | nil => exact iff_of_false nofun nofun
    | cons f files =>
      rw [checkContiguous]
      by_cases hf : f = o
      · rw [if_pos hf, ih, hf]
        simp only [cons_append, cons.injEq, true_and]
      · rw [if_neg hf]
        refine iff_of_false nofun ?_
        rintro ⟨post, h⟩
        exact hf (cons.inj h).1

/-- Files that are replaced were contiguous. -/
theorem mustReplace_eq_ok {files' : List File} (h : mustReplace files oldFiles newFile = .ok files') :
    ∃ pre post, files = pre ++ oldFiles ++ post ∧ files' = pre ++ newFile :: post := by
  rw [mustReplace.eq_def] at h
  cases oldFiles with
  | nil => cases h
  | cons o oldFiles =>
    dsimp only at h
    split_ifs at h
    cases hcheck : checkContiguous (files.drop (files.findIdx fun f => f = o)) (o :: oldFiles) with
    | error e => rw [hcheck] at h; cases h
    | ok u =>
      rw [hcheck] at h
      obtain ⟨post, hpost⟩ := checkContiguous_eq_ok_iff.mp hcheck
      cases h
      refine ⟨files.take (files.findIdx fun f => f = o), post, ?_, ?_⟩
      · rw [append_assoc, ← hpost, take_append_drop]
      · rw [← drop_drop, hpost, drop_left]

/-- Contiguous files are replaced. -/
theorem mustReplace_append (hold : oldFiles ≠ []) (hnodup : (pre ++ oldFiles ++ post).Nodup) :
    mustReplace (pre ++ oldFiles ++ post) oldFiles newFile = .ok (pre ++ newFile :: post) := by
  cases oldFiles with
  | nil => exact absurd rfl hold
  | cons o oldFiles =>
    have hpre : ∀ f ∈ pre, f ≠ o := by
      rw [append_assoc] at hnodup
      exact fun f hf heq => disjoint_of_nodup_append hnodup hf (by simp [heq])
    have hidx : (pre ++ (o :: oldFiles) ++ post).findIdx (fun f => f = o) = pre.length := by
      rw [append_assoc, findIdx_append, findIdx_eq_length.mpr (by simpa using hpre)]
      simp [findIdx_cons]
    rw [mustReplace.eq_def]
    dsimp only
    rw [hidx, if_neg (by simp), append_assoc, drop_left, take_left,
      checkContiguous_eq_ok_iff.mpr ⟨post, rfl⟩, ← drop_drop, drop_left, drop_left]

end InfluxDB.Tsi
