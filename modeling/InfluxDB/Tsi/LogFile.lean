import InfluxDB.Lib.SortedMap
import InfluxDB.Models.Key
import Mathlib.Data.Finset.Card

/-!
    What a file of the series index holds, and the log file, which builds it by executing entries.

    A file knows measurements with their tag keys and tag values; each carries a tombstone flag, and
    measurements and tag values carry the ids of their series.  Beside them it keeps the series it
    added and the series it deleted.  Log files keep this in memory and index files on disk, and both
    answer the same queries.
-/

namespace InfluxDB.Tsi

open Lib Models

/-- `logTagValue`, or a `TagBlockValueElem`. -/
structure TagValue where
  deleted : Bool
  series : Finset ℕ
  deriving DecidableEq

/-- `logTagKey`, or a `TagBlockKeyElem`. -/
structure TagKey where
  deleted : Bool
  tagValues : SortedMap Bytes TagValue
  deriving DecidableEq

/-- `logMeasurement`, or a `MeasurementBlockElem` with its tag block. -/
structure Measurement where
  deleted : Bool
  tagSet : SortedMap Bytes TagKey
  series : Finset ℕ
  deriving DecidableEq

/-- The contents of a log file or an index file. -/
structure Contents where
  mms : SortedMap Bytes Measurement
  seriesIDSet : Finset ℕ
  tombstoneSeriesIDSet : Finset ℕ
  deriving DecidableEq

/-- A series key: the name of the measurement and the tags. -/
structure SeriesKey where
  name : Bytes
  tags : Tags
  deriving DecidableEq

/-- The keys that the series file has for ids. -/
abbrev SeriesFile := ℕ → Option SeriesKey

/-! ### Log entries -/

def logEntrySeriesTombstoneFlag : Byte := 1
def logEntryMeasurementTombstoneFlag : Byte := 2
def logEntryTagKeyTombstoneFlag : Byte := 4
def logEntryTagValueTombstoneFlag : Byte := 8

structure LogEntry where
  flag : Byte
  seriesID : ℕ
  name : Bytes
  key : Bytes
  value : Bytes
  /-- The name and tags that a caller passes along. -/
  cached : Option SeriesKey
  deriving DecidableEq

def TagValue.new : TagValue := { deleted := false, series := ∅ }
def TagKey.new : TagKey := { deleted := false, tagValues := .empty }
def Measurement.new : Measurement := { deleted := false, tagSet := .empty, series := ∅ }

/-- Change the value of a tag key, which is created if it does not exist. -/
def TagKey.modify (ts : TagKey) (v : Bytes) (f : TagValue → TagValue) : TagKey :=
  { ts with tagValues := ts.tagValues.set v (f ((ts.tagValues.get v).getD .new)) }

/-- Change a tag key, which is created if it does not exist. -/
def Measurement.modify (mm : Measurement) (k : Bytes) (f : TagKey → TagKey) : Measurement :=
  { mm with tagSet := mm.tagSet.set k (f ((mm.tagSet.get k).getD .new)) }

namespace Contents

/-- A new file. -/
def new : Contents := { mms := .empty, seriesIDSet := ∅, tombstoneSeriesIDSet := ∅ }

variable (f : Contents)

/-- Change a measurement, which is created if it does not exist. -/
def modify (name : Bytes) (g : Measurement → Measurement) : Contents :=
  { f with mms := f.mms.set name (g ((f.mms.get name).getD .new)) }

def execDeleteMeasurementEntry (e : LogEntry) : Contents :=
  f.modify e.name fun _ => { deleted := true, tagSet := .empty, series := ∅ }

def execDeleteTagKeyEntry (e : LogEntry) : Contents :=
  f.modify e.name fun mm => mm.modify e.key fun ts => { ts with deleted := true }

def execDeleteTagValueEntry (e : LogEntry) : Contents :=
  f.modify e.name fun mm => mm.modify e.key fun ts => ts.modify e.value fun tv => { tv with deleted := true }

/-- Add an id to a set, or remove it. -/
def mark (deleted : Bool) (id : ℕ) (s : Finset ℕ) : Finset ℕ := if deleted then s.erase id else insert id s

def execSeriesEntry (sfile : SeriesFile) (f : Contents) (e : LogEntry) : Contents :=
  match e.cached.or (sfile e.seriesID) with
  -- The series was deleted from the series file.
  | none => f
  | some key =>
    let deleted := e.flag == logEntrySeriesTombstoneFlag
    let f := f.modify key.name fun mm =>
      key.tags.foldl
        (fun mm t => mm.modify t.key fun ts => ts.modify t.value fun tv =>
          { tv with series := mark deleted e.seriesID tv.series })
        { mm with deleted := false, series := mark deleted e.seriesID mm.series }
    { f with
      seriesIDSet := mark deleted e.seriesID f.seriesIDSet
      tombstoneSeriesIDSet := mark (!deleted) e.seriesID f.tombstoneSeriesIDSet }

def execEntry (sfile : SeriesFile) (f : Contents) (e : LogEntry) : Contents :=
  if e.flag = logEntryMeasurementTombstoneFlag then f.execDeleteMeasurementEntry e
  else if e.flag = logEntryTagKeyTombstoneFlag then f.execDeleteTagKeyEntry e
  else if e.flag = logEntryTagValueTombstoneFlag then f.execDeleteTagValueEntry e
  else f.execSeriesEntry sfile e

/-- Execute entries in order. -/
def execEntries (sfile : SeriesFile) (f : Contents) (es : List LogEntry) : Contents := es.foldl (execEntry sfile) f

/-! ### Queries of one file -/

def measurement (name : Bytes) : Option Measurement := f.mms.get name

/-- `MeasurementSeriesIDIterator`, as the set of its ids; a nil iterator has none. -/
def measurementSeriesIDs (name : Bytes) : Finset ℕ := ((f.mms.get name).map Measurement.series).getD ∅

def tagKey (name key : Bytes) : Option TagKey := (f.mms.get name).bind fun mm => mm.tagSet.get key

def tagValue (name key value : Bytes) : Option TagValue :=
  (f.tagKey name key).bind fun ts => ts.tagValues.get value

/-- The tag keys of a measurement; nil if there is no measurement. -/
def tagKeyIterator (name : Bytes) : Option (SortedMap Bytes TagKey) :=
  (f.mms.get name).map Measurement.tagSet

/-- The tag values of a key; nil if there is no key. -/
def tagValueIterator (name key : Bytes) : Option (SortedMap Bytes TagValue) :=
  (f.tagKey name key).map TagKey.tagValues

/-- The series of a tag value; nil if there is no value or no series. -/
def tagValueSeriesIDSet (name key value : Bytes) : Option (Finset ℕ) :=
  match f.tagValue name key value with
  | none => none
  | some tv => if tv.series = ∅ then none else some tv.series

/-- The file lists a series under a tag value. -/
def Lists (name key value : Bytes) (id : ℕ) : Prop :=
  ∃ tv, f.tagValue name key value = some tv ∧ id ∈ tv.series

theorem mem_tagValueSeriesIDSet {f : Contents} {name key value : Bytes} {id : ℕ} :
    (∃ ss, f.tagValueSeriesIDSet name key value = some ss ∧ id ∈ ss) ↔ f.Lists name key value id := by
  rw [tagValueSeriesIDSet, Lists]
  cases f.tagValue name key value with
  | none => simp
  | some tv =>
    by_cases hempty : tv.series = ∅
    · simp [hempty]
    · simp [hempty]

end Contents

end InfluxDB.Tsi
