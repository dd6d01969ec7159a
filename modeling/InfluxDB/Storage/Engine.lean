import InfluxDB.Tsm.CacheRuns
import InfluxDB.Wal.Replay

/-!
    The storage engine: writes go to the log and then to the cache, and snapshots of the cache go to TSM
    files, after which the segments of the log that were closed before are removed.

    A write holds the read lock of the engine from its record in the log to the end of its write to the
    cache, so that other writes may come between the two but no snapshot is acquired or committed there.
    The steps of a commit hold the write lock.  An attempt that fails gives the snapshot back at its end,
    in a deferred call that comes after the lock was given back; another snapshot may be acquired before
    it, so that several attempts are under way.
-/

namespace InfluxDB.Storage

open Lib Tsm Wal

/-- The values of a TSM file by series key. -/
abbrev TsmFile := FinMap Bytes (Values Value)

/-- How far `writeSnapshot` has come with a snapshot: it was acquired, deduplicated, written to files that
are not in the file store yet, it is being committed, or it has failed, before or after it was cleared, and
its deferred `ClearSnapshot(false)` is still to come. -/
inductive Phase where
  | acquired
  | prepared
  | written (file : TsmFile)
  | replaced
  | removing (rest : List ℕ)
  | failed (cleared : Bool)

/-- A snapshot that is being written, with the segments that were closed when it was acquired. -/
structure Attempt where
  segments : List ℕ
  phase : Phase

/-- The attempt holds the write lock. -/
def Attempt.locks (a : Attempt) : Bool :=
  match a.phase with
  | .replaced => true
  | .removing _ => true
  | _ => false

/-- The engine.  The files of the file store are in the order of their generations; `pending` has the writes
that are in the log and hold the read lock. -/
structure Engine where
  log : Log
  cache : Cache
  files : List TsmFile
  pending : List (FinMap Bytes (Values Value))
  attempts : List Attempt

/-- What `CreateSeriesListIfNotExists` makes of a write: it fails, or it drops the points of some keys;
`invalid` says that points were dropped from the write before it came to the log. -/
inductive IndexOutcome where
  | failed
  | indexed (dropped : List Bytes) (invalid : Bool)

namespace Engine

variable (sn : Snappy) (e : Engine)

/-- The value at a key and a time: the cache comes before the files. -/
def read (k : Bytes) (t : ℤ) : Option Value :=
  (latest (e.cache.values k).1 t).or (latest (e.files.flatMap fun f => (f.lookup k).getD []) t)

/-- The write lock is held. -/
def locked : Bool := e.attempts.any Attempt.locks

/-- The write lock cannot be taken. -/
def lockHeld : Bool := e.locked || !e.pending.isEmpty

/-- `WritePoints` up to the record in the log. -/
def writePoints (values : FinMap Bytes (Values Value)) : Engine :=
  if e.locked then e
  else
    match e.log.writeToLog sn (.write values) with
    | (.error _, log) => { e with log }
    | (.ok _, log) => { e with log, pending := e.pending ++ [values] }

/-- The values without those of the dropped keys. -/
def withoutKeys (values : FinMap Bytes (Values Value)) (dropped : List Bytes) : FinMap Bytes (Values Value) :=
  if dropped = [] then values else FinMap.filterMap (fun k v => if k ∈ dropped then none else some v) values

/-- `AcquireSegments` and `Cache.Snapshot`, under the write lock. -/
def acquireSegments : Engine :=
  if e.lockHeld then e
  else
    let log := e.log.closeSegment
    match e.cache.takeSnapshot with
    | (.error _, cache) => { e with log, cache }
    | (.ok _, cache) => { e with log, cache, attempts := e.attempts ++ [⟨log.closedSegments, .acquired⟩] }

/-- `ClearSnapshot`. -/
def clearSnapshot (success : Bool) : Engine := { e with cache := (e.cache.clearSnapshot success).getD e.cache }

/-- An attempt goes on. -/
def setAttempt (i : ℕ) (a : Attempt) : Engine := { e with attempts := e.attempts.set i a }

/-- An attempt returns. -/
def endAttempt (i : ℕ) : Engine := { e with attempts := e.attempts.eraseIdx i }

end Engine

/-! ### Runs -/

/-- The engine with the history of its cache and the points of the writes that returned no error. -/
structure Run where
  engine : Engine
  history : History
  acked : List (Bytes × (ℤ × Value))

/-- A step of a write or of an attempt to write a snapshot; each step of an attempt may fail. -/
inductive Step where
  | writePoints (values : FinMap Bytes (Values Value))
  | writePointsLocked (i : ℕ) (index : IndexOutcome)
  | acquireSegments
  | deduplicate (i : ℕ)
  | writeSnapshot (i : ℕ) (ok : Bool)
  | replace (i : ℕ) (ok : Bool)
  | clearSnapshot (i : ℕ)
  | removeSegment (i : ℕ) (removed : Bool)
  | finishRemove (i : ℕ) (ok : Bool)
  | deferredClear (i : ℕ)

/-- All points of a write. -/
def pointsIn (values : FinMap Bytes (Values Value)) : List (Bytes × (ℤ × Value)) :=
  values.entries.flatMap fun kv => kv.2.map fun p => (kv.1, p)

namespace Run

variable (sn : Snappy)

/-- `writePointsLocked` of a write that is in the log. -/
def writePointsLocked (r : Run) (values : FinMap Bytes (Values Value)) : IndexOutcome → Run
  | .failed => r
  | .indexed dropped invalid =>
    let batch := Engine.withoutKeys values dropped
    let w := r.engine.cache.writeMulti batch
    { engine := { r.engine with cache := w.2 }
      history := { r.history with written := r.history.written ++ CacheCall.acceptedOf r.engine.cache batch }
      acked := if w.1 = none ∧ dropped = [] ∧ invalid = false then r.acked ++ pointsIn values else r.acked }

/-- One step; a step that does not fit the phase of its attempt does nothing. -/
def step (r : Run) : Step → Run
  | .writePoints values => { r with engine := r.engine.writePoints sn values }
  | .writePointsLocked i index =>
    match r.engine.pending[i]? with
    | none => r
    | some values =>
      { r with engine := { r.engine with pending := r.engine.pending.eraseIdx i } }.writePointsLocked values index
  | .acquireSegments =>
    { r with
      engine := r.engine.acquireSegments
      history := { r.history with
        taken :=
          if !r.engine.lockHeld && CacheCall.takes r.engine.cache then r.history.written.length
          else r.history.taken } }
  | .deduplicate i =>
    match r.engine.attempts[i]? with
    | some ⟨segments, .acquired⟩ =>
      if (r.engine.cache.snapshot.getD ⟨∅, 0⟩).size = 0 then
        { r with
          engine := (r.engine.clearSnapshot true).endAttempt i
          history := { r.history with cleared := r.history.taken } }
      else
        { r with engine :=
          { r.engine with cache := r.engine.cache.deduplicateSnapshot }.setAttempt i ⟨segments, .prepared⟩ }
    | _ => r
  | .writeSnapshot i ok =>
    match r.engine.attempts[i]? with
    | some ⟨segments, .prepared⟩ =>
      let store := (r.engine.cache.snapshot.getD ⟨∅, 0⟩).store
      let file := FinMap.filterMap (fun _ e => some e.values) store
      { r with engine := r.engine.setAttempt i ⟨segments, if ok then .written file else .failed false⟩ }
    | _ => r
  | .replace i ok =>
    match r.engine.attempts[i]? with
    | some ⟨segments, .written file⟩ =>
      if r.engine.lockHeld then r
      else if ok then
        { r with engine :=
          { r.engine with files := r.engine.files ++ [file] }.setAttempt i ⟨segments, .replaced⟩ }
      else { r with engine := r.engine.setAttempt i ⟨segments, .failed false⟩ }
    | _ => r
  | .clearSnapshot i =>
    match r.engine.attempts[i]? with
    | some ⟨segments, .replaced⟩ =>
      { r with
        engine := (r.engine.clearSnapshot true).setAttempt i ⟨segments, .removing segments⟩
        history := { r.history with cleared := r.history.taken } }
    | _ => r
  | .removeSegment i removed =>
    match r.engine.attempts[i]? with
    | some ⟨segments, .removing (f :: rest)⟩ =>
      let log := if removed then r.engine.log.remove [f] else r.engine.log
      { r with engine := { r.engine with log }.setAttempt i ⟨segments, .removing rest⟩ }
    | _ => r
  | .finishRemove i ok =>
    match r.engine.attempts[i]? with
    | some ⟨segments, .removing []⟩ =>
      { r with engine := if ok then r.engine.endAttempt i else r.engine.setAttempt i ⟨segments, .failed true⟩ }
    | _ => r
  | .deferredClear i =>
    match r.engine.attempts[i]? with
    | some ⟨_, .failed _⟩ => { r with engine := (r.engine.clearSnapshot false).endAttempt i }
    | _ => r

/-- A new engine on an empty directory. -/
def init (maxSize : ℕ) : Run :=
  ⟨⟨(⟨∅, newWAL⟩ : Log).openWAL, newCache maxSize, [], [], []⟩, ⟨[], 0, 0⟩, []⟩

def run (maxSize : ℕ) (steps : List Step) : Run := steps.foldl (step sn) (init maxSize)

end Run

end InfluxDB.Storage
