import InfluxDB.Lib.Trace
import InfluxDB.Wal.Log

/-!
    Concurrent writes to the write-ahead log.  A call of `writeToLog` appends its entry to the current segment under
    the lock, queues for the next sync and waits, without the lock, for its result.  The results come from whoever
    holds the lock and syncs: the scheduled goroutine, a roll of the segment, or `Close`.

    A step of the system is what one thread does between two points at which another can come in between.  The
    channel of a call has no buffer, so a result is handed over in one step of both threads.  Every read or write of
    a file may fail; what happens is part of the label of the step.
-/

namespace InfluxDB.Wal.Sync

open Lib Function

/-- A segment file: the calls whose entries the writer took, and how many of them were flushed and synced. -/
structure Segment where
  entries : List ℕ
  flushed : ℕ
  synced : ℕ

/-- `WALSegmentWriter`; a buffered writer that has failed once fails for ever. -/
structure Writer where
  segment : ℕ
  size : ℕ
  failed : Bool
  closed : Bool

inductive CallError where
  | walClosed
  | rollingSegment
  | writingEntry
  | syncing

/-- A call of `writeToLog`.  It waits with its entry at a position of a segment; it returns the result that it was
given, which is nil or an error, or it returns an error without having waited. -/
inductive CallState where
  | idle
  | waiting (segment pos : ℕ)
  | answered (segment pos : ℕ) (ok : Bool)
  | refused (err : CallError)

/-- What a roll of the segment is for: an entry of `n` bytes, or `CloseSegment`. -/
inductive Purpose where
  | write (call n : ℕ)
  | closeSegment

/-- What comes behind the results of a sync. -/
inductive After where
  | unlock
  | roll (p : Purpose)
  | close

/-- What the holder of the lock is doing. -/
inductive Holder where
  | free
  | notify (ok : Bool) (after : After)
  | opening (p : Purpose)

/-- The log.  `syncers` counts the goroutines that `scheduleSync` has started and that have not ended; `received` counts
the results that a call was given. -/
structure State where
  closed : Bool
  currentSegmentID : ℕ
  writer : Option Writer
  segments : ℕ → Segment
  queue : List ℕ
  syncCount : ℕ
  syncers : ℕ
  holder : Holder
  calls : ℕ → CallState
  received : ℕ → ℕ

/-- Which operations on files succeed. -/
structure FileIO where
  write : Bool
  flush : Bool
  sync : Bool
  close : Bool
  openFile : Bool

/-- The steps: a call takes the lock, as do `CloseSegment`, `Close` and the goroutine when its timer fires; the
goroutine sees that the log is closed; the holder of the lock hands over a result, or goes on. -/
inductive Label where
  | write (call n : ℕ) (io : FileIO)
  | closeSegment (io : FileIO)
  | close (io : FileIO)
  | timer (io : FileIO)
  | closing
  | notify
  | proceed (io : FileIO)

/-- The capacity of `syncWaiters`. -/
def maxWaiters : ℕ := 1024

/-- `bufio.Writer.Flush`; nothing is written if nothing is buffered. -/
def flush (io : FileIO) (w : Writer) (seg : Segment) : Bool × Writer × Segment :=
  if w.failed then (false, w, seg)
  else if seg.flushed = seg.entries.length then (true, w, seg)
  else if io.flush && !w.closed then (true, w, { seg with flushed := seg.entries.length })
  else (false, { w with failed := true }, seg)

/-- `WALSegmentWriter.sync`. -/
def syncWriter (io : FileIO) (w : Writer) (seg : Segment) : Bool × Writer × Segment :=
  match flush io w seg with
  | (false, w, seg) => (false, w, seg)
  | (true, w, seg) => if io.sync && !w.closed then (true, w, { seg with synced := seg.flushed }) else (false, w, seg)

/-- `WALSegmentWriter.close`. -/
def closeWriter (io : FileIO) (w : Writer) (seg : Segment) : Bool × Writer × Segment :=
  match flush io w seg with
  | (false, w, seg) => (false, w, seg)
  | (true, w, seg) => (io.close && !w.closed, { w with closed := true }, seg)

namespace State

variable (s : State)

/-- Put the writer and its segment back. -/
def setWriter (r : Bool × Writer × Segment) : State :=
  { s with writer := some r.2.1, segments := update s.segments r.2.1.segment r.2.2 }

/-- `sync`, up to the results. -/
def sync (io : FileIO) (after : After) : State :=
  match s.writer with
  | none => s
  | some w =>
    let r := syncWriter io w (s.segments w.segment)
    { s.setWriter r with holder := .notify r.1 after }

def refuse (call : ℕ) (err : CallError) : State :=
  { s with calls := update s.calls call (.refused err), holder := .free }

/-- The current segment is due to roll over. -/
def rolls : Bool := s.writer.all fun w => w.size > defaultSegmentSize

/-- The writer has written something, or there is none. -/
def closes : Bool := s.writer.all fun w => w.size > 0

/-- `newSegmentFile`, up to the results of its sync. -/
def newSegmentFile (io : FileIO) (p : Purpose) : State :=
  let s := { s with currentSegmentID := s.currentSegmentID + 1 }
  match s.writer with
  | none => { s with holder := .opening p }
  | some _ => s.sync io (.roll p)

/-- `scheduleSync`. -/
def scheduleSync : State := if s.syncCount = 0 then { s with syncCount := 1, syncers := s.syncers + 1 } else s

/-- `writeToLog` behind the roll: write the entry, queue for the sync, and give the lock back. -/
def append (io : FileIO) (call n : ℕ) : State :=
  match s.writer with
  | none => s
  | some w =>
    if io.write && !w.failed then
      let seg := s.segments w.segment
      let s := s.setWriter (true, { w with size := w.size + (5 + n) }, { seg with entries := seg.entries ++ [call] })
      if s.queue.length < maxWaiters then
        { s with queue := s.queue ++ [call]
                 calls := update s.calls call (.waiting w.segment seg.entries.length)
                 holder := .free }.scheduleSync
      else s.refuse call .syncing
    else (s.setWriter (false, { w with failed := true }, s.segments w.segment)).refuse call .writingEntry

/-- The roll is done. -/
def rolled (io : FileIO) : Purpose → State
  | .write call n => s.append io call n
  | .closeSegment => { s with holder := .free }

/-- The roll has failed. -/
def notRolled : Purpose → State
  | .write call _ => s.refuse call .rollingSegment
  | .closeSegment => { s with holder := .free }

/-- The next call in the queue is given its result. -/
def handOver (ok : Bool) (call : ℕ) (queue : List ℕ) : State :=
  match s.calls call with
  | .waiting segment pos =>
    { s with queue, calls := update s.calls call (.answered segment pos ok),
             received := update s.received call (s.received call + 1) }
  | _ => s

/-- The holder of the lock goes on behind the results. -/
def goOn (io : FileIO) : After → State
  | .unlock => { s with holder := .free }
  | .roll p =>
    match s.writer with
    | none => s
    | some w =>
      let r := closeWriter io w (s.segments w.segment)
      if r.1 then { s.setWriter r with holder := .opening p } else (s.setWriter r).notRolled p
  | .close =>
    match s.writer with
    | none => s
    | some w => { s.setWriter (closeWriter io w (s.segments w.segment)) with writer := none, holder := .free }

/-- The goroutines that wait for their timer or for the log to be closed. -/
def selecting : ℕ :=
  match s.holder with
  | .notify _ .unlock => s.syncers - 1
  | _ => s.syncers

/-- A step that a thread can make. -/
def step? : Label → Option State
  | .write call n io =>
    match s.holder, s.calls call with
    | .free, .idle =>
      some (if s.closed then s.refuse call .walClosed
        else if s.rolls then s.newSegmentFile io (.write call n)
        else s.append io call n)
    | _, _ => none
  | .closeSegment io =>
    match s.holder with
    | .free => some (if s.closes then s.newSegmentFile io .closeSegment else s)
    | _ => none
  | .close io =>
    match s.holder with
    | .free =>
      some (if s.closed then s
        else
          let s := { s with closed := true }
          match s.writer with
          | none => s
          | some _ => s.sync io .close)
    | _ => none
  | .timer io =>
    match s.holder with
    | .free =>
      if s.syncers = 0 then none
      else some (if s.queue = [] then { s with syncCount := 0, syncers := s.syncers - 1 } else s.sync io .unlock)
    | _ => none
  | .closing => if s.closed ∧ 0 < s.selecting then some { s with syncCount := 0, syncers := s.syncers - 1 } else none
  | .notify =>
    match s.holder, s.queue with
    | .notify ok _, call :: queue => some (s.handOver ok call queue)
    | _, _ => none
  | .proceed io =>
    match s.holder, s.queue with
    | .notify _ after, [] => some (s.goOn io after)
    | .opening p, _ =>
      some (if io.openFile
        then { s with writer := some ⟨s.currentSegmentID, 0, false, false⟩ }.rolled io p
        else s.notRolled p)
    | _, _ => none

/-- A step of the run; a thread that cannot make its step waits. -/
def step (s : State) (l : Label) : State := (s.step? l).getD s

/-- A log that has been opened, with the writer on the last segment or without one. -/
def init (currentSegmentID : ℕ) (hasWriter : Bool) : State where
  closed := false
  currentSegmentID
  writer := if hasWriter then some ⟨currentSegmentID, 0, false, false⟩ else none
  segments _ := ⟨[], 0, 0⟩
  queue := []
  syncCount := 0
  syncers := 0
  holder := .free
  calls _ := .idle
  received _ := 0

end State

end InfluxDB.Wal.Sync
