import Mathlib.Data.Nat.Log
import InfluxDB.Wal.Segment

/-!
    The write-ahead log over its directory of segment files.  A write goes behind what the writer of the
    current segment has written, which need not be the end of the file; the directory is listed by the names
    of the files.  A file that is removed while a writer has it open takes no writes any more.

    Writes wait for the file to be synced, so a write that returns has its bytes on disk.
-/

namespace InfluxDB.Wal

open Lib

/-- `DefaultSegmentSize`. -/
def defaultSegmentSize : ℕ := 10 * 1024 * 1024

/-- The last `width` decimal digits of a number. -/
def decimal : ℕ → ℕ → Bytes
  | 0, _ => []
  | width + 1, n => Fin.ofNat 256 (48 + n / 10 ^ width % 10) :: decimal width n

/-- The name of a segment file, `_%05d.wal`. -/
def fileName (id : ℕ) : Bytes :=
  95 :: (decimal (if id < 100000 then 5 else Nat.log 10 id + 1) id ++ [46, 119, 97, 108])

/-- The segment files by id. -/
abbrev Disk := FinMap ℕ Bytes

/-- `SegmentFileNames`: the ids of the files in the order of their names. -/
def segmentFileNames (disk : Disk) : List ℕ := disk.keys.insertionSort fun a b => fileName a ≤ fileName b

/-- `WALSegmentWriter` on a file: the offset for the next write, and what it has written itself. -/
structure SegmentWriter where
  segment : ℕ
  pos : ℕ
  size : ℕ

/-- `WAL`; `once` says that it has been closed before. -/
structure WAL where
  currentSegmentID : ℕ
  currentSegmentWriter : Option SegmentWriter
  closed : Bool
  once : Bool

/-- `NewWAL`. -/
def newWAL : WAL := ⟨0, none, false, false⟩

/-- The log of a process with the files on disk. -/
structure Log where
  disk : Disk
  wal : WAL

inductive LogError where
  | encode (err : EncodeError)
  | walClosed

namespace Log

variable (sn : Snappy) (l : Log)

/-- `WAL.Open`: the writer goes on behind the last segment, unless that is empty and is removed. -/
def openWAL : Log :=
  match (segmentFileNames l.disk).getLast? with
  | none => { l with wal := { l.wal with closed := false } }
  | some id =>
    let size := ((l.disk.lookup id).getD []).length
    if size = 0 then { disk := l.disk.erase id, wal := { l.wal with currentSegmentID := id, closed := false } }
    else
      { l with wal := { l.wal with
        currentSegmentID := id, currentSegmentWriter := some ⟨id, size, 0⟩, closed := false } }

/-- `newSegmentFile`; a file that is there is opened as it is. -/
def newSegmentFile : Log :=
  let id := l.wal.currentSegmentID + 1
  { disk := if (l.disk.lookup id).isSome then l.disk else l.disk.insert id []
    wal := { l.wal with currentSegmentID := id, currentSegmentWriter := some ⟨id, 0, 0⟩ } }

/-- The current segment is due to roll over. -/
def rolls : Bool :=
  match l.wal.currentSegmentWriter with
  | none => true
  | some w => w.size > defaultSegmentSize

/-- `rollSegment`. -/
def rollSegment : Log := if l.rolls then l.newSegmentFile else l

/-- `WALSegmentWriter.Write` and the sync of what was written. -/
def append (b : Bytes) : Log :=
  match l.wal.currentSegmentWriter with
  | none => l
  | some w =>
    { disk := match l.disk.lookup w.segment with
        | none => l.disk
        | some content => l.disk.insert w.segment (writeAt content w.pos b)
      wal := { l.wal with
        currentSegmentWriter := some { w with pos := w.pos + b.length, size := w.size + b.length } } }

/-- `writeToLog`. -/
def writeToLog (e : WALEntry) : Except LogError ℕ × Log :=
  match e.encode with
  | .error err => (.error (.encode err), l)
  | .ok b =>
    if l.wal.closed then (.error .walClosed, l)
    else
      let l := l.rollSegment.append (frame e.type (sn.encode b))
      (.ok l.wal.currentSegmentID, l)

/-- The writer has written something, or there is none. -/
def closes : Bool :=
  match l.wal.currentSegmentWriter with
  | none => true
  | some w => w.size > 0

/-- `CloseSegment`. -/
def closeSegment : Log := if l.closes then l.newSegmentFile else l

/-- `ClosedSegments`: all files but that of the writer. -/
def closedSegments : List ℕ :=
  (segmentFileNames l.disk).filter fun id => l.wal.currentSegmentWriter.all fun w => w.segment ≠ id

/-- `Remove`. -/
def remove (files : List ℕ) : Log := { l with disk := files.foldl (fun disk id => disk.erase id) l.disk }

/-- `Close`, which does nothing the second time. -/
def close : Log :=
  if l.wal.once then l
  else { l with wal := { l.wal with closed := true, once := true, currentSegmentWriter := none } }

/-- One file of `WALReader.Read`: its entries are delivered, and it is cut where the reader stops. -/
def replayFile (r : List WALEntry × Disk) (id : ℕ) : List WALEntry × Disk :=
  let f := readFile sn ((r.2.lookup id).getD [])
  (r.1 ++ f.1, r.2.insert id f.2)

/-- `replayWAL`: the entries of all files, and the log behind it. -/
def replay : List WALEntry × Log :=
  let r := (segmentFileNames l.disk).foldl (replayFile sn) ([], l.disk)
  (r.1, { l with disk := r.2 })

end Log

/-! ### Sessions -/

/-- The engine's log over opens, closes and crashes: the log, whether the engine is open, and the segments
that a snapshot has acquired.  Beside these stands the history: the entries acknowledged since the segment
files were last removed, and how many of them there were when the segments were acquired. -/
structure Session where
  log : Log
  opened : Bool
  acquired : Option (List ℕ × ℕ)
  acked : List WALEntry

/-- A session on an empty directory. -/
def Session.init : Session := ⟨⟨∅, newWAL⟩, false, none, []⟩

/-- A step of a session.  A crash leaves the first `k` bytes of the record of an entry that was being
written, but not all of them. -/
inductive Step where
  | openEngine
  | write (e : WALEntry)
  | acquire
  | commit
  | close
  | crash (e : WALEntry) (k : ℕ)

namespace Session

variable (sn : Snappy)

/-- The bytes that reach the disk of a record that is being written. -/
def torn (e : WALEntry) (k : ℕ) : Bytes := (record sn e).dropLast.take k

/-- One step; the engine takes no calls while it is closed. -/
def step (s : Session) : Step → Session
  | .openEngine => if s.opened then s else { s with log := (s.log.openWAL.replay sn).2, opened := true }
  | .write e =>
    if s.opened then
      match s.log.writeToLog sn e with
      | (.ok _, log) => { s with log, acked := s.acked ++ [e] }
      | (.error _, log) => { s with log }
    else s
  | .acquire =>
    if s.opened then { s with
      log := s.log.closeSegment, acquired := some (s.log.closeSegment.closedSegments, s.acked.length) }
    else s
  | .commit =>
    match s.acquired with
    | none => s
    | some (files, mark) => { s with log := s.log.remove files, acquired := none, acked := s.acked.drop mark }
  | .close => if s.opened then { s with log := s.log.close, opened := false, acquired := none } else s
  | .crash e k =>
    let log := if s.opened then s.log.rollSegment.append (torn sn e k) else s.log
    { s with log := ⟨log.disk, newWAL⟩, opened := false, acquired := none }

def run (steps : List Step) : Session := steps.foldl (step sn) init

end Session

end InfluxDB.Wal
