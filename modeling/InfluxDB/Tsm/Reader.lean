import InfluxDB.Tsm.IndexRuns
import InfluxDB.Tsm.TombstoneLog

/-! `reader.go`: deletes through a `TSMReader`.

    A reader holds the index of its file and a `Tombstoner`. `Delete`, `DeleteRange` and `DeletePrefix` change
    the index and record the change when there was one; a batch is only recorded, and `Commit` replays the
    tombstones recorded since the last replay. Opening a file replays all of them. The protobuf coding of
    predicates is a parameter, `PredicateCodec`; reading blocks, closing and the locks are left out. -/

namespace InfluxDB.Tsm
open Lib

/-! ### Predicates -/

/-- Predicates on series keys, and their protobuf coding. -/
structure PredicateCodec (π : Type) where
  isMatch : π → Bytes → Bool
  encode : π → Except String Bytes
  decode : Bytes → Except String π

/-- What was encoded decodes to a predicate that matches the same keys; the bytes fit in memory. -/
structure PredicateCodec.Lawful {π : Type} (c : PredicateCodec π) : Prop where
  decode_encode : ∀ p b, c.encode p = .ok b → ∃ p', c.decode b = .ok p' ∧ c.isMatch p' = c.isMatch p
  length_encode : ∀ p b, c.encode p = .ok b → b.length < 2 ^ 63

section Predicate
variable {π : Type} (c : PredicateCodec π)

def predicateVersionZero : Byte := 0

/-- `Predicate.Marshal`: a version byte and the protobuf bytes. -/
def PredicateCodec.marshal (p : π) : Except String Bytes := do
  let b ← c.encode p
  return predicateVersionZero :: b

/-- What is recorded for a predicate. -/
def PredicateCodec.predData : Option π → Except String Bytes
  | none => .ok []
  | some p => c.marshal p

/-- `UnmarshalPredicate`; no bytes are no predicate. -/
def PredicateCodec.unmarshalPredicate : Bytes → Except String (Option π)
  | [] => .ok none
  | tag :: data =>
    if tag ≠ predicateVersionZero then .error ("unknown tag byte: " ++ String.ofList (Nat.toDigits 16 tag.val))
    else (c.decode data).map some

end Predicate

/-! ### Opening a file -/

def magicNumber : ℕ := 0x16D116D1
def fileVersion : Byte := 1

/-- `verifyVersion`. -/
def verifyVersion (b : Bytes) : Except String Unit :=
  match readFull 4 b with
  | .error e => .error ("init: error reading magic number of file: " ++ e)
  | .ok (magic, rest) =>
    if getUint magic ≠ magicNumber then .error "can only read from tsm file"
    else
      match rest with
      | [] => .error "init: error reading version: EOF"
      | v :: _ =>
        if v ≠ fileVersion then
          .error ("init: file is version " ++ String.ofList (Nat.toDigits 2 v.val) ++ ". expected " ++
            String.ofList (Nat.toDigits 2 fileVersion.val))
        else .ok ()

/-- `mmapAccessor.init`: the index of a file, at the offset that the last eight bytes name. -/
def initIndex (b : Bytes) : Except String IndirectIndex := do
  verifyVersion b
  if b.length < 8 then .error "mmapAccessor: byte slice too small for indirectIndex"
  else
    let indexOfsPos := b.length - 8
    let indexStart := getUint (slice b indexOfsPos 8)
    if indexStart ≥ indexOfsPos then .error "mmapAccessor: invalid indexStart"
    else unmarshalBinary (slice b indexStart (indexOfsPos - indexStart))

namespace IndirectIndex

/-- `OverlapsTimeRange`. -/
def overlapsTimeRange (d : IndirectIndex) (min max : ℤ) : Bool :=
  decide (d.minTime ≤ max) && decide (d.maxTime ≥ min)

/-- `OverlapsKeyRange`. -/
def overlapsKeyRange (d : IndirectIndex) (min max : Bytes) : Bool :=
  bytesCompare d.minKey max ≠ .gt && bytesCompare d.maxKey min ≠ .lt

end IndirectIndex

/-- `TSMReader`. -/
structure TSMReader where
  index : IndirectIndex
  tombstoner : Tombstoner

/-- What `applyTombstones` carries from one tombstone to the next: the index, the last two tombstones that
    are not for a prefix, and the keys not yet deleted. -/
structure Replay where
  index : IndirectIndex
  cur : Tombstone
  prev : Tombstone
  batch : List Bytes

namespace Replay

/-- Nothing read: the tombstones are zero values. -/
def start (d : IndirectIndex) : Replay :=
  let zero : Tombstone := { key := [], isPrefix := false, min := 0, max := 0, predicate := [] }
  { index := d, cur := zero, prev := zero, batch := [] }

/-- Delete the batch with the bounds of a tombstone. -/
def deleteBatch (s : Replay) (ts : Tombstone) : Replay :=
  { s with index := (s.index.deleteRange s.batch ts.min ts.max).2, batch := [] }

/-- The function that `applyTombstones` gives to `Walk`. -/
def step {π : Type} (c : PredicateCodec π) (s : Replay) (ts : Tombstone) : Except String Replay :=
  if ts.isPrefix then do
    let pred ← c.unmarshalPredicate ts.predicate
    return { s with index := (s.index.deletePrefix ts.key ts.min ts.max (pred.map c.isMatch)).2.2 }
  else
    let s := { s with cur := ts }
    let s := if s.batch.length > 0 ∧ (s.prev.min ≠ s.cur.min ∨ s.prev.max ≠ s.cur.max)
      then s.deleteBatch s.prev else s
    let s := { s with batch := s.batch ++ [ts.key] }
    let s := if s.batch.length ≥ 4096 then s.deleteBatch s.prev else s
    .ok { s with prev := ts }

/-- The batch left after the walk. -/
def finish (s : Replay) : IndirectIndex := if s.batch.length > 0 then (s.deleteBatch s.cur).index else s.index

end Replay

namespace TSMReader
variable {π : Type} (c : PredicateCodec π) (g : Gzip)

/-- `applyTombstones`. -/
def applyTombstones (r : TSMReader) : Except String TSMReader :=
  match r.tombstoner.walk (Replay.step c) g (.start r.index) with
  | .error e => .error ("init: read tombstones: " ++ e)
  | .ok (s, t) => .ok { index := s.finish, tombstoner := t }

end TSMReader

/-- `NewTSMReader` of a file and the tombstone file next to it. The filter is a method of the live index, but
    no call changes the keys it compares with. -/
def newTSMReader {π : Type} (c : PredicateCodec π) (g : Gzip) (b : Bytes) (path : String) (disk : TombstoneDisk) :
    Except String TSMReader := do
  let index ← initIndex b
  TSMReader.applyTombstones c g
    { index := index, tombstoner := newTombstoner path (some index.maybeContainsKey) disk }

/-! ### Deletes -/

namespace TSMReader
variable {π : Type} (c : PredicateCodec π) (g : Gzip)

variable (r : TSMReader)

/-- Keep the new index, and record the change if there was one. -/
def record (res : Bool × IndirectIndex) (add : Tombstoner → Except String Tombstoner) :
    Except String TSMReader :=
  if !res.1 then .ok { r with index := res.2 }
  else do
    let t ← add r.tombstoner
    return { index := res.2, tombstoner := t.flush g }

/-- `Delete`; `Tombstoner.Add` records the largest range. -/
def delete (keys : List Bytes) : Except String TSMReader :=
  r.record g (r.index.delete keys) (·.addRange keys minInt64 maxInt64)

/-- `DeleteRange`. -/
def deleteRange (keys : List Bytes) (minTime maxTime : ℤ) : Except String TSMReader :=
  r.record g (r.index.deleteRange keys minTime maxTime) (·.addRange keys minTime maxTime)

/-- `DeletePrefix`, with the keys given to `dead`. -/
def deletePrefix (pre : Bytes) (minTime maxTime : ℤ) (pred : Option π) :
    Except String (List Bytes × TSMReader) := do
  let predData ← c.predData pred
  let res := r.index.deletePrefix pre minTime maxTime (pred.map c.isMatch)
  let r ← r.record g (res.1, res.2.2) (·.addPrefixRange pre minTime maxTime predData)
  return (res.2.1, r)

/-- `batchDelete.DeleteRange`. -/
def batchDeleteRange (keys : List Bytes) (minTime maxTime : ℤ) : Except String TSMReader :=
  if keys.length = 0 then .ok r
  else if !r.index.overlapsKeyRange (keys.headD []) (keys.getLastD []) then .ok r
  else if !r.index.overlapsTimeRange minTime maxTime then .ok r
  else do
    let t ← r.tombstoner.addRange keys minTime maxTime
    return { r with tombstoner := t }

/-- `batchDelete.Commit`. -/
def commit : Except String TSMReader :=
  applyTombstones c g { r with tombstoner := r.tombstoner.flush g }

end TSMReader

/-- A call that deletes through a reader; `BatchDelete` itself only takes a lock. -/
inductive ReaderCall (π : Type) where
  | delete (keys : List Bytes)
  | deleteRange (keys : List Bytes) (minTime maxTime : ℤ)
  | deletePrefix (pre : Bytes) (minTime maxTime : ℤ) (pred : Option π)
  | batchDeleteRange (keys : List Bytes) (minTime maxTime : ℤ)
  | commit

namespace TSMReader
variable {π : Type} (c : PredicateCodec π) (g : Gzip)

def call (r : TSMReader) : ReaderCall π → Except String TSMReader
  | .delete keys => r.delete g keys
  | .deleteRange keys minTime maxTime => r.deleteRange g keys minTime maxTime
  | .deletePrefix pre minTime maxTime pred => (r.deletePrefix c g pre minTime maxTime pred).map (·.2)
  | .batchDeleteRange keys minTime maxTime => r.batchDeleteRange keys minTime maxTime
  | .commit => r.commit c g

/-- A run of calls, up to the first error. -/
def run (r : TSMReader) (calls : List (ReaderCall π)) : Except String TSMReader := calls.foldlM (call c g) r

end TSMReader

end InfluxDB.Tsm
