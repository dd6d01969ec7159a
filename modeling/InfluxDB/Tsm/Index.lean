import InfluxDB.Tsm.Offsets
import InfluxDB.Tsm.PrefixTree

/-! `reader_index.go`: the index section of a TSM file, read in place.

    The bytes are a sequence of records: key length, key, block type, entry count and the entries of 28
    bytes each. `UnmarshalBinary` skips over them to collect the offsets of the keys; everything else
    reads a record again from its offset. Offsets fit in 31 bits, so the 32-bit additions of the source
    do not wrap and are plain ones here; slices out of range, which panic in the source, are empty. -/

namespace InfluxDB.Tsm
open Lib

/-! ### Entries -/

/-- `IndexEntry`. -/
structure IndexEntry where
  minTime : ℤ
  maxTime : ℤ
  offset : ℤ
  size : ℕ
  deriving DecidableEq, Repr

def indexTypeSize : ℕ := 1
def indexCountSize : ℕ := 2
def indexEntrySize : ℕ := 28

variable (b : Bytes)

/-- The bytes `b[i : i+n]`. -/
def slice (i n : ℕ) : Bytes := (b.drop i).take n

/-- `Contains`. -/
def IndexEntry.contains (e : IndexEntry) (t : ℤ) : Bool := decide (e.minTime ≤ t) && decide (e.maxTime ≥ t)

/-- `AppendTo`. -/
def IndexEntry.appendTo (e : IndexEntry) : Bytes :=
  putInt64 e.minTime ++ (putInt64 e.maxTime ++ (putInt64 e.offset ++ putUint 4 e.size))

/-- `IndexEntry.UnmarshalBinary`. -/
def IndexEntry.unmarshalBinary (b : Bytes) : Except String IndexEntry :=
  if b.length < indexEntrySize then
    .error ("unmarshalBinary: short buf: " ++ toString b.length ++ " < " ++ toString indexEntrySize)
  else
    .ok { minTime := getInt64 (slice b 0 8), maxTime := getInt64 (slice b 8 8)
          offset := getInt64 (slice b 16 8), size := getUint (slice b 24 4) }

/-- The entries from `b` on, `n` of them. -/
def readEntriesLoop : ℕ → Bytes → Except String (List IndexEntry)
  | 0, _ => .ok []
  | n + 1, b => do
    let e ← IndexEntry.unmarshalBinary b
    let es ← readEntriesLoop n (b.drop indexEntrySize)
    return e :: es

/-- `readEntries`, from the type byte on. -/
def readEntries (b : Bytes) : Except String (List IndexEntry) :=
  if b.length < indexTypeSize + indexCountSize then .error "readEntries: data too short for headers"
  else
    readEntriesLoop (getUint (slice b indexTypeSize indexCountSize)) (b.drop (indexTypeSize + indexCountSize))

/-- The times of the entries from `b` on, `n` of them. -/
def readTimesLoop : ℕ → Bytes → Except String (List TimeRange)
  | 0, _ => .ok []
  | n + 1, b =>
    if b.length < indexEntrySize then .error "readEntries: stream too short for entry"
    else do
      let ts ← readTimesLoop n (b.drop indexEntrySize)
      return { min := getInt64 (slice b 0 8), max := getInt64 (slice b 8 8) } :: ts

/-- `readEntriesTimes`. -/
def readEntriesTimes : Except String (List TimeRange) :=
  if b.length < indexTypeSize + indexCountSize then .error "readEntries: data too short for headers"
  else
    readTimesLoop (getUint (slice b indexTypeSize indexCountSize)) (b.drop (indexTypeSize + indexCountSize))

/-- `readKey`; the end of the slice is a 16-bit sum. -/
def readKey : Bytes := (b.take ((2 + getUint (b.take 2)) % 2 ^ 16)).drop 2

/-! ### The index -/

/-- `indirectIndex`; a missing tombstone list is the empty one. -/
structure IndirectIndex where
  b : Bytes
  ro : ReaderOffsets
  minKey : Bytes
  maxKey : Bytes
  minTime : ℤ
  maxTime : ℤ
  tombstones : ℕ → List TimeRange
  prefixTombstones : PrefixTree

/-- `NewIndirectIndex`. -/
def newIndirectIndex : IndirectIndex :=
  { b := [], ro := .empty, minKey := [], maxKey := [], minTime := 0, maxTime := 0
    tombstones := fun _ => [], prefixTombstones := .new }

/-- `faultBuffer.access`: to the end when `length` is zero. -/
def access (start length : ℕ) : Bytes := if length > 0 then slice b start length else b.drop start

/-- `Length` of the key at an offset. -/
def keyLength (offset : ℕ) : ℕ := getUint (access b offset 2)

/-- `Key` at an offset. -/
def keyAt (offset : ℕ) : Bytes := access b (offset + 2) (keyLength b offset)

/-- `EntryOffset`. -/
def entryOffset (offset : ℕ) : ℕ := offset + 2 + keyLength b offset

/-- What the loop of `UnmarshalBinary` collects. -/
structure Unmarshaled where
  ro : ReaderOffsets
  minTime : ℤ
  maxTime : ℤ

/-- The loop of `UnmarshalBinary` from `i` on. Each pass reads more than one byte, so `fuel` is
    never short when it is the number of bytes. -/
def unmarshalLoop (b : Bytes) : ℕ → ℕ → Unmarshaled → Except String Unmarshaled
  | 0, _, u => .ok u
  | fuel + 1, i, u =>
    if i < b.length then
      if i + 2 ≥ b.length then .error "indirectIndex: not enough data for key length value"
      else
        let keyLength := getUint (slice b i 2)
        if i + 2 + keyLength + indexTypeSize ≥ b.length then
          .error "indirectIndex: not enough data for key and type"
        else
          let ro := u.ro.addKey i (slice b (i + 2) keyLength)
          let j := i + 2 + (keyLength + indexTypeSize)
          if j + indexCountSize ≥ b.length then
            .error "indirectIndex: not enough data for index entries count"
          else
            let count := getUint (slice b j indexCountSize)
            if count = 0 then .error "indirectIndex: key exits with no entries"
            else
              let j := j + indexCountSize
              if j + 8 ≥ b.length then .error "indirectIndex: not enough data for min time"
              else
                let minT := getInt64 (slice b j 8)
                let minTime := if minT < u.minTime then minT else u.minTime
                let j := j + (count - 1) * indexEntrySize
                if j + 16 ≥ b.length then .error "indirectIndex: not enough data for max time"
                else
                  let maxT := getInt64 (slice b (j + 8) 8)
                  let maxTime := if maxT > u.maxTime then maxT else u.maxTime
                  unmarshalLoop b fuel (j + indexEntrySize) { ro := ro, minTime := minTime, maxTime := maxTime }
    else .ok u

/-- `UnmarshalBinary` of a new index. -/
def unmarshalBinary : Except String IndirectIndex :=
  if b.length = 0 then .ok { newIndirectIndex with b := b }
  else if b.length ≠ b.length % 2 ^ 32 then .error "indirectIndex: too large to open"
  else if b.length > 2 ^ 31 - 1 then .error "indirectIndex: too large to store offsets"
  else do
    let u ← unmarshalLoop b b.length 0 { ro := .empty, minTime := maxInt64, maxTime := minInt64 }
    let ro := u.ro.done
    return { newIndirectIndex with
      b := b, ro := ro
      minKey := readKey (b.drop (ro.offsets.headD 0)), maxKey := readKey (b.drop (ro.offsets.getLastD 0))
      minTime := u.minTime, maxTime := u.maxTime }

namespace IndirectIndex

variable (d : IndirectIndex)

/-- `Contains`. -/
def contains (key : Bytes) : Bool := (ReaderOffsets.iterator.seek d.ro (keyAt d.b) key).1

/-- `ReadEntries`; a key that is not there has no entries. -/
def readEntries (key : Bytes) : Except String (List IndexEntry) :=
  let s := ReaderOffsets.iterator.seek d.ro (keyAt d.b) key
  if s.1 then Tsm.readEntries (access d.b (entryOffset d.b (s.2.2.offset d.ro)) 0) else .ok []

/-- `Type`. -/
def type (key : Bytes) : Except String Byte :=
  let s := ReaderOffsets.iterator.seek d.ro (keyAt d.b) key
  if s.1 then .ok ((access d.b (entryOffset d.b (s.2.2.offset d.ro)) 1).headD 0)
  else .error "key does not exist"

/-- `KeyCount`. -/
def keyCount : ℕ := d.ro.offsets.length

/-- `KeyRange`. -/
def keyRange : Bytes × Bytes := (d.minKey, d.maxKey)

/-- `TimeRange`. -/
def timeRange : ℤ × ℤ := (d.minTime, d.maxTime)

/-- `MaybeContainsKey`. -/
def maybeContainsKey (key : Bytes) : Bool :=
  bytesCompare key d.minKey ≠ .lt && bytesCompare key d.maxKey ≠ .gt

/-- `TombstoneRange`. -/
def tombstoneRange (key : Bytes) : List TimeRange :=
  let rs := d.prefixTombstones.search key []
  let s := ReaderOffsets.iterator.seek d.ro (keyAt d.b) key
  if s.1 then rs ++ d.tombstones (s.2.2.offset d.ro) else rs

end IndirectIndex

end InfluxDB.Tsm
