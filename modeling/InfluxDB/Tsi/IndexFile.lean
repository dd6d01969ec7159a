import InfluxDB.Tsi.MeasurementBlock

/-!
    Index files: a signature, the tag blocks of the measurements, the measurement block, the series
    sets, and a trailer.  A log file is compacted to an index file; opening the file reads the
    measurement block and goes from there to the tag blocks.
-/

namespace InfluxDB.Tsi

open Lib Lib.RobinHood

def fileSignature : Bytes := [84, 83, 73, 49]

/-! ### Writing -/

/-- Offsets and sizes of the measurement block and of the two series sets. -/
structure IndexFileTrailer where
  measurementBlockOffset : ℕ
  measurementBlockSize : ℕ
  seriesIDSetOffset : ℕ
  seriesIDSetSize : ℕ
  tombstoneSeriesIDSetOffset : ℕ
  tombstoneSeriesIDSetSize : ℕ

def indexFileTrailerSize : ℕ := 82

namespace IndexFileTrailer

def fields (t : IndexFileTrailer) : Bytes :=
  putUint 8 t.measurementBlockOffset ++ (putUint 8 t.measurementBlockSize ++ (putUint 8 t.seriesIDSetOffset ++
    (putUint 8 t.seriesIDSetSize ++ (putUint 8 t.tombstoneSeriesIDSetOffset ++ putUint 8 t.tombstoneSeriesIDSetSize))))

/-- `IndexFileTrailer.WriteTo`; the version is 1. -/
def bytes (t : IndexFileTrailer) : Bytes := t.fields ++ (legacySketchInfo ++ putUint 2 1)

def parse : Parser IndexFileTrailer := do
  let measurementBlockOffset ← parseUint 8
  let measurementBlockSize ← parseUint 8
  let seriesIDSetOffset ← parseUint 8
  let seriesIDSetSize ← parseUint 8
  let tombstoneSeriesIDSetOffset ← parseUint 8
  let tombstoneSeriesIDSetSize ← parseUint 8
  pure { measurementBlockOffset := measurementBlockOffset, measurementBlockSize := measurementBlockSize
         seriesIDSetOffset := seriesIDSetOffset, seriesIDSetSize := seriesIDSetSize
         tombstoneSeriesIDSetOffset := tombstoneSeriesIDSetOffset,
         tombstoneSeriesIDSetSize := tombstoneSeriesIDSetSize }

end IndexFileTrailer

/-- `writeTagsetsTo`: the tag blocks from an offset on, with what the measurement block needs of them. -/
def writeTagsetsTo (c : Codec) :
    ℕ → List (Bytes × Measurement) → Except EncodeError (Bytes × List (Bytes × MeasurementInfo))
  | _, [] => .ok ([], [])
  | n, mm :: mms =>
    match writeTagsetTo c mm.2 with
    | .error e => .error e
    | .ok block =>
      match writeTagsetsTo c (n + block.length) mms with
      | .error e => .error e
      | .ok (bytes, infos) =>
        .ok (block ++ bytes, (mm.1, { deleted := mm.2.deleted, tagBlockOffset := n, tagBlockSize := block.length
                                      series := mm.2.series }) :: infos)

/-- `LogFile.CompactTo`: the bytes of the index file for the contents of a log file. -/
def LogFile.compactTo (c : Codec) (o : MapOrder) (f : Contents) : Except EncodeError Bytes :=
  match writeTagsetsTo c fileSignature.length f.mms.entries with
  | .error e => .error e
  | .ok (blocks, infos) =>
    match writeMeasurementBlock c o infos with
    | .error e => .error e
    | .ok mblk =>
      let seriesIDSet := c.encodeSet f.seriesIDSet
      let tombstones := c.encodeSet f.tombstoneSeriesIDSet
      let n := fileSignature.length + blocks.length
      let trailer : IndexFileTrailer :=
        { measurementBlockOffset := n, measurementBlockSize := mblk.length
          seriesIDSetOffset := n + mblk.length, seriesIDSetSize := seriesIDSet.length
          tombstoneSeriesIDSetOffset := n + mblk.length + seriesIDSet.length,
          tombstoneSeriesIDSetSize := tombstones.length }
      .ok (fileSignature ++ (blocks ++ (mblk ++ (seriesIDSet ++ (tombstones ++ trailer.bytes)))))

/-! ### Reading -/

structure IndexFile where
  /-- The tag blocks by measurement name. -/
  tblks : SortedMap Bytes TagBlock
  mblk : MeasurementBlock
  seriesIDSetData : Bytes
  tombstoneSeriesIDSetData : Bytes

namespace IndexFile

/-- `ReadIndexFileTrailer`. -/
def readIndexFileTrailer : Bytes → Except IndexFileError IndexFileTrailer :=
  readTrailer indexFileTrailerSize .unsupportedIndexFileVersion IndexFileTrailer.parse

/-- Unmarshal the tag block of each measurement. -/
def unmarshalTagBlocks (data : Bytes) : SortedMap Bytes TagBlock → List MeasurementBlockElem →
    Except IndexFileError (SortedMap Bytes TagBlock)
  | tblks, [] => .ok tblks
  | tblks, e :: es =>
    match cutAt data e.tagBlockOffset e.tagBlockSize with
    | none => .error .panic
    | some buf =>
      match TagBlock.unmarshalBinary buf with
      | .error e => .error e
      | .ok tblk => unmarshalTagBlocks data (tblks.set e.name tblk) es

def unmarshalBinary (c : Codec) (data : Bytes) : Except IndexFileError IndexFile :=
  if data.length < fileSignature.length then .error .shortBuffer
  else if data.take fileSignature.length ≠ fileSignature then .error .invalidIndexFile
  else
    match readIndexFileTrailer data with
    | .error e => .error e
    | .ok t =>
      match cutAt data t.seriesIDSetOffset t.seriesIDSetSize,
          cutAt data t.tombstoneSeriesIDSetOffset t.tombstoneSeriesIDSetSize,
          cutAt data t.measurementBlockOffset t.measurementBlockSize with
      | some seriesIDSetData, some tombstoneSeriesIDSetData, some buf =>
        match MeasurementBlock.unmarshalBinary buf with
        | .error e => .error e
        | .ok mblk =>
          match mblk.iterator c with
          | none => .error .panic
          | some es =>
            match unmarshalTagBlocks data .empty es with
            | .error e => .error e
            | .ok tblks =>
              .ok { tblks := tblks, mblk := mblk, seriesIDSetData := seriesIDSetData
                    tombstoneSeriesIDSetData := tombstoneSeriesIDSetData }
      | _, _, _ => .error .panic

/-! ### Queries

Where a query has two options, the outer one is whether the source runs through and the inner one is nil. -/

section

variable (c : Codec) (f : IndexFile) (name key value : Bytes)

def measurement : Option (Option MeasurementBlockElem) := f.mblk.elem c name

def measurementIterator : Option (List MeasurementBlockElem) := f.mblk.iterator c

/-- `MeasurementSeriesIDIterator`, as the set of its ids. -/
def measurementSeriesIDs : Option (Finset ℕ) := f.mblk.seriesIDs c name

def tagKey : Option (Option TagBlockKeyElem) :=
  match f.tblks.get name with
  | none => some none
  | some tblk => tblk.decodeTagKeyElem c key

def tagKeyIterator : Option (Option (List TagBlockKeyElem)) :=
  match f.tblks.get name with
  | none => some none
  | some tblk => tblk.tagKeyIterator.map some

def tagValue : Option (Option TagBlockValueElem) :=
  match f.tblks.get name with
  | none => some none
  | some tblk => tblk.decodeTagValueElem c key value

def tagValueIterator : Option (Option (List TagBlockValueElem)) :=
  match f.tagKey c name key with
  | none => none
  | some none => some none
  | some (some ke) => ke.tagValueIterator.map some

def tagValueSeriesIDSet : Option (Option (Finset ℕ)) :=
  match f.tagValue c name key value with
  | none => none
  | some none => some none
  | some (some e) => if e.seriesN = 0 then some none else (e.seriesIDSet c).map some

def seriesIDSet : Option (Finset ℕ) := c.decodeSet f.seriesIDSetData

def tombstoneSeriesIDSet : Option (Finset ℕ) := c.decodeSet f.tombstoneSeriesIDSetData

end

end IndexFile

end InfluxDB.Tsi
