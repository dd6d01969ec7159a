import InfluxDB.Tsi.TagBlockRead

/-!
    The measurement block of an index file: the measurements in the order of their names, each with
    its series and the place of its tag block, a hash index of the names, and a trailer.

    The writer fills the hash map by going through a Go map, whose order the language leaves open.
-/

namespace InfluxDB.Tsi

open Lib Lib.RobinHood List

/-! ### Writing -/

/-- An order in which the elements of a Go map are visited. -/
structure MapOrder where
  iterate : List (Bytes × ℕ) → List (Bytes × ℕ)
  perm : ∀ es, (iterate es).Perm es

/-- What the writer keeps of a measurement. -/
structure MeasurementInfo where
  deleted : Bool
  tagBlockOffset : ℕ
  tagBlockSize : ℕ
  series : Finset ℕ

def MeasurementInfo.flag (mm : MeasurementInfo) : Byte := if mm.deleted then 3 else 2

/-- What `writeMeasurementTo` writes. -/
def measurementBytes (c : Codec) (mm : Bytes × MeasurementInfo) : Bytes :=
  [mm.2.flag] ++ (putUint 8 mm.2.tagBlockOffset ++ (putUint 8 mm.2.tagBlockSize ++ (putUvarint mm.1.length ++ (mm.1 ++
    (putUvarint mm.2.series.card ++ (putUvarint (c.encodeSet mm.2.series).length ++ c.encodeSet mm.2.series))))))

/-- Offsets and sizes of the data and of the hash index. -/
structure MeasurementBlockTrailer where
  dataOffset : ℕ
  dataSize : ℕ
  hashIndexOffset : ℕ
  hashIndexSize : ℕ

def measurementTrailerSize : ℕ := 66

/-- Four numbers that are not used any more. -/
def legacySketchInfo : Bytes := replicate 32 0

namespace MeasurementBlockTrailer

def fields (t : MeasurementBlockTrailer) : Bytes :=
  putUint 8 t.dataOffset ++ (putUint 8 t.dataSize ++ (putUint 8 t.hashIndexOffset ++ putUint 8 t.hashIndexSize))

/-- `MeasurementBlockTrailer.WriteTo`; the version is 1. -/
def bytes (t : MeasurementBlockTrailer) : Bytes := t.fields ++ (legacySketchInfo ++ putUint 2 1)

def parse : Parser MeasurementBlockTrailer := do
  let dataOffset ← parseUint 8
  let dataSize ← parseUint 8
  let hashIndexOffset ← parseUint 8
  let hashIndexSize ← parseUint 8
  pure { dataOffset := dataOffset, dataSize := dataSize, hashIndexOffset := hashIndexOffset,
         hashIndexSize := hashIndexSize }

end MeasurementBlockTrailer

/-- `MeasurementBlockWriter.WriteTo`, of measurements in the order of their names. -/
def writeMeasurementBlock (c : Codec) (o : MapOrder) (mms : List (Bytes × MeasurementInfo)) :
    Except EncodeError Bytes :=
  let data := [0] ++ mms.flatMap (measurementBytes c)
  let offsets := (layout (measurementBytes c) 1 mms).map fun e => (e.1.1, e.2)
  match putAll c (.new mms.length loadFactor) (o.iterate offsets) with
  | .error e => .error e
  | .ok m =>
    let hashIndex := putHashIndex m
    let trailer : MeasurementBlockTrailer :=
      { dataOffset := 0, dataSize := data.length, hashIndexOffset := data.length, hashIndexSize := hashIndex.length }
    .ok (data ++ (hashIndex ++ trailer.bytes))

/-! ### Reading -/

structure MeasurementBlockElem where
  flag : Byte
  name : Bytes
  tagBlockOffset : ℕ
  tagBlockSize : ℕ
  seriesN : ℕ
  /-- The older format of series. -/
  seriesData : Bytes
  seriesIDSet : Option (Finset ℕ)

namespace MeasurementBlockElem

def unmarshal (c : Codec) : Parser MeasurementBlockElem := do
  let flag ← parseByte
  let offset ← parseUint 8
  let size ← parseUint 8
  let sz ← parseUvarint
  let name ← parseBytes sz
  let n ← parseUvarint
  let sz ← parseUvarint
  let data ← parseBytes sz
  if flag.val &&& 2 = 0 then
    pure { flag := flag, name := name, tagBlockOffset := offset, tagBlockSize := size, seriesN := n, seriesData := data
           seriesIDSet := none }
  else do
    let ss ← StateT.lift (c.decodeSet data)
    pure { flag := flag, name := name, tagBlockOffset := offset, tagBlockSize := size, seriesN := n, seriesData := []
           seriesIDSet := some ss }

def deleted (e : MeasurementBlockElem) : Bool := e.flag.val &&& 1 ≠ 0

/-- The series of the measurement, from either format. -/
def seriesIDs (e : MeasurementBlockElem) : Option (Finset ℕ) :=
  match e.seriesIDSet with
  | some ss => some ss
  | none => (parseAll parseUvarint e.seriesData).map (TagBlockValueElem.sumDeltas 0)

end MeasurementBlockElem

structure MeasurementBlock where
  data : Bytes
  hashData : Bytes

namespace MeasurementBlock

/-- `ReadMeasurementBlockTrailer`; the error is that of the index file. -/
def readMeasurementBlockTrailer : Bytes → Except IndexFileError MeasurementBlockTrailer :=
  readTrailer measurementTrailerSize .unsupportedIndexFileVersion MeasurementBlockTrailer.parse

def unmarshalBinary (data : Bytes) : Except IndexFileError MeasurementBlock :=
  match readMeasurementBlockTrailer data with
  | .error e => .error e
  | .ok t =>
    match cutAt data t.dataOffset t.dataSize, cutAt data t.hashIndexOffset t.hashIndexSize with
    | some data, some hashData => .ok { data := data, hashData := hashData }
    | _, _ => .error .panic

def elem (c : Codec) (blk : MeasurementBlock) (name : Bytes) : Option (Option MeasurementBlockElem) :=
  elemByHash c.hash blk.hashData (elemAt (MeasurementBlockElem.unmarshal c) MeasurementBlockElem.name blk.data) name

/-- `Iterator`, as what it returns. -/
def iterator (c : Codec) (blk : MeasurementBlock) : Option (List MeasurementBlockElem) :=
  match blk.data with
  | [] => none
  | _ :: data => parseAll (MeasurementBlockElem.unmarshal c) data

/-- `SeriesIDIterator`, as the set of its ids. -/
def seriesIDs (c : Codec) (blk : MeasurementBlock) (name : Bytes) : Option (Finset ℕ) :=
  match blk.elem c name with
  | none => none
  | some none => some ∅
  | some (some e) => e.seriesIDs

end MeasurementBlock

/-! ### The block is read back -/

variable {c : Codec} {t : MeasurementBlockTrailer}

/-- What an element of a measurement shows. -/
structure MeasurementFor (mm : Bytes × MeasurementInfo) (e : MeasurementBlockElem) : Prop where
  name : e.name = mm.1
  deleted : e.deleted = mm.2.deleted
  tagBlockOffset : e.tagBlockOffset = mm.2.tagBlockOffset
  tagBlockSize : e.tagBlockSize = mm.2.tagBlockSize
  seriesIDs : e.seriesIDs = some mm.2.series

theorem parses_measurement {mm : Bytes × MeasurementInfo} (hids : Ids32 mm.2.series)
    (hoff : mm.2.tagBlockOffset < 2 ^ 64)
    (hsize : mm.2.tagBlockSize < 2 ^ 64) (hlen : (measurementBytes c mm).length < 2 ^ 63) :
    Parses (MeasurementBlockElem.unmarshal c) (measurementBytes c mm) (MeasurementFor mm) := by
  simp only [measurementBytes, length_append] at hlen
  rw [measurementBytes]
  refine (parses_byte _).bind_eq ?_
  refine (parses_uint (by omega)).bind_eq ?_
  refine (parses_uint (by omega)).bind_eq ?_
  refine (parses_uvarint (by omega)).bind_eq ?_
  refine (parses_bytes mm.1).bind_eq ?_
  refine (parses_uvarint hids.card_lt).bind_eq ?_
  refine (parses_uvarint (by omega)).bind_eq ?_
  have hflag : mm.2.flag.val &&& 2 ≠ 0 := by
    rw [MeasurementInfo.flag]
    cases mm.2.deleted <;> decide
  have hdeleted : decide (mm.2.flag.val &&& 1 ≠ 0) = mm.2.deleted := by
    rw [MeasurementInfo.flag]
    cases mm.2.deleted <;> decide
  have hset := c.decode_encode mm.2.series [] hids
  rw [append_nil] at hset
  intro rest
  obtain ⟨_, hdata, rfl⟩ := parses_bytes (c.encodeSet mm.2.series) rest
  refine ⟨{ flag := mm.2.flag, name := mm.1, tagBlockOffset := mm.2.tagBlockOffset, tagBlockSize := mm.2.tagBlockSize
            seriesN := mm.2.series.card, seriesData := [], seriesIDSet := some mm.2.series },
            ?_, rfl, hdeleted, rfl, rfl, rfl⟩
  change Option.bind (parseBytes (c.encodeSet mm.2.series).length (c.encodeSet mm.2.series ++ rest)) _ = _
  rw [hdata, Option.bind_some]
  dsimp only
  rw [if_neg hflag, hset]
  rfl

theorem measurementBytes_ne_nil (mm : Bytes × MeasurementInfo) : measurementBytes c mm ≠ [] :=
  append_ne_nil_of_left_ne_nil (cons_ne_nil _ _) _

theorem MeasurementBlockTrailer.parses
    (h : t.dataOffset + t.dataSize < 2 ^ 64 ∧ t.hashIndexOffset + t.hashIndexSize < 2 ^ 64) :
    Parses parse t.fields (· = t) := by
  refine (parses_uint (by omega)).bind_eq ?_
  refine (parses_uint (by omega)).bind_eq ?_
  refine (parses_uint (by omega)).bind_eq ?_
  refine (parses_uint (by omega)).map ?_
  rintro _ rfl
  rfl

theorem MeasurementBlock.unmarshalBinary_sections {data hashIndex bytes : Bytes}
    (ht : t = { dataOffset := 0, dataSize := data.length, hashIndexOffset := data.length,
                hashIndexSize := hashIndex.length })
    (hbytes : bytes = data ++ (hashIndex ++ t.bytes)) (hlen : bytes.length < 2 ^ 63) :
    unmarshalBinary bytes = .ok { data := data, hashData := hashIndex } := by
  have hbounds := hlen
  rw [hbytes] at hbounds
  simp only [length_append] at hbounds
  have hparse : Parses MeasurementBlockTrailer.parse t.fields (· = t) := by
    refine MeasurementBlockTrailer.parses ?_
    rw [ht]
    dsimp only
    omega
  have hread : readMeasurementBlockTrailer bytes = .ok t := by
    have hread := readTrailer_append hparse legacySketchInfo rfl .unsupportedIndexFileVersion (data ++ hashIndex)
    rwa [append_assoc, ← MeasurementBlockTrailer.bytes, ← hbytes] at hread
  have hdata : cutAt bytes 0 data.length = some data := hbytes ▸ cutAt_append [] data _
  have hindex : cutAt bytes data.length hashIndex.length = some hashIndex := hbytes ▸ cutAt_append data hashIndex _
  rw [unmarshalBinary, hread]
  rw [ht]
  dsimp only
  rw [hdata, hindex]

/-- What a measurement block shows. -/
structure MeasurementsFor (c : Codec) (mms : List (Bytes × MeasurementInfo)) (blk : MeasurementBlock) : Prop where
  iterator : ∃ es, blk.iterator c = some es ∧ Forall₂ MeasurementFor mms es
  found : ∀ mm ∈ mms, ∃ e, blk.elem c mm.1 = some (some e) ∧ MeasurementFor mm e
  absent : ∀ name, name ∉ mms.map Prod.fst → blk.elem c name = some none

/-- The measurement block is read back. -/
theorem writeMeasurementBlock_spec (c : Codec) (o : MapOrder) {mms : List (Bytes × MeasurementInfo)}
    (hnodup : (mms.map Prod.fst).Nodup) (hids : ∀ mm ∈ mms, Ids32 mm.2.series) :
    ∃ bytes, writeMeasurementBlock c o mms = .ok bytes ∧
      (bytes.length < 2 ^ 63 → (∀ mm ∈ mms, mm.2.tagBlockOffset < 2 ^ 64 ∧ mm.2.tagBlockSize < 2 ^ 64) →
        ∃ blk, MeasurementBlock.unmarshalBinary bytes = .ok blk ∧ MeasurementsFor c mms blk) := by
  have hperm := o.perm ((layout (measurementBytes c) 1 mms).map fun e => (e.1.1, e.2))
  have hkeys : ((layout (measurementBytes c) 1 mms).map fun e => (e.1.1, e.2)).map Prod.fst = mms.map Prod.fst := by
    have hmap : (layout (measurementBytes c) 1 mms).map (Prod.fst ∘ Prod.fst) = mms.map Prod.fst := by
      rw [← map_map, map_fst_layout]
    rw [map_map]
    exact hmap
  have hcount : (o.iterate ((layout (measurementBytes c) 1 mms).map fun e => (e.1.1, e.2))).length = mms.length := by
    rw [hperm.length_eq, ← length_map Prod.fst, hkeys, length_map]
  obtain ⟨m, hput, hholds⟩ := putAll_new c (((hperm.map Prod.fst).nodup_iff).mpr (hkeys ▸ hnodup))
  rw [hcount] at hput
  rw [writeMeasurementBlock]
  rw [hput]
  refine ⟨_, rfl, fun hlen hblocks => ⟨_, MeasurementBlock.unmarshalBinary_sections rfl rfl hlen, ?_⟩⟩
  simp only [length_append, length_putHashIndex, length_singleton] at hlen
  have hparse : ∀ mm ∈ mms, Parses (MeasurementBlockElem.unmarshal c) (measurementBytes c mm) fun e =>
      e.name = mm.1 ∧ MeasurementFor mm e := by
    intro mm hmm rest
    have hle := length_le_of_mem_flatMap (measurementBytes c) hmm
    obtain ⟨e, he, hfor⟩ := parses_measurement (hids mm hmm) (hblocks mm hmm).1 (hblocks mm hmm).2
      (show (measurementBytes c mm).length < 2 ^ 63 by omega) rest
    exact ⟨e, he, hfor.name, hfor⟩
  obtain ⟨hfound, habsent⟩ := elemByHash_layout [0] [] hholds hperm (append_nil _).symm Nat.one_pos
    (by rw [length_append, length_singleton]; omega) (by omega) hparse
  obtain ⟨es, hes, hall⟩ := parseAll_flatMap hparse fun mm _ => measurementBytes_ne_nil mm
  exact ⟨⟨es, hes, hall.imp fun mm e h => h.2⟩, hfound, habsent⟩

end InfluxDB.Tsi
