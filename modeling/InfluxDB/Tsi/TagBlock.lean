import InfluxDB.Lib.HashIndex
import InfluxDB.Tsi.LogFile

/-!
    The tag block of a measurement in an index file: for every tag key its values and a hash index of
    them, then the keys and a hash index of them, then a trailer.

    Offsets count from the start of the block.  A block starts with an empty byte, so none of them is
    zero.  The series of a value are a bitmap, whose encoding is a parameter; a reader is given all
    that follows in the block and has to find the end of the bitmap itself.  Reading stops where the
    source would run out of bounds or go on with a part of an element.
-/

namespace InfluxDB.Tsi

open Lib Lib.RobinHood

/-- What the format takes from elsewhere: the hash sum of keys and the encoding of series sets, which have ids of 32
bits. -/
structure Codec where
  sum64 : Bytes → Fin (2 ^ 64)
  encodeSet : Finset ℕ → Bytes
  decodeSet : Bytes → Option (Finset ℕ)
  decode_encode : ∀ ss rest, (∀ id ∈ ss, id < 2 ^ 32) → decodeSet (encodeSet ss ++ rest) = some ss

namespace Codec

def hash (c : Codec) : Bytes → ℕ := hashKey c.sum64

end Codec

/-- The fill percent of hash indexes. -/
def loadFactor : ℕ := 80

/-! ### Writing -/

/-- What the encoder fails with. -/
inductive EncodeError where
  | tagKeyOutOfOrder
  | tagKeyAlreadyEncoded
  | zeroLengthTagValue
  | tagValueOutOfOrder
  | tagValueAlreadyEncoded
  /-- An element does not find a slot. -/
  | loop
  deriving DecidableEq

def encodeTagKeyFlag (deleted : Bool) : Byte := if deleted then 1 else 0

def encodeTagValueFlag (deleted : Bool) : Byte := if deleted then 3 else 2

/-- What `EncodeValue` writes. -/
def valueBytes (c : Codec) (v : Bytes × TagValue) : Bytes :=
  [encodeTagValueFlag v.2.deleted] ++ (putUvarint v.1.length ++ (v.1 ++ (putUvarint v.2.series.card ++
    (putUvarint (c.encodeSet v.2.series).length ++ c.encodeSet v.2.series))))

/-- The calls of `EncodeValue` for a key, from an offset on; the map has the offsets of the values. -/
def encodeValues (c : Codec) : Bytes → ℕ → HashMap Bytes ℕ → List (Bytes × TagValue) →
    Except EncodeError (Bytes × HashMap Bytes ℕ)
  | _, _, offsets, [] => .ok ([], offsets)
  | prevValue, n, offsets, v :: vs =>
    if v.1 = [] then .error .zeroLengthTagValue
    else if v.1 < prevValue then .error .tagValueOutOfOrder
    else if prevValue = v.1 then .error .tagValueAlreadyEncoded
    else
      match offsets.put c.hash [] v.1 n with
      | none => .error .loop
      | some offsets =>
        match encodeValues c v.1 (n + (valueBytes c v).length) offsets vs with
        | .error e => .error e
        | .ok (bytes, offsets) => .ok (valueBytes c v ++ bytes, offsets)

structure TagKeyEncodeEntry where
  key : Bytes
  deleted : Bool
  dataOffset : ℕ
  dataSize : ℕ
  hashIndexOffset : ℕ
  hashIndexSize : ℕ
  deriving DecidableEq

/-- `EncodeKey` and `EncodeValue` for all keys, from an offset on.  The values of a deleted key are
skipped.  The hash index of a key is written before the next key, or when the encoder is closed. -/
def encodeKeys (c : Codec) : Option Bytes → ℕ → List (Bytes × TagKey) →
    Except EncodeError (Bytes × List TagKeyEncodeEntry)
  | _, _, [] => .ok ([], [])
  | prev, n, k :: ks =>
    if prev.any fun p => k.1 < p then .error .tagKeyOutOfOrder
    else if prev = some k.1 then .error .tagKeyAlreadyEncoded
    else
      match encodeValues c [] n (.new 0 loadFactor) (if k.2.deleted then [] else k.2.tagValues.entries) with
      | .error e => .error e
      | .ok (data, offsets) =>
        let hashIndex := putHashIndex offsets
        match encodeKeys c (some k.1) (n + data.length + hashIndex.length) ks with
        | .error e => .error e
        | .ok (bytes, entries) =>
          .ok (data ++ (hashIndex ++ bytes),
            { key := k.1, deleted := k.2.deleted, dataOffset := n, dataSize := data.length
              hashIndexOffset := n + data.length, hashIndexSize := hashIndex.length } :: entries)

/-- What `encodeTagKeyBlock` writes for a key. -/
def keyBytes (e : TagKeyEncodeEntry) : Bytes :=
  [encodeTagKeyFlag e.deleted] ++ (putUint 8 e.dataOffset ++ (putUint 8 e.dataSize ++ (putUint 8 e.hashIndexOffset ++
    (putUint 8 e.hashIndexSize ++ (putUvarint e.key.length ++ e.key)))))

/-- Put elements into a map, one after the other. -/
def putAll (c : Codec) : HashMap Bytes ℕ → List (Bytes × ℕ) → Except EncodeError (HashMap Bytes ℕ)
  | m, [] => .ok m
  | m, e :: es =>
    match m.put c.hash [] e.1 e.2 with
    | none => .error .loop
    | some m => putAll c m es

/-- Offsets and sizes of the values, the keys and the hash index, and the size of the block. -/
structure TagBlockTrailer where
  valueOffset : ℕ
  valueSize : ℕ
  keyOffset : ℕ
  keySize : ℕ
  hashIndexOffset : ℕ
  hashIndexSize : ℕ
  size : ℕ

def tagBlockTrailerSize : ℕ := 58

namespace TagBlockTrailer

/-- The trailer without the version. -/
def fields (t : TagBlockTrailer) : Bytes :=
  putUint 8 t.valueOffset ++ (putUint 8 t.valueSize ++ (putUint 8 t.keyOffset ++ (putUint 8 t.keySize ++
    (putUint 8 t.hashIndexOffset ++ (putUint 8 t.hashIndexSize ++ putUint 8 t.size)))))

/-- `TagBlockTrailer.WriteTo`; the version is 1. -/
def bytes (t : TagBlockTrailer) : Bytes := t.fields ++ putUint 2 1

def parse : Parser TagBlockTrailer := do
  let valueOffset ← parseUint 8
  let valueSize ← parseUint 8
  let keyOffset ← parseUint 8
  let keySize ← parseUint 8
  let hashIndexOffset ← parseUint 8
  let hashIndexSize ← parseUint 8
  let size ← parseUint 8
  pure { valueOffset := valueOffset, valueSize := valueSize, keyOffset := keyOffset, keySize := keySize
         hashIndexOffset := hashIndexOffset, hashIndexSize := hashIndexSize, size := size }

end TagBlockTrailer

/-- `writeTagsetTo`: the tag block of a measurement. -/
def writeTagsetTo (c : Codec) (mm : Measurement) : Except EncodeError Bytes :=
  match encodeKeys c none 1 mm.tagSet.entries with
  | .error e => .error e
  | .ok (values, entries) =>
    let keyOffset := 1 + values.length
    let keyData := entries.flatMap keyBytes
    match putAll c (.new entries.length loadFactor)
        ((layout keyBytes keyOffset entries).map fun e => (e.1.key, e.2)) with
    | .error e => .error e
    | .ok offsets =>
      let hashIndex := putHashIndex offsets
      let trailer : TagBlockTrailer :=
        { valueOffset := 1, valueSize := values.length, keyOffset := keyOffset, keySize := keyData.length
          hashIndexOffset := keyOffset + keyData.length, hashIndexSize := hashIndex.length
          size := keyOffset + keyData.length + hashIndex.length + tagBlockTrailerSize }
      .ok ([0] ++ (values ++ (keyData ++ (hashIndex ++ trailer.bytes))))

/-! ### Reading -/

/-- What opening an index file fails with. -/
inductive IndexFileError where
  | shortBuffer
  | invalidIndexFile
  | unsupportedIndexFileVersion
  | unsupportedTagBlockVersion
  | tagBlockSizeMismatch
  /-- The source runs out of bounds. -/
  | panic
  deriving DecidableEq

structure TagBlockValueElem where
  flag : Byte
  value : Bytes
  seriesN : ℕ
  /-- The older format of series. -/
  seriesData : Bytes
  seriesIDSetData : Option Bytes

namespace TagBlockValueElem

def unmarshal : Parser TagBlockValueElem := do
  let flag ← parseByte
  let sz ← parseUvarint
  let value ← parseBytes sz
  let n ← parseUvarint
  let sz ← parseUvarint
  if flag.val &&& 2 = 0 then do
    let data ← parseBytes sz
    pure { flag := flag, value := value, seriesN := n, seriesData := data, seriesIDSetData := none }
  else do
    let buf ← get
    let _ ← parseBytes sz
    pure { flag := flag, value := value, seriesN := n, seriesData := [], seriesIDSetData := some buf }

def deleted (e : TagBlockValueElem) : Bool := e.flag.val &&& 1 ≠ 0

/-- Series ids from their differences. -/
def sumDeltas : ℕ → List ℕ → Finset ℕ
  | _, [] => ∅
  | prev, delta :: deltas => insert (prev + delta) (sumDeltas (prev + delta) deltas)

def seriesIDSet (c : Codec) (e : TagBlockValueElem) : Option (Finset ℕ) :=
  match e.seriesIDSetData with
  | some data => c.decodeSet data
  | none => (parseAll parseUvarint e.seriesData).map (sumDeltas 0)

/-- The element as its methods show it. -/
def tagValue (c : Codec) (e : TagBlockValueElem) : Option TagValue :=
  (e.seriesIDSet c).map fun ss => { deleted := e.deleted, series := ss }

end TagBlockValueElem

/-- A tag key with the values and the hash index of the values, which are parts of the block. -/
structure TagBlockKeyElem where
  flag : Byte
  key : Bytes
  data : Bytes
  hashIndex : Bytes

namespace TagBlockKeyElem

def unmarshal (data : Bytes) : Parser TagBlockKeyElem := do
  let flag ← parseByte
  let offset ← parseUint 8
  let size ← parseUint 8
  let buf ← parseCutAt data offset size
  let offset ← parseUint 8
  let size ← parseUint 8
  let hashIndex ← parseCutAt data offset size
  let n ← parseUvarint
  let key ← parseBytes n
  pure { flag := flag, key := key, data := buf, hashIndex := hashIndex }

def deleted (e : TagBlockKeyElem) : Bool := e.flag.val &&& 1 ≠ 0

/-- `TagValueIterator`, as what it returns; a value of no length is refused. -/
def tagValueIterator (e : TagBlockKeyElem) : Option (List TagBlockValueElem) :=
  (parseAll TagBlockValueElem.unmarshal e.data).filter fun es => es.all fun e => e.value ≠ []

end TagBlockKeyElem

structure TagBlock where
  data : Bytes
  valueData : Bytes
  keyData : Bytes
  hashData : Bytes

/-- A trailer at the end of the data, with a version as its last two bytes. -/
def readTrailer {α : Type} (size : ℕ) (unsupported : IndexFileError) (parse : Parser α) (data : Bytes) :
    Except IndexFileError α :=
  if data.length < 2 then .error .panic
  else if getUint (data.drop (data.length - 2)) ≠ 1 then .error unsupported
  else if data.length < size then .error .panic
  else
    match parse (data.drop (data.length - size)) with
    | none => .error .panic
    | some (t, _) => .ok t

namespace TagBlock

/-- `ReadTagBlockTrailer`. -/
def readTagBlockTrailer : Bytes → Except IndexFileError TagBlockTrailer :=
  readTrailer tagBlockTrailerSize .unsupportedTagBlockVersion TagBlockTrailer.parse

def unmarshalBinary (data : Bytes) : Except IndexFileError TagBlock :=
  match readTagBlockTrailer data with
  | .error e => .error e
  | .ok t =>
    if data.length ≠ t.size then .error .tagBlockSizeMismatch
    else
      match cutAt data t.valueOffset t.valueSize, cutAt data t.keyOffset t.keySize,
          cutAt data t.hashIndexOffset t.hashIndexSize with
      | some valueData, some keyData, some hashData =>
        .ok { data := data, valueData := valueData, keyData := keyData, hashData := hashData }
      | _, _, _ => .error .panic

/-- `DecodeTagKeyElem`. -/
def decodeTagKeyElem (c : Codec) (blk : TagBlock) (key : Bytes) : Option (Option TagBlockKeyElem) :=
  elemByHash c.hash blk.hashData (elemAt (TagBlockKeyElem.unmarshal blk.data) TagBlockKeyElem.key blk.data) key

/-- `DecodeTagValueElem`. -/
def decodeTagValueElem (c : Codec) (blk : TagBlock) (key value : Bytes) : Option (Option TagBlockValueElem) :=
  match blk.decodeTagKeyElem c key with
  | none => none
  | some none => some none
  | some (some e) =>
    elemByHash c.hash e.hashIndex (elemAt TagBlockValueElem.unmarshal TagBlockValueElem.value blk.data) value

/-- `TagKeyIterator`, as what it returns; a key of no length is refused. -/
def tagKeyIterator (blk : TagBlock) : Option (List TagBlockKeyElem) :=
  (parseAll (TagBlockKeyElem.unmarshal blk.data) blk.keyData).filter fun es => es.all fun e => e.key ≠ []

end TagBlock

end InfluxDB.Tsi
