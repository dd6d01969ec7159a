import InfluxDB.Tsm.Cache

/-!
    The entries of the write-ahead log and their bytes.  `Encode` writes into a buffer of the size that
    `MarshalSize` gives and panics where it would write behind it; `UnmarshalBinary` checks every length
    that it reads against the bytes that are left.
-/

namespace InfluxDB.Wal

open Lib Tsm

inductive EncodeError where
  | incorrectValue (slice found : Value.Kind)
  | invalidID
  | outOfRange
  deriving DecidableEq

inductive DecodeError where
  | corrupt
  | unsupportedValueType (typ : Byte)
  | unknownEntryType (typ : Byte)
  | invalidID
  deriving DecidableEq

/-- `WALEntry`: a write of points, or the deletion of data in a bucket.  A predicate without bytes is
none. -/
inductive WALEntry where
  | write (values : FinMap Bytes (Values Value))
  | deleteBucketRange (orgID bucketID : ℕ) (min max : ℤ) (predicate : Bytes)
  deriving DecidableEq

/-- The byte for the type of a value slice. -/
def entryType : Value.Kind → Byte
  | .float => 1
  | .integer => 2
  | .boolean => 3
  | .string => 4
  | .unsigned => 5

namespace WriteWALEntry

/-- The size of the times and values of a key; there is none for an empty slice and for a slice of
strings that holds another value. -/
def valuesSize (v : Values Value) : Option ℕ :=
  match v with
  | [] => none
  | p :: _ =>
    match p.2.kind with
    | .float | .integer | .unsigned => some (8 * v.length + 8 * v.length)
    | .boolean => some (8 * v.length + v.length)
    | .string =>
      v.foldlM (fun n vv => match vv.2 with
        | .string s => some (n + (4 + s.length))
        | _ => none) (8 * v.length)

/-- `MarshalSize`. -/
def marshalSize (values : FinMap Bytes (Values Value)) : ℕ :=
  (values.entries.foldlM (fun n kv => (valuesSize kv.2).map fun size => n + kv.1.length + size)
    (7 * values.entries.length)).getD 0

/-- Writing bytes behind those of the buffer, which has `cap` bytes in all. -/
def put (cap : ℕ) (out b : Bytes) : Except EncodeError Bytes :=
  if out.length + b.length ≤ cap then .ok (out ++ b) else .error .outOfRange

/-- `copy` writes what fits. -/
def copy (cap : ℕ) (out b : Bytes) : Bytes := out ++ b.take (cap - out.length)

/-- A time and a value of a slice of the given type. -/
def encodeValue (cap : ℕ) (curType : Value.Kind) (out : Bytes) (p : ℤ × Value) : Except EncodeError Bytes := do
  let out ← put cap out (putInt64 p.1)
  if p.2.kind ≠ curType then .error (.incorrectValue curType p.2.kind)
  else
    match p.2 with
    | .float bits => put cap out (putUint 8 bits.toNat)
    | .integer v => put cap out (putInt64 v)
    | .unsigned v => put cap out (putUint 8 v)
    | .boolean b => put cap out [if b then 1 else 0]
    | .string s => do
      let out ← put cap out (putUint 4 s.length)
      .ok (copy cap out s)

/-- A key with its values; the type is that of the first value, which an empty slice does not have. -/
def encodeKey (cap : ℕ) (out : Bytes) (kv : Sigma fun _ : Bytes => Values Value) : Except EncodeError Bytes :=
  match kv.2 with
  | [] => .error .outOfRange
  | p :: _ => do
    let out ← put cap out [entryType p.2.kind]
    let out ← put cap out (putUint 2 kv.1.length)
    let out := copy cap out kv.1
    let out ← put cap out (putUint 4 kv.2.length)
    kv.2.foldlM (encodeValue cap p.2.kind) out

/-- `Encode`. -/
def encode (values : FinMap Bytes (Values Value)) : Except EncodeError Bytes :=
  values.entries.foldlM (encodeKey (marshalSize values)) []

/-- Times with values of a fixed width. -/
def readFixed (width : ℕ) (read : Bytes → Value) : ℕ → Bytes → Values Value × Bytes
  | 0, rest => ([], rest)
  | n + 1, rest =>
    let r := readFixed width read n (rest.drop (8 + width))
    ((getInt64 (rest.take 8), read ((rest.drop 8).take width)) :: r.1, r.2)

/-- Times with strings. -/
def readStrings : ℕ → Bytes → Except DecodeError (Values Value × Bytes)
  | 0, rest => .ok ([], rest)
  | n + 1, rest =>
    if rest.length < 12 then .error .corrupt
    else
      let length := getUint ((rest.drop 8).take 4)
      if (rest.drop 8).length < length then .error .corrupt
      else if (rest.drop 12).length < length then .error .corrupt
      else do
        let r ← readStrings n ((rest.drop 12).drop length)
        .ok ((getInt64 (rest.take 8), .string ((rest.drop 12).take length)) :: r.1, r.2)

/-- The values of a slice of the given type. -/
def readValues (typ : Byte) (nvals : ℕ) (rest : Bytes) : Except DecodeError (Values Value × Bytes) :=
  let fixed (width : ℕ) (read : Bytes → Value) : Except DecodeError (Values Value × Bytes) :=
    if rest.length < (8 + width) * nvals then .error .corrupt else .ok (readFixed width read nvals rest)
  if typ = entryType .float then fixed 8 fun b => .float (BitVec.ofNat 64 (getUint b))
  else if typ = entryType .integer then fixed 8 fun b => .integer (getInt64 b)
  else if typ = entryType .unsigned then fixed 8 fun b => .unsigned (getUint b)
  else if typ = entryType .boolean then fixed 1 fun b => .boolean (decide (b = [1]))
  else if typ = entryType .string then readStrings nvals rest
  else .error (.unsupportedValueType typ)

/-- One key with its values, out of `total` bytes. -/
def readKey (total : ℕ) (typ : Byte) (rest : Bytes) : Except DecodeError (Bytes × Values Value × Bytes) :=
  match cut 2 rest with
  | none => .error .corrupt
  | some (b, rest) =>
    match cut (getUint b) rest with
    | none => .error .corrupt
    | some (k, rest) =>
      match cut 4 rest with
      | none => .error .corrupt
      | some (b, rest) =>
        let nvals := getUint b
        if nvals = 0 ∨ nvals > total then .error .corrupt
        else do
          let r ← readValues typ nvals rest
          .ok (k, r.1, r.2)

/-- The loop over the keys; each takes at least one of the `fuel` bytes. -/
def unmarshalLoop (total : ℕ) :
    ℕ → Bytes → FinMap Bytes (Values Value) → Except DecodeError (FinMap Bytes (Values Value))
  | _, [], values => .ok values
  | 0, _ :: _, _ => .error .corrupt
  | fuel + 1, typ :: rest, values => do
    let r ← readKey total typ rest
    unmarshalLoop total fuel r.2.2 (values.set r.1 r.2.1)

/-- `UnmarshalBinary`. -/
def unmarshalBinary (b : Bytes) : Except DecodeError (FinMap Bytes (Values Value)) :=
  unmarshalLoop b.length b.length b ∅

end WriteWALEntry

/-- A hexadecimal digit. -/
def hexDigit (n : ℕ) : Byte := Fin.ofNat 256 (if n < 10 then 48 + n else 87 + n)

/-- The value of a hexadecimal digit of either case. -/
def hexValue (c : Byte) : Option ℕ :=
  if 48 ≤ c.val ∧ c.val ≤ 57 then some (c.val - 48)
  else if 97 ≤ c.val ∧ c.val ≤ 102 then some (c.val - 87)
  else if 65 ≤ c.val ∧ c.val ≤ 70 then some (c.val - 55)
  else none

/-- `hex.Encode`. -/
def hexEncode (b : Bytes) : Bytes := b.flatMap fun x => [hexDigit (x.val / 16), hexDigit (x.val % 16)]

/-- `strconv.ParseUint` of base 16. -/
def parseHex (b : Bytes) : Option ℕ := b.foldlM (fun n c => (hexValue c).map fun d => n * 16 + d) 0

/-- `ID.Encode`; 0 is not a valid id. -/
def encodeID (i : ℕ) : Except EncodeError Bytes := if i = 0 then .error .invalidID else .ok (hexEncode (putUint 8 i))

/-- `ID.Decode` of 16 bytes. -/
def decodeID (b : Bytes) : Except DecodeError ℕ :=
  match parseHex b with
  | none => .error .invalidID
  | some i => if i = 0 then .error .invalidID else .ok i

namespace WALEntry

/-- `Type`. -/
def type : WALEntry → Byte
  | .write _ => 1
  | .deleteBucketRange _ _ _ _ _ => 4

/-- `Encode`. -/
def encode : WALEntry → Except EncodeError Bytes
  | .write values => WriteWALEntry.encode values
  | .deleteBucketRange orgID bucketID min max predicate => do
    let orgID ← encodeID orgID
    let bucketID ← encodeID bucketID
    .ok (orgID ++ bucketID ++ putInt64 min ++ putInt64 max ++ predicate)

/-- `UnmarshalBinary` of an entry of the given type. -/
def unmarshalBinary (typ : Byte) (b : Bytes) : Except DecodeError WALEntry :=
  if typ = 1 then (WriteWALEntry.unmarshalBinary b).map .write
  else if typ = 4 then
    if b.length < 2 * 16 + 16 then .error .corrupt
    else do
      let orgID ← decodeID (b.take 16)
      let bucketID ← decodeID ((b.drop 16).take 16)
      .ok (.deleteBucketRange orgID bucketID (getInt64 ((b.drop 32).take 8))
        (getInt64 ((b.drop 40).take 8)) (b.drop 48))
  else .error (.unknownEntryType typ)

end WALEntry

end InfluxDB.Wal
