import InfluxDB.Lib.Buffer
import InfluxDB.Lib.Bytes
import InfluxDB.Lib.Search

/-!
    The scanners of the line protocol parser.  They take a buffer and a position in it and return the position
    where they stopped.  Every access to a buffer is checked, and every loop runs on fuel, one unit a pass.

    Where the source returns a slice with an error, the slice is taken, since it may be out of range, and
    dropped.
-/

namespace InfluxDB.Models

open Lib Buffer

/-! ### Bytes -/

abbrev tab : Byte := 9
abbrev newline : Byte := 10
abbrev space : Byte := 32
abbrev quote : Byte := 34
abbrev hash : Byte := 35
abbrev comma : Byte := 44
abbrev equals : Byte := 61
abbrev backslash : Byte := 92

/-- The bytes of a text of ASCII characters. -/
def ascii (s : String) : Bytes := s.toList.map fun c => Fin.ofNat 256 c.toNat

/-- `FieldKeyTagKeyBytes`. -/
def fieldKeyTagKey : Byte := 255

/-- `MeasurementTagKeyBytes`. -/
def measurementTagKey : Byte := 0

/-- `reservedTagKeys`. -/
def reservedTagKeys : List Bytes :=
  [[fieldKeyTagKey], [measurementTagKey], ascii "_field", ascii "_measurement", ascii "time"]

/-- What is wrong with a line. -/
inductive ParseError where
  | missingMeasurement
  | missingFields
  | missingTagKey
  | missingTagValue
  | invalidTagFormat
  | reservedTagKey (key : Bytes)
  | duplicateTags
  | missingFieldKey
  | missingFieldValue
  | invalidNumber
  | unableToParseInteger (text : Bytes)
  | unableToParseUnsigned (text : Bytes)
  | invalidFloat
  | invalidBoolean
  | unbalancedQuotes
  | invalidFieldFormat
  | badTimestamp
  | invalidSyntax (text : Bytes)
  | timeOutOfRange
  | invalidPoint
  | invalidValue (fieldKey : Bytes)
  | maxKeyLengthExceeded (size : ℕ)
  deriving DecidableEq

/-- The next section of a line. -/
inductive ScanState where
  | tagKey
  | tagValue
  | fields
  deriving DecidableEq

/-- Return an error with the slice `buf[start:i]`. -/
def fail {α : Type} (buf : Bytes) (start i : ℕ) (err : ParseError) : Checked (Except ParseError α) := do
  let _ ← slice buf start i
  return .error err

/-! ### Blocks of bytes -/

def skipWhitespaceLoop (buf : Bytes) : ℕ → ℕ → Checked ℕ
  | 0, _ => .error .outOfFuel
  | fuel + 1, i =>
    if i < buf.length then do
      let c ← get buf i
      if c ≠ space ∧ c ≠ tab ∧ c ≠ 0 then return i else skipWhitespaceLoop buf fuel (i + 1)
    else return i

variable (buf : Bytes) (i : ℕ)

/-- `skipWhitespace`. -/
def skipWhitespace : Checked ℕ := skipWhitespaceLoop buf (buf.length + 1) i

def scanToLoop (buf : Bytes) (stop : Byte) : ℕ → ℕ → Checked ℕ
  | 0, _ => .error .outOfFuel
  | fuel + 1, i =>
    if i ≥ buf.length then return i
    else do
      let c ← get buf i
      if c = stop then
        if i = 0 then return i
        else
          let p ← getBefore buf i 1
          if p ≠ backslash then return i else scanToLoop buf stop fuel (i + 1)
      else scanToLoop buf stop fuel (i + 1)

/-- `scanTo`. -/
def scanTo (stop : Byte) : Checked (ℕ × Bytes) := do
  let j ← scanToLoop buf stop (buf.length + 1) i
  let b ← slice buf i j
  return (j, b)

/-- The loop looks at the byte before `i` first, even where `i` is behind the buffer. -/
def scanToSpaceOrLoop (buf : Bytes) (stop : Byte) : ℕ → ℕ → Checked ℕ
  | 0, _ => .error .outOfFuel
  | fuel + 1, i => do
    let i := i + 1
    let p ← getBefore buf i 1
    if p = backslash then scanToSpaceOrLoop buf stop fuel i
    else if i ≥ buf.length then return i
    else
      let c ← get buf i
      if c = stop ∨ c = space then return i else scanToSpaceOrLoop buf stop fuel i

/-- `scanToSpaceOr`. -/
def scanToSpaceOr (stop : Byte) : Checked (ℕ × Bytes) := do
  let c ← get buf i
  let j ← if c = stop ∨ c = space then pure i else scanToSpaceOrLoop buf stop (buf.length + 1) i
  let b ← slice buf i j
  return (j, b)

def scanFieldValueLoop (buf : Bytes) : ℕ → ℕ → Bool → Checked ℕ
  | 0, _, _ => .error .outOfFuel
  | fuel + 1, i, quoted =>
    if i < buf.length then do
      let c ← get buf i
      if c = backslash ∧ i + 1 < buf.length then
        let n ← get buf (i + 1)
        if n = quote ∨ n = backslash then scanFieldValueLoop buf fuel (i + 2) quoted
        else scanFieldValueLoop buf fuel (i + 1) quoted
      else if c = quote then scanFieldValueLoop buf fuel (i + 1) !quoted
      else if c = comma ∧ quoted = false then return i
      else scanFieldValueLoop buf fuel (i + 1) quoted
    else return i

/-- `scanFieldValue`. -/
def scanFieldValue : Checked (ℕ × Bytes) := do
  let j ← scanFieldValueLoop buf (buf.length + 1) i false
  let b ← slice buf i j
  return (j, b)

/-- What `scanLine` has seen. -/
structure LineState where
  quoted : Bool
  fields : Bool
  equals : ℕ
  commas : ℕ

/-- A space starts the fields. -/
def LineState.start (s : LineState) (c : Byte) : LineState := if c = space then { s with fields := true } else s

/-- The equals signs, commas and quotes of the fields. -/
def LineState.count (s : LineState) (c : Byte) : Option LineState :=
  if s.fields then
    if !s.quoted ∧ c = Models.equals then some { s with equals := s.equals + 1 }
    else if !s.quoted ∧ c = comma then some { s with commas := s.commas + 1 }
    else if c = quote ∧ s.equals > s.commas then some { s with quoted := !s.quoted }
    else none
  else none

def scanLineLoop (buf : Bytes) : ℕ → ℕ → LineState → Checked ℕ
  | 0, _, _ => .error .outOfFuel
  | fuel + 1, i, s =>
    if i ≥ buf.length then return i
    else do
      let c ← get buf i
      if c = backslash ∧ i + 2 < buf.length then scanLineLoop buf fuel (i + 2) s
      else
        match (s.start c).count c with
        | some s => scanLineLoop buf fuel (i + 1) s
        | none => if c = newline ∧ !(s.start c).quoted then return i else scanLineLoop buf fuel (i + 1) (s.start c)

/-- `scanLine`. -/
def scanLine : Checked (ℕ × Bytes) := do
  let j ← scanLineLoop buf (buf.length + 1) i { quoted := false, fields := false, equals := 0, commas := 0 }
  let b ← slice buf i j
  return (j, b)

/-! ### The measurement and the tags -/

def scanMeasurementLoop (buf : Bytes) : ℕ → ℕ → Checked (Except ParseError ScanState × ℕ)
  | 0, _ => .error .outOfFuel
  | fuel + 1, i =>
    let i := i + 1
    if i ≥ buf.length then return (.error .missingFields, i)
    else do
      let p ← getBefore buf i 1
      if p = backslash then scanMeasurementLoop buf fuel i
      else
        let c ← get buf i
        if c = comma then return (.ok .tagKey, i + 1)
        else if c = space then return (.ok .fields, i)
        else scanMeasurementLoop buf fuel i

/-- `scanMeasurement`. -/
def scanMeasurement : Checked (Except ParseError ScanState × ℕ) :=
  if i ≥ buf.length then return (.error .missingMeasurement, i)
  else do
    let c ← get buf i
    if c = comma then return (.error .missingMeasurement, i)
    else scanMeasurementLoop buf (buf.length + 1) i

def scanTagsKeyLoop (buf : Bytes) : ℕ → ℕ → Checked (Except (ParseError × ℕ) ℕ)
  | 0, _ => .error .outOfFuel
  | fuel + 1, i =>
    let i := i + 1
    if i ≥ buf.length then return .error (.missingTagValue, i)
    else do
      let c ← get buf i
      let p ← getBefore buf i 1
      if (c = space ∨ c = comma) ∧ p ≠ backslash then return .error (.missingTagValue, i)
      else if c = equals ∧ p ≠ backslash then return .ok (i + 1)
      else scanTagsKeyLoop buf fuel i

/-- `scanTagsKey`. -/
def scanTagsKey : Checked (Except (ParseError × ℕ) ℕ) :=
  if i ≥ buf.length then return .error (.missingTagKey, i)
  else do
    let c ← get buf i
    if c = space ∨ c = comma ∨ c = equals then return .error (.missingTagKey, i)
    else scanTagsKeyLoop buf (buf.length + 1) i

def scanTagsValueLoop (buf : Bytes) : ℕ → ℕ → Checked (Except (ParseError × ℕ) (ScanState × ℕ))
  | 0, _ => .error .outOfFuel
  | fuel + 1, i =>
    let i := i + 1
    if i ≥ buf.length then return .error (.missingFields, i)
    else do
      let c ← get buf i
      let p ← getBefore buf i 1
      if c = equals ∧ p ≠ backslash then return .error (.invalidTagFormat, i)
      else if c = comma ∧ p ≠ backslash then return .ok (.tagKey, i + 1)
      else if c = space ∧ p ≠ backslash then return .ok (.fields, i)
      else scanTagsValueLoop buf fuel i

/-- `scanTagsValue`. -/
def scanTagsValue : Checked (Except (ParseError × ℕ) (ScanState × ℕ)) :=
  if i ≥ buf.length then return .error (.missingTagValue, i)
  else do
    let c ← get buf i
    if c = comma ∨ c = space then return .error (.missingTagValue, i)
    else scanTagsValueLoop buf (buf.length + 1) i

variable (indices : List ℕ)

/-- The array of tag starts, with twice the room when there is none left. -/
def growIndices (commas : ℕ) : List ℕ :=
  if commas ≥ indices.length then indices ++ List.replicate indices.length 0 else indices

/-- The loop of `scanTags`: the position of the fields, the number of tags and where they start.  The start
that would follow the last tag goes behind the others, for which no room is made. -/
def scanTagsLoop (buf : Bytes) :
    ℕ → ScanState → ℕ → ℕ → List ℕ → Checked (Except (ParseError × ℕ) (ℕ × ℕ × List ℕ))
  | 0, _, _, _, _ => .error .outOfFuel
  | fuel + 1, .tagKey, i, commas, indices => do
    let indices ← put (growIndices indices commas) commas i
    match ← scanTagsKey buf i with
    | .error err => return .error err
    | .ok i => scanTagsLoop buf fuel .tagValue i (commas + 1) indices
  | fuel + 1, .tagValue, i, commas, indices => do
    match ← scanTagsValue buf i with
    | .error err => return .error err
    | .ok (state, i) => scanTagsLoop buf fuel state i commas indices
  | _ + 1, .fields, i, commas, indices => do
    let indices ← put indices commas (i + 1)
    return .ok (i, commas, indices)

/-- `scanTags`. -/
def scanTags : Checked (Except (ParseError × ℕ) (ℕ × ℕ × List ℕ)) :=
  scanTagsLoop buf (buf.length + 2) .tagKey i 0 indices

/-- The key of the `j`-th tag, read from the slice that holds the tag. -/
def tagKeyAt (j : ℕ) : Checked Bytes := do
  let a ← get indices j
  let b ← get indices (j + 1)
  let tag ← sliceBefore buf a b 1
  let r ← scanTo tag 0 equals
  return r.2

/-- The loop of `scanKey` over the reserved keys; `n` tags are left from the `j`-th on. -/
def checkReserved (buf : Bytes) (indices : List ℕ) : ℕ → ℕ → Checked (Option Bytes)
  | 0, _ => return none
  | n + 1, j => do
    let key ← tagKeyAt buf indices j
    if key ∈ reservedTagKeys then return some key else checkReserved buf indices n (j + 1)

/-- Whether the tags are in order, found from their neighbours; equal neighbours are an error. -/
def checkSorted (buf : Bytes) (indices : List ℕ) : ℕ → ℕ → Checked (Except ParseError Bool)
  | 0, _ => return .ok true
  | n + 1, j => do
    let left ← tagKeyAt buf indices j
    let right ← tagKeyAt buf indices (j + 1)
    if right < left then return .ok false
    else if left = right then return .error .duplicateTags
    else checkSorted buf indices n (j + 1)

/-- `insertionSort` with `less`: the starts of the tags in the order of the tag keys. -/
def sortIndices : Checked (List ℕ) := do
  let tags ← indices.mapM fun i => do
    let r ← scanTo buf i equals
    return (r.2, i)
  return (insertionSort (fun a b => decide (a.1 < b.1)) tags).map (·.2)

/-- Copy the tags behind `pos`. -/
def copyTags (buf : Bytes) : List ℕ → Bytes → ℕ → Checked Bytes
  | [], b, _ => return b
  | i :: rest, b, pos => do
    let b ← put b pos comma
    let v ← scanToSpaceOr buf i comma
    let r ← copy b (pos + 1) v.2
    copyTags buf rest r.1 (pos + 1 + r.2)

/-- Whether two neighbours of the sorted tags have the same key. -/
def hasDuplicates (buf : Bytes) : List ℕ → Checked Bool
  | i :: j :: rest => do
    let left ← scanTo (← sliceFrom buf i) 0 equals
    let right ← scanTo (← sliceFrom buf j) 0 equals
    if left.2 = right.2 then return true else hasDuplicates buf (j :: rest)
  | _ => return false

/-- `scanKey` behind the scan of the tags: check them, and put them in order. -/
def orderTags (start i commas : ℕ) (indices : List ℕ) : Checked (Except ParseError (ℕ × Bytes)) := do
  match ← checkReserved buf indices commas 0 with
  | some key => fail buf start i (.reservedTagKey key)
  | none =>
    match ← checkSorted buf indices (commas - 1) 0 with
    | .error err => fail buf start i err
    | .ok sorted =>
      if !sorted ∧ commas > 0 then
        let first ← get indices 0
        let measurement ← sliceBefore buf start first 1
        let indices ← sortIndices buf (indices.take commas)
        let b := List.replicate (← slice buf start i).length 0
        let r ← copy b 0 measurement
        let b ← copyTags buf indices r.1 r.2
        if ← hasDuplicates buf indices then return .error .duplicateTags else return .ok (i, b)
      else
        let key ← slice buf start i
        return .ok (i, key)

/-- `scanKey`: the position behind the key, and the key with its tags in order. -/
def scanKey : Checked (Except ParseError (ℕ × Bytes)) := do
  let start ← skipWhitespace buf i
  let (state, i) ← scanMeasurement buf start
  match state with
  | .error err => fail buf start i err
  | .ok state =>
    let indices := List.replicate 100 0
    let tags ← if state = .tagKey then scanTags buf i indices else pure (.ok (i, 0, indices))
    match tags with
    | .error (err, i) => fail buf start i err
    | .ok (i, commas, indices) => orderTags buf start i commas indices

end InfluxDB.Models
