import InfluxDB.Lib.Escape
import InfluxDB.Models.ScanFields

/-!
    The parser of points in line protocol.  Each line gives one point for each of its fields; the measurement
    and the field key become tags of the series key.  The parser counts the bytes that it allocates and
    stops at its limits.

    Times are nanoseconds since the epoch; an option that is not positive sets no limit.
-/

namespace InfluxDB.Models

open Lib Buffer

/-- `MaxKeyLength`. -/
def maxKeyLength : ℕ := 65535

/-- `Precision` of timestamps; all other texts mean nanoseconds. -/
inductive Precision where
  | ns
  | us
  | ms
  | s
  deriving DecidableEq

/-- `GetPrecisionMultiplier`. -/
def Precision.multiplier : Precision → ℤ
  | .ns => 1
  | .us => 1000
  | .ms => 1000000
  | .s => 1000000000

/-- `truncateTimeWithPrecision`. -/
def truncateTimeWithPrecision (t : ℤ) (p : Precision) : ℤ := t - t % p.multiplier

def minNanoTime : ℤ := -2 ^ 63 + 2
def maxNanoTime : ℤ := 2 ^ 63 - 1 - 1

/-- A 64-bit integer after overflow. -/
def wrapInt64 (n : ℤ) : ℤ := (n + 2 ^ 63) % 2 ^ 64 - 2 ^ 63

/-- `safeSignedMult`. -/
def safeSignedMult (a b : ℤ) : Option ℤ :=
  if a = 0 ∨ b = 0 ∨ a = 1 ∨ b = 1 then some (wrapInt64 (a * b))
  else if a = minNanoTime ∨ b = maxNanoTime then none
  else
    let c := wrapInt64 (a * b)
    if c.tdiv b = a then some c else none

/-- `SafeCalcTime`, with `CheckTime`. -/
def safeCalcTime (timestamp : ℤ) (precision : Precision) : Option ℤ :=
  match safeSignedMult timestamp precision.multiplier with
  | some t => if t < minNanoTime ∨ t > maxNanoTime then none else some t
  | none => none

/-- The division finds the factor again only if the product has not overflowed. -/
theorem wrapInt64_tdiv_eq_iff {a b : ℤ} (hpos : 0 < b) (hlt : b < 2 ^ 63) :
    (wrapInt64 (a * b)).tdiv b = a ↔ wrapInt64 (a * b) = a * b := by
  constructor
  · intro h
    have hdiv := Int.tmod_add_mul_tdiv (wrapInt64 (a * b)) b
    have hlow := Int.lt_tmod_of_pos (wrapInt64 (a * b)) hpos
    have hhigh := Int.tmod_lt_of_pos (wrapInt64 (a * b)) hpos
    rw [h, Int.mul_comm b] at hdiv
    rw [wrapInt64] at *
    omega
  · intro h
    rw [h, Int.mul_tdiv_cancel _ hpos.ne']

/-- A time is calculated if and only if the product is in range, and then it is the product. -/
theorem safeCalcTime_eq (timestamp : ℤ) (precision : Precision) (hmin : -2 ^ 63 ≤ timestamp)
    (hmax : timestamp < 2 ^ 63) :
    safeCalcTime timestamp precision =
      if minNanoTime ≤ timestamp * precision.multiplier ∧ timestamp * precision.multiplier ≤ maxNanoTime then
        some (timestamp * precision.multiplier) else none := by
  have hdiv : _ ↔ _ := @wrapInt64_tdiv_eq_iff timestamp precision.multiplier (by cases precision <;> decide)
    (by cases precision <;> decide)
  rw [safeCalcTime, safeSignedMult]
  simp only [hdiv]
  cases precision with
  | ns | us | ms | s =>
    simp only [wrapInt64, Precision.multiplier, minNanoTime, maxNanoTime]
    split_ifs <;> grind

theorem safeCalcTime_eq_day : safeCalcTime 86400 .s = some 86400000000000 := by
  rw [safeCalcTime_eq 86400 .s (by decide) (by decide)]
  decide

/-- `point`, as the parser makes it. -/
structure Point where
  time : ℤ
  key : Bytes
  fields : Bytes
  deriving DecidableEq

/-- `parserState`. -/
inductive ParserState where
  | ok
  | bytesLimit
  | valueLimit
  deriving DecidableEq

/-- Why a line gives no more points: a limit of the parser, or what is wrong with the line. -/
inductive LineError where
  | limit
  | invalid (err : ParseError)
  deriving DecidableEq

/-- The options of a parser. -/
structure ParserOptions where
  maxLines : ℤ
  maxBytes : ℤ
  maxValues : ℤ
  defaultTime : ℤ
  precision : Precision

/-- `pointsParser`; the parsing of floats stands with the options. -/
structure PointsParser where
  parseFloat : ParseFloat
  options : ParserOptions
  orgBucket : Bytes
  bytesN : ℕ
  points : List Point
  state : ParserState

/-- `newPointsParser`. -/
def newPointsParser (parseFloat : ParseFloat) (orgBucket : Bytes) (options : ParserOptions) : PointsParser :=
  { parseFloat, options, orgBucket, bytesN := 0, points := [], state := .ok }

/-- The size of a `Point` interface value and of a `point`. -/
def pointInterfaceSize : ℕ := 16

def pointSize : ℕ := 216

/-- `seriesKeySizeV2`. -/
def seriesKeySizeV2 (key mm field : Bytes) : ℕ := mm.length + 3 + field.length + 3 + key.length + 4 + field.length

namespace PointsParser

variable (pp : PointsParser)

/-- `defaultTime`, truncated. -/
def defaultTime : ℤ := truncateTimeWithPrecision pp.options.defaultTime pp.options.precision

/-- `checkAlloc`. -/
def checkAlloc (n size : ℕ) : Bool × PointsParser :=
  let newBytes := pp.bytesN + n * size
  if pp.options.maxBytes > 0 ∧ (newBytes : ℤ) > pp.options.maxBytes then (false, { pp with state := .bytesLimit })
  else (true, { pp with bytesN := newBytes })

/-- `append`. -/
def append (p : Point) : Option LineError × PointsParser :=
  if pp.options.maxValues > 0 ∧ (pp.points.length : ℤ) > pp.options.maxValues then
    (some .limit, { pp with state := .valueLimit })
  else
    match pp.checkAlloc 1 pointSize with
    | (false, pp) => (some .limit, pp)
    | (true, pp) => (none, { pp with points := pp.points ++ [p] })

/-- The buffer of `newV2Key`: the bucket, the measurement tag with the old key, and the field tag. -/
def buildV2Key (mm oldKey field : Bytes) : Checked Bytes := do
  let sz := mm.length + 1 + 1 + 1 + oldKey.length + 1 + 1 + 1 + field.length
  let b := List.replicate sz 0
  let (b, _) ← copy b 0 mm
  let pos := mm.length
  let b ← put b pos comma
  let b ← put b (pos + 1) measurementTagKey
  let b ← put b (pos + 2) equals
  let (b, _) ← copy b (pos + 3) oldKey
  let pos := pos + 3 + oldKey.length
  let b ← put b pos comma
  let b ← put b (pos + 1) fieldKeyTagKey
  let b ← put b (pos + 2) equals
  let (b, _) ← copy b (pos + 3) field
  return b

/-- `newV2Key`. -/
def newV2Key (oldKey field : Bytes) : Checked (Except LineError Bytes × PointsParser) := do
  let mm := pp.orgBucket
  let size := seriesKeySizeV2 oldKey mm field
  if size > maxKeyLength then return (.error (.invalid (.maxKeyLengthExceeded size)), pp)
  else
    let sz := mm.length + 1 + 1 + 1 + oldKey.length + 1 + 1 + 1 + field.length
    match pp.checkAlloc 1 sz with
    | (false, pp) => return (.error .limit, pp)
    | (true, pp) =>
      let key ← buildV2Key mm oldKey field
      return (.ok key, pp)

/-- What the loop over the fields does with each of them. -/
def addField (time : ℤ) (key field fieldBuf : Bytes) : Checked (Option LineError × PointsParser) := do
  match ← pp.newV2Key key field with
  | (.error err, pp) => return (some err, pp)
  | (.ok newKey, pp) => return pp.append { time, key := newKey, fields := fieldBuf }

/-- `walkFields` with `addField`. -/
def walkFields (time : ℤ) (key : Bytes) :
    ℕ → Bytes → PointsParser → Checked (Option LineError × PointsParser)
  | 0, _, _ => .error .outOfFuel
  | fuel + 1, buf, pp =>
    if buf.length > 0 then do
      let data := buf
      let (i, k) ← scanTo buf 0 equals
      if i + 2 > buf.length then return (some (.invalid (.invalidValue k)), pp)
      else
        let buf ← sliceFrom buf (i + 1)
        let (j, _) ← scanFieldValue buf 0
        let buf ← sliceFrom buf j
        let fieldBuf ← sliceBefore data 0 data.length buf.length
        match ← pp.addField time key k fieldBuf with
        | (some err, pp) => return (some err, pp)
        | (none, pp) => walkFields time key fuel (buf.drop 1) pp
    else return (none, pp)

/-- Escape equals signs. -/
def escapeEquals (l : Bytes) : Bytes := replaceAll [equals] [backslash, equals] l

/-- The key with `=` escaped in the part that `parsePointsAppend` takes for the measurement. -/
def escapeMeasurementEquals (key : Bytes) : Checked (Except LineError Bytes × PointsParser) := do
  let (_, i) ← scanMeasurement key 0
  let keyMeasurement ← sliceBefore key 0 i 1
  if equals ∈ keyMeasurement then
    let escaped := escapeEquals keyMeasurement
    let sz := escaped.length + (key.length - keyMeasurement.length)
    match pp.checkAlloc 1 sz with
    | (false, pp) => return (.error .limit, pp)
    | (true, pp) =>
      let (b, _) ← copy (List.replicate sz 0) 0 escaped
      let rest ← sliceFrom key keyMeasurement.length
      let (b, _) ← copy b escaped.length rest
      return (.ok b, pp)
  else return (.ok key, pp)

/-- Whether only spaces are left from a position on. -/
def onlySpaces (buf : Bytes) : ℕ → ℕ → Checked Bool
  | 0, _ => .error .outOfFuel
  | fuel + 1, pos =>
    if pos < buf.length then do
      let c ← get buf pos
      if c ≠ space then return false else onlySpaces buf fuel (pos + 1)
    else return true

/-- The time of a line from the text of its timestamp. -/
def lineTime (buf : Bytes) (pos : ℕ) (ts : Bytes) : Checked (Except ParseError ℤ) := do
  if ts.length = 0 then return .ok pp.defaultTime
  else
    match parseIntBytes ts with
    | none => return .error (.invalidSyntax ts)
    | some n =>
      match safeCalcTime n pp.options.precision with
      | none => return .error .timeOutOfRange
      | some t => if ← onlySpaces buf (buf.length + 1) pos then return .ok t else return .error .invalidPoint

/-- `parsePointsAppend`. -/
def parsePointsAppend (buf : Bytes) : Checked (Option LineError × PointsParser) := do
  match ← scanKey buf 0 with
  | .error err => return (some (.invalid err), pp)
  | .ok (pos, key) =>
    if key.length = 0 then return (some (.invalid .missingMeasurement), pp)
    else if key.length > maxKeyLength then return (some (.invalid (.maxKeyLengthExceeded key.length)), pp)
    else
      match ← pp.escapeMeasurementEquals key with
      | (.error err, pp) => return (some err, pp)
      | (.ok key, pp) =>
        match ← scanFields pp.parseFloat buf pos with
        | .error err => return (some (.invalid err), pp)
        | .ok (pos, fields) =>
          if fields.length = 0 then return (some (.invalid .missingFields), pp)
          else
            match ← scanTime buf pos with
            | .error err => return (some (.invalid err), pp)
            | .ok (pos, ts) =>
              match ← pp.lineTime buf pos ts with
              | .error err => return (some (.invalid err), pp)
              | .ok time => walkFields time key (fields.length + 1) fields pp

/-- What `parsePoints` returns: a limit that was exceeded, or the lines that failed. -/
inductive ParsePointsError where
  | maxLinesExceeded
  | maxValuesExceeded
  | maxBytesExceeded
  | unableToParse (lines : List (Bytes × ParseError))

/-- A line without its newline and the whitespace in front, if it may hold points. -/
def stripLine (block : Bytes) : Checked (Option Bytes) := do
  if block.length = 0 then return none
  else
    let start ← skipWhitespace block 0
    if start ≥ block.length then return none
    else
      let c ← get block start
      if c = hash then return none
      else
        let last ← getBefore block block.length 1
        let block ← if last = newline then sliceBefore block 0 block.length 1 else pure block
        let line ← sliceFrom block start
        return some line

/-- The loop of `parsePoints` over the lines. -/
def parseLines (buf : Bytes) : ℕ → ℕ → List (Bytes × ParseError) → PointsParser →
    Checked (List (Bytes × ParseError) × PointsParser)
  | 0, _, _, _ => .error .outOfFuel
  | fuel + 1, pos, failed, pp =>
    if pos < buf.length ∧ pp.state = .ok then do
      let (pos, block) ← scanLine buf pos
      let pos := pos + 1
      match ← stripLine block with
      | none => parseLines buf fuel pos failed pp
      | some line =>
        match ← pp.parsePointsAppend line with
        | (none, pp) => parseLines buf fuel pos failed pp
        | (some .limit, pp) => return (failed, pp)
        | (some (.invalid err), pp) =>
          match pp.checkAlloc 1 line.length with
          | (false, pp) => return (failed, pp)
          | (true, pp) => parseLines buf fuel pos (failed ++ [(line, err)]) pp
    else return (failed, pp)

/-- `parsePoints`. -/
def parsePoints (buf : Bytes) : Checked (Option ParsePointsError × PointsParser) := do
  let lineCount := buf.count newline
  if pp.options.maxLines > 0 ∧ (lineCount : ℤ) > pp.options.maxLines then return (some .maxLinesExceeded, pp)
  else
    match pp.checkAlloc (lineCount + 1) pointInterfaceSize with
    | (false, pp) => return (some .maxBytesExceeded, pp)
    | (true, pp) =>
      let (failed, pp) ← parseLines buf (buf.length + 1) 0 [] pp
      match pp.state with
      | .bytesLimit => return (some .maxBytesExceeded, pp)
      | .valueLimit => return (some .maxValuesExceeded, pp)
      | .ok => if failed.length > 0 then return (some (.unableToParse failed), pp) else return (none, pp)

end PointsParser

end InfluxDB.Models
