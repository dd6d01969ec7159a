import InfluxDB.Models.Scan

/-!
    The scanners of field sections and timestamps.  The parsing of floats is not part of the repository; it is
    a parameter, which gives no value where the library call gives an error.
-/

namespace InfluxDB.Models

open Lib Buffer

/-! ### Numbers -/

/-- `strconv.ParseFloat`: the bits of the float. -/
abbrev ParseFloat := Bytes → Option (BitVec 64)

def isDigit (b : Byte) : Bool := decide (48 ≤ b) && decide (b ≤ 57)

/-- The number that decimal digits stand for. -/
def digitsValue (b : Bytes) : ℕ := b.foldl (fun n c => n * 10 + (c.val - 48)) 0

/-- `strconv.ParseUint(s, 10, 64)`. -/
def parseUintBytes (b : Bytes) : Option ℕ :=
  if b.length > 0 ∧ b.all isDigit ∧ digitsValue b < 2 ^ 64 then some (digitsValue b) else none

/-- `strconv.ParseInt(s, 10, 64)`: an optional sign, and digits in range. -/
def parseIntBytes (b : Bytes) : Option ℤ :=
  let (negative, digits) := match b with
    | 45 :: rest => (true, rest)
    | 43 :: rest => (false, rest)
    | _ => (false, b)
  if digits.length > 0 ∧ digits.all isDigit then
    let n : ℤ := if negative then -(digitsValue digits : ℤ) else digitsValue digits
    if -2 ^ 63 ≤ n ∧ n < 2 ^ 63 then some n else none
  else none

/-- `isNumeric`. -/
def isNumeric (b : Byte) : Bool := isDigit b || b == 46

/-- A test of the byte at a position, which fails behind the buffer. -/
def testAt (buf : Bytes) (i : ℕ) (test : Byte → Bool) : Checked Bool :=
  if i < buf.length then do
    let c ← get buf i
    return test c
  else return false

/-- Whether a byte is a sign behind an exponent mark: `+` or `-` behind `e` or `E`. -/
def isExponentSign (buf : Bytes) (i : ℕ) (c : Byte) : Checked Bool :=
  if c = 43 ∨ c = 45 then do
    let p ← getBefore buf i 1
    return p == 101 || p == 69
  else return false

/-- What `scanNumber` has seen. -/
structure NumberState where
  isInt : Bool
  isUnsigned : Bool
  decimal : Bool
  scientific : Bool

def scanNumberLoop (buf : Bytes) (start : ℕ) :
    ℕ → ℕ → NumberState → Checked (Except (ParseError × ℕ) (ℕ × NumberState))
  | 0, _, _ => .error .outOfFuel
  | fuel + 1, i, s =>
    if i ≥ buf.length then return .ok (i, s)
    else do
      let c ← get buf i
      if c = comma ∨ c = space then return .ok (i, s)
      -- 'i' and 'u'
      else if c = 105 ∧ i > start ∧ !(s.isInt || s.isUnsigned)
        then scanNumberLoop buf start fuel (i + 1) { s with isInt := true }
      else if c = 117 ∧ i > start ∧ !(s.isInt || s.isUnsigned) then
        scanNumberLoop buf start fuel (i + 1) { s with isUnsigned := true }
      -- '.'
      else if c = 46 ∧ s.decimal then return .error (.invalidNumber, i)
      else
        let s := if c = 46 then { s with decimal := true } else s
        -- 'e' and 'E'
        if i > start ∧ (c = 101 ∨ c = 69) then scanNumberLoop buf start fuel (i + 1) { s with scientific := true }
        else
          let signed ← isExponentSign buf i c
          if signed then scanNumberLoop buf start fuel (i + 1) s
          -- 'N' and 'n'
          else if i + 2 < buf.length ∧ (c = 78 ∨ c = 110) then return .error (.invalidNumber, i)
          else if !isNumeric c then return .error (.invalidNumber, i)
          else scanNumberLoop buf start fuel (i + 1) s

variable (parseFloat : ParseFloat)

/-- The checks of `scanNumber` behind its loop. -/
def checkNumber (buf : Bytes) (start i : ℕ) (s : NumberState) : Checked (Except (ParseError × ℕ) ℕ) := do
  if (s.isInt || s.isUnsigned) && (s.decimal || s.scientific) then return .error (.invalidNumber, i)
  else
    let first ← get buf start
    let digits : ℤ := (i : ℤ) - start - (if s.isInt then 1 else 0) - (if s.decimal then 1 else 0) -
      (if first = 45 then 1 else 0)
    if digits = 0 then return .error (.invalidNumber, i)
    else if s.isInt then
      let last ← getBefore buf i 1
      if last ≠ 105 then return .error (.invalidNumber, i)
      else
        let text ← sliceBefore buf start i 1
        if text.length ≥ 19 ∧ parseIntBytes text = none then return .error (.unableToParseInteger text, i)
        else return .ok i
    else if s.isUnsigned then
      let last ← getBefore buf i 1
      if last ≠ 117 then return .error (.invalidNumber, i)
      else if first = 45 then return .error (.invalidNumber, i)
      else
        let text ← sliceBefore buf start i 1
        if text.length ≥ 20 ∧ parseUintBytes text = none then return .error (.unableToParseUnsigned text, i)
        else return .ok i
    else
      let text ← slice buf start i
      if (s.scientific ∨ text.length ≥ 25) ∧ parseFloat text = none then return .error (.invalidFloat, i)
      else return .ok i

/-- `scanNumber`. -/
def scanNumber (buf : Bytes) (i : ℕ) : Checked (Except (ParseError × ℕ) ℕ) := do
  let start := i
  let negative ← testAt buf i fun c => decide (c = 45)
  let i := if negative then i + 1 else i
  if negative ∧ i = buf.length then return .error (.invalidNumber, i)
  else
    match ← scanNumberLoop buf start (buf.length + 1) i ⟨false, false, false, false⟩ with
    | .error err => return .error err
    | .ok (i, s) => checkNumber parseFloat buf start i s

/-! ### Booleans -/

/-- The loop shared by scanners that stop at a comma or a space. -/
def scanBooleanLoop (buf : Bytes) : ℕ → ℕ → Checked ℕ
  | 0, _ => .error .outOfFuel
  | fuel + 1, i =>
    if i ≥ buf.length then return i
    else do
      let c ← get buf i
      if c = comma ∨ c = space then return i else scanBooleanLoop buf fuel (i + 1)

/-- The words that `scanBoolean` takes, by their first letter. -/
def booleanWords (first : Byte) : List Bytes :=
  if first = 116 then [ascii "true"]
  else if first = 102 then [ascii "false"]
  else if first = 84 then [ascii "TRUE", ascii "True"]
  else if first = 70 then [ascii "FALSE", ascii "False"]
  else []

/-- `scanBoolean`. -/
def scanBoolean (buf : Bytes) (i : ℕ) : Checked (Except (ParseError × ℕ) ℕ) := do
  let start := i
  let bad ← testAt buf i fun c => decide (c ≠ 116 ∧ c ≠ 102 ∧ c ≠ 84 ∧ c ≠ 70)
  if bad then
    let _ ← slice buf start i
    return .error (.invalidBoolean, i)
  else
    let i ← scanBooleanLoop buf (buf.length + 1) (i + 1)
    let text ← slice buf start i
    if i - start = 1 then return .ok i
    else
      let first ← get buf start
      if (first = 116 ∨ first = 84) ∧ i - start ≠ 4 then return .error (.invalidBoolean, i)
      else if (first = 102 ∨ first = 70) ∧ i - start ≠ 5 then return .error (.invalidBoolean, i)
      else if text ∉ booleanWords first then return .error (.invalidBoolean, i)
      else return .ok i

/-! ### Fields -/

/-- What `scanFields` has seen. -/
structure FieldsState where
  quoted : Bool
  equals : ℕ
  commas : ℕ

/-- Whether the key of a field is missing: the byte in front of the `=` is the given one, and not escaped. -/
def emptyKeyBehind (buf : Bytes) (i : ℕ) (c : Byte) : Checked Bool := do
  let p ← getBefore buf i 1
  if p = c then
    let q ← getBefore buf i 2
    return decide (q ≠ backslash)
  else return false

/-- The scan of `scanFields` behind an unquoted `=`: where to go on, or `none` to go on behind it. -/
def scanFieldStart (buf : Bytes) (i : ℕ) : Checked (Except (ParseError × ℕ) (Option ℕ)) := do
  if ← emptyKeyBehind buf i space then return .error (.missingFieldKey, i)
  else if ← emptyKeyBehind buf i comma then return .error (.missingFieldKey, i)
  else if i + 1 ≥ buf.length then return .error (.missingFieldValue, i)
  else
    let n ← get buf (i + 1)
    if n = comma ∨ n = space then return .error (.missingFieldValue, i)
    else if isNumeric n ∨ n = 45 ∨ n = 78 ∨ n = 110 then
      match ← scanNumber parseFloat buf (i + 1) with
      | .error err => return .error err
      | .ok j => return .ok (some j)
    else if n ≠ quote then
      match ← scanBoolean buf (i + 1) with
      | .error err => return .error err
      | .ok j => return .ok (some j)
    else return .ok none

def scanFieldsLoop (parseFloat : ParseFloat) (buf : Bytes) : ℕ → ℕ → FieldsState →
    Checked (Except (ParseError × ℕ) (ℕ × FieldsState))
  | 0, _, _ => .error .outOfFuel
  | fuel + 1, i, s =>
    if i ≥ buf.length then return .ok (i, s)
    else do
      let c ← get buf i
      if c = backslash ∧ i + 1 < buf.length then scanFieldsLoop parseFloat buf fuel (i + 2) s
      else if c = quote ∧ s.equals > s.commas
        then scanFieldsLoop parseFloat buf fuel (i + 1) { s with quoted := !s.quoted }
      else if c = equals ∧ !s.quoted then
        let s := { s with equals := s.equals + 1 }
        match ← scanFieldStart parseFloat buf i with
        | .error err => return .error err
        | .ok (some j) => scanFieldsLoop parseFloat buf fuel j s
        | .ok none => scanFieldsLoop parseFloat buf fuel (i + 1) s
      else if c = comma ∧ !s.quoted then scanFieldsLoop parseFloat buf fuel (i + 1) { s with commas := s.commas + 1 }
      else if c = space ∧ !s.quoted then return .ok (i, s)
      else scanFieldsLoop parseFloat buf fuel (i + 1) s

/-- `scanFields`: the position behind the fields, and their text. -/
def scanFields (buf : Bytes) (i : ℕ) : Checked (Except ParseError (ℕ × Bytes)) := do
  let start ← skipWhitespace buf i
  match ← scanFieldsLoop parseFloat buf (buf.length + 1) start ⟨false, 0, 0⟩ with
  | .error (err, i) => fail buf start i err
  | .ok (i, s) =>
    if s.quoted then fail buf start i .unbalancedQuotes
    else if s.equals = 0 ∨ s.commas ≠ s.equals - 1 then fail buf start i .invalidFieldFormat
    else
      let fields ← slice buf start i
      return .ok (i, fields)

/-! ### Timestamps -/

def scanTimeLoop (buf : Bytes) (start : ℕ) : ℕ → ℕ → Checked (Except (ParseError × ℕ) ℕ)
  | 0, _ => .error .outOfFuel
  | fuel + 1, i =>
    if i ≥ buf.length then return .ok i
    else do
      let c ← get buf i
      if c = newline ∨ c = space then return .ok i
      else if i = start ∧ c = 45 then scanTimeLoop buf start fuel (i + 1)
      else if !isDigit c then return .error (.badTimestamp, i)
      else scanTimeLoop buf start fuel (i + 1)

/-- `scanTime`: the position behind the timestamp, and its text. -/
def scanTime (buf : Bytes) (i : ℕ) : Checked (Except ParseError (ℕ × Bytes)) := do
  let start ← skipWhitespace buf i
  match ← scanTimeLoop buf start (buf.length + 1) start with
  | .error (err, i) => fail buf start i err
  | .ok i =>
    let ts ← slice buf start i
    return .ok (i, ts)

end InfluxDB.Models
