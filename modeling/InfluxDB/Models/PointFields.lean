import InfluxDB.Models.Fields
import InfluxDB.Tsm.Cache
import Mathlib.Data.Nat.Digits.Defs

/-!
    The fields of a point as text, and the iterator that reads them.  Field keys are escaped where they are
    written and unescaped where they are read; the first byte of a value says which type it has.

    The text of floats is a parameter, with what is needed of `strconv` for finite floats.
-/

namespace InfluxDB.Models

open Lib Buffer Tsm List Field Except Nat

/-! ### The escapes of field keys -/

namespace Escape

def escapeChars : List Byte := [comma, quote, space, equals]

/-- `escape.IsEscaped`. -/
def isEscaped : Bytes → Bool
  | [] => false
  | c :: b => (decide (c = backslash) && b.head?.any (among escapeChars)) || isEscaped b

/-- The loop of `escape.AppendUnescaped`; there is no escape in front of `pos`. -/
def appendUnescapedLoop : ℕ → Bytes → Bytes → ℕ → Bytes
  | 0, dst, _, _ => dst
  | fuel + 1, dst, src, pos =>
    if src.length > 0 then
      match (src.drop pos).idxOf? backslash with
      | none => dst ++ src
      | some next =>
        if pos + next + 1 ≥ src.length then dst ++ src
        else if src[pos + next + 1]?.any (among escapeChars) then
          appendUnescapedLoop fuel (dst ++ src.take (pos + next)) (src.drop (pos + next + 1)) 0
        else appendUnescapedLoop fuel dst src (pos + next + 1)
    else dst

/-- `escape.AppendUnescaped`. -/
def appendUnescaped (dst src : Bytes) : Bytes := appendUnescapedLoop (src.length + 1) dst src 0

/-- `escape.String`. -/
def string (b : Bytes) : Bytes := escape backslash (among escapeChars) b

end Escape

/-- `EscapeStringField`. -/
def escapeStringField (b : Bytes) : Bytes := escape backslash (among [quote, backslash]) b

/-- The loop of `unescapeStringField`. -/
def unescapeStringLoop : Bytes → Bytes
  | [] => []
  | [c] => [c]
  | c :: d :: l =>
    if c = backslash ∧ (d = backslash ∨ d = quote) then d :: unescapeStringLoop l
      else c :: unescapeStringLoop (d :: l)

def unescapeStringField (b : Bytes) : Bytes := if backslash ∈ b then unescapeStringLoop b else b

/-! ### The iterator -/

/-- `FieldType`. -/
inductive FieldType where
  | integer
  | float
  | boolean
  | string
  | empty
  | unsigned
  deriving DecidableEq

/-- Where the field iterator stands. -/
structure Field where
  key : Bytes
  fieldType : FieldType
  valueBuf : Bytes
  deriving DecidableEq

/-- The bytes that start a number. -/
def numberStarts : Bytes := ascii "0123456789-.nNiIu"

/-- The type of a value by its text, and the text without the suffix of an integer. -/
def classify (key : Bytes) : Bytes → Field
  | [] => ⟨key, .empty, []⟩
  | c :: rest =>
    let value := c :: rest
    if c = quote then ⟨key, .string, value⟩
    else if c ∈ numberStarts then
      if value.getLast? = some 105 then ⟨key, .integer, value.dropLast⟩
      else if value.getLast? = some 117 then ⟨key, .unsigned, value.dropLast⟩
      else ⟨key, .float, value⟩
    else ⟨key, .boolean, value⟩

/-- `Next`, from the position behind the last field: the field, and the position behind it. -/
def nextField (fields : Bytes) (start : ℕ) : Checked (Option (Field × ℕ)) := do
  if start ≥ fields.length then return none
  else
    let (i, k) ← scanTo fields start equals
    let key := if Escape.isEscaped k then Escape.appendUnescaped [] k else k
    let (j, value) ← scanFieldValue fields (i + 1)
    return some (classify key value, j + 1)

/-- `strconv.ParseBool`. -/
def parseBoolBytes (b : Bytes) : Option Bool :=
  if b ∈ [ascii "1", ascii "t", ascii "T", ascii "true", ascii "TRUE", ascii "True"] then some true
  else if b ∈ [ascii "0", ascii "f", ascii "F", ascii "false", ascii "FALSE", ascii "False"] then some false
  else none

inductive FieldError where
  | unableToParse (fieldType : FieldType) (text : Bytes)
  | unknownFieldType (key : Bytes)
  deriving DecidableEq

/-- The value that the text of the field was parsed to. -/
def Field.parsed (f : Field) : Option Value → Checked (Except FieldError Value)
  | some v => .ok (.ok v)
  | none => .ok (.error (.unableToParse f.fieldType f.valueBuf))

/-- The value of the field, by its type. -/
def Field.value (parseFloat : ParseFloat) (f : Field) : Checked (Except FieldError Value) :=
  match f.fieldType with
  | .float => f.parsed ((parseFloat f.valueBuf).map .float)
  | .integer => f.parsed ((parseIntBytes f.valueBuf).map .integer)
  | .unsigned => f.parsed ((parseUintBytes f.valueBuf).map .unsigned)
  | .boolean => f.parsed ((parseBoolBytes f.valueBuf).map .boolean)
  | .string => do
    let text ← sliceBefore f.valueBuf 1 f.valueBuf.length 1
    return .ok (.string (unescapeStringField text))
  | .empty => .ok (.error (.unknownFieldType f.key))

/-! ### Writing fields -/

/-- The decimal digits of a number. -/
def appendUint (n : ℕ) : Bytes := if n = 0 then [48] else (digits 10 n).reverse.map fun d => Fin.ofNat 256 (48 + d)

/-- `strconv.AppendInt`. -/
def appendInt (n : ℤ) : Bytes := if n < 0 then 45 :: appendUint n.natAbs else appendUint n.natAbs

/-- Neither an infinity nor a NaN. -/
def isFinite (v : BitVec 64) : Bool := v.extractLsb' 52 11 ≠ 2047#11

/-- `strconv.ParseFloat` and `strconv.AppendFloat` with the format `f`: finite floats are written with digits, a
minus sign and a point, and read back. -/
structure FloatText where
  parse : ParseFloat
  append : BitVec 64 → Bytes
  parse_append : ∀ v, isFinite v = true → parse (append v) = some v
  append_ne_nil : ∀ v, isFinite v = true → append v ≠ []
  append_bytes : ∀ v, isFinite v = true → ∀ c ∈ append v, isDigit c = true ∨ c = 45 ∨ c = 46

variable (floats : FloatText)

/-- The text of a value. -/
def valueText : Value → Bytes
  | .float v => floats.append v
  | .integer v => appendInt v ++ [105]
  | .unsigned v => appendUint v ++ [117]
  | .boolean b => if b then ascii "true" else ascii "false"
  | .string s => quote :: (escapeStringField s ++ [quote])

/-- `appendField`. -/
def appendField (b k : Bytes) (v : Value) : Bytes :=
  b ++ Escape.string k ++ equals :: valueText floats v

/-- `Fields.MarshalBinary`; `sort.Strings` orders the keys of the map. -/
def marshalBinary (p : List (Bytes × Value)) : Bytes :=
  (Lib.insertionSort (fun a b => decide (a.1 < b.1)) p).zipIdx.foldl
    (fun b x => appendField floats (if x.2 > 0 then b ++ [comma] else b) x.1.1 x.1.2) []

/-- The fields that the iterator gives from a position on. -/
def readFields (parseFloat : ParseFloat) (fields : Bytes) :
    ℕ → ℕ → Checked (List (Bytes × Except FieldError Value))
  | 0, _ => .ok []
  | fuel + 1, start => do
    match ← nextField fields start with
    | none => return []
    | some (f, next) =>
      let v ← f.value parseFloat
      return (f.key, v) :: (← readFields parseFloat fields fuel next)

/-- `NewPointFromSeries`, for a map of one field. -/
def newPointFromSeries (key field : Bytes) (v : Value) (t : ℤ) : Point :=
  { time := t, key, fields := appendField floats [] field v }

/-! ### Field keys are read back -/

namespace Escape

theorem isEscaped_false {b : Bytes} (h : isEscaped b = false) : unescape backslash (among escapeChars) b = b := by
  induction b with
  | nil => rfl
  | cons c b ih =>
    rw [isEscaped, Bool.or_eq_false_iff] at h
    cases b with
    | nil => rfl
    | cons d b =>
      have hc : ¬(c = backslash ∧ among escapeChars d = true) := by simpa using h.1
      rw [unescape, if_neg hc, ih h.2]

/-- The bytes up to the next backslash, and what stands behind it. -/
theorem idxOf?_backslash {b : Bytes} {n : ℕ} (h : b.idxOf? backslash = some n) :
    ∃ l r, b = l ++ backslash :: r ∧ backslash ∉ l ∧ l.length = n := by
  have hmem : backslash ∈ b := by
    by_contra hnone
    rw [idxOf?_eq_none_iff.mpr hnone] at h
    cases h
  obtain ⟨l, r, rfl, hl⟩ := eq_append_cons_of_mem hmem
  refine ⟨l, r, rfl, hl, ?_⟩
  rw [idxOf?, findIdx?_append, ← idxOf?, idxOf?_eq_none_iff.mpr hl] at h
  simpa [idxOf?_cons] using h

theorem appendUnescapedLoop_eq {fuel : ℕ} {dst src : Bytes} {pos : ℕ}
    (hfuel : src.length - pos < fuel) (hpos : pos ≤ src.length) :
    appendUnescapedLoop fuel dst src pos = dst ++ src.take pos ++
      unescape backslash (among escapeChars) (src.drop pos) := by
  induction fuel generalizing dst src pos with
  | zero => omega
  | succ fuel ih =>
    rw [appendUnescapedLoop]
    by_cases hlen : src.length > 0
    · rw [if_pos hlen]
      cases hnext : (src.drop pos).idxOf? backslash with
      | none =>
        have hmem : backslash ∉ src.drop pos := idxOf?_eq_none_iff.mp hnext
        rw [unescape_of_notMem hmem, append_assoc, take_append_drop]
      | some next =>
        dsimp only
        obtain ⟨l, r, hlr, hl, rfl⟩ := idxOf?_backslash hnext
        have hcount : src.length = pos + (l.length + (r.length + 1)) := by
          have := congrArg length hlr
          rw [length_drop, length_append, length_cons] at this
          omega
        have htake : src.take (pos + l.length) = src.take pos ++ l := by
          rw [take_add, hlr, take_left]
        have hrest : src.drop (pos + l.length + 1) = r := drop_succ (drop_add hlr)
        rw [hlr, unescape_append hl]
        cases r with
        | nil =>
          rw [if_pos (by rw [hcount, length_nil]; omega), unescape, ← hlr, append_assoc, take_append_drop]
        | cons d r =>
          rw [length_cons] at hcount
          have hget : src[pos + l.length + 1]? = some d := by
            rw [← head?_drop, hrest, head?_cons]
          rw [if_neg (by omega), hget, Option.any_some, unescape]
          by_cases hd : among escapeChars d = true
          · rw [if_pos hd, if_pos ⟨rfl, hd⟩, hrest, htake,
              ih (by rw [length_cons]; omega) (zero_le _), take_zero, drop_zero, append_nil]
            simp only [append_assoc]
          · have htake' : src.take (pos + l.length + 1) = src.take pos ++ l ++ [backslash] := by
              rw [add_assoc, take_add, hlr, take_length_add_append, append_assoc]
              rfl
            rw [if_neg hd, if_neg fun h => hd h.2, ih (by omega) (by omega), hrest, htake']
            simp only [append_assoc, singleton_append]
    · obtain rfl : src = [] := length_eq_zero_iff.mp (by omega)
      simp [unescape]

theorem appendUnescaped_eq (src : Bytes) : appendUnescaped [] src = unescape backslash (among escapeChars) src := by
  rw [appendUnescaped, appendUnescapedLoop_eq (by omega) (zero_le _)]
  rfl

/-- What the iterator makes of a key. -/
theorem unescaped_eq (k : Bytes) :
    (if isEscaped k then appendUnescaped [] k else k) = unescape backslash (among escapeChars) k := by
  by_cases h : isEscaped k = true
  · rw [if_pos h, appendUnescaped_eq]
  · rw [if_neg h, isEscaped_false (Bool.eq_false_iff.mpr h)]

theorem getLast?_unescape (b : Bytes) : (unescape backslash (among escapeChars) b).getLast? = b.getLast? := by
  induction b with
  | nil => rfl
  | cons c b ih =>
    cases b with
    | nil => rfl
    | cons d b =>
      rw [unescape, getLast?_cons_cons, ← ih]
      split_ifs
      · rfl
      · rw [getLast?_cons, ih, getLast?_cons, Option.getD_some]

end Escape

/-! ### Reading one field -/

section Reading

variable {fields k v t rest : Bytes} {start : ℕ}

theorem nextField_of_cut (hstart : isEscaped fields start = false)
    (hk : cutAt [equals] false (fields.drop start) = (k, equals :: t)) (hv : cutValue false false t = (v, rest)) :
    nextField fields start =
      .ok (some (classify (unescape backslash (among Escape.escapeChars) k) v,
        start + k.length + 1 + v.length + 1)) := by
  have happ : fields.drop start = k ++ equals :: t := by
    have happ : (cutAt [equals] false (fields.drop start)).1 ++
        (cutAt [equals] false (fields.drop start)).2 = _ := upTo_append _ _
    rw [← happ, hk]
  have hvalue := drop_add happ
  have hlt := lt_length_of_drop hvalue
  rw [nextField, if_neg (by omega), scanTo_eq (by omega), hstart, hk, ok_bind]
  dsimp only
  rw [scanFieldValue_eq (by omega), drop_succ hvalue, hv, ok_bind, Escape.unescaped_eq]
  rfl

section

variable {f : Field} {j : ℕ} (h : nextField fields 0 = .ok (some (f, j)))
include h

/-- A field that is read has an equals sign that is not escaped. -/
theorem cut_of_nextField :
    ∃ k t, cutAt [equals] false fields = (k, equals :: t) ∧
      f.key = unescape backslash (among Escape.escapeChars) k := by
  rw [nextField] at h
  split_ifs at h with hlen
  · cases h
  rw [scanTo_eq (zero_le _), isEscaped, escapedAt_zero, drop_zero, ok_bind] at h
  dsimp only at h
  rw [zero_add, Escape.unescaped_eq] at h
  have happ := @upTo_append _ _ backslash (among [equals]) false fields
  rcases @upTo_behind _ _ backslash (among [equals]) false fields with hnil | ⟨c, t, ht, hc, -⟩
  · -- Without an equals sign, the value would start behind the text.
    rw [hnil, append_nil] at happ
    have hloop : scanFieldValue fields (fields.length + 1) = .error .outOfRange := by
      rw [scanFieldValue, scanFieldValueLoop, if_neg (by omega)]
      show (slice fields (fields.length + 1) (fields.length + 1) >>= _) = _
      rw [slice, if_neg (by omega)]
      rfl
    rw [cutAt, happ, hloop] at h
    cases h
  · obtain rfl : c = equals := by simpa using hc
    refine ⟨_, t, Prod.ext rfl ht, ?_⟩
    obtain ⟨⟨j', w⟩, -, hfj⟩ := bind_eq_ok.mp h
    have hf : f = classify _ w := (Prod.mk.inj (Option.some.inj (ok.inj hfj))).1.symm
    rw [hf]
    cases w with
    | nil => rfl
    | cons c w =>
      rw [classify]
      split_ifs <;> rfl

/-- The key of a field that is read does not end in a backslash. -/
theorem getLast?_of_nextField : f.key.getLast? ≠ some backslash := by
  obtain ⟨k, t, hk, hf⟩ := cut_of_nextField h
  rw [cutAt] at hk
  rcases @upTo_behind _ _ backslash (among [equals]) false fields with hnil | ⟨c, t, -, -, hend⟩
  · rw [hk] at hnil
    cases hnil
  · rw [hk] at hend
    rw [hf, Escape.getLast?_unescape]
    intro hlast
    cases k with
    | nil => cases hlast
    | cons c k => rw [endsEscaped_eq (cons_ne_nil _ _), hlast, decide_eq_true rfl] at hend; cases hend

end

end Reading

/-! ### The text of values -/

section Text

variable {r : Bytes} (hr : cutValue false false r = ([], r))

include hr in
theorem cutValue_plain {l : Bytes} (h : ∀ c ∈ l, c ≠ comma ∧ c ≠ quote ∧ c ≠ backslash) :
    cutValue false false (l ++ r) = (l, r) := by
  induction l with
  | nil => exact hr
  | cons c l ih =>
    obtain ⟨⟨hcomma, hquote, hback⟩, hl⟩ := forall_mem_cons.mp h
    rw [cons_append, cutValue, if_neg fun h => hback h.1, if_neg hquote, if_neg fun h => hcomma h.1, ih hl]

variable (s : Bytes) {key l : Bytes} {n : ℕ}

include hr in
theorem cutValue_escapeStringField :
    cutValue false true (escapeStringField s ++ quote :: r) = (escapeStringField s ++ [quote], r) := by
  induction s with
  | nil => simp [escapeStringField, escape, cutValue, hr, show quote ≠ backslash by decide]
  | cons c s ih =>
    rw [escapeStringField] at ih ⊢
    rw [escape_cons]
    by_cases hc : among [quote, backslash] c = true
    · rw [if_pos hc, append_assoc, cons_append, cons_append, nil_append, cutValue,
        if_pos ⟨rfl, by simpa using hc⟩, cutValue, ih]
      rfl
    · have hne : c ≠ quote ∧ c ≠ backslash := by simpa using hc
      rw [if_neg hc, append_assoc, cons_append, nil_append, cutValue, if_neg fun h => hne.2 h.1, if_neg hne.1,
        if_neg fun h => Bool.false_ne_true h.2.symm, ih]
      rfl

theorem unescapeStringLoop_cons {c : Byte} (hc : c ≠ backslash) (l : Bytes) :
    unescapeStringLoop (c :: l) = c :: unescapeStringLoop l := by
  cases l with
  | nil => rfl
  | cons d l => rw [unescapeStringLoop, if_neg fun h => hc h.1]

theorem unescapeStringLoop_escape : unescapeStringLoop (escapeStringField s) = s := by
  induction s with
  | nil => rfl
  | cons c s ih =>
    rw [escapeStringField] at ih ⊢
    rw [escape_cons]
    by_cases hc : among [quote, backslash] c = true
    · have hc' : c = backslash ∨ c = quote := by simpa [or_comm] using hc
      rw [if_pos hc, cons_append, cons_append, nil_append, unescapeStringLoop, if_pos ⟨rfl, hc'⟩, ih]
    · have hne : c ≠ quote ∧ c ≠ backslash := by simpa using hc
      rw [if_neg hc, cons_append, nil_append, unescapeStringLoop_cons hne.2, ih]

theorem unescapeStringLoop_of_notMem (h : backslash ∉ l) : unescapeStringLoop l = l := by
  induction l with
  | nil => rfl
  | cons c l ih =>
    obtain ⟨hc, hl⟩ := not_or.mp (mem_cons.not.mp h)
    rw [unescapeStringLoop_cons (Ne.symm hc), ih hl]

theorem unescapeStringField_escape : unescapeStringField (escapeStringField s) = s := by
  rw [unescapeStringField]
  split_ifs with h
  · exact unescapeStringLoop_escape s
  · rw [← unescapeStringLoop_of_notMem h, unescapeStringLoop_escape]

/-! Numbers. -/

theorem isDigit_digit {d : ℕ} (h : d < 10) : isDigit (Fin.ofNat 256 (48 + d)) = true := by
  have hall : ∀ d < 10, isDigit (Fin.ofNat 256 (48 + d)) = true := by decide
  exact hall d h

theorem appendUint_ne_nil (n : ℕ) : appendUint n ≠ [] := by
  rw [appendUint]
  split_ifs with h
  · exact cons_ne_nil _ _
  · simpa [digits_eq_nil_iff_eq_zero] using h

theorem isDigit_appendUint : ∀ c ∈ appendUint n, isDigit c = true := by
  intro c hc
  rw [appendUint] at hc
  split_ifs at hc with h
  · rw [mem_singleton.mp hc]
    rfl
  · obtain ⟨d, hd, rfl⟩ := mem_map.mp hc
    exact isDigit_digit (digits_lt_base (by decide) (mem_reverse.mp hd))

theorem digitsValue_appendUint (n : ℕ) : digitsValue (appendUint n) = n := by
  rw [appendUint]
  split_ifs with h
  · rw [h]
    rfl
  · have hfold : ∀ l : List ℕ, (∀ d ∈ l, d < 10) →
        l.foldr (fun d m => m * 10 + ((Fin.ofNat 256 (48 + d)).val - 48)) 0 = ofDigits 10 l := by
      intro l hl
      induction l with
      | nil => rfl
      | cons d l ih =>
        obtain ⟨hd, hl⟩ := forall_mem_cons.mp hl
        have hval : (Fin.ofNat 256 (48 + d)).val - 48 = d := by
          rw [Fin.val_ofNat, mod_eq_of_lt (by omega)]
          omega
        rw [foldr_cons, ih hl, hval, ofDigits_cons]
        omega
    rw [digitsValue, foldl_map, foldl_reverse, hfold _ fun d hd => digits_lt_base (by decide) hd, ofDigits_digits]

theorem parseUintBytes_appendUint (h : n < 2 ^ 64) : parseUintBytes (appendUint n) = some n := by
  rw [parseUintBytes, digitsValue_appendUint, if_pos]
  exact ⟨length_pos_of_ne_nil (appendUint_ne_nil n), all_eq_true.mpr isDigit_appendUint, h⟩

theorem parseIntBytes_appendInt {n : ℤ} (hlow : -2 ^ 63 ≤ n) (hhigh : n < 2 ^ 63) :
    parseIntBytes (appendInt n) = some n := by
  have hdigits : (appendUint n.natAbs).length > 0 ∧ (appendUint n.natAbs).all isDigit = true :=
    ⟨length_pos_of_ne_nil (appendUint_ne_nil _), all_eq_true.mpr isDigit_appendUint⟩
  rw [appendInt]
  split_ifs with hneg
  · have hn : -((n.natAbs : ℕ) : ℤ) = n := by omega
    rw [parseIntBytes]
    rw [if_pos hdigits, digitsValue_appendUint, if_pos rfl, hn, if_pos ⟨hlow, hhigh⟩]
  · have hn : ((n.natAbs : ℕ) : ℤ) = n := by omega
    have hvalue := digitsValue_appendUint n.natAbs
    have hall := @isDigit_appendUint n.natAbs
    obtain ⟨c, l, hcl⟩ := exists_cons_of_ne_nil (appendUint_ne_nil n.natAbs)
    rw [hcl] at hdigits hvalue hall ⊢
    have hc := hall c mem_cons_self
    have hsign : c ≠ 45 ∧ c ≠ 43 := by
      refine ⟨?_, ?_⟩
      · rintro rfl
        cases hc
      · rintro rfl
        cases hc
    rw [parseIntBytes]
    · rw [if_pos hdigits, hvalue, if_neg Bool.false_ne_true, hn, if_pos ⟨hlow, hhigh⟩]
    · exact fun rest h => hsign.1 (cons_eq_cons.mp h).1
    · exact fun rest h => hsign.2 (cons_eq_cons.mp h).1

theorem parseIntBytes_range {b : Bytes} {n : ℤ} (h : parseIntBytes b = some n) : -2 ^ 63 ≤ n ∧ n < 2 ^ 63 := by
  unfold parseIntBytes at h
  rw [Option.ite_none_right_eq_some, Option.ite_none_right_eq_some] at h
  exact Option.some.inj h.2.2 ▸ h.2.1

/-- The bytes of numbers. -/
def isNumberByte (c : Byte) : Bool := isDigit c || decide (c = 45) || decide (c = 46)

theorem isNumberByte_spec : ∀ c : Byte, isNumberByte c = true →
    c ∈ numberStarts ∧ c ≠ quote ∧ c ≠ comma ∧ c ≠ backslash ∧ c ≠ 105 ∧ c ≠ 117 := by
  decide +kernel

theorem isNumberByte_appendUint : ∀ c ∈ appendUint n, isNumberByte c = true := by
  intro c hc
  rw [isNumberByte, isDigit_appendUint c hc]
  rfl

theorem isNumberByte_appendInt {n : ℤ} : ∀ c ∈ appendInt n, isNumberByte c = true := by
  intro c hc
  rw [appendInt] at hc
  split_ifs at hc
  · rcases mem_cons.mp hc with rfl | hc
    · rfl
    · exact isNumberByte_appendUint c hc
  · exact isNumberByte_appendUint c hc

theorem appendInt_ne_nil (n : ℤ) : appendInt n ≠ [] := by
  rw [appendInt]
  split_ifs
  · exact cons_ne_nil _ _
  · exact appendUint_ne_nil _

/-- A number with a suffix. -/
theorem classify_suffix {suffix : Byte} {typ : FieldType} (hne : l ≠ []) (hl : ∀ c ∈ l, isNumberByte c = true)
    (hsuffix : suffix = 105 ∧ typ = .integer ∨ suffix = 117 ∧ typ = .unsigned) :
    classify key (l ++ [suffix]) = ⟨key, typ, l⟩ := by
  obtain ⟨c, l, rfl⟩ := exists_cons_of_ne_nil hne
  have hc := isNumberByte_spec c (hl c mem_cons_self)
  rw [cons_append, classify, ← cons_append, getLast?_concat, dropLast_concat, if_neg hc.2.1, if_pos hc.1]
  rcases hsuffix with ⟨rfl, rfl⟩ | ⟨rfl, rfl⟩
  · rw [if_pos rfl]
  · rw [if_neg (by decide), if_pos rfl]

theorem classify_float (hne : l ≠ []) (hl : ∀ c ∈ l, isNumberByte c = true) :
    classify key l = ⟨key, .float, l⟩ := by
  have hlast : ∀ c, l.getLast? = some c → c ≠ 105 ∧ c ≠ 117 := fun c hc =>
    (isNumberByte_spec c (hl c (mem_of_getLast? hc))).2.2.2.2
  obtain ⟨c, l, rfl⟩ := exists_cons_of_ne_nil hne
  have hc := isNumberByte_spec c (hl c mem_cons_self)
  rw [classify, if_neg hc.2.1, if_pos hc.1, if_neg fun h => (hlast _ h).1 rfl, if_neg fun h => (hlast _ h).2 rfl]

/-- The values that a field can hold: finite floats and machine integers. -/
def FitsField : Value → Prop
  | .float v => isFinite v = true
  | .integer n => -2 ^ 63 ≤ n ∧ n < 2 ^ 63
  | .unsigned n => n < 2 ^ 64
  | _ => True

variable {v : Value} {f : Field}

theorem Field.parsed_eq_ok {o : Option Value} (h : f.parsed o = .ok (.ok v)) : o = some v := by
  cases o with
  | none => cases ok.inj h
  | some w => rw [ok.inj (ok.inj h)]

/-- The values that are read fit, but for floats that are not finite. -/
theorem Field.fitsField_of_value {parseFloat : ParseFloat} (h : f.value parseFloat = .ok (.ok v))
    (hfinite : ∀ bits, v = .float bits → isFinite bits = true) : FitsField v := by
  rw [value] at h
  split at h
  · obtain ⟨bits, -, rfl⟩ := Option.map_eq_some_iff.mp (parsed_eq_ok h)
    exact hfinite bits rfl
  · obtain ⟨n, hn, rfl⟩ := Option.map_eq_some_iff.mp (parsed_eq_ok h)
    exact parseIntBytes_range hn
  · obtain ⟨n, hn, rfl⟩ := Option.map_eq_some_iff.mp (parsed_eq_ok h)
    rw [parseUintBytes] at hn
    split_ifs at hn with hrange
    exact Option.some.inj hn ▸ hrange.2.2
  · obtain ⟨b, -, rfl⟩ := Option.map_eq_some_iff.mp (parsed_eq_ok h)
    trivial
  · obtain ⟨text, -, h⟩ := bind_eq_ok.mp h
    rw [← ok.inj (ok.inj h)]
    trivial
  · cases ok.inj h

variable {floats : FloatText}

include hr in
theorem cutValue_valueText (hv : FitsField v) :
    cutValue false false (valueText floats v ++ r) = (valueText floats v, r) := by
  have hnumber : ∀ l : Bytes, (∀ c ∈ l, isNumberByte c = true ∨ c = 105 ∨ c = 117) →
      cutValue false false (l ++ r) = (l, r) := by
    intro l hl
    refine cutValue_plain hr fun c hc => ?_
    rcases hl c hc with h | rfl | rfl
    · have := isNumberByte_spec c h
      exact ⟨this.2.2.1, this.2.1, this.2.2.2.1⟩
    · decide
    · decide
  cases v with
  | float v =>
    refine hnumber _ fun c hc => .inl ?_
    simpa [isNumberByte, or_assoc] using floats.append_bytes v hv c hc
  | integer n =>
    refine hnumber _ fun c hc => ?_
    rcases mem_append.mp hc with hc | hc
    · exact .inl (isNumberByte_appendInt c hc)
    · exact .inr (.inl (mem_singleton.mp hc))
  | unsigned n =>
    refine hnumber _ fun c hc => ?_
    rcases mem_append.mp hc with hc | hc
    · exact .inl (isNumberByte_appendUint c hc)
    · exact .inr (.inr (mem_singleton.mp hc))
  | boolean b =>
    refine cutValue_plain hr ?_
    rw [valueText]
    cases b <;> decide +kernel
  | string s =>
    rw [valueText, cons_append, append_assoc, cutValue, if_neg fun h => absurd h.1 (by decide),
      if_pos rfl, Bool.not_false, singleton_append, cutValue_escapeStringField hr]

theorem value_classify (hv : FitsField v) :
    (classify key (valueText floats v)).key = key ∧
      (classify key (valueText floats v)).value floats.parse = .ok (.ok v) := by
  cases v with
  | float v =>
    have hbytes : ∀ c ∈ floats.append v, isNumberByte c = true := fun c hc => by
      simpa [isNumberByte, or_assoc] using floats.append_bytes v hv c hc
    rw [valueText, classify_float (floats.append_ne_nil v hv) hbytes, Field.value]
    rw [floats.parse_append v hv]
    exact ⟨rfl, rfl⟩
  | integer n =>
    rw [valueText, classify_suffix (appendInt_ne_nil n) isNumberByte_appendInt (.inl ⟨rfl, rfl⟩), Field.value]
    rw [parseIntBytes_appendInt hv.1 hv.2]
    exact ⟨rfl, rfl⟩
  | unsigned n =>
    rw [valueText, classify_suffix (appendUint_ne_nil n) isNumberByte_appendUint (.inr ⟨rfl, rfl⟩), Field.value]
    rw [parseUintBytes_appendUint hv]
    exact ⟨rfl, rfl⟩
  | boolean b => cases b <;> exact ⟨rfl, rfl⟩
  | string s =>
    have hslice : sliceBefore (quote :: (escapeStringField s ++ [quote])) 1
        (quote :: (escapeStringField s ++ [quote])).length 1 = .ok (escapeStringField s) := by
      have hlen : (quote :: (escapeStringField s ++ [quote])).length - 1 = 1 + (escapeStringField s).length := by
        rw [length_cons, length_append, length_singleton]
        omega
      rw [sliceBefore_eq (by rw [length_cons]; omega), hlen, slice_drop rfl (by rw [length_cons]; omega)]
    rw [valueText, classify, if_pos rfl, Field.value]
    rw [hslice, ok_bind, unescapeStringField_escape]
    exact ⟨rfl, rfl⟩

variable {fields k : Bytes} {start : ℕ}

include hr in
/-- A field that is written is read. -/
theorem nextField_appendField (hstart : isEscaped fields start = false)
    (h : fields.drop start = appendField floats [] k v ++ r) (hk : k.getLast? ≠ some backslash) (hv : FitsField v) :
    ∃ f, nextField fields start = .ok (some (f, start + (appendField floats [] k v).length + 1)) ∧ f.key = k ∧
      f.value floats.parse = .ok (.ok v) := by
  have hesc : among Escape.escapeChars backslash = false := by decide
  have hequals : ∀ c, among [equals] c = true → among Escape.escapeChars c = true := by
    intro c hc
    rw [among_iff, mem_singleton] at hc
    rw [hc]
    decide
  have hcut : cutAt [equals] false (fields.drop start) = (Escape.string k, equals :: (valueText floats v ++ r)) := by
    rw [h, appendField, nil_append, append_assoc, cons_append, Escape.string]
    exact upTo_of_plain (plain_escape hesc hequals false) (endsEscaped_escape hk) (by decide)
  have hlen : (appendField floats [] k v).length = (Escape.string k).length + 1 + (valueText floats v).length := by
    rw [appendField, nil_append, length_append, length_cons]
    omega
  refine ⟨classify k (valueText floats v), ?_, value_classify hv⟩
  rw [nextField_of_cut hstart hcut (cutValue_valueText hr hv), hlen, Escape.string, unescape_escape hesc]
  simp only [add_assoc]

/-! ### The fields of a point are read back -/

/-- The text of the fields, with commas between them. -/
theorem foldl_appendField (f : Bytes × Value) (l : List (Bytes × Value)) (b : Bytes) (n : ℕ) :
    ((f :: l).zipIdx n).foldl (fun b x => appendField floats (if x.2 > 0 then b ++ [comma] else b) x.1.1 x.1.2) b =
      (if n > 0 then b ++ [comma] else b) ++
        [comma].intercalate ((f :: l).map fun f => appendField floats [] f.1 f.2) := by
  induction l generalizing f b n with
  | nil => simp [appendField]
  | cons g l ih =>
    rw [zipIdx_cons, foldl_cons, ih, if_pos (succ_pos n)]
    simp [appendField]

theorem readFields_drop {l : List (Bytes × Value)}
    (hl : ∀ f ∈ l, f.1.getLast? ≠ some backslash ∧ FitsField f.2) {fuel start : ℕ}
    (hfuel : l.length < fuel) (hstart : l ≠ [] → isEscaped fields start = false)
    (h : fields.drop start = [comma].intercalate (l.map fun f => appendField floats [] f.1 f.2)) :
    readFields floats.parse fields fuel start = .ok (l.map fun f => (f.1, .ok f.2)) := by
  obtain ⟨fuel, rfl⟩ := exists_eq_succ_of_ne_zero (ne_zero_of_lt hfuel)
  induction l generalizing fuel start with
  | nil =>
    rw [readFields, nextField, if_pos (drop_eq_nil_iff.mp h)]
    rfl
  | cons f l ih =>
    obtain ⟨⟨hk, hv⟩, hl⟩ := forall_mem_cons.mp hl
    obtain ⟨r, hr, hfield, hrest⟩ : ∃ r, cutValue false false r = ([], r) ∧
        fields.drop start = appendField floats [] f.1 f.2 ++ r ∧
        (r = [] ∧ l = [] ∨ r = comma :: [comma].intercalate (l.map fun f => appendField floats [] f.1 f.2)) := by
      cases l with
      | nil => exact ⟨[], rfl, by simpa using h, .inl ⟨rfl, rfl⟩⟩
      | cons g l =>
        refine ⟨_, ?_, by simpa using h, .inr rfl⟩
        simp [cutValue, show comma ≠ backslash by decide, show comma ≠ quote by decide]
    obtain ⟨g, hnext, hkey, hvalue⟩ := nextField_appendField hr (hstart (cons_ne_nil f l)) hfield hk hv
    have hdrop := drop_add hfield
    rw [length_cons] at hfuel
    obtain ⟨fuel, rfl⟩ := exists_eq_succ_of_ne_zero (show fuel ≠ 0 by omega)
    rw [readFields, hnext, ok_bind]
    dsimp only
    rw [hvalue, ok_bind, ih hl (fun hne => ?_) ?_ fuel (by omega), ok_bind, hkey]
    · rfl
    · rcases hrest with ⟨rfl, rfl⟩ | rfl
      · exact drop_eq_nil_iff.mpr (le_succ_of_le (drop_eq_nil_iff.mp hdrop))
      · exact drop_succ hdrop
    · rcases hrest with ⟨-, hnil⟩ | rfl
      · exact absurd hnil hne
      · exact escapedAt_succ hdrop

def parseBits (b : Bytes) : Option (BitVec 64) := (parseUintBytes b).map (BitVec.ofNat 64)

theorem parseBits_appendUint (v : BitVec 64) (_ : isFinite v = true) : parseBits (appendUint v.toNat) = some v := by
  rw [parseBits, parseUintBytes_appendUint v.isLt, Option.map_some, BitVec.ofNat_toNat, BitVec.setWidth_eq]

theorem isDigit_appendBits (v : BitVec 64) (_ : isFinite v = true) (c : Byte) (hc : c ∈ appendUint v.toNat) :
    isDigit c = true ∨ c = 45 ∨ c = 46 := .inl (isDigit_appendUint c hc)

/-- Floats written as the decimal number of their bits. -/
def bitsText : FloatText where
  parse := parseBits
  append v := appendUint v.toNat
  parse_append := parseBits_appendUint
  append_ne_nil v _ := appendUint_ne_nil v.toNat
  append_bytes := isDigit_appendBits

/-- The iterator gives the fields that were written, each once and with its value. -/
theorem readFields_marshalBinary (floats : FloatText) {p : List (Bytes × Value)}
    (hp : ∀ f ∈ p, f.1.getLast? ≠ some backslash ∧ FitsField f.2) :
    ∃ l : List (Bytes × Value), l.Perm p ∧ ∀ fuel > p.length,
      readFields floats.parse (marshalBinary floats p) fuel 0 = .ok (l.map fun f => (f.1, .ok f.2)) := by
  have hperm := insertionSort_perm (fun a b : Bytes × Value => decide (a.1 < b.1)) p
  refine ⟨_, hperm, fun fuel hfuel => readFields_drop (fun f hf => hp f (hperm.mem_iff.mp hf))
    (hperm.length_eq ▸ hfuel) (fun _ => rfl) ?_⟩
  rw [drop_zero, marshalBinary]
  cases Lib.insertionSort (fun a b : Bytes × Value => decide (a.1 < b.1)) p with
  | nil => rfl
  | cons f l => rw [foldl_appendField, if_neg (lt_irrefl 0), nil_append]

def mixedFields : List (Bytes × Value) := [(ascii "b", .string (ascii "x,")), (ascii "a=", .integer (-3))]

theorem readFields_mixedFields : ∃ l : List (Bytes × Value), l.Perm mixedFields ∧ ∀ fuel > 2,
    readFields parseBits (marshalBinary bitsText mixedFields) fuel 0 = .ok (l.map fun f => (f.1, .ok f.2)) :=
  readFields_marshalBinary bitsText (by simp [mixedFields, FitsField]; decide)

end Text

end InfluxDB.Models
