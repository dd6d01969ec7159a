import InfluxDB.Lib.Escape
import InfluxDB.Models.Scan

/-!
    Series keys: the name of a measurement and its tags, with escapes.  The source escapes one byte
    after the other over the whole text; the lemmas say what that comes to.
-/

namespace InfluxDB.Models

open Lib List

/-- A tag of a series. -/
structure Tag where
  key : Bytes
  value : Bytes
  deriving DecidableEq

/-- The tags of a series are sorted by key. -/
abbrev Tags := List Tag

/-- `Tags.Get`: a missing value is nil, which has no bytes. -/
def Tags.get (a : Tags) (key : Bytes) : Bytes := ((a.find? fun t => t.key == key).map Tag.value).getD []

/-- Escape the bytes of a list one after the other. -/
def escapeCodes (codes : List Byte) (b : Bytes) : Bytes :=
  codes.foldl (fun b c => if c ∈ b then replaceAll [c] [backslash, c] b else b) b

/-- Take the escapes of the bytes of a list away, one byte after the other. -/
def unescapeCodes (codes : List Byte) (b : Bytes) : Bytes :=
  if backslash ∈ b then codes.foldl (fun b c => if c ∈ b then replaceAll [backslash, c] [c] b else b) b else b

def measurementEscapeCodes : List Byte := [comma, space]

def tagEscapeCodes : List Byte := [comma, space, equals]

def escapeMeasurement : Bytes → Bytes := escapeCodes measurementEscapeCodes

def unescapeMeasurement : Bytes → Bytes := unescapeCodes measurementEscapeCodes

def escapeTag : Bytes → Bytes := escapeCodes tagEscapeCodes

namespace Tags

def needsEscape (a : Tags) : Bool :=
  a.any fun t => tagEscapeCodes.any fun c => decide (c ∈ t.key) || decide (c ∈ t.value)

/-- `AppendHashKey`, as the bytes that are appended; tags without a value are skipped. -/
def hashKey (a : Tags) : Bytes :=
  let escaped : Tags := if a.needsEscape then a.map fun t => ⟨escapeTag t.key, escapeTag t.value⟩ else a
  escaped.flatMap fun t => if t.value = [] then [] else comma :: (t.key ++ equals :: t.value)

end Tags

def makeKey (name : Bytes) (tags : Tags) : Bytes := escapeMeasurement (unescapeMeasurement name) ++ tags.hashKey

/-! ### What is escaped -/

/-- The bytes that are escaped in tags. -/
def tagStop (b : Byte) : Bool := b = comma || b = space || b = equals

theorem escapeCodes_cons (c : Byte) (codes : List Byte) (b : Bytes) :
    escapeCodes (c :: codes) b = escapeCodes codes (b.flatMap fun a => if a = c then [backslash, c] else [a]) := by
  rw [escapeCodes, foldl_cons, ← escapeCodes]
  by_cases hc : c ∈ b
  · rw [if_pos hc, replaceAll_singleton]
  · have hid : (b.flatMap fun a => if a = c then [backslash, c] else [a]) = b := by
      have hmap : ∀ a ∈ b, (if a = c then [backslash, c] else [a]) = [a] := by
        intro a ha
        rw [if_neg]
        rintro rfl
        exact hc ha
      rw [flatMap_congr hmap, flatMap_singleton']
    rw [if_neg hc, hid]

theorem escapeTag_eq (b : Bytes) : escapeTag b = escape backslash tagStop b := by
  rw [escapeTag, tagEscapeCodes, escapeCodes_cons, escapeCodes_cons, escapeCodes_cons, escapeCodes, foldl_nil,
    flatMap_assoc, flatMap_assoc, escape]
  refine flatMap_congr fun a _ => ?_
  by_cases hcomma : a = comma
  · rw [hcomma]
    decide
  · by_cases hspace : a = space
    · rw [hspace]
      decide
    · by_cases heq : a = equals
      · rw [heq]
        decide
      · simp [tagStop, hcomma, hspace, heq]

variable {b : Bytes}

theorem escapeTag_of_forall (h : ∀ a ∈ b, tagStop a = false) : escapeTag b = b := by
  rw [escapeTag_eq, escape_of_forall h]

/-- A tag as it stands in a key. -/
def Tag.text (t : Tag) : Bytes := comma :: (escapeTag t.key ++ equals :: escapeTag t.value)

/-- The tags that a key has: a tag without a value is left out. -/
def Tags.stored (a : Tags) : Tags := a.filter fun t => t.value ≠ []

theorem escapeTag_eq_nil_iff : escapeTag b = [] ↔ b = [] := by
  rw [escapeTag_eq]
  cases b with
  | nil => exact iff_of_true rfl rfl
  | cons a b =>
    rw [escape_cons]
    cases tagStop a <;> simp

theorem Tags.hashKey_eq (a : Tags) : a.hashKey = a.stored.flatMap Tag.text := by
  have hescaped : (if a.needsEscape then a.map (fun t => (⟨escapeTag t.key, escapeTag t.value⟩ : Tag)) else a) =
      a.map fun t => ⟨escapeTag t.key, escapeTag t.value⟩ := by
    by_cases h : a.needsEscape = true
    · rw [if_pos h]
    · have hfree : ∀ t ∈ a, ∀ b, (b ∈ t.key ∨ b ∈ t.value) → tagStop b = false := by
        intro t ht b hb
        rw [Bool.eq_false_iff]
        intro hstop
        refine h (any_eq_true.mpr ⟨t, ht, any_eq_true.mpr ⟨b, ?_, by simpa using hb⟩⟩)
        simpa [tagStop, tagEscapeCodes, or_assoc] using hstop
      rw [if_neg h]
      have hmap : ∀ t ∈ a, (⟨escapeTag t.key, escapeTag t.value⟩ : Tag) = t := fun t ht => by
        rw [escapeTag_of_forall fun b hb => hfree t ht b (.inl hb),
          escapeTag_of_forall fun b hb => hfree t ht b (.inr hb)]
      rw [map_congr_left hmap, map_id']
  rw [hashKey, hescaped, flatMap_map, stored]
  clear hescaped
  induction a with
  | nil => rfl
  | cons t a ih =>
    rw [flatMap_cons, ih, filter_cons]
    by_cases hv : t.value = []
    · simp [hv, escapeTag_eq_nil_iff]
    · simp [hv, escapeTag_eq_nil_iff, Tag.text]

theorem escapeCodes_of_forall {codes : List Byte} (h : ∀ c ∈ codes, c ∉ b) : escapeCodes codes b = b := by
  induction codes with
  | nil => rfl
  | cons c codes ih =>
    obtain ⟨hc, h⟩ := forall_mem_cons.mp h
    rw [escapeCodes, foldl_cons, if_neg hc]
    exact ih h

theorem makeKey_eq {name : Bytes} (hcomma : comma ∉ name) (hspace : space ∉ name)
    (hback : backslash ∉ name) (tags : Tags) :
    makeKey name tags = name ++ tags.stored.flatMap Tag.text := by
  have hcodes : ∀ c ∈ measurementEscapeCodes, c ∉ name := by
    simpa [measurementEscapeCodes] using ⟨hcomma, hspace⟩
  rw [makeKey, unescapeMeasurement, unescapeCodes, if_neg hback, escapeMeasurement, escapeCodes_of_forall hcodes,
    Tags.hashKey_eq]

end InfluxDB.Models
