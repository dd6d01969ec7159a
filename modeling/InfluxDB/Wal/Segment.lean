import InfluxDB.Wal.EntryCodec

/-!
    Segment files of the write-ahead log: records of a type, a length and a compressed entry, one behind the
    other.  A reader stops at the first record that it cannot read, and the file is cut there.
-/

namespace InfluxDB.Wal

open Lib List Nat

/-- The compression: what is compressed is read back, and no bytes are not. -/
structure Snappy where
  encode : Bytes → Bytes
  decode : Bytes → Option Bytes
  decode_encode : ∀ b, decode (encode b) = some b
  decode_nil : decode [] = none

inductive ReadError where
  | unexpectedEOF
  | snappyCorrupt
  | entry (err : DecodeError)

variable (sn : Snappy)

/-- The bytes that `WALSegmentWriter.Write` appends. -/
def frame (entryType : Byte) (compressed : Bytes) : Bytes := entryType :: (putUint 4 compressed.length ++ compressed)

/-- `WALSegmentReader.Next` on the bytes that are left: the entry, the number of its bytes and the rest. -/
def next (b : Bytes) : Option (Except ReadError (WALEntry × ℕ × Bytes)) :=
  match b with
  | [] => none
  | entryType :: b =>
    match cut 4 b with
    | none => some (.error .unexpectedEOF)
    | some (length, b) =>
      match cut (getUint length) b with
      | none => some (.error .unexpectedEOF)
      | some (compressed, b) =>
        match sn.decode compressed with
        | none => some (.error .snappyCorrupt)
        | some data =>
          match WALEntry.unmarshalBinary entryType data with
          | .error err => some (.error (.entry err))
          | .ok e => some (.ok (e, 5 + getUint length, b))

/-- The entries that a reader has delivered, the number of their bytes, and whether it met a record that it
cannot read. -/
structure Read where
  entries : List WALEntry
  count : ℕ
  corrupt : Bool

/-- The loop of `readFile`; each record takes at least one of the `fuel` bytes. -/
def readSegment : ℕ → Bytes → Read
  | 0, _ => ⟨[], 0, false⟩
  | fuel + 1, b =>
    match next sn b with
    | none => ⟨[], 0, false⟩
    | some (.error _) => ⟨[], 0, true⟩
    | some (.ok (e, n, rest)) =>
      let r := readSegment fuel rest
      ⟨e :: r.entries, n + r.count, r.corrupt⟩

/-- `readFile`: the entries that are delivered and what is left of the file. -/
def readFile (b : Bytes) : List WALEntry × Bytes :=
  let r := readSegment sn (b.length + 1) b
  (r.entries, if r.corrupt then b.take r.count else b)

/-! ### Records -/

/-- The record of an entry. -/
def record (e : WALEntry) : Bytes := (e.encode.toOption.map fun b => frame e.type (sn.encode b)).getD []

/-- The entry is encoded, and its numbers and lengths fit their fields. -/
structure Storable (e : WALEntry) : Prop where
  encodes : ∃ b, e.encode = .ok b ∧ (sn.encode b).length < 2 ^ 32
  fits : e.Fits

/-- Bytes at which a reader stops. -/
def Junk (b : Bytes) : Prop := b = [] ∨ ∃ err, next sn b = some (.error err)

variable {sn} {e : WALEntry}

theorem Storable.record_eq (h : Storable sn e) :
    ∃ b, e.encode = .ok b ∧ (sn.encode b).length < 2 ^ 32 ∧ record sn e = frame e.type (sn.encode b) := by
  obtain ⟨b, hb, hlen⟩ := h.encodes
  refine ⟨b, hb, hlen, ?_⟩
  rw [record, hb]
  rfl

theorem length_frame (t : Byte) (c : Bytes) : (frame t c).length = 5 + c.length := by
  rw [frame, length_cons, length_append, length_putUint]
  omega

theorem Storable.length_pos (h : Storable sn e) : 0 < (record sn e).length := by
  obtain ⟨b, -, -, hrecord⟩ := h.record_eq
  rw [hrecord, length_frame]
  omega

/-- A record is read off the front. -/
theorem Storable.next_record (h : Storable sn e) (rest : Bytes) :
    next sn (record sn e ++ rest) = some (.ok (e, (record sn e).length, rest)) := by
  obtain ⟨b, hb, hlen, hrecord⟩ := h.record_eq
  rw [hrecord, length_frame, frame, cons_append, append_assoc, next, cut_append (length_putUint _ _)]
  dsimp only
  rw [getUint_putUint_of_lt (by omega), cut_append rfl]
  dsimp only
  rw [sn.decode_encode]
  dsimp only
  rw [WALEntry.unmarshalBinary_encode hb h.fits]

/-- A reader stops at the first bytes of a record. -/
theorem junk_take_frame {t : Byte} {c : Bytes} (hlen : c.length < 2 ^ 32) {k : ℕ} (hk : k < (frame t c).length) :
    Junk sn ((frame t c).take k) := by
  rw [length_frame] at hk
  rw [frame]
  cases k with
  | zero => exact .inl rfl
  | succ k =>
    refine .inr ⟨.unexpectedEOF, ?_⟩
    rw [take_succ_cons, next]
    by_cases hheader : k < 4
    · rw [cut, if_pos (by rw [length_take]; omega)]
    · have hsplit : (putUint 4 c.length ++ c).take k = putUint 4 c.length ++ c.take (k - 4) := by
        rw [take_append, length_putUint, take_of_length_le (by rw [length_putUint]; omega)]
      rw [hsplit, cut_append (length_putUint _ _)]
      dsimp only
      rw [getUint_putUint_of_lt (by omega), cut, if_pos (by rw [length_take]; omega)]

/-- No record starts with a zero. -/
theorem junk_zero (b : Bytes) : Junk sn (0 :: b) := by
  refine .inr ?_
  have hentry : ∀ data, WALEntry.unmarshalBinary 0 data = .error (.unknownEntryType 0) := fun _ => rfl
  rw [next]
  cases cut 4 b with
  | none => exact ⟨_, rfl⟩
  | some p =>
    dsimp only
    cases cut (getUint p.1) p.2 with
    | none => exact ⟨_, rfl⟩
    | some q =>
      dsimp only
      cases sn.decode q.1 with
      | none => exact ⟨_, rfl⟩
      | some data =>
        dsimp only
        rw [hentry]
        exact ⟨_, rfl⟩

theorem readSegment_junk {b : Bytes} (hb : Junk sn b) (fuel : ℕ) :
    readSegment sn (fuel + 1) b = ⟨[], 0, decide (b ≠ [])⟩ := by
  rw [readSegment]
  rcases hb with rfl | ⟨err, herr⟩
  · rfl
  · have hne : b ≠ [] := by
      rintro rfl
      cases herr
    rw [herr, decide_eq_true hne]

section

variable {es : List WALEntry} (hes : ∀ e ∈ es, Storable sn e) {junk : Bytes} (hjunk : Junk sn junk)
include hes hjunk

theorem readSegment_records {fuel : ℕ}
    (hfuel : es.length < fuel) :
    readSegment sn fuel (es.flatMap (record sn) ++ junk) =
      ⟨es, (es.flatMap (record sn)).length, decide (junk ≠ [])⟩ := by
  induction es generalizing fuel with
  | nil =>
    obtain ⟨fuel, rfl⟩ := exists_eq_add_one_of_ne_zero (ne_of_gt hfuel)
    exact readSegment_junk hjunk fuel
  | cons e es ih =>
    obtain ⟨fuel, rfl⟩ := exists_eq_add_one_of_ne_zero (ne_of_gt (zero_lt_of_lt hfuel))
    rw [flatMap_cons, append_assoc, readSegment, (hes e mem_cons_self).next_record]
    dsimp only
    rw [ih (forall_mem_cons.mp hes).2 (by simpa using hfuel), length_append]

/-- A file of records is read to the last one, and cut behind it. -/
theorem readFile_records : readFile sn (es.flatMap (record sn) ++ junk) = (es, es.flatMap (record sn)) := by
  have hlen := WriteWALEntry.length_le_length_flatMap fun e he => (hes e he).length_pos
  rw [readFile, readSegment_records hes hjunk (by rw [length_append]; omega)]
  by_cases hnil : junk = []
  · rw [hnil, if_neg (by simp), append_nil]
  · rw [if_pos (by simpa using hnil), take_left']
    rfl

end

end InfluxDB.Wal
