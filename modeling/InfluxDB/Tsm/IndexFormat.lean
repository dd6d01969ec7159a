import InfluxDB.Tsm.Index

/-! The bytes of an index as a list of records, and what `reader_index.go` reads from them.

    A record is read back from the offset it starts at: key, type and entries. `UnmarshalBinary` visits
    the records one after the other and ends with the offsets of all keys. -/

namespace InfluxDB.Tsm
open Lib List IndexEntry ReaderOffsets

/-! ### Records -/

/-- A key of the index with its block type and its entries. -/
structure KeyRecord where
  key : Bytes
  type : Byte
  entries : List IndexEntry
  deriving DecidableEq, Repr

/-- The fields of an entry are within their machine types. -/
structure IndexEntry.Encodable (e : IndexEntry) : Prop where
  minTime : IsInt64 e.minTime
  maxTime : IsInt64 e.maxTime
  offset : IsInt64 e.offset
  size : e.size < 2 ^ 32

instance (e : IndexEntry) : Decidable e.Encodable :=
  decidable_of_iff (IsInt64 e.minTime ∧ IsInt64 e.maxTime ∧ IsInt64 e.offset ∧ e.size < 2 ^ 32)
    ⟨fun ⟨h1, h2, h3, h4⟩ => ⟨h1, h2, h3, h4⟩, fun h => ⟨h.minTime, h.maxTime, h.offset, h.size⟩⟩

namespace KeyRecord

variable (r : KeyRecord)

/-- The record as it is written: key length, key, type, count and entries. -/
def bytes : Bytes :=
  putUint 2 r.key.length ++ (r.key ++ (r.type :: (putUint 2 r.entries.length ++ r.entries.flatMap (·.appendTo))))

/-- The record fits the format. -/
structure Encodable (r : KeyRecord) : Prop where
  key_ne : r.key ≠ []
  key_length : r.key.length ≤ 65535
  entries_ne : r.entries ≠ []
  entries_length : r.entries.length ≤ 65535
  entries : ∀ e ∈ r.entries, e.Encodable

instance (r : KeyRecord) : Decidable r.Encodable :=
  decidable_of_iff (r.key ≠ [] ∧ r.key.length ≤ 65535 ∧ r.entries ≠ [] ∧ r.entries.length ≤ 65535 ∧
      ∀ e ∈ r.entries, e.Encodable)
    ⟨fun ⟨h1, h2, h3, h4, h5⟩ => ⟨h1, h2, h3, h4, h5⟩,
      fun h => ⟨h.key_ne, h.key_length, h.entries_ne, h.entries_length, h.entries⟩⟩

/-- The minimum time of the first entry. -/
def minTime : ℤ := (r.entries.map (·.minTime)).headD 0

/-- The maximum time of the last entry. -/
def maxTime : ℤ := (r.entries.map (·.maxTime)).getLastD 0

/-- The times of the entries. -/
def times : List TimeRange := r.entries.map fun e => { min := e.minTime, max := e.maxTime }

/-- The record stands at offset `o` of the bytes. -/
def At (b : Bytes) (o : ℕ) : Prop := ∃ rest, b.drop o = r.bytes ++ rest

end KeyRecord

@[simp] theorem length_appendTo (e : IndexEntry) : e.appendTo.length = indexEntrySize := by
  simp [appendTo, indexEntrySize]

theorem length_flatMap_appendTo (es : List IndexEntry) :
    (es.flatMap (·.appendTo)).length = es.length * indexEntrySize := by
  induction es with
  | nil => simp
  | cons e es ih => rw [flatMap_cons, length_append, ih, length_appendTo, length_cons]; ring

theorem KeyRecord.length_bytes (r : KeyRecord) :
    r.bytes.length = r.key.length + 5 + r.entries.length * indexEntrySize := by
  simp only [bytes, length_append, length_putUint, length_cons, length_flatMap_appendTo]
  omega

/-! ### Reading at an offset -/

variable {b rest : Bytes} {o : ℕ} {x : Bytes}

theorem drop_add_length (h : b.drop o = x ++ rest) : b.drop (o + x.length) = rest := by
  rw [← drop_drop, h, drop_left]

theorem slice_of_drop (h : b.drop o = x ++ rest) : slice b o x.length = x := by
  rw [slice, h, take_left]

theorem length_of_drop (h : b.drop o = x) (hne : x ≠ []) : b.length = o + x.length := by
  have hlen := congrArg length h
  have hpos := length_pos_iff.mpr hne
  rw [length_drop] at hlen
  omega

theorem getUint_slice {w n : ℕ} (h : b.drop o = putUint w n ++ rest) (hn : n < 256 ^ w) :
    getUint (slice b o w) = n := by
  have := slice_of_drop h
  rw [length_putUint] at this
  rw [this, getUint_putUint_of_lt hn]

theorem getInt64_slice {x : ℤ} (h : b.drop o = putInt64 x ++ rest) (hx : IsInt64 x) : getInt64 (slice b o 8) = x := by
  have := slice_of_drop h
  rw [length_putInt64] at this
  rw [this, getInt64_putInt64 (by unfold IsInt64 minInt64 maxInt64 at hx; omega)]

section Entry
variable {b rest : Bytes} {o : ℕ} {e : IndexEntry}

theorem minTime_of_drop (h : b.drop o = e.appendTo ++ rest) (he : e.Encodable) :
    getInt64 (slice b o 8) = e.minTime := by
  rw [appendTo, append_assoc] at h
  exact getInt64_slice h he.minTime

theorem maxTime_of_drop (h : b.drop o = e.appendTo ++ rest) (he : e.Encodable) :
    getInt64 (slice b (o + 8) 8) = e.maxTime := by
  rw [appendTo, append_assoc, append_assoc] at h
  have h8 := drop_add_length h
  rw [length_putInt64] at h8
  exact getInt64_slice h8 he.maxTime

/-- An entry is read back as it was written. -/
theorem unmarshalBinary_appendTo (he : e.Encodable) (rest : Bytes) :
    IndexEntry.unmarshalBinary (e.appendTo ++ rest) = .ok e := by
  have h0 : (e.appendTo ++ rest).drop 0 = putInt64 e.minTime ++ (putInt64 e.maxTime ++
      (putInt64 e.offset ++ (putUint 4 e.size ++ rest))) := by
    simp [appendTo]
  have h8 := drop_add_length h0
  have h16 := drop_add_length h8
  have h24 := drop_add_length h16
  simp only [length_putInt64, Nat.zero_add] at h8 h16 h24
  rw [IndexEntry.unmarshalBinary, if_neg (by simp), getInt64_slice h0 he.minTime, getInt64_slice h8 he.maxTime,
    getInt64_slice h16 he.offset, getUint_slice h24 (lt_of_lt_of_eq he.size (by norm_num))]

end Entry

theorem readEntriesLoop_spec : ∀ {es : List IndexEntry} (rest : Bytes), (∀ e ∈ es, e.Encodable) →
    readEntriesLoop es.length (es.flatMap (·.appendTo) ++ rest) = .ok es
  | [], _, _ => rfl
  | e :: es, rest, he => by
    have ih := readEntriesLoop_spec rest (forall_mem_cons.mp he).2
    rw [flatMap_cons, append_assoc, length_cons, readEntriesLoop,
      unmarshalBinary_appendTo (he e mem_cons_self), ← length_appendTo e, drop_left, ih]
    rfl

theorem readTimesLoop_spec : ∀ {es : List IndexEntry} (rest : Bytes), (∀ e ∈ es, e.Encodable) →
    readTimesLoop es.length (es.flatMap (·.appendTo) ++ rest) =
      .ok (es.map fun e => { min := e.minTime, max := e.maxTime })
  | [], _, _ => rfl
  | e :: es, rest, he => by
    have ih := readTimesLoop_spec rest (forall_mem_cons.mp he).2
    have h0 : (e.appendTo ++ (es.flatMap (·.appendTo) ++ rest)).drop 0 =
        e.appendTo ++ (es.flatMap (·.appendTo) ++ rest) :=
      rfl
    have hmax := maxTime_of_drop h0 (he e mem_cons_self)
    rw [flatMap_cons, append_assoc, length_cons, readTimesLoop,
      if_neg (by simp), minTime_of_drop h0 (he e mem_cons_self), ← length_appendTo e, drop_left, ih]
    rw [Nat.zero_add] at hmax
    rw [hmax]
    rfl

namespace KeyRecord
variable {r : KeyRecord} {b : Bytes} {o : ℕ}

/-- The bytes from the type on. -/
def tail (r : KeyRecord) : Bytes := r.type :: (putUint 2 r.entries.length ++ r.entries.flatMap (·.appendTo))

section

variable (h : r.At b o)
include h

theorem At.keyLength (he : r.Encodable) : keyLength b o = r.key.length := by
  obtain ⟨rest, h⟩ := h
  rw [bytes, append_assoc] at h
  have := he.key_length
  rw [Tsm.keyLength, access, if_pos (by omega), getUint_slice h (by omega)]

theorem At.keyAt (he : r.Encodable) : keyAt b o = r.key := by
  have hlen := h.keyLength he
  obtain ⟨rest, h⟩ := h
  rw [bytes, append_assoc, append_assoc] at h
  have h2 := drop_add_length h
  rw [length_putUint] at h2
  rw [Tsm.keyAt, hlen, access, if_pos (length_pos_iff.mpr he.key_ne), slice_of_drop h2]

theorem At.drop_tail : ∃ rest, b.drop (o + 2 + r.key.length) = r.tail ++ rest := by
  obtain ⟨rest, h⟩ := h
  rw [bytes, append_assoc, append_assoc] at h
  have h2 := drop_add_length h
  rw [length_putUint] at h2
  exact ⟨rest, drop_add_length h2⟩

theorem At.drop_entryOffset (he : r.Encodable) : ∃ rest, b.drop (entryOffset b o) = r.tail ++ rest := by
  rw [entryOffset, h.keyLength he]
  exact h.drop_tail

/-- `readKey` computes in 16 bits, so it cannot read the two longest keys. -/
theorem At.readKey (hlen : r.key.length < 65534) : readKey (b.drop o) = r.key := by
  obtain ⟨rest, h⟩ := h
  rw [bytes, append_assoc, append_assoc] at h
  have hu := getUint_slice h (by omega)
  have h2 := drop_add_length h
  rw [slice] at hu
  rw [length_putUint, ← drop_drop] at h2
  rw [Tsm.readKey, hu, Nat.mod_eq_of_lt (by omega), drop_take, h2, Nat.add_sub_cancel_left, take_left]

theorem At.type_eq (he : r.Encodable) : (access b (entryOffset b o) 1).headD 0 = r.type := by
  obtain ⟨rest, h⟩ := h.drop_entryOffset he
  rw [access, if_pos (by omega), slice, h, tail]
  rfl

end

theorem length_le_tail (r : KeyRecord) (rest : Bytes) :
    ¬ (r.tail ++ rest).length < indexTypeSize + indexCountSize := by
  simp [tail, indexTypeSize, indexCountSize]

theorem Encodable.count_tail (he : r.Encodable) (rest : Bytes) :
    getUint (slice (r.tail ++ rest) indexTypeSize indexCountSize) = r.entries.length := by
  have h1 : (r.tail ++ rest).drop 1 = putUint 2 r.entries.length ++ (r.entries.flatMap (·.appendTo) ++ rest) := by
    simp [tail]
  have := he.entries_length
  exact getUint_slice h1 (show r.entries.length < 256 ^ 2 by omega)

theorem entries_tail (r : KeyRecord) (rest : Bytes) :
    (r.tail ++ rest).drop (indexTypeSize + indexCountSize) = r.entries.flatMap (·.appendTo) ++ rest := by
  rw [show indexTypeSize + indexCountSize =
    1 + (putUint 2 r.entries.length).length from by simp [indexTypeSize, indexCountSize]]
  refine drop_add_length ?_
  simp [tail]

section

variable (h : r.At b o)
include h

/-- `readEntries` gives the entries back. -/
theorem At.readEntries (he : r.Encodable) : readEntries (access b (entryOffset b o) 0) = .ok r.entries := by
  obtain ⟨rest, h⟩ := h.drop_entryOffset he
  rw [access, if_neg (lt_irrefl 0), h, Tsm.readEntries, if_neg (length_le_tail r rest), he.count_tail, entries_tail,
    readEntriesLoop_spec rest he.entries]

/-- `readEntriesTimes` gives their times back. -/
theorem At.readEntriesTimes (he : r.Encodable) : readEntriesTimes (access b (entryOffset b o) 0) = .ok r.times := by
  obtain ⟨rest, h⟩ := h.drop_entryOffset he
  rw [access, if_neg (lt_irrefl 0), h, Tsm.readEntriesTimes, if_neg (length_le_tail r rest),
    he.count_tail, entries_tail, readTimesLoop_spec rest he.entries]
  rfl

theorem At.drop_count : ∃ rest, b.drop (o + 2 + (r.key.length + 1)) = putUint 2 r.entries.length ++ rest := by
  obtain ⟨rest, h⟩ := h.drop_tail
  refine ⟨r.entries.flatMap (·.appendTo) ++ rest, ?_⟩
  rw [tail, cons_append, ← singleton_append] at h
  have h1 := drop_add_length h
  rw [append_assoc] at h1
  exact h1

theorem At.drop_entries :
    ∃ rest, b.drop (o + 2 + (r.key.length + 1) + 2) = r.entries.flatMap (·.appendTo) ++ rest := by
  obtain ⟨rest, h⟩ := h.drop_tail
  refine ⟨rest, ?_⟩
  rw [← entries_tail, ← h, drop_drop]
  rfl

/-- The first time of the first entry, where `UnmarshalBinary` reads it. -/
theorem At.minTime_eq (he : r.Encodable) : getInt64 (slice b (o + 2 + (r.key.length + 1) + 2) 8) = r.minTime := by
  obtain ⟨rest, h⟩ := h.drop_entries
  obtain ⟨e, es, hes⟩ := exists_cons_of_ne_nil he.entries_ne
  rw [hes, flatMap_cons, append_assoc] at h
  rw [minTime_of_drop h (he.entries e (by simp [hes])), minTime, hes]
  rfl

/-- The last time of the last entry. -/
theorem At.maxTime_eq (he : r.Encodable) :
    getInt64 (slice b (o + 2 + (r.key.length + 1) + 2 + (r.entries.length - 1) * indexEntrySize + 8) 8) =
      r.maxTime := by
  obtain ⟨rest, h⟩ := h.drop_entries
  obtain ⟨es, e, hes⟩ : ∃ es e, r.entries = es ++ [e] := ⟨_, _, (dropLast_append_getLast he.entries_ne).symm⟩
  rw [hes, flatMap_append, append_assoc] at h
  have hlast := drop_add_length h
  rw [length_flatMap_appendTo, flatMap_singleton] at hlast
  rw [hes, length_append, length_singleton, Nat.add_sub_cancel,
    maxTime_of_drop hlast (he.entries e (by simp [hes])), maxTime, hes]
  simp

end

end KeyRecord

/-! ### UnmarshalBinary -/

/-- The index section with the given records. -/
def indexBytes (recs : List KeyRecord) : Bytes := recs.flatMap (·.bytes)

/-- Each record with its offset, the first at `o`. -/
def layout : ℕ → List KeyRecord → List (ℕ × KeyRecord)
  | _, [] => []
  | o, r :: recs => (o, r) :: layout (o + r.bytes.length) recs

theorem map_snd_layout : ∀ (o : ℕ) (recs : List KeyRecord), (layout o recs).map (·.2) = recs
  | _, [] => rfl
  | o, r :: recs => by rw [layout, map_cons, map_snd_layout]

variable {recs : List KeyRecord}

theorem mem_recs_of_mem_layout {p : ℕ × KeyRecord} (hp : p ∈ layout o recs) : p.2 ∈ recs := by
  rw [← map_snd_layout o recs]
  exact mem_map_of_mem hp

theorem at_of_mem_layout : ∀ {o : ℕ} (recs : List KeyRecord), b.drop o = indexBytes recs →
    ∀ p ∈ layout o recs, p.2.At b p.1
  | _, [], _ => by simp [layout]
  | o, r :: recs, h => by
    rw [indexBytes, flatMap_cons] at h
    exact forall_mem_cons.mpr ⟨⟨_, h⟩, at_of_mem_layout recs (drop_add_length h)⟩

theorem keyAt_of_mem_layout (he : ∀ r ∈ recs, r.Encodable) {p : ℕ × KeyRecord} (hp : p ∈ layout 0 recs) :
    keyAt (indexBytes recs) p.1 = p.2.key :=
  (at_of_mem_layout recs rfl p hp).keyAt (he _ (mem_recs_of_mem_layout hp))

theorem map_key_layout : ((layout 0 recs).map fun p => p.2.key) = recs.map (·.key) := by
  conv_rhs => rw [← map_snd_layout 0 recs, map_map]
  rfl

theorem fst_lt_of_mem_layout : ∀ {o : ℕ} {recs : List KeyRecord}, ∀ p ∈ layout o recs,
    p.1 < o + (indexBytes recs).length
  | _, [] => by simp [layout]
  | o, r :: recs => by
    rw [indexBytes, flatMap_cons, length_append, ← indexBytes]
    have hpos := r.length_bytes
    refine forall_mem_cons.mpr ⟨by omega, fun p hp => ?_⟩
    have := fst_lt_of_mem_layout p hp
    omega

/-- The smallest first time of a record. -/
def fileMinTime (recs : List KeyRecord) : ℤ := recs.foldl (fun t r => min t r.minTime) maxInt64

/-- The largest last time of a record. -/
def fileMaxTime (recs : List KeyRecord) : ℤ := recs.foldl (fun t r => max t r.maxTime) minInt64

/-- One pass of the loop reads one record. -/
theorem unmarshalLoop_step {r : KeyRecord} {i : ℕ} (h : b.drop i = r.bytes ++ rest)
    (he : r.Encodable) (fuel : ℕ) (u : Unmarshaled) :
    unmarshalLoop b (fuel + 1) i u = unmarshalLoop b fuel (i + r.bytes.length)
      { ro := u.ro.addKey i r.key, minTime := min u.minTime r.minTime, maxTime := max u.maxTime r.maxTime } := by
  have hat : r.At b i := ⟨rest, h⟩
  have hkl := hat.keyLength he
  have hkey := hat.keyAt he
  have hmin := hat.minTime_eq he
  have hmax := hat.maxTime_eq he
  obtain ⟨_, hcount⟩ := hat.drop_count
  have hkpos := length_pos_iff.mpr he.key_ne
  have hepos := length_pos_iff.mpr he.entries_ne
  have helen := he.entries_length
  have hlen := r.length_bytes
  have hb := length_of_drop h (length_pos_iff.mp (by rw [length_append]; omega))
  have hcount := getUint_slice hcount (by omega)
  rw [keyAt, hkl, access, if_pos hkpos] at hkey
  rw [keyLength, access, if_pos (by omega)] at hkl
  rw [length_append] at hb
  have hnext : i + 2 + (r.key.length + 1) + 2 + (r.entries.length - 1) * indexEntrySize + indexEntrySize =
      i + r.bytes.length := by
    rw [indexEntrySize] at hlen ⊢
    omega
  rw [indexEntrySize] at hlen
  simp only [unmarshalLoop, hkl, hkey, indexTypeSize, indexCountSize, hcount, hmin, hmax, hnext]
  rw [if_pos (by omega), if_neg (by omega), if_neg (by omega), if_neg (by omega), if_neg (by omega),
    if_neg (by omega), if_neg (by rw [indexEntrySize]; omega)]
  have hmin' : (if r.minTime < u.minTime then r.minTime else u.minTime) = min u.minTime r.minTime := by
    split_ifs <;> omega
  have hmax' : (if r.maxTime > u.maxTime then r.maxTime else u.maxTime) = max u.maxTime r.maxTime := by
    split_ifs <;> omega
  rw [hmin', hmax']

theorem unmarshalLoop_spec : ∀ {recs : List KeyRecord} {fuel i : ℕ} (u : Unmarshaled),
    recs.length ≤ fuel → b.drop i = indexBytes recs → (∀ r ∈ recs, r.Encodable) →
    unmarshalLoop b fuel i u = .ok
      { ro := u.ro.addKeys ((layout i recs).map fun p => (p.1, p.2.key))
        minTime := recs.foldl (fun t r => min t r.minTime) u.minTime
        maxTime := recs.foldl (fun t r => max t r.maxTime) u.maxTime }
  | [], 0, _, _, _, _, _ => rfl
  | [], fuel + 1, i, u, _, h, _ => by
    rw [unmarshalLoop, if_neg (not_lt.mpr (drop_eq_nil_iff.mp h))]
    rfl
  | r :: recs, fuel + 1, i, u, hf, h, he => by
    rw [indexBytes, flatMap_cons] at h
    rw [unmarshalLoop_step h (he r mem_cons_self), unmarshalLoop_spec _ (by simpa using hf) (drop_add_length h)
      (forall_mem_cons.mp he).2]
    rfl

/-- The index made of a list of records. -/
def indexOf (recs : List KeyRecord) : IndirectIndex :=
  { newIndirectIndex with
    b := indexBytes recs
    ro := (empty.addKeys ((layout 0 recs).map fun p => (p.1, p.2.key))).done
    minKey := (recs.map (·.key)).headD [], maxKey := (recs.map (·.key)).getLastD []
    minTime := fileMinTime recs, maxTime := fileMaxTime recs }

theorem length_le_indexBytes : ∀ recs : List KeyRecord, recs.length ≤ (indexBytes recs).length
  | [] => le_rfl
  | r :: recs => by
    have := length_le_indexBytes recs
    have := r.length_bytes
    rw [indexBytes, flatMap_cons, length_append, ← indexBytes, length_cons]
    omega

/-- `UnmarshalBinary` accepts the bytes of the records and finds every key. -/
theorem unmarshalBinary_indexBytes (hne : recs ≠ []) (he : ∀ r ∈ recs, r.Encodable)
    (hends : ∀ r, recs.head? = some r ∨ recs.getLast? = some r → r.key.length < 65534)
    (hlen : (indexBytes recs).length < 2 ^ 31) : unmarshalBinary (indexBytes recs) = .ok (indexOf recs) := by
  have hpos := length_le_indexBytes recs
  have hrecs := length_pos_iff.mpr hne
  have hat := at_of_mem_layout (b := indexBytes recs) (o := 0) recs rfl
  have hoff := (addKeys_spec ((layout 0 recs).map fun p => (p.1, p.2.key)) .empty).1
  rw [empty, nil_append, map_map, ← empty] at hoff
  -- the first and the last offset are those of the first and the last record
  have hlay : layout 0 recs ≠ [] := by
    intro hc
    have := map_snd_layout 0 recs
    rw [hc] at this
    exact hne this.symm
  have hmin : readKey ((indexBytes recs).drop (((layout 0 recs).map (·.1)).headD 0)) =
      (recs.map (·.key)).headD [] := by
    obtain ⟨p, l, hl⟩ := exists_cons_of_ne_nil hlay
    rw [← map_key_layout, hl]
    refine (hat p (by simp [hl])).readKey (hends _ (.inl ?_))
    rw [← map_snd_layout 0 recs, hl]
    rfl
  have hmax : readKey ((indexBytes recs).drop (((layout 0 recs).map (·.1)).getLastD 0)) =
      (recs.map (·.key)).getLastD [] := by
    obtain ⟨l, p, hl⟩ : ∃ l p, layout 0 recs = l ++ [p] := ⟨_, _, (dropLast_append_getLast hlay).symm⟩
    have hread := (hat p (by simp [hl])).readKey (hends _ (.inr (by
      rw [← map_snd_layout 0 recs, hl]
      simp)))
    rw [← map_key_layout, hl]
    simpa using hread
  rw [unmarshalBinary, if_neg (by omega), if_neg (by rw [not_not, Nat.mod_eq_of_lt (by omega)]), if_neg (by omega),
    unmarshalLoop_spec _ hpos rfl he]
  show Except.ok _ = _
  rw [indexOf, ← hmin, ← hmax, hoff]
  rfl

/-- The records in key order, within the limits of the format. -/
structure SortedRecords (recs : List KeyRecord) : Prop where
  sorted : (recs.map (·.key)).Pairwise (· < ·)
  encodable : ∀ r ∈ recs, r.Encodable
  length : (indexBytes recs).length < 2 ^ 31

/-- The offsets of the index made of sorted records, ready for searching. -/
theorem SortedRecords.indexOf_ro (h : SortedRecords recs) :
    (indexOf recs).ro.Wf (keyAt (indexBytes recs)) ∧ (indexOf recs).ro.offsets = (layout 0 recs).map (·.1) := by
  have hkeys : ((layout 0 recs).map fun p => (p.1, p.2.key)).map (·.2) = recs.map (·.key) :=
    (map_map ..).trans map_key_layout
  obtain ⟨hro, hoff⟩ := wf_addKeys (keyAt (indexBytes recs))
    (l := (layout 0 recs).map fun p => (p.1, p.2.key))
    (forall_mem_map.mpr fun p hp => by
      have := fst_lt_of_mem_layout p hp
      have := h.length
      omega)
    (forall_mem_map.mpr fun p hp => keyAt_of_mem_layout h.encodable hp)
    (hkeys ▸ h.sorted)
  exact ⟨hro, hoff.trans (map_map ..)⟩

end InfluxDB.Tsm
