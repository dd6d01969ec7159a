import InfluxDB.Tsm.IndexFormat

/-! `reader_index_iterator.go`: iteration over the keys of an index, and what is read from the index of a
    list of records.

    `Seek` on the offsets lands on the first record whose key is not below the one sought; the iterator
    then yields the records from there on, and the queries by key answer from the record found. -/

namespace InfluxDB.Tsm
open Lib List

/-! ### The iterator -/

def errKeyCountChanged : String := "TSMIndexIterator: key count changed during iteration"

/-- `TSMIndexIterator`; the lazily loaded key, type and entries are recomputed. -/
structure TSMIndexIterator where
  n : ℕ
  iter : OffsetsIterator
  first : Bool
  peeked : Bool
  ok : Bool
  err : Option String
  offset : ℕ
  eoffset : ℕ

/-- `indirectIndex.Iterator`. -/
def IndirectIndex.iterator (d : IndirectIndex) (key : Bytes) : TSMIndexIterator :=
  let s := ReaderOffsets.iterator.seek d.ro (keyAt d.b) key
  { n := d.ro.offsets.length, iter := s.2.2, first := true, peeked := false, ok := s.2.1, err := none
    offset := 0, eoffset := 0 }

namespace TSMIndexIterator

variable (t : TSMIndexIterator) (d : IndirectIndex)

/-- Move the offsets on, unless the iterator already points at what comes next. -/
def advance : TSMIndexIterator :=
  if !t.peeked && !t.first then
    let res := t.iter.next d.ro
    { t with ok := res.1, iter := res.2 }
  else t

/-- `Next`. -/
def next : Bool × TSMIndexIterator :=
  let t := if t.n ≠ d.ro.offsets.length then { t with err := some errKeyCountChanged, ok := false } else t
  if !t.ok || t.err.isSome then (false, t)
  else
    let t := t.advance d
    if !t.ok then (false, t)
    else
      let offset := t.iter.offset d.ro
      (true, { t with peeked := false, first := false, offset := offset, eoffset := entryOffset d.b offset })

/-- `Key`. -/
def key : Bytes := readKey (access d.b t.offset 0)

/-- `Type`. -/
def type : Byte :=
  ((access d.b t.offset 0).drop (2 + (t.key d).length)).headD 0

/-- `Entries`. -/
def entries : List IndexEntry × TSMIndexIterator :=
  match readEntries (access d.b t.eoffset 0) with
  | .ok es => (es, { t with err := none })
  | .error e => ([], { t with err := some e })

/-- Call `Next` until it is false, reading key, type and entries each time; `none` when it takes more
    than `fuel` calls. -/
def drain (d : IndirectIndex) : ℕ → TSMIndexIterator → Option (List KeyRecord)
  | 0, _ => none
  | fuel + 1, t =>
    match t.next d with
    | (false, _) => some []
    | (true, t) =>
      let es := t.entries d
      (drain d fuel es.2).map ({ key := t.key d, type := t.type d, entries := es.1 } :: ·)

end TSMIndexIterator

/-! ### Reading the index of a list of records -/

section Read
variable {recs : List KeyRecord}

section

variable (h : SortedRecords recs) {r : KeyRecord}
include h

theorem SortedRecords.length_offsets : (indexOf recs).ro.offsets.length = recs.length := by
  rw [h.indexOf_ro.2, length_map, ← length_map (f := (·.2)), map_snd_layout]

/-- The offset of the record at an index. -/
theorem SortedRecords.at_offset (it : OffsetsIterator) (hr : recs[it.i]? = some r) :
    r.At (indexBytes recs) (it.offset (indexOf recs).ro) := by
  obtain ⟨hro, hoff⟩ := h.indexOf_ro
  rw [← map_snd_layout 0 recs, getElem?_map, Option.map_eq_some_iff] at hr
  obtain ⟨p, hp, rfl⟩ := hr
  rw [hro.offset_eq (by rw [hoff, getElem?_map, hp]; rfl)]
  exact at_of_mem_layout recs rfl p (mem_of_getElem? hp)

theorem SortedRecords.keys_eq : (indexOf recs).ro.keys (keyAt (indexBytes recs)) = recs.map (·.key) := by
  obtain ⟨hro, hoff⟩ := h.indexOf_ro
  rw [ReaderOffsets.keys_eq hro.small, hoff, map_map, ← map_key_layout]
  exact map_congr_left fun p hp => keyAt_of_mem_layout h.encodable hp

/-- `Seek` lands on the first record whose key is not below the one sought. -/
theorem SortedRecords.seek (k : Bytes) :
    ∃ exact ok it, ReaderOffsets.iterator.seek (indexOf recs).ro (keyAt (indexBytes recs)) k = (exact, ok, it) ∧
      it.first = false ∧ LowerBound (recs.map (·.key)) k it.i ∧ (ok = true ↔ it.i < recs.length) ∧
      (exact = true ↔ (recs.map (·.key))[it.i]? = some k) := by
  obtain ⟨hro, -⟩ := h.indexOf_ro
  obtain ⟨exact, ok, it, hs, hfirst, -, hlb, hok, hex⟩ := seek_spec hro.table hro.sorted ReaderOffsets.iterator k
  rw [h.keys_eq] at hlb hex
  rw [h.length_offsets] at hok
  exact ⟨exact, ok, it, hs, hfirst, hlb, hok, hex⟩

/-- The queries by key, for a key of the index. -/
theorem SortedRecords.lookup_mem (hr : r ∈ recs) :
    (indexOf recs).readEntries r.key = .ok r.entries ∧ (indexOf recs).type r.key = .ok r.type := by
  obtain ⟨exact, ok, it, hs, -, hlb, -, hex⟩ := h.seek r.key
  have hget := (hlb.mem_iff h.sorted).mp (mem_map_of_mem hr)
  rw [hex.mpr hget] at hs
  -- the keys are distinct, so the record found is `r`
  obtain ⟨r', hr', hkey⟩ : ∃ r', recs[it.i]? = some r' ∧ r'.key = r.key := by simpa using hget
  obtain rfl : r' = r := inj_on_of_nodup_map (h.sorted.imp fun hlt => hlt.ne) (mem_of_getElem? hr') hr hkey
  have hat := h.at_offset it hr'
  have he := h.encodable r' hr
  rw [IndirectIndex.readEntries, IndirectIndex.type, show (indexOf recs).b = indexBytes recs from rfl, hs]
  exact ⟨hat.readEntries he, congrArg Except.ok (hat.type_eq he)⟩

/-- The queries by key, for a key that is not there. -/
theorem SortedRecords.lookup_not_mem {k : Bytes} (hk : k ∉ recs.map (·.key)) :
    (indexOf recs).readEntries k = .ok [] ∧ (indexOf recs).type k = .error "key does not exist" := by
  obtain ⟨exact, ok, it, hs, -, hlb, -, hex⟩ := h.seek k
  cases exact with
  | true => exact absurd ((hlb.mem_iff h.sorted).mpr (hex.mp rfl)) hk
  | false =>
    rw [IndirectIndex.readEntries, IndirectIndex.type, show (indexOf recs).b = indexBytes recs from rfl, hs]
    exact ⟨rfl, rfl⟩

end

theorem drop_eq_filter_of_lowerBound {k : Bytes} :
    ∀ {recs : List KeyRecord} {i : ℕ}, LowerBound (recs.map (·.key)) k i →
    recs.drop i = recs.filter (fun r => decide (k ≤ r.key)) := by
  intro recs i h
  conv_rhs => rw [← take_append_drop i recs]
  rw [filter_append, filter_eq_nil_iff.mpr, filter_eq_self.mpr, nil_append]
  · intro r hr
    exact decide_eq_true (h.2.2 r.key (by rw [← map_drop]; exact mem_map_of_mem hr))
  · intro r hr
    have := h.2.1 r.key (by rw [← map_take]; exact mem_map_of_mem hr)
    simpa using this

/-- An iterator over the records that has not failed, with the index it will yield next. -/
structure TSMIndexIterator.Ready (recs : List KeyRecord) (t : TSMIndexIterator) (j : ℕ) : Prop where
  n : t.n = recs.length
  err : t.err = none
  ok : t.ok = true
  peeked : t.peeked = false
  iter_first : t.iter.first = false
  i_lt : t.iter.i < recs.length
  next : j = if t.first then t.iter.i else t.iter.i + 1

section

variable {t : TSMIndexIterator} {j : ℕ} (ht : t.Ready recs j) (h : SortedRecords recs)
include ht h

theorem TSMIndexIterator.Ready.advance :
    ∃ it, t.advance (indexOf recs) = { t with ok := decide (j < recs.length), iter := it } ∧
      it.first = false ∧ it.i = j := by
  have hlen := h.length_offsets
  have hj := ht.next
  rw [TSMIndexIterator.advance, ht.peeked]
  cases hfirst : t.first with
  | true =>
    rw [hfirst, if_pos rfl] at hj
    subst hj
    refine ⟨t.iter, ?_, ht.iter_first, rfl⟩
    have hok : decide (t.iter.i < recs.length) = t.ok := by rw [ht.ok, decide_eq_true ht.i_lt]
    rw [if_neg (by simp), hok, ← hfirst, ← ht.peeked]
  | false =>
    rw [hfirst, if_neg (by simp)] at hj
    subst hj
    obtain ⟨hmore, hi, hf⟩ := next_of_not_first (r := (indexOf recs).ro) ht.iter_first (by rw [hlen]; exact ht.i_lt)
    refine ⟨_, ?_, hf, hi⟩
    have hok : (t.iter.next (indexOf recs).ro).1 = decide (t.iter.i + 1 < recs.length) := by
      rw [Bool.eq_iff_iff, hmore, hlen, decide_eq_true_eq]
    rw [if_pos (by simp), ← hok]

/-- `Next` of a ready iterator yields the next record, if there is one. -/
theorem TSMIndexIterator.Ready.next_spec (hlen : ∀ r ∈ recs, r.key.length < 65534) :
    (recs[j]? = none → (t.next (indexOf recs)).1 = false) ∧
      ∀ r, recs[j]? = some r → ∃ t', t.next (indexOf recs) = (true, t') ∧ t'.Ready recs (j + 1) ∧
        t'.key (indexOf recs) = r.key ∧ t'.type (indexOf recs) = r.type ∧
        t'.entries (indexOf recs) = (r.entries, t') := by
  obtain ⟨it, hadv, hit_first, hit_i⟩ := ht.advance h
  have hgo : (!t.ok || t.err.isSome) = false := by rw [ht.ok, ht.err]; rfl
  have hstep : t.next (indexOf recs) =
      if !decide (j < recs.length) then (false, { t with ok := decide (j < recs.length), iter := it })
      else (true, { t with
        ok := decide (j < recs.length), iter := it, peeked := false, first := false
        offset := it.offset (indexOf recs).ro
        eoffset := entryOffset (indexBytes recs) (it.offset (indexOf recs).ro) }) := by
    rw [TSMIndexIterator.next, if_neg (not_not.mpr (ht.n.trans h.length_offsets.symm))]
    rw [hgo, hadv]
    rfl
  refine ⟨fun hnone => ?_, fun r hr => ?_⟩
  · rw [hstep, if_pos]
    simpa using hnone
  · have hj := (List.getElem?_eq_some_iff.mp hr).1
    have hat := h.at_offset it (by rw [hit_i]; exact hr)
    have he := h.encodable r (mem_of_getElem? hr)
    have hkey : readKey (access (indexBytes recs) (it.offset (indexOf recs).ro) 0) = r.key :=
      hat.readKey (hlen r (mem_of_getElem? hr))
    rw [hstep, if_neg (by simpa using hj)]
    refine ⟨_, rfl, ⟨ht.n, ht.err, decide_eq_true hj, rfl, hit_first, hit_i.symm ▸ hj, by simp [hit_i]⟩,
      hkey, ?_, ?_⟩
    · rw [type, key]
      show ((access (indexBytes recs) (it.offset (indexOf recs).ro) 0).drop
        (2 + (readKey (access (indexBytes recs) (it.offset (indexOf recs).ro) 0)).length)).headD 0 = r.type
      obtain ⟨rest, hrest⟩ := hat.drop_tail
      rw [hkey, access, if_neg (by omega), drop_drop, ← Nat.add_assoc, hrest, KeyRecord.tail]
      rfl
    · rw [entries]
      rw [show (indexOf recs).b = indexBytes recs from rfl, hat.readEntries he]
      simp only [ht.err]

end

/-- Draining a ready iterator yields the records from its position on. -/
theorem TSMIndexIterator.Ready.drain_eq (h : SortedRecords recs)
    (hlen : ∀ r ∈ recs, r.key.length < 65534) : ∀ {fuel : ℕ} {t : TSMIndexIterator} {j : ℕ},
    t.Ready recs j → recs.length < fuel + j → t.drain (indexOf recs) fuel = some (recs.drop j)
  | 0, t, j, ht, hf => by
    have hj := ht.next
    have hi := ht.i_lt
    split_ifs at hj <;> omega
  | fuel + 1, t, j, ht, hf => by
    obtain ⟨hnone, hsome⟩ := ht.next_spec h hlen
    rw [drain]
    cases hr : recs[j]? with
    | none =>
      have hstop := hnone hr
      rw [drop_of_length_le (by simpa using hr)]
      generalize t.next (indexOf recs) = res at hstop
      obtain ⟨more, t'⟩ := res
      obtain rfl : more = false := hstop
      rfl
    | some r =>
      obtain ⟨t', hnext, ht', hkey, htype, hentries⟩ := hsome r hr
      obtain ⟨hj, rfl⟩ := List.getElem?_eq_some_iff.mp hr
      rw [hnext]
      dsimp only
      rw [hentries, ht'.drain_eq h hlen (by omega), hkey, htype, drop_eq_getElem_cons hj]
      rfl

/-- `Iterator(s)` yields the records whose keys are not below `s`. -/
theorem SortedRecords.drain_iterator (h : SortedRecords recs) (hlen : ∀ r ∈ recs, r.key.length < 65534) (s : Bytes)
    {fuel : ℕ} (hf : recs.length < fuel) :
    ((indexOf recs).iterator s).drain (indexOf recs) fuel = some (recs.filter fun r => decide (s ≤ r.key)) := by
  obtain ⟨exact, ok, it, hs, hfirst, hlb, hok, -⟩ := h.seek s
  rw [← drop_eq_filter_of_lowerBound hlb]
  rw [IndirectIndex.iterator, show (indexOf recs).b = indexBytes recs from rfl, hs]
  cases ok with
  | true => exact TSMIndexIterator.Ready.drain_eq h hlen ⟨h.length_offsets, rfl, rfl, rfl,
      hfirst, hok.mp rfl, rfl⟩ (by omega)
  | false =>
    rw [drop_of_length_le (by simpa using hok)]
    obtain ⟨fuel, rfl⟩ := Nat.exists_eq_add_of_lt hf
    simp [TSMIndexIterator.drain, TSMIndexIterator.next]

end Read

end InfluxDB.Tsm
