import InfluxDB.Tsm.IndexFormat

/-! `reader_index.go`: `Delete`, `DeleteRange` and `DeletePrefix`.

    A delete may drop a key from the offsets, file a time range under the offset of the key, or append one
    to the prefix tree. The calls scan first and change the index afterwards. What an index shows is
    `Visible`; the checks on a single key are sound for it. -/

namespace InfluxDB.Tsm
open Lib List ReaderOffsets

/-! ### The calls -/

/-- `pendingTombstone`, with the key instead of its position in the list of keys. -/
structure PendingTombstone where
  key : Bytes
  index : ℕ
  offset : ℕ
  entryOffset : ℕ
  tombstones : ℕ

/-- What is to be done with a key in the range of a delete. -/
inductive Verdict where
  | keep
  | remove
  | track
  deriving DecidableEq, Repr

namespace IndirectIndex

/-- `coversEntries`. The order of `Less` is total, so every sort gives the same list. -/
def coversEntries (d : IndirectIndex) (offset : ℕ) (key : Bytes) (entries : List TimeRange)
    (minTime maxTime : ℤ) : Bool :=
  let buf := d.prefixTombstones.search key []
  let buf := if buf.length > 1 then insertionSort TimeRange.less buf else buf
  timeRangesCoverEntries
    { fromMap := d.tombstones offset, fromPrefix := buf, single := { min := minTime, max := maxTime }
      used := false } entries

/-- The checks that `DeleteRange` and `DeletePrefix` make for the key at an offset. -/
def verdict (d : IndirectIndex) (offset : ℕ) (key : Bytes) (minTime maxTime : ℤ) : Verdict :=
  match readEntriesTimes (access d.b (entryOffset d.b offset) 0) with
  | .error _ => .remove
  | .ok entries =>
    let min := (entries.map (·.min)).headD 0
    let max := (entries.map (·.max)).getLastD 0
    if minTime > max ∨ maxTime < min then .keep
    else if minTime ≤ min ∧ maxTime ≥ max then .remove
    else if d.coversEntries offset key entries minTime maxTime then .remove
    else .track

end IndirectIndex

/-- The state of a call: the iterator, the index, the tombstones to add, whether a prefix tombstone is
    due, and the keys given to `dead`. -/
structure Sweep where
  it : OffsetsIterator
  d : IndirectIndex
  pending : List PendingTombstone
  mustTrack : Bool
  dead : List Bytes

namespace Sweep

def start (d : IndirectIndex) : Sweep :=
  { it := iterator, d := d, pending := [], mustTrack := false, dead := [] }

variable (s : Sweep)

/-- The offset pointed at. -/
def offset : ℕ := s.it.offset s.d.ro

/-- Mark the key pointed at. -/
def delete (key : Bytes) : Sweep :=
  let res := s.it.delete s.d.ro
  { s with it := res.1, d := { s.d with ro := res.2 }, dead := s.dead ++ [key] }

/-- `d.tombstones[offset] = rs`; the empty list is `delete(d.tombstones, offset)`. -/
def setTombstones (offset : ℕ) (rs : List TimeRange) : Sweep :=
  { s with d := { s.d with tombstones := Function.update s.d.tombstones offset rs } }

theorem tombstones_setTombstones (offset : ℕ) (rs : List TimeRange) :
    (s.setTombstones offset rs).d.tombstones = Function.update s.d.tombstones offset rs := rfl

/-- Point at a key of a list of keys. -/
def advanceTo (key : Bytes) : Bool × Sweep :=
  let res := s.it.advanceTo s.d.ro (keyAt s.d.b) key
  (res.1, { s with it := res.2 })

/-- The body of the loop of `Delete`. -/
def deleteKey (key : Bytes) : Sweep :=
  let res := s.advanceTo key
  if res.1 then (res.2.setTombstones res.2.offset []).delete key else res.2

/-- Deal with the key pointed at in a range delete; `perKey` asks for a pending tombstone. -/
def rangeAt (perKey : Bool) (minTime maxTime : ℤ) (s : Sweep) (key : Bytes) : Sweep :=
  match s.d.verdict s.offset key minTime maxTime with
  | .keep => s
  | .remove => s.delete key
  | .track =>
    if perKey then
      { s with
        mustTrack := true
        pending := s.pending ++
          [{ key := key, index := s.it.i, offset := s.offset, entryOffset := entryOffset s.d.b s.offset
             tombstones := (s.d.tombstones s.offset).length + s.d.prefixTombstones.count key }] }
    else { s with mustTrack := true }

/-- The body of the first loop of `DeleteRange`. -/
def rangeKey (minTime maxTime : ℤ) (s : Sweep) (key : Bytes) : Sweep :=
  let res := s.advanceTo key
  if res.1 then res.2.rangeAt true minTime maxTime key else res.2

/-- Drop the key of a pending tombstone. -/
def dropPending (p : PendingTombstone) : Sweep :=
  let s := s.setTombstones p.offset []
  let s := { s with it := s.it.setIndex s.d.ro p.index }
  if s.offset = p.offset then s.delete p.key else s

/-- The body of the second loop of `DeleteRange` and `DeletePrefix`. -/
def settle (minTime maxTime : ℤ) (s : Sweep) (p : PendingTombstone) : Sweep :=
  let trs := s.d.tombstones p.offset
  if p.tombstones = trs.length + s.d.prefixTombstones.count p.key then
    s.setTombstones p.offset (insertTimeRange trs minTime maxTime)
  else
    match readEntriesTimes (access s.d.b p.entryOffset 0) with
    | .error _ => s.dropPending p
    | .ok entries =>
      if s.d.coversEntries p.offset p.key entries minTime maxTime then s.dropPending p
      else s.setTombstones p.offset (insertTimeRange trs minTime maxTime)

/-- The index after the iterator's `Done`. -/
def done : IndirectIndex := { s.d with ro := (s.it.done s.d.ro).2 }

/-- The body of the loop of `DeletePrefix` for a key with the prefix. -/
def prefixKey (isPartial : Bool) (pred : Option (Bytes → Bool)) (minTime maxTime : ℤ) (s : Sweep)
    (key : Bytes) : Sweep :=
  if pred.any (fun m => !m key) then s
  else if !isPartial then s.delete key
  else s.rangeAt pred.isSome minTime maxTime key

/-- The loop of `DeletePrefix`, pointing at a key. -/
def prefixLoop (pre : Bytes) (isPartial : Bool) (pred : Option (Bytes → Bool)) (minTime maxTime : ℤ) :
    ℕ → Sweep → Sweep
  | 0, s => s
  | fuel + 1, s =>
    let key := keyAt s.d.b s.offset
    if pre.isPrefixOf key then
      let s := s.prefixKey isPartial pred minTime maxTime key
      let res := s.it.next s.d.ro
      let s := { s with it := res.2 }
      if res.1 then prefixLoop pre isPartial pred minTime maxTime fuel s else s
    else s

end Sweep

namespace IndirectIndex

variable (d : IndirectIndex)

/-- `Delete`. -/
def delete (keys : List Bytes) : Bool × IndirectIndex :=
  if keys.length = 0 then (false, d)
  else
    let s := keys.foldl Sweep.deleteKey (.start d)
    if !s.it.del then (false, s.d) else (true, s.done)

/-- `DeleteRange`. -/
def deleteRange (keys : List Bytes) (minTime maxTime : ℤ) : Bool × IndirectIndex :=
  if minTime ≤ d.minTime ∧ maxTime ≥ d.maxTime then d.delete keys
  else if minTime > d.maxTime ∨ maxTime < d.minTime then (false, d)
  else
    let s := keys.foldl (Sweep.rangeKey minTime maxTime) (.start d)
    if s.pending.length = 0 ∧ !s.it.del then (false, s.d)
    else (true, (s.pending.foldl (Sweep.settle minTime maxTime) s).done)

/-- The scan of `DeletePrefix`, from the first key at or after the prefix. -/
def scanPrefix (pre : Bytes) (minTime maxTime : ℤ) (pred : Option (Bytes → Bool)) : Sweep :=
  let isPartial := !(decide (minTime ≤ d.minTime) && decide (maxTime ≥ d.maxTime))
  let seek := iterator.seek d.ro (keyAt d.b) pre
  let s := { Sweep.start d with it := seek.2.2 }
  if seek.2.1 then s.prefixLoop pre isPartial pred minTime maxTime d.ro.offsets.length else s

/-- `DeletePrefix`: whether there was a change, the keys given to `dead`, and the index. -/
def deletePrefix (pre : Bytes) (minTime maxTime : ℤ) (pred : Option (Bytes → Bool)) :
    Bool × List Bytes × IndirectIndex :=
  if minTime > d.maxTime ∨ maxTime < d.minTime then (false, [], d)
  else
    let s := d.scanPrefix pre minTime maxTime pred
    if !s.mustTrack ∧ s.pending.length = 0 ∧ !s.it.del then (false, s.dead, s.d)
    else
      match pred with
      | none =>
        let s :=
          if s.mustTrack then
            { s with d := { s.d with
                prefixTombstones := s.d.prefixTombstones.append pre { min := minTime, max := maxTime } } }
          else s
        (true, s.dead, s.done)
      | some _ =>
        let s := s.pending.foldl (Sweep.settle minTime maxTime) s
        (true, s.dead, s.done)

end IndirectIndex

/-! ### What an index shows -/

/-- The times of the entries at an offset. -/
def timesAt (b : Bytes) (o : ℕ) : List TimeRange := (readEntriesTimes (access b (entryOffset b o) 0)).toOption.getD []

/-- `t` is inside an entry of the key at the offset. -/
def InEntries (b : Bytes) (o : ℕ) (t : ℤ) : Prop := ∃ e ∈ timesAt b o, e.Covers t

/-- Entries in time order without overlap. -/
structure KeyRecord.Ordered (r : KeyRecord) : Prop where
  le : ∀ e ∈ r.entries, e.minTime ≤ e.maxTime
  disjoint : r.entries.Pairwise (fun a b => a.maxTime < b.minTime)

namespace IndirectIndex

/-- `Contains` holds of the key and no range of `TombstoneRange` contains the time. -/
def Visible (d : IndirectIndex) (key : Bytes) (t : ℤ) : Prop :=
  d.contains key = true ∧ ¬ Tombstoned (d.tombstoneRange key) t

/-- A tombstone of the key at the offset contains `t`. -/
def Hides (d : IndirectIndex) (o : ℕ) (t : ℤ) : Prop :=
  Tombstoned (d.prefixTombstones.search (keyAt d.b o) []) t ∨ Tombstoned (d.tombstones o) t

/-- The offsets are those of records of the bytes, inside the time range of the file. -/
structure Wf (d : IndirectIndex) : Prop where
  ro : d.ro.Wf (keyAt d.b)
  record : ∀ o ∈ d.ro.offsets, ∃ r : KeyRecord, r.At d.b o ∧ r.Encodable ∧ r.Ordered
  bounds : ∀ o ∈ d.ro.offsets, ∀ t, InEntries d.b o t → d.minTime ≤ t ∧ t ≤ d.maxTime

variable {d : IndirectIndex} {k : Bytes}

theorem mem_keys (h : d.Wf) : k ∈ d.ro.keys (keyAt d.b) ↔ ∃ o ∈ d.ro.offsets, keyAt d.b o = k := by
  rw [keys_eq h.ro.small, mem_map]

/-- Offsets are determined by their keys. -/
theorem Wf.keyAt_inj (h : d.Wf) {o o' : ℕ} (ho : o ∈ d.ro.offsets) (ho' : o' ∈ d.ro.offsets)
    (hk : keyAt d.b o = keyAt d.b o') : o = o' := by
  have hs := h.ro.sorted
  rw [keys_eq h.ro.small] at hs
  exact inj_on_of_nodup_map (hs.imp fun hlt => hlt.ne) ho ho' hk

/-- The offset a key was found at. -/
theorem offset_of_getElem? (h : d.Wf) {it : OffsetsIterator}
    (hk : (d.ro.keys (keyAt d.b))[it.i]? = some k) :
    d.ro.offsets[it.i]? = some (it.offset d.ro) ∧ keyAt d.b (it.offset d.ro) = k := by
  refine ⟨?_, keyAt_of_getElem? hk⟩
  have hlt := (List.getElem?_eq_some_iff.mp hk).1
  rw [length_keys] at hlt
  have hget := getElem?_eq_getElem hlt
  rw [hget, h.ro.offset_eq hget]

/-- A point is visible where an offset of its key hides nothing at its time. -/
theorem visible_iff (h : d.Wf) {t : ℤ} :
    d.Visible k t ↔ ∃ o ∈ d.ro.offsets, keyAt d.b o = k ∧ ¬ d.Hides o t := by
  obtain ⟨exact, ok, it, hs, -, -, hlb, -, hex⟩ := seek_spec h.ro.table h.ro.sorted iterator k
  have hmem := (mem_keys h).symm.trans (hlb.mem_iff h.ro.sorted)
  rw [Visible, contains, tombstoneRange, hs]
  cases exact with
  | false =>
    have hno : ¬ ∃ o ∈ d.ro.offsets, keyAt d.b o = k := fun hc => by simpa using hex.mpr (hmem.mp hc)
    refine iff_of_false (by simp) fun ⟨o, ho, hk, _⟩ => hno ⟨o, ho, hk⟩
  | true =>
    obtain ⟨hoff, hkey⟩ := offset_of_getElem? h (hex.mp rfl)
    have ho := mem_of_getElem? hoff
    simp only [if_true, true_and, tombstoned_append]
    constructor
    · intro hnt
      exact ⟨_, ho, hkey, by rwa [Hides, hkey]⟩
    · rintro ⟨o, ho', hk, hnt⟩
      rwa [h.keyAt_inj ho' ho (hk.trans hkey.symm), Hides, hkey] at hnt

end IndirectIndex

/-! ### The verdict on a key -/

namespace KeyRecord
variable {r : KeyRecord}

theorem minTime_times (r : KeyRecord) : (r.times.map (·.min)).headD 0 = r.minTime := by
  rw [times, map_map]
  rfl

theorem maxTime_times (r : KeyRecord) : (r.times.map (·.max)).getLastD 0 = r.maxTime := by
  rw [times, map_map]
  rfl

theorem Ordered.bounds (h : r.Ordered) {t : ℤ} (ht : ∃ e ∈ r.times, e.Covers t) :
    r.minTime ≤ t ∧ t ≤ r.maxTime := by
  obtain ⟨e, he, hmin, hmax⟩ := ht
  obtain ⟨x, hx, rfl⟩ := mem_map.mp he
  -- both ends of the entries increase
  have hle : r.entries.Pairwise fun a b => a.minTime ≤ b.minTime ∧ a.maxTime ≤ b.maxTime :=
    h.disjoint.imp_of_mem fun {a b} ha hb hlt => by
      have := h.le a ha
      have := h.le b hb
      omega
  have hmem := mem_map_of_mem (f := (·.minTime)) hx
  have hmem' := mem_map_of_mem (f := (·.maxTime)) hx
  exact ⟨((isLeast_headD (pairwise_map.mpr (hle.imp And.left)) (ne_nil_of_mem hmem) 0).2 hmem).trans hmin,
    hmax.trans ((isGreatest_getLastD (pairwise_map.mpr (hle.imp And.right)) (ne_nil_of_mem hmem') 0).2 hmem')⟩

end KeyRecord

namespace IndirectIndex
variable {d : IndirectIndex} {o : ℕ} {minTime maxTime : ℤ} {k : Bytes}

theorem Wf.timesAt_eq (h : d.Wf) (ho : o ∈ d.ro.offsets) :
    ∃ r : KeyRecord, r.Ordered ∧ timesAt d.b o = r.times ∧
      readEntriesTimes (access d.b (entryOffset d.b o) 0) = .ok r.times := by
  obtain ⟨r, hat, he, hr⟩ := h.record o ho
  have hread := hat.readEntriesTimes he
  exact ⟨r, hr, by rw [timesAt, hread]; rfl, hread⟩

theorem coversEntries_sound {entries : List TimeRange}
    (h : d.coversEntries o k entries minTime maxTime = true) {t : ℤ} (ht : ∃ e ∈ entries, e.Covers t) :
    (Tombstoned (d.prefixTombstones.search k []) t ∨ Tombstoned (d.tombstones o) t) ∨
      minTime ≤ t ∧ t ≤ maxTime := by
  obtain ⟨e, he, het⟩ := ht
  have hc := timeRangesCoverEntries_sound h e he t het
  rw [TimeRangeMerger.rest, tombstoned_append, tombstoned_append] at hc
  rcases hc with (hc | hc) | hc
  · exact .inl (.inr hc)
  · refine .inl (.inl ?_)
    split_ifs at hc
    · exact (tombstoned_of_perm (insertionSort_perm _ _)).mp hc
    · exact hc
  · exact .inr (by simpa [TimeRange.Covers] using hc)

theorem verdict_keep (h : d.Wf) (ho : o ∈ d.ro.offsets) (hv : d.verdict o k minTime maxTime = .keep) :
    ∀ t, InEntries d.b o t → ¬ (minTime ≤ t ∧ t ≤ maxTime) := by
  obtain ⟨r, hr, htimes, hread⟩ := h.timesAt_eq ho
  intro t ht
  rw [InEntries, htimes] at ht
  have hb := hr.bounds ht
  rw [verdict, hread] at hv
  simp only [r.minTime_times, r.maxTime_times] at hv
  split_ifs at hv with h1
  omega

theorem verdict_remove (h : d.Wf) (ho : o ∈ d.ro.offsets)
    (hv : d.verdict o (keyAt d.b o) minTime maxTime = .remove) :
    ∀ t, InEntries d.b o t → d.Hides o t ∨ minTime ≤ t ∧ t ≤ maxTime := by
  obtain ⟨r, hr, htimes, hread⟩ := h.timesAt_eq ho
  intro t ht
  rw [InEntries, htimes] at ht
  have hb := hr.bounds ht
  rw [verdict, hread] at hv
  simp only [r.minTime_times, r.maxTime_times] at hv
  split_ifs at hv with h1 h2 h3
  · exact .inr (by omega)
  · exact coversEntries_sound h3 ht

end IndirectIndex

end InfluxDB.Tsm
