import Mathlib.Data.List.Dedup
import InfluxDB.Tsm.IndexIterator

/-! `writer.go`: `directIndex`, which writes the index of a TSM file, and its round trip through
    `indirectIndex`.

    The writer holds the entries of one key and writes its record when a greater key arrives. After any
    sequence of additions in key order, what has been written are the records of all keys but the last:
    `Holds`. The buffers that the records go through are one list of bytes; syncing is left out. -/

namespace InfluxDB.Tsm
open Lib List KeyRecord

/-! ### The writer -/

def maxIndexEntries : ℕ := 65535

/-- The arguments of a call of `Add`. -/
structure Addition where
  key : Bytes
  blockType : Byte
  entry : IndexEntry
  deriving DecidableEq, Repr

/-- `directIndex`, with the bytes written so far. -/
structure DirectIndex where
  keyCount : ℕ
  size : ℕ
  w : Bytes
  key : Bytes
  type : Byte
  entries : List IndexEntry

/-- `NewIndexWriter`. -/
def newIndexWriter : DirectIndex := { keyCount := 0, size := 0, w := [], key := [], type := 0, entries := [] }

/-- How a call fails: `Add` panics with "keys must be added in sorted order: key < last", `flush` has the
    error "key exceeds max index entries: n > 65535". -/
inductive IndexWriterError where
  | outOfOrder (key last : Bytes)
  | maxIndexEntries (key : Bytes) (n : ℕ)
  deriving DecidableEq, Repr

/-- `sort.IsSorted` of the entries. -/
def isSorted : List IndexEntry → Bool
  | x :: y :: es => !decide (y.minTime < x.minTime) && isSorted (y :: es)
  | _ => true

/-- The entries as `flush` writes them; `sort` is `sort.Sort`, which is not stable. -/
def sortEntries (sort : List IndexEntry → List IndexEntry) (es : List IndexEntry) : List IndexEntry :=
  if isSorted es then es else sort es

namespace DirectIndex

variable (sort : List IndexEntry → List IndexEntry)

/-- `flush`. -/
def flush (d : DirectIndex) : Except IndexWriterError DirectIndex :=
  if d.key.length = 0 then .ok d
  else if d.entries.length > maxIndexEntries then .error (.maxIndexEntries d.key d.entries.length)
  else
    let entries := sortEntries sort d.entries
    .ok { d with
      w := d.w ++ (putUint 2 d.key.length ++ (d.key ++ (d.type :: (putUint 2 entries.length ++
        entries.flatMap (·.appendTo)))))
      key := [], type := 0, entries := [] }

/-- Begin the entries of a key. -/
def beginKey (d : DirectIndex) (a : Addition) : DirectIndex :=
  { d with
    size := (d.size + (2 + a.key.length) + indexCountSize + indexEntrySize) % 2 ^ 32
    key := a.key, type := a.blockType, entries := d.entries ++ [a.entry], keyCount := d.keyCount + 1 }

/-- `Add`; an error of `flush` is ignored there. -/
def add (d : DirectIndex) (a : Addition) :
    Except IndexWriterError DirectIndex :=
  if d.key.length = 0 then .ok (d.beginKey a)
  else
    match bytesCompare d.key a.key with
    | .eq => .ok { d with entries := d.entries ++ [a.entry], size := (d.size + indexEntrySize) % 2 ^ 32 }
    | .lt => .ok (((d.flush sort).toOption.getD d).beginKey a)
    | .gt => .error (.outOfOrder a.key d.key)

/-- `MarshalBinary`, which empties the buffer. -/
def marshalBinary (d : DirectIndex) :
    Except IndexWriterError (Bytes × DirectIndex) := do
  let d ← d.flush sort
  return (d.w, { d with w := [] })

end DirectIndex

/-! ### What has been written -/

/-- The entries added for a key, in the order of addition. -/
def added (adds : List Addition) (k : Bytes) : List IndexEntry := (adds.filter (·.key = k)).map (·.entry)

theorem added_append (adds : List Addition) (a : Addition) (k : Bytes) :
    added (adds ++ [a]) k = added adds k ++ if a.key = k then [a.entry] else [] := by
  rw [added, filter_append, map_append, ← added]
  split_ifs with h <;> simp [h]

theorem added_eq_nil {adds : List Addition} {k : Bytes} (h : k ∉ adds.map (·.key)) : added adds k = [] := by
  rw [added, map_eq_nil_iff, filter_eq_nil_iff]
  intro a ha hk
  exact h (mem_map.mpr ⟨a, ha, by simpa using hk⟩)

/-- The record that closes with the entries of a key. -/
structure Closed (sort : List IndexEntry → List IndexEntry) (adds : List Addition) (r : KeyRecord) : Prop where
  entries : r.entries = sortEntries sort (added adds r.key)
  type : ∃ a ∈ adds, a.key = r.key ∧ a.blockType = r.type

/-- After the additions `adds`, the writer has written the records `recs` and holds the entries of the
    last key. -/
structure Holds (sort : List IndexEntry → List IndexEntry) (adds : List Addition) (recs : List KeyRecord)
    (d : DirectIndex) : Prop where
  w : d.w = indexBytes recs
  closed : ∀ r ∈ recs, Closed sort adds r
  sorted : (recs.map (·.key)).Pairwise (· < ·)
  below : ∀ r ∈ recs, r.key < d.key
  keys : ∀ k, k ∈ adds.map (·.key) ↔ k ∈ recs.map (·.key) ∨ k = d.key
  last : ∃ a ∈ adds, a.key = d.key ∧ a.blockType = d.type
  entries : d.entries = added adds d.key

section Write
variable {sort : List IndexEntry → List IndexEntry} {adds : List Addition} {recs : List KeyRecord} {d : DirectIndex}
  {r : KeyRecord} {a : Addition}

/-- The record of the key that the writer holds. -/
def DirectIndex.record (sort : List IndexEntry → List IndexEntry) (d : DirectIndex) : KeyRecord :=
  { key := d.key, type := d.type, entries := sortEntries sort d.entries }

theorem Holds.flush (h : Holds sort adds recs d) (hne : d.key ≠ []) (hcount : d.entries.length ≤ maxIndexEntries) :
    d.flush sort = .ok { d with
      w := indexBytes (recs ++ [d.record sort]), key := [], type := 0, entries := [] } := by
  rw [DirectIndex.flush, if_neg (by simpa using hne), if_neg (by omega), h.w]
  simp [indexBytes, DirectIndex.record, bytes]

/-- The records after the held key is written. -/
theorem Holds.close (h : Holds sort adds recs d) :
    (∀ r ∈ recs ++ [d.record sort], Closed sort adds r) ∧
      ((recs ++ [d.record sort]).map (·.key)).Pairwise (· < ·) ∧
      ∀ k, k ∈ adds.map (·.key) ↔ k ∈ (recs ++ [d.record sort]).map (·.key) := by
  refine ⟨?_, ?_, fun k => ?_⟩
  · rw [forall_mem_append, forall_mem_singleton]
    exact ⟨h.closed, by rw [DirectIndex.record, h.entries], h.last⟩
  · rw [map_append, pairwise_append]
    refine ⟨h.sorted, pairwise_singleton _ _, ?_⟩
    rintro k hk k' hk'
    obtain ⟨r, hr, rfl⟩ := mem_map.mp hk
    rw [mem_singleton.mp hk']
    exact h.below r hr
  · rw [h.keys, map_append, mem_append]
    simp [DirectIndex.record]

theorem Closed.append (h : Closed sort adds r) (hne : a.key ≠ r.key) : Closed sort (adds ++ [a]) r := by
  obtain ⟨b, hb, hkey, htype⟩ := h.type
  exact ⟨by rw [added_append, if_neg hne, append_nil, h.entries], b, mem_append_left _ hb, hkey, htype⟩

/-- One more addition at or after the last key. -/
theorem Holds.add (h : Holds sort adds recs d) (hne : d.key ≠ []) (hle : d.key ≤ a.key)
    (hcount : d.entries.length ≤ maxIndexEntries) :
    ∃ recs' d', d.add sort a = .ok d' ∧ Holds sort (adds ++ [a]) recs' d' := by
  rw [DirectIndex.add, if_neg (by simpa using hne), bytesCompare]
  rcases eq_or_lt_of_le hle with heq | hlt
  · -- another entry of the same key
    rw [if_neg (by rw [heq]; exact lt_irrefl _), if_pos heq]
    refine ⟨recs, _, rfl, h.w, fun r hr => (h.closed r hr).append ?_, h.sorted, h.below, fun k => ?_, ?_, ?_⟩
    · rw [← heq]
      exact (h.below r hr).ne'
    · rw [map_append, mem_append, h.keys, map_singleton, mem_singleton, ← heq]
      tauto
    · obtain ⟨b, hb, hk⟩ := h.last
      exact ⟨b, mem_append_left _ hb, hk⟩
    · rw [added_append, if_pos heq.symm, ← h.entries]
  · -- a greater key: the held record is written
    rw [if_pos hlt, h.flush hne hcount]
    obtain ⟨hclosed, hsorted, hkeys⟩ := h.close
    have hbelow : ∀ r ∈ recs ++ [d.record sort], r.key < a.key := by
      rw [forall_mem_append, forall_mem_singleton]
      exact ⟨fun r hr => (h.below r hr).trans hlt, hlt⟩
    refine ⟨recs ++ [d.record sort], _, rfl, rfl, fun r hr => (hclosed r hr).append (hbelow r hr).ne', hsorted,
      hbelow, fun k => ?_, ?_, ?_⟩
    · rw [map_append, mem_append, hkeys]
      simp [DirectIndex.beginKey]
    · exact ⟨a, mem_append_right _ mem_cons_self, rfl, rfl⟩
    · have hnew : a.key ∉ adds.map (·.key) := by
        rw [hkeys]
        intro hc
        obtain ⟨r, hr, hk⟩ := mem_map.mp hc
        exact absurd hk (hbelow r hr).ne
      show ([] : List IndexEntry) ++ [a.entry] = added (adds ++ [a]) a.key
      rw [added_append, if_pos rfl, added_eq_nil hnew]

/-- Additions in key order, one block type and at most 65535 entries for each key, within the limits of
    the format. -/
structure InOrder (adds : List Addition) : Prop where
  key_ne : ∀ a ∈ adds, a.key ≠ []
  key_length : ∀ a ∈ adds, a.key.length < 65534
  encodable : ∀ a ∈ adds, a.entry.Encodable
  ordered : (adds.map (·.key)).Pairwise (· ≤ ·)
  one_type : ∀ a ∈ adds, ∀ a' ∈ adds, a.key = a'.key → a.blockType = a'.blockType
  count : ∀ k, (added adds k).length ≤ maxIndexEntries

/-- The loop over the additions. -/
theorem Holds.foldlM_add : ∀ (rest : List Addition) {adds : List Addition} {recs : List KeyRecord} {d : DirectIndex},
    Holds sort adds recs d → InOrder (adds ++ rest) →
    ∃ recs' d', rest.foldlM (DirectIndex.add sort) d = .ok d' ∧ Holds sort (adds ++ rest) recs' d'
  | [], adds, recs, d, h, _ => ⟨recs, d, rfl, by rwa [append_nil]⟩
  | a :: rest, adds, recs, d, h, ho => by
    obtain ⟨b, hb, hbk, -⟩ := h.last
    have hle : d.key ≤ a.key := by
      have := ho.ordered
      rw [map_append, pairwise_append] at this
      exact hbk ▸ this.2.2 _ (mem_map_of_mem hb) _ mem_cons_self
    have hcount : d.entries.length ≤ maxIndexEntries := by
      refine le_trans ?_ (ho.count d.key)
      rw [h.entries, added, added, filter_append, map_append, length_append]
      exact Nat.le_add_right _ _
    obtain ⟨recs₁, d₁, hadd, h₁⟩ := h.add (hbk ▸ ho.key_ne b (mem_append_left _ hb)) hle hcount
    obtain ⟨recs', d', hfold, h'⟩ := foldlM_add rest h₁ (by simpa using ho)
    refine ⟨recs', d', ?_, by simpa using h'⟩
    rw [foldlM_cons, hadd]
    exact hfold

/-- The records of all keys, as `MarshalBinary` writes them. -/
theorem marshalBinary_spec (sort : List IndexEntry → List IndexEntry) (h : InOrder adds) :
    ∃ recs d d', adds.foldlM (DirectIndex.add sort) newIndexWriter = .ok d ∧
      d.marshalBinary sort = .ok (indexBytes recs, d') ∧ (∀ r ∈ recs, Closed sort adds r) ∧
      (recs.map (·.key)).Pairwise (· < ·) ∧ ∀ k, k ∈ adds.map (·.key) ↔ k ∈ recs.map (·.key) := by
  cases adds with
  | nil => exact ⟨[], _, _, rfl, rfl, by simp, List.Pairwise.nil, by simp⟩
  | cons a adds =>
    have hstart : Holds sort [a] [] (newIndexWriter.beginKey a) := by
      refine ⟨rfl, by simp, List.Pairwise.nil, by simp, fun k => ?_, ⟨a, mem_cons_self, rfl, rfl⟩, ?_⟩
      · simp [DirectIndex.beginKey]
      · simp [DirectIndex.beginKey, newIndexWriter, added]
    obtain ⟨recs, d, hfold, hd⟩ := hstart.foldlM_add adds h
    obtain ⟨b, hb, hbk, -⟩ := hd.last
    have hflush := hd.flush (hbk ▸ h.key_ne b hb) (hd.entries ▸ h.count d.key)
    obtain ⟨hclosed, hsorted, hkeys⟩ := hd.close
    refine ⟨recs ++ [d.record sort], d, { d with w := [], key := [], type := 0, entries := [] }, ?_, ?_, hclosed,
      hsorted, hkeys⟩
    · rw [foldlM_cons]
      exact hfold
    · rw [DirectIndex.marshalBinary, hflush]
      rfl

theorem Closed.encodable (hr : Closed sort adds r) (h : InOrder adds)
    (hsort : ∀ l, (sort l).Perm l) :
    r.Encodable ∧ r.key.length < 65534 ∧ r.entries.Perm (added adds r.key) := by
  obtain ⟨a, ha, hk, -⟩ := hr.type
  have hperm : r.entries.Perm (added adds r.key) := by
    rw [hr.entries, sortEntries]
    split_ifs
    · exact List.Perm.refl _
    · exact hsort _
  have hmem : a.entry ∈ added adds r.key := mem_map_of_mem (mem_filter.mpr ⟨ha, by simpa using hk⟩)
  have hlen : r.key.length < 65534 := hk ▸ h.key_length a ha
  refine ⟨⟨hk ▸ h.key_ne a ha, by omega, ?_, ?_, fun e he => ?_⟩, hlen, hperm⟩
  · exact ne_nil_of_mem (hperm.mem_iff.mpr hmem)
  · rw [hperm.length_eq]
    exact h.count r.key
  · obtain ⟨b, hb, rfl⟩ := mem_map.mp (hperm.mem_iff.mp he)
    exact h.encodable b (mem_of_mem_filter hb)

end Write

/-! ### The round trip -/

theorem pairwise_of_isSorted :
    ∀ {es : List IndexEntry}, isSorted es = true → es.Pairwise (fun x y => x.minTime ≤ y.minTime)
  | [], _ => List.Pairwise.nil
  | [x], _ => pairwise_singleton _ _
  | x :: y :: es, h => by
    rw [isSorted, Bool.and_eq_true, Bool.not_eq_true', decide_eq_false_iff_not, not_lt] at h
    have ih := pairwise_of_isSorted h.2
    refine pairwise_cons.mpr ⟨forall_mem_cons.mpr ⟨h.1, fun z hz => ?_⟩, ih⟩
    exact h.1.trans ((pairwise_cons.mp ih).1 z hz)

/-- The index answers every query with the data added. -/
structure Reads (adds : List Addition) (d : IndirectIndex) : Prop where
  keyCount : d.keyCount = (adds.map (·.key)).dedup.length
  keyRange : d.keyRange = ((adds.map (·.key)).headD [], (adds.map (·.key)).getLastD [])
  minTime : adds ≠ [] →
    IsLeast { t | ∃ k e es, d.readEntries k = .ok (e :: es) ∧ e.minTime = t } d.timeRange.1
  maxTime : adds ≠ [] →
    IsGreatest { t | ∃ k es e, d.readEntries k = .ok (es ++ [e]) ∧ e.maxTime = t } d.timeRange.2
  type : ∀ a ∈ adds, d.type a.key = .ok a.blockType
  type_missing : ∀ k ∉ adds.map (·.key), d.type k = .error "key does not exist"
  entries : ∀ k, ∃ es, d.readEntries k = .ok es ∧ es.Perm (added adds k) ∧
    es.Pairwise (fun x y => x.minTime ≤ y.minTime)
  iterator : ∀ s fuel, d.keyCount < fuel → ∃ l, (d.iterator s).drain d fuel = some l ∧
    l.map (·.key) = (adds.map (·.key)).dedup.filter (fun k => decide (s ≤ k)) ∧
    ∀ r ∈ l, d.type r.key = .ok r.type ∧ d.readEntries r.key = .ok r.entries

section RoundTrip
variable {adds : List Addition} {recs : List KeyRecord} {l l' : List Bytes} {r : KeyRecord}

/-- The keys of the records are the keys added, each once. -/
theorem dedup_eq_keys (h : InOrder adds) (hs : (recs.map (·.key)).Pairwise (· < ·))
    (hkeys : ∀ k, k ∈ adds.map (·.key) ↔ k ∈ recs.map (·.key)) :
    (adds.map (·.key)).dedup = recs.map (·.key) := by
  refine List.Pairwise.eq_of_mem_iff (r := (· < ·)) ?_ hs fun k => by rw [mem_dedup, hkeys]
  have hle := h.ordered.sublist (dedup_sublist _)
  exact (hle.and (nodup_dedup _)).imp fun ⟨hle, hne⟩ => lt_of_le_of_ne hle hne

theorem ends_eq_of_pairwise (h : l.Pairwise (· ≤ ·)) (h' : l'.Pairwise (· ≤ ·))
    (hmem : ∀ k, k ∈ l ↔ k ∈ l') : l.headD [] = l'.headD [] ∧ l.getLastD [] = l'.getLastD [] := by
  have hset : { k | k ∈ l } = { k | k ∈ l' } := Set.ext hmem
  rcases eq_or_ne l' [] with rfl | hne'
  · obtain rfl : l = [] := eq_nil_iff_forall_not_mem.mpr fun k hk => not_mem_nil ((hmem k).mp hk)
    exact ⟨rfl, rfl⟩
  · have hne : l ≠ [] := ne_nil_of_mem ((hmem _).mpr (head_mem hne'))
    exact ⟨(isLeast_headD h hne []).unique (hset ▸ isLeast_headD h' hne' []),
      (isGreatest_getLastD h hne []).unique (hset ▸ isGreatest_getLastD h' hne' [])⟩

theorem KeyRecord.Encodable.exists_first (h : r.Encodable) :
    ∃ e es, r.entries = e :: es ∧ e.minTime = r.minTime ∧ r.minTime ≤ maxInt64 := by
  obtain ⟨e, es, hes⟩ := exists_cons_of_ne_nil h.entries_ne
  have hmin : r.minTime = e.minTime := by rw [minTime, hes]; rfl
  exact ⟨e, es, hes, hmin.symm, hmin ▸ (h.entries e (by simp [hes])).minTime.2⟩

theorem KeyRecord.Encodable.exists_last (h : r.Encodable) :
    ∃ es e, r.entries = es ++ [e] ∧ e.maxTime = r.maxTime ∧ minInt64 ≤ r.maxTime := by
  obtain ⟨es, e, hes⟩ : ∃ es e, r.entries = es ++ [e] := ⟨_, _, (dropLast_append_getLast h.entries_ne).symm⟩
  have hmax : r.maxTime = e.maxTime := by rw [maxTime, hes]; simp
  exact ⟨es, e, hes, hmax.symm, hmax ▸ (h.entries e (by simp [hes])).maxTime.1⟩

/-- `TimeRange` of the index of the records. -/
theorem SortedRecords.timeRange (h : SortedRecords recs) (hne : recs ≠ []) :
    IsLeast { t | ∃ k e es, (indexOf recs).readEntries k = .ok (e :: es) ∧ e.minTime = t } (fileMinTime recs) ∧
      IsGreatest { t | ∃ k es e, (indexOf recs).readEntries k = .ok (es ++ [e]) ∧ e.maxTime = t }
        (fileMaxTime recs) := by
  -- an entry that is read belongs to a record
  have hread : ∀ {k es}, (indexOf recs).readEntries k = .ok es → es ≠ [] → ∃ r ∈ recs, r.entries = es := by
    intro k es hk hes
    by_cases hmem : k ∈ recs.map (·.key)
    · obtain ⟨r, hr, rfl⟩ := mem_map.mp hmem
      rw [(h.lookup_mem hr).1] at hk
      exact ⟨r, hr, by simpa using hk⟩
    · rw [(h.lookup_not_mem hmem).1] at hk
      exact absurd (by simpa using hk.symm) hes
  obtain ⟨r₀, hr₀⟩ := exists_mem_of_ne_nil _ hne
  obtain ⟨-, hminle, hminor⟩ := foldl_min minTime recs maxInt64
  obtain ⟨-, hmaxge, hmaxor⟩ := foldl_max maxTime recs minInt64
  refine ⟨⟨?_, ?_⟩, ?_, ?_⟩
  · obtain ⟨r, hr, hmin⟩ : ∃ r ∈ recs, fileMinTime recs = r.minTime := by
      rcases hminor with hmin | hmin
      · refine ⟨r₀, hr₀, le_antisymm (hminle r₀ hr₀) ?_⟩
        obtain ⟨-, -, -, -, hle⟩ := (h.encodable r₀ hr₀).exists_first
        exact hle.trans hmin.ge
      · exact hmin
    obtain ⟨e, es, hes, he, -⟩ := (h.encodable r hr).exists_first
    exact ⟨r.key, e, es, hes ▸ (h.lookup_mem hr).1, he.trans hmin.symm⟩
  · rintro t ⟨k, e, es, hk, rfl⟩
    obtain ⟨r, hr, hes⟩ := hread hk (by simp)
    have hmin : r.minTime = e.minTime := by rw [minTime, hes]; rfl
    exact hmin ▸ hminle r hr
  · obtain ⟨r, hr, hmax⟩ : ∃ r ∈ recs, fileMaxTime recs = r.maxTime := by
      rcases hmaxor with hmax | hmax
      · refine ⟨r₀, hr₀, le_antisymm ?_ (hmaxge r₀ hr₀)⟩
        obtain ⟨-, -, -, -, hle⟩ := (h.encodable r₀ hr₀).exists_last
        exact hmax.le.trans hle
      · exact hmax
    obtain ⟨es, e, hes, he, -⟩ := (h.encodable r hr).exists_last
    exact ⟨r.key, es, e, hes ▸ (h.lookup_mem hr).1, he.trans hmax.symm⟩
  · rintro t ⟨k, es, e, hk, rfl⟩
    obtain ⟨r, hr, hes⟩ := hread hk (by simp)
    have hmax : r.maxTime = e.maxTime := by rw [maxTime, hes]; simp
    exact hmax ▸ hmaxge r hr

/-- The index of the records that the additions make. -/
theorem reads_indexOf {sort : List IndexEntry → List IndexEntry}
    (hsort : ∀ l, (sort l).Perm l ∧ (sort l).Pairwise (fun x y => x.minTime ≤ y.minTime)) (h : InOrder adds)
    (hs : SortedRecords recs) (hne : recs ≠ []) (hclosed : ∀ r ∈ recs, Closed sort adds r)
    (hkeys : ∀ k, k ∈ adds.map (·.key) ↔ k ∈ recs.map (·.key)) : Reads adds (indexOf recs) := by
  have hdedup := dedup_eq_keys h hs.sorted hkeys
  have hends := ends_eq_of_pairwise h.ordered (hs.sorted.imp fun hlt => hlt.le) hkeys
  have htime := hs.timeRange hne
  have hcount : (indexOf recs).keyCount = recs.length := hs.length_offsets
  refine ⟨by rw [hcount, hdedup, length_map], ?_, fun _ => htime.1, fun _ => htime.2, fun a ha => ?_,
    fun k hk => (hs.lookup_not_mem ((hkeys k).not.mp hk)).2, fun k => ?_, fun s fuel hf => ?_⟩
  · rw [hends.1, hends.2]
    rfl
  · obtain ⟨r, hr, hk⟩ := mem_map.mp ((hkeys a.key).mp (mem_map_of_mem ha))
    obtain ⟨b, hb, hbk, htype⟩ := (hclosed r hr).type
    rw [← hk, (hs.lookup_mem hr).2, ← htype, h.one_type b hb a ha (hbk.trans hk)]
  · by_cases hmem : k ∈ recs.map (·.key)
    · obtain ⟨r, hr, rfl⟩ := mem_map.mp hmem
      refine ⟨r.entries, (hs.lookup_mem hr).1, ((hclosed r hr).encodable h fun l => (hsort l).1).2.2, ?_⟩
      rw [(hclosed r hr).entries, sortEntries]
      split_ifs with hsorted
      · exact pairwise_of_isSorted hsorted
      · exact (hsort _).2
    · refine ⟨[], (hs.lookup_not_mem hmem).1, ?_, List.Pairwise.nil⟩
      rw [added_eq_nil ((hkeys k).not.mpr hmem)]
  · refine ⟨_, hs.drain_iterator (fun r hr => ((hclosed r hr).encodable h fun l => (hsort l).1).2.1) s
      (hcount ▸ hf), ?_, fun r hr => ?_⟩
    · rw [hdedup, filter_map]
      rfl
    · have hr := mem_of_mem_filter hr
      exact ⟨(hs.lookup_mem hr).2, (hs.lookup_mem hr).1⟩

end RoundTrip

/-- The bytes that `directIndex` marshals, when they are below 2 GiB, are accepted by `indirectIndex`, which
    then answers every query with the data added. -/
theorem index_round_trip {sort : List IndexEntry → List IndexEntry}
    (hsort : ∀ l, (sort l).Perm l ∧ (sort l).Pairwise (fun x y => x.minTime ≤ y.minTime))
    {adds : List Addition} (h : InOrder adds) :
    ∃ w bytes w', adds.foldlM (DirectIndex.add sort) newIndexWriter = .ok w ∧
      w.marshalBinary sort = .ok (bytes, w') ∧
      (bytes.length < 2 ^ 31 → ∃ d, unmarshalBinary bytes = .ok d ∧ Reads adds d) := by
  obtain ⟨recs, w, w', hadd, hmarshal, hclosed, hsorted, hkeys⟩ := marshalBinary_spec sort h
  refine ⟨w, indexBytes recs, w', hadd, hmarshal, fun hlen => ?_⟩
  have he : ∀ r ∈ recs, r.Encodable := fun r hr => ((hclosed r hr).encodable h fun l => (hsort l).1).1
  have hends : ∀ r, recs.head? = some r ∨ recs.getLast? = some r → r.key.length < 65534 := fun r hr =>
    ((hclosed r (hr.elim mem_of_mem_head? mem_of_mem_getLast?)).encodable h fun l => (hsort l).1).2.1
  rcases eq_or_ne recs [] with rfl | hne
  · -- nothing was added
    obtain rfl : adds = [] := by
      cases adds with
      | nil => rfl
      | cons a adds => exact absurd ((hkeys a.key).mp mem_cons_self) not_mem_nil
    refine ⟨_, rfl, rfl, rfl, fun hc => absurd rfl hc, fun hc => absurd rfl hc, by simp, fun k _ => rfl,
      fun k => ⟨[], rfl, List.Perm.refl _, List.Pairwise.nil⟩, fun s fuel hf => ⟨[], ?_, rfl, by simp⟩⟩
    obtain ⟨fuel, rfl⟩ := Nat.exists_eq_add_of_lt hf
    rw [TSMIndexIterator.drain]
    rfl
  · exact ⟨indexOf recs, unmarshalBinary_indexBytes hne he hends hlen,
      reads_indexOf hsort h ⟨hsorted, he, hlen⟩ hne hclosed hkeys⟩

/-- Two keys, the first with its entries out of order. -/
def twoKeys : List Addition :=
  [⟨[1], 0, ⟨20, 29, 45, 40⟩⟩, ⟨[1], 0, ⟨0, 9, 5, 40⟩⟩, ⟨[1, 2], 3, ⟨5, 7, 85, 40⟩⟩]

theorem inOrder_twoKeys : InOrder twoKeys where
  key_ne := by decide
  key_length := by decide
  encodable := by decide
  ordered := by decide
  one_type := by decide
  count k := (length_map _).trans_le ((length_filter_le _ _).trans (by decide))

/-- A sort of the entries by their first time. -/
def sortByMinTime (l : List IndexEntry) : List IndexEntry := l.insertionSort (fun x y => x.minTime ≤ y.minTime)

theorem sortByMinTime_spec (l : List IndexEntry) :
    (sortByMinTime l).Perm l ∧ (sortByMinTime l).Pairwise (fun x y => x.minTime ≤ y.minTime) := by
  exact ⟨perm_insertionSort _ l, pairwise_insertionSort _ l⟩

theorem index_round_trip_twoKeys :
    ∃ w bytes w' d, twoKeys.foldlM (DirectIndex.add sortByMinTime) newIndexWriter = .ok w ∧
    w.marshalBinary sortByMinTime = .ok (bytes, w') ∧ unmarshalBinary bytes = .ok d ∧ Reads twoKeys d := by
  obtain ⟨w, bytes, w', hadd, hmarshal, hread⟩ := index_round_trip sortByMinTime_spec inOrder_twoKeys
  have hlen : ((twoKeys.foldlM (DirectIndex.add sortByMinTime) newIndexWriter).toOption.bind fun w =>
      (w.marshalBinary sortByMinTime).toOption.map fun p => p.1.length) = some 97 := by rfl
  rw [hadd] at hlen
  simp only [Except.toOption, Option.bind_some, hmarshal, Option.map_some, Option.some.injEq] at hlen
  obtain ⟨d, hd, hr⟩ := hread (by omega)
  exact ⟨w, bytes, w', d, hadd, hmarshal, hd, hr⟩

end InfluxDB.Tsm
