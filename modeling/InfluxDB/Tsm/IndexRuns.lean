import InfluxDB.Tsm.IndexSweep

/-! What a run of deletes does to the points an index shows.

    A run is a fold of completed calls, from the index that `UnmarshalBinary` makes of the bytes of its
    records. -/

namespace InfluxDB.Tsm
open Lib List

/-! ### Runs -/

/-- A call that deletes. -/
inductive DeleteCall where
  | delete (keys : List Bytes)
  | deleteRange (keys : List Bytes) (minTime maxTime : ℤ)
  | deletePrefix (pre : Bytes) (minTime maxTime : ℤ) (pred : Option (Bytes → Bool))

/-- The call names the key, directly or by a prefix and predicate, and its range contains the time. -/
def DeleteCall.Covers : DeleteCall → Bytes → ℤ → Prop
  | delete keys, k, _ => k ∈ keys
  | deleteRange keys minTime maxTime, k, t => k ∈ keys ∧ minTime ≤ t ∧ t ≤ maxTime
  | deletePrefix pre minTime maxTime pred, k, t => PrefixCovers pre minTime maxTime pred k t

namespace IndirectIndex

/-- The index after a call. -/
def apply (d : IndirectIndex) : DeleteCall → IndirectIndex
  | .delete keys => (d.delete keys).2
  | .deleteRange keys minTime maxTime => (d.deleteRange keys minTime maxTime).2
  | .deletePrefix pre minTime maxTime pred => (d.deletePrefix pre minTime maxTime pred).2.2

/-- The index after a run of calls. -/
def run (d : IndirectIndex) (calls : List DeleteCall) : IndirectIndex := calls.foldl apply d

variable {d : IndirectIndex}

theorem apply_completed (hd : d.Wf) : ∀ c : DeleteCall, Completed d c.Covers (d.apply c)
  | .delete keys => delete_completed hd keys
  | .deleteRange keys minTime maxTime => deleteRange_completed hd keys minTime maxTime
  | .deletePrefix pre minTime maxTime pred => deletePrefix_completed hd pre minTime maxTime pred

/-- What one call does to the points shown holds of a whole run. -/
theorem run_completed (calls : List DeleteCall) (hd : d.Wf) :
    Completed d (fun k t => ∃ c ∈ calls, c.Covers k t) (d.run calls) := by
  induction calls generalizing d with
  | nil => exact Completed.refl hd (by simp)
  | cons c calls ih =>
    have hc := apply_completed hd c
    exact (hc.trans (ih hc.wf)).congr hd fun o _ t _ => by simp

end IndirectIndex

/-- Strictly increasing keys with non-empty lists of time-ordered disjoint entries, within the limits of
    the format. An index whose first or last key is one of the two longest cannot be opened: `readKey` panics. -/
structure WellFormed (recs : List KeyRecord) : Prop extends SortedRecords recs where
  ordered : ∀ r ∈ recs, r.Ordered
  ends : ∀ r, recs.head? = some r ∨ recs.getLast? = some r → r.key.length < 65534

/-- An index as it is opened on the records, without tombstones. -/
structure Opened (recs : List KeyRecord) (d : IndirectIndex) : Prop where
  wf : d.Wf
  b : d.b = indexBytes recs
  offsets : d.ro.offsets = (layout 0 recs).map (·.1)
  tombstones : d.tombstones = fun _ => []
  prefixTombstones : d.prefixTombstones = .new

section Open
variable {recs : List KeyRecord}

theorem inEntries_iff {r : KeyRecord} {b : Bytes} {o : ℕ} (h : r.At b o) (he : r.Encodable) {t : ℤ} :
    InEntries b o t ↔ ∃ e ∈ r.entries, e.contains t = true := by
  have htimes : timesAt b o = r.times := by rw [timesAt, h.readEntriesTimes he]; rfl
  simp [InEntries, htimes, KeyRecord.times, TimeRange.Covers, IndexEntry.contains]

theorem opened_indexOf (h : WellFormed recs) : Opened recs (indexOf recs) := by
  have hat := at_of_mem_layout (b := indexBytes recs) (o := 0) recs rfl
  have hrec : ∀ p ∈ layout 0 recs, p.2.Encodable ∧ p.2.Ordered := fun p hp =>
    ⟨h.encodable _ (mem_recs_of_mem_layout hp), h.ordered _ (mem_recs_of_mem_layout hp)⟩
  obtain ⟨hro, hoffsets⟩ := h.indexOf_ro
  have hmem : ∀ o ∈ (indexOf recs).ro.offsets, ∃ p ∈ layout 0 recs, p.1 = o := fun o ho => by
    rw [hoffsets] at ho
    exact mem_map.mp ho
  refine ⟨⟨hro, fun o ho => ?_, fun o ho t ht => ?_⟩, rfl, hoffsets, rfl, rfl⟩
  · obtain ⟨p, hp, rfl⟩ := hmem o ho
    exact ⟨p.2, hat p hp, hrec p hp⟩
  · obtain ⟨p, hp, rfl⟩ := hmem o ho
    obtain ⟨he, hordered⟩ := hrec p hp
    have htimes : timesAt (indexBytes recs) p.1 = p.2.times := by
      rw [timesAt, (hat p hp).readEntriesTimes he]
      rfl
    have hb := hordered.bounds (t := t) (by rw [← htimes]; exact ht)
    exact ⟨((foldl_min KeyRecord.minTime recs maxInt64).2.1 _ (mem_recs_of_mem_layout hp)).trans hb.1,
      hb.2.trans ((foldl_max KeyRecord.maxTime recs minInt64).2.1 _ (mem_recs_of_mem_layout hp))⟩

/-- `UnmarshalBinary` opens every well-formed index. -/
theorem unmarshalBinary_opened (h : WellFormed recs) :
    ∃ d, unmarshalBinary (indexBytes recs) = .ok d ∧ Opened recs d := by
  cases recs with
  | nil =>
    refine ⟨_, rfl, ⟨⟨?_, ?_, ?_⟩, rfl, rfl, rfl, rfl⟩⟩
    · exact ⟨by simp [newIndirectIndex, ReaderOffsets.empty], List.Pairwise.nil, .nil 0⟩
    · simp [newIndirectIndex, ReaderOffsets.empty]
    · simp [newIndirectIndex, ReaderOffsets.empty]
  | cons r recs => exact ⟨_, unmarshalBinary_indexBytes (cons_ne_nil r recs) h.encodable h.ends h.length,
      opened_indexOf h⟩

section

variable {d : IndirectIndex} (hd : Opened recs d) (h : WellFormed recs) {k : Bytes} {t : ℤ}
include hd h

theorem Opened.visible_iff : d.Visible k t ↔ ∃ r ∈ recs, r.key = k := by
  have hkey : ∀ p ∈ layout 0 recs, keyAt d.b p.1 = p.2.key := fun p hp => by
    rw [hd.b]
    exact keyAt_of_mem_layout h.encodable hp
  have hhides : ∀ o, ¬ d.Hides o t := fun o => by
    rw [IndirectIndex.Hides, hd.tombstones, hd.prefixTombstones, PrefixTree.search_new]
    simp
  rw [IndirectIndex.visible_iff hd.wf, hd.offsets]
  constructor
  · rintro ⟨o, ho, rfl, -⟩
    obtain ⟨p, hp, rfl⟩ := mem_map.mp ho
    exact ⟨p.2, mem_recs_of_mem_layout hp, (hkey p hp).symm⟩
  · rintro ⟨r, hr, rfl⟩
    rw [← map_snd_layout 0 recs] at hr
    obtain ⟨p, hp, rfl⟩ := mem_map.mp hr
    exact ⟨p.1, mem_map_of_mem hp, hkey p hp, hhides _⟩

theorem Opened.inEntries (hent : ∀ r ∈ recs, r.key = k → ∃ e ∈ r.entries, e.contains t = true) :
    ∀ o ∈ d.ro.offsets, keyAt d.b o = k → InEntries d.b o t := by
  rw [hd.offsets, hd.b]
  intro o ho hk
  obtain ⟨p, hp, rfl⟩ := mem_map.mp ho
  have hat := at_of_mem_layout (b := indexBytes recs) (o := 0) recs rfl p hp
  have hmem := mem_recs_of_mem_layout hp
  have he := h.encodable _ hmem
  rw [inEntries_iff hat he]
  exact hent p.2 hmem ((hat.keyAt he).symm.trans hk)

end

end Open

/-- After any run of deletes on a well-formed index, a point inside an entry of its key is visible exactly
    when the key was in the index and no call of the run covered the point. -/
theorem visible_after_deletes {recs : List KeyRecord} (h : WellFormed recs) :
    ∃ d, unmarshalBinary (indexBytes recs) = .ok d ∧ ∀ (calls : List DeleteCall) (k : Bytes) (t : ℤ),
      (∀ r ∈ recs, r.key = k → ∃ e ∈ r.entries, e.contains t = true) →
      ((d.run calls).Visible k t ↔ (∃ r ∈ recs, r.key = k) ∧ ∀ c ∈ calls, ¬ c.Covers k t) := by
  obtain ⟨d, hu, hd⟩ := unmarshalBinary_opened h
  refine ⟨d, hu, fun calls k t hent => ?_⟩
  rw [(IndirectIndex.run_completed calls hd.wf).visible k t (hd.inEntries h hent), hd.visible_iff h]
  simp only [not_exists, not_and]

/-- One key with two entries. -/
def twoEntries : List KeyRecord := [{ key := [1], type := 0, entries := [⟨0, 9, 5, 40⟩, ⟨20, 29, 45, 40⟩] }]

theorem wellFormed_twoEntries : WellFormed twoEntries where
  sorted := pairwise_singleton _ _
  encodable := by decide
  ordered := by
    simp only [twoEntries, forall_mem_singleton]
    exact ⟨by simp, by simp⟩
  ends r hr := by
    obtain rfl : _ = r := by simpa [twoEntries] using hr
    decide
  length := by decide

/-- A range delete of the first entry and a prefix delete inside the second. -/
theorem visible_after_deletes_twoEntries : ∃ d, unmarshalBinary (indexBytes twoEntries) = .ok d ∧
    ¬ (d.run [.deleteRange [[1]] 0 9, .deletePrefix [] 25 40 none]).Visible [1] 5 ∧
    (d.run [.deleteRange [[1]] 0 9, .deletePrefix [] 25 40 none]).Visible [1] 24 := by
  obtain ⟨d, hu, h⟩ := visible_after_deletes wellFormed_twoEntries
  refine ⟨d, hu, ?_, ?_⟩
  · rw [h _ _ _ (by simp [twoEntries, IndexEntry.contains])]
    simp [DeleteCall.Covers]
  · rw [h _ _ _ (by simp [twoEntries, IndexEntry.contains])]
    simp [DeleteCall.Covers, PrefixCovers, twoEntries]

end InfluxDB.Tsm
