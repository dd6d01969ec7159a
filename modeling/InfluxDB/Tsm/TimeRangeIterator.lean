import Mathlib.Data.List.TakeWhile
import InfluxDB.Tsm.IndexIterator
import InfluxDB.Tsm.IndexRuns
import InfluxDB.Tsm.KeyCursor

/-! `reader_range_iterator.go`: whether the keys of a file have data in a time range.

    Blocks are read and decoded by a function of their entries. The accessors of the index iterator cut
    the key out of the index with the end computed in 16 bits, which panics for the two longest keys. -/

namespace InfluxDB.Tsm
open Lib List

variable {α : Type*}

/-- `Overlaps`. -/
def TimeRange.overlaps (t : TimeRange) (min max : ℤ) : Bool := decide (t.min ≤ max) && decide (t.max ≥ min)

/-- `Within`. -/
def TimeRange.within (t : TimeRange) (min max : ℤ) : Bool := decide (min < t.min) && decide (t.max < max)

/-- The leading and trailing elements outside are left out: the elements up to the first that is inside,
and those from the next on that is not. -/
def trim (inside : α → Bool) (l : List α) : List α := (l.dropWhile fun x => !inside x).takeWhile inside

def excludeEntries (e : List IndexEntry) (tr : TimeRange) : List IndexEntry :=
  trim (·.overlapsTimeRange tr.min tr.max) e

def excludeTimeRanges (e : List TimeRange) (tr : TimeRange) : List TimeRange := trim (·.overlaps tr.min tr.max) e

def intersectsEntry (e : List IndexEntry) (tr : TimeRange) : Bool :=
  e.any fun x => tr.overlaps x.minTime x.maxTime && !tr.within x.minTime x.maxTime

namespace TSMIndexIterator

/-- `Seek`. -/
def seek (t : TSMIndexIterator) (d : IndirectIndex) (key : Bytes) : Bool × Bool × TSMIndexIterator :=
  let t := if t.n ≠ d.ro.offsets.length then { t with err := some errKeyCountChanged, ok := false } else t
  if t.err.isSome then (false, false, t)
  else
    let s := t.iter.seek d.ro (keyAt d.b) key
    let t := { t with peeked := false, first := false, ok := s.2.1, iter := s.2.2 }
    if !t.ok then (false, false, t)
    else
      let offset := t.iter.offset d.ro
      (s.1, true, { t with offset := offset, eoffset := entryOffset d.b offset })

/-- `Key`, or nothing if its slice ends before it begins. -/
def keyOrPanic (t : TSMIndexIterator) (d : IndirectIndex) : Option Bytes :=
  if 2 ≤ (2 + getUint ((access d.b t.offset 0).take 2)) % 2 ^ 16 then some (t.key d) else none

end TSMIndexIterator

structure TimeRangeIterator where
  iter : TSMIndexIterator
  tr : TimeRange
  err : Option String

/-- `TSMReader.TimeRangeIterator`. -/
def IndirectIndex.timeRangeIterator (d : IndirectIndex) (key : Bytes) (min max : ℤ) : TimeRangeIterator :=
  ⟨d.iterator key, ⟨min, max⟩, none⟩

namespace TimeRangeIterator

variable (d : IndirectIndex) (readBlock : IndexEntry → Except String (Values Unit)) (b : TimeRangeIterator)

/-- `Err` is set. -/
def failed : Bool := b.err.isSome || b.iter.err.isSome

/-- `Next`. -/
def next : Bool × TimeRangeIterator :=
  if b.failed then (false, b) else ((b.iter.next d).1, { b with iter := (b.iter.next d).2 })

/-- `Seek`. -/
def seek (key : Bytes) : Bool × Bool × TimeRangeIterator :=
  if b.failed then (false, false, b)
  else
    let s := b.iter.seek d key
    (s.1, s.2.1, { b with iter := s.2.2 })

/-- The loops of `HasData`: a block has a timestamp in the range that is not in the tombstones. -/
def anyBlock (ts : List TimeRange) (tr : TimeRange) : List IndexEntry → Except String Bool
  | [] => .ok false
  | e :: es =>
    match readBlock e with
    | .error err => .error err
    | .ok a => if (excludeTombstones ts a).containsRange tr.min tr.max then .ok true else anyBlock ts tr es

/-- `HasData`, or nothing if it panics. -/
def hasData : Option Bool × TimeRangeIterator :=
  if b.failed then (some false, b)
  else
    let es := b.iter.entries d
    let b := { b with iter := es.2 }
    let e := excludeEntries es.1 b.tr
    if e.isEmpty then (some false, b)
    else
      match b.iter.keyOrPanic d with
      | none => (none, b)
      | some key =>
        let ts := excludeTimeRanges (d.tombstoneRange key) b.tr
        if ts.isEmpty && intersectsEntry e b.tr then (some true, b)
        else
          match anyBlock readBlock ts b.tr e with
          | .ok found => (some found, b)
          | .error err => (some false, { b with err := some err })

end TimeRangeIterator

/-! ### The parts -/

theorem trim_subset {inside : α → Bool} {l : List α} : trim inside l ⊆ l :=
  ((takeWhile_sublist _).trans (dropWhile_sublist _)).subset

section

variable {es : List IndexEntry} {tr : TimeRange} {x : IndexEntry}

/-- Behind an entry that does not end before the range, those that overlap it come first. -/
theorem mem_takeWhile_overlaps
    (hle : ∀ e ∈ es, e.minTime ≤ e.maxTime ∧ tr.min ≤ e.maxTime)
    (hdisj : es.Pairwise fun a b => a.maxTime < b.minTime)
    (hx : x ∈ es) (hin : x.overlapsTimeRange tr.min tr.max) :
    x ∈ es.takeWhile (·.overlapsTimeRange tr.min tr.max) := by
  induction es with
  | nil => simp at hx
  | cons e es ih =>
    obtain ⟨hbefore, hdisj⟩ := pairwise_cons.mp hdisj
    obtain ⟨⟨hle', hmin⟩, hle⟩ := forall_mem_cons.mp hle
    rcases mem_cons.mp hx with rfl | hx
    · simp [hin]
    · have he : e.overlapsTimeRange tr.min tr.max := by
        have := hbefore x hx
        simp only [IndexEntry.overlapsTimeRange, Bool.and_eq_true, decide_eq_true_eq] at hin ⊢
        omega
      rw [takeWhile_cons, if_pos he]
      exact mem_cons_of_mem _ (ih hle hdisj hx)

/-- Entries are in order, so those that overlap a range follow one another. -/
theorem mem_excludeEntries (hle : ∀ e ∈ es, e.minTime ≤ e.maxTime)
    (hdisj : es.Pairwise fun a b => a.maxTime < b.minTime) :
    x ∈ excludeEntries es tr ↔ x ∈ es ∧ x.overlapsTimeRange tr.min tr.max := by
  rw [excludeEntries]
  refine ⟨fun hx => ⟨trim_subset hx, ?_⟩, ?_⟩
  · exact mem_takeWhile_imp (p := fun e : IndexEntry => e.overlapsTimeRange tr.min tr.max) hx
  rintro ⟨hx, hin⟩
  rw [trim]
  induction es with
  | nil => simp at hx
  | cons e es ih =>
    obtain ⟨hbefore, hdisj'⟩ := pairwise_cons.mp hdisj
    by_cases he : e.overlapsTimeRange tr.min tr.max
    · rw [dropWhile_cons_of_neg (by simp [he])]
      refine mem_takeWhile_overlaps (fun e' he' => ⟨hle e' he', ?_⟩) hdisj hx hin
      simp only [IndexEntry.overlapsTimeRange, Bool.and_eq_true, decide_eq_true_eq] at he
      rcases mem_cons.mp he' with rfl | hmem
      · omega
      · have := hbefore e' hmem
        have := hle e' he'
        omega
    · rw [dropWhile_cons_of_pos (by simp [he])]
      refine ih (forall_mem_cons.mp hle).2 hdisj' ((mem_cons.mp hx).resolve_left ?_)
      rintro rfl
      exact he hin

end

/-- The time is in a block of the entries and in the range. -/
def InRange (readBlock : IndexEntry → Except String (Values Unit)) (es : List IndexEntry)
    (tr : TimeRange) (t : ℤ) : Prop :=
  ∃ e ∈ es, ∃ a, readBlock e = .ok a ∧ (∃ p ∈ a, p.1 = t) ∧ tr.Covers t

/-- The block of the entry can be read. -/
def Decodes (readBlock : IndexEntry → Except String (Values Unit)) (e : IndexEntry) : Prop :=
  ∃ a, readBlock e = .ok a ∧ Ascending a ∧ a.minTime? = some e.minTime ∧ a.maxTime? = some e.maxTime

variable {readBlock : IndexEntry → Except String (Values Unit)} {es : List IndexEntry}
  {tr : TimeRange} {ts : List TimeRange}

theorem anyBlock_eq (hes : ∀ e ∈ es, Decodes readBlock e) :
    ∃ found, TimeRangeIterator.anyBlock readBlock ts tr es = .ok found ∧
    (found = true ↔ ∃ t, InRange readBlock es tr t ∧ ¬ Tombstoned ts t) := by
  induction es with
  | nil => exact ⟨false, rfl, by simp [InRange]⟩
  | cons e es ih =>
    obtain ⟨⟨a, ha, hsorted, -⟩, hes⟩ := forall_mem_cons.mp hes
    obtain ⟨found, hfound, hiff⟩ := ih hes
    have hfirst : (excludeTombstones ts a).containsRange tr.min tr.max ↔
        ∃ p ∈ a, tr.Covers p.1 ∧ ¬ Tombstoned ts p.1 := by
      rw [excludeTombstones_eq_survivors ts hsorted, containsRange_iff (ascending_survivors ts hsorted)]
      simp only [survivors, mem_filter, decide_eq_true_eq, and_assoc, TimeRange.Covers]
      exact exists_congr fun p => and_congr_right fun _ => and_comm.trans and_assoc
    have hcons : (∃ t, InRange readBlock (e :: es) tr t ∧ ¬ Tombstoned ts t) ↔
        (∃ p ∈ a, tr.Covers p.1 ∧ ¬ Tombstoned ts p.1) ∨ ∃ t, InRange readBlock es tr t ∧
          ¬ Tombstoned ts t := by
      simp [InRange, ha, or_and_right, exists_or, and_assoc]
    rw [hcons, ← hfirst, ← hiff]
    refine ⟨(excludeTombstones ts a).containsRange tr.min tr.max || found, ?_, by simp⟩
    rw [TimeRangeIterator.anyBlock, ha]
    cases hc : (excludeTombstones ts a).containsRange tr.min tr.max <;> simp [hc, hfound]

/-- A range that overlaps an entry and is not within it contains one of its ends. -/
theorem InRange.of_intersectsEntry (hes : ∀ e ∈ es, Decodes readBlock e) (h : intersectsEntry es tr) :
    ∃ t, InRange readBlock es tr t := by
  obtain ⟨e, he, hov⟩ := any_eq_true.mp h
  obtain ⟨a, ha, -, hmin, hmax⟩ := hes e he
  simp only [TimeRange.overlaps, TimeRange.within, Bool.and_eq_true, decide_eq_true_eq, Bool.not_eq_true',
    Bool.and_eq_false_iff, decide_eq_false_iff_not, not_lt] at hov
  rcases hov with ⟨⟨h1, h2⟩, hin | hin⟩
  · exact ⟨e.minTime, e, he, a, ha, mem_of_minTime? hmin, hin, h2⟩
  · exact ⟨e.maxTime, e, he, a, ha, mem_of_maxTime? hmax, h1, hin⟩

/-- A timestamp in the range is in a block whose entry overlaps the range. -/
theorem inRange_excludeEntries {r : KeyRecord} (hr : r.Ordered)
    (hes : ∀ e ∈ r.entries, Decodes readBlock e) {t : ℤ} :
    InRange readBlock (excludeEntries r.entries tr) tr t ↔ InRange readBlock r.entries tr t := by
  refine ⟨fun ⟨e, he, hrest⟩ => ⟨e, trim_subset he, hrest⟩, ?_⟩
  rintro ⟨e, he, a, ha, ⟨p, hp, rfl⟩, hmin, hmax⟩
  obtain ⟨a', ha', hsorted, hfirst, hlast⟩ := hes e he
  obtain rfl : a' = a := Except.ok.inj (ha'.symm.trans ha)
  have hfirst := minTime?_le hsorted hfirst p hp
  have hlast := le_maxTime? hsorted hlast p hp
  refine ⟨e, (mem_excludeEntries hr.le hr.disjoint).mpr ⟨he, ?_⟩, a', ha, ⟨p, hp, rfl⟩, hmin, hmax⟩
  simp only [IndexEntry.overlapsTimeRange, Bool.and_eq_true, decide_eq_true_eq]
  omega

/-! ### `HasData` -/

/-- An index whose entries are those of blocks. -/
structure ReadableIndex where
  index : IndirectIndex
  readBlock : IndexEntry → Except String (Values Unit)
  wf : index.Wf
  decodes : ∀ o ∈ index.ro.offsets, ∀ r : KeyRecord, r.At index.b o → r.Encodable →
    ∀ e ∈ r.entries, Decodes readBlock e

/-- A file as it is opened on its records and deleted from. -/
def ReadableIndex.ofRun {recs : List KeyRecord} (h : WellFormed recs)
    (readBlock : IndexEntry → Except String (Values Unit))
    (hblocks : ∀ r ∈ recs, ∀ e ∈ r.entries, Decodes readBlock e) (calls : List DeleteCall) : ReadableIndex where
  index := (indexOf recs).run calls
  readBlock := readBlock
  wf := (IndirectIndex.run_completed calls (opened_indexOf h).wf).wf
  decodes o ho r hr he := by
    have hopened := opened_indexOf h
    have hrun := IndirectIndex.run_completed calls hopened.wf
    have hb : ((indexOf recs).run calls).b = indexBytes recs := (congrArg IndirectIndex.b hrun.same).trans hopened.b
    have ho' := hrun.offsets o ho
    rw [hopened.offsets] at ho'
    obtain ⟨p, hp, rfl⟩ := mem_map.mp ho'
    rw [hb] at hr
    -- The bytes at an offset determine the entries that are read there.
    have hread := hr.readEntries he
    rw [(at_of_mem_layout (b := indexBytes recs) (o := 0) recs rfl p hp).readEntries
      (h.encodable _ (mem_recs_of_mem_layout hp))] at hread
    rw [← Except.ok.inj hread]
    exact hblocks p.2 (mem_recs_of_mem_layout hp)

/-- A timestamp of the key is in the range and in no tombstone. -/
def ReadableIndex.Live (f : ReadableIndex) (r : KeyRecord) (tr : TimeRange) : Prop :=
  ∃ t, InRange f.readBlock r.entries tr t ∧ ¬ Tombstoned (f.index.tombstoneRange r.key) t

/-- No block overlaps the range, or the key can be read and a timestamp is left or every timestamp in the
range is in a tombstone that is kept. -/
def ReadableIndex.Decided (f : ReadableIndex) (r : KeyRecord) (tr : TimeRange) : Prop :=
  (∀ e ∈ r.entries, ¬ e.overlapsTimeRange tr.min tr.max) ∨ r.key.length < 65534 ∧ (f.Live r tr ∨
    ∀ t, InRange f.readBlock r.entries tr t → Tombstoned (excludeTimeRanges (f.index.tombstoneRange r.key) tr) t)

namespace TimeRangeIterator

variable {f : ReadableIndex} {b : TimeRangeIterator} {r : KeyRecord} {o : ℕ}

/-- The iterator is at the key with the offset. -/
structure At (d : IndirectIndex) (b : TimeRangeIterator) (o : ℕ) : Prop where
  mem : o ∈ d.ro.offsets
  failed : b.failed = false
  offset : b.iter.offset = o
  eoffset : b.iter.eoffset = entryOffset d.b o

variable (h : b.At f.index o) (hr : r.At f.index.b o) (he : r.Encodable) (hord : r.Ordered)
include h hr he

theorem At.entries : b.iter.entries f.index = (r.entries, b.iter) := by
  have herr : b.iter.err = none := by
    have := h.failed
    simp_all [TimeRangeIterator.failed]
  have hread := hr.readEntries he
  rw [← h.eoffset] at hread
  rw [TSMIndexIterator.entries, hread]
  simp only [← herr]

/-- The end of the slice is computed in 16 bits. -/
theorem At.keyOrPanic : b.iter.keyOrPanic f.index = if r.key.length < 65534 then some r.key else none := by
  have hlen := hr.keyLength he
  have := he.key_length
  simp only [keyLength, access, slice, gt_iff_lt, Nat.zero_lt_two, if_true] at hlen
  rw [TSMIndexIterator.keyOrPanic, TSMIndexIterator.key, h.offset,
    show access f.index.b o 0 = f.index.b.drop o from rfl, hlen]
  split_ifs with h1 h2 h2
  · rw [hr.readKey h2]
  · omega
  · omega
  · rfl

include hord

/-- `HasData` says whether a timestamp is not in the tombstones that are kept, unless it panics. -/
theorem At.hasData (hne : excludeEntries r.entries b.tr ≠ []) :
    (65534 ≤ r.key.length → (b.hasData f.index f.readBlock).1 = none) ∧
      (r.key.length < 65534 → ∃ found, (b.hasData f.index f.readBlock).1 = some found ∧
        (found = true ↔ ∃ t, InRange f.readBlock r.entries b.tr t ∧
          ¬ Tombstoned (excludeTimeRanges (f.index.tombstoneRange r.key) b.tr) t)) := by
  have hdec := f.decodes o h.mem r hr he
  have hdec' := fun e (he : e ∈ excludeEntries r.entries b.tr) => hdec e (trim_subset he)
  rw [TimeRangeIterator.hasData, if_neg (by simp [h.failed]), h.entries hr he]
  rw [if_neg (by simpa using hne), h.keyOrPanic hr he]
  refine ⟨fun hlen => by rw [if_neg (by omega)], fun hlen => ?_⟩
  simp only [← inRange_excludeEntries hord hdec, if_pos hlen]
  generalize excludeTimeRanges (f.index.tombstoneRange r.key) b.tr = ts
  split_ifs with hfast
  · obtain ⟨hnil, hint⟩ := Bool.and_eq_true_iff.mp hfast
    obtain rfl := isEmpty_iff.mp hnil
    exact ⟨true, rfl, iff_of_true rfl (by simpa using InRange.of_intersectsEntry hdec' hint)⟩
  · obtain ⟨found, hfound, hiff⟩ := anyBlock_eq hdec'
    rw [hfound]
    exact ⟨found, rfl, hiff⟩

theorem At.hasData_iff :
    (∃ found, (b.hasData f.index f.readBlock).1 = some found ∧ (found = true ↔ f.Live r b.tr)) ↔
      f.Decided r b.tr := by
  rw [ReadableIndex.Decided, ReadableIndex.Live]
  have hnone : (∀ e ∈ r.entries, ¬ e.overlapsTimeRange b.tr.min b.tr.max) ↔
      excludeEntries r.entries b.tr = [] := by
    simp [eq_nil_iff_forall_not_mem, mem_excludeEntries hord.le hord.disjoint]
  rw [hnone]
  by_cases hnil : excludeEntries r.entries b.tr = []
  · refine iff_of_true ⟨false, ?_, ?_⟩ (.inl hnil)
    · rw [TimeRangeIterator.hasData, if_neg (by simp [h.failed]), h.entries hr he]
      simp [hnil]
    · simp only [← inRange_excludeEntries hord (f.decodes o h.mem r hr he), hnil]
      simp [InRange]
  · obtain ⟨hpanic, hfound⟩ := h.hasData hr he hord hnil
    by_cases hlen : r.key.length < 65534
    · obtain ⟨found, hfound, hiff⟩ := hfound hlen
      simp only [hfound, Option.some.injEq, exists_eq_left', hiff, hnil, false_or, hlen, true_and]
      have hkept : ∀ t, Tombstoned (excludeTimeRanges (f.index.tombstoneRange r.key) b.tr) t →
          Tombstoned (f.index.tombstoneRange r.key) t := fun t ⟨x, hx, hxt⟩ => ⟨x, trim_subset hx, hxt⟩
      constructor
      · intro hexact
        by_contra hnot
        simp only [not_or, not_forall] at hnot
        obtain ⟨t, ht, hlive⟩ := hnot.2
        exact hnot.1 (hexact.mp ⟨t, ht, hlive⟩)
      · rintro (⟨t, ht, hlive⟩ | hall)
        · exact iff_of_true ⟨t, ht, fun hk => hlive (hkept t hk)⟩ ⟨t, ht, hlive⟩
        · exact iff_of_false (fun ⟨t, ht, hlive⟩ => hlive (hall t ht))
            fun ⟨t, ht, hlive⟩ => hlive (hkept t (hall t ht))
    · simp [hpanic (by omega), hnil, hlen]

end TimeRangeIterator

/-! ### Runs -/

namespace TSMIndexIterator

variable {d : IndirectIndex} {t : TSMIndexIterator}

/-- The iterator is at an offset, or at the end. -/
structure Valid (d : IndirectIndex) (t : TSMIndexIterator) : Prop where
  n : t.n = d.ro.offsets.length
  peeked : t.peeked = false
  first : t.iter.first = false
  lt : t.ok = true → t.iter.i < d.ro.offsets.length

theorem Valid.advance (h : t.Valid d) (hok : t.ok = true) : (t.advance d).Valid d ∧ (t.advance d).err = t.err := by
  rw [TSMIndexIterator.advance]
  split_ifs
  · obtain ⟨hmore, hi, hfirst⟩ := next_of_not_first (r := d.ro) h.first (h.lt hok)
    exact ⟨⟨h.n, h.peeked, hfirst, fun hok => by simpa [hi] using hmore.mp hok⟩, rfl⟩
  · exact ⟨h, rfl⟩

theorem Valid.offset_mem (h : t.Valid d) (hd : d.Wf) (hok : t.ok = true) : t.iter.offset d.ro ∈ d.ro.offsets := by
  rw [hd.ro.offset_eq (getElem?_eq_getElem (h.lt hok))]
  exact getElem_mem _

end TSMIndexIterator

namespace TimeRangeIterator

inductive Move where
  | next
  | seek (key : Bytes)

/-- A call of `Next` or `Seek`, with whether it found a key. -/
def move (d : IndirectIndex) (b : Bool × TimeRangeIterator) : Move → Bool × TimeRangeIterator
  | .next => b.2.next d
  | .seek key => (b.2.seek d key).2

variable {d : IndirectIndex} {b : TimeRangeIterator}

/-- The iterator still has its range, and is at a key if the call found one. -/
structure Moved (d : IndirectIndex) (tr : TimeRange) (b : Bool × TimeRangeIterator) : Prop where
  tr : b.2.tr = tr
  valid : b.2.iter.Valid d
  found : b.1 = false ∨ ∃ o, b.2.At d o

theorem moved_next (hd : d.Wf) (h : b.iter.Valid d) : Moved d b.tr (b.next d) := by
  rw [next]
  split_ifs with hfailed
  · exact ⟨rfl, h, .inl rfl⟩
  rw [TSMIndexIterator.next, if_neg (not_not.mpr h.n)]
  dsimp only
  split_ifs with hstop hend
  · exact ⟨rfl, h, .inl rfl⟩
  all_goals
    simp only [Bool.or_eq_true, Bool.not_eq_true', not_or, Bool.not_eq_false] at hstop
    obtain ⟨hadv, herr⟩ := h.advance hstop.1
  · exact ⟨rfl, hadv, .inl rfl⟩
  · have hok : (b.iter.advance d).ok = true := by simpa using hend
    refine ⟨rfl, ⟨hadv.n, rfl, hadv.first, hadv.lt⟩, .inr ⟨_, hadv.offset_mem hd hok, ?_, rfl, rfl⟩⟩
    simpa [failed, herr] using hfailed

theorem moved_seek (hd : d.Wf) (h : b.iter.Valid d) (key : Bytes) : Moved d b.tr (b.seek d key).2 := by
  rw [seek]
  split_ifs with hfailed
  · exact ⟨rfl, h, .inl rfl⟩
  obtain ⟨exact, ok, it, hs, hfirst, -, -, hok, -⟩ := seek_spec hd.ro.table hd.ro.sorted b.iter.iter key
  have hvalid : ({ b.iter with peeked := false, first := false, ok := ok, iter := it } : TSMIndexIterator).Valid d :=
    ⟨h.n, rfl, hfirst, hok.mp⟩
  rw [TSMIndexIterator.seek, if_neg (not_not.mpr h.n), hs]
  dsimp only
  split_ifs with herr hend
  · exact ⟨rfl, h, .inl rfl⟩
  · exact ⟨rfl, hvalid, .inl rfl⟩
  · refine ⟨rfl, ⟨h.n, rfl, hfirst, hok.mp⟩,
      .inr ⟨_, hvalid.offset_mem hd (by simpa using hend), ?_, rfl, rfl⟩⟩
    simpa [failed] using hfailed

/-- The iterator after calls of `Next` and `Seek`. -/
def run (d : IndirectIndex) (key : Bytes) (min max : ℤ) (moves : List Move) : Bool × TimeRangeIterator :=
  moves.foldl (move d) (false, d.timeRangeIterator key min max)

theorem moved_run (hd : d.Wf) (key : Bytes) (min max : ℤ) (moves : List Move) :
    Moved d ⟨min, max⟩ (run d key min max moves) := by
  have hrun : ∀ {b : Bool × TimeRangeIterator}, Moved d ⟨min, max⟩ b →
      Moved d ⟨min, max⟩ (moves.foldl (move d) b) := by
    induction moves with
    | nil => exact id
    | cons m moves ih =>
      intro b hb
      refine ih (hb.tr ▸ ?_)
      cases m with
      | next => exact moved_next hd hb.valid
      | seek key => exact moved_seek hd hb.valid key
  obtain ⟨exact, ok, it, hs, hfirst, -, -, hok, -⟩ := seek_spec hd.ro.table hd.ro.sorted ReaderOffsets.iterator key
  refine hrun ⟨rfl, ?_, .inl rfl⟩
  rw [IndirectIndex.timeRangeIterator, IndirectIndex.iterator, hs]
  exact ⟨rfl, rfl, hfirst, hok.mp⟩

/-- Whenever calls of `Next` and `Seek` end at a key, `HasData` says whether a timestamp of its blocks is
in the range and in no tombstone, exactly if that is decided by the tombstones that are kept. -/
theorem hasData_exact_iff (f : ReadableIndex) (key : Bytes) (min max : ℤ) (moves : List Move) :
    let b := run f.index key min max moves
    b.1 = false ∨ ∃ r : KeyRecord, r.At f.index.b b.2.iter.offset ∧ r.Encodable ∧
      ((∃ found, (b.2.hasData f.index f.readBlock).1 = some found ∧ (found = true ↔ f.Live r ⟨min, max⟩)) ↔
        f.Decided r ⟨min, max⟩) := by
  intro b
  have hb : Moved f.index ⟨min, max⟩ b := moved_run f.wf key min max moves
  refine hb.found.imp_right fun hfound => ?_
  obtain ⟨o, h⟩ := hfound
  obtain ⟨r, hr, he, hord⟩ := f.wf.record o h.mem
  refine ⟨r, h.offset ▸ hr, he, ?_⟩
  rw [← hb.tr]
  exact h.hasData_iff hr he hord

theorem wellFormed_oneKey : WellFormed [⟨[1], 0, [⟨0, 100, 0, 0⟩]⟩] where
  sorted := by decide
  encodable := by decide
  length := by decide
  ordered := by simpa using ⟨by decide, by decide⟩
  ends := by simp

/-- A key with the times 0, 57 and 100 in one block, behind deletes of [0, 56], [1, 2] and [50, 60]. -/
def nestedDeletes : ReadableIndex :=
  .ofRun wellFormed_oneKey (fun _ => .ok [(0, ()), (57, ()), (100, ())])
    (by simpa using ⟨_, rfl, by decide, rfl, rfl⟩)
    [.deleteRange [[1]] 0 56, .deleteRange [[1]] 1 2, .deleteRange [[1]] 50 60]

/-- From 50 on the time 100 is left, and `HasData` says so. -/
theorem hasData_exact_iff_nestedDeletes :
    let b := run nestedDeletes.index [] 50 100 [.next]
    ∃ r : KeyRecord, r.key = [1] ∧ nestedDeletes.Live r ⟨50, 100⟩ ∧
      (b.2.hasData nestedDeletes.index nestedDeletes.readBlock).1 = some true := by
  intro b
  obtain ⟨r, hr, he, hiff⟩ := (hasData_exact_iff nestedDeletes [] 50 100 [.next]).resolve_left (by decide +kernel)
  have hkey : r.key = [1] := (hr.keyAt he).symm.trans (by decide +kernel)
  have hread := hr.readEntries he
  have hentries : r.entries = [⟨0, 100, 0, 0⟩] := Except.ok.inj (hread.symm.trans (by decide +kernel))
  have hlive : nestedDeletes.Live r ⟨50, 100⟩ := by
    refine ⟨100, ⟨⟨0, 100, 0, 0⟩, by simp [hentries], _, rfl, by decide, by decide⟩, ?_⟩
    rw [hkey]
    decide +kernel
  obtain ⟨found, hfound, htrue⟩ := hiff.mpr (.inr ⟨by simp [hkey], .inl hlive⟩)
  exact ⟨r, hkey, hlive, by rw [hfound, htrue.mpr hlive]⟩

/-- Three deletes leave the ranges [0, 56], [1, 2] and [50, 60]; the second is not in the query from 55 to
58, so the third is cut off, and the deleted time 57 is found. -/
theorem nested_tombstone_cuts_off :
    let d := ([(0, 56), (1, 2), (50, 60)] : List (ℤ × ℤ)).foldl (fun d r => (d.deleteRange [[1]] r.1 r.2).2)
      (indexOf [⟨[1], 0, [⟨0, 100, 0, 0⟩]⟩])
    let b := run d [] 55 58 [.next]
    b.1 = true ∧ (b.2.hasData d fun _ => .ok [(0, ()), (57, ()), (100, ())]).1 = some true ∧
      Tombstoned (d.tombstoneRange [1]) 57 := by
  decide +kernel

end TimeRangeIterator

end InfluxDB.Tsm
