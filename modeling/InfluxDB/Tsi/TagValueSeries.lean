import InfluxDB.Tsi.TagValueCache

/-!
    What the writes of a partition do to the series of its tag values.  A series that is created is added to
    the values of its tags; a series that is dropped is taken out of the active log file, but stays where
    older files list it; the drop of a measurement leaves the other measurements alone.
-/

namespace InfluxDB.Tsi

open Lib Models List Contents

/-! ### The series of a tag value in a log file -/

namespace Measurement

/-- The series of a tag value. -/
def valueSeries (mm : Measurement) (k v : Bytes) : Finset ℕ :=
  (((mm.tagSet.get k).bind fun ts => ts.tagValues.get v).map TagValue.series).getD ∅

variable {mm : Measurement} {k v : Bytes} {deleted : Bool} {id : ℕ}

theorem valueSeries_modify (mm : Measurement) (k v k' v' : Bytes) (g : TagValue → TagValue) :
    (mm.modify k fun ts => ts.modify v g).valueSeries k' v' =
      if k' = k ∧ v' = v then (g ((((mm.tagSet.get k).getD .new).tagValues.get v).getD .new)).series
      else mm.valueSeries k' v' := by
  rw [valueSeries, modify, SortedMap.get_set]
  by_cases hk : k' = k
  · subst hk
    rw [if_pos rfl, Option.bind_some, TagKey.modify, SortedMap.get_set]
    by_cases hv : v' = v
    · rw [if_pos hv, if_pos ⟨rfl, hv⟩]
      rfl
    · rw [if_neg hv, if_neg (fun h => hv h.2), valueSeries]
      cases mm.tagSet.get k' with
      | none => rfl
      | some ts => rfl
  · rw [if_neg hk, if_neg (fun h => hk h.1), valueSeries]

theorem valueSeries_getD : ((((mm.tagSet.get k).getD .new).tagValues.get v).getD .new).series = mm.valueSeries k v := by
  rw [valueSeries]
  cases mm.tagSet.get k with
  | none => rfl
  | some ts =>
    rw [Option.getD_some, Option.bind_some]
    cases ts.tagValues.get v with
    | none => rfl
    | some tv => rfl

theorem mark_mark (s : Finset ℕ) : mark deleted id (mark deleted id s) = mark deleted id s := by
  ext x
  simp only [mem_mark]
  split_ifs
  · rfl
  · rfl

/-- A series is added to or taken away from the values of its tags. -/
theorem valueSeries_touch (tags : Tags) (mm : Measurement) :
    (mm.touch deleted id tags).valueSeries k v =
      if (⟨k, v⟩ : Tag) ∈ tags then mark deleted id (mm.valueSeries k v) else mm.valueSeries k v := by
  induction tags generalizing mm with
  | nil => rfl
  | cons t tags ih =>
    refine (ih _).trans ?_
    rw [valueSeries_modify mm t.key t.value k v fun tv => { tv with series := mark deleted id tv.series }]
    by_cases ht : k = t.key ∧ v = t.value
    · obtain ⟨rfl, rfl⟩ := ht
      simp only [and_self, if_true, valueSeries_getD, mark_mark, ite_self, mem_cons, true_or]
    · have hne : (⟨k, v⟩ : Tag) ≠ t := fun h => ht ⟨congrArg Tag.key h, congrArg Tag.value h⟩
      simp only [ht, if_false, mem_cons, hne, false_or]

end Measurement

namespace Contents

variable {f : Contents} {sfile : SeriesFile} {t : TagTuple} {id : ℕ} {key : SeriesKey}

theorem lists_iff {name k v : Bytes} :
    f.Lists name k v id ↔ id ∈ ((f.mms.get name).map fun mm => mm.valueSeries k v).getD ∅ := by
  rw [Lists, tagValue, tagKey]
  cases f.mms.get name with
  | none => simp
  | some mm =>
    rw [Option.bind_some, Option.map_some, Option.getD_some, Measurement.valueSeries]
    cases (mm.tagSet.get k).bind fun ts => ts.tagValues.get v with
    | none => simp
    | some tv => simp

theorem mem_tuples : t ∈ key.tuples ↔ t.name = key.name ∧ (⟨t.key, t.value⟩ : Tag) ∈ key.tags := by
  obtain ⟨n, k, v⟩ := t
  simp only [SeriesKey.tuples, mem_map, TagTuple.mk.injEq]
  constructor
  · rintro ⟨tag, htag, rfl, rfl, rfl⟩
    exact ⟨rfl, htag⟩
  · rintro ⟨rfl, htag⟩
    exact ⟨_, htag, rfl, rfl, rfl⟩

/-- A series entry adds its series to the values of its tags, or takes it away. -/
theorem lists_execSeriesEntry {e : LogEntry} (hkey : e.cached.or (sfile e.seriesID) = some key) :
    (f.execSeriesEntry sfile e).Lists t.name t.key t.value id ↔
      if t ∈ key.tuples ∧ id = e.seriesID then (e.flag == logEntrySeriesTombstoneFlag) = false
      else f.Lists t.name t.key t.value id := by
  rw [lists_iff, lists_iff, get_execSeriesEntry hkey]
  by_cases hname : t.name = key.name
  · have hget : (((f.mms.get key.name).map fun mm => mm.valueSeries t.key t.value).getD ∅) =
        Measurement.valueSeries { (f.mms.get key.name).getD .new with
          deleted := false
          series := mark (e.flag == logEntrySeriesTombstoneFlag) e.seriesID ((f.mms.get key.name).getD .new).series }
          t.key t.value := by
      cases f.mms.get key.name with
      | none => rfl
      | some mm => rfl
    rw [if_pos hname, Option.map_some, Option.getD_some, Measurement.valueSeries_touch, hname, hget]
    by_cases htag : (⟨t.key, t.value⟩ : Tag) ∈ key.tags
    · rw [if_pos htag, mem_mark]
      simp only [mem_tuples.mpr ⟨hname, htag⟩, true_and]
    · rw [if_neg htag, if_neg fun h => htag (mem_tuples.mp h.1).2]
  · rw [if_neg hname, if_neg fun h => hname (mem_tuples.mp h.1).1]

end Contents

/-! ### Roll-overs and compactions -/

namespace Maintains

variable {fs fs' : FileSet} {name key value : Bytes} {id : ℕ}

theorem lists_compactTo {f : Contents} (h : f.Within name (fun _ => True) fun _ _ => True) :
    f.compactTo.Lists name key value id ↔ f.Lists name key value id := by
  have htagKey : f.compactTo.tagKey name key = f.tagKey name key := by
    have hkeys := (within_iff.mp h).1 key
    rw [tagKey] at hkeys ⊢
    rw [tagKey, Contents.compactTo, SortedMap.get_map]
    cases hmm : f.mms.get name with
    | none => rfl
    | some mm =>
      rw [hmm] at hkeys
      change (SortedMap.map _ mm.tagSet).get key = mm.tagSet.get key
      rw [SortedMap.get_map]
      cases hts : mm.tagSet.get key with
      | none => rfl
      | some ts => rw [Option.map_some, if_neg (by rw [(hkeys ts hts).2]; exact Bool.false_ne_true)]
  rw [Contents.Lists, Contents.Lists, tagValue, tagValue, htagKey]

theorem untilTombstone_eq {es : List TagKey} (h : ∀ e ∈ es, e.deleted = false) :
    IndexFiles.untilTombstone es = es := by
  induction es with
  | nil => rfl
  | cons e es ih =>
    obtain ⟨he, hes⟩ := forall_mem_cons.mp h
    rw [IndexFiles.untilTombstone, he, if_neg Bool.false_ne_true, ih hes]

theorem not_dropped {files : List Contents} {f : Contents}
    (h : ∀ f ∈ files, f.Within name (fun _ => True) fun _ _ => True) (hf : f ∈ files)
    (hlists : f.Lists name key value id) : ¬ IndexFiles.Dropped files name key value := by
  have hkeys : ∀ e ∈ files.filterMap (fun f => f.tagKey name key), e.deleted = false := by
    intro e he
    obtain ⟨g, hg, hge⟩ := mem_filterMap.mp he
    exact ((within_iff.mp (h g hg)).1 key e hge).2
  obtain ⟨tv, htv, -⟩ := hlists
  obtain ⟨ts, hts, hget⟩ := Option.bind_eq_some_iff.mp htv
  rw [IndexFiles.Dropped, IndexFiles.visibleValues, untilTombstone_eq hkeys]
  exact ne_nil_of_mem (mem_filterMap.mpr ⟨ts, mem_filterMap.mpr ⟨f, hf, hts⟩, hget⟩)

/-- The files list the same series as before, if no tag key or value is deleted. -/
theorem lists (h : Maintains fs fs') (hfs : ∀ f ∈ fs, f.Within name (fun _ => True) fun _ _ => True) :
    (∃ f ∈ fs', f.Lists name key value id) ↔ ∃ f ∈ fs, f.Lists name key value id := by
  cases h with
  | refl => rfl
  | rollOver =>
    have hnew : ¬ Contents.new.Lists name key value id := by rintro ⟨tv, ⟨⟩, -⟩
    rw [exists_mem_cons_iff, or_iff_right hnew]
  | log pre f post =>
    have hf : f.compactTo.Lists name key value id ↔ f.Lists name key value id := lists_compactTo (hfs f (by simp))
    simp only [mem_append, mem_cons, not_mem_nil, or_false, or_and_right, exists_or, exists_eq_left, hf, or_assoc]
  | run pre files post =>
    have hrun : (IndexFiles.compactTo files).Lists name key value id ↔
        ∃ f ∈ files, f.Lists name key value id := by
      rw [IndexFiles.compactTo_lists, and_iff_right_iff_imp]
      rintro ⟨f, hf, hlists⟩
      exact not_dropped (fun g hg => hfs g (by simp [hg])) hf hlists
    simp only [mem_append, mem_cons, or_and_right, exists_or, exists_eq_left, hrun, or_assoc]

theorem tombstones (h : Maintains fs fs') (hfs : ∀ f ∈ fs, id ∉ f.tombstoneSeriesIDSet) :
    ∀ f ∈ fs', id ∉ f.tombstoneSeriesIDSet := by
  cases h with
  | refl => exact hfs
  | rollOver => exact forall_mem_cons.mpr ⟨Finset.notMem_empty id, hfs⟩
  | log pre f post =>
    simp only [forall_mem_append, forall_mem_cons] at hfs ⊢
    exact ⟨hfs.1.1, hfs.1.2.1, hfs.2⟩
  | run pre files post =>
    simp only [forall_mem_append, forall_mem_cons] at hfs ⊢
    exact ⟨hfs.1.1, IndexFiles.notMem_tombstones hfs.1.2, hfs.2⟩

end Maintains

/-! ### The series of a tag value in a partition -/

namespace Partition

variable {p : Partition} {keyOf : ℕ → SeriesKey} {sfile : SeriesFile} {t : TagTuple} {id : ℕ}

/-- The active log file lists the series under the tag value, or the series is live in the files behind it. -/
def Shows (p : Partition) (t : TagTuple) (id : ℕ) : Prop :=
  ∃ f fs, p.fileSet = f :: fs ∧ (f.Lists t.name t.key t.value id ∨ FileSet.Live fs t.name t.key t.value id)

theorem shows_iff {f : Contents} {fs : FileSet} (h : p.fileSet = f :: fs) :
    p.Shows t id ↔ f.Lists t.name t.key t.value id ∨ fs.Live t.name t.key t.value id := by
  rw [Shows, h]
  constructor
  · rintro ⟨_, _, ⟨⟩, hid⟩
    exact hid
  · exact fun hid => ⟨f, fs, rfl, hid⟩

theorem mem_tagValueSeriesIDs : id ∈ p.tagValueSeriesIDs t ↔ p.Shows t id := by
  rw [tagValueSeriesIDs]
  cases hfs : p.fileSet with
  | nil =>
    refine iff_of_false (Finset.notMem_empty id) ?_
    rintro ⟨f, fs, hfs', -⟩
    rw [hfs] at hfs'
    cases hfs'
  | cons f fs => rw [FileSet.mem_tagValueSeriesIDs_cons, shows_iff hfs]

/-- The series that are created are listed under their tags. -/
theorem lists_addSeries (t : TagTuple) (id : ℕ) (collection : List (ℕ × SeriesKey))
    (ss : Finset ℕ) (f : Contents) (cs : List (ℕ × SeriesKey)) :
    ∃ new, (collection.foldl addSeries (ss, f, cs)).2.2 = cs ++ new ∧
      ((collection.foldl addSeries (ss, f, cs)).2.1.Lists t.name t.key t.value id ↔
        f.Lists t.name t.key t.value id ∨ ∃ s ∈ new, t ∈ s.2.tuples ∧ id = s.1) := by
  induction collection generalizing ss f cs with
  | nil => exact ⟨[], (append_nil cs).symm, by simp⟩
  | cons s collection ih =>
    rw [foldl_cons, addSeries]
    split_ifs
    · exact ih ss f cs
    · let e : LogEntry := { flag := 0, seriesID := s.1, name := [], key := [], value := [], cached := some s.2 }
      obtain ⟨new, hnew, hlists⟩ := ih (insert s.1 ss) (f.execEntry (fun _ => none) e) (cs ++ [s])
      refine ⟨s :: new, by rw [hnew, append_assoc, singleton_append], hlists.trans ?_⟩
      have he : Entry (fun _ => s.2) (fun _ => none) e := addSeries_entry rfl
      have hkey : e.cached.or none = some s.2 := rfl
      rw [he.execEntry, lists_execSeriesEntry hkey, exists_mem_cons_iff]
      split_ifs with hs
      · exact iff_of_true (.inl rfl) (.inr (.inl hs))
      · exact or_congr_right (or_iff_right hs).symm

/-- The series that are created are added to the values of their tags. -/
theorem Tracked.shows_create (h : Tracked keyOf p) (collection : List (ℕ × SeriesKey)) :
    (p.createSeriesListIfNotExists collection).Shows t id ↔
      p.Shows t id ∨ (t, id) ∈ addsOf (p.created collection) := by
  obtain ⟨a, files, hfiles⟩ := h.exists_files
  obtain ⟨hfs, -, hcreated⟩ := fileSet_createSeriesList hfiles collection
  obtain ⟨new, hnew, hlists⟩ := lists_addSeries t id
    (collection.filter fun s => s.1 ∉ p.seriesIDSet) p.seriesIDSet a.contents []
  rw [shows_iff hfs, shows_iff (fileSet_eq hfiles), hcreated, addSeriesList, hnew, hlists,
    nil_append, or_right_comm]
  simp only [addsOf, mem_flatMap, mem_map, Prod.mk.injEq]
  refine or_congr_right (exists_congr fun s => and_congr_right fun _ => ?_)
  constructor
  · rintro ⟨ht, rfl⟩
    exact ⟨t, ht, rfl, rfl⟩
  · rintro ⟨t', ht, rfl, rfl⟩
    exact ⟨ht, rfl⟩

section

variable (h : Tracked keyOf p) (hsfile : ∀ id key, sfile id = some key → key = keyOf id)
include h hsfile

/-- A drop of a series adds nothing, and takes the series away from values of its own tags only. -/
theorem Tracked.shows_dropSeries {id' : ℕ} :
    ((p.dropSeries sfile id).Shows t id' → p.Shows t id') ∧
      (p.Shows t id' → ¬ (t ∈ (keyOf id).tuples ∧ id' = id) → (p.dropSeries sfile id).Shows t id') := by
  obtain ⟨a, files, hfiles⟩ := h.exists_files
  rw [dropSeries]
  split_ifs
  · have hfs := fileSet_writeActive hfiles fun f => f.execEntry sfile (deleteSeriesEntry id)
    have he := deleteSeriesEntry_entry hsfile id
    refine (and_congr (imp_congr_left (shows_iff hfs))
      (imp_congr_right fun _ => imp_congr_right fun _ => shows_iff hfs)).mpr ?_
    rw [shows_iff (fileSet_eq hfiles), he.execEntry]
    cases hkey : (deleteSeriesEntry id).cached.or (sfile (deleteSeriesEntry id).seriesID) with
    | none =>
      rw [execSeriesEntry, hkey]
      exact ⟨fun h => h, fun h _ => h⟩
    | some key =>
      rw [lists_execSeriesEntry hkey, he.key key hkey]
      split_ifs with hown
      · exact ⟨Or.imp_left fun h => absurd h.symm Bool.false_ne_true, fun _ hnot => absurd hown hnot⟩
      · exact ⟨fun h => h, fun h _ => h⟩
  · exact ⟨fun h => h, fun h _ => h⟩

/-- A drop of a measurement adds nothing, and changes the values of the measurement only. -/
theorem Tracked.shows_dropMeasurement {name : Bytes} :
    ((p.dropMeasurement sfile name).Shows t id → p.Shows t id) ∧
      (p.Shows t id → t.name ≠ name → (p.dropMeasurement sfile name).Shows t id) := by
  obtain ⟨a, files, hfiles⟩ := h.exists_files
  have hfs := fileSet_writeActive hfiles fun f => f.execEntries sfile (dropMeasurementEntries p.fileSet name)
  refine (and_congr (imp_congr_left (shows_iff hfs))
    (imp_congr_right fun _ => imp_congr_right fun _ => shows_iff hfs)).mpr ?_
  rw [shows_iff (fileSet_eq hfiles), lists_iff, lists_iff, h.get_drop hsfile]
  split_ifs with hname
  · exact ⟨Or.imp_left fun hid => absurd hid (Finset.notMem_empty id), fun _ hne => absurd hname hne⟩
  · exact ⟨fun h => h, fun h _ => h⟩

end

theorem Shows.lists (h : p.Shows t id) : ∃ f ∈ p.fileSet, f.Lists t.name t.key t.value id := by
  obtain ⟨f, fs, hfs, hlists | ⟨newer, g, older, rfl, hlists, -⟩⟩ := h
  · exact ⟨f, by simp [hfs], hlists⟩
  · exact ⟨g, by simp [hfs], hlists⟩

theorem shows_iff_lists (hne : p.fileSet ≠ []) (htomb : ∀ f ∈ p.fileSet, id ∉ f.tombstoneSeriesIDSet) :
    p.Shows t id ↔ ∃ f ∈ p.fileSet, f.Lists t.name t.key t.value id := by
  obtain ⟨f, fs, hfs⟩ := exists_cons_of_ne_nil hne
  rw [hfs] at htomb
  rw [shows_iff hfs, hfs, exists_mem_cons_iff, FileSet.live_iff_of_forall_notMem (forall_mem_cons.mp htomb).2]

/-- Roll-overs and compactions keep the series of a tag value, if no file has a tombstone for a series of it. -/
theorem Tracked.shows_maintain (h : Tracked keyOf p) {p' : Partition} (hm : Maintains p.fileSet p'.fileSet)
    (htomb : ∀ f ∈ p.fileSet, f.Lists t.name t.key t.value id →
      ∀ g ∈ p.fileSet, id ∉ g.tombstoneSeriesIDSet) :
    p'.Shows t id ↔ p.Shows t id := by
  have hlists := @Maintains.lists _ _ t.name t.key t.value id hm fun f hf => h.sound.within f hf t.name
  by_cases hex : ∃ f ∈ p.fileSet, f.Lists t.name t.key t.value id
  · obtain ⟨f, hf, hlist⟩ := hex
    have hnone := htomb f hf hlist
    rw [shows_iff_lists h.ne_nil hnone, shows_iff_lists (hm.ne_nil h.ne_nil) (hm.tombstones hnone), hlists]
  · exact iff_of_false (fun hs => hex (hlists.mp hs.lists)) fun hs => hex hs.lists

end Partition

end InfluxDB.Tsi
