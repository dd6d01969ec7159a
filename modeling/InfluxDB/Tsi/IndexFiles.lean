import InfluxDB.Tsi.FileSet

/-!
    Compactions of the series index: a log file becomes an index file, and a run of index files, newest
    first, becomes one.  Both leave out values of deleted tag keys: the log file those of a key it has
    deleted itself, the run those that stand behind the tombstone of the key.  The series of a tag
    value are gathered from all files of the run, and which of them are deleted is decided once for the
    whole run, by the series that its files add and delete.
-/

namespace InfluxDB.Tsi

open Lib List FileSet SortedMap Contents Finset

/-- What `LogFile.CompactTo` writes. -/
def Contents.compactTo (f : Contents) : Contents :=
  { f with
    mms := f.mms.map fun _ mm =>
      { mm with tagSet := mm.tagSet.map fun _ ts => if ts.deleted then { ts with tagValues := .empty } else ts } }

namespace IndexFiles

/-- The elements of a tag key up to the first tombstone, as `tagKeyMergeElem.TagValueIterator` reads them. -/
def untilTombstone : List TagKey → List TagKey
  | [] => []
  | e :: es => e :: if e.deleted then [] else untilTombstone es

/-- `IndexFiles.buildSeriesIDSets`: the series added and the series deleted. -/
def buildSeriesIDSets : List Contents → Finset ℕ × Finset ℕ
  | [] => (∅, ∅)
  | [f] => (f.seriesIDSet, f.tombstoneSeriesIDSet)
  | f :: files =>
    let (ss, ts) := buildSeriesIDSets files
    ((ss \ f.tombstoneSeriesIDSet) ∪ f.seriesIDSet, (ts ∪ f.tombstoneSeriesIDSet) \ f.seriesIDSet)

/-- `IndexFiles.TagValueSeriesIDSet`. -/
def tagValueSeriesIDSet (files : List Contents) (name key value : Bytes) : Finset ℕ :=
  files.foldl (fun ss f => ss ∪ (f.tagValueSeriesIDSet name key value).getD ∅) ∅

/-- A tag key that `writeTagsetTo` writes, from the elements of the files that have it. -/
def mergeTagKey (files : List Contents) (name key : Bytes) (es : List TagKey) : TagKey where
  deleted := (es.head?.map TagKey.deleted).getD false
  tagValues := (merge ((untilTombstone es).map TagKey.tagValues)).map fun value vs =>
    { deleted := (vs.head?.map TagValue.deleted).getD false
      series := tagValueSeriesIDSet files name key value }

/-- A measurement that `writeMeasurementBlockTo` writes, with its tag set. -/
def mergeMeasurement (files : List Contents) (name : Bytes) (es : List Measurement) : Measurement where
  deleted := (es.head?.map Measurement.deleted).getD false
  tagSet := (merge (files.filterMap fun f => f.tagKeyIterator name)).map (mergeTagKey files name)
  series := measurementSeriesIDs files name

/-- What `IndexFiles.CompactTo` writes. -/
def compactTo (files : List Contents) : Contents where
  mms := (merge (files.map mms)).map (mergeMeasurement files)
  seriesIDSet := (buildSeriesIDSets files).1
  tombstoneSeriesIDSet := (buildSeriesIDSets files).2

/-! ### What the new file answers -/

variable {files : List Contents} {name key value : Bytes} {id : ℕ}

theorem compactTo_get : (compactTo files).mms.get name =
    (someOf (files.filterMap fun f => f.measurement name)).map (mergeMeasurement files name) := by
  rw [compactTo, get_map, get_merge, filterMap_map]
  rfl

theorem compactTo_measurement : ((compactTo files).measurement name).map Measurement.deleted =
    (files.findSome? fun f => f.measurement name).map Measurement.deleted := by
  rw [Contents.measurement, compactTo_get, Option.map_map, ← head?_filterMap]
  exact someOf_map_head _ _ _ fun v vs => rfl

theorem compactTo_measurementSeriesIDs :
    (compactTo files).measurementSeriesIDs name = measurementSeriesIDs files name := by
  rw [Contents.measurementSeriesIDs, compactTo_get]
  cases h : files.filterMap fun f => f.measurement name with
  | cons e es => rfl
  | nil =>
    refine (eq_empty_of_forall_notMem fun id hid => ?_).symm
    obtain ⟨f, hf, hmem⟩ := mem_measurementSeriesIDs.mp hid
    have hnone : f.mms.get name = none := filterMap_eq_nil_iff.mp h f hf
    rw [Contents.measurementSeriesIDs, hnone] at hmem
    exact notMem_empty id hmem

theorem compactTo_tagKey : (compactTo files).tagKey name key =
    (someOf (files.filterMap fun f => f.tagKey name key)).map (mergeTagKey files name key) := by
  have htagSet : ∀ es, (mergeMeasurement files name es).tagSet.get key =
      (someOf (files.filterMap fun f => f.tagKey name key)).map (mergeTagKey files name key) := fun es => by
    rw [mergeMeasurement, get_map, get_merge, filterMap_tagKeyIterator]
  rw [tagKey, compactTo_get]
  cases h : files.filterMap fun f => f.measurement name with
  | cons e es => exact htagSet _
  | nil =>
    have hnil : files.filterMap (fun f => f.tagKey name key) = [] := filterMap_eq_nil_iff.mpr fun f hf => by
      have : f.mms.get name = none := filterMap_eq_nil_iff.mp h f hf
      rw [tagKey, this]
      rfl
    rw [hnil]
    rfl

/-- The elements of a value that stand in front of the first tombstone of its key. -/
def visibleValues (files : List Contents) (name key value : Bytes) : List TagValue :=
  (untilTombstone (files.filterMap fun f => f.tagKey name key)).filterMap fun ts => ts.tagValues.get value

/-- No file has the tag value in front of the first tombstone of its key, so that the compaction drops the value. -/
def Dropped (files : List Contents) (name key value : Bytes) : Prop := visibleValues files name key value = []

theorem compactTo_tagValue : (compactTo files).tagValue name key value =
    (someOf (visibleValues files name key value)).map fun vs =>
      { deleted := (vs.head?.map TagValue.deleted).getD false
        series := tagValueSeriesIDSet files name key value } := by
  have hget : ∀ es, (mergeTagKey files name key es).tagValues.get value =
      (someOf ((untilTombstone es).filterMap fun ts => ts.tagValues.get value)).map fun vs =>
        { deleted := (vs.head?.map TagValue.deleted).getD false
          series := tagValueSeriesIDSet files name key value } := fun es => by
    rw [mergeTagKey, get_map, get_merge, filterMap_map]
    rfl
  rw [tagValue, compactTo_tagKey, visibleValues]
  cases files.filterMap fun f => f.tagKey name key with
  | nil => rfl
  | cons e es => exact hget _

theorem untilTombstone_prefix (es : List TagKey) : ∃ rest, es = untilTombstone es ++ rest := by
  induction es with
  | nil => exact ⟨[], rfl⟩
  | cons e es ih =>
    rw [untilTombstone]
    split_ifs
    · exact ⟨es, rfl⟩
    · obtain ⟨rest, hrest⟩ := ih
      exact ⟨rest, by rw [cons_append, ← hrest]⟩

/-- Visible values are the values of the first files that have the tag value. -/
theorem visibleValues_prefix (files : List Contents) (name key value : Bytes) :
    ∃ rest, files.filterMap (fun f => f.tagValue name key value) = visibleValues files name key value ++ rest := by
  obtain ⟨rest, hrest⟩ := untilTombstone_prefix (files.filterMap fun f => f.tagKey name key)
  refine ⟨rest.filterMap fun ts => ts.tagValues.get value, ?_⟩
  rw [visibleValues, ← filterMap_append, ← hrest, filterMap_filterMap]
  rfl

theorem head?_visibleValues (h : ¬ Dropped files name key value) :
    (visibleValues files name key value).head? = files.findSome? fun f => f.tagValue name key value := by
  obtain ⟨rest, hrest⟩ := visibleValues_prefix files name key value
  rw [← head?_filterMap, hrest]
  cases hv : visibleValues files name key value with
  | nil => exact absurd hv h
  | cons tv tvs => rfl

theorem compactTo_tagValue_deleted : ((compactTo files).tagValue name key value).map TagValue.deleted =
    (visibleValues files name key value).head?.map TagValue.deleted := by
  rw [compactTo_tagValue, Option.map_map]
  exact someOf_map_head _ _ _ fun v vs => rfl

theorem mem_tagValueSeriesIDSet (ss : Finset ℕ) :
    id ∈ files.foldl (fun ss f => ss ∪ (f.tagValueSeriesIDSet name key value).getD ∅) ss ↔
      id ∈ ss ∨ ∃ f ∈ files, f.Lists name key value id := by
  induction files generalizing ss with
  | nil => simp
  | cons f files ih =>
    have hf : id ∈ (f.tagValueSeriesIDSet name key value).getD ∅ ↔ f.Lists name key value id := by
      rw [← Contents.mem_tagValueSeriesIDSet]
      cases f.tagValueSeriesIDSet name key value with
      | none => simp
      | some fss => simp
    rw [foldl_cons, ih, mem_union, hf, exists_mem_cons_iff, or_assoc]

theorem compactTo_lists : (compactTo files).Lists name key value id ↔
    ¬ Dropped files name key value ∧ ∃ f ∈ files, f.Lists name key value id := by
  rw [Contents.Lists, compactTo_tagValue, Dropped]
  cases h : visibleValues files name key value with
  | nil => simp [someOf]
  | cons tv tvs =>
    simp only [someOf, Option.map_some, Option.some.injEq, exists_eq_left', tagValueSeriesIDSet,
      mem_tagValueSeriesIDSet, notMem_empty, false_or, reduceCtorEq, not_false_iff, true_and]

/-! ### The series that the new file deletes -/

theorem buildSeriesIDSets_cons (f : Contents) (h : files ≠ []) :
    (buildSeriesIDSets (f :: files)).2 = ((buildSeriesIDSets files).2 ∪ f.tombstoneSeriesIDSet) \ f.seriesIDSet := by
  rw [buildSeriesIDSets]
  exact h

theorem notMem_tombstones (h : ∀ f ∈ files, id ∉ f.tombstoneSeriesIDSet) :
    id ∉ (compactTo files).tombstoneSeriesIDSet := by
  change id ∉ (buildSeriesIDSets files).2
  induction files with
  | nil => exact notMem_empty id
  | cons f files ih =>
    obtain ⟨hf, hfiles⟩ := forall_mem_cons.mp h
    cases files with
    | nil => exact hf
    | cons g files =>
      rw [buildSeriesIDSets_cons f (cons_ne_nil _ _), mem_sdiff, mem_union]
      exact fun hmem => hmem.1.elim (ih hfiles) hf

/-- A series is added again in the files in front of its newest tombstone, or in the file of the tombstone itself unless
that is the last one. -/
def Readded (id : ℕ) (newer : List Contents) (f : Contents) (older : List Contents) : Prop :=
  (∃ g ∈ newer, id ∈ g.seriesIDSet) ∨ older ≠ [] ∧ id ∈ f.seriesIDSet

theorem mem_tombstones_iff {newer older : List Contents} {f : Contents}
    (hnewer : ∀ g ∈ newer, id ∉ g.tombstoneSeriesIDSet) (hf : id ∈ f.tombstoneSeriesIDSet) :
    id ∈ (compactTo (newer ++ f :: older)).tombstoneSeriesIDSet ↔ ¬ Readded id newer f older := by
  change id ∈ (buildSeriesIDSets (newer ++ f :: older)).2 ↔ _
  induction newer with
  | nil =>
    cases older with
    | nil => simpa [Readded, buildSeriesIDSets] using hf
    | cons g older =>
      rw [nil_append, buildSeriesIDSets_cons f (cons_ne_nil _ _), mem_sdiff, mem_union]
      simp [Readded, hf]
  | cons g newer ih =>
    obtain ⟨hg, hnewer⟩ := forall_mem_cons.mp hnewer
    rw [cons_append, buildSeriesIDSets_cons g (by simp), mem_sdiff, mem_union, ih hnewer]
    simp only [Readded, exists_mem_cons_iff, or_iff_left hg, or_assoc, not_or]
    exact and_comm

/-! ### The series of a partition -/

/-- The turn of one file in `Partition.buildSeriesSet`. -/
def addFile (f : Contents) (ss : Finset ℕ) : Finset ℕ := (ss \ f.tombstoneSeriesIDSet) ∪ f.seriesIDSet

/-- `Partition.buildSeriesSet`, from the oldest file to the newest. -/
def buildSeriesSet (files : List Contents) : Finset ℕ := files.foldr addFile ∅

/-- A compaction replaces a run of files, given by its start and its length. -/
def compactRun (files : List Contents) (run : ℕ × ℕ) : List Contents :=
  files.take run.1 ++ compactTo ((files.drop run.1).take run.2) :: files.drop (run.1 + run.2)

/-- The new file does to a set of series what the files of the run do one after the other. -/
theorem addFile_compactTo (run : List Contents) (ss : Finset ℕ) :
    addFile (compactTo run) ss = run.foldr addFile ss := by
  change (ss \ (buildSeriesIDSets run).2) ∪ (buildSeriesIDSets run).1 = _
  induction run with
  | nil => simp [buildSeriesIDSets]
  | cons f run ih =>
    cases run with
    | nil => rfl
    | cons g run =>
      rw [foldr_cons, ← ih, buildSeriesIDSets, addFile]
      · ext id
        simp only [mem_union, mem_sdiff]
        tauto
      · exact cons_ne_nil _ _

theorem buildSeriesSet_compactRun (files : List Contents) (run : ℕ × ℕ) :
    buildSeriesSet (compactRun files run) = buildSeriesSet files := by
  have hsplit : files.take run.1 ++ ((files.drop run.1).take run.2 ++ files.drop (run.1 + run.2)) = files := by
    rw [← drop_drop, take_append_drop, take_append_drop]
  conv_rhs => rw [← hsplit]
  simp only [buildSeriesSet, compactRun, foldr_append, foldr_cons, addFile_compactTo]

/-- Whatever runs are compacted, in whatever order, the series of the partition are the same. -/
theorem buildSeriesSet_compactions (files : List Contents) (runs : List (ℕ × ℕ)) :
    buildSeriesSet (runs.foldl compactRun files) = buildSeriesSet files := by
  induction runs generalizing files with
  | nil => rfl
  | cons run runs ih => rw [foldl_cons, ih, buildSeriesSet_compactRun]

end IndexFiles

open IndexFiles hiding compactTo

/-! ### The views of a file set in which a run was compacted -/

/-- Two file sets answer all queries alike. -/
structure SameViews (fs fs' : FileSet) : Prop where
  measurement : ∀ name, (fs.measurement name).map Measurement.deleted = (fs'.measurement name).map Measurement.deleted
  measurementSeriesIDs : ∀ name, fs.measurementSeriesIDs name = fs'.measurementSeriesIDs name
  hasTagKey : ∀ name key, fs.hasTagKey name key = fs'.hasTagKey name key
  tagKeyIterator : ∀ name, fs.tagKeyIterator name = fs'.tagKeyIterator name
  hasTagValue : ∀ name key value, fs.hasTagValue name key value = fs'.hasTagValue name key value
  tagValueIterator : ∀ name key, fs.tagValueIterator name key = fs'.tagValueIterator name key
  tagValueSeriesIDs : ∀ name key value, fs.tagValueSeriesIDs name key value = fs'.tagValueSeriesIDs name key value

/-- The newer files say nothing of a series: the newest does not list it, the others neither list nor delete it. -/
def Exposed (newest : Contents) (newer : List Contents) (name key value : Bytes) (id : ℕ) : Prop :=
  ¬ newest.Lists name key value id ∧ ∀ f ∈ newer, ¬ f.Lists name key value id ∧ id ∉ f.tombstoneSeriesIDSet

/-- When a run of files can be compacted. -/
structure Compactable (newest : Contents) (newer run older : List Contents) : Prop where
  /-- A value that is dropped is hidden by newer files, or the older files have it with the same flag. -/
  values : ∀ name key value, (∀ f ∈ newest :: newer, f.tagValue name key value = none) →
    Dropped run name key value → ∀ e, run.findSome? (fun f => f.tagValue name key value) = some e →
      (older.findSome? fun f => f.tagValue name key value).map TagValue.deleted = some e.deleted
  /-- A series of a dropped value that the run does not delete is live in the older files. -/
  series : ∀ name key value id, Exposed newest newer name key value id →
    (∀ f ∈ run, id ∉ f.tombstoneSeriesIDSet) → (∃ f ∈ run, f.Lists name key value id) →
      Dropped run name key value → FileSet.Live older name key value id
  /-- A series is listed in front of its newest tombstone in the run if and only if it is added there again, and it is
  still known to the run under the value, or it is live in the older files. -/
  readded : ∀ name key value id, Exposed newest newer name key value id →
    ∀ run₁ f run₂, run = run₁ ++ f :: run₂ → (∀ g ∈ run₁, id ∉ g.tombstoneSeriesIDSet) →
      id ∈ f.tombstoneSeriesIDSet → ((∃ g ∈ run₁, g.Lists name key value id) ↔
        Readded id run₁ f run₂ ∧
          (¬ Dropped run name key value ∧ (∃ g ∈ run, g.Lists name key value id) ∨
            FileSet.Live older name key value id))

namespace FileSet

variable {newest : Contents} {newer run older : List Contents} {name key value : Bytes} {id : ℕ}

variable {α : Type}

section

variable (q : Contents → Option α) (deleted : α → Bool)
include q deleted

/-- The flag of the newest element that the files have, in two parts of a file set. -/
theorem flag_append (fs fs' : FileSet) :
    ((fs ++ fs').findSome? q).map deleted = ((fs.findSome? q).map deleted).or ((fs'.findSome? q).map deleted) := by
  rw [findSome?_append, Option.map_or]

theorem flag_cons (f : Contents) (fs : FileSet) :
    ((f :: fs).findSome? q).map deleted = ((q f).map deleted).or ((fs.findSome? q).map deleted) := by
  cases h : q f with
  | none | some e => rw [findSome?_cons, h]; rfl

theorem flag_compacted (h : (q (IndexFiles.compactTo run)).map deleted = (run.findSome? q).map deleted) :
    ((newest :: newer ++ run ++ older).findSome? q).map deleted =
      ((newest :: newer ++ IndexFiles.compactTo run :: older).findSome? q).map deleted := by
  rw [flag_append, flag_append, flag_append, flag_cons _ _ (IndexFiles.compactTo run), h, Option.or_assoc]

end

variable (fs : FileSet)

theorem measurement_deleted (name : Bytes) : (fs.measurement name).map Measurement.deleted =
    ((fs.findSome? fun f => f.measurement name).map Measurement.deleted).filter (!·) := by
  rw [measurement]
  cases fs.findSome? fun f => f.measurement name with
  | none => rfl
  | some e =>
    cases h : e.deleted with
    | true | false => simp [h, Option.filter]

theorem hasTagKey_eq (name key : Bytes) : fs.hasTagKey name key =
    ((fs.findSome? fun f => f.tagKey name key).map TagKey.deleted == some false) := by
  rw [hasTagKey]
  cases fs.findSome? fun f => f.tagKey name key with
  | none => rfl
  | some e => cases h : e.deleted <;> simp [h]

theorem hasTagValue_eq (name key value : Bytes) : fs.hasTagValue name key value =
    ((fs.findSome? fun f => f.tagValue name key value).map TagValue.deleted == some false) := by
  rw [hasTagValue]
  cases fs.findSome? fun f => f.tagValue name key value with
  | none => rfl
  | some e => cases h : e.deleted <;> simp [h]

theorem compacted_tagKey : ((newest :: newer ++ run ++ older).findSome? fun f => f.tagKey name key).map TagKey.deleted =
    ((newest :: newer ++ IndexFiles.compactTo run :: older).findSome? fun f => f.tagKey name key).map
      TagKey.deleted := by
  refine flag_compacted _ _ ?_
  rw [compactTo_tagKey, Option.map_map, ← head?_filterMap]
  exact someOf_map_head _ _ _ fun v vs => rfl

theorem compacted_measurement :
    ((newest :: newer ++ run ++ older).findSome? fun f => f.measurement name).map Measurement.deleted =
      ((newest :: newer ++ IndexFiles.compactTo run :: older).findSome? fun f => f.measurement name).map
        Measurement.deleted :=
  flag_compacted _ _ compactTo_measurement

/-- Nothing is found in a file set if and only if nothing is found behind a flag. -/
theorem forall_eq_none_iff (q : Contents → Option α) (deleted : α → Bool) (fs : FileSet) :
    (∀ f ∈ fs, q f = none) ↔ (fs.findSome? q).map deleted = none := by
  rw [Option.map_eq_none_iff, findSome?_eq_none_iff]

theorem compacted_measurementSeriesIDs :
    measurementSeriesIDs (newest :: newer ++ run ++ older) name =
      measurementSeriesIDs (newest :: newer ++ IndexFiles.compactTo run :: older) name := by
  ext id
  simp only [mem_measurementSeriesIDs, mem_append, or_and_right, exists_or, exists_mem_cons_iff,
    compactTo_measurementSeriesIDs, or_assoc]

theorem compacted_tagKeyIterator : tagKeyIterator (newest :: newer ++ run ++ older) name =
    tagKeyIterator (newest :: newer ++ IndexFiles.compactTo run :: older) name := by
  rw [tagKeyIterator_eq_iff, forall_eq_none_iff _ Measurement.deleted, forall_eq_none_iff _ Measurement.deleted,
    compacted_measurement]
  exact ⟨Iff.rfl, fun k => compacted_tagKey⟩

theorem compacted_tagValueIterator_iff :
    tagValueIterator (newest :: newer ++ run ++ older) name key =
        tagValueIterator (newest :: newer ++ IndexFiles.compactTo run :: older) name key ↔
      ∀ value, ((newest :: newer ++ run ++ older).findSome? fun f => f.tagValue name key value).map TagValue.deleted =
        ((newest :: newer ++ IndexFiles.compactTo run :: older).findSome? fun f => f.tagValue name key value).map
          TagValue.deleted := by
  rw [tagValueIterator_eq_iff, forall_eq_none_iff _ TagKey.deleted, forall_eq_none_iff _ TagKey.deleted,
    compacted_tagKey]
  exact and_iff_right Iff.rfl

/-- The flag of a value is kept unless the run drops the value while no newer file has it. -/
theorem compacted_tagValue_iff :
    ((newest :: newer ++ run ++ older).findSome? fun f => f.tagValue name key value).map TagValue.deleted =
        ((newest :: newer ++ IndexFiles.compactTo run :: older).findSome? fun f => f.tagValue name key value).map
          TagValue.deleted ↔
      ((∀ f ∈ newest :: newer, f.tagValue name key value = none) → Dropped run name key value →
        ∀ e, run.findSome? (fun f => f.tagValue name key value) = some e →
          (older.findSome? fun f => f.tagValue name key value).map TagValue.deleted = some e.deleted) := by
  by_cases hdrop : Dropped run name key value
  · rw [flag_append, flag_append, flag_append, flag_cons _ _ (IndexFiles.compactTo run),
      compactTo_tagValue_deleted, show visibleValues run name key value = [] from hdrop,
      forall_eq_none_iff _ TagValue.deleted]
    simp only [head?_nil, Option.map_none, Option.none_or, hdrop, true_imp_iff]
    cases (findSome? (fun f => f.tagValue name key value) (newest :: newer)).map TagValue.deleted with
    | some d => simp
    | none => cases run.findSome? fun f => f.tagValue name key value with
      | none => simp
      | some e => simp [eq_comm]
  · refine iff_of_true (flag_compacted _ _ ?_) fun _ h => absurd h hdrop
    rw [compactTo_tagValue_deleted, head?_visibleValues hdrop]

/-- Files behind the newer ones give the same series if they agree on those that the newer files say nothing of. -/
theorem mem_tagValueSeriesIDs_iff_iff {fs fs' : FileSet} :
    (id ∈ tagValueSeriesIDs (newest :: newer ++ fs) name key value ↔
        id ∈ tagValueSeriesIDs (newest :: newer ++ fs') name key value) ↔
      (Exposed newest newer name key value id → (Live fs name key value id ↔ Live fs' name key value id)) := by
  rw [cons_append, cons_append, mem_tagValueSeriesIDs_cons, mem_tagValueSeriesIDs_cons, live_append, live_append]
  by_cases htomb : ∀ f ∈ newer, id ∉ f.tombstoneSeriesIDSet
  · have hexp : Exposed newest newer name key value id ↔
        ¬ (newest.Lists name key value id ∨ ∃ f ∈ newer, f.Lists name key value id) := by
      rw [Exposed, not_or]
      refine and_congr_right fun _ => ⟨?_, fun h f hf => ⟨fun hf' => h ⟨f, hf, hf'⟩, htomb f hf⟩⟩
      rintro h ⟨f, hf, hf'⟩
      exact (h f hf).1 hf'
    rw [live_iff_of_forall_notMem htomb, hexp, and_iff_right htomb, and_iff_right htomb, ← or_assoc, ← or_assoc]
    by_cases hnewer : newest.Lists name key value id ∨ ∃ f ∈ newer, f.Lists name key value id
    · exact iff_of_true (iff_of_true (.inl hnewer) (.inl hnewer)) fun h => absurd hnewer h
    · rw [or_iff_right hnewer, or_iff_right hnewer]
      exact (imp_iff_right hnewer).symm
  · refine iff_of_true ?_ fun h => absurd (fun f hf => (h.2 f hf).2) htomb
    rw [iff_false_intro htomb, false_and, false_and]

/-- A series that the run does not delete. -/
theorem live_compacted_iff (h : ∀ f ∈ run, id ∉ f.tombstoneSeriesIDSet) :
    (Live (run ++ older) name key value id ↔ Live (IndexFiles.compactTo run :: older) name key value id) ↔
      ((∃ f ∈ run, f.Lists name key value id) → Dropped run name key value →
        Live older name key value id) := by
  rw [live_cons, compactTo_lists, live_append, live_iff_of_forall_notMem h,
    and_iff_right (notMem_tombstones h), and_iff_right h]
  by_cases hdrop : Dropped run name key value
  · rw [iff_false_intro (not_not_intro hdrop), false_and, false_or, or_iff_right_iff_imp]
    exact forall_congr' fun _ => (imp_iff_right hdrop).symm
  · rw [and_iff_right hdrop]
    exact iff_of_true Iff.rfl fun _ h => absurd h hdrop

/-- A series that the run deletes. -/
theorem live_compacted_split_iff {run₁ run₂ : List Contents} {f : Contents}
    (hnewer : ∀ g ∈ run₁, id ∉ g.tombstoneSeriesIDSet) (hf : id ∈ f.tombstoneSeriesIDSet)
    (hrun : run = run₁ ++ f :: run₂) :
    (Live (run ++ older) name key value id ↔ Live (IndexFiles.compactTo run :: older) name key value id) ↔
      ((∃ g ∈ run₁, g.Lists name key value id) ↔
        Readded id run₁ f run₂ ∧
          (¬ Dropped run name key value ∧ (∃ g ∈ run, g.Lists name key value id) ∨
            Live older name key value id)) := by
  have hlive : Live (run ++ older) name key value id ↔ ∃ g ∈ run₁, g.Lists name key value id := by
    rw [hrun, append_assoc, live_append, cons_append, live_cons, live_iff_of_forall_notMem hnewer]
    exact or_iff_left fun h => h.2.1 hf
  have htomb : id ∉ (IndexFiles.compactTo run).tombstoneSeriesIDSet ↔ Readded id run₁ f run₂ := by
    rw [hrun, mem_tombstones_iff hnewer hf, not_not]
  rw [hlive, live_cons, compactTo_lists, htomb]

theorem exists_newest_tombstone (h : ¬ ∀ f ∈ run, id ∉ f.tombstoneSeriesIDSet) :
    ∃ run₁ f run₂, run = run₁ ++ f :: run₂ ∧ (∀ g ∈ run₁, id ∉ g.tombstoneSeriesIDSet) ∧
      id ∈ f.tombstoneSeriesIDSet := by
  cases hfind : run.find? fun f => decide (id ∈ f.tombstoneSeriesIDSet) with
  | none => exact absurd (fun f hf => by simpa using find?_eq_none.mp hfind f hf) h
  | some f =>
    obtain ⟨hf, run₁, run₂, hrun, hnewer⟩ := find?_eq_some_iff_append.mp hfind
    exact ⟨run₁, f, run₂, hrun, fun g hg => by simpa using hnewer g hg, by simpa using hf⟩

end FileSet

/-- Replacing a run of files by the file that its compaction writes keeps all views if and only if the run is
compactable. -/
theorem sameViews_compactTo_iff (newest : Contents) (newer run older : List Contents) :
    SameViews (newest :: newer ++ run ++ older) (newest :: newer ++ IndexFiles.compactTo run :: older) ↔
      Compactable newest newer run older := by
  constructor
  · intro h
    have hseries : ∀ name key value id, Exposed newest newer name key value id →
        (Live (run ++ older) name key value id ↔
          FileSet.Live (IndexFiles.compactTo run :: older) name key value id) := fun name key value id =>
      mem_tagValueSeriesIDs_iff_iff.mp (by rw [← append_assoc, h.tagValueSeriesIDs])
    refine ⟨fun name key value => ?_, fun name key value id hexp htomb => ?_, fun name key value id hexp => ?_⟩
    · exact compacted_tagValue_iff.mp (compacted_tagValueIterator_iff.mp (h.tagValueIterator name key) value)
    · exact (live_compacted_iff htomb).mp (hseries name key value id hexp)
    · intro run₁ f run₂ hrun hnewer hf
      exact (live_compacted_split_iff hnewer hf hrun).mp (hseries name key value id hexp)
  · intro h
    have hflag := fun name key value => compacted_tagValue_iff.mpr (h.values name key value)
    refine ⟨fun name => ?_, fun name => compacted_measurementSeriesIDs, fun name key => ?_,
      fun name => compacted_tagKeyIterator, fun name key value => ?_, fun name key => ?_,
      fun name key value => ?_⟩
    · rw [measurement_deleted, measurement_deleted, compacted_measurement]
    · rw [hasTagKey_eq, hasTagKey_eq, compacted_tagKey]
    · rw [hasTagValue_eq, hasTagValue_eq, hflag]
    · exact compacted_tagValueIterator_iff.mpr (hflag name key)
    · ext id
      rw [append_assoc]
      refine mem_tagValueSeriesIDs_iff_iff.mpr fun hexp => ?_
      by_cases htomb : ∀ f ∈ run, id ∉ f.tombstoneSeriesIDSet
      · exact (live_compacted_iff htomb).mpr (h.series name key value id hexp htomb)
      · obtain ⟨run₁, f, run₂, hrun, hnewer, hf⟩ := exists_newest_tombstone htomb
        exact (live_compacted_split_iff hnewer hf hrun).mpr
          (h.readded name key value id hexp run₁ f run₂ hrun hnewer hf)

/-- A file that deletes the tag key of an older file: the compaction drops the values, which were found before. -/
theorem not_sameViews_compactTo :
    ¬ SameViews
        [Contents.new,
          (Contents.new.execEntries (fun _ => some ⟨[109], [⟨[107], [118]⟩]⟩)
            [⟨4, 0, [109], [107], [], none⟩]).compactTo,
          (Contents.new.execEntries (fun _ => some ⟨[109], [⟨[107], [118]⟩]⟩)
            [⟨0, 1, [], [], [], none⟩]).compactTo]
        [Contents.new,
          IndexFiles.compactTo
            [(Contents.new.execEntries (fun _ => some ⟨[109], [⟨[107], [118]⟩]⟩)
              [⟨4, 0, [109], [107], [], none⟩]).compactTo,
              (Contents.new.execEntries (fun _ => some ⟨[109], [⟨[107], [118]⟩]⟩)
                [⟨0, 1, [], [], [], none⟩]).compactTo]] :=
  fun h => absurd (h.hasTagValue [109] [107] [118]) (by decide +kernel)

end InfluxDB.Tsi
