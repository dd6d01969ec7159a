import InfluxDB.Tsi.SeriesEntries

/-!
    What is left of a measurement that was dropped.  `DropMeasurement` writes tombstones for the tag keys,
    the values and the series of a measurement to the active log file, and a tombstone of the measurement
    last, which empties the tag set there.  So no tombstone of a key or value stays behind, and the keys
    that other files have are found again.  If there are none, only series that are created later bring
    keys and values back: writes, roll-overs and compactions add none of their own.
-/

namespace InfluxDB.Tsi

open Lib Models List InfluxDB.Tsi.Partition FileSet

/-! ### Runs of a partition -/

namespace Partition

/-- The calls of an operation agree with the keys of the series: a series file has one key for an id. -/
def Op.Consistent (keyOf : ℕ → SeriesKey) : Op → Prop
  | .createSeriesListIfNotExists collection => ∀ s ∈ collection, s.2 = keyOf s.1
  | .dropSeries sfile _ => ∀ id key, sfile id = some key → key = keyOf id
  | .dropMeasurement sfile _ => ∀ id key, sfile id = some key → key = keyOf id
  | _ => True

/-- The series that an operation creates. -/
def createdBy (p : Partition) : Op → List SeriesKey
  | .createSeriesListIfNotExists collection => (p.created collection).map Prod.snd
  | _ => []

/-- The series that are created in a run. -/
def createdIn (p : Partition) : List Op → List SeriesKey
  | [] => []
  | op :: ops => p.createdBy op ++ createdIn (p.step op) ops

variable {p : Partition} {keyOf : ℕ → SeriesKey} {name : Bytes}

variable {files : List File} {a : File}

theorem fileSet_eq (h : p.files = a :: files) : p.fileSet = a.contents :: files.map File.contents := by
  rw [fileSet, h, map_cons]

theorem fileSet_writeActive (h : p.files = a :: files) (g : Contents → Contents) :
    (p.writeActive g).fileSet = g a.contents :: files.map File.contents := by
  rw [fileSet, writeActive, h, modifyHead_cons, map_cons]

/-- Replacing files maintains the file set. -/
theorem maintains_of_mustReplace {oldFiles files' : List File} {newFile : File}
    (h : mustReplace files oldFiles newFile = .ok files')
    (hnew : ∀ pre post : FileSet,
      Maintains (pre ++ oldFiles.map File.contents ++ post) (pre ++ newFile.contents :: post)) :
    Maintains (files.map File.contents) (files'.map File.contents) := by
  obtain ⟨pre, post, rfl, rfl⟩ := mustReplace_eq_ok h
  rw [map_append, map_append, map_append, map_cons]
  exact hnew _ _

theorem maintains_finishLog (p : Partition) (f : File) : Maintains p.fileSet (p.finishLog f).fileSet := by
  rw [finishLog]
  split_ifs
  · cases hreplace : mustReplace p.files [f] ⟨f.id, 1, f.contents.compactTo⟩ with
    | error e => exact .refl _
    | ok files => exact maintains_of_mustReplace hreplace fun pre post => .log pre f.contents post
  · exact .refl _

theorem maintains_finishLevel (p : Partition) (c : Compaction) : Maintains p.fileSet (p.finishLevel c).fileSet := by
  rw [finishLevel]
  cases c.id with
  | none => exact .refl _
  | some id =>
    dsimp only
    split_ifs
    · cases hreplace : mustReplace p.files c.files
        ⟨id, c.level + 1, IndexFiles.compactTo (c.files.map File.contents)⟩ with
      | error e => exact .refl _
      | ok files => exact maintains_of_mustReplace hreplace fun pre post => .run pre _ post
    · exact .refl _

theorem compactLevel_eq (p : Partition) (level : ℕ) :
    (p.compactLevel level).fileSet = p.fileSet ∧ (p.compactLevel level).seriesIDSet = p.seriesIDSet := by
  rw [compactLevel]
  split_ifs
  · exact ⟨rfl, rfl⟩
  · dsimp only
    split_ifs
    all_goals exact ⟨rfl, rfl⟩

theorem compact_eq (p : Partition) : p.compact.fileSet = p.fileSet ∧ p.compact.seriesIDSet = p.seriesIDSet := by
  rw [compact]
  generalize range' 1 (p.levels - 2) = levels
  induction levels generalizing p with
  | nil => exact ⟨rfl, rfl⟩
  | cons level levels ih =>
    obtain ⟨hfiles, hss⟩ := ih (p.compactLevel level)
    exact ⟨hfiles.trans (p.compactLevel_eq level).1, hss.trans (p.compactLevel_eq level).2⟩

/-- An operation maintains the file set, or it writes to the active log file. -/
theorem step_cases (p : Partition) (op : Op) :
    (Maintains p.fileSet (p.step op).fileSet ∧ (p.step op).seriesIDSet = p.seriesIDSet ∧ p.createdBy op = []) ∨
      (∃ collection, op = .createSeriesListIfNotExists collection) ∨ (∃ sfile id, op = .dropSeries sfile id) ∨
      ∃ sfile name, op = .dropMeasurement sfile name := by
  cases op with
  | createSeriesListIfNotExists collection => exact .inr (.inl ⟨collection, rfl⟩)
  | dropSeries sfile id => exact .inr (.inr (.inl ⟨sfile, id, rfl⟩))
  | dropMeasurement sfile name => exact .inr (.inr (.inr ⟨sfile, name, rfl⟩))
  | rollOver => exact .inl ⟨.rollOver _, rfl, rfl⟩
  | finishLog f =>
    refine .inl ⟨p.maintains_finishLog f, ?_, rfl⟩
    rw [step, finishLog]
    split_ifs
    · cases mustReplace p.files [f] ⟨f.id, 1, f.contents.compactTo⟩ with
      | error e | ok files => rfl
    · rfl
  | failLog f => exact .inl ⟨.refl _, rfl, rfl⟩
  | compact => exact .inl ⟨p.compact_eq.1 ▸ .refl _, p.compact_eq.2, rfl⟩
  | createFile c | failLevel c | release c =>
    refine .inl ?_
    simp only [step, createFile, failLevel, release]
    split_ifs
    all_goals exact ⟨.refl _, rfl, rfl⟩
  | finishLevel c =>
    refine .inl ⟨p.maintains_finishLevel c, ?_, rfl⟩
    rw [step, finishLevel]
    cases c.id with
    | none => rfl
    | some id =>
      dsimp only
      split_ifs
      · cases mustReplace p.files c.files ⟨id, c.level + 1, IndexFiles.compactTo (c.files.map File.contents)⟩ with
        | error e | ok files => rfl
      · rfl

/-- The series of a partition that has files. -/
structure Tracked (keyOf : ℕ → SeriesKey) (p : Partition) : Prop where
  ne_nil : p.fileSet ≠ []
  sound : Sound keyOf p.fileSet p.seriesIDSet

theorem tracked_new (keyOf : ℕ → SeriesKey) (levels : ℕ) : Tracked keyOf (new levels) where
  ne_nil := cons_ne_nil _ _
  sound := ⟨fun f hf name => by rw [mem_singleton.mp hf]; exact Contents.within_new,
    nofun, nofun⟩

section

variable {f : Contents} {fs : FileSet} {ss : Finset ℕ} {collection : List (ℕ × SeriesKey)}
  {cs : List (ℕ × SeriesKey)}

theorem addSeries_entry {s : ℕ × SeriesKey} (hs : s.2 = keyOf s.1) :
    Entry keyOf (fun _ => none)
      { flag := 0, seriesID := s.1, name := [], key := [], value := [], cached := some s.2 } :=
  ⟨.inl rfl, fun key hkey => by cases hkey; exact hs⟩

theorem sound_addSeries (hcoll : ∀ s ∈ collection, s.2 = keyOf s.1)
    (h : Sound keyOf (f :: fs) ss) :
    Sound keyOf ((collection.foldl addSeries (ss, f, cs)).2.1 :: fs) (collection.foldl addSeries (ss, f, cs)).1 := by
  induction collection generalizing ss f cs with
  | nil => exact h
  | cons s collection ih =>
    obtain ⟨hs, hcoll⟩ := forall_mem_cons.mp hcoll
    rw [foldl_cons, addSeries]
    split_ifs with hmem
    · exact ih hcoll h
    · refine ih hcoll (h.entry (addSeries_entry hs) fun id hid => ?_)
      rcases Finset.mem_insert.mp hid with rfl | hid
      · exact .inl ⟨rfl, rfl, nofun⟩
      · exact .inr ⟨fun heq : id = s.1 => hmem (heq ▸ hid), hid⟩

theorem since_addSeries {created : List SeriesKey} (hcoll : ∀ s ∈ collection, s.2 = keyOf s.1)
    (h : Since keyOf name (created ++ cs.map Prod.snd) (f :: fs) ss) :
    Since keyOf name (created ++ (collection.foldl addSeries (ss, f, cs)).2.2.map Prod.snd)
      ((collection.foldl addSeries (ss, f, cs)).2.1 :: fs) (collection.foldl addSeries (ss, f, cs)).1 := by
  induction collection generalizing ss f cs with
  | nil => exact h
  | cons s collection ih =>
    obtain ⟨hs, hcoll⟩ := forall_mem_cons.mp hcoll
    rw [foldl_cons, addSeries]
    split_ifs with hmem
    · exact ih hcoll h
    · refine ih hcoll (h.entry (addSeries_entry hs) ?_ (fun _ => ?_) fun id => Finset.mem_insert.mp)
      · rw [map_append, ← append_assoc]
        exact subset_append_left _ _
      · simp [hs]

end

theorem Tracked.exists_files (h : Tracked keyOf p) : ∃ a files, p.files = a :: files :=
  exists_cons_of_ne_nil fun hnil => h.ne_nil (by rw [fileSet, hnil]; rfl)

theorem fileSet_createSeriesList (hfiles : p.files = a :: files)
    (collection : List (ℕ × SeriesKey)) :
    (p.createSeriesListIfNotExists collection).fileSet =
      (addSeriesList p.seriesIDSet a.contents collection).2.1 :: files.map File.contents ∧
    (p.createSeriesListIfNotExists collection).seriesIDSet = (addSeriesList p.seriesIDSet a.contents collection).1 ∧
    p.created collection = (addSeriesList p.seriesIDSet a.contents collection).2.2 := by
  have hactive : p.active = a.contents := by rw [active, hfiles]; rfl
  rw [createSeriesListIfNotExists, created, hactive]
  exact ⟨fileSet_writeActive hfiles fun _ => (addSeriesList p.seriesIDSet a.contents collection).2.1, rfl, rfl⟩

variable {sfile : SeriesFile} {op : Op}

/-- What `DropMeasurement` does to the files. -/
theorem Tracked.get_drop (h : Tracked keyOf p)
    (hsfile : ∀ id key, sfile id = some key → key = keyOf id) (dropName : Bytes) (f : Contents) (name : Bytes) :
    (f.execEntries sfile (dropMeasurementEntries p.fileSet dropName)).mms.get name =
      if name = dropName then some dropped else f.mms.get name :=
  get_dropMeasurement hsfile (h.sound.listed dropName) f

theorem Tracked.step (h : Tracked keyOf p) (hop : op.Consistent keyOf) : Tracked keyOf (p.step op) := by
  obtain ⟨a, files, hfiles⟩ := h.exists_files
  have hsound := h.sound
  rw [fileSet_eq hfiles] at hsound
  rcases p.step_cases op with ⟨hm, hss, -⟩ | ⟨collection, rfl⟩ | ⟨sfile, id, rfl⟩ |
    ⟨sfile, dropName, rfl⟩
  · exact ⟨hm.ne_nil h.ne_nil, hss ▸ h.sound.maintain hm⟩
  · obtain ⟨hfs, hss, -⟩ := fileSet_createSeriesList hfiles collection
    refine ⟨hfs ▸ cons_ne_nil _ _, ?_⟩
    rw [step, hfs, hss]
    exact sound_addSeries (fun s hs => hop s (mem_of_mem_filter hs)) hsound
  · rw [step, dropSeries]
    split_ifs with hid
    · have hfs := fileSet_writeActive hfiles fun f => f.execEntry sfile (deleteSeriesEntry id)
      refine ⟨ne_of_eq_of_ne hfs (cons_ne_nil _ _), ?_⟩
      have hentry := hsound.entry (deleteSeriesEntry_entry hop id) (fun id' hid' =>
        .inr (Finset.mem_erase.mp hid'))
      rw [← hfs] at hentry
      exact hentry
    · exact h
  · have hfs := fileSet_writeActive hfiles fun f => f.execEntries sfile (dropMeasurementEntries p.fileSet dropName)
    refine ⟨ne_of_eq_of_ne hfs (cons_ne_nil _ _), ?_⟩
    have hdrop := hsound.drop (h.get_drop hop dropName a.contents)
    rw [← hfs, ← fileSet_eq hfiles] at hdrop
    exact hdrop

variable {created : List SeriesKey} {ops : List Op} {key : Bytes} {α : Type}

/-- What is known since a measurement was dropped stays known. -/
theorem Tracked.since_step (h : Tracked keyOf p) (hop : op.Consistent keyOf)
    (hsince : Since keyOf name created p.fileSet p.seriesIDSet) :
    Since keyOf name (created ++ p.createdBy op) (p.step op).fileSet (p.step op).seriesIDSet := by
  obtain ⟨a, files, hfiles⟩ := h.exists_files
  have hs := hsince
  rw [fileSet_eq hfiles] at hs
  rcases p.step_cases op with ⟨hm, hss, hnil⟩ | ⟨collection, rfl⟩ | ⟨sfile, id, rfl⟩ |
    ⟨sfile, dropName, rfl⟩
  · rw [hss, hnil, append_nil]
    exact hsince.maintain hm
  · obtain ⟨hfs, hss, hcreated⟩ := fileSet_createSeriesList hfiles collection
    rw [Partition.step, createdBy, hfs, hss, hcreated]
    refine since_addSeries (fun s hs => hop s (mem_of_mem_filter hs)) ?_
    rwa [map_nil, append_nil]
  · rw [show p.createdBy (.dropSeries sfile id) = [] from rfl, append_nil, Partition.step, dropSeries]
    split_ifs with hid
    · have hfs := fileSet_writeActive hfiles fun f => f.execEntry sfile (deleteSeriesEntry id)
      have hentry := hs.entry (deleteSeriesEntry_entry hop id) (List.Subset.refl _) (hs.alive id hid)
        (fun id' (hid' : id' ∈ p.seriesIDSet.erase id) => .inr (Finset.mem_of_mem_erase hid'))
      rw [← hfs] at hentry
      exact hentry
    · exact hsince
  · have hfs := fileSet_writeActive hfiles fun f => f.execEntries sfile (dropMeasurementEntries p.fileSet dropName)
    have hdrop := hs.drop (h.get_drop hop dropName a.contents)
      (Finset.sdiff_subset (t := p.fileSet.measurementSeriesIDs dropName))
    rw [← hfs] at hdrop
    rw [show p.createdBy (.dropMeasurement sfile dropName) = [] from rfl, append_nil]
    exact hdrop

theorem Tracked.run (h : Tracked keyOf p) (hops : ∀ op ∈ ops, op.Consistent keyOf) : Tracked keyOf (p.run ops) := by
  induction ops generalizing p with
  | nil => exact h
  | cons op ops ih =>
    obtain ⟨hop, hops⟩ := forall_mem_cons.mp hops
    exact ih (h.step hop) hops

theorem Tracked.since_run (h : Tracked keyOf p) (hops : ∀ op ∈ ops, op.Consistent keyOf)
    (hsince : Since keyOf name created p.fileSet p.seriesIDSet) :
    Since keyOf name (created ++ p.createdIn ops) (p.run ops).fileSet (p.run ops).seriesIDSet := by
  induction ops generalizing p created with
  | nil => rwa [createdIn, append_nil]
  | cons op ops ih =>
    obtain ⟨hop, hops⟩ := forall_mem_cons.mp hops
    rw [createdIn, ← append_assoc]
    exact ih (h.step hop) hops (h.since_step hop hsince)

/-! ### The answers of a partition -/

/-- A partition reports only keys and values of the given series of a measurement. -/
structure ReportsOnly (p : Partition) (name : Bytes) (created : List SeriesKey) : Prop where
  measurementExists : (∀ s ∈ created, s.name ≠ name) → p.measurementExists name = false
  hasTagKey : ∀ key, p.hasTagKey name key = true → HasKey created name key
  hasTagValue : ∀ key value, p.hasTagValue name key value = true → HasValue created name key value
  tagKeyIterator : ∀ key ∈ p.tagKeyIterator name, HasKey created name key
  tagValueIterator : ∀ key, ∀ value ∈ p.tagValueIterator name key, HasValue created name key value

theorem mem_undeleted {deleted : α → Bool} {itrs : List (SortedMap Bytes α)} {k : Bytes} :
    k ∈ undeleted (mergeIterators deleted itrs) ↔ (itrs.findSome? fun m => m.get k).map deleted = some false := by
  cases itrs with
  | nil => exact iff_of_false not_mem_nil nofun
  | cons m itrs =>
    rw [mergeIterators.eq_2 _ _ (cons_ne_nil m itrs), ← SortedMap.get_merge_head _ _ false, undeleted,
      SortedMap.get_eq_some_iff]
    simp only [mem_map, mem_filter, Bool.not_eq_true', Prod.exists, exists_and_right, exists_eq_right]

theorem mem_tagKeyIterator : key ∈ p.tagKeyIterator name ↔ p.hasTagKey name key = true := by
  rw [tagKeyIterator, FileSet.tagKeyIterator, mem_undeleted, hasTagKey, FileSet.hasTagKey_eq, ← head?_filterMap,
    filterMap_tagKeyIterator, head?_filterMap, beq_iff_eq]

theorem mem_tagValueIterator {value : Bytes} :
    value ∈ p.tagValueIterator name key ↔ p.hasTagValue name key value = true := by
  rw [tagValueIterator, FileSet.tagValueIterator, mem_undeleted, hasTagValue, FileSet.hasTagValue_eq,
    ← head?_filterMap, filterMap_tagValueIterator, head?_filterMap, beq_iff_eq]

theorem measurementExists_eq : p.measurementExists name =
    ((p.fileSet.findSome? fun f => f.measurement name).map Measurement.deleted == some false) := by
  rw [measurementExists, measurement]
  cases p.fileSet.findSome? fun f => f.measurement name with
  | none => rfl
  | some e => cases h : e.deleted <;> simp [h]

/-- Something is found in one of the files. -/
theorem exists_of_flag {q : Contents → Option α} {deleted : α → Bool} {fs : FileSet} {d : Bool}
    (h : (fs.findSome? q).map deleted = some d) : ∃ f ∈ fs, ∃ e, q f = some e := by
  obtain ⟨e, he, -⟩ := Option.map_eq_some_iff.mp h
  obtain ⟨f, hf, hfe⟩ := exists_of_findSome?_eq_some he
  exact ⟨f, hf, e, hfe⟩

theorem reportsOnly_of_since (h : Since keyOf name created p.fileSet p.seriesIDSet) : p.ReportsOnly name created := by
  have hkey : ∀ key, p.hasTagKey name key = true → HasKey created name key := fun key hkey => by
    rw [hasTagKey, hasTagKey_eq, beq_iff_eq] at hkey
    obtain ⟨f, hf, e, he⟩ := exists_of_flag hkey
    exact ((Contents.within_iff.mp (h.within f hf)).1 key e he).1
  have hvalue : ∀ key value, p.hasTagValue name key value = true → HasValue created name key value :=
    fun key value hvalue => by
      rw [hasTagValue, hasTagValue_eq, beq_iff_eq] at hvalue
      obtain ⟨f, hf, e, he⟩ := exists_of_flag hvalue
      exact ((Contents.within_iff.mp (h.within f hf)).2 key value e he).1
  refine ⟨fun hnone => ?_, hkey, hvalue, fun key hmem => hkey key (mem_tagKeyIterator.mp hmem),
    fun key value hmem => hvalue key value (mem_tagValueIterator.mp hmem)⟩
  rw [measurementExists_eq, beq_eq_false_iff_ne]
  exact h.gone hnone

/-- A tag key of another file is found after the measurement was dropped. -/
theorem Tracked.hasTagKey_drop (h : Tracked keyOf p)
    (hsfile : ∀ id key, sfile id = some key → key = keyOf id) {f : File} (hf : f ∈ p.files.tail)
    {ts : TagKey} (hts : f.contents.tagKey name key = some ts) :
    (p.dropMeasurement sfile name).hasTagKey name key = true := by
  obtain ⟨a, files, hfiles⟩ := h.exists_files
  have hfs : (p.dropMeasurement sfile name).fileSet = _ :=
    fileSet_writeActive hfiles fun f => f.execEntries sfile (dropMeasurementEntries p.fileSet name)
  have hhead : Contents.tagKey
      (a.contents.execEntries sfile (dropMeasurementEntries p.fileSet name)) name key = none := by
    rw [Contents.tagKey, h.get_drop hsfile, if_pos rfl]
    rfl
  have hsome : (files.map File.contents).findSome? (fun g => g.tagKey name key) ≠ none := fun hnone => by
    rw [hfiles] at hf
    have := findSome?_eq_none_iff.mp hnone f.contents (mem_map_of_mem hf)
    rw [hts] at this
    cases this
  obtain ⟨e, he⟩ := Option.ne_none_iff_exists'.mp hsome
  obtain ⟨g, hg, hge⟩ := exists_of_findSome?_eq_some he
  have hdeleted : e.deleted = false := by
    have hwithin := h.sound.within g (by rw [fileSet_eq hfiles]; exact mem_cons_of_mem _ hg) name
    exact ((Contents.within_iff.mp hwithin).1 key e hge).2
  rw [hasTagKey, hasTagKey_eq, hfs, flag_cons, hhead, he, Option.map_some, hdeleted]
  rfl

end Partition

/-- After a measurement is dropped, a partition reports only what was created since, in every run, if and only if no
file but the active log file has a tag key of the measurement when it is dropped. -/
theorem dropMeasurement_reportsOnly_iff (keyOf : ℕ → SeriesKey) (levels : ℕ) (ops : List Op)
    (hops : ∀ op ∈ ops, op.Consistent keyOf) (sfile : SeriesFile)
    (hsfile : ∀ id key, sfile id = some key → key = keyOf id) (name : Bytes) :
    (∀ ops', (∀ op ∈ ops', op.Consistent keyOf) →
      ((((new levels).run ops).dropMeasurement sfile name).run ops').ReportsOnly name
        ((((new levels).run ops).dropMeasurement sfile name).createdIn ops')) ↔
      ∀ f ∈ ((new levels).run ops).files.tail, ∀ key, f.contents.tagKey name key = none := by
  have h := (tracked_new keyOf levels).run hops
  generalize (new levels).run ops = p at h
  constructor
  · intro hreports f hf key
    cases hts : f.contents.tagKey name key with
    | none => rfl
    | some ts =>
      obtain ⟨s, hs, -⟩ := (hreports [] nofun).hasTagKey key (h.hasTagKey_drop hsfile hf hts)
      exact absurd hs not_mem_nil
  · intro hkeys ops' hops'
    have hdrop : Tracked keyOf (p.step (.dropMeasurement sfile name)) := h.step hsfile
    obtain ⟨a, files, hfiles⟩ := h.exists_files
    have hsound := h.sound
    rw [fileSet_eq hfiles] at hsound
    have hsince := hsound.since (h.get_drop hsfile name a.contents) fun g hg key => by
      obtain ⟨f, hf, rfl⟩ := mem_map.mp hg
      exact hkeys f (by rw [hfiles]; exact hf) key
    rw [← fileSet_eq hfiles] at hsince
    rw [← fileSet_writeActive hfiles fun f =>
      f.execEntries sfile (dropMeasurementEntries p.fileSet name)] at hsince
    exact reportsOnly_of_since (hdrop.since_run hops' hsince)

theorem dropMeasurement_reportsOnly_active :
    ((((new 8).run [.createSeriesListIfNotExists [(1, ⟨[109], [⟨[107], [118]⟩]⟩)]]).dropMeasurement
      (fun _ => some ⟨[109], [⟨[107], [118]⟩]⟩) [109]).run [.rollOver]).ReportsOnly [109] [] :=
  (dropMeasurement_reportsOnly_iff (fun _ => ⟨[109], [⟨[107], [118]⟩]⟩) 8
    [.createSeriesListIfNotExists [(1, ⟨[109], [⟨[107], [118]⟩]⟩)]]
    (by simp [Partition.Op.Consistent]) _ (fun _ _ h => (Option.some.inj h).symm) _).mpr
    (nofun) [.rollOver] (by simp [Partition.Op.Consistent])

/-- The tag key of a series is in the previous log file when the measurement is dropped. -/
theorem not_dropMeasurement_reportsOnly :
    ¬ ((((new 8).run
        [.createSeriesListIfNotExists [(1, ⟨[109], [⟨[107], [118]⟩]⟩)], .rollOver]).dropMeasurement
          (fun _ => some ⟨[109], [⟨[107], [118]⟩]⟩) [109]).run []).ReportsOnly [109] [] := by
  intro h
  obtain ⟨s, hs, -⟩ := h.hasTagKey [107] (by decide +kernel)
  exact absurd hs not_mem_nil

end InfluxDB.Tsi
