import InfluxDB.Tsi.Partition

/-!
    The tag keys, the values and the series that the files of a partition know, and what the entries of the
    active log file, roll-overs and compactions do to them.  A series entry brings in the tags of its
    series, also when it deletes the series; the entries of a drop reset the measurement in the log file
    and leave the others alone; compactions bring in nothing that the files did not have.
-/

namespace InfluxDB.Tsi

open Lib Models List Contents SortedMap

/-! ### The entries of a log file -/

/-- The tags of a series are added to a measurement. -/
def Measurement.touch (deleted : Bool) (id : ℕ) (tags : Tags) (mm : Measurement) : Measurement :=
  tags.foldl
    (fun mm t => mm.modify t.key fun ts => ts.modify t.value fun tv =>
      { tv with series := mark deleted id tv.series }) mm

/-- The tag keys and values of a measurement are among the given ones, and none is deleted. -/
structure Measurement.Within (keys : Bytes → Prop) (values : Bytes → Bytes → Prop) (mm : Measurement) : Prop where
  key : ∀ k ts, mm.tagSet.get k = some ts → keys k ∧ ts.deleted = false
  value : ∀ k ts v tv, mm.tagSet.get k = some ts → ts.tagValues.get v = some tv →
    values k v ∧ tv.deleted = false

namespace Measurement

variable {keys : Bytes → Prop} {values : Bytes → Bytes → Prop} {mm : Measurement}

theorem within_of_empty (h : mm.tagSet = .empty) : mm.Within keys values :=
  ⟨fun k ts hts => by simp [h] at hts, fun k ts v tv hts => by simp [h] at hts⟩

/-- A tag is added. -/
theorem Within.modify (h : mm.Within keys values) {k v : Bytes} (hk : keys k) (hv : values k v)
    (f : TagValue → TagValue) (hf : ∀ tv, (f tv).deleted = tv.deleted) :
    (mm.modify k fun ts => ts.modify v f).Within keys values := by
  have hts : ∀ ts, (mm.tagSet.get k).getD .new = ts → ts.deleted = false ∧
      ∀ v' tv, ts.tagValues.get v' = some tv → values k v' ∧ tv.deleted = false := by
    rintro ts rfl
    cases hget : mm.tagSet.get k with
    | none => exact ⟨rfl, fun v' tv htv => by simp [TagKey.new] at htv⟩
    | some ts => exact ⟨(h.key k ts hget).2, fun v' tv => h.value k ts v' tv hget⟩
  obtain ⟨hdel, hvalues⟩ := hts _ rfl
  refine ⟨fun k' ts' hget => ?_, fun k' ts' v' tv' hget htv => ?_⟩
  · rw [Measurement.modify, get_set] at hget
    split_ifs at hget with hkk
    · cases hget
      exact ⟨hkk ▸ hk, hdel⟩
    · exact h.key k' ts' hget
  · rw [Measurement.modify, get_set] at hget
    split_ifs at hget with hkk
    · cases hget
      subst hkk
      rw [TagKey.modify, get_set] at htv
      split_ifs at htv with hvv
      · cases htv
        subst hvv
        refine ⟨hv, ?_⟩
        rw [hf]
        cases hget : ((mm.tagSet.get k').getD .new).tagValues.get v' with
        | none => rfl
        | some tv => exact (hvalues v' tv hget).2
      · exact hvalues v' tv' htv
    · exact h.value k' ts' v' tv' hget htv

theorem Within.touch (h : mm.Within keys values) {deleted : Bool} {id : ℕ} {tags : Tags}
    (htags : ∀ t ∈ tags, keys t.key ∧ values t.key t.value) : (mm.touch deleted id tags).Within keys values := by
  induction tags generalizing mm with
  | nil => exact h
  | cons t tags ih =>
    obtain ⟨ht, htags⟩ := forall_mem_cons.mp htags
    exact ih (h.modify ht.1 ht.2 _ fun tv => rfl) htags

theorem touch_series (deleted : Bool) (id : ℕ) (tags : Tags) (mm : Measurement) :
    (mm.touch deleted id tags).series = mm.series := by
  induction tags generalizing mm with
  | nil => rfl
  | cons t tags ih => exact ih _

end Measurement

namespace Contents

variable {f : Contents} {sfile : SeriesFile} {name : Bytes} {key : SeriesKey}

section

variable {e : LogEntry} (hkey : e.cached.or (sfile e.seriesID) = some key)
include hkey

/-- A series entry changes the measurement of the series. -/
theorem get_execSeriesEntry :
    (f.execSeriesEntry sfile e).mms.get name =
      if name = key.name then
        some (Measurement.touch (e.flag == logEntrySeriesTombstoneFlag) e.seriesID key.tags
          { (f.mms.get key.name).getD .new with
            deleted := false
            series := mark (e.flag == logEntrySeriesTombstoneFlag) e.seriesID ((f.mms.get key.name).getD .new).series })
      else f.mms.get name := by
  rw [execSeriesEntry, hkey]
  refine (get_set f.mms key.name name _).trans ?_
  split_ifs
  · rfl
  · rfl

theorem measurementSeriesIDs_execSeriesEntry :
    (f.execSeriesEntry sfile e).measurementSeriesIDs name =
      if name = key.name then mark (e.flag == logEntrySeriesTombstoneFlag) e.seriesID (f.measurementSeriesIDs name)
      else f.measurementSeriesIDs name := by
  rw [measurementSeriesIDs, get_execSeriesEntry hkey]
  split_ifs with hname
  · subst hname
    rw [Option.map_some, Option.getD_some, Measurement.touch_series, measurementSeriesIDs]
    cases f.mms.get key.name with
    | none => rfl
    | some mm => rfl
  · rfl

end

/-- The tag keys and values that a file has for a measurement. -/
def Within (f : Contents) (name : Bytes) (keys : Bytes → Prop) (values : Bytes → Bytes → Prop) : Prop :=
  ∀ mm, f.mms.get name = some mm → mm.Within keys values

variable {keys : Bytes → Prop} {values : Bytes → Bytes → Prop}

theorem within_iff : f.Within name keys values ↔
    (∀ k ts, f.tagKey name k = some ts → keys k ∧ ts.deleted = false) ∧
      ∀ k v tv, f.tagValue name k v = some tv → values k v ∧ tv.deleted = false := by
  simp only [Within, tagValue, tagKey, Option.bind_eq_some_iff]
  constructor
  · intro h
    constructor
    · rintro k ts ⟨mm, hmm, hts⟩
      exact (h mm hmm).key k ts hts
    · rintro k v tv ⟨ts, ⟨mm, hmm, hts⟩, htv⟩
      exact (h mm hmm).value k ts v tv hts htv
  · intro h mm hmm
    exact ⟨fun k ts hts => h.1 k ts ⟨mm, hmm, hts⟩,
      fun k ts v tv hts htv => h.2 k v tv ⟨ts, ⟨mm, hmm, hts⟩, htv⟩⟩

theorem within_new : new.Within name keys values := fun mm hmm => by simp [new] at hmm

theorem Within.execSeriesEntry (h : f.Within name keys values) {e : LogEntry}
    (htags : ∀ key, e.cached.or (sfile e.seriesID) = some key → key.name = name →
      ∀ t ∈ key.tags, keys t.key ∧ values t.key t.value) :
      (f.execSeriesEntry sfile e).Within name keys values := by
  cases hkey : e.cached.or (sfile e.seriesID) with
  | none =>
    rw [Contents.execSeriesEntry, hkey]
    exact h
  | some key =>
    intro mm hmm
    rw [get_execSeriesEntry hkey] at hmm
    split_ifs at hmm with hname
    · cases hmm
      subst hname
      refine Measurement.Within.touch ?_ (htags key hkey rfl)
      cases hget : f.mms.get key.name with
      | none => exact Measurement.within_of_empty rfl
      | some mm => exact ⟨(h mm hget).key, (h mm hget).value⟩
    · exact h mm hmm

theorem Within.compactTo (h : f.Within name keys values) : f.compactTo.Within name keys values := by
  intro mm hmm
  rw [Contents.compactTo, get_map, Option.map_eq_some_iff] at hmm
  obtain ⟨mm, hget, rfl⟩ := hmm
  have hmm := h mm hget
  refine ⟨fun k ts hts => ?_, fun k ts v tv hts htv => ?_⟩
  all_goals
    rw [get_map, Option.map_eq_some_iff] at hts
    obtain ⟨ts, hts, rfl⟩ := hts
    have hkey := hmm.key k ts hts
  · rw [if_neg (by simp [hkey.2])]
    exact hkey
  · rw [if_neg (by simp [hkey.2])] at htv
    exact hmm.value k ts v tv hts htv

theorem compactTo_measurementSeriesIDs (f : Contents) (name : Bytes) :
    f.compactTo.measurementSeriesIDs name = f.measurementSeriesIDs name := by
  rw [measurementSeriesIDs, compactTo, get_map, Option.map_map]
  rfl

theorem compactTo_measurement (f : Contents) (name : Bytes) :
    (f.compactTo.measurement name).map Measurement.deleted = (f.measurement name).map Measurement.deleted := by
  rw [measurement, compactTo, get_map, Option.map_map]
  rfl

end Contents

theorem IndexFiles.within_compactTo {files : List Contents} {name : Bytes} {keys : Bytes → Prop}
    {values : Bytes → Bytes → Prop} (h : ∀ f ∈ files, f.Within name keys values) :
    (compactTo files).Within name keys values := by
  simp only [within_iff] at h ⊢
  constructor
  · intro k ts hts
    rw [compactTo_tagKey, Option.map_eq_some_iff] at hts
    obtain ⟨es, hes, rfl⟩ := hts
    cases hfiles : files.filterMap fun f => f.tagKey name k with
    | nil => rw [hfiles] at hes; cases hes
    | cons e es' =>
      rw [hfiles] at hes
      cases hes
      obtain ⟨f, hf, hfe⟩ := mem_filterMap.mp (by rw [hfiles]; exact mem_cons_self)
      exact (h f hf).1 k e hfe
  · intro k v tv htv
    rw [compactTo_tagValue, Option.map_eq_some_iff] at htv
    obtain ⟨es, hes, rfl⟩ := htv
    obtain ⟨rest, hrest⟩ := visibleValues_prefix files name k v
    cases hvis : visibleValues files name k v with
    | nil => rw [hvis] at hes; cases hes
    | cons e es' =>
      rw [hvis] at hes hrest
      cases hes
      obtain ⟨f, hf, hfe⟩ := mem_filterMap.mp (by rw [hrest]; exact mem_cons_self)
      exact (h f hf).2 k v e hfe

/-! ### Roll-overs and compactions -/

/-- What roll-overs and compactions do to a file set. -/
inductive Maintains : FileSet → FileSet → Prop where
  | refl (fs : FileSet) : Maintains fs fs
  | rollOver (fs : FileSet) : Maintains fs (new :: fs)
  | log (pre : FileSet) (f : Contents) (post : FileSet) : Maintains (pre ++ [f] ++ post) (pre ++ f.compactTo :: post)
  | run (pre files post : FileSet) : Maintains (pre ++ files ++ post) (pre ++ IndexFiles.compactTo files :: post)

namespace Maintains

variable {fs fs' : FileSet}

section

variable (h : Maintains fs fs') (name : Bytes)
include h

theorem measurementSeriesIDs : fs'.measurementSeriesIDs name = fs.measurementSeriesIDs name := by
  ext id
  cases h with
  | refl => rfl
  | rollOver => simp [FileSet.mem_measurementSeriesIDs, measurementSeriesIDs, new]
  | log pre f post =>
    simp only [FileSet.mem_measurementSeriesIDs, mem_append, mem_cons, not_mem_nil, or_false,
      or_and_right, exists_or, exists_eq_left, compactTo_measurementSeriesIDs, or_assoc]
  | run pre files post =>
    simp only [FileSet.mem_measurementSeriesIDs, mem_append, mem_cons,
      or_and_right, exists_or, exists_eq_left, IndexFiles.compactTo_measurementSeriesIDs, or_assoc]

theorem flag :
    (fs'.findSome? fun f => f.measurement name).map Measurement.deleted =
      (fs.findSome? fun f => f.measurement name).map Measurement.deleted := by
  cases h with
  | refl => rfl
  | rollOver => rw [FileSet.flag_cons]; rfl
  | log pre f post =>
    rw [append_assoc, singleton_append, FileSet.flag_append, FileSet.flag_append, FileSet.flag_cons,
      FileSet.flag_cons, compactTo_measurement]
  | run pre files post =>
    rw [append_assoc, FileSet.flag_append, FileSet.flag_append, FileSet.flag_cons, FileSet.flag_append,
      IndexFiles.compactTo_measurement]

theorem within {name : Bytes} {keys : Bytes → Prop} {values : Bytes → Bytes → Prop}
    (hfs : ∀ f ∈ fs, f.Within name keys values) : ∀ f ∈ fs', f.Within name keys values := by
  cases h with
  | refl => exact hfs
  | rollOver => exact forall_mem_cons.mpr ⟨within_new, hfs⟩
  | log pre f post =>
    simp only [forall_mem_append, forall_mem_cons] at hfs ⊢
    exact ⟨hfs.1.1, hfs.1.2.1.compactTo, hfs.2⟩
  | run pre files post =>
    simp only [forall_mem_append, forall_mem_cons] at hfs ⊢
    exact ⟨hfs.1.1, IndexFiles.within_compactTo hfs.1.2, hfs.2⟩

theorem ne_nil (hfs : fs ≠ []) : fs' ≠ [] := by
  cases h with
  | refl => exact hfs
  | rollOver => exact cons_ne_nil _ _
  | log pre f post => simp
  | run pre files post => simp

end

end Maintains

/-! ### The series of a partition -/

/-- The key belongs to a series of the measurement. -/
def HasKey (created : List SeriesKey) (name key : Bytes) : Prop :=
  ∃ s ∈ created, s.name = name ∧ ∃ t ∈ s.tags, t.key = key

/-- The key and the value belong to a series of the measurement. -/
def HasValue (created : List SeriesKey) (name key value : Bytes) : Prop :=
  ∃ s ∈ created, s.name = name ∧ ∃ t ∈ s.tags, t.key = key ∧ t.value = value

/-- No tag key or value is deleted in any file, series are listed under their measurements, and those of the series set
are in a file. -/
structure Sound (keyOf : ℕ → SeriesKey) (fs : FileSet) (ss : Finset ℕ) : Prop where
  within : ∀ f ∈ fs, ∀ name, f.Within name (fun _ => True) fun _ _ => True
  listed : ∀ name, ∀ id ∈ fs.measurementSeriesIDs name, (keyOf id).name = name
  known : ∀ id ∈ ss, id ∈ fs.measurementSeriesIDs (keyOf id).name

/-- What is known of a measurement after it was dropped, from the series that were created since. -/
structure Since (keyOf : ℕ → SeriesKey) (name : Bytes) (created : List SeriesKey) (fs : FileSet) (ss : Finset ℕ) :
    Prop where
  within : ∀ f ∈ fs, f.Within name (HasKey created name) (HasValue created name)
  gone : (∀ s ∈ created, s.name ≠ name) →
    (fs.findSome? fun f => f.measurement name).map Measurement.deleted ≠ some false
  alive : ∀ id ∈ ss, (keyOf id).name = name → keyOf id ∈ created

section

variable {keyOf : ℕ → SeriesKey} {fs fs' : FileSet} {ss : Finset ℕ} {name : Bytes} {created : List SeriesKey}

theorem Sound.maintain (h : Sound keyOf fs ss) (hm : Maintains fs fs') : Sound keyOf fs' ss where
  within f hf name := hm.within (fun f hf => h.within f hf name) f hf
  listed name := hm.measurementSeriesIDs name ▸ h.listed name
  known id hid := hm.measurementSeriesIDs _ ▸ h.known id hid

theorem Since.maintain (h : Since keyOf name created fs ss) (hm : Maintains fs fs') :
    Since keyOf name created fs' ss where
  within := hm.within h.within
  gone hnone := hm.flag name ▸ h.gone hnone
  alive := h.alive

/-! ### Adding and deleting a series -/

variable {f : Contents} {sfile : SeriesFile} {id : ℕ}

theorem mem_measurementSeriesIDs_cons :
    id ∈ FileSet.measurementSeriesIDs (f :: fs) name ↔
      id ∈ f.measurementSeriesIDs name ∨ id ∈ fs.measurementSeriesIDs name := by
  simp only [FileSet.mem_measurementSeriesIDs, exists_mem_cons_iff]

theorem Contents.mem_mark {deleted : Bool} {id' : ℕ} {s : Finset ℕ} :
    id' ∈ mark deleted id s ↔ if id' = id then deleted = false else id' ∈ s := by
  cases deleted with
  | true | false => by_cases h : id' = id <;> simp [mark, h]

/-- Series entries of the log file keep to the keys of the series. -/
structure Entry (keyOf : ℕ → SeriesKey) (sfile : SeriesFile) (e : LogEntry) : Prop where
  flag : e.flag = 0 ∨ e.flag = logEntrySeriesTombstoneFlag
  key : ∀ key, e.cached.or (sfile e.seriesID) = some key → key = keyOf e.seriesID

variable {e : LogEntry}

theorem Entry.execEntry (he : Entry keyOf sfile e) : f.execEntry sfile e = f.execSeriesEntry sfile e := by
  rcases he.flag with h | h
  · rw [Contents.execEntry, h]
    rfl
  · rw [Contents.execEntry, h]
    rfl

variable {keys : Bytes → Prop} {values : Bytes → Bytes → Prop}

theorem Contents.Within.mono {keys' : Bytes → Prop} {values' : Bytes → Bytes → Prop}
    (h : f.Within name keys values) (hkeys : ∀ k, keys k → keys' k)
    (hvalues : ∀ k v, values k v → values' k v) :
    f.Within name keys' values' := fun mm hmm =>
  ⟨fun k ts hts => ((h mm hmm).key k ts hts).imp_left (hkeys k), fun k ts v tv hts htv =>
    ((h mm hmm).value k ts v tv hts htv).imp_left (hvalues k v)⟩

section

variable (he : Entry keyOf sfile e)
include he

/-- A series entry changes nothing but its own series. -/
theorem Entry.mem_of_ne (hne : id ≠ e.seriesID) :
    id ∈ (f.execEntry sfile e).measurementSeriesIDs name ↔ id ∈ f.measurementSeriesIDs name := by
  rw [he.execEntry]
  cases hkey : e.cached.or (sfile e.seriesID) with
  | none => rw [execSeriesEntry, hkey]
  | some key =>
    rw [measurementSeriesIDs_execSeriesEntry hkey]
    split_ifs
    · rw [mem_mark, if_neg hne]
    · rfl

/-- A series entry lists its series under the measurement of the series only. -/
theorem Entry.mem_self (hmem : e.seriesID ∈ (f.execEntry sfile e).measurementSeriesIDs name) :
    e.seriesID ∈ f.measurementSeriesIDs name ∨ (keyOf e.seriesID).name = name := by
  rw [he.execEntry] at hmem
  cases hkey : e.cached.or (sfile e.seriesID) with
  | none =>
    rw [execSeriesEntry, hkey] at hmem
    exact .inl hmem
  | some key =>
    rw [measurementSeriesIDs_execSeriesEntry hkey] at hmem
    split_ifs at hmem with hname
    · exact .inr (by rw [hname, he.key key hkey])
    · exact .inl hmem

theorem Entry.mem_added (hflag : e.flag = 0) {key : SeriesKey}
    (hkey : e.cached.or (sfile e.seriesID) = some key) :
    e.seriesID ∈ (f.execEntry sfile e).measurementSeriesIDs (keyOf e.seriesID).name := by
  rw [he.execEntry, measurementSeriesIDs_execSeriesEntry hkey, if_pos (by rw [he.key key hkey]),
    mem_mark, if_pos rfl, hflag]
  rfl

/-- A series entry touches the measurement of its series only. -/
theorem Entry.get_of_ne (hne : (keyOf e.seriesID).name ≠ name) :
    (f.execEntry sfile e).mms.get name = f.mms.get name := by
  rw [he.execEntry]
  cases hkey : e.cached.or (sfile e.seriesID) with
  | none => rw [execSeriesEntry, hkey]
  | some key =>
    rw [get_execSeriesEntry hkey, if_neg]
    rw [he.key key hkey]
    exact hne.symm

theorem Entry.within (hf : f.Within name keys values)
    (htags : (keyOf e.seriesID).name = name → ∀ t ∈ (keyOf e.seriesID).tags, keys t.key ∧
      values t.key t.value) :
    (f.execEntry sfile e).Within name keys values := by
  rw [he.execEntry]
  refine hf.execSeriesEntry fun key hkey hname => ?_
  rw [he.key key hkey] at hname ⊢
  exact htags hname

end

variable {ss' : Finset ℕ}

theorem Sound.entry (h : Sound keyOf (f :: fs) ss) (he : Entry keyOf sfile e)
    (hss : ∀ id ∈ ss', id = e.seriesID ∧ e.flag = 0 ∧ e.cached.or (sfile e.seriesID) ≠ none ∨
      id ≠ e.seriesID ∧ id ∈ ss) : Sound keyOf (f.execEntry sfile e :: fs) ss' where
  within := by
    obtain ⟨hf, hfs⟩ := forall_mem_cons.mp h.within
    exact forall_mem_cons.mpr ⟨fun name => he.within (hf name) fun _ _ _ => ⟨trivial, trivial⟩, hfs⟩
  listed name id hid := by
    rcases mem_measurementSeriesIDs_cons.mp hid with hid | hid
    · by_cases heq : id = e.seriesID
      · subst heq
        exact (he.mem_self hid).elim (fun hid => h.listed name _ (mem_measurementSeriesIDs_cons.mpr (.inl hid))) id
      · exact h.listed name id (mem_measurementSeriesIDs_cons.mpr (.inl ((he.mem_of_ne heq).mp hid)))
    · exact h.listed name id (mem_measurementSeriesIDs_cons.mpr (.inr hid))
  known id hid := by
    rcases hss id hid with ⟨rfl, hflag, hkey⟩ | ⟨hne, hid⟩
    · obtain ⟨key, hkey⟩ := Option.ne_none_iff_exists'.mp hkey
      exact mem_measurementSeriesIDs_cons.mpr (.inl (he.mem_added hflag hkey))
    · have hid := mem_measurementSeriesIDs_cons.mp (h.known id hid)
      exact mem_measurementSeriesIDs_cons.mpr (hid.imp_left (he.mem_of_ne hne).mpr)

variable {created' : List SeriesKey}

theorem HasKey.mono (hsub : created ⊆ created') {k : Bytes} (h : HasKey created name k) : HasKey created' name k := by
  obtain ⟨s, hs, h⟩ := h
  exact ⟨s, hsub hs, h⟩

theorem HasValue.mono (hsub : created ⊆ created') {k v : Bytes}
    (h : HasValue created name k v) : HasValue created' name k v := by
  obtain ⟨s, hs, h⟩ := h
  exact ⟨s, hsub hs, h⟩

theorem Since.entry (h : Since keyOf name created (f :: fs) ss) (he : Entry keyOf sfile e) (hsub : created ⊆ created')
    (hmem : (keyOf e.seriesID).name = name → keyOf e.seriesID ∈ created')
    (hss : ∀ id ∈ ss', id = e.seriesID ∨ id ∈ ss) :
    Since keyOf name created' (f.execEntry sfile e :: fs) ss' where
  within := by
    have hwithin : ∀ g ∈ f :: fs, g.Within name (HasKey created' name) (HasValue created' name) := fun g hg =>
      (h.within g hg).mono (fun _ => HasKey.mono hsub) fun _ _ => HasValue.mono hsub
    obtain ⟨hf, hfs⟩ := forall_mem_cons.mp hwithin
    refine forall_mem_cons.mpr ⟨he.within hf fun hname t ht => ?_, hfs⟩
    exact ⟨⟨_, hmem hname, hname, t, ht, rfl⟩, ⟨_, hmem hname, hname, t, ht, rfl, rfl⟩⟩
  gone hnone := by
    have hne : (keyOf e.seriesID).name ≠ name := fun hname => hnone _ (hmem hname) hname
    have hgone := h.gone fun s hs => hnone s (hsub hs)
    rw [FileSet.flag_cons] at hgone ⊢
    rwa [measurement, he.get_of_ne hne]
  alive id hid hname := by
    rcases hss id hid with rfl | hid
    · exact hmem hname
    · exact hsub (h.alive id hid hname)

/-! ### Dropping a measurement -/

/-- Entries that leave a measurement alone. -/
theorem execEntries_get {es : List LogEntry}
    (h : ∀ e ∈ es, ∀ f : Contents, (f.execEntry sfile e).mms.get name = f.mms.get name)
    (f : Contents) : (f.execEntries sfile es).mms.get name = f.mms.get name := by
  induction es generalizing f with
  | nil => rfl
  | cons e es ih =>
    obtain ⟨he, hes⟩ := forall_mem_cons.mp h
    exact (ih hes _).trans (he f)

/-- What an active log file knows of a measurement that was dropped. -/
def dropped : Measurement := { deleted := true, tagSet := .empty, series := ∅ }

theorem deleteSeriesEntry_entry (hsfile : ∀ id key, sfile id = some key → key = keyOf id) (id : ℕ) :
    Entry keyOf sfile (Partition.deleteSeriesEntry id) :=
  ⟨.inr rfl, fun key hkey => hsfile id key hkey⟩

/-- The entries for the tag keys and values of a measurement. -/
theorem execEntry_get_of_tagEntry
    (hflag : e.flag = logEntryTagKeyTombstoneFlag ∨ e.flag = logEntryTagValueTombstoneFlag) (hne : name ≠ e.name)
    (f : Contents) : (f.execEntry sfile e).mms.get name = f.mms.get name := by
  rcases hflag with h | h
  all_goals
    rw [execEntry, h]
    exact (get_set f.mms e.name name _).trans (if_neg hne)

theorem of_mem_deleteTagKeyEntries {key : Bytes} {es : List TagKey}
    (he : e ∈ Partition.deleteTagKeyEntries name key es) :
    (e.flag = logEntryTagKeyTombstoneFlag ∨ e.flag = logEntryTagValueTombstoneFlag) ∧ e.name = name := by
  rw [Partition.deleteTagKeyEntries] at he
  rcases mem_append.mp he with he | he
  · split_ifs at he
    · exact absurd he not_mem_nil
    · rw [mem_singleton.mp he]
      exact ⟨.inl rfl, rfl⟩
  · obtain ⟨v, -, he⟩ := mem_flatMap.mp he
    split_ifs at he
    · exact absurd he not_mem_nil
    · rw [mem_singleton.mp he]
      exact ⟨.inr rfl, rfl⟩

/-- The last entry resets the measurement; other measurements are left alone. -/
theorem get_dropMeasurement {dropName : Bytes} (hsfile : ∀ id key, sfile id = some key → key = keyOf id)
    (hlisted : ∀ id ∈ fs.measurementSeriesIDs dropName, (keyOf id).name = dropName) (f : Contents) :
    (f.execEntries sfile (Partition.dropMeasurementEntries fs dropName)).mms.get name =
      if name = dropName then some dropped else f.mms.get name := by
  rw [Partition.dropMeasurementEntries, execEntries, ← append_assoc, foldl_append, foldl_cons, foldl_nil]
  refine (get_set _ dropName name _).trans ?_
  by_cases hname : name = dropName
  · rw [if_pos hname, if_pos hname]
    rfl
  · rw [if_neg hname, if_neg hname]
    refine execEntries_get (fun e he f => ?_) f
    rcases mem_append.mp he with he | he
    · obtain ⟨k, -, he⟩ := mem_flatMap.mp he
      obtain ⟨hflag, heq⟩ := of_mem_deleteTagKeyEntries he
      exact execEntry_get_of_tagEntry hflag (heq.symm ▸ hname) f
    · obtain ⟨id, hid, rfl⟩ := mem_map.mp he
      refine (deleteSeriesEntry_entry hsfile id).get_of_ne ?_
      exact hlisted id ((Finset.mem_sort _).mp hid) ▸ Ne.symm hname

variable {dropName : Bytes} {f' : Contents}

section

variable (hget : ∀ name, f'.mms.get name = if name = dropName then some dropped else f.mms.get name)
include hget

theorem within_of_get (hf : f.Within name keys values) : f'.Within name keys values := by
  intro mm hmm
  rw [hget] at hmm
  split_ifs at hmm
  · cases hmm
    exact Measurement.within_of_empty rfl
  · exact hf mm hmm

theorem measurementSeriesIDs_of_get :
    f'.measurementSeriesIDs name = if name = dropName then ∅ else f.measurementSeriesIDs name := by
  rw [measurementSeriesIDs, hget]
  split_ifs
  · rfl
  · rfl

end

section

variable (h : Sound keyOf (f :: fs) ss)
  (hget : ∀ name, f'.mms.get name = if name = dropName then some dropped else f.mms.get name)
include h hget

theorem Sound.drop : Sound keyOf (f' :: fs) (ss \ FileSet.measurementSeriesIDs (f :: fs) dropName) where
  within := by
    obtain ⟨hf, hfs⟩ := forall_mem_cons.mp h.within
    exact forall_mem_cons.mpr ⟨fun name => within_of_get hget (hf name), hfs⟩
  listed name id hid := by
    refine h.listed name id ?_
    rw [mem_measurementSeriesIDs_cons, measurementSeriesIDs_of_get hget] at hid
    rw [mem_measurementSeriesIDs_cons]
    split_ifs at hid
    · exact hid.imp_left nofun
    · exact hid
  known id hid := by
    obtain ⟨hid, hnot⟩ := Finset.mem_sdiff.mp hid
    have hne : (keyOf id).name ≠ dropName := fun heq => hnot (heq ▸ h.known id hid)
    have hknown := h.known id hid
    rw [mem_measurementSeriesIDs_cons] at hknown ⊢
    rwa [measurementSeriesIDs_of_get hget, if_neg hne]

omit h hget in
theorem Since.drop (h : Since keyOf name created (f :: fs) ss)
    (hget : ∀ name, f'.mms.get name = if name = dropName then some dropped else f.mms.get name)
    (hss : ss' ⊆ ss) : Since keyOf name created (f' :: fs) ss' where
  within := by
    obtain ⟨hf, hfs⟩ := forall_mem_cons.mp h.within
    exact forall_mem_cons.mpr ⟨within_of_get hget hf, hfs⟩
  gone hnone := by
    have hgone := h.gone hnone
    rw [FileSet.flag_cons, measurement] at hgone ⊢
    rw [hget]
    split_ifs
    · change some true ≠ some false
      decide
    · exact hgone
  alive id hid := h.alive id (hss hid)

/-- A measurement is dropped whose tag keys are in the active log file only. -/
theorem Sound.since (hkeys : ∀ g ∈ fs, ∀ key, g.tagKey dropName key = none) :
    Since keyOf dropName [] (f' :: fs) (ss \ FileSet.measurementSeriesIDs (f :: fs) dropName) where
  within := by
    refine forall_mem_cons.mpr ⟨fun mm hmm => ?_, fun g hg => within_iff.mpr ⟨?_, ?_⟩⟩
    · rw [hget, if_pos rfl] at hmm
      cases hmm
      exact Measurement.within_of_empty rfl
    · intro k ts hts
      rw [hkeys g hg] at hts
      cases hts
    · intro k v tv htv
      rw [tagValue, hkeys g hg] at htv
      cases htv
  gone _ := by
    rw [FileSet.flag_cons, measurement, hget, if_pos rfl]
    change some true ≠ some false
    decide
  alive id hid hname := by
    obtain ⟨hid, hnot⟩ := Finset.mem_sdiff.mp hid
    exact absurd (hname ▸ h.known id hid) hnot

end

end

end InfluxDB.Tsi
