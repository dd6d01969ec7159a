import InfluxDB.Tsi.LogFile

/-!
    The queries of a file set, newest file first.  A measurement, tag key or tag value is that of the
    newest file that has it.  Iterators merge the files.  The series of a tag value are gathered from
    the oldest file on; the tombstones of a file are taken away when the next newer file is reached,
    so those of the newest file never are.
-/

namespace InfluxDB.Tsi

open Lib List Option SortedMap

/-- `MergeTagKeyIterators` and `MergeTagValueIterators`: the keys with their deleted flags, which are those of the first
iterator that has the key; nil if there is no iterator. -/
def mergeIterators {α : Type} (deleted : α → Bool) : List (SortedMap Bytes α) → Option (SortedMap Bytes Bool)
  | [] => none
  | itrs => some ((merge itrs).map fun _ es => (es.head?.map deleted).getD false)

theorem mergeIterators_eq_iff {α : Type} (deleted : α → Bool) (a b : List (SortedMap Bytes α)) :
    mergeIterators deleted a = mergeIterators deleted b ↔
      (a = [] ↔ b = []) ∧
        ∀ k, (a.findSome? fun m => m.get k).map deleted = (b.findSome? fun m => m.get k).map deleted := by
  cases a with
  | nil => cases b with
    | nil => exact iff_of_true rfl ⟨Iff.rfl, fun _ => rfl⟩
    | cons m b => exact iff_of_false nofun fun h => cons_ne_nil _ _ (h.1.mp rfl)
  | cons m a => cases b with
    | nil => exact iff_of_false nofun fun h => cons_ne_nil _ _ (h.1.mpr rfl)
    | cons m' b =>
      rw [mergeIterators.eq_2 _ _ (cons_ne_nil m a), mergeIterators.eq_2 _ _ (cons_ne_nil m' b), some.injEq]
      constructor
      · intro heq
        refine ⟨iff_of_false (cons_ne_nil _ _) (cons_ne_nil _ _), fun k => ?_⟩
        rw [← get_merge_head _ _ false, heq, get_merge_head]
      · rintro ⟨-, heq⟩
        exact ext fun k => by rw [get_merge_head, get_merge_head, heq]

/-- The contents of the files of a set, newest first. -/
abbrev FileSet := List Contents

namespace FileSet

variable (fs : FileSet) (name key value : Bytes)

/-- The measurement of the newest file that has it, unless it is deleted there. -/
def measurement : Option Measurement :=
  match fs.findSome? fun f => f.measurement name with
  | some e => if e.deleted then none else some e
  | none => none

/-- `MeasurementSeriesIDIterator`, as the set of its ids. -/
def measurementSeriesIDs : Finset ℕ := (fs.map fun f => f.measurementSeriesIDs name).foldr (· ∪ ·) ∅

/-- `TagKeyIterator`, as what it returns. -/
def tagKeyIterator : Option (SortedMap Bytes Bool) :=
  mergeIterators TagKey.deleted (fs.filterMap fun f => f.tagKeyIterator name)

def hasTagKey : Bool :=
  match fs.findSome? fun f => f.tagKey name key with
  | some e => !e.deleted
  | none => false

def hasTagValue : Bool :=
  match fs.findSome? fun f => f.tagValue name key value with
  | some e => !e.deleted
  | none => false

/-- `TagValueIterator`, as what it returns. -/
def tagValueIterator : Option (SortedMap Bytes Bool) :=
  mergeIterators TagValue.deleted (fs.filterMap fun f => f.tagValueIterator name key)

/-- One turn of the loop of `TagValueSeriesIDIterator`: the tombstones of the previous file and the set. -/
def tagValueSeriesIDStep (st : Option (Finset ℕ) × Finset ℕ) (f : Contents) : Option (Finset ℕ) × Finset ℕ :=
  let ss :=
    match st.1 with
    | some ftss => if ftss.card > 0 then st.2 \ ftss else st.2
    | none => st.2
  let ss :=
    match f.tagValueSeriesIDSet name key value with
    | some fss => ss ∪ fss
    | none => ss
  (some f.tombstoneSeriesIDSet, ss)

/-- `TagValueSeriesIDIterator`, as the set of its ids; the loop starts with the oldest file. -/
def tagValueSeriesIDs : Finset ℕ := (fs.reverse.foldl (tagValueSeriesIDStep name key value) (none, ∅)).2

end FileSet

/-! ### Iterators -/

namespace FileSet

variable {fs fs' : FileSet} {name key value : Bytes} {id : ℕ}

theorem filterMap_tagKeyIterator (fs : FileSet) (name k : Bytes) :
    (fs.filterMap fun f => f.tagKeyIterator name).filterMap (fun m => m.get k) =
      fs.filterMap fun f => f.tagKey name k := by
  rw [filterMap_filterMap]
  refine filterMap_congr fun f _ => ?_
  rw [Contents.tagKeyIterator, Contents.tagKey, bind_map]
  rfl

theorem filterMap_tagValueIterator (fs : FileSet) (name key v : Bytes) :
    (fs.filterMap fun f => f.tagValueIterator name key).filterMap (fun m => m.get v) =
      fs.filterMap fun f => f.tagValue name key v := by
  rw [filterMap_filterMap]
  refine filterMap_congr fun f _ => ?_
  rw [Contents.tagValueIterator, Contents.tagValue, bind_map]
  rfl

theorem tagKeyIterator_eq_iff :
    fs.tagKeyIterator name = fs'.tagKeyIterator name ↔
      ((∀ f ∈ fs, f.measurement name = none) ↔ ∀ f ∈ fs', f.measurement name = none) ∧
        ∀ k, (fs.findSome? fun f => f.tagKey name k).map TagKey.deleted =
          (fs'.findSome? fun f => f.tagKey name k).map TagKey.deleted := by
  rw [tagKeyIterator, tagKeyIterator, mergeIterators_eq_iff]
  simp only [← head?_filterMap, filterMap_tagKeyIterator, filterMap_eq_nil_iff]
  simp only [Contents.tagKeyIterator, map_eq_none_iff, Contents.measurement]

theorem tagValueIterator_eq_iff :
    fs.tagValueIterator name key = fs'.tagValueIterator name key ↔
      ((∀ f ∈ fs, f.tagKey name key = none) ↔ ∀ f ∈ fs', f.tagKey name key = none) ∧
        ∀ v, (fs.findSome? fun f => f.tagValue name key v).map TagValue.deleted =
          (fs'.findSome? fun f => f.tagValue name key v).map TagValue.deleted := by
  rw [tagValueIterator, tagValueIterator, mergeIterators_eq_iff]
  simp only [← head?_filterMap, filterMap_tagValueIterator, filterMap_eq_nil_iff]
  simp only [Contents.tagValueIterator, map_eq_none_iff]

theorem mem_measurementSeriesIDs :
    id ∈ fs.measurementSeriesIDs name ↔ ∃ f ∈ fs, id ∈ f.measurementSeriesIDs name := by
  rw [measurementSeriesIDs]
  induction fs with
  | nil => simp
  | cons f fs ih => rw [map_cons, foldr_cons, Finset.mem_union, ih, exists_mem_cons_iff]

/-! ### The series of a tag value -/

/-- The series is live: a file lists it, and neither the newest such file nor a newer file deletes it. -/
def Live (fs : FileSet) (name key value : Bytes) (id : ℕ) : Prop :=
  ∃ newer f older, fs = newer ++ f :: older ∧ f.Lists name key value id ∧
    (∀ g ∈ newer, ¬ g.Lists name key value id) ∧ ∀ g ∈ newer ++ [f], id ∉ g.tombstoneSeriesIDSet

theorem not_live_nil : ¬ Live [] name key value id := by
  rintro ⟨newer, f, older, h, -⟩
  exact append_ne_nil_of_right_ne_nil _ (cons_ne_nil _ _) h.symm

theorem live_cons {f : Contents} :
    Live (f :: fs) name key value id ↔
      id ∉ f.tombstoneSeriesIDSet ∧ (f.Lists name key value id ∨ Live fs name key value id) := by
  constructor
  · rintro ⟨newer, g, older, h, hlists, hnewer, htomb⟩
    cases newer with
    | nil =>
      obtain ⟨rfl, rfl⟩ := cons.inj h
      exact ⟨htomb f (by simp), .inl hlists⟩
    | cons f' newer =>
      obtain ⟨rfl, rfl⟩ := cons.inj h
      refine ⟨htomb f mem_cons_self, .inr ⟨newer, g, older, rfl, hlists, ?_, ?_⟩⟩
      · exact (forall_mem_cons.mp hnewer).2
      · exact (forall_mem_cons.mp htomb).2
  · rintro ⟨htomb, hor⟩
    by_cases hf : f.Lists name key value id
    · exact ⟨[], f, fs, rfl, hf, nofun, by simpa using htomb⟩
    · obtain ⟨newer, g, older, rfl, hlists, hnewer, htombs⟩ := hor.resolve_left hf
      refine ⟨f :: newer, g, older, rfl, hlists, ?_, ?_⟩
      · exact forall_mem_cons.mpr ⟨hf, hnewer⟩
      · exact forall_mem_cons.mpr ⟨htomb, htombs⟩

theorem live_append :
    Live (fs ++ fs') name key value id ↔
      Live fs name key value id ∨ (∀ f ∈ fs, id ∉ f.tombstoneSeriesIDSet) ∧ Live fs' name key value id := by
  induction fs with
  | nil => simp [not_live_nil]
  | cons f fs ih =>
    rw [cons_append, live_cons, live_cons, ih, forall_mem_cons]
    tauto

theorem live_iff_of_forall_notMem (h : ∀ f ∈ fs, id ∉ f.tombstoneSeriesIDSet) :
    Live fs name key value id ↔ ∃ f ∈ fs, f.Lists name key value id := by
  induction fs with
  | nil => simp [not_live_nil]
  | cons f fs ih =>
    obtain ⟨hf, hfs⟩ := forall_mem_cons.mp h
    rw [live_cons, ih hfs, and_iff_right hf, exists_mem_cons_iff]

theorem mem_tagValueSeriesIDStep (st : Option (Finset ℕ) × Finset ℕ) (f : Contents) :
    id ∈ (tagValueSeriesIDStep name key value st f).2 ↔
      id ∈ st.2 \ st.1.getD ∅ ∨ f.Lists name key value id := by
  obtain ⟨ftss, ss⟩ := st
  have hsub : (match ftss with
      | some ftss => if ftss.card > 0 then ss \ ftss else ss
      | none => ss) = ss \ ftss.getD ∅ := by
    cases ftss with
    | none => rw [getD_none, Finset.sdiff_empty]
    | some ftss =>
      dsimp only [getD_some]
      split_ifs with hcard
      · rfl
      · rw [Finset.card_eq_zero.mp (Nat.le_zero.mp (not_lt.mp hcard)), Finset.sdiff_empty]
  rw [tagValueSeriesIDStep, ← Contents.mem_tagValueSeriesIDSet]
  rw [hsub]
  cases f.tagValueSeriesIDSet name key value with
  | none => simp
  | some fss => simp

/-- What is gathered from some files, without the tombstones of the newest of them, are the live series. -/
theorem mem_gathered (fs : FileSet) :
    id ∈ (fs.foldr (fun f st => tagValueSeriesIDStep name key value st f) (none, ∅)).2 \
        (fs.foldr (fun f st => tagValueSeriesIDStep name key value st f) (none, ∅)).1.getD ∅ ↔
      Live fs name key value id := by
  induction fs with
  | nil => simpa using not_live_nil
  | cons f fs ih =>
    rw [foldr_cons, Finset.mem_sdiff, mem_tagValueSeriesIDStep, ih, live_cons]
    exact ⟨fun ⟨hor, htomb⟩ => ⟨htomb, hor.symm⟩, fun ⟨htomb, hor⟩ => ⟨hor.symm, htomb⟩⟩

/-- The tombstones of the newest file are not taken away. -/
theorem mem_tagValueSeriesIDs_cons (f : Contents) (fs : FileSet) :
    id ∈ tagValueSeriesIDs (f :: fs) name key value ↔ f.Lists name key value id ∨ Live fs name key value id := by
  rw [tagValueSeriesIDs, foldl_reverse, foldr_cons, mem_tagValueSeriesIDStep, mem_gathered, or_comm]

end FileSet

/-- The series of a tag value are the live ones if and only if the newest file deletes no series that it lists under
the value or that is live in the files behind it. -/
theorem tagValueSeriesIDs_live_iff (fs : FileSet) (name key value : Bytes) :
    (∀ id, id ∈ fs.tagValueSeriesIDs name key value ↔ fs.Live name key value id) ↔
      ∀ f ∈ fs.head?, ∀ id ∈ f.tombstoneSeriesIDSet,
        ¬ f.Lists name key value id ∧ ¬ FileSet.Live fs.tail name key value id := by
  cases fs with
  | nil => exact iff_of_true (fun id => iff_of_false (Finset.notMem_empty id) FileSet.not_live_nil) nofun
  | cons f fs =>
    simp only [FileSet.mem_tagValueSeriesIDs_cons, FileSet.live_cons, head?_cons, mem_some_iff,
      forall_eq', tail_cons, ← not_or]
    exact forall_congr' fun id => by tauto

/-- The newest log file deletes the series 1, which an older log file added. -/
theorem tagValueSeriesIDs_newest_tombstone :
    ¬ ∀ id, id ∈ FileSet.tagValueSeriesIDs
        [Contents.new.execEntries (fun _ => some ⟨[109], [⟨[107], [118]⟩]⟩) [⟨1, 1, [], [], [], none⟩],
          Contents.new.execEntries (fun _ => some ⟨[109], [⟨[107], [118]⟩]⟩) [⟨0, 1, [], [], [], none⟩]]
        [109] [107] [118] ↔
      FileSet.Live
        [Contents.new.execEntries (fun _ => some ⟨[109], [⟨[107], [118]⟩]⟩) [⟨1, 1, [], [], [], none⟩],
          Contents.new.execEntries (fun _ => some ⟨[109], [⟨[107], [118]⟩]⟩) [⟨0, 1, [], [], [], none⟩]]
        [109] [107] [118] id := by
  intro h
  have hlive := (h 1).mp (by decide +kernel)
  exact absurd (FileSet.live_cons.mp hlive).1 (by decide +kernel)

end InfluxDB.Tsi
