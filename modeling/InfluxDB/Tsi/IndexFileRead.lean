import Mathlib.Data.Finset.Fold
import InfluxDB.Tsi.IndexFile

/-!
    The index file that a log file is compacted to answers as the log file does.
-/

namespace InfluxDB.Tsi

open Lib Lib.RobinHood List IndexFile SortedMap IndexFileTrailer

variable {c : Codec} {mms : List (Bytes × Measurement)} {t : IndexFileTrailer}

/-! ### The file is opened -/

/-- A log file that can be written as an index file: no empty tag key, no empty value of a tag key
that is not deleted, and ids of 32 bits. -/
structure Contents.Storable (f : Contents) : Prop where
  measurement : ∀ mm ∈ f.mms.entries, mm.2.Storable
  series : ∀ mm ∈ f.mms.entries, Ids32 mm.2.series
  seriesIDSet : Ids32 f.seriesIDSet
  tombstoneSeriesIDSet : Ids32 f.tombstoneSeriesIDSet

/-- What the measurement block is given for a measurement, whose tag block stands in the data. -/
structure InfoFor (c : Codec) (data : Bytes) (mm : Bytes × Measurement) (info : Bytes × MeasurementInfo) : Prop where
  name : info.1 = mm.1
  deleted : info.2.deleted = mm.2.deleted
  series : info.2.series = mm.2.series
  bound : info.2.tagBlockOffset + info.2.tagBlockSize ≤ data.length
  block : ∃ buf blk, cutAt data info.2.tagBlockOffset info.2.tagBlockSize = some buf ∧
    TagBlock.unmarshalBinary buf = .ok blk ∧ BlockFor c mm.2 blk

theorem writeTagsetsTo_spec (c : Codec) (h : ∀ mm ∈ mms, mm.2.Storable) (n : ℕ) :
    ∃ bytes infos, writeTagsetsTo c n mms = .ok (bytes, infos) ∧
      infos.map (fun info => (info.1, info.2.series)) = mms.map (fun mm => (mm.1, mm.2.series)) ∧
      ∀ pre post, pre.length = n → (pre ++ (bytes ++ post)).length < 2 ^ 63 →
        Forall₂ (InfoFor c (pre ++ (bytes ++ post))) mms infos := by
  induction mms generalizing n with
  | nil => exact ⟨[], [], rfl, rfl, fun _ _ _ _ => .nil⟩
  | cons mm mms ih =>
    obtain ⟨hmm, h⟩ := forall_mem_cons.mp h
    obtain ⟨block, hblock, hread⟩ := writeTagsetTo_spec c hmm
    obtain ⟨bytes, infos, hmms, hmap, hinfos⟩ := ih h (n + block.length)
    refine ⟨block ++ bytes, (mm.1, { deleted := mm.2.deleted, tagBlockOffset := n, tagBlockSize := block.length
                                     series := mm.2.series }) :: infos, ?_, ?_, fun pre post hpre hlen => .cons ?_ ?_⟩
    · rw [writeTagsetsTo, hblock]
      dsimp only
      rw [hmms]
    · rw [map_cons, map_cons, hmap]
    · have hbounds := hlen
      simp only [length_append] at hbounds
      obtain ⟨blk, hblk, hfor⟩ := hread (by omega)
      refine ⟨rfl, rfl, rfl, ?_, block, blk, ?_, hblk, hfor⟩
      · simp only [length_append]
        omega
      · rw [append_assoc, ← hpre, cutAt_append]
    · have hassoc : pre ++ (block ++ bytes ++ post) = pre ++ block ++ (bytes ++ post) := by
        simp only [append_assoc]
      rw [hassoc] at hlen ⊢
      exact hinfos (pre ++ block) post (by rw [length_append, hpre]) hlen

theorem IndexFileTrailer.parses (h : t.measurementBlockOffset + t.measurementBlockSize < 2 ^ 64 ∧
    t.seriesIDSetOffset + t.seriesIDSetSize < 2 ^ 64 ∧
      t.tombstoneSeriesIDSetOffset + t.tombstoneSeriesIDSetSize < 2 ^ 64) :
    Parses parse t.fields (· = t) := by
  refine (parses_uint (by omega)).bind_eq ?_
  refine (parses_uint (by omega)).bind_eq ?_
  refine (parses_uint (by omega)).bind_eq ?_
  refine (parses_uint (by omega)).bind_eq ?_
  refine (parses_uint (by omega)).bind_eq ?_
  refine (parses_uint (by omega)).map ?_
  rintro _ rfl
  rfl

/-- The sections of an index file are found again. -/
theorem IndexFile.unmarshalBinary_sections {blocks mbytes sset tset data : Bytes}
    (ht : t = { measurementBlockOffset := fileSignature.length + blocks.length, measurementBlockSize := mbytes.length
                seriesIDSetOffset := fileSignature.length + blocks.length + mbytes.length,
                seriesIDSetSize := sset.length
                tombstoneSeriesIDSetOffset := fileSignature.length + blocks.length + mbytes.length + sset.length
                tombstoneSeriesIDSetSize := tset.length })
    (hdata : data = fileSignature ++ (blocks ++ (mbytes ++ (sset ++ (tset ++ t.bytes))))) (hlen : data.length < 2 ^ 63)
    {mblk : MeasurementBlock} (hmblk : MeasurementBlock.unmarshalBinary mbytes = .ok mblk)
      {es : List MeasurementBlockElem}
    (hes : mblk.iterator c = some es) {tblks : SortedMap Bytes TagBlock}
    (htblks : unmarshalTagBlocks data .empty es = .ok tblks) :
    unmarshalBinary c data =
      .ok { tblks := tblks, mblk := mblk, seriesIDSetData := sset, tombstoneSeriesIDSetData := tset } := by
  have hbounds := hlen
  rw [hdata] at hbounds
  simp only [length_append] at hbounds
  have hparse : Parses parse t.fields (· = t) := by
    refine parses ?_
    rw [ht]
    dsimp only
    omega
  have hread : readIndexFileTrailer data = .ok t := by
    have hread := readTrailer_append hparse legacySketchInfo rfl .unsupportedIndexFileVersion
      (fileSignature ++ blocks ++ mbytes ++ sset ++ tset)
    rwa [append_assoc, append_assoc, append_assoc, append_assoc, ← bytes, ← hdata] at hread
  have hlong : fileSignature.length ≤ data.length := by
    rw [hdata, length_append]
    omega
  obtain ⟨-, hle, hdrop⟩ := cutAt_of_drop hlong (by rw [hdata, drop_left])
  obtain ⟨hmslice, hle, hdrop⟩ := cutAt_of_drop hle hdrop
  obtain ⟨hsslice, hle, hdrop⟩ := cutAt_of_drop hle hdrop
  obtain ⟨htslice, -⟩ := cutAt_of_drop hle hdrop
  have hsignature : data.take fileSignature.length = fileSignature := by rw [hdata, take_left]
  rw [unmarshalBinary, if_neg hlong.not_gt, if_neg (not_not.mpr hsignature), hread]
  rw [ht]
  dsimp only
  rw [hsslice, htslice, hmslice]
  dsimp only
  rw [hmblk]
  dsimp only
  rw [hes]
  dsimp only
  rw [htblks]

/-- Tag blocks are found by the names of their measurements. -/
theorem IndexFile.unmarshalTagBlocks_spec {data : Bytes} {es : List MeasurementBlockElem}
    (h : Forall₂ (fun mm e => e.name = mm.1 ∧ ∃ buf blk, cutAt data e.tagBlockOffset e.tagBlockSize = some buf ∧
      TagBlock.unmarshalBinary buf = .ok blk ∧ BlockFor c mm.2 blk) mms es)
    (hnodup : (mms.map Prod.fst).Nodup) (tblks : SortedMap Bytes TagBlock) :
    ∃ tblks', unmarshalTagBlocks data tblks es = .ok tblks' ∧
      (∀ mm ∈ mms, ∃ blk, tblks'.get mm.1 = some blk ∧ BlockFor c mm.2 blk) ∧
      ∀ name, name ∉ mms.map Prod.fst → tblks'.get name = tblks.get name := by
  induction h generalizing tblks with
  | nil => exact ⟨tblks, rfl, forall_mem_nil _, fun _ _ => rfl⟩
  | cons hmm hmms ih =>
    obtain ⟨hname, buf, blk, hbuf, hblk, hfor⟩ := hmm
    obtain ⟨hnew, hnodup⟩ := nodup_cons.mp hnodup
    obtain ⟨tblks', heq, hfound, habsent⟩ := ih hnodup (tblks.set _ blk)
    refine ⟨tblks', ?_, forall_mem_cons.mpr ⟨⟨blk, ?_, hfor⟩, hfound⟩, fun name hname' => ?_⟩
    · rw [unmarshalTagBlocks, hbuf]
      dsimp only
      rw [hblk]
      exact heq
    · rw [habsent _ hnew, hname, get_set, if_pos rfl]
    · obtain ⟨hne, hnot⟩ := not_or.mp (mem_cons.not.mp hname')
      rw [habsent name hnot, get_set, if_neg (hname ▸ hne)]

/-- An index file has the tag blocks and the measurements of a log file. -/
structure IndexFileFor (c : Codec) (f : Contents) (x : IndexFile) : Prop where
  measurements : ∃ infos, Forall₂ (fun (mm : Bytes × Measurement) (info : Bytes × MeasurementInfo) =>
    info.1 = mm.1 ∧ info.2.deleted = mm.2.deleted ∧ info.2.series = mm.2.series) f.mms.entries infos ∧
      MeasurementsFor c infos x.mblk
  block : ∀ mm ∈ f.mms.entries, ∃ blk, x.tblks.get mm.1 = some blk ∧ BlockFor c mm.2 blk
  noBlock : ∀ name, name ∉ f.mms.entries.map Prod.fst → x.tblks.get name = none
  seriesIDSet : x.seriesIDSet c = some f.seriesIDSet
  tombstoneSeriesIDSet : x.tombstoneSeriesIDSet c = some f.tombstoneSeriesIDSet

theorem LogFile.compactTo_spec (c : Codec) (o : MapOrder) {f : Contents} (h : f.Storable) :
    ∃ data, LogFile.compactTo c o f = .ok data ∧
      (data.length < 2 ^ 63 → ∃ x, unmarshalBinary c data = .ok x ∧ IndexFileFor c f x) := by
  obtain ⟨blocks, infos, hblocks, hmap, hinfos⟩ := writeTagsetsTo_spec c h.measurement fileSignature.length
  have hnames : infos.map Prod.fst = f.mms.entries.map Prod.fst := by
    have hfst := congrArg (map Prod.fst) hmap
    rwa [map_map, map_map] at hfst
  have hnodup := f.mms.ascending.nodup_keys
  have hids : ∀ info ∈ infos, Ids32 info.2.series := by
    intro info hinfo
    have hmem : (info.1, info.2.series) ∈ infos.map fun info => (info.1, info.2.series) := mem_map_of_mem hinfo
    rw [hmap] at hmem
    obtain ⟨mm, hmm, heq⟩ := mem_map.mp hmem
    exact (Prod.mk.inj heq).2 ▸ h.series mm hmm
  obtain ⟨mblk, hmblk, hread⟩ := writeMeasurementBlock_spec c o (hnames ▸ hnodup) hids
  rw [compactTo, hblocks]
  dsimp only
  rw [hmblk]
  refine ⟨_, rfl, fun hlen => ?_⟩
  have hbounds := hlen
  simp only [length_append] at hbounds
  have hfor := hinfos fileSignature _ rfl hlen
  obtain ⟨blk, hblk, hmms⟩ := hread (by omega) fun info hinfo => by
    obtain ⟨mm, -, hmm⟩ := exists_of_forall₂ hfor hinfo
    have hbound := hmm.bound
    omega
  obtain ⟨es, hes, hall⟩ := hmms.iterator
  obtain ⟨tblks, htblks, hfound, habsent⟩ :=
    unmarshalTagBlocks_spec (forall₂_trans hfor hall fun mm info e hi he =>
    ⟨he.name.trans hi.name, by rw [he.tagBlockOffset, he.tagBlockSize]; exact hi.block⟩) hnodup .empty
  have hset := c.decode_encode f.seriesIDSet [] h.seriesIDSet
  have htomb := c.decode_encode f.tombstoneSeriesIDSet [] h.tombstoneSeriesIDSet
  rw [append_nil] at hset htomb
  exact ⟨_, unmarshalBinary_sections rfl rfl hlen hblk hes htblks,
    ⟨infos, hfor.imp fun mm info hi => ⟨hi.name, hi.deleted, hi.series⟩, hmms⟩, hfound, habsent, hset, htomb⟩

/-! ### The file answers -/

/-- The measurement as its methods show it. -/
def MeasurementBlockElem.shown (e : MeasurementBlockElem) : Bytes × Bool × Option (Finset ℕ) :=
  (e.name, e.deleted, e.seriesIDs)

/-- The value as its methods show it. -/
def TagBlockValueElem.shown (c : Codec) (e : TagBlockValueElem) : Bytes × Option TagValue := (e.value, e.tagValue c)

/-- The key as its methods show it, with the values that its iterator returns. -/
def TagBlockKeyElem.shown (c : Codec) (e : TagBlockKeyElem) :
    Bytes × Bool × Option (List (Bytes × Option TagValue)) :=
  (e.key, e.deleted, e.tagValueIterator.map fun es => es.map (TagBlockValueElem.shown c))

def Measurement.shown (name : Bytes) (mm : Measurement) : Bytes × Bool × Option (Finset ℕ) :=
  (name, mm.deleted, some mm.series)

def TagValue.shown (value : Bytes) (tv : TagValue) : Bytes × Option TagValue := (value, some tv)

/-- A deleted key is written without its values. -/
def TagKey.shown (key : Bytes) (ts : TagKey) : Bytes × Bool × Option (List (Bytes × Option TagValue)) :=
  (key, ts.deleted, some (ts.written.map fun v => v.2.shown v.1))

/-- The file has no tombstone of a tag key. -/
def Contents.KeyUndeleted (f : Contents) (name key : Bytes) : Prop :=
  ∀ ts, f.tagKey name key = some ts → ts.deleted = false

/-- An index file answers as a log file does. -/
structure AnswersAs (c : Codec) (f : Contents) (x : IndexFile) : Prop where
  measurementIterator : (x.measurementIterator c).map (fun es => es.map MeasurementBlockElem.shown) =
    some (f.mms.entries.map fun mm => mm.2.shown mm.1)
  measurement : ∀ name, (x.measurement c name).map (fun e => e.map MeasurementBlockElem.shown) =
    some ((f.measurement name).map (Measurement.shown name))
  measurementSeriesIDs : ∀ name, x.measurementSeriesIDs c name = some (f.measurementSeriesIDs name)
  tagKeyIterator : ∀ name, (x.tagKeyIterator name).map (fun es => es.map fun es => es.map (TagBlockKeyElem.shown c)) =
    some ((f.tagKeyIterator name).map fun ks => ks.entries.map fun k => k.2.shown k.1)
  tagKey : ∀ name key, (x.tagKey c name key).map (fun e => e.map (TagBlockKeyElem.shown c)) =
    some ((f.tagKey name key).map (TagKey.shown key))
  tagValueIterator : ∀ name key, f.KeyUndeleted name key →
    (x.tagValueIterator c name key).map (fun es => es.map fun es => es.map (TagBlockValueElem.shown c)) =
      some ((f.tagValueIterator name key).map fun vs => vs.entries.map fun v => v.2.shown v.1)
  tagValue : ∀ name key value, f.KeyUndeleted name key →
    (x.tagValue c name key value).map (fun e => e.map (TagBlockValueElem.shown c)) =
      some ((f.tagValue name key value).map (TagValue.shown value))
  tagValueSeriesIDSet : ∀ name key value, f.KeyUndeleted name key →
    x.tagValueSeriesIDSet c name key value = some (f.tagValueSeriesIDSet name key value)
  seriesIDSet : x.seriesIDSet c = some f.seriesIDSet
  tombstoneSeriesIDSet : x.tombstoneSeriesIDSet c = some f.tombstoneSeriesIDSet

section

variable {f : Contents} {x : IndexFile}

theorem MeasurementFor.shown {mm : Bytes × Measurement} {info : Bytes × MeasurementInfo} {e : MeasurementBlockElem}
    (hinfo : info.1 = mm.1 ∧ info.2.deleted = mm.2.deleted ∧ info.2.series = mm.2.series)
    (h : MeasurementFor info e) :
    e.shown = mm.2.shown mm.1 := by
  rw [MeasurementBlockElem.shown, h.name, h.deleted, h.seriesIDs, hinfo.1, hinfo.2.1, hinfo.2.2, Measurement.shown]

theorem IndexFileFor.measurement (h : IndexFileFor c f x) (name : Bytes) :
    (x.measurement c name).map (fun e => e.map MeasurementBlockElem.shown) =
      some ((f.measurement name).map (Measurement.shown name)) := by
  obtain ⟨infos, hinfos, hfor⟩ := h.measurements
  have hnames : f.mms.entries.map Prod.fst = infos.map Prod.fst :=
    map_eq_map_of_forall₂ (hinfos.imp fun mm info hi => hi.1.symm)
  cases hget : f.measurement name with
  | none =>
    rw [IndexFile.measurement, hfor.absent name (hnames ▸ get_eq_none_iff.mp hget)]
    rfl
  | some mm =>
    have hmem := get_eq_some_iff.mp hget
    obtain ⟨info, hinfo, hi⟩ := exists_of_forall₂ hinfos.flip hmem
    obtain ⟨e, he, hefor⟩ := hfor.found info hinfo
    rw [hi.1] at he
    rw [IndexFile.measurement, he, Option.map_some, Option.map_some, hefor.shown hi, Option.map_some]

/-! ### Tag keys and tag values -/

theorem ValueFor.shown {v : Bytes × TagValue} {e : TagBlockValueElem} (h : ValueFor c v e) :
    e.shown c = v.2.shown v.1 := by
  rw [TagBlockValueElem.shown, h.value, h.tagValue, TagValue.shown]

variable {mm : Measurement} {blk : TagBlock} {k : Bytes × TagKey}

section

variable {e : TagBlockKeyElem} (h : KeyFor c blk.data k e) (hlen : blk.data.length < 2 ^ 63)
  (hmm : mm.Storable) (hk : k ∈ mm.tagSet.entries)
include h hlen hmm hk

theorem KeyFor.map_tagValueIterator :
    e.tagValueIterator.map (fun es => es.map (TagBlockValueElem.shown c)) =
      some (k.2.written.map fun v => v.2.shown v.1) := by
  obtain ⟨es, hes, hall⟩ := h.tagValueIterator hlen (hmm.ids k hk) (hmm.value k hk)
  rw [hes, Option.map_some]
  exact congrArg some (map_eq_map_of_forall₂ (hall.imp fun v e he => he.shown.symm)).symm

theorem KeyFor.shown : e.shown c = k.2.shown k.1 := by
  rw [TagBlockKeyElem.shown, h.map_tagValueIterator hlen hmm hk, h.key, h.deleted, TagKey.shown]

end

theorem TagKey.written_of_undeleted {ts : TagKey} (h : ts.deleted = false) : ts.written = ts.tagValues.entries := by
  rw [written, h, if_neg Bool.false_ne_true]

section

variable (h : IndexFileFor c f x) (hf : f.Storable) (name key : Bytes)
include h hf

/-- The block of a measurement, if the log file has the measurement. -/
theorem IndexFileFor.get_tblks (name : Bytes) :
    (f.mms.get name = none ∧ x.tblks.get name = none) ∨
      ∃ mm blk, f.mms.get name = some mm ∧ x.tblks.get name = some blk ∧ mm.Storable ∧ BlockFor c mm blk := by
  cases hget : f.mms.get name with
  | none => exact .inl ⟨rfl, h.noBlock name (get_eq_none_iff.mp hget)⟩
  | some mm =>
    have hmem := get_eq_some_iff.mp hget
    obtain ⟨blk, hblk, hfor⟩ := h.block _ hmem
    exact .inr ⟨mm, blk, rfl, hblk, hf.measurement _ hmem, hfor⟩

/-- The element of a tag key, if the log file has the key. -/
theorem IndexFileFor.tagKey_cases :
    (f.tagKey name key = none ∧ x.tagKey c name key = some none) ∨
      ∃ (mm : Measurement) (blk : TagBlock) (ts : TagKey) (e : TagBlockKeyElem), f.tagKey name key = some ts ∧
        x.tagKey c name key = some (some e) ∧ x.tblks.get name = some blk ∧ mm.Storable ∧
          (key, ts) ∈ mm.tagSet.entries ∧ blk.data.length < 2 ^ 63 ∧ KeyFor c blk.data (key, ts) e := by
  rcases h.get_tblks hf name with ⟨hmm, hblk⟩ | ⟨mm, blk, hmm, hblk, hstore, hfor⟩
  · left
    rw [Contents.tagKey, tagKey, hmm, hblk]
    exact ⟨rfl, rfl⟩
  · rw [Contents.tagKey, tagKey, hmm, hblk, Option.bind_some]
    cases hts : mm.tagSet.get key with
    | none => exact .inl ⟨rfl, hfor.absent key (get_eq_none_iff.mp hts)⟩
    | some ts =>
      have hmem := get_eq_some_iff.mp hts
      obtain ⟨e, he, hefor⟩ := hfor.found _ hmem
      exact .inr ⟨mm, blk, ts, e, rfl, he, rfl, hstore, hmem, hfor.length, hefor⟩

/-- The element of a tag value, if the log file has the value. -/
theorem IndexFileFor.tagValue_cases (hkey : f.KeyUndeleted name key) (value : Bytes) :
    (f.tagValue name key value = none ∧ x.tagValue c name key value = some none) ∨
      ∃ tv e, f.tagValue name key value = some tv ∧ x.tagValue c name key value = some (some e) ∧
        ValueFor c (value, tv) e := by
  rcases h.tagKey_cases hf name key with ⟨hts, he⟩ | ⟨mm, blk, ts, e, hts, he, hblk, hstore, hmem, hlen, hfor⟩
  · left
    rw [Contents.tagValue, hts]
    refine ⟨rfl, ?_⟩
    rw [IndexFile.tagKey] at he
    rw [tagValue]
    cases hblk : x.tblks.get name with
    | none => rfl
    | some blk =>
      rw [hblk] at he
      dsimp only at he ⊢
      rw [TagBlock.decodeTagValueElem, he]
  · have hvalue : x.tagValue c name key value = elemByHash c.hash e.hashIndex
        (elemAt TagBlockValueElem.unmarshal TagBlockValueElem.value blk.data) value := by
      rw [IndexFile.tagKey, hblk] at he
      dsimp only at he
      rw [tagValue, hblk]
      dsimp only
      rw [TagBlock.decodeTagValueElem, he]
    obtain ⟨hfound, habsent⟩ := hfor.elemByHash hlen (hstore.ids _ hmem)
    rw [TagKey.written_of_undeleted (hkey ts hts)] at hfound habsent
    rw [Contents.tagValue, hts, hvalue, Option.bind_some]
    cases htv : ts.tagValues.get value with
    | none => exact .inl ⟨rfl, habsent value (get_eq_none_iff.mp htv)⟩
    | some tv =>
      obtain ⟨e, he, hefor⟩ := hfound _ (get_eq_some_iff.mp htv)
      exact .inr ⟨tv, e, rfl, he, hefor⟩

theorem IndexFileFor.answersAs : AnswersAs c f x where
  measurementIterator := by
    obtain ⟨infos, hinfos, hfor⟩ := h.measurements
    obtain ⟨es, hes, hall⟩ := hfor.iterator
    rw [IndexFile.measurementIterator, hes, Option.map_some]
    exact congrArg some (map_eq_map_of_forall₂
      (forall₂_trans hinfos hall fun mm info e hi he => (he.shown hi).symm)).symm
  measurement := h.measurement
  measurementSeriesIDs name := by
    have hmeasurement := h.measurement name
    rw [IndexFile.measurement, Contents.measurement] at hmeasurement
    rw [IndexFile.measurementSeriesIDs, MeasurementBlock.seriesIDs, Contents.measurementSeriesIDs]
    cases hget : f.mms.get name with
    | none =>
      rw [hget, Option.map_none, Option.map_eq_some_iff] at hmeasurement
      obtain ⟨e, he, hnone⟩ := hmeasurement
      rw [Option.map_eq_none_iff.mp hnone] at he
      rw [he]
      rfl
    | some mm =>
      rw [hget, Option.map_some, Option.map_eq_some_iff] at hmeasurement
      obtain ⟨e, he, hsome⟩ := hmeasurement
      obtain ⟨e, rfl, heq⟩ := Option.map_eq_some_iff.mp hsome
      rw [he]
      exact congrArg (fun shown => shown.2.2) heq
  tagKeyIterator name := by
    rw [IndexFile.tagKeyIterator, Contents.tagKeyIterator]
    rcases h.get_tblks hf name with ⟨hmm, hblk⟩ | ⟨mm, blk, hmm, hblk, hstore, hfor⟩
    · rw [hmm, hblk]
      rfl
    · obtain ⟨es, hes, hall⟩ := hfor.iterator
      rw [hmm, hblk]
      dsimp only
      rw [hes, Option.map_some, Option.map_some, Option.map_some, Option.map_some, Option.map_some]
      have hmem := (forall₂_and_left _ _).mpr ⟨fun k hk => hk, hall⟩
      exact congrArg (fun shown => some (some shown))
        (map_eq_map_of_forall₂ (hmem.imp fun k e hk => (hk.2.shown hfor.length hstore hk.1).symm)).symm
  tagKey name key := by
    rcases h.tagKey_cases hf name key with ⟨hts, he⟩ | ⟨mm, blk, ts, e, hts, he, -, hstore, hmem, hlen, hfor⟩
    · rw [hts, he]
      rfl
    · rw [hts, he, Option.map_some, Option.map_some, hfor.shown hlen hstore hmem]
      rfl
  tagValueIterator name key hkey := by
    rw [IndexFile.tagValueIterator, Contents.tagValueIterator]
    rcases h.tagKey_cases hf name key with ⟨hts, he⟩ | ⟨mm, blk, ts, e, hts, he, -, hstore, hmem, hlen, hfor⟩
    · rw [hts, he]
      rfl
    · have hvalues := hfor.map_tagValueIterator hlen hstore hmem
      rw [TagKey.written_of_undeleted (hkey ts hts)] at hvalues
      rw [hts, he]
      rw [Option.map_map]
      obtain ⟨es, hes, heq⟩ := Option.map_eq_some_iff.mp hvalues
      rw [hes]
      exact congrArg (fun shown => some (some shown)) heq
  tagValue name key value hkey := by
    rcases h.tagValue_cases hf name key hkey value with ⟨htv, he⟩ | ⟨tv, e, htv, he, hfor⟩
    · rw [htv, he]
      rfl
    · rw [htv, he, Option.map_some, Option.map_some, hfor.shown]
      rfl
  tagValueSeriesIDSet name key value hkey := by
    rw [IndexFile.tagValueSeriesIDSet, Contents.tagValueSeriesIDSet]
    rcases h.tagValue_cases hf name key hkey value with ⟨htv, he⟩ | ⟨tv, e, htv, he, hfor⟩
    · rw [htv, he]
    · obtain ⟨ss, hss, heq⟩ := Option.map_eq_some_iff.mp hfor.tagValue
      obtain rfl : ss = tv.series := congrArg TagValue.series heq
      rw [htv, he]
      dsimp only
      rw [hfor.seriesN, hss]
      simp only [Finset.card_eq_zero]
      split_ifs
      · rfl
      · rfl
  seriesIDSet := h.seriesIDSet
  tombstoneSeriesIDSet := h.tombstoneSeriesIDSet

end

end

/-- Compaction of a log file writes an index file that can be opened and answers as the log file
does, if the log file has no empty tag key and no empty value of a tag key that is not deleted. -/
theorem compactTo_answersAs (c : Codec) (o : MapOrder) {f : Contents} (h : f.Storable) :
    ∃ data, LogFile.compactTo c o f = .ok data ∧
      (data.length < 2 ^ 63 → ∃ x, unmarshalBinary c data = .ok x ∧ AnswersAs c f x) := by
  obtain ⟨data, hdata, hread⟩ := LogFile.compactTo_spec c o h
  refine ⟨data, hdata, fun hlen => ?_⟩
  obtain ⟨x, hx, hfor⟩ := hread hlen
  exact ⟨x, hx, hfor.answersAs h⟩

/-! ### A small format for series sets -/

/-- One byte for each id from one on, and an end mark. -/
def bitmap (ss : Finset ℕ) : ℕ → ℕ → Bytes
  | _, 0 => [2]
  | i, n + 1 => (if i ∈ ss then 1 else 0) :: bitmap ss (i + 1) n

def readBitmap : ℕ → Bytes → Option (Finset ℕ)
  | _, [] => none
  | i, b :: bs =>
    if b = 0 then readBitmap (i + 1) bs
    else if b = 1 then (readBitmap (i + 1) bs).map (insert i)
    else some ∅

variable (ss : Finset ℕ) (rest : Bytes)

theorem readBitmap_bitmap (i n : ℕ) :
    readBitmap i (bitmap ss i n ++ rest) = some (ss.filter fun id => i ≤ id ∧ id < i + n) := by
  induction n generalizing i with
  | zero =>
    have hempty : (ss.filter fun id => i ≤ id ∧ id < i + 0) = ∅ := Finset.filter_false_of_mem fun id _ => by omega
    rw [hempty]
    rfl
  | succ n ih =>
    rw [bitmap, cons_append, readBitmap, ih]
    by_cases hi : i ∈ ss
    · rw [if_pos hi, if_neg (by decide), if_pos rfl, Option.map_some]
      refine congrArg some (Finset.ext fun id => ?_)
      rw [Finset.mem_insert, Finset.mem_filter, Finset.mem_filter]
      constructor
      · rintro (rfl | ⟨hid, hle⟩)
        · exact ⟨hi, by omega⟩
        · exact ⟨hid, by omega⟩
      · rintro ⟨hid, hle⟩
        rcases hle.1.eq_or_lt with rfl | hlt
        · exact .inl rfl
        · exact .inr ⟨hid, by omega⟩
    · rw [if_neg hi, if_pos rfl]
      refine congrArg some (Finset.filter_congr fun id hid => ?_)
      have hne : id ≠ i := fun heq => hi (heq ▸ hid)
      omega

/-- A bound of the ids. -/
def greatestId (ss : Finset ℕ) : ℕ :=
  @Finset.fold ℕ ℕ Nat.max ⟨Nat.max_comm⟩ ⟨Nat.max_assoc⟩ 0 (fun i => i) ss

theorem le_greatestId {ss : Finset ℕ} {i : ℕ} (h : i ∈ ss) : i ≤ greatestId ss := by
  rw [greatestId, ← Finset.insert_erase h, Finset.fold_insert (Finset.notMem_erase i ss)]
  exact Nat.le_max_left _ _

theorem readBitmap_append : readBitmap 0 (bitmap ss 0 (greatestId ss + 1) ++ rest) = some ss := by
  rw [readBitmap_bitmap, Finset.filter_true_of_mem]
  intro i hi
  have hle := le_greatestId hi
  omega

/-- Hash sums by length, and bitmaps. -/
def bitmapCodec : Codec where
  sum64 key := Fin.ofNat (2 ^ 64) key.length
  encodeSet ss := bitmap ss 0 (greatestId ss + 1)
  decodeSet := readBitmap 0
  decode_encode ss rest _ := readBitmap_append ss rest

/-- A map visited in the opposite order. -/
def reversed : MapOrder := ⟨reverse, reverse_perm⟩

/-- The entry of a series of `cpu` with one tag. -/
def addCpu (id : ℕ) (value : Bytes) : LogEntry :=
  { flag := 0, seriesID := id, name := [], key := [], value := []
    cached := some { name := [99, 112, 117], tags := [⟨[104], value⟩] } }

/-- A log with two series, one of them deleted. -/
def cpuLog : Contents :=
  Contents.execEntries (fun _ => some { name := [99, 112, 117], tags := [⟨[104], [98]⟩] }) .new
    [addCpu 1 [97], addCpu 2 [98], { addCpu 2 [] with flag := 1, cached := none }]

theorem storable_cpuLog : cpuLog.Storable := by
  have hkey : ∀ mm ∈ cpuLog.mms.entries, ∀ k ∈ mm.2.tagSet.entries, k.1 ≠ [] := by decide +kernel
  have hvalue : ∀ mm ∈ cpuLog.mms.entries, ∀ k ∈ mm.2.tagSet.entries, ∀ v ∈ k.2.written, v.1 ≠ [] := by
    decide +kernel
  have hids : ∀ mm ∈ cpuLog.mms.entries, ∀ k ∈ mm.2.tagSet.entries, ∀ v ∈ k.2.written,
      Ids32 v.2.series := by decide +kernel
  exact ⟨fun mm hmm => ⟨hkey mm hmm, hvalue mm hmm,
    hids mm hmm⟩, by decide +kernel, by decide +kernel, by decide +kernel⟩

theorem compactTo_cpuLog : cpuLog.tagValueSeriesIDSet [99, 112, 117] [104] [97] = some {1} ∧
    ∃ data x, LogFile.compactTo bitmapCodec reversed cpuLog = .ok data ∧
      unmarshalBinary bitmapCodec data = .ok x ∧ AnswersAs bitmapCodec cpuLog x := by
  obtain ⟨data, hdata, hread⟩ := compactTo_answersAs bitmapCodec reversed storable_cpuLog
  have hlen : (LogFile.compactTo bitmapCodec reversed cpuLog).toOption.all
      (fun data => data.length < 2 ^ 63) = true := by
    decide +kernel
  rw [hdata] at hlen
  obtain ⟨x, hx, hanswers⟩ := hread (of_decide_eq_true hlen)
  exact ⟨by decide +kernel, data, x, hdata, hx, hanswers⟩

/-- An empty tag value cannot be written. -/
theorem not_compactTo_answersAs :
    LogFile.compactTo bitmapCodec reversed (.execEntries (fun _ => none) .new [addCpu 1 []]) =
      .error .zeroLengthTagValue := by
  rfl

end InfluxDB.Tsi
