import InfluxDB.Tsi.TagBlock

/-!
    Tag blocks are read back.  What the encoder writes for keys and values is cut into elements again,
    by iterating over a section and by going to the offsets of a hash index.
-/

namespace InfluxDB.Tsi

open Lib Lib.RobinHood List TagBlockTrailer TagKeyEncodeEntry TagBlock TagBlockValueElem Nat

/-- The ids of a series set have 32 bits. -/
def Ids32 (ss : Finset ℕ) : Prop := ∀ id ∈ ss, id < 2 ^ 32

instance decidableIds32 : DecidablePred Ids32 := fun ss => inferInstanceAs (Decidable (∀ id ∈ ss, id < 2 ^ 32))

theorem Ids32.card_lt {ss : Finset ℕ} (h : Ids32 ss) : ss.card < 2 ^ 64 := by
  have hsub : ss ⊆ Finset.range (2 ^ 32) := fun id hid => Finset.mem_range.mpr (h id hid)
  have hcard := Finset.card_le_card hsub
  rw [Finset.card_range] at hcard
  omega

/-- The values that are written for a tag key. -/
def TagKey.written (ts : TagKey) : List (Bytes × TagValue) := if ts.deleted then [] else ts.tagValues.entries

theorem TagKey.ascending_written (ts : TagKey) : Ascending ts.written := by
  rw [written]
  split_ifs
  · exact ascending_nil
  · exact ts.tagValues.ascending

/-! ### Values -/

variable {c : Codec}

/-- What an element of a tag value shows. -/
structure ValueFor (c : Codec) (v : Bytes × TagValue) (e : TagBlockValueElem) : Prop where
  value : e.value = v.1
  seriesN : e.seriesN = v.2.series.card
  tagValue : e.tagValue c = some v.2

theorem parses_value {v : Bytes × TagValue} (hids : Ids32 v.2.series) (hlen : (valueBytes c v).length < 2 ^ 63) :
    Parses unmarshal (valueBytes c v) (ValueFor c v) := by
  simp only [valueBytes, length_append] at hlen
  rw [valueBytes]
  refine (parses_byte _).bind_eq ?_
  refine (parses_uvarint (by omega)).bind_eq ?_
  refine (parses_bytes v.1).bind_eq ?_
  refine (parses_uvarint hids.card_lt).bind_eq ?_
  refine (parses_uvarint (by omega)).bind_eq ?_
  have hflag : (encodeTagValueFlag v.2.deleted).val &&& 2 ≠ 0 := by
    cases v.2.deleted <;> decide
  have hdeleted : decide ((encodeTagValueFlag v.2.deleted).val &&& 1 ≠ 0) = v.2.deleted := by
    cases v.2.deleted <;> decide
  rw [if_neg hflag]
  intro rest
  obtain ⟨_, hskip, rfl⟩ := parses_bytes (c.encodeSet v.2.series) rest
  refine ⟨{ flag := encodeTagValueFlag v.2.deleted, value := v.1, seriesN := v.2.series.card, seriesData := []
            seriesIDSetData := some (c.encodeSet v.2.series ++ rest) }, ?_, rfl, rfl, ?_⟩
  · change Option.bind (parseBytes (c.encodeSet v.2.series).length (c.encodeSet v.2.series ++ rest)) _ = _
    rw [hskip]
    rfl
  · rw [tagValue, seriesIDSet]
    dsimp only
    rw [c.decode_encode _ _ hids, Option.map_some, TagBlockValueElem.deleted]
    rw [hdeleted]

theorem valueBytes_ne_nil (v : Bytes × TagValue) : valueBytes c v ≠ [] :=
  append_ne_nil_of_left_ne_nil (cons_ne_nil _ _) _

/-- The offsets of values, by their names. -/
def valueOffsets (c : Codec) (n : ℕ) (vs : List (Bytes × TagValue)) : List (Bytes × ℕ) :=
  (layout (valueBytes c) n vs).map fun e => (e.1.1, e.2)

variable {m : HashMap Bytes ℕ} {es : List (Bytes × ℕ)}

theorem encodeValues_spec {vs : List (Bytes × TagValue)} (hasc : Ascending vs) (hne : ∀ v ∈ vs, v.1 ≠ [])
    {prev : Bytes} (hprev : ∀ v ∈ vs, prev < v.1) (n : ℕ)
    (h : HashMap.Holds c.hash m es) (hn : m.n = es.length) (hlf : m.loadFactor < 100) (hroom : es.length < m.capacity)
    (hnil : [] ∉ es.map Prod.fst) (hes : ∀ k ∈ es.map Prod.fst, ∀ v ∈ vs, k < v.1) :
    ∃ m', encodeValues c prev n m vs = .ok (vs.flatMap (valueBytes c), m') ∧
      HashMap.Holds c.hash m' (es ++ valueOffsets c n vs) := by
  induction vs generalizing prev n m es with
  | nil => exact ⟨m, rfl, by rwa [valueOffsets, layout, map_nil, append_nil]⟩
  | cons v vs ih =>
    obtain ⟨hv, hasc⟩ := ascending_cons.mp hasc
    obtain ⟨hvne, hne⟩ := forall_mem_cons.mp hne
    have hlt := hprev v mem_cons_self
    have hfresh : v.1 ∉ es.map Prod.fst := fun hmem => lt_irrefl _ (hes _ hmem v mem_cons_self)
    obtain ⟨m₁, hput, hholds, -, hexact⟩ := h.put [] (v.1, n) hfresh hroom
    obtain ⟨hn₁, hlf₁, hroom₁⟩ := hexact hn hlf hvne hnil
    obtain ⟨m', hm', hholds'⟩ := ih hasc hne hv (n + (valueBytes c v).length) hholds
      (by rw [hn₁, length_append, length_singleton]) (by rw [hlf₁]; exact hlf)
      (by rwa [length_append, length_singleton])
      (by rw [map_append, mem_append, not_or]; exact ⟨hnil, by simpa using hvne.symm⟩)
      (by
        intro k hk w hw
        rw [map_append, mem_append] at hk
        rcases hk with hk | hk
        · exact hes k hk w (mem_cons_of_mem _ hw)
        · rw [map_singleton, mem_singleton] at hk
          exact hk ▸ hv w hw)
    refine ⟨m', ?_, ?_⟩
    · rw [encodeValues, if_neg hvne, if_neg hlt.asymm, if_neg hlt.ne, hput]
      dsimp only
      rw [hm', flatMap_cons]
    · rw [valueOffsets, layout, map_cons, append_cons]
      exact hholds'

/-! ### Keys -/

/-- What the encoder has written for a tag key, and where. -/
structure EntryFor (c : Codec) (block : Bytes) (k : Bytes × TagKey) (e : TagKeyEncodeEntry) : Prop where
  key : e.key = k.1
  deleted : e.deleted = k.2.deleted
  written : ∃ pre m post, block = pre ++ (k.2.written.flatMap (valueBytes c) ++ (putHashIndex m ++ post)) ∧
    pre.length = e.dataOffset ∧ 0 < e.dataOffset ∧ e.dataSize = (k.2.written.flatMap (valueBytes c)).length ∧
    e.hashIndexOffset = e.dataOffset + e.dataSize ∧ e.hashIndexSize = (putHashIndex m).length ∧
    HashMap.Holds c.hash m (valueOffsets c e.dataOffset k.2.written)

theorem encodeKeys_spec {ks : List (Bytes × TagKey)} (hasc : Ascending ks) {prev : Option Bytes}
    (hprev : ∀ p ∈ prev, ∀ k ∈ ks, p < k.1) (hne : ∀ k ∈ ks, ∀ v ∈ k.2.written, v.1 ≠ [])
    {n : ℕ} (hn : 0 < n) :
    ∃ bytes entries, encodeKeys c prev n ks = .ok (bytes, entries) ∧
      ∀ pre post, pre.length = n → Forall₂ (EntryFor c (pre ++ (bytes ++ post))) ks entries := by
  induction ks generalizing prev n with
  | nil => exact ⟨[], [], rfl, fun _ _ _ => .nil⟩
  | cons k ks ih =>
    obtain ⟨hk, hasc⟩ := ascending_cons.mp hasc
    obtain ⟨hkne, hne⟩ := forall_mem_cons.mp hne
    have hnil : ∀ v ∈ k.2.written, [] < v.1 := by
      intro v hv
      obtain ⟨b, bs, hb⟩ := exists_cons_of_ne_nil (hkne v hv)
      rw [hb]
      exact nil_lt_cons _ _
    obtain ⟨m, hvalues, hholds⟩ := encodeValues_spec (c := c) k.2.ascending_written hkne hnil n
      (HashMap.holds_new 0 loadFactor) rfl (by decide) (by decide) not_mem_nil nofun
    have hprev' : ∀ p ∈ some k.1, ∀ k' ∈ ks, p < k'.1 := fun p hp => Option.mem_some.mp hp ▸ hk
    obtain ⟨bytes, entries, hkeys, hentries⟩ := ih hasc hprev' hne
      (show 0 < n + (k.2.written.flatMap (valueBytes c)).length + (putHashIndex m).length by omega)
    have hord : (prev.any fun p => decide (k.1 < p)) = false := by
      cases prev with
      | none => rfl
      | some p => exact decide_eq_false (hprev p rfl k mem_cons_self).asymm
    have hnew : prev ≠ some k.1 := by
      rintro rfl
      exact lt_irrefl _ (hprev k.1 rfl k mem_cons_self)
    refine ⟨k.2.written.flatMap (valueBytes c) ++ (putHashIndex m ++ bytes),
      { key := k.1, deleted := k.2.deleted, dataOffset := n, dataSize := (k.2.written.flatMap (valueBytes c)).length
        hashIndexOffset := n + (k.2.written.flatMap (valueBytes c)).length
        hashIndexSize := (putHashIndex m).length } :: entries, ?_, fun pre post hpre => .cons ?_ ?_⟩
    · rw [encodeKeys, hord, if_neg Bool.false_ne_true, if_neg hnew, ← TagKey.written, hvalues]
      dsimp only
      rw [hkeys]
    · refine ⟨rfl, rfl, pre, m, bytes ++ post, ?_, hpre, hn, rfl, rfl, rfl, hholds⟩
      simp only [append_assoc]
    · have hrest := hentries (pre ++ (k.2.written.flatMap (valueBytes c) ++ putHashIndex m)) post
        (by rw [length_append, length_append, hpre, add_assoc])
      simpa only [append_assoc] using hrest

/-- What an element of a tag key shows. -/
structure KeyFor (c : Codec) (block : Bytes) (k : Bytes × TagKey) (e : TagBlockKeyElem) : Prop where
  key : e.key = k.1
  deleted : e.deleted = k.2.deleted
  data : e.data = k.2.written.flatMap (valueBytes c)
  hashIndex : ∃ pre m post, block = pre ++ k.2.written.flatMap (valueBytes c) ++ (putHashIndex m ++ post) ∧
    0 < pre.length ∧ e.hashIndex = putHashIndex m ∧ HashMap.Holds c.hash m (valueOffsets c pre.length k.2.written)

theorem EntryFor.parses {block : Bytes} {k : Bytes × TagKey} {e : TagKeyEncodeEntry} (h : EntryFor c block k e)
    (hlen : block.length < 2 ^ 63) (hkey : k.1.length < 2 ^ 63) :
    Parses (TagBlockKeyElem.unmarshal block) (keyBytes e) (KeyFor c block k) := by
  obtain ⟨pre, m, post, hblock, hpre, hpos, hsize, hoffset, hhash, hholds⟩ := h.written
  have hdata : cutAt block e.dataOffset e.dataSize = some (k.2.written.flatMap (valueBytes c)) := by
    rw [hblock, ← hpre, hsize, cutAt_append]
  have hindex : cutAt block e.hashIndexOffset e.hashIndexSize = some (putHashIndex m) := by
    rw [hblock, hoffset, hhash, ← hpre, hsize, ← append_assoc, ← length_append, cutAt_append]
  have hbounds := hlen
  rw [hblock] at hbounds
  simp only [length_append] at hbounds
  have hflag : decide ((encodeTagKeyFlag e.deleted).val &&& 1 ≠ 0) = k.2.deleted := by
    rw [h.deleted]
    cases k.2.deleted <;> decide
  rw [keyBytes]
  refine (parses_byte _).bind_eq ?_
  refine (parses_uint (by omega)).bind_eq ?_
  refine (parses_uint (by omega)).bind_eq ?_
  refine .cutAt hdata ((parses_uint (by omega)).bind ?_)
  rintro _ rfl
  refine (parses_uint (by omega)).bind_eq ?_
  refine .cutAt hindex ((parses_uvarint (by rw [h.key]; omega)).bind ?_)
  rintro _ rfl
  refine (parses_bytes e.key).map ?_
  rintro _ rfl
  exact ⟨h.key, hflag, rfl, pre, m, post, by rw [hblock, append_assoc], by omega, rfl, hpre ▸ hholds⟩

theorem keyBytes_ne_nil (e : TagKeyEncodeEntry) : keyBytes e ≠ [] := append_ne_nil_of_left_ne_nil (cons_ne_nil _ _) _

theorem length_le_of_mem_flatMap {α : Type} (enc : α → Bytes) {xs : List α} {x : α} (h : x ∈ xs) :
    (enc x).length ≤ (xs.flatMap enc).length := by
  obtain ⟨l, l', rfl⟩ := append_of_mem h
  simp only [flatMap_append, flatMap_cons, length_append]
  omega

section

variable {block : Bytes} {k : Bytes × TagKey} {e : TagBlockKeyElem}

section

variable (h : KeyFor c block k e) (hlen : block.length < 2 ^ 63) (hids : ∀ v ∈ k.2.written, Ids32 v.2.series)
include h hlen hids

theorem KeyFor.parses_value {v : Bytes × TagValue} (hv : v ∈ k.2.written) :
    Parses unmarshal (valueBytes c v) (ValueFor c v) := by
  obtain ⟨pre, m, post, hblock, -⟩ := h.hashIndex
  have hle := length_le_of_mem_flatMap (valueBytes c) hv
  rw [hblock] at hlen
  simp only [length_append] at hlen
  exact Tsi.parses_value (hids v hv) (by omega)

/-- The values of a key by iteration. -/
theorem KeyFor.tagValueIterator (hne : ∀ v ∈ k.2.written, v.1 ≠ []) :
    ∃ es, e.tagValueIterator = some es ∧ Forall₂ (ValueFor c) k.2.written es := by
  obtain ⟨es, hes, hall⟩ :=
    parseAll_flatMap (fun v hv => h.parses_value hlen hids hv) fun v _ => valueBytes_ne_nil v
  refine ⟨es, ?_, hall⟩
  rw [TagBlockKeyElem.tagValueIterator, h.data, hes, Option.filter_some, if_pos]
  refine all_eq_true.mpr fun x hx => ?_
  obtain ⟨v, hv, hvx⟩ := exists_of_forall₂ hall hx
  exact decide_eq_true (hvx.value ▸ hne v hv)

/-- The values of a key by their hashes. -/
theorem KeyFor.elemByHash :
    (∀ v ∈ k.2.written, ∃ x, elemByHash c.hash e.hashIndex (elemAt unmarshal value block)
        v.1 = some (some x) ∧ ValueFor c v x) ∧
      ∀ value, value ∉ k.2.written.map Prod.fst → elemByHash c.hash e.hashIndex
        (elemAt TagBlockValueElem.unmarshal TagBlockValueElem.value block) value = some none := by
  obtain ⟨pre, m, post, hblock, hpos, hindex, hholds⟩ := h.hashIndex
  have hbounds := hlen
  rw [hblock] at hbounds
  simp only [length_append, length_putHashIndex] at hbounds
  rw [hindex]
  refine elemByHash_layout pre _ hholds (List.Perm.refl _) hblock hpos (by omega) (by omega) fun v hv rest => ?_
  obtain ⟨x, hx, hfor⟩ := h.parses_value hlen hids hv rest
  exact ⟨x, hx, hfor.value, hfor⟩

end

end

/-! ### Hash maps -/

theorem putAll_spec {news : List (Bytes × ℕ)} (h : HashMap.Holds c.hash m es)
    (hnew : (es.map Prod.fst ++ news.map Prod.fst).Nodup) (hlen : es.length + news.length ≤ m.capacity) :
    ∃ m', putAll c m news = .ok m' ∧ HashMap.Holds c.hash m' (es ++ news) := by
  induction news generalizing m es with
  | nil => exact ⟨m, rfl, by rwa [append_nil]⟩
  | cons new news ih =>
    rw [length_cons] at hlen
    have hmem : new.1 ∉ es.map Prod.fst := fun hmem => disjoint_of_nodup_append hnew hmem (by simp)
    obtain ⟨m₁, hput, hholds, hcap, -⟩ := h.put [] new hmem (by omega)
    obtain ⟨m', hm', hholds'⟩ := ih hholds (by simpa using hnew)
      (by rw [length_append, length_singleton]; omega)
    refine ⟨m', ?_, by simpa using hholds'⟩
    rw [putAll, hput]
    exact hm'

/-- A map that is made for as many elements as are put into it. -/
theorem putAll_new (c : Codec) (hnodup : (es.map Prod.fst).Nodup) :
    ∃ m, putAll c (.new es.length loadFactor) es = .ok m ∧ HashMap.Holds c.hash m es :=
  putAll_spec (HashMap.holds_new es.length loadFactor) hnodup (by rw [length_nil, zero_add]; exact le_pow2 es.length)

/-! ### Blocks -/

/-- A tag set whose keys and values can be written. -/
structure Measurement.Storable (mm : Measurement) : Prop where
  key : ∀ k ∈ mm.tagSet.entries, k.1 ≠ []
  value : ∀ k ∈ mm.tagSet.entries, ∀ v ∈ k.2.written, v.1 ≠ []
  ids : ∀ k ∈ mm.tagSet.entries, ∀ v ∈ k.2.written, Ids32 v.2.series

/-- What a tag block shows of a measurement. -/
structure BlockFor (c : Codec) (mm : Measurement) (blk : TagBlock) : Prop where
  iterator : ∃ es, blk.tagKeyIterator = some es ∧ Forall₂ (KeyFor c blk.data) mm.tagSet.entries es
  found : ∀ k ∈ mm.tagSet.entries, ∃ e, blk.decodeTagKeyElem c k.1 = some (some e) ∧ KeyFor c blk.data k e
  absent : ∀ key, key ∉ mm.tagSet.entries.map Prod.fst → blk.decodeTagKeyElem c key = some none
  length : blk.data.length < 2 ^ 63

variable {t : TagBlockTrailer} {mm : Measurement}

theorem TagBlockTrailer.parses (h : t.valueOffset + t.valueSize < 2 ^ 64 ∧ t.keyOffset + t.keySize < 2 ^ 64 ∧
    t.hashIndexOffset + t.hashIndexSize < 2 ^ 64 ∧ t.size < 2 ^ 64) : Parses parse t.fields (· = t) := by
  refine (parses_uint (by omega)).bind_eq ?_
  refine (parses_uint (by omega)).bind_eq ?_
  refine (parses_uint (by omega)).bind_eq ?_
  refine (parses_uint (by omega)).bind_eq ?_
  refine (parses_uint (by omega)).bind_eq ?_
  refine (parses_uint (by omega)).bind_eq ?_
  refine (parses_uint (by omega)).map ?_
  rintro _ rfl
  rfl

/-- A trailer is read from the end of data; bytes that are not used may stand in front of the version. -/
theorem readTrailer_append {α : Type} {size : ℕ} {parse : Parser α} {fields : Bytes} {t : α}
    (hparse : Parses parse fields (· = t)) (legacy : Bytes) (hsize : fields.length + legacy.length + 2 = size)
    (unsupported : IndexFileError) (data : Bytes) :
    readTrailer size unsupported parse (data ++ (fields ++ (legacy ++ putUint 2 1))) = .ok t := by
  have hlen : (data ++ (fields ++ (legacy ++ putUint 2 1))).length = data.length + size := by
    simp only [length_append, length_putUint]
    omega
  have hversion : (data ++ (fields ++ (legacy ++ putUint 2 1))).drop (data.length + size - 2) = putUint 2 1 := by
    have hpre : (data ++ fields ++ legacy).length = data.length + size - 2 := by
      simp only [length_append]
      omega
    rw [← append_assoc, ← append_assoc, drop_left' hpre]
  obtain ⟨_, ht, rfl⟩ := hparse (legacy ++ putUint 2 1)
  rw [readTrailer, hlen, hversion, if_neg (by omega), if_neg (by decide), if_neg (by omega), Nat.add_sub_cancel,
    drop_left, ht]

/-- The sections of a block are found again. -/
theorem TagBlock.unmarshalBinary_sections (values keyData hashIndex : Bytes)
    (ht : t = { valueOffset := 1, valueSize := values.length, keyOffset := 1 + values.length, keySize := keyData.length
                hashIndexOffset := 1 + values.length + keyData.length, hashIndexSize := hashIndex.length
                size := 1 + values.length + keyData.length + hashIndex.length + tagBlockTrailerSize })
    {data : Bytes} (hdata : data = [0] ++ (values ++ (keyData ++ (hashIndex ++ t.bytes))))
      (hlen : data.length < 2 ^ 63) :
    unmarshalBinary data = .ok { data := data, valueData := values, keyData := keyData, hashData := hashIndex } := by
  have hsize : data.length = 1 + values.length + keyData.length + hashIndex.length + tagBlockTrailerSize := by
    rw [hdata]
    simp only [bytes, fields, length_append, length_singleton, length_putUint, tagBlockTrailerSize]
    omega
  have htrailer : readTagBlockTrailer data = .ok t := by
    have hparse : Parses parse t.fields (· = t) := by
      refine parses ?_
      rw [ht]
      dsimp only
      omega
    have hread := readTrailer_append hparse [] rfl .unsupportedTagBlockVersion ([0] ++ values ++ keyData ++ hashIndex)
    rwa [append_assoc, append_assoc, append_assoc, nil_append, ← bytes, ← hdata] at hread
  obtain ⟨hvalues, hle, hdrop⟩ := cutAt_of_drop (b := values) (show 1 ≤ data.length by omega) (by rw [hdata]; rfl)
  obtain ⟨hkeyData, hle, hdrop⟩ := cutAt_of_drop hle hdrop
  obtain ⟨hhash, -⟩ := cutAt_of_drop hle hdrop
  rw [unmarshalBinary, htrailer]
  rw [ht]
  dsimp only
  rw [if_neg (not_not.mpr hsize), hvalues, hkeyData, hhash]

/-- Keys are read back from a block that has their entries. -/
theorem blockFor_of_entries (h : mm.Storable) {blk : TagBlock} {entries : List TagKeyEncodeEntry}
    (hentries : Forall₂ (EntryFor c blk.data) mm.tagSet.entries entries) {pre post : Bytes}
    (hholds : HashMap.Holds c.hash m ((layout keyBytes pre.length entries).map fun e => (e.1.key, e.2)))
    (hdata : blk.data = pre ++ entries.flatMap keyBytes ++ (putHashIndex m ++ post)) (hpos : 0 < pre.length)
    (hkeyData : blk.keyData = entries.flatMap keyBytes) (hhash : blk.hashData = putHashIndex m)
    (hlen : blk.data.length < 2 ^ 63) : BlockFor c mm blk := by
  have hbounds := hlen
  rw [hdata] at hbounds
  simp only [length_append, length_putHashIndex] at hbounds
  have hnodup := mm.tagSet.ascending.nodup_keys
  have hnames : mm.tagSet.entries.map Prod.fst = entries.map key :=
    map_eq_map_of_forall₂ (hentries.imp fun k e he => he.key.symm)
  have hparse : ∀ e ∈ entries, Parses (TagBlockKeyElem.unmarshal blk.data) (keyBytes e) fun x =>
      x.key = e.key ∧ ∀ k ∈ mm.tagSet.entries, k.1 = e.key → KeyFor c blk.data k x := by
    intro e he rest
    obtain ⟨k, hk, hfor⟩ := exists_of_forall₂ hentries he
    have hle := length_le_of_mem_flatMap keyBytes he
    have hkey : e.key.length ≤ (keyBytes e).length := by
      simp only [keyBytes, length_append]
      omega
    obtain ⟨x, hx, hkeyFor⟩ := hfor.parses hlen (by rw [← hfor.key]; omega) rest
    refine ⟨x, hx, by rw [hkeyFor.key, hfor.key], fun k' hk' heq => ?_⟩
    rwa [inj_on_of_nodup_map hnodup hk' hk (by rw [heq, hfor.key])]
  obtain ⟨hfound, habsent⟩ :=
    elemByHash_layout pre _ hholds (List.Perm.refl _) hdata hpos (by omega) (by omega) hparse
  refine ⟨?_, fun k hk => ?_, fun key hkey => ?_, hlen⟩
  · obtain ⟨es, hes, hall⟩ := parseAll_flatMap hparse fun e _ => keyBytes_ne_nil e
    have hmem := (forall₂_and_left _ _).mpr ⟨fun k hk => hk, hentries⟩
    have hfor : Forall₂ (KeyFor c blk.data) mm.tagSet.entries es :=
      forall₂_trans hmem hall fun k e x hke hex => hex.2 k hke.1 hke.2.key.symm
    refine ⟨es, ?_, hfor⟩
    rw [tagKeyIterator, hkeyData, hes, Option.filter_some, if_pos]
    refine all_eq_true.mpr fun x hx => ?_
    obtain ⟨k, hk, hkx⟩ := exists_of_forall₂ hfor hx
    exact decide_eq_true (hkx.key ▸ h.key k hk)
  · obtain ⟨e, he, heq⟩ := mem_map.mp (hnames ▸ mem_map_of_mem hk)
    obtain ⟨x, hx, hfor⟩ := hfound e he
    exact ⟨x, by rw [decodeTagKeyElem, hhash, ← heq, hx], hfor k hk heq.symm⟩
  · rw [decodeTagKeyElem, hhash]
    exact habsent key (hnames ▸ hkey)

/-- The tag block of a measurement is read back. -/
theorem writeTagsetTo_spec (c : Codec) (h : mm.Storable) :
    ∃ data, writeTagsetTo c mm = .ok data ∧
      (data.length < 2 ^ 63 → ∃ blk, unmarshalBinary data = .ok blk ∧ BlockFor c mm blk) := by
  have hprev : ∀ p ∈ (none : Option Bytes), ∀ k ∈ mm.tagSet.entries, p < k.1 := nofun
  obtain ⟨values, entries, hkeys, hentries⟩ := encodeKeys_spec (c := c) mm.tagSet.ascending hprev h.value one_pos
  have hnames : mm.tagSet.entries.map Prod.fst = entries.map key :=
    map_eq_map_of_forall₂ ((hentries [0] [] rfl).imp fun k e he => he.key.symm)
  have hoffsets : ((layout keyBytes (1 + values.length) entries).map fun e => (e.1.key, e.2)).map Prod.fst =
      mm.tagSet.entries.map Prod.fst := by
    have hmap : (layout keyBytes (1 + values.length) entries).map (key ∘ Prod.fst) = entries.map key := by
      rw [← map_map, map_fst_layout]
    rw [hnames, map_map]
    exact hmap
  have hnodup := mm.tagSet.ascending.nodup_keys
  obtain ⟨m, hput, hholds⟩ := putAll_new c (hoffsets ▸ hnodup)
  have hcount : ((layout keyBytes (1 + values.length) entries).map fun e => (e.1.key, e.2)).length =
      entries.length := by
    rw [length_map, ← length_map Prod.fst, map_fst_layout]
  rw [hcount] at hput
  rw [writeTagsetTo, hkeys]
  dsimp only
  rw [hput]
  have hpre : 1 + values.length = ([0] ++ values).length := by rw [length_append, length_singleton]
  rw [hpre] at hholds
  have hsections : ∀ post, [0] ++ (values ++ (entries.flatMap keyBytes ++ (putHashIndex m ++ post))) =
      [0] ++ values ++ entries.flatMap keyBytes ++ (putHashIndex m ++ post) := by
    intro post
    simp only [append_assoc]
  exact ⟨_, rfl, fun hlen => ⟨_,
    unmarshalBinary_sections values (entries.flatMap keyBytes) (putHashIndex m) rfl rfl hlen,
    blockFor_of_entries h (hentries [0] _ rfl) hholds (hsections _) (succ_pos _) rfl rfl hlen⟩⟩

end InfluxDB.Tsi
