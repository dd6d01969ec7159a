import InfluxDB.Wal.Sessions

/-!
    Segment files that are cut at any byte.  A reader delivers the entries that lie in front of the cut, and
    the number of their bytes.

    What a reader delivers fits the fields of the format, so an entry that does not fit is never delivered as it
    was written; an entry that fits is.
-/

namespace InfluxDB.Wal

open Lib Tsm List Session WriteWALEntry Except Option Prod

/-! ### What is read fits -/

variable {b : Bytes}

theorem cut_length {n : ℕ} {b' rest : Bytes} (h : cut n b = some (b', rest)) : b'.length = n := by
  rw [cut] at h
  split_ifs at h with hlen
  rw [← (mk.inj (some.inj h)).1, length_take]
  omega

theorem isInt64_getInt64 (h : b.length ≤ 8) : IsInt64 (getInt64 b) := by
  have hlt := (getUint_lt b).trans_le (Nat.pow_le_pow_right (by decide) h)
  rw [getInt64, toInt64, IsInt64, minInt64, maxInt64]
  split_ifs <;> omega

namespace WriteWALEntry

theorem readFixed_fits {width : ℕ} {read : Bytes → Value}
    (hread : ∀ b, b.length ≤ width → ValueFits (read b)) (n : ℕ) (rest : Bytes) :
    (readFixed width read n rest).1.length = n ∧ ∀ p ∈ (readFixed width read n rest).1,
      IsInt64 p.1 ∧ ValueFits p.2 := by
  induction n generalizing rest with
  | zero => exact ⟨rfl, forall_mem_nil _⟩
  | succ n ih =>
    obtain ⟨hlen, hfits⟩ := ih (rest.drop (8 + width))
    rw [readFixed]
    refine ⟨congrArg (· + 1) hlen, forall_mem_cons.mpr ⟨⟨?_, ?_⟩, hfits⟩⟩
    · exact isInt64_getInt64 (length_take_le 8 rest)
    · exact hread _ (length_take_le width _)

variable {v : Values Value} {rest rest' : Bytes} {typ : Byte} {n : ℕ}

theorem readStrings_fits (h : readStrings n rest = .ok (v, rest')) :
    v.length = n ∧ ∀ p ∈ v, IsInt64 p.1 ∧ ValueFits p.2 := by
  induction n generalizing rest rest' v with
  | zero =>
    obtain ⟨rfl, -⟩ := mk.inj (ok.inj h)
    exact ⟨rfl, forall_mem_nil _⟩
  | succ n ih =>
    rw [readStrings] at h
    dsimp only at h
    split_ifs at h with hlen hlength hbytes
    obtain ⟨⟨v', rest''⟩, hv', h⟩ := bind_eq_ok.mp h
    obtain ⟨rfl, -⟩ := mk.inj (ok.inj h)
    obtain ⟨hcount, hfits⟩ := ih hv'
    refine ⟨congrArg (· + 1) hcount,
      forall_mem_cons.mpr ⟨⟨isInt64_getInt64 (length_take_le 8 rest), ?_⟩, hfits⟩⟩
    have hlt := (getUint_lt ((rest.drop 8).take 4)).trans_le (Nat.pow_le_pow_right (by decide) (length_take_le 4 _))
    exact (length_take_le _ _).trans_lt hlt

theorem readValues_fits (h : readValues typ n rest = .ok (v, rest')) :
    v.length = n ∧ ∀ p ∈ v, IsInt64 p.1 ∧ ValueFits p.2 := by
  have hfixed : ∀ (width : ℕ) (read : Bytes → Value), (∀ b, b.length ≤ width → ValueFits (read b)) →
      readFixed width read n rest = (v, rest') → v.length = n ∧ ∀ p ∈ v, IsInt64 p.1 ∧ ValueFits p.2 := by
    intro width read hread h
    have := readFixed_fits hread n rest
    rwa [h] at this
  rw [readValues] at h
  dsimp only at h
  split_ifs at h
  · refine hfixed 8 _ ?_ (ok.inj h)
    exact fun _ _ => trivial
  · refine hfixed 8 _ ?_ (ok.inj h)
    exact fun b hb => isInt64_getInt64 hb
  · refine hfixed 8 _ ?_ (ok.inj h)
    exact fun b hb => (getUint_lt b).trans_le (Nat.pow_le_pow_right (by decide) hb)
  · refine hfixed 1 _ ?_ (ok.inj h)
    exact fun _ _ => trivial
  · exact readStrings_fits h

theorem readKey_fits {total : ℕ} {k : Bytes} (h : readKey total typ rest = .ok (k, v, rest')) :
    KeyFits ⟨k, v⟩ := by
  rw [readKey] at h
  split at h
  · cases h
  rename_i b rest₁ hb
  split at h
  · cases h
  rename_i k' rest₂ hk
  split at h
  · cases h
  rename_i b' rest₃ hb'
  dsimp only at h
  split_ifs at h
  obtain ⟨⟨v', rest₄⟩, hv, h⟩ := bind_eq_ok.mp h
  obtain ⟨rfl, hv'⟩ := mk.inj (ok.inj h)
  obtain ⟨rfl, -⟩ := mk.inj hv'
  obtain ⟨hcount, hvalues⟩ := readValues_fits hv
  refine ⟨?_, ?_, hvalues⟩
  · have := getUint_lt b
    rw [cut_length hb] at this
    rw [cut_length hk]
    exact this
  · have := getUint_lt b'
    rw [cut_length hb'] at this
    rw [hcount]
    exact this

theorem unmarshalLoop_fits {total fuel : ℕ} {values values' : FinMap Bytes (Values Value)}
    (hvalues : ∀ kv ∈ values.entries, KeyFits kv) (h : unmarshalLoop total fuel b values = .ok values') :
    ∀ kv ∈ values'.entries, KeyFits kv := by
  induction fuel generalizing b values with
  | zero =>
    cases b with
    | nil => exact ok.inj h ▸ hvalues
    | cons x b => cases h
  | succ fuel ih =>
    cases b with
    | nil => exact ok.inj h ▸ hvalues
    | cons typ rest =>
      obtain ⟨⟨k, v, rest'⟩, hk, h⟩ := bind_eq_ok.mp h
      refine ih (fun kv hkv => ?_) h
      rcases mem_append.mp hkv with hkv | hkv
      · exact hvalues kv (kerase_sublist k _ |>.subset hkv)
      · obtain rfl := mem_singleton.mp hkv
        exact readKey_fits hk

end WriteWALEntry

theorem parseHex_lt {n i : ℕ} (h : b.foldlM (fun n c => (hexValue c).map fun d => n * 16 + d) n = some i) :
    i < (n + 1) * 16 ^ b.length := by
  induction b generalizing n with
  | nil =>
    obtain rfl := some.inj h
    simp
  | cons c b ih =>
    rw [foldlM_cons] at h
    obtain ⟨m, hm, h⟩ := bind_eq_some_iff.mp h
    obtain ⟨d, hd, rfl⟩ := map_eq_some_iff.mp hm
    have hd16 : d < 16 := by
      rw [hexValue] at hd
      split_ifs at hd <;> obtain rfl := some.inj hd <;> omega
    have hle : n * 16 + d + 1 ≤ (n + 1) * 16 := by omega
    calc i < (n * 16 + d + 1) * 16 ^ b.length := ih h
      _ ≤ (n + 1) * 16 * 16 ^ b.length := Nat.mul_le_mul_right _ hle
      _ = (n + 1) * 16 ^ (c :: b).length := by rw [length_cons, pow_succ]; ring

theorem decodeID_lt {i : ℕ} (hb : b.length ≤ 16) (h : decodeID b = .ok i) : i < 2 ^ 64 := by
  rw [decodeID] at h
  cases hparse : parseHex b with
  | none =>
    rw [hparse] at h
    cases h
  | some n =>
    rw [hparse] at h
    dsimp only at h
    split_ifs at h
    obtain rfl := ok.inj h
    have hlt := parseHex_lt hparse
    have hpow : 16 ^ b.length ≤ 16 ^ 16 := Nat.pow_le_pow_right (by decide) hb
    omega

variable {e : WALEntry}

/-- An entry that is read fits the fields of its format. -/
theorem WALEntry.fits_of_unmarshalBinary {typ : Byte} (h : unmarshalBinary typ b = .ok e) : e.Fits := by
  rw [unmarshalBinary] at h
  split_ifs at h
  · obtain ⟨values, hvalues, h⟩ := bind_eq_ok.mp h
    rw [← ok.inj h]
    exact unmarshalLoop_fits (forall_mem_nil _) hvalues
  · obtain ⟨org, horg, h⟩ := bind_eq_ok.mp h
    obtain ⟨bucket, hbucket, h⟩ := bind_eq_ok.mp h
    rw [← ok.inj h]
    exact ⟨decodeID_lt (length_take_le _ _) horg, decodeID_lt (length_take_le _ _) hbucket,
      isInt64_getInt64 (length_take_le _ _), isInt64_getInt64 (length_take_le _ _)⟩

/-! ### Cut files -/

variable {sn : Snappy}

theorem fits_of_next {rest : Bytes} {n : ℕ} (h : next sn b = some (.ok (e, n, rest))) : e.Fits := by
  unfold next at h
  split at h
  · cases h
  split at h
  · cases h
  split at h
  · cases h
  split at h
  · cases h
  split at h
  · cases h
  rename_i e' he'
  obtain ⟨rfl, -⟩ := mk.inj (ok.inj (some.inj h))
  exact WALEntry.fits_of_unmarshalBinary he'

theorem fits_of_readSegment {fuel : ℕ} : ∀ e ∈ (readSegment sn fuel b).entries, e.Fits := by
  induction fuel generalizing b with
  | zero => exact forall_mem_nil _
  | succ fuel ih =>
    rw [readSegment]
    split
    · exact forall_mem_nil _
    · exact forall_mem_nil _
    · rename_i e n rest hnext
      exact forall_mem_cons.mpr ⟨fits_of_next hnext, ih⟩

/-- The entries that lie in front of a cut. -/
def before (sn : Snappy) : ℕ → List WALEntry → List WALEntry
  | _, [] => []
  | cut, e :: es => if (record sn e).length ≤ cut then e :: before sn (cut - (record sn e).length) es else []

variable {es : List WALEntry}

/-- What is left of a file are the records in front of the cut, and bytes at which a reader stops. -/
theorem take_records (hes : ∀ e ∈ es, Storable sn e) (cut : ℕ) :
    ∃ junk, Junk sn junk ∧ (es.flatMap (record sn)).take cut = (before sn cut es).flatMap (record sn) ++ junk := by
  induction es generalizing cut with
  | nil => exact ⟨[], .inl rfl, by simp [before]⟩
  | cons e es ih =>
    obtain ⟨he, hes⟩ := forall_mem_cons.mp hes
    rw [before, flatMap_cons]
    split_ifs with hcut
    · obtain ⟨junk, hjunk, htake⟩ := ih hes (cut - (record sn e).length)
      refine ⟨junk, hjunk, ?_⟩
      rw [take_append, take_of_length_le hcut, htake, flatMap_cons, append_assoc]
    · obtain ⟨b, -, hlen, hrecord⟩ := he.record_eq
      refine ⟨(record sn e).take cut, ?_, ?_⟩
      · rw [hrecord] at hcut ⊢
        exact junk_take_frame hlen (by omega)
      · rw [take_append_of_le_length (by omega)]
        rfl

theorem mem_of_mem_before {cut : ℕ} (h : e ∈ before sn cut es) : e ∈ es := by
  induction es generalizing cut with
  | nil => exact h
  | cons e' es ih =>
    rw [before] at h
    split_ifs at h
    · rcases mem_cons.mp h with rfl | h
      · exact mem_cons_self
      · exact mem_cons_of_mem _ (ih h)
    · cases h

theorem before_length (es : List WALEntry) : before sn (es.flatMap (record sn)).length es = es := by
  induction es with
  | nil => rfl
  | cons e es ih =>
    rw [before, flatMap_cons, length_append, if_pos (Nat.le_add_right _ _), Nat.add_sub_cancel_left, ih]

theorem length_before_le (hes : ∀ e ∈ es, Storable sn e) (cut : ℕ) : (before sn cut es).length ≤ cut := by
  induction es generalizing cut with
  | nil => exact Nat.zero_le _
  | cons e es ih =>
    obtain ⟨he, hes⟩ := forall_mem_cons.mp hes
    have hpos := he.length_pos
    have hrest := ih hes (cut - (record sn e).length)
    rw [before]
    split_ifs
    · rw [length_cons]
      omega
    · exact Nat.zero_le _

/-- What can be written: values of one type under each key, and ids that are not zero. -/
def WALEntry.Written : WALEntry → Prop
  | .write values => ∀ kv ∈ values.entries, Uniform kv.2
  | .deleteBucketRange orgID bucketID _ _ _ => orgID ≠ 0 ∧ bucketID ≠ 0

theorem WALEntry.Written.encodes (h : e.Written) : ∃ b, e.encode = .ok b := by
  cases e with
  | write values => exact ⟨_, encode_eq_ok h⟩
  | deleteBucketRange orgID bucketID min max predicate =>
    refine ⟨hexEncode (putUint 8 orgID) ++ hexEncode (putUint 8 bucketID) ++ putInt64 min ++
      putInt64 max ++ predicate, ?_⟩
    rw [encode, encodeID, if_neg h.1, encodeID, if_neg h.2]
    rfl

/-- Of every cut file a reader delivers the entries in front of the cut, and counts their bytes. -/
def ReadsCuts (sn : Snappy) (es : List WALEntry) : Prop :=
  ∀ cut, (readSegment sn (cut + 1) ((es.flatMap (record sn)).take cut)).entries = before sn cut es ∧
    (readSegment sn (cut + 1) ((es.flatMap (record sn)).take cut)).count =
      ((before sn cut es).flatMap (record sn)).length

/-- A reader delivers the entries of cut files exactly if all numbers and lengths fit their fields. -/
theorem readsCuts_iff (sn : Snappy) {es : List WALEntry} (hes : ∀ e ∈ es, e.Written)
    (hsized : ∀ e ∈ es, Sized sn e) :
    ReadsCuts sn es ↔ ∀ e ∈ es, e.Fits := by
  constructor
  · intro h e he
    have hall := (h (es.flatMap (record sn)).length).1
    rw [before_length] at hall
    exact fits_of_readSegment e (hall ▸ he)
  · intro hfits cut
    have hstorable : ∀ e ∈ es, Storable sn e := fun e he => by
      obtain ⟨b, hb⟩ := (hes e he).encodes
      exact ⟨⟨b, hb, hsized e he b hb⟩, hfits e he⟩
    obtain ⟨junk, hjunk, htake⟩ := take_records hstorable cut
    have hmem : ∀ e ∈ before sn cut es, Storable sn e := fun e he => hstorable e (mem_of_mem_before he)
    rw [htake, readSegment_records hmem hjunk (Nat.lt_succ_of_le (length_before_le hstorable cut))]
    exact ⟨rfl, rfl⟩

theorem readsCuts_pointAndDelete : ReadsCuts plain [point 1, .deleteBucketRange 1 2 (-3) 4 [5]] := by
  have hpoint : (point 1).Written :=
    forall_mem_singleton.mpr ⟨(1, .boolean true), rfl, forall_mem_singleton.mpr rfl⟩
  have hids : (WALEntry.deleteBucketRange 1 2 (-3) 4 [5]).Written := ⟨Nat.one_ne_zero, two_ne_zero⟩
  have hdelete : Sized plain (.deleteBucketRange 1 2 (-3) 4 [5]) := by
    intro b hb
    cases hb
    have hlen : (50 : ℕ) < 2 ^ 32 := by decide
    exact hlen
  refine (readsCuts_iff plain (forall_mem_cons.mpr ⟨hpoint, forall_mem_singleton.mpr hids⟩)
    (forall_mem_cons.mpr ⟨sized_point 1, forall_mem_singleton.mpr hdelete⟩)).mpr ?_
  refine forall_mem_cons.mpr ⟨fits_point (by decide), forall_mem_singleton.mpr ?_⟩
  exact ⟨by decide, by decide, by decide, by decide⟩

/-- A write with one value under a key of 2 ^ 16 bytes. -/
def longKey : WALEntry := .write (AList.singleton (replicate (2 ^ 16) 7) [(1, .boolean true)])

/-- The length of the key does not fit its two bytes, so the entry is not read back. -/
theorem not_readsCuts_longKey : longKey.Written ∧ ¬ReadsCuts plain [longKey] := by
  refine ⟨forall_mem_singleton.mpr ⟨(1, .boolean true), rfl, forall_mem_singleton.mpr rfl⟩, fun h => ?_⟩
  have hall := (h ([longKey].flatMap (record plain)).length).1
  rw [before_length] at hall
  have hfits : longKey.Fits := fits_of_readSegment longKey (hall ▸ mem_singleton.mpr rfl)
  have hkey := (forall_mem_singleton.mp hfits).key
  rw [length_replicate] at hkey
  exact absurd hkey (lt_irrefl _)

end InfluxDB.Wal
