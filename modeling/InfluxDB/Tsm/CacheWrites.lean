import InfluxDB.Tsm.Cache

/-!
    What the two write calls of the cache leave at each key.  `Write` is `WriteMulti` of one key; each
    key of a batch is written as if it were alone, and the sizes that the cache keeps cover the entries
    of its store.
-/

namespace InfluxDB.Tsm

open Lib List Option AList

namespace CacheRing

variable (e : Option Entry) (values : Values Value)

/-- A write adds the values to those of the entry, or fails for their types. -/
theorem writeEntry_cases :
    writeEntry e values = .error .fieldTypeConflict ∨
      ∃ e', writeEntry e values = .ok e' ∧ e'.values = (e.map Entry.values).getD [] ++ values := by
  cases e with
  | none =>
    cases values with
    | nil => exact .inr ⟨_, rfl, rfl⟩
    | cons v values =>
      rw [writeEntry, Entry.newEntryValues]
      split_ifs
      · exact .inl rfl
      · exact .inr ⟨_, rfl, rfl⟩
  | some e =>
    cases values with
    | nil => exact .inr ⟨e, rfl, (append_nil _).symm⟩
    | cons v values =>
      rw [writeEntry, Entry.add]
      split_ifs with hconflict hempty
      · exact .inl rfl
      · refine .inr ⟨_, rfl, ?_⟩
        rw [map_some, getD_some, eq_nil_of_length_eq_zero hempty]
        rfl
      · exact .inr ⟨_, rfl, rfl⟩

/-- The entry that a write leaves at a key, whether it succeeds or not. -/
def written (e : Option Entry) (values : Values Value) : Option Entry :=
  match writeEntry e values with
  | .ok e' => some e'
  | .error _ => e

/-- The values that a write adds at a key: all of them or none. -/
def accepted (e : Option Entry) (values : Values Value) : Values Value :=
  match writeEntry e values with
  | .ok _ => values
  | .error _ => []

theorem values_written :
    ((written e values).map Entry.values).getD [] = (e.map Entry.values).getD [] ++ accepted e values := by
  rw [written, accepted]
  rcases writeEntry_cases e values with herr | ⟨e', hok, hvalues⟩
  · rw [herr]
    exact (append_nil _).symm
  · rw [hok]
    exact hvalues

theorem write_eq (r : CacheRing) (key : Bytes) (values : Values Value) :
    (r.write key values = .error .fieldTypeConflict ∧ written (r.lookup key) values = r.lookup key ∧
        accepted (r.lookup key) values = []) ∨
      ∃ e, r.write key values = .ok ((r.lookup key).isNone, r.insert key e) ∧
        written (r.lookup key) values = some e ∧ accepted (r.lookup key) values = values := by
  rw [write, written, accepted]
  rcases writeEntry_cases (r.lookup key) values with herr | ⟨e, hok, -⟩
  · rw [herr]
    exact .inl ⟨rfl, rfl, rfl⟩
  · rw [hok]
    exact .inr ⟨e, rfl, rfl, rfl⟩

/-- The bytes of the entries and their keys. -/
def bytes (r : CacheRing) : ℕ := FinMap.sumBy (fun k e => e.values.size + k.length) r

end CacheRing

theorem size_append (a b : Values Value) : Values.size (a ++ b) = a.size + b.size := by
  rw [Values.size, map_append, sum_append]
  rfl

namespace Cache

open CacheRing

section

variable {kvs : List (Sigma fun _ : Bytes => Values Value)} (hkvs : kvs.NodupKeys)
  (store : CacheRing) (werr : Option CacheError) (n : ℕ)
include hkvs store werr n

/-- What the loop of `WriteMulti` leaves at each key. -/
theorem lookup_writeKeys (k : Bytes) :
    (writeKeys kvs store werr n).2.1.lookup k = (kvs.dlookup k).elim (store.lookup k) (written (store.lookup k)) := by
  induction kvs generalizing store werr n with
  | nil => rfl
  | cons kv kvs ih =>
    obtain ⟨k', v⟩ := kv
    obtain ⟨hk', htail⟩ := nodupKeys_cons.mp hkvs
    rw [writeKeys]
    have hrest : ∀ (store' : CacheRing) werr' n', (∀ k'', k'' ≠ k' → store'.lookup k'' = store.lookup k'') →
        store'.lookup k' = written (store.lookup k') v → (writeKeys kvs store' werr' n').2.1.lookup k =
          (dlookup k (⟨k', v⟩ :: kvs)).elim (store.lookup k) (written (store.lookup k)) := by
      intro store' werr' n' hne heq
      rw [ih htail]
      by_cases hk : k = k'
      · subst hk
        rw [dlookup_cons_eq, dlookup_eq_none.mpr hk']
        exact heq
      · rw [dlookup_cons_ne kvs (⟨k', v⟩ : Sigma fun _ : Bytes => Values Value) hk, hne k hk]
    rcases store.write_eq k' v with ⟨herr, hsame, -⟩ | ⟨e, hok, hwritten, -⟩
    · rw [herr]
      exact hrest store _ _ (fun _ _ => rfl) hsame.symm
    · rw [hok]
      exact hrest _ _ _ (fun k'' hne => lookup_insert_ne hne) ((lookup_insert _).trans hwritten.symm)

/-- The error of `WriteMulti` is a type conflict at one of the keys. -/
theorem error_writeKeys :
    ((∃ kv ∈ kvs, writeEntry (store.lookup kv.1) kv.2 = .error .fieldTypeConflict) →
        (writeKeys kvs store werr n).1 = some .fieldTypeConflict) ∧
      ((∀ kv ∈ kvs, writeEntry (store.lookup kv.1) kv.2 ≠ .error .fieldTypeConflict) →
        (writeKeys kvs store werr n).1 = werr) := by
  induction kvs generalizing store werr n with
  | nil =>
    refine ⟨?_, fun _ => rfl⟩
    rintro ⟨kv, hkv, -⟩
    exact absurd hkv not_mem_nil
  | cons kv kvs ih =>
    obtain ⟨k', v⟩ := kv
    obtain ⟨hk', htail⟩ := nodupKeys_cons.mp hkvs
    have hother : ∀ kv ∈ kvs, kv.1 ≠ k' := by
      rintro kv hkv rfl
      exact hk' (mem_keys_of_mem hkv : kv.1 ∈ kvs.keys)
    rw [writeKeys, CacheRing.write]
    rcases writeEntry_cases (store.lookup k') v with herr | ⟨e, hok, -⟩
    · rw [herr]
      refine ⟨fun _ => ?_, fun hall => absurd herr (hall ⟨k', v⟩ mem_cons_self)⟩
      obtain ⟨hsome, hnone⟩ := ih htail store (some .fieldTypeConflict) (n - v.size)
      by_cases hex : ∃ kv ∈ kvs, writeEntry (store.lookup kv.1) kv.2 = .error .fieldTypeConflict
      · exact hsome hex
      · exact hnone fun kv hkv herr => hex ⟨kv, hkv, herr⟩
    · rw [hok]
      have hsame : ∀ kv ∈ kvs, (store.insert k' e).lookup kv.1 = store.lookup kv.1 := fun kv hkv =>
        lookup_insert_ne (hother kv hkv)
      obtain ⟨hsome, hnone⟩ := ih htail (store.insert k' e) werr
        (n + if (store.lookup k').isNone then k'.length else 0)
      constructor
      · rintro ⟨kv, hkv, herr⟩
        rcases mem_cons.mp hkv with rfl | hkv
        · rw [hok] at herr
          cases herr
        · exact hsome ⟨kv, hkv, by rw [hsame kv hkv, herr]⟩
      · exact fun hall => hnone fun kv hkv => by
          rw [hsame kv hkv]
          exact hall kv (mem_cons_of_mem _ hkv)

end

/-- The bytes added cover the values that were added. -/
theorem bytes_writeKeys (kvs : List (Sigma fun _ : Bytes => Values Value)) (store : CacheRing)
    (werr : Option CacheError) {n : ℕ} (hn : (kvs.map fun kv => kv.2.size).sum ≤ n) :
    (writeKeys kvs store werr n).2.1.bytes + (n - (kvs.map fun kv => kv.2.size).sum) ≤
      store.bytes + (writeKeys kvs store werr n).2.2 := by
  induction kvs generalizing store werr n with
  | nil => simp [writeKeys]
  | cons kv kvs ih =>
    obtain ⟨k', v⟩ := kv
    rw [map_cons, sum_cons] at hn ⊢
    dsimp only at hn ⊢
    rw [writeKeys, CacheRing.write]
    rcases writeEntry_cases (store.lookup k') v with herr | ⟨e, hok, hvalues⟩
    · rw [herr]
      have := ih store (some .fieldTypeConflict) (n := n - v.size) (by omega)
      simp only [Except.map]
      omega
    · rw [hok]
      have hbytes := FinMap.sumBy_insert (fun k e => e.values.size + k.length) store k' e
      have hsize : e.values.size = (((store.lookup k').map Entry.values).getD []).size + v.size := by
        rw [hvalues, size_append]
      have := ih (store.insert k' e) werr (n := n + if (store.lookup k').isNone then k'.length else 0) (by omega)
      simp only [Except.map, bytes] at this ⊢
      cases hlookup : store.lookup k' with
      | none =>
        rw [hlookup] at hbytes hsize this
        have hzero : Values.size ([] : Values Value) = 0 := rfl
        simp only [elim_none, map_none, getD_none, isNone_none, if_true, hzero] at hbytes hsize this ⊢
        omega
      | some e₀ =>
        rw [hlookup] at hbytes hsize this
        simp only [elim_some, map_some, getD_some, isNone_some] at hbytes hsize this ⊢
        simp only [Bool.false_eq_true, if_false] at this ⊢
        omega

/-- `Write` is `WriteMulti` of one key. -/
theorem write_eq_writeMulti (c : Cache) (key : Bytes) (values : Values Value) :
    c.write key values = c.writeMulti (singleton key values) := by
  have hsum : FinMap.sumBy (fun _ v => Values.size v) (singleton key values) = values.size := Nat.add_zero _
  rw [write, writeMulti, hsum]
  by_cases hlimit : c.overLimit values.size = true
  · rw [if_pos hlimit, if_pos hlimit]
  · rw [if_neg hlimit, if_neg hlimit]
    have hentries : (singleton key values : FinMap Bytes (Values Value)).entries = [⟨key, values⟩] := rfl
    rw [hentries, writeKeys]
    cases c.store.write key values with
    | error err | ok r => simp [writeKeys]

/-- What a write call leaves: the entries of its keys, each written as if alone, and a size that
covers the store if it did before. -/
structure Wrote (c : Cache) (batch : FinMap Bytes (Values Value)) (c' : Cache) : Prop where
  lookup : ∀ k, c'.store.lookup k = (batch.lookup k).elim (c.store.lookup k) (written (c.store.lookup k))
  covers : c.store.bytes ≤ c.cacheSize → c'.store.bytes ≤ c'.cacheSize
  maxSize : c'.maxSize = c.maxSize
  snapshot : c'.snapshot = c.snapshot
  snapshotting : c'.snapshotting = c.snapshotting
  snapshotSize : c'.snapshotSize = c.snapshotSize

section

variable {c : Cache} {batch : FinMap Bytes (Values Value)}

theorem writeMulti_overLimit (h : c.overLimit (FinMap.sumBy (fun _ v => Values.size v) batch) = true) :
    (c.writeMulti batch).2 = c ∧ ∃ size limit,
      (c.writeMulti batch).1 = some (.memorySizeLimitExceeded size limit) := by
  rw [writeMulti]
  rw [if_pos h]
  exact ⟨rfl, _, _, rfl⟩

theorem writeMulti_spec (h : ¬ c.overLimit (FinMap.sumBy (fun _ v => Values.size v) batch) = true) :
    Wrote c batch (c.writeMulti batch).2 ∧
      ((∃ k v, batch.lookup k = some v ∧ writeEntry (c.store.lookup k) v = .error .fieldTypeConflict) →
        (c.writeMulti batch).1 = some .fieldTypeConflict) := by
  rw [writeMulti]
  rw [if_neg h]
  refine ⟨⟨fun k => lookup_writeKeys batch.nodupKeys _ _ _ k, fun hcovers => ?_, rfl, rfl, rfl, rfl⟩, ?_⟩
  · have hbytes := bytes_writeKeys batch.entries c.store none (le_refl (FinMap.sumBy (fun _ v => Values.size v) batch))
    exact (le_of_add_le_left hbytes).trans (Nat.add_le_add_right hcovers _)
  · rintro ⟨k, v, hk, herr⟩
    exact (error_writeKeys batch.nodupKeys _ _ _).1 ⟨⟨k, v⟩, mem_lookup_iff.mp hk, herr⟩

end

end Cache

end InfluxDB.Tsm
