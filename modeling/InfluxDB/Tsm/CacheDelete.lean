import InfluxDB.Tsm.Cache

/-!
    Deletes in the cache.  `DeleteBucketRange` removes the points of a time range from the live entries
    of the keys that match, and leaves the snapshot alone, while `Values` reads both.  So the delete is
    complete exactly if the snapshot has no point in the range at a key that matches.
-/

namespace InfluxDB.Tsm

open Lib List Option CacheRing

namespace Entry

/-- The entry reads as the values do. -/
theorem latest_deduplicate (e : Entry) (t : ℤ) : latest e.deduplicate.values t = latest e.values t := by
  rw [deduplicate]
  split_ifs
  · rfl
  · exact (deduplicate_spec e.values).2 t

theorem ascending_of_length_le_one {a : Values Value} (h : a.length ≤ 1) : Ascending a := by
  rcases a with _ | ⟨p, _ | ⟨q, a⟩⟩
  · exact ascending_nil
  · exact pairwise_singleton _ _
  · rw [length_cons, length_cons] at h
    omega

/-- `filter` takes the times of the range out of the entry. -/
theorem latest_filter_eq (e : Entry) (min max t : ℤ) :
    latest (e.filter min max).values t = if min ≤ t ∧ t ≤ max then none else latest e.values t := by
  have hvalues : ∃ values : Values Value, (e.filter min max).values = values.exclude min max ∧ Ascending values ∧
      latest values t = latest e.values t := by
    rw [filter]
    by_cases hlen : e.values.length > 1
    · rw [if_pos hlen]
      exact ⟨_, rfl, (deduplicate_spec e.values).1, (deduplicate_spec e.values).2 t⟩
    · rw [if_neg hlen]
      exact ⟨_, rfl, ascending_of_length_le_one (by omega), rfl⟩
  obtain ⟨values, hfilter, hasc, hlatest⟩ := hvalues
  rw [hfilter, exclude_eq_filter hasc, ← hlatest, latest_filter fun t => !(decide (min ≤ t) && decide (t ≤ max))]
  by_cases ht : min ≤ t ∧ t ≤ max
  · simp [ht.1, ht.2]
  · rw [if_neg ht]
    have hf : (!(decide (min ≤ t) && decide (t ≤ max))) = true := by
      rw [← Bool.decide_and, ← decide_not]
      exact decide_eq_true ht
    rw [if_pos hf]

end Entry

namespace CacheRing

variable (r : CacheRing) (key k : Bytes)

theorem lookup_deduplicateKey :
    (r.deduplicateKey key).lookup k = (r.lookup k).map fun e => if k = key then e.deduplicate else e := by
  rw [deduplicateKey, FinMap.lookup_filterMap]
  cases r.lookup k <;> rfl

theorem latest_deduplicateKey (t : ℤ) : latest ((r.deduplicateKey key).valuesAt k) t = latest (r.valuesAt k) t := by
  rw [valuesAt, valuesAt, lookup_deduplicateKey]
  cases r.lookup k with
  | none => rfl
  | some e =>
    simp only [map_some, getD_some]
    split_ifs
    · exact e.latest_deduplicate t
    · rfl

end CacheRing

namespace Cache

variable (c : Cache)

/-- The values of the key in the snapshot. -/
def snapshotAt (key : Bytes) : Values Value := c.snapshot.elim [] fun s => s.store.valuesAt key

/-- `Values` is sorted and shows the live values over those of the snapshot. -/
theorem values_spec (key : Bytes) :
    Ascending (c.values key).1 ∧
      ∀ t, latest (c.values key).1 t = (latest (c.store.valuesAt key) t).or (latest (c.snapshotAt key) t) := by
  obtain ⟨hasc, hlatest⟩ := deduplicate_spec
    (((c.values key).2.snapshot.elim [] fun s => s.store.valuesAt key) ++ (c.values key).2.store.valuesAt key)
  refine ⟨hasc, fun t => (hlatest t).trans ?_⟩
  rw [latest_append]
  congr 1
  · exact c.store.latest_deduplicateKey key key t
  · simp only [values, snapshotAt]
    cases c.snapshot with
    | none => rfl
    | some s => exact s.store.latest_deduplicateKey key key t

/-- The keys that a delete is about. -/
def Matches (name : Bytes) (pred : Option (Bytes → Bool)) (k : Bytes) : Prop :=
  name <+: k ∧ ∀ p ∈ pred, p k = true

variable (name : Bytes) (min max : ℤ) (pred : Option (Bytes → Bool)) {k : Bytes}

theorem deleteFrom_of_not_matches (h : ¬ Matches name pred k) (e : Entry) :
    (deleteFrom name min max pred k e).1 = some e := by
  rw [deleteFrom]
  split_ifs with hempty hname hpred
  · rfl
  · rfl
  · rfl
  all_goals
    refine absurd ⟨by simpa using hname, fun p hp => ?_⟩ h
    simpa [mem_def.mp hp] using hpred

/-- What is left of the entry of a key that matches. -/
theorem latest_deleteFrom (h : Matches name pred k) (e : Entry) (t : ℤ) :
    latest (((deleteFrom name min max pred k e).1.map Entry.values).getD []) t =
      if AllTimes min max ∨ (min ≤ t ∧ t ≤ max) then none else latest e.values t := by
  have hname : ¬ (!name.isPrefixOf k) = true := by simpa using h.1
  have hpred : ¬ (pred.any fun p => !p k) = true := by
    cases pred with
    | none => simp
    | some p => simpa using h.2 p rfl
  rw [deleteFrom]
  by_cases hempty : e.values.length = 0
  · rw [if_pos hempty]
    simp [eq_nil_of_length_eq_zero hempty]
  · rw [if_neg hempty, if_neg hname, if_neg hpred]
    by_cases hall : AllTimes min max
    · rw [if_pos hall, if_pos (.inl hall)]
      rfl
    · rw [if_neg hall]
      have hfilter := e.latest_filter_eq min max t
      simp only [hall, false_or]
      rw [← hfilter]
      split_ifs with hnone
      · rw [eq_nil_of_length_eq_zero hnone]
        rfl
      · rfl

/-- The values of the key in the snapshot are not touched. -/
theorem snapshotAt_deleteBucketRange (k : Bytes) :
    (c.deleteBucketRange name min max pred).snapshotAt k = c.snapshotAt k := rfl

theorem lookup_deleteBucketRange (k : Bytes) :
    (c.deleteBucketRange name min max pred).store.lookup k =
      (c.store.lookup k).bind fun e => (deleteFrom name min max pred k e).1 :=
  FinMap.lookup_filterMap _ _ _

theorem values_deleteBucketRange_of_not_matches (h : ¬ Matches name pred k) :
    ((c.deleteBucketRange name min max pred).values k).1 = (c.values k).1 := by
  have hlookup : (c.deleteBucketRange name min max pred).store.lookup k = c.store.lookup k := by
    rw [lookup_deleteBucketRange]
    cases c.store.lookup k with
    | none => rfl
    | some e => exact deleteFrom_of_not_matches name min max pred h e
  have hvalues : (c.deleteBucketRange name min max pred).store.valuesAt k = c.store.valuesAt k := by
    rw [valuesAt, hlookup, valuesAt]
  obtain ⟨hasc, hlatest⟩ := (c.deleteBucketRange name min max pred).values_spec k
  obtain ⟨hasc', hlatest'⟩ := c.values_spec k
  exact hasc.ext hasc' fun t => by rw [hlatest, hlatest', hvalues, snapshotAt_deleteBucketRange]

/-- What a key that matches reads as after the delete. -/
theorem latest_deleteBucketRange (h : Matches name pred k) (t : ℤ) :
    latest ((c.deleteBucketRange name min max pred).values k).1 t =
      (if AllTimes min max ∨ (min ≤ t ∧ t ≤ max) then none else latest (c.store.valuesAt k) t).or
        (latest (c.snapshotAt k) t) := by
  rw [((c.deleteBucketRange name min max pred).values_spec k).2, snapshotAt_deleteBucketRange, valuesAt,
    lookup_deleteBucketRange, valuesAt]
  cases c.store.lookup k with
  | none => simp
  | some e =>
    rw [bind_some, latest_deleteFrom name min max pred h]
    rfl

/-- After a delete no key that matches has a point in the range, and no other key has changed,
exactly if the snapshot has no point in the range at a key that matches. -/
theorem deleteBucketRange_complete_iff :
    ((∀ k, Matches name pred k → ∀ p ∈ ((c.deleteBucketRange name min max pred).values k).1,
      ¬ (min ≤ p.1 ∧ p.1 ≤ max)) ∧
        ∀ k, ¬ Matches name pred k → ((c.deleteBucketRange name min max pred).values k).1 = (c.values k).1) ↔
      ∀ k, Matches name pred k → ∀ p ∈ c.snapshotAt k, ¬ (min ≤ p.1 ∧ p.1 ≤ max) := by
  constructor
  · rintro ⟨hcomplete, -⟩ k hk p hp hrange
    obtain ⟨v, hv⟩ := exists_latest_of_mem hp
    have hlatest := c.latest_deleteBucketRange name min max pred hk p.1
    rw [if_pos (.inr hrange), none_or, hv] at hlatest
    exact hcomplete k hk (p.1, v) (mem_of_latest_eq_some hlatest) hrange
  · intro hsnapshot
    refine ⟨fun k hk p hp hrange => ?_, fun k hk => c.values_deleteBucketRange_of_not_matches name min max pred hk⟩
    obtain ⟨v, hv⟩ := exists_latest_of_mem hp
    rw [c.latest_deleteBucketRange name min max pred hk p.1, if_pos (.inr hrange), none_or] at hv
    exact hsnapshot k hk (p.1, v) (mem_of_latest_eq_some hv) hrange

/-- A point that is in an outstanding snapshot is still read after it was deleted. -/
theorem not_complete_snapshot :
    (((((newCache 0).write [1] [(5, .integer 7)]).2.takeSnapshot.2.deleteBucketRange [1] 0 9 none).values [1]).1 =
      [(5, .integer 7)]) := by
  decide

end Cache

end InfluxDB.Tsm
