import Mathlib.Data.List.Perm.Subperm
import InfluxDB.Tsm.CacheWrites
import InfluxDB.Tsm.CacheDelete

/-!
    The contents of the cache over runs of writes and snapshots.  A history beside the cache lists the
    points that were written with success and says how many of them there were when the last snapshot
    was taken and when the snapshot was taken that was last cleared with success.  The live store holds
    the points behind the former, the snapshot those between the two.
-/

namespace InfluxDB.Tsm

open Lib List Cache FinMap Nat

/-! ### Sizes -/

theorem size_deduplicate_le (a : Values Value) : a.deduplicate.size ≤ a.size := by
  obtain ⟨hasc, hlatest⟩ := deduplicate_spec a
  have hsub : a.deduplicate ⊆ a := fun p hp => by
    rw [← hasc.latest_eq_some_iff, hlatest] at hp
    exact mem_of_latest_eq_some hp
  obtain ⟨l, hperm, hsublist⟩ := subperm_of_subset hasc.nodup hsub
  rw [Values.size, Values.size, ← (hperm.map _).sum_eq]
  exact (hsublist.map _).sum_le_sum fun _ _ => zero_le _

theorem size_eq_zero {a : Values Value} (h : a.size = 0) : a = [] := by
  cases a with
  | nil => rfl
  | cons p a =>
    rw [Values.size, map_cons, sum_cons] at h
    have hpos : 0 < p.2.size := by
      cases p.2 <;> simp only [Value.size] <;> omega
    omega

namespace CacheRing

variable {r : CacheRing}

/-- A store without bytes has no values. -/
theorem valuesAt_eq_nil (h : r.bytes = 0) (k : Bytes) : r.valuesAt k = [] := by
  rw [valuesAt]
  cases hk : r.lookup k with
  | none => rfl
  | some e =>
    have hle := le_sumBy (fun k e => Values.size e.values + k.length) hk
    rw [← bytes, h] at hle
    exact size_eq_zero (le_zero.mp ((le_add_right _ _).trans hle))

theorem size_deduplicate_entry_le (e : Entry) : e.deduplicate.values.size ≤ e.values.size := by
  rw [Entry.deduplicate]
  split_ifs
  · exact le_rfl
  · exact size_deduplicate_le e.values

theorem bytes_filterMap_le {f : Bytes → Entry → Option Entry}
    (hf : ∀ k e, (f k e).elim 0 (fun e' => e'.values.size) ≤ e.values.size) :
    bytes (filterMap f r) ≤ r.bytes := by
  refine le_trans (le_add_right _ (sumBy (fun _ _ => 0) r)) (sumBy_filterMap_add _ _ _ _ ?_ r)
  intro k e
  have := hf k e
  cases hfe : f k e with
  | none => exact zero_le _
  | some e' =>
    rw [hfe] at this
    simpa using this

variable (r : CacheRing)

theorem bytes_deduplicate_le : r.deduplicate.bytes ≤ r.bytes :=
  bytes_filterMap_le fun _ e => size_deduplicate_entry_le e

theorem bytes_deduplicateKey_le (key : Bytes) : (r.deduplicateKey key).bytes ≤ r.bytes :=
  bytes_filterMap_le fun k e => by
    split_ifs
    · exact size_deduplicate_entry_le e
    · exact le_rfl

theorem latest_deduplicate (k : Bytes) (t : ℤ) : latest (r.deduplicate.valuesAt k) t = latest (r.valuesAt k) t := by
  rw [valuesAt, valuesAt, deduplicate, lookup_filterMap]
  cases r.lookup k with
  | none => rfl
  | some e => exact e.latest_deduplicate t

end CacheRing

/-! ### Calls and the history -/

/-- A call on the cache. -/
inductive CacheCall where
  | write (key : Bytes) (values : Values Value)
  | writeMulti (values : FinMap Bytes (Values Value))
  | snapshot
  | deduplicate
  | clearSnapshot (success : Bool)
  | values (key : Bytes)

/-- The points written with success in order, and their number when the last snapshot was taken and
when the snapshot was taken that was last cleared with success. -/
structure History where
  written : List (Bytes × (ℤ × Value))
  taken : ℕ
  cleared : ℕ

namespace History

/-- The points of a key. -/
def pointsOf (k : Bytes) (l : List (Bytes × (ℤ × Value))) : Values Value := (l.filter fun w => w.1 = k).map (·.2)

/-- The points of a key that were written since the snapshot was taken that was last cleared. -/
def since (h : History) (k : Bytes) : Values Value := pointsOf k (h.written.drop h.cleared)

end History

namespace CacheCall

open History CacheRing

/-- The points that a batch of writes adds: for each key all of them or none. -/
def acceptedOf (c : Cache) (batch : FinMap Bytes (Values Value)) : List (Bytes × (ℤ × Value)) :=
  if c.overLimit (sumBy (fun _ v => Values.size v) batch) then []
  else batch.entries.flatMap fun kv => (accepted (c.store.lookup kv.1) kv.2).map fun p => (kv.1, p)

/-- Whether `Snapshot` takes a new snapshot: none is in progress and none is retained. -/
def takes (c : Cache) : Bool := !c.snapshotting && decide ((c.snapshot.getD { store := ∅, size := 0 }).size = 0)

/-- One call, with its effect on the history. -/
def step (s : Cache × History) : CacheCall → Option (Cache × History)
  | .write key vs =>
    some ((s.1.write key vs).2, { s.2 with written := s.2.written ++ acceptedOf s.1 (AList.singleton key vs) })
  | .writeMulti batch =>
    some ((s.1.writeMulti batch).2, { s.2 with written := s.2.written ++ acceptedOf s.1 batch })
  | .snapshot =>
    some (s.1.takeSnapshot.2, { s.2 with taken := if takes s.1 then s.2.written.length else s.2.taken })
  | .deduplicate => some (s.1.deduplicateSnapshot, s.2)
  | .clearSnapshot success =>
    (s.1.clearSnapshot success).map fun c => (c, { s.2 with cleared := if success then s.2.taken else s.2.cleared })
  | .values key => some ((s.1.values key).2, s.2)

/-- A run of calls on a new cache; `ClearSnapshot` needs a snapshot. -/
def run (maxSize : ℕ) (calls : List CacheCall) : Option (Cache × History) :=
  calls.foldlM step (newCache maxSize, { written := [], taken := 0, cleared := 0 })

/-! ### The invariant -/

theorem pointsOf_append (k : Bytes) (a b : List (Bytes × (ℤ × Value))) :
    pointsOf k (a ++ b) = pointsOf k a ++ pointsOf k b := by
  rw [pointsOf, filter_append, map_append]
  rfl

theorem pointsOf_map (k k' : Bytes) (v : Values Value) :
    pointsOf k (v.map fun p => (k', p)) = if k = k' then v else [] := by
  rw [pointsOf, filter_map, map_map]
  split_ifs with hk
  · subst hk
    rw [filter_eq_self.mpr (by simp)]
    exact map_id _
  · rw [filter_eq_nil_iff.mpr fun p _ => by simpa using Ne.symm hk]
    rfl

/-- The points that the batch adds at one key. -/
theorem pointsOf_acceptedOf {c : Cache} {batch : FinMap Bytes (Values Value)}
    (hlimit : ¬ c.overLimit (sumBy (fun _ v => Values.size v) batch) = true) (k : Bytes) :
    pointsOf k (acceptedOf c batch) = (batch.lookup k).elim [] (accepted (c.store.lookup k)) := by
  rw [acceptedOf, if_neg hlimit, AList.lookup]
  obtain ⟨l, hl⟩ := batch
  clear hlimit
  induction l with
  | nil => rfl
  | cons kv l ih =>
    obtain ⟨k', v⟩ := kv
    obtain ⟨hk', htail⟩ := nodupKeys_cons.mp hl
    rw [flatMap_cons, pointsOf_append, ih htail, pointsOf_map]
    by_cases hk : k = k'
    · subst hk
      rw [dlookup_cons_eq, dlookup_eq_none.mpr hk', if_pos rfl]
      exact append_nil _
    · rw [dlookup_cons_ne l (⟨k', v⟩ : Sigma fun _ : Bytes => Values Value) hk, if_neg hk, nil_append]

/-- The live store holds the points behind the last snapshot, and the snapshot those between the one
that was last cleared and it. -/
structure Inv (c : Cache) (h : History) : Prop where
  live : ∀ k t, latest (c.store.valuesAt k) t = latest (pointsOf k (h.written.drop h.taken)) t
  held : ∀ k t, latest (c.snapshotAt k) t = latest (pointsOf k ((h.written.take h.taken).drop h.cleared)) t
  cleared_le : h.cleared ≤ h.taken
  taken_le : h.taken ≤ h.written.length
  covers : c.store.bytes ≤ c.cacheSize
  snapshot_covers : ∀ s ∈ c.snapshot, s.store.bytes ≤ s.size

variable {c : Cache} {h : History}

theorem Inv.init (maxSize : ℕ) : Inv (newCache maxSize) { written := [], taken := 0, cleared := 0 } :=
  ⟨fun _ _ => rfl, fun _ _ => rfl, le_rfl, le_rfl, le_rfl, nofun⟩

theorem Inv.writeMulti (hi : Inv c h) (batch : FinMap Bytes (Values Value)) :
    Inv (c.writeMulti batch).2 { h with written := h.written ++ acceptedOf c batch } := by
  by_cases hlimit : c.overLimit (sumBy (fun _ v => Values.size v) batch) = true
  · rw [(writeMulti_overLimit hlimit).1, acceptedOf, if_pos hlimit, append_nil]
    exact hi
  · obtain ⟨hwrote, -⟩ := writeMulti_spec hlimit
    refine ⟨fun k t => ?_, fun k t => ?_, hi.cleared_le, ?_, hwrote.covers hi.covers, ?_⟩
    · rw [drop_append_of_le_length hi.taken_le, pointsOf_append, pointsOf_acceptedOf hlimit,
        latest_append, ← hi.live, ← latest_append, valuesAt, hwrote.lookup, valuesAt]
      cases batch.lookup k with
      | none => rw [Option.elim_none, Option.elim_none, append_nil]
      | some v => rw [Option.elim_some, Option.elim_some, values_written]
    · rw [take_append_of_le_length hi.taken_le, ← hi.held, snapshotAt, hwrote.snapshot]
      rfl
    · rw [length_append]
      exact hi.taken_le.trans (le_add_right _ _)
    · rw [hwrote.snapshot]
      exact hi.snapshot_covers

/-- The points since the last clear are those of the snapshot under the live ones. -/
theorem Inv.latest_since (hi : Inv c h) (k : Bytes) (t : ℤ) :
    latest (h.since k) t = (latest (c.store.valuesAt k) t).or (latest (c.snapshotAt k) t) := by
  have hlen : h.cleared ≤ (h.written.take h.taken).length := by
    rw [length_take_of_le hi.taken_le]
    exact hi.cleared_le
  have hsplit : h.written.drop h.cleared = (h.written.take h.taken).drop h.cleared ++ h.written.drop h.taken := by
    rw [← drop_append_of_le_length hlen, take_append_drop]
  rw [since, hsplit, pointsOf_append, latest_append, hi.live, hi.held]

/-- A retained snapshot that has a recorded size is returned again. -/
theorem takeSnapshot_of_retained {s : Snapshot} (hs : c.snapshot = some s) (hsize : 0 < s.size)
    (hidle : c.snapshotting = false) : c.takeSnapshot = (.ok s, { c with snapshotting := true }) := by
  rw [takeSnapshot, hidle, hs]
  simp [hsize]

section

variable (hi : Inv c h)
include hi

/-- A snapshot without a recorded size has no values. -/
theorem Inv.snapshotAt_eq_nil (hsize : (c.snapshot.getD { store := ∅, size := 0 }).size = 0) (k : Bytes) :
    c.snapshotAt k = [] := by
  rw [snapshotAt]
  cases hs : c.snapshot with
  | none => rfl
  | some s =>
    rw [hs] at hsize
    exact valuesAt_eq_nil (le_zero.mp (hsize ▸ hi.snapshot_covers s hs)) k

theorem Inv.snapshot : Inv c.takeSnapshot.2 { h with taken := if takes c then h.written.length else h.taken } := by
  rw [takeSnapshot, takes]
  by_cases hbusy : c.snapshotting = true
  · rw [if_pos hbusy, hbusy]
    exact hi
  · have hidle : c.snapshotting = false := by simpa using hbusy
    rw [if_neg hbusy, hidle]
    by_cases hsize : (c.snapshot.getD { store := ∅, size := 0 }).size > 0
    · have hsome : c.snapshot = some (c.snapshot.getD { store := ∅, size := 0 }) := by
        cases hs : c.snapshot with
        | none =>
          rw [hs] at hsize
          exact absurd hsize (lt_irrefl 0)
        | some s => rfl
      rw [if_pos hsize, decide_eq_false (by omega)]
      refine ⟨hi.live, fun k t => ?_, hi.cleared_le, hi.taken_le, hi.covers, fun s hs => ?_⟩
      · rw [← hsome]
        exact hi.held k t
      · exact hi.snapshot_covers s (hsome.trans hs)
    · have hzero : (c.snapshot.getD { store := ∅, size := 0 }).size = 0 := by omega
      rw [if_neg hsize, decide_eq_true hzero]
      refine ⟨fun k t => ?_, fun k t => ?_, hi.cleared_le.trans hi.taken_le, le_rfl, le_rfl, ?_⟩
      · simp [pointsOf, valuesAt]
      · -- The snapshot before had no points, so all points since the last clear are live.
        have hsince := hi.latest_since k t
        rw [hi.snapshotAt_eq_nil hzero, latest_nil, Option.or_none] at hsince
        simp only [Bool.not_false, Bool.and_self, if_true, take_length]
        exact hsince.symm
      · rintro s ⟨⟩
        exact hi.covers.trans (le_add_right _ _)

theorem Inv.deduplicate : Inv c.deduplicateSnapshot h := by
  refine ⟨hi.live, fun k t => ?_, hi.cleared_le, hi.taken_le, hi.covers, ?_⟩
  · rw [← hi.held, snapshotAt, snapshotAt, deduplicateSnapshot]
    cases c.snapshot with
    | none => rfl
    | some s => exact s.store.latest_deduplicate k t
  · intro s hs
    rw [deduplicateSnapshot, Option.mem_map] at hs
    obtain ⟨s', hs', rfl⟩ := hs
    exact (s'.store.bytes_deduplicate_le).trans (hi.snapshot_covers s' hs')

theorem Inv.clearSnapshot {success : Bool} {c' : Cache} (hc : c.clearSnapshot success = some c') :
    Inv c' { h with cleared := if success then h.taken else h.cleared } := by
  rw [Cache.clearSnapshot, Option.map_eq_some_iff] at hc
  obtain ⟨s, hs, rfl⟩ := hc
  cases success with
  | false => exact ⟨hi.live, hi.held, hi.cleared_le, hi.taken_le, hi.covers, hi.snapshot_covers⟩
  | true =>
    refine ⟨hi.live, fun k t => ?_, le_rfl, hi.taken_le, hi.covers, ?_⟩
    · simp only [if_true]
      rw [drop_eq_nil_of_le (length_take_le _ _)]
      rfl
    · rintro s ⟨⟩
      exact le_rfl

theorem Inv.values (key : Bytes) : Inv (c.values key).2 h := by
  refine ⟨fun k t => ?_, fun k t => ?_, hi.cleared_le, hi.taken_le,
    (c.store.bytes_deduplicateKey_le key).trans hi.covers, ?_⟩
  · rw [← hi.live]
    exact c.store.latest_deduplicateKey key k t
  · rw [← hi.held, Cache.snapshotAt, Cache.snapshotAt, Cache.values]
    cases c.snapshot with
    | none => rfl
    | some s => exact s.store.latest_deduplicateKey key k t
  · intro s hs
    rw [Cache.values, Option.mem_map] at hs
    obtain ⟨s', hs', rfl⟩ := hs
    exact (s'.store.bytes_deduplicateKey_le key).trans (hi.snapshot_covers s' hs')

theorem Inv.step {call : CacheCall} {s : Cache × History} (hs : step (c, h) call = some s) : Inv s.1 s.2 := by
  cases call with
  | write key vs =>
    cases hs
    rw [write_eq_writeMulti]
    exact hi.writeMulti _
  | writeMulti batch =>
    cases hs
    exact hi.writeMulti batch
  | snapshot =>
    cases hs
    exact hi.snapshot
  | deduplicate =>
    cases hs
    exact hi.deduplicate
  | clearSnapshot success =>
    rw [CacheCall.step, Option.map_eq_some_iff] at hs
    obtain ⟨c', hc', rfl⟩ := hs
    exact hi.clearSnapshot hc'
  | values key =>
    cases hs
    exact hi.values key

end

theorem Inv.foldlM (calls : List CacheCall) (hi : Inv c h) {s : Cache × History}
    (hs : calls.foldlM CacheCall.step (c, h) = some s) : Inv s.1 s.2 := by
  induction calls generalizing c h with
  | nil =>
    cases hs
    exact hi
  | cons call calls ih =>
    rw [foldlM_cons, Option.bind_eq_bind, Option.bind_eq_some_iff] at hs
    obtain ⟨s', hstep, hrest⟩ := hs
    exact ih (hi.step hstep) hrest

/-! ### Contents -/

/-- A write that returns no error adds all its points. -/
theorem pointsOf_acceptedOf_of_none {batch : FinMap Bytes (Values Value)}
    (hok : (c.writeMulti batch).1 = none) (k : Bytes) :
    pointsOf k (acceptedOf c batch) = (batch.lookup k).getD [] := by
  by_cases hlimit : c.overLimit (sumBy (fun _ v => Values.size v) batch) = true
  · obtain ⟨-, _, _, herr⟩ := writeMulti_overLimit hlimit
    rw [hok] at herr
    cases herr
  · rw [pointsOf_acceptedOf hlimit]
    cases hv : batch.lookup k with
    | none => rfl
    | some v =>
      rcases writeEntry_cases (c.store.lookup k) v with herr | ⟨e, hwrite, -⟩
      · have := (writeMulti_spec hlimit).2 ⟨k, v, hv, herr⟩
        rw [hok] at this
        cases this
      · rw [Option.elim_some, Option.getD_some, accepted, hwrite]

/-- Writes do not touch the snapshot. -/
theorem foldl_writeMulti (batches : List (FinMap Bytes (Values Value))) (c : Cache) :
    (batches.foldl (fun c batch => (c.writeMulti batch).2) c).snapshot = c.snapshot ∧
      (batches.foldl (fun c batch => (c.writeMulti batch).2) c).snapshotting = c.snapshotting := by
  induction batches generalizing c with
  | nil => exact ⟨rfl, rfl⟩
  | cons batch batches ih =>
    obtain ⟨hsnap, hbusy⟩ := ih (c.writeMulti batch).2
    rw [foldl_cons, hsnap, hbusy]
    by_cases hlimit : c.overLimit (sumBy (fun _ v => Values.size v) batch) = true
    · rw [(writeMulti_overLimit hlimit).1]
      exact ⟨rfl, rfl⟩
    · have hwrote := (writeMulti_spec hlimit).1
      exact ⟨hwrote.snapshot, hwrote.snapshotting⟩

/-- After every run of calls, `Values` of a key is sorted without duplicates and holds what the
points hold that were written with success since the snapshot was taken that was last cleared; a write
without an error adds all its points to these; and after a failed clear and any writes the next
`Snapshot` returns the values that were retained. -/
theorem run_contents {maxSize : ℕ} {calls : List CacheCall} {c : Cache} {h : History}
    (hrun : run maxSize calls = some (c, h)) :
    (∀ k, Ascending (c.values k).1 ∧ ∀ t, latest (c.values k).1 t = latest (h.since k) t) ∧
    (∀ batch, (c.writeMulti batch).1 = none → ∀ k, pointsOf k (acceptedOf c batch) = (batch.lookup k).getD []) ∧
    (∀ s, c.snapshot = some s → (∃ k, s.store.valuesAt k ≠ []) → ∀ c', c.clearSnapshot false = some c' →
      ∀ batches : List (FinMap Bytes (Values Value)),
        (batches.foldl (fun c batch => (c.writeMulti batch).2) c').takeSnapshot.1 = .ok s) := by
  have hi : Inv c h := Inv.foldlM calls (Inv.init maxSize) hrun
  refine ⟨fun k => ⟨(c.values_spec k).1, fun t => ?_⟩, fun batch hok k => pointsOf_acceptedOf_of_none hok k, ?_⟩
  · rw [(c.values_spec k).2 t, hi.latest_since]
  · rintro s hs ⟨k, hk⟩ c' hclear batches
    have hsize : 0 < s.size := by
      by_contra hzero
      exact hk (valuesAt_eq_nil (le_zero.mp ((hi.snapshot_covers s hs).trans (not_lt.mp hzero))) k)
    have hkept : c'.snapshot = some s ∧ c'.snapshotting = false := by
      rw [Cache.clearSnapshot, hs] at hclear
      cases hclear
      exact ⟨rfl, rfl⟩
    obtain ⟨hsnap, hbusy⟩ := foldl_writeMulti batches c'
    rw [takeSnapshot_of_retained (hsnap.trans hkept.1) hsize (hbusy.trans hkept.2)]

/-- A run with a write behind a snapshot, a failed clear and a clear with success. -/
def failedClear : List CacheCall :=
  [.write [1] [(5, .integer 1), (3, .integer 2)], .snapshot, .write [1] [(5, .integer 3)],
    .clearSnapshot false, .snapshot,
    .write [2] [(8, .boolean true)], .deduplicate, .clearSnapshot true]

theorem run_contents_failedClear :
    ∃ s, run 0 failedClear = some s ∧
      ∀ k, Ascending (s.1.values k).1 ∧ ∀ t, latest (s.1.values k).1 t = latest (s.2.since k) t := by
  have hsome : (run 0 failedClear).isSome = true := rfl
  obtain ⟨⟨c, h⟩, hrun⟩ := Option.isSome_iff_exists.mp hsome
  exact ⟨(c, h), hrun, (run_contents hrun).1⟩

/-- Readers do not see that a snapshot is taken, sorted or kept for another attempt. -/
theorem values_snapshot {maxSize : ℕ} {calls : List CacheCall} {call : CacheCall} {s s' : Cache × History}
    (hrun : run maxSize calls = some s) (hstep : step s call = some s')
    (hcall : call = .snapshot ∨ call = .deduplicate ∨ call = .clearSnapshot false) (k : Bytes) :
    (s'.1.values k).1 = (s.1.values k).1 := by
  have hi : Inv s.1 s.2 := Inv.foldlM calls (Inv.init maxSize) hrun
  have hi' := hi.step hstep
  have hsince : s'.2.since k = s.2.since k := by
    rcases hcall with rfl | rfl | rfl
    · cases hstep
      rfl
    · cases hstep
      rfl
    · obtain ⟨_, -, rfl⟩ := Option.map_eq_some_iff.mp hstep
      rfl
  refine (s'.1.values_spec k).1.ext (s.1.values_spec k).1 fun t => ?_
  rw [(s'.1.values_spec k).2, (s.1.values_spec k).2, ← hi'.latest_since, ← hi.latest_since, hsince]

theorem values_snapshot_failedClear : ∃ s s', run 0 failedClear = some s ∧ step s .snapshot = some s' ∧
    (s'.1.values [2]).1 = (s.1.values [2]).1 := by
  obtain ⟨s, hrun⟩ : ∃ s, run 0 failedClear = some s := ⟨_, rfl⟩
  exact ⟨s, _, hrun, rfl, values_snapshot hrun rfl (.inl rfl) [2]⟩

end CacheCall

end InfluxDB.Tsm
