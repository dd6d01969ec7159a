import InfluxDB.Storage.Engine
import InfluxDB.Wal.Sessions

/-!
    Snapshots and the only copy of a write.  The files of the file store hold the points up to the snapshot
    that was last committed, and the log holds the points behind it.  A commit removes the segments that
    were closed when the snapshot was acquired, so what was written since the snapshot was taken has to be
    in other segments.  That is so when nothing was written between the time a snapshot was taken and the
    time it was acquired; a snapshot that was retained after a failure is taken once and acquired again.

    At most one attempt has the snapshot, beside those that have failed behind their `ClearSnapshot(true)`
    and have only their deferred `ClearSnapshot(false)` to make.  That call takes the flag of the snapshot
    away from an attempt that has acquired one in between.
-/

namespace InfluxDB.Storage

open Lib Tsm Wal History List Bool Engine Session Cache

variable {sn : Snappy} {E : ℕ → List WALEntry} {l : Log} {files : List ℕ}

/-! ### The log -/

/-- An entry has the point. -/
def HeldBy (entries : List WALEntry) (p : Bytes × (ℤ × Value)) : Prop :=
  ∃ m, WALEntry.write m ∈ entries ∧ ∃ vs, m.lookup p.1 = some vs ∧ p.2 ∈ vs

variable {p : Bytes × (ℤ × Value)}

theorem HeldBy.mono {entries entries' : List WALEntry} (h : HeldBy entries p)
    (hsub : entries ⊆ entries') : HeldBy entries' p := by
  obtain ⟨m, hm, hp⟩ := h
  exact ⟨m, hsub hm, hp⟩

/-- The log of an open engine: its writer, if it has one, is at the end of a file that is none of the given ones. -/
structure Logged (sn : Snappy) (l : Log) (E : ℕ → List WALEntry) (files : List ℕ) : Prop where
  running : Running sn l E
  atEnd : l.wal.currentSegmentWriter ≠ none → l.AtEnd
  behind : l.Behind files

theorem keptOutside_subset_kept (files : List ℕ) (disk : Disk) (E : ℕ → List WALEntry) :
    keptOutside files disk E ⊆ kept disk E := by
  intro e he
  obtain ⟨id, hid, he⟩ := mem_flatMap.mp he
  exact mem_flatMap.mpr ⟨id, (mem_filter.mp hid).1, he⟩

section

variable (h : Logged sn l E files)
include h

theorem Logged.release : Logged sn l E [] := ⟨h.running, h.atEnd, Log.behind_nil⟩

theorem Logged.write {e : WALEntry} (he : Storable sn e) :
    ∃ E', Logged sn (l.rollSegment.append (record sn e)) E' files ∧
      kept (l.rollSegment.append (record sn e)).disk E' = kept l.disk E ++ [e] ∧
      keptOutside files (l.rollSegment.append (record sn e)).disk E' = keptOutside files l.disk E ++ [e] := by
  have hend : l.rolls = false → l.AtEnd := by
    intro hrolls
    refine h.atEnd fun hnone => ?_
    rw [Log.rolls, hnone] at hrolls
    exact absurd hrolls (by decide)
  obtain ⟨E', hrun, hatEnd, hbehind⟩ := h.running.write hend he
  have hall := (hbehind [] Log.behind_nil).2
  rw [keptOutside_nil, keptOutside_nil] at hall
  exact ⟨E', ⟨hrun, fun _ => hatEnd, (hbehind files h.behind).1⟩, hall, (hbehind files h.behind).2⟩

theorem Logged.closeSegment :
    Logged sn l.closeSegment E files ∧ kept l.closeSegment.disk E = kept l.disk E ∧
      keptOutside files l.closeSegment.disk E = keptOutside files l.disk E ∧
      Logged sn l.closeSegment E l.closeSegment.closedSegments := by
  obtain ⟨hrun, hnew, hbehind⟩ := h.running.closeSegment
  have hend : l.closeSegment.wal.currentSegmentWriter ≠ none → l.closeSegment.AtEnd := by
    cases hcloses : l.closes with
    | true => exact fun _ => hnew hcloses
    | false =>
      rw [Log.closeSegment, hcloses]
      exact h.atEnd
  have hall := (hbehind [] Log.behind_nil).2
  rw [keptOutside_nil, keptOutside_nil] at hall
  obtain ⟨hfiles, hkept⟩ := hbehind files h.behind
  exact ⟨⟨hrun, hend, hfiles⟩, hall, hkept, hrun, hend, hrun.behind_closedSegments⟩

theorem Logged.remove {f : ℕ} (hf : f ∈ files) :
    ∃ E', Logged sn (l.remove [f]) E' files ∧
      keptOutside files (l.remove [f]).disk E' = keptOutside files l.disk E := by
  obtain ⟨E', hrun, -, houtside⟩ := h.running.remove [f]
  refine ⟨E', ⟨hrun, fun hwriter => ?_, h.behind⟩, houtside files (by simpa using hf)⟩
  obtain ⟨w, hw, c, hc, hpos⟩ := h.atEnd hwriter
  refine ⟨w, hw, c, ?_, hpos⟩
  have hne : w.segment ≠ f := fun heq => h.behind.2 w hw (heq ▸ hf)
  rw [Log.remove, lookup_remove, if_neg (by simpa using hne)]
  exact hc

/-- What the entries of the log have can be read from its files. -/
theorem Logged.readable (hp : HeldBy (kept l.disk E) p) :
    ∃ id content, l.disk.lookup id = some content ∧ HeldBy (readFile sn content).1 p := by
  obtain ⟨m, hm, hp⟩ := hp
  obtain ⟨id, hid, hm⟩ := mem_flatMap.mp hm
  obtain ⟨content, hcontent⟩ := mem_iff_lookup.mp (mem_ids.mp hid)
  obtain ⟨junk, hjunk, -, rfl⟩ := h.running.holds.content id content hcontent
  refine ⟨id, _, hcontent, m, ?_, hp⟩
  rw [readFile_records (h.running.holds.storable id) hjunk]
  exact hm

end

/-! ### The history -/

theorem mem_iff_mem_pointsOf {l : List (Bytes × (ℤ × Value))} : p ∈ l ↔ p.2 ∈ pointsOf p.1 l := by
  rw [pointsOf, mem_map]
  constructor
  · exact fun hp => ⟨p, mem_filter.mpr ⟨hp, by simp⟩, rfl⟩
  · rintro ⟨q, hq, heq⟩
    obtain ⟨hq, hkey⟩ := mem_filter.mp hq
    rwa [← Prod.ext (by simpa using hkey) heq]

/-- The points between two marks over those up to the first are those up to the second. -/
theorem latest_between_or_take (k : Bytes) (t : ℤ) (l : List (Bytes × (ℤ × Value))) {a b : ℕ} (hab : a ≤ b) :
    (latest (pointsOf k ((l.take b).drop a)) t).or (latest (pointsOf k (l.take a)) t) =
      latest (pointsOf k (l.take b)) t := by
  have htake : l.take b = l.take a ++ (l.take b).drop a := by
    conv_lhs => rw [← take_append_drop a (l.take b), take_take, min_eq_left hab]
  conv_rhs => rw [htake, CacheCall.pointsOf_append, latest_append]

/-- The points behind a mark over those up to a later one are all points. -/
theorem latest_drop_or_take (k : Bytes) (t : ℤ) (l : List (Bytes × (ℤ × Value))) {a b : ℕ}
    (hab : a ≤ b) (hb : b ≤ l.length) :
    (latest (pointsOf k (l.drop a)) t).or (latest (pointsOf k (l.take b)) t) = latest (pointsOf k l) t := by
  have hlen : a ≤ (l.take b).length := by
    rw [length_take_of_le hb]
    exact hab
  have hdrop : l.drop a = (l.take b).drop a ++ l.drop b := by
    rw [← drop_append_of_le_length hlen, take_append_drop]
  have hall : latest (pointsOf k l) t = (latest (pointsOf k (l.drop b)) t).or (latest (pointsOf k (l.take b)) t) := by
    rw [← latest_append, ← CacheCall.pointsOf_append, take_append_drop]
  rw [hall, hdrop, CacheCall.pointsOf_append, latest_append, ← latest_between_or_take k t l hab]
  cases latest (pointsOf k (l.drop b)) t <;> cases latest (pointsOf k ((l.take b).drop a)) t <;> rfl

section

variable {c : Cache} {batch : FinMap Bytes (Values Value)}

/-- What a batch adds to the cache is in the batch. -/
theorem exists_of_mem_acceptedOf
    (hp : p ∈ CacheCall.acceptedOf c batch) : ∃ vs, batch.lookup p.1 = some vs ∧ p.2 ∈ vs := by
  by_cases hlimit : c.overLimit (FinMap.sumBy (fun _ v => Values.size v) batch) = true
  · rw [CacheCall.acceptedOf, if_pos hlimit] at hp
    exact absurd hp not_mem_nil
  · rw [mem_iff_mem_pointsOf, CacheCall.pointsOf_acceptedOf hlimit] at hp
    cases hvs : batch.lookup p.1 with
    | none =>
      rw [hvs] at hp
      exact absurd hp not_mem_nil
    | some vs =>
      refine ⟨vs, rfl, ?_⟩
      rw [hvs, Option.elim_some, CacheRing.accepted] at hp
      split at hp
      · exact hp
      · exact absurd hp not_mem_nil

/-- A write without an error adds all points. -/
theorem mem_acceptedOf_of_none (hok : (c.writeMulti batch).1 = none) (hp : p ∈ pointsIn batch) :
    p ∈ CacheCall.acceptedOf c batch := by
  obtain ⟨kv, hkv, hp⟩ := mem_flatMap.mp hp
  obtain ⟨q, hq, rfl⟩ := mem_map.mp hp
  have hlookup : batch.lookup kv.1 = some kv.2 := mem_dlookup_iff batch.nodupKeys |>.mpr hkv
  rw [mem_iff_mem_pointsOf, CacheCall.pointsOf_acceptedOf_of_none hok, hlookup]
  exact hq

end

theorem lookup_withoutKeys {values : FinMap Bytes (Values Value)} {dropped : List Bytes} {k : Bytes} {vs : Values Value}
    (h : (withoutKeys values dropped).lookup k = some vs) : values.lookup k = some vs := by
  rw [withoutKeys] at h
  split_ifs at h
  · exact h
  · rw [FinMap.lookup_filterMap, Option.bind_eq_some_iff] at h
    obtain ⟨v, hv, hkeep⟩ := h
    split_ifs at hkeep
    rwa [← Option.some.inj hkeep]

/-! ### The invariant -/

/-- When a step keeps the only copies: a write fits its fields, a snapshot that was retained is acquired
only while nothing is in the live store, and the deferred call of a commit whose `Remove` has failed comes
before another snapshot is acquired. -/
def Step.Safe (sn : Snappy) (r : Run) : Step → Prop
  | .writePoints values => r.engine.locked = false → (WALEntry.write values).Fits ∧ Sized sn (.write values)
  | .acquireSegments => r.engine.lockHeld = false → r.engine.cache.snapshotting = false →
      0 < (r.engine.cache.snapshot.getD ⟨∅, 0⟩).size → ∀ k, r.engine.cache.store.valuesAt k = []
  | .deferredClear i => ∀ segments, r.engine.attempts[i]? = some ⟨segments, .failed true⟩ →
      r.engine.cache.snapshotting = false
  | _ => True

/-- The attempt has the snapshot or the lock: more than the deferred call of a failed `Remove` is left of it. -/
def Attempt.owns (a : Attempt) : Bool :=
  match a.phase with
  | .failed true => false
  | _ => true

/-- The segments of the attempt that has the snapshot. -/
def segmentsOf (attempt : Option Attempt) : List ℕ := attempt.elim [] Attempt.segments

/-- The number of points that the files of the file store have. -/
def filed (h : History) : Option Attempt → ℕ
  | some ⟨_, .replaced⟩ => h.taken
  | _ => h.cleared

namespace Run

variable {r : Run} {attempt : Option Attempt} {i : ℕ}

/-- At most one attempt has the snapshot.  The files have the points up to a snapshot, the log has the
others, and it has those behind the last snapshot, and those of the writes that are pending, in segments
that no commit removes. -/
structure Inv (sn : Snappy) (r : Run) (E : ℕ → List WALEntry) (attempt : Option Attempt) : Prop where
  one : r.engine.attempts.filter Attempt.owns = attempt.toList
  logged : Logged sn r.engine.log E (segmentsOf attempt)
  cache : CacheCall.Inv r.engine.cache r.history
  files : ∀ k t, latest (r.engine.files.flatMap fun f => (f.lookup k).getD []) t =
    latest (pointsOf k (r.history.written.take (filed r.history attempt))) t
  held : ∀ p ∈ r.history.written.drop (filed r.history attempt), HeldBy (kept r.engine.log.disk E) p
  fresh : ∀ p ∈ r.history.written.drop r.history.taken,
    HeldBy (keptOutside (segmentsOf attempt) r.engine.log.disk E) p
  pending : ∀ m ∈ r.engine.pending, WALEntry.write m ∈ keptOutside (segmentsOf attempt) r.engine.log.disk E
  acked : ∀ p ∈ r.acked, p ∈ r.history.written
  busy : ∀ a, attempt = some a → a.locks = true ∨ r.engine.cache.snapshotting = true
  written : ∀ segments file, attempt = some ⟨segments, .written file⟩ →
    ∀ k t, latest ((file.lookup k).getD []) t = latest (r.engine.cache.snapshotAt k) t
  removing : ∀ segments rest, attempt = some ⟨segments, .removing rest⟩ →
    r.history.cleared = r.history.taken ∧ ∀ f ∈ rest, f ∈ segments

theorem Inv.cleared_le_filed (h : Inv sn r E attempt) : r.history.cleared ≤ filed r.history attempt := by
  rw [filed.eq_def]
  split
  · exact h.cache.cleared_le
  · exact le_rfl

theorem Inv.filed_le (h : Inv sn r E attempt) : filed r.history attempt ≤ r.history.taken := by
  rw [filed.eq_def]
  split
  · exact le_rfl
  · exact h.cache.cleared_le

/-- The attempt that a step is about is the one, and what is left of it is all that is left. -/
theorem Inv.owner (h : Inv sn r E attempt) {a : Attempt} (hi : r.engine.attempts[i]? = some a) (ha : a.owns = true) :
    attempt = some a ∧
      (∀ b : Attempt, (r.engine.attempts.set i b).filter Attempt.owns = if b.owns then [b] else []) ∧
      (r.engine.attempts.eraseIdx i).filter Attempt.owns = [] := by
  obtain ⟨hlt, hget⟩ := List.getElem?_eq_some_iff.mp hi
  have hsplit : r.engine.attempts = r.engine.attempts.take i ++ a :: r.engine.attempts.drop (i + 1) := by
    rw [← hget, ← drop_eq_getElem_cons hlt, take_append_drop]
  have hone := h.one
  rw [hsplit, filter_append, filter_cons_of_pos ha] at hone
  have hrest : attempt = some a ∧ (r.engine.attempts.take i).filter Attempt.owns = [] ∧
      (r.engine.attempts.drop (i + 1)).filter Attempt.owns = [] := by
    cases attempt with
    | none => simp at hone
    | some a' =>
      rw [Option.toList_some, append_eq_singleton_iff] at hone
      rcases hone with ⟨hfront, hcons⟩ | ⟨-, hcons⟩
      · obtain ⟨rfl, hback⟩ := cons.inj hcons
        exact ⟨rfl, hfront, hback⟩
      · cases hcons
  obtain ⟨hattempt, hfront, hback⟩ := hrest
  refine ⟨hattempt, fun b => ?_, ?_⟩
  · rw [set_eq_take_append_cons_drop, if_pos hlt, filter_append, filter_cons, hfront, hback]
    rfl
  · rw [eraseIdx_eq_take_drop_succ, filter_append, hfront, hback]
    rfl

theorem Inv.init (maxSize : ℕ) : Inv sn (init maxSize) (fun _ => []) none := by
  refine ⟨rfl, ⟨⟨⟨fun id c hc => ?_, nofun, fun _ _ => rfl⟩, fun w hw => ?_, fun id hid => ?_⟩,
    fun hwriter => absurd rfl hwriter, Log.behind_nil⟩, CacheCall.Inv.init maxSize, fun _ _ => rfl,
    nofun, nofun, nofun,
    nofun, nofun, nofun, nofun⟩
  · cases hc
  · cases hw
  · exact absurd hid (AList.notMem_empty _)

section

variable (h : Inv sn r E attempt)
include h

theorem Inv.writePoints {values : FinMap Bytes (Values Value)}
    (hsafe : (Step.writePoints values).Safe sn r) : ∃ E', Inv sn (r.step sn (.writePoints values)) E' attempt := by
  rw [step, Engine.writePoints]
  cases hlocked : r.engine.locked with
  | true => exact ⟨E, h⟩
  | false =>
    obtain ⟨hfits, hsized⟩ := hsafe hlocked
    rcases writeToLog_cases sn r.engine.log (.write values) with ⟨err, herr⟩ | ⟨b, hb, id, hok⟩
    · rw [herr]
      exact ⟨E, h⟩
    · rw [hok]
      obtain ⟨E', hlogged, hkept, houtside⟩ := h.logged.write ⟨⟨b, hb, hsized b hb⟩, hfits⟩
      refine ⟨E', h.one, hlogged, h.cache, h.files, fun p hp => (h.held p hp).mono ?_,
        fun p hp => (h.fresh p hp).mono ?_, fun m hm => ?_, h.acked, h.busy, h.written, h.removing⟩
      · exact hkept ▸ subset_append_left _ _
      · exact houtside ▸ subset_append_left _ _
      · refine houtside ▸ ?_
        rcases mem_append.mp hm with hm | hm
        · exact mem_append_left _ (h.pending m hm)
        · exact mem_append_right _ (mem_singleton.mp hm ▸ mem_singleton_self _)

theorem Inv.writePointsLocked {index : IndexOutcome} :
    Inv sn (r.step sn (.writePointsLocked i index)) E attempt := by
  rw [step]
  cases hi : r.engine.pending[i]? with
  | none => exact h
  | some values =>
    have hvalues := h.pending values (mem_of_getElem? hi)
    have hpending : ∀ m ∈ r.engine.pending.eraseIdx i,
        WALEntry.write m ∈ keptOutside (segmentsOf attempt) r.engine.log.disk E :=
      fun m hm => h.pending m (mem_of_mem_eraseIdx hm)
    cases index with
    | failed =>
      exact ⟨h.one, h.logged, h.cache, h.files, h.held, h.fresh, hpending, h.acked, h.busy, h.written, h.removing⟩
    | indexed dropped invalid =>
      dsimp only [Run.writePointsLocked]
      generalize hbatch : withoutKeys values dropped = batch
      have hfiled := h.filed_le.trans h.cache.taken_le
      have hnew : ∀ p ∈ CacheCall.acceptedOf r.engine.cache batch,
          HeldBy (keptOutside (segmentsOf attempt) r.engine.log.disk E) p := by
        intro p hp
        obtain ⟨vs, hvs, hp⟩ := exists_of_mem_acceptedOf hp
        exact ⟨values, hvalues, vs, lookup_withoutKeys (hbatch ▸ hvs), hp⟩
      obtain ⟨hsnapshot, hsnapshotting⟩ := CacheCall.foldl_writeMulti [batch] r.engine.cache
      refine ⟨h.one, h.logged, h.cache.writeMulti batch, fun k t => ?_, fun p hp => ?_, fun p hp => ?_, hpending,
        fun p hp => ?_, fun a ha => (h.busy a ha).imp_right hsnapshotting.trans,
        fun segments file hattempt k t => ?_, h.removing⟩
      · rw [h.files]
        exact congrArg (fun l => latest (pointsOf k l) t) (take_append_of_le_length hfiled).symm
      · have hp : p ∈ (r.history.written ++ CacheCall.acceptedOf r.engine.cache batch).drop
            (filed r.history attempt) := hp
        rw [drop_append_of_le_length hfiled] at hp
        rcases mem_append.mp hp with hp | hp
        · exact h.held p hp
        · exact (hnew p hp).mono (keptOutside_subset_kept _ _ _)
      · rw [drop_append_of_le_length h.cache.taken_le] at hp
        rcases mem_append.mp hp with hp | hp
        · exact h.fresh p hp
        · exact hnew p hp
      · dsimp only at hp ⊢
        split_ifs at hp with hok
        · rcases mem_append.mp hp with hp | hp
          · exact mem_append_left _ (h.acked p hp)
          · obtain ⟨hnone, rfl, -⟩ := hok
            obtain rfl : values = batch := hbatch
            exact mem_append_right _ (mem_acceptedOf_of_none hnone hp)
        · exact mem_append_left _ (h.acked p hp)
      · rw [h.written segments file hattempt, snapshotAt, snapshotAt]
        exact congrArg (fun s : Option Snapshot => latest (s.elim [] fun s => s.store.valuesAt k) t) hsnapshot.symm

/-- The attempt ends, with or without its snapshot in the files. -/
theorem Inv.release {cache : Cache} {cleared : ℕ} {attempts : List Attempt} (hone : attempts.filter Attempt.owns = [])
    (hcache : CacheCall.Inv cache { r.history with cleared := cleared })
    (hfiles : ∀ k t, latest (r.engine.files.flatMap fun f => (f.lookup k).getD []) t =
      latest (pointsOf k (r.history.written.take cleared)) t)
    (hheld : ∀ p ∈ r.history.written.drop cleared, HeldBy (kept r.engine.log.disk E) p) :
    Inv sn { r with
      engine := { r.engine with cache := cache, attempts := attempts },
      history := { r.history with cleared := cleared } } E none := by
  have hall : keptOutside (segmentsOf attempt) r.engine.log.disk E ⊆ keptOutside [] r.engine.log.disk E := by
    rw [keptOutside_nil]
    exact keptOutside_subset_kept _ _ _
  exact ⟨hone, h.logged.release, hcache, hfiles, hheld, fun p hp => (h.fresh p hp).mono hall,
    fun m hm => hall (h.pending m hm), h.acked, nofun, nofun, nofun⟩

end

variable {c : Cache}

theorem cache_clearSnapshot {h : History} (hi : CacheCall.Inv c h) (success : Bool) :
    CacheCall.Inv ((c.clearSnapshot success).getD c) { h with cleared := if success then h.taken else h.cleared } := by
  cases hc : c.clearSnapshot success with
  | some c' => exact hi.clearSnapshot hc
  | none =>
    rw [Cache.clearSnapshot, Option.map_eq_none_iff] at hc
    cases success with
    | false => exact hi
    | true =>
      refine ⟨hi.live, fun k t => ?_, le_rfl, hi.taken_le, hi.covers, hi.snapshot_covers⟩
      rw [Option.getD_none, snapshotAt, hc]
      simp [pointsOf]

/-- The deferred call does nothing where no snapshot is in progress. -/
theorem clearSnapshot_false_of_idle (hidle : c.snapshotting = false) : (c.clearSnapshot false).getD c = c := by
  obtain ⟨store, maxSize, snapshot, snapshotting, cacheSize, snapshotSize⟩ := c
  obtain rfl : snapshotting = false := hidle
  cases snapshot <;> rfl

/-- Nothing was written since the snapshot was taken if the live store is empty. -/
theorem drop_taken_eq_nil {h : History} (hi : CacheCall.Inv c h) (hempty : ∀ k, c.store.valuesAt k = []) :
    h.written.drop h.taken = [] := by
  refine eq_nil_iff_forall_not_mem.mpr fun p hp => ?_
  obtain ⟨v, hv⟩ := exists_latest_of_mem (mem_iff_mem_pointsOf.mp hp)
  rw [← hi.live, hempty] at hv
  cases hv

theorem takeSnapshot_of_busy (hbusy : c.snapshotting = true) :
    c.takeSnapshot = (.error .snapshotInProgress, c) ∧ CacheCall.takes c = false := by
  rw [takeSnapshot, CacheCall.takes, hbusy]
  exact ⟨rfl, rfl⟩

/-- A cache that is not snapshotting hands out a snapshot. -/
theorem takeSnapshot_of_idle (hidle : c.snapshotting = false) :
    ∃ s, c.takeSnapshot = (.ok s, c.takeSnapshot.2) ∧ c.takeSnapshot.2.snapshotting = true := by
  rw [takeSnapshot, hidle, if_neg Bool.false_ne_true]
  dsimp only
  split_ifs
  · exact ⟨_, rfl, rfl⟩
  · exact ⟨_, rfl, rfl⟩

section

variable (h : Inv sn r E attempt) {ok : Bool}
include h

/-- Where no lock is held and no snapshot is in progress there is no attempt. -/
theorem Inv.attempt_eq_none (hlocked : r.engine.locked = false)
    (hidle : r.engine.cache.snapshotting = false) : attempt = none := by
  cases attempt with
  | none => rfl
  | some a =>
    have ha : a ∈ r.engine.attempts.filter Attempt.owns := by
      rw [h.one]
      exact mem_singleton_self a
    rcases h.busy a rfl with hlocks | hsnapshotting
    · exact absurd hlocks (any_eq_false.mp hlocked a (mem_filter.mp ha).1)
    · exact absurd (hidle.symm.trans hsnapshotting) false_ne_true

theorem Inv.acquireSegments (hsafe : Step.acquireSegments.Safe sn r) :
    ∃ attempt', Inv sn (r.step sn .acquireSegments) E attempt' := by
  rw [step, Engine.acquireSegments]
  cases hlock : r.engine.lockHeld with
  | true => exact ⟨attempt, h⟩
  | false =>
    obtain ⟨hlogged, hkept, houtside, hclosed⟩ := h.logged.closeSegment
    cases hbusy : r.engine.cache.snapshotting with
    | true =>
      obtain ⟨htake, htakes⟩ := takeSnapshot_of_busy hbusy
      rw [htake, htakes]
      exact ⟨attempt, h.one, hlogged, h.cache, h.files, hkept ▸ h.held, houtside ▸ h.fresh,
        houtside ▸ h.pending, h.acked, h.busy, h.written, h.removing⟩
    | false =>
      rw [lockHeld, or_eq_false_iff] at hlock
      have hpending : r.engine.pending = [] := by simpa using hlock.2
      obtain rfl := h.attempt_eq_none hlock.1 hbusy
      -- The points behind the snapshot that is handed out: there are none.
      have hdrop : r.history.written.drop
          (if CacheCall.takes r.engine.cache then r.history.written.length else r.history.taken) = [] := by
        cases htakes : CacheCall.takes r.engine.cache with
        | true => exact drop_length
        | false =>
          rw [CacheCall.takes, hbusy] at htakes
          have hsize : ¬ (r.engine.cache.snapshot.getD ⟨∅, 0⟩).size = 0 := by simpa using htakes
          refine drop_taken_eq_nil h.cache (hsafe ?_ hbusy (Nat.pos_of_ne_zero hsize))
          rw [lockHeld, or_eq_false_iff]
          exact hlock
      obtain ⟨s, htake, hsnapshotting⟩ := takeSnapshot_of_idle hbusy
      have hcache := h.cache.snapshot
      generalize r.engine.cache.takeSnapshot = taken at htake hsnapshotting hcache ⊢
      rw [htake]
      dsimp only
      rw [if_neg Bool.false_ne_true]
      refine ⟨some ⟨r.engine.log.closeSegment.closedSegments, .acquired⟩, ?_, hclosed,
        hcache, h.files, fun p hp => ?_,
        fun p hp => ?_, fun m hm => ?_, h.acked, fun _ _ => .inr hsnapshotting, ?_, ?_⟩
      · dsimp only
        rw [filter_append, h.one]
        rfl
      · exact hkept ▸ h.held p hp
      · rw [Bool.not_false, Bool.true_and, hdrop] at hp
        exact absurd hp not_mem_nil
      · rw [hpending] at hm
        exact absurd hm not_mem_nil
      · rintro _ _ ⟨⟩
      · rintro _ _ ⟨⟩

theorem Inv.deduplicate : ∃ attempt', Inv sn (r.step sn (.deduplicate i)) E attempt' := by
  rw [step]
  split
  next segments hi =>
    obtain ⟨rfl, hset, hend⟩ := h.owner hi rfl
    split_ifs with hsize
    · refine ⟨none, h.release hend (cache_clearSnapshot h.cache true) (fun k t => ?_) fun p hp => ?_⟩
      · -- The snapshot has no points, so the files have all points up to it.
        rw [h.files, ← latest_between_or_take k t _ h.cache.cleared_le, ← h.cache.held,
          h.cache.snapshotAt_eq_nil hsize]
        rfl
      · exact (h.fresh p hp).mono (keptOutside_subset_kept _ _ _)
    · have hbusy := (h.busy _ rfl).resolve_left Bool.false_ne_true
      exact ⟨some ⟨segments, .prepared⟩, hset _, h.logged, h.cache.deduplicate, h.files,
        h.held, h.fresh, h.pending, h.acked, fun _ _ => .inr hbusy, nofun, nofun⟩
  next => exact ⟨attempt, h⟩

theorem Inv.writeSnapshot : ∃ attempt', Inv sn (r.step sn (.writeSnapshot i ok)) E attempt' := by
  rw [step]
  split
  next segments hi =>
    obtain ⟨rfl, hset, -⟩ := h.owner hi rfl
    have hbusy := (h.busy _ rfl).resolve_left Bool.false_ne_true
    cases ok with
    | false =>
      exact ⟨some ⟨segments, .failed false⟩, hset _, h.logged, h.cache, h.files, h.held,
        h.fresh, h.pending, h.acked, fun _ _ => .inr hbusy, nofun, nofun⟩
    | true =>
      refine ⟨some ⟨segments, .written _⟩, hset _, h.logged, h.cache, h.files, h.held,
        h.fresh, h.pending, h.acked, fun _ _ => .inr hbusy, ?_, nofun⟩
      rintro _ _ ⟨⟩ k t
      change _ = latest (r.engine.cache.snapshotAt k) t
      rw [FinMap.lookup_filterMap, snapshotAt]
      cases r.engine.cache.snapshot with
      | none => rfl
      | some s =>
        dsimp only [Option.getD_some, Option.elim_some]
        rw [CacheRing.valuesAt]
        cases s.store.lookup k <;> rfl
  next => exact ⟨attempt, h⟩

theorem Inv.replace : ∃ attempt', Inv sn (r.step sn (.replace i ok)) E attempt' := by
  rw [step]
  split
  next segments file hi =>
    obtain ⟨rfl, hset, -⟩ := h.owner hi rfl
    split_ifs
    · exact ⟨_, h⟩
    · refine ⟨some ⟨segments, .replaced⟩, hset _, h.logged, h.cache, fun k t => ?_,
        fun p hp => ?_, h.fresh, h.pending, h.acked, fun _ ha => .inl ?_, nofun, nofun⟩
      · change latest ((r.engine.files ++ [file]).flatMap _) t =
          latest (pointsOf k (r.history.written.take r.history.taken)) t
        rw [flatMap_append, flatMap_singleton, latest_append, h.files, h.written segments file rfl, h.cache.held]
        exact latest_between_or_take k t _ h.cache.cleared_le
      · exact (h.fresh p hp).mono (keptOutside_subset_kept _ _ _)
      · rw [← Option.some.inj ha]
        rfl
    · have hbusy := (h.busy _ rfl).resolve_left Bool.false_ne_true
      exact ⟨some ⟨segments, .failed false⟩, hset _, h.logged, h.cache, h.files, h.held,
        h.fresh, h.pending, h.acked, fun _ _ => .inr hbusy, nofun, nofun⟩
  next => exact ⟨attempt, h⟩

theorem Inv.clearSnapshot : ∃ attempt', Inv sn (r.step sn (.clearSnapshot i)) E attempt' := by
  rw [step]
  split
  next segments hi =>
    obtain ⟨rfl, hset, -⟩ := h.owner hi rfl
    refine ⟨some ⟨segments, .removing segments⟩, hset _, h.logged, cache_clearSnapshot h.cache true,
      h.files, h.held, h.fresh, h.pending, h.acked, fun _ ha => .inl ?_, nofun, ?_⟩
    · rw [← Option.some.inj ha]
      rfl
    · rintro _ _ ⟨⟩
      exact ⟨rfl, fun f hf => hf⟩
  next => exact ⟨attempt, h⟩

theorem Inv.removeSegment {removed : Bool} :
    ∃ E' attempt', Inv sn (r.step sn (.removeSegment i removed)) E' attempt' := by
  rw [step]
  split
  next segments f rest hi =>
    obtain ⟨rfl, hset, -⟩ := h.owner hi rfl
    obtain ⟨hcleared, hrest⟩ := h.removing segments (f :: rest) rfl
    obtain ⟨E', hlogged, houtside⟩ : ∃ E',
        Logged sn (if removed then r.engine.log.remove [f] else r.engine.log) E' segments ∧
        keptOutside segments (if removed then r.engine.log.remove [f] else r.engine.log).disk E' =
          keptOutside segments r.engine.log.disk E := by
      cases removed with
      | false => exact ⟨E, h.logged, rfl⟩
      | true => exact h.logged.remove (hrest f mem_cons_self)
    have hfresh : ∀ p ∈ r.history.written.drop r.history.taken, HeldBy (keptOutside segments _ E') p :=
      houtside ▸ h.fresh
    refine ⟨E', some ⟨segments, .removing rest⟩, hset _, hlogged, h.cache, h.files, fun p hp => ?_, hfresh,
      houtside ▸ h.pending, h.acked, fun _ ha => .inl ?_, nofun, ?_⟩
    · have hp : p ∈ r.history.written.drop r.history.cleared := hp
      rw [hcleared] at hp
      exact (hfresh p hp).mono (keptOutside_subset_kept _ _ _)
    · rw [← Option.some.inj ha]
      rfl
    · rintro _ _ ⟨⟩
      exact ⟨hcleared, (forall_mem_cons.mp hrest).2⟩
  next => exact ⟨E, attempt, h⟩

theorem Inv.finishRemove : ∃ attempt', Inv sn (r.step sn (.finishRemove i ok)) E attempt' := by
  rw [step]
  split
  next segments hi =>
    obtain ⟨rfl, hset, hend⟩ := h.owner hi rfl
    cases ok with
    | false => exact ⟨none, h.release (hset _) h.cache h.files h.held⟩
    | true => exact ⟨none, h.release hend h.cache h.files h.held⟩
  next => exact ⟨attempt, h⟩

theorem Inv.deferredClear (hsafe : (Step.deferredClear i).Safe sn r) :
    ∃ attempt', Inv sn (r.step sn (.deferredClear i)) E attempt' := by
  rw [step]
  split
  next segments cleared hi =>
    cases cleared with
    | false =>
      obtain ⟨rfl, -, hend⟩ := h.owner hi rfl
      exact ⟨none, h.release hend (cache_clearSnapshot h.cache false) h.files h.held⟩
    | true =>
      have hcache := clearSnapshot_false_of_idle (hsafe segments hi)
      have hone : (r.engine.attempts.eraseIdx i).filter Attempt.owns = attempt.toList := by
        obtain ⟨hlt, hget⟩ := List.getElem?_eq_some_iff.mp hi
        have hone := h.one
        rw [← take_append_drop i r.engine.attempts, drop_eq_getElem_cons hlt, hget, filter_append,
          filter_cons_of_neg Bool.false_ne_true, ← filter_append, ← eraseIdx_eq_take_drop_succ] at hone
        exact hone
      rw [Engine.clearSnapshot, hcache]
      exact ⟨attempt, hone, h.logged, h.cache, h.files, h.held, h.fresh, h.pending, h.acked,
        h.busy, h.written, h.removing⟩
  next => exact ⟨attempt, h⟩

theorem Inv.step {st : Step} (hsafe : st.Safe sn r) : ∃ E' attempt', Inv sn (r.step sn st) E' attempt' := by
  cases st with
  | writePoints values =>
    obtain ⟨E', h'⟩ := h.writePoints hsafe
    exact ⟨E', attempt, h'⟩
  | writePointsLocked i index => exact ⟨E, attempt, h.writePointsLocked⟩
  | acquireSegments => exact ⟨E, h.acquireSegments hsafe⟩
  | deduplicate i => exact ⟨E, h.deduplicate⟩
  | writeSnapshot i ok => exact ⟨E, h.writeSnapshot⟩
  | replace i ok => exact ⟨E, h.replace⟩
  | clearSnapshot i => exact ⟨E, h.clearSnapshot⟩
  | removeSegment i removed => exact h.removeSegment
  | finishRemove i ok => exact ⟨E, h.finishRemove⟩
  | deferredClear i => exact ⟨E, h.deferredClear hsafe⟩

end

/-- All steps of a run are safe, each in the state that it is made in. -/
def SafeRun (sn : Snappy) : Run → List Step → Prop
  | _, [] => True
  | r, st :: steps => st.Safe sn r ∧ SafeRun sn (r.step sn st) steps

theorem Inv.run (steps : List Step) (h : Inv sn r E attempt) (hsafe : SafeRun sn r steps) :
    ∃ E' attempt', Inv sn (steps.foldl (Run.step sn) r) E' attempt' := by
  induction steps generalizing r E attempt with
  | nil => exact ⟨E, attempt, h⟩
  | cons st steps ih =>
    obtain ⟨E', attempt', h'⟩ := h.step hsafe.1
    exact ih h' hsafe.2

/-! ### The copies of a point -/

/-- A file of the file store has the point, or an entry that can be read from a segment file. -/
def Durable (sn : Snappy) (e : Engine) (p : Bytes × (ℤ × Value)) : Prop :=
  (∃ f ∈ e.files, p.2 ∈ (f.lookup p.1).getD []) ∨
    ∃ id content, e.log.disk.lookup id = some content ∧ HeldBy (readFile sn content).1 p

/-- In every run whose steps are safe, after every step, the value that was last written at a key and a time
is in a file of the file store or in the log, and is read; and all points of the writes that returned no error
are among those written. -/
theorem only_copy_kept (sn : Snappy) (maxSize : ℕ) (steps : List Step) (hsafe : SafeRun sn (init maxSize) steps) :
    (∀ k t v, latest (pointsOf k (run sn maxSize steps).history.written) t = some v →
      Durable sn (run sn maxSize steps).engine (k, t, v) ∧ (run sn maxSize steps).engine.read k t = some v) ∧
    ∀ p ∈ (run sn maxSize steps).acked, p ∈ (run sn maxSize steps).history.written := by
  obtain ⟨E, attempt, hE : Inv sn (run sn maxSize steps) E attempt⟩ := Inv.run steps (Inv.init maxSize) hsafe
  generalize run sn maxSize steps = r at hE ⊢
  refine ⟨fun k t v hv => ⟨?_, ?_⟩, hE.acked⟩
  · have hfiled := hE.filed_le.trans hE.cache.taken_le
    have hsplit := latest_drop_or_take k t r.history.written le_rfl hfiled
    rw [hv, ← hE.files] at hsplit
    cases hnew : latest (pointsOf k (r.history.written.drop (filed r.history attempt))) t with
    | some v' =>
      rw [hnew] at hsplit
      cases hsplit
      exact .inr (hE.logged.readable (hE.held (k, t, v) (mem_iff_mem_pointsOf.mpr (mem_of_latest_eq_some hnew))))
    | none =>
      rw [hnew, Option.none_or] at hsplit
      obtain ⟨f, hf, hp⟩ := mem_flatMap.mp (mem_of_latest_eq_some hsplit)
      exact .inl ⟨f, hf, hp⟩
  · rw [Engine.read, (r.engine.cache.values_spec k).2 t, ← hE.cache.latest_since, hE.files, History.since,
      latest_drop_or_take k t _ hE.cleared_le_filed (hE.filed_le.trans hE.cache.taken_le), hv]

/-- One point. -/
def pointAt (t : ℤ) : FinMap Bytes (Values Value) := AList.singleton [1] [(t, .boolean true)]

/-- A write that is indexed as a whole. -/
def indexedWrite : Step := .writePointsLocked 0 (.indexed [] false)

/-- The steps of an attempt from its deduplication to its commit, without the removal of the segments. -/
def commit (i : ℕ) : List Step := [.deduplicate i, .writeSnapshot i true, .replace i true, .clearSnapshot i]

/-- A snapshot fails and is written again, with a write after it was acquired again; its `Remove` fails, and
the next snapshot is acquired behind the deferred call. -/
def retriedSnapshot : List Step :=
  [.writePoints (pointAt 1), indexedWrite, .acquireSegments, .deduplicate 0, .writeSnapshot 0 false, .deferredClear 0,
    .acquireSegments, .writePoints (pointAt 2), indexedWrite] ++ commit 0 ++
  [.removeSegment 0 false, .finishRemove 0 false, .deferredClear 0, .acquireSegments] ++ commit 0 ++
  [.removeSegment 0 true, .removeSegment 0 true, .finishRemove 0 true]

theorem only_copy_kept_retriedSnapshot :
    ([1], 2, .boolean true) ∈ (run plain 0 retriedSnapshot).acked ∧
      ∀ k t v, latest (pointsOf k (run plain 0 retriedSnapshot).history.written) t = some v →
        Durable plain (run plain 0 retriedSnapshot).engine (k, t, v) ∧
          (run plain 0 retriedSnapshot).engine.read k t = some v := by
  refine ⟨by decide +kernel, (only_copy_kept plain 0 retriedSnapshot ?_).1⟩
  refine ⟨fun _ => ⟨fits_point (by decide), sized_point 1⟩, trivial, fun _ _ hsize => ?_, trivial, trivial, nofun,
    fun _ _ _ k => rfl, fun _ => ⟨fits_point (by decide), sized_point 2⟩, trivial, trivial,
    trivial, trivial, trivial,
    trivial, trivial, fun _ _ => rfl, fun _ _ hsize => ?_, trivial, trivial, trivial, trivial,
    trivial, trivial, trivial, trivial⟩
  · exact absurd hsize (by decide +kernel)
  · exact absurd hsize (by decide +kernel)

/-- The same with a write between the failure and the second time that the snapshot is acquired. -/
def writeBeforeRetry : List Step :=
  [.writePoints (pointAt 1), indexedWrite, .acquireSegments, .deduplicate 0, .writeSnapshot 0 false, .deferredClear 0,
    .writePoints (pointAt 2), indexedWrite, .acquireSegments] ++ commit 0 ++
  [.removeSegment 0 true, .removeSegment 0 true, .finishRemove 0 true]

/-- The deferred call of a failed `Remove` comes after the next snapshot was acquired and written.  The snapshot
is handed out once more and committed, and when the slower attempt clears it, it has the points of a later write. -/
def lateClear : List Step :=
  [.writePoints (pointAt 1), indexedWrite, .acquireSegments] ++ commit 0 ++
    [.removeSegment 0 true, .finishRemove 0 false] ++
  [.writePoints (pointAt 2), indexedWrite, .acquireSegments, .deduplicate 1, .writeSnapshot 1 true, .deferredClear 0,
    .acquireSegments] ++ commit 1 ++ [.removeSegment 1 true, .finishRemove 1 true] ++
  [.writePoints (pointAt 3), indexedWrite, .acquireSegments, .replace 0 true, .clearSnapshot 0]

/-- The point of the write before the retry was acknowledged and is neither in a file nor in the log; the one of
the last write before the late clear was acknowledged and is not read. -/
theorem not_durable_writeBeforeRetry :
    ([1], 2, .boolean true) ∈ (run plain 0 writeBeforeRetry).acked ∧
      ¬ Durable plain (run plain 0 writeBeforeRetry).engine ([1], 2, .boolean true) ∧
      ([1], 3, .boolean true) ∈ (run plain 0 lateClear).acked ∧
        (run plain 0 lateClear).engine.read [1] 3 = none := by
  refine ⟨by decide +kernel, ?_, by decide +kernel, by decide +kernel⟩
  have hfiles : ∀ f ∈ (run plain 0 writeBeforeRetry).engine.files,
      (2, Value.boolean true) ∉ (f.lookup [1]).getD [] := by
    decide +kernel
  have hdisk : ∀ kv ∈ (run plain 0 writeBeforeRetry).engine.log.disk.entries, kv.2 = [] := by decide +kernel
  rintro (⟨f, hf, hp⟩ | ⟨id, content, hc, m, hm, -⟩)
  · exact hfiles f hf hp
  · obtain rfl : content = [] := hdisk ⟨id, content⟩ ((mem_dlookup_iff (AList.nodupKeys _)).mp hc)
    exact absurd hm not_mem_nil

end Run

end InfluxDB.Storage
