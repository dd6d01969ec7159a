import InfluxDB.Tsm.ArrayDescending
import InfluxDB.Tsm.CacheRuns
import InfluxDB.Tsm.KeyCursorFiles

/-!
    `buildFloatArrayCursor` and its siblings: a series is read from the cache and, through a key cursor, from the
    files.  Each cursor is specified by itself; here the blocks that the one returns are those that the other one
    merges.  A cursor is built for one type of values: its blocks are decoded as that type, and it asserts the type
    of every value that it takes from the cache.
-/

namespace InfluxDB.Tsm

open Lib List KeyCursor Location

variable {α : Type*} {files : List (TSMFile α)} {t : ℤ} {ascending : Bool} {sorted : List (Location α)}
  {blocks : List (Values α)}

/-- The locations of a series in its files, as `newKeyCursor` sorts them. -/
structure Locates (files : List (TSMFile α)) (t : ℤ) (ascending : Bool) (sorted : List (Location α)) : Prop where
  wellFormed : ∀ f ∈ files, f.WellFormed
  paths : files.Pairwise fun a b => a.path < b.path
  time : minNanoTime ≤ t ∧ t ≤ maxNanoTime
  perm : sorted.Perm (locations files t ascending)
  sorted : sorted.Pairwise fun a b => (if ascending then ascLess a b else descLess a b) = true

/-- The empty block at the end is not among the blocks. -/
theorem nonempty_of_drain {n fuel : ℕ} {c : KeyCursor α n} (h : c.drain fuel = .ok (some blocks)) :
    ∀ b ∈ blocks, b ≠ [] := by
  induction fuel generalizing c blocks with
  | zero => cases h
  | succ fuel ih =>
    rw [drain] at h
    obtain ⟨res, -, h⟩ := bind_eq_ok.mp h
    dsimp only at h
    split_ifs at h with hlen
    · cases h
      exact forall_mem_nil _
    · obtain ⟨rest, hrest, h⟩ := bind_eq_ok.mp h
      cases rest with
      | none => cases h
      | some rest =>
        cases h
        exact forall_mem_cons.mpr ⟨mt length_eq_zero_iff.mpr hlen, ih hrest⟩

theorem Locates.drain (h : Locates files t ascending sorted) : ∃ blocks n,
    (∀ fuel ≥ n, (newKeyCursor sorted t ascending).drain fuel = .ok (some blocks)) ∧
      (∀ b ∈ blocks, b ≠ []) ∧
      Ascending (joined ascending blocks) ∧ ∀ x, latest (joined ascending blocks) x =
        if Seeks ascending t x then latest (files.flatMap (·.points)) x else none := by
  have hlocs : ∀ l ∈ sorted, _ := fun l hl => sound_of_mem_locations h.time h.wellFormed (h.perm.mem_iff.mp hl)
  obtain ⟨blocks, hdrain, hasc, hlatest⟩ := (inv_newKeyCursor hlocs).drain (Nat.lt_succ_self _)
  refine ⟨blocks, _, fun fuel hf => drain_mono hf hdrain, nonempty_of_drain hdrain, hasc, fun x => ?_⟩
  refine (hlatest x).trans ?_
  rw [unreadAt_newKeyCursor, ← latest_locations h.time h.wellFormed]
  refine latest_flatMap_of_perm h.perm _ x ?_ (pairwise_locations h.time h.wellFormed h.paths x)
  have hsorted := h.sorted
  cases ascending with
  | true | false => exact pairwise_sorted (fun l hl => (hlocs l hl).1) hsorted x

theorem mem_joined {p : ℤ × α} : p ∈ joined ascending blocks ↔ p ∈ blocks.flatten := by
  rw [joined]
  split_ifs <;> simp

/-- The values of the cache are behind those of the blocks. -/
theorem cacheOverTSM_iff {cache : Values α} (hcache : Ascending cache) (hblocks : Ascending (joined ascending blocks))
    {x : ℤ} {v : α} : CacheOverTSM cache blocks (x, v) ↔ latest (joined ascending blocks ++ cache) x = some v := by
  rw [CacheOverTSM, latest_append, Option.or_eq_some_iff, hcache.latest_eq_some_iff,
    hblocks.latest_eq_some_iff, mem_joined, latest_eq_none_iff, and_comm]

/-- In every state of the cache and the files, for a series whose values have the type of the cursor: no type
assertion fails, and the cursors of the series merge the points that were written last; an ascending one does so
unless it returns a block again. -/
theorem read_series (kind : Value.Kind) {files : List (TSMFile Value)}
    {sorted : List (Location Value)} (h : Locates files t ascending sorted)
    {maxSize : ℕ} {calls : List CacheCall} {s : Cache × History} (hrun : CacheCall.run maxSize calls = some s)
    (k : Bytes) (endTime : ℤ) (hcached : ∀ p ∈ s.2.since k, p.2.kind = kind)
    (hfiled : ∀ f ∈ files, ∀ p ∈ f.points, p.2.kind = kind) : ∃ blocks n,
    (∀ fuel ≥ n, (newKeyCursor sorted t ascending).drain fuel = .ok (some blocks)) ∧
      (∀ p ∈ (s.1.values k).1 ++ blocks.flatten, p.2.kind = kind) ∧
      (∀ x v, Seeks ascending t x → (CacheOverTSM (s.1.values k).1 blocks (x, v) ↔
        latest (files.flatMap (·.points) ++ s.2.since k) x = some v)) ∧
      if ascending then
        ArrayAscendingCursor.Merges t endTime (s.1.values k).1 blocks ↔
          ¬ ArrayAscendingCursor.Repeats maxPointsPerBlock ((s.1.values k).1.filter fun p => t ≤ p.1) blocks
            (ArrayAscendingCursor.mergedFrom t (s.1.values k).1 blocks) endTime
      else ArrayDescendingCursor.Merges t endTime (s.1.values k).1 blocks := by
  obtain ⟨blocks, n, hdrain, hne, hasc, hlatest⟩ := h.drain
  obtain ⟨hcache, hvalues⟩ := s.1.values_spec k
  have hinv := CacheCall.Inv.foldlM calls (CacheCall.Inv.init maxSize) hrun
  have hsource : ∀ x v, latest (joined ascending blocks) x = some v →
      Seeks ascending t x ∧ (x, v) ∈ files.flatMap (·.points) := by
    intro x v hv
    rw [hlatest] at hv
    split_ifs at hv with hx
    exact ⟨hx, mem_of_latest_eq_some hv⟩
  have hblock : ∀ p ∈ blocks.flatten, Seeks ascending t p.1 ∧ p ∈ files.flatMap (·.points) := fun p hp =>
    hsource p.1 p.2 (hasc.latest_eq_some_iff.mpr (mem_joined.mpr hp))
  have hside : ∀ p ∈ blocks.flatten, Seeks ascending t p.1 := fun p hp => (hblock p hp).1
  refine ⟨blocks, n, hdrain, fun p hp => ?_, fun x v hx => ?_, ?_⟩
  · rcases mem_append.mp hp with hp | hp
    · refine hcached p (mem_of_latest_eq_some (t := p.1) (v := p.2) ?_)
      rw [hinv.latest_since, ← hvalues]
      exact hcache.latest_eq_some_iff.mpr hp
    · obtain ⟨f, hf, hpoint⟩ := mem_flatMap.mp (hblock p hp).2
      exact hfiled f hf p hpoint
  · rw [cacheOverTSM_iff hcache hasc, latest_append, latest_append, hlatest, if_pos hx, hvalues, hinv.latest_since]
  · cases ascending with
    | true => exact ArrayAscendingCursor.merges_iff_not_repeats hcache ⟨hne, hasc, hside⟩
    | false => exact ArrayDescendingCursor.merges_of_delivers endTime hcache ⟨hne, hasc, hside⟩

/-- A file with one block. -/
def oneBlock : TSMFile Value :=
  { path := [1], minTime := 0, maxTime := 2, readEntries := .ok [⟨0, 2, 0, 0⟩], tombstoneRange := []
    readFloatArrayBlockAt := fun _ => .ok [(0, .boolean false), (2, .boolean true)] }

theorem locates_oneBlock : Locates [oneBlock] 9 false (locations [oneBlock] 9 false) where
  wellFormed := forall_mem_singleton.mpr
    ⟨rfl, by decide, by simp [TSMFile.entries, TSMFile.block, oneBlock, Except.toOption],
    by decide, by decide, by decide, by decide⟩
  paths := pairwise_singleton _ _
  time := by decide
  perm := .refl _
  sorted := by decide

/-- A descending read of booleans from the file and, behind a snapshot that was not cleared, from the cache. -/
theorem read_series_oneBlock : ∃ s blocks, CacheCall.run 0 CacheCall.failedClear = some s ∧
    (s.1.values [2]).1 = [(8, .boolean true)] ∧
      (∀ p ∈ (s.1.values [2]).1 ++ blocks.flatten, p.2.kind = .boolean) ∧
    ArrayDescendingCursor.Merges 9 (-1) (s.1.values [2]).1 blocks := by
  obtain ⟨s, hrun, hvalues, hsince⟩ : ∃ s, CacheCall.run 0 CacheCall.failedClear = some s ∧
    (s.1.values [2]).1 = [(8, .boolean true)] ∧ s.2.since [2] = [(8, .boolean true)] := ⟨_, rfl, rfl, rfl⟩
  obtain ⟨blocks, n, -, hkind, -, hmerges⟩ := read_series .boolean locates_oneBlock hrun [2] (-1)
    (by rw [hsince]; decide) (by decide)
  exact ⟨s, blocks, hrun, hvalues, hkind, hmerges⟩

end InfluxDB.Tsm
