import InfluxDB.Tsm.KeyCursorRead

/-! What a drained block cursor returns, in terms of the files.

    The locations hold the surviving points of the files on one side of the seek time. Blocks that share a
    time overlap, so the sort leaves them in the order of their files, and the last file wins. -/

namespace InfluxDB.Tsm
open Lib List KeyCursor Location
variable {α : Type*}

/-- `models.MinNanoTime`. -/
def minNanoTime : ℤ := minInt64 + 2

/-- `models.MaxNanoTime`. -/
def maxNanoTime : ℤ := maxInt64 - 1

namespace TSMFile

/-- The blocks of the key, in time order. -/
def entries (f : TSMFile α) : List IndexEntry := f.readEntries.toOption.getD []

/-- The points of a block. -/
def block (f : TSMFile α) (e : IndexEntry) : Values α := (f.readFloatArrayBlockAt e).toOption.getD []

/-- The points of the key that survive the tombstones of the file. -/
def points (f : TSMFile α) : Values α := f.entries.flatMap fun e => survivors f.tombstoneRange (f.block e)

/-- The file holds, for the key, time-ordered pairwise disjoint blocks of sorted points. -/
structure WellFormed (f : TSMFile α) : Prop where
  readEntries : f.readEntries = .ok f.entries
  disjoint : f.entries.Pairwise fun a b => a.maxTime < b.minTime
  decodes : ∀ e ∈ f.entries, f.readFloatArrayBlockAt e = .ok (f.block e)
  ascending : ∀ e ∈ f.entries, Ascending (f.block e)
  bounds : ∀ e ∈ f.entries, ∀ p ∈ f.block e, e.minTime ≤ p.1 ∧ p.1 ≤ e.maxTime
  isInt64 : ∀ e ∈ f.entries, IsInt64 e.minTime ∧ IsInt64 e.maxTime
  timeRange : ∀ e ∈ f.entries, f.minTime ≤ e.minTime ∧ e.maxTime ≤ f.maxTime

end TSMFile

/-- The side of the seek time that a cursor reads. -/
def Seeks (ascending : Bool) (t x : ℤ) : Prop := if ascending then t ≤ x else x ≤ t

instance (ascending : Bool) (t x : ℤ) : Decidable (Seeks ascending t x) :=
  inferInstanceAs (Decidable (if ascending then t ≤ x else x ≤ t))

section Files
variable {t : ℤ} {ascending : Bool} {f : TSMFile α} {files : List (TSMFile α)}

theorem wrapInt64_of_isInt64 {x : ℤ} (h : IsInt64 x) : wrapInt64 x = x := by
  unfold IsInt64 minInt64 maxInt64 at h
  unfold wrapInt64
  omega

/-- What is left of a block before any read: its surviving points on the side of the seek time. -/
def seekPoints (t : ℤ) (ascending : Bool) (f : TSMFile α) (e : IndexEntry) : Values α :=
  (survivors f.tombstoneRange (f.block e)).filter fun p => decide (Seeks ascending t p.1)

/-- A block that is left out has nothing to give. -/
theorem entryLocation_none (hf : f.WellFormed) {e : IndexEntry} (he : e ∈ f.entries)
    (h : entryLocation t ascending f e = none) : seekPoints t ascending f e = [] := by
  refine filter_eq_nil_iff.mpr fun p hp => ?_
  obtain ⟨hmem, hlive⟩ := mem_filter.mp hp
  have hb := hf.bounds e he p hmem
  rw [decide_eq_true_eq] at hlive ⊢
  rw [entryLocation] at h
  split_ifs at h with htomb hlt hgt
  · obtain ⟨r, hr, hc⟩ := any_eq_true.mp htomb
    rw [Bool.and_eq_true, decide_eq_true_eq, decide_eq_true_eq] at hc
    exact absurd ⟨r, hr, by unfold TimeRange.Covers; omega⟩ hlive
  · rw [Seeks, if_pos hlt.1]
    omega
  · rw [Seeks, if_neg (by simpa using hgt.1)]
    omega

variable {l : Location α}

section

variable (ht : minNanoTime ≤ t ∧ t ≤ maxNanoTime) (hf : f.WellFormed)
include ht hf

theorem entryLocation_some {e : IndexEntry}
    (he : e ∈ f.entries) (h : entryLocation t ascending f e = some l) :
    l.r = f ∧ l.entry = e ∧ l.Sided ascending ∧
      (if ascending then t ≤ l.entry.maxTime else l.entry.minTime ≤ t) ∧
      l.unread = seekPoints t ascending f e := by
  have hb := hf.bounds e he
  have hint := hf.isInt64 e he
  unfold minNanoTime maxNanoTime at ht
  rw [entryLocation] at h
  have hmarks : ∀ {a b : ℤ}, (∀ p ∈ f.block e, (¬ (a ≤ p.1 ∧ p.1 ≤ b) ↔ Seeks ascending t p.1)) →
      unread { r := f, entry := e, readMin := a, readMax := b } = seekPoints t ascending f e := by
    intro a b hab
    refine filter_congr fun p hp => ?_
    rw [← Bool.decide_and, ← decide_not, decide_eq_decide]
    exact hab p (mem_of_mem_filter hp)
  unfold IsInt64 at hint
  split_ifs at h with htomb hlt hgt hasc
  · cases h
    refine ⟨rfl, rfl, by simp [Sided, hasc], ?_, hmarks fun p hp => ?_⟩
    · rw [if_pos hasc]
      exact not_lt.mp fun hc => hlt ⟨hasc, hc⟩
    · have := hb p hp
      rw [wrapInt64_of_isInt64 (by unfold IsInt64 minInt64 maxInt64 at *; omega), Seeks, if_pos hasc]
      omega
  · cases h
    refine ⟨rfl, rfl, by simp [Sided, hasc], ?_, hmarks fun p hp => ?_⟩
    · rw [if_neg hasc]
      exact not_lt.mp fun hc => hgt ⟨by simpa using hasc, hc⟩
    · have := hb p hp
      rw [wrapInt64_of_isInt64 (by unfold IsInt64 minInt64 maxInt64 at *; omega), Seeks, if_neg hasc]
      omega

theorem flatMap_filterMap_entryLocation {es : List IndexEntry} (hes : ∀ e ∈ es, e ∈ f.entries) :
    (es.filterMap (entryLocation t ascending f)).flatMap (·.unread) = es.flatMap (seekPoints t ascending f) := by
  induction es with
  | nil => rfl
  | cons e es ih =>
    rw [forall_mem_cons] at hes
    rw [filterMap_cons, flatMap_cons, ← ih hes.2]
    cases he : entryLocation t ascending f e with
    | none => rw [entryLocation_none hf hes.1 he, nil_append]
    | some l => rw [flatMap_cons, (entryLocation_some ht hf hes.1 he).2.2.2.2]

/-- The locations of a file hold its surviving points on the side of the seek time. -/
theorem fileLocations_unread :
    (fileLocations t ascending f).flatMap (·.unread) = f.points.filter fun p => decide (Seeks ascending t p.1) := by
  have hskip : (∀ e ∈ f.entries, ∀ p ∈ f.block e, ¬ Seeks ascending t p.1) →
      [] = f.points.filter fun p => decide (Seeks ascending t p.1) := by
    intro hno
    refine (filter_eq_nil_iff.mpr fun p hp => ?_).symm
    obtain ⟨e, he, hp⟩ := mem_flatMap.mp hp
    rw [decide_eq_true_eq]
    exact hno e he p (mem_of_mem_filter hp)
  rw [fileLocations]
  split_ifs with hlt hgt
  · refine hskip fun e he p hp => ?_
    have h₁ := hf.bounds e he p hp
    have h₂ := hf.timeRange e he
    rw [Seeks, if_pos hlt.1]
    omega
  · refine hskip fun e he p hp => ?_
    have h₁ := hf.bounds e he p hp
    have h₂ := hf.timeRange e he
    rw [Seeks, if_neg (by simpa using hgt.1)]
    omega
  · rw [hf.readEntries]
    show (f.entries.filterMap _).flatMap _ = _
    rw [flatMap_filterMap_entryLocation ht hf fun _ he => he, TSMFile.points, filter_flatMap]
    rfl

/-- The locations of a file are of its blocks, in their order. -/
theorem mem_fileLocations (h : l ∈ fileLocations t ascending f) :
    l.r = f ∧ l.entry ∈ f.entries ∧ l.Sided ascending ∧
      if ascending then t ≤ l.entry.maxTime else l.entry.minTime ≤ t := by
  rw [fileLocations] at h
  split_ifs at h
  · cases h
  · cases h
  · rw [hf.readEntries] at h
    obtain ⟨e, he, hl⟩ := mem_filterMap.mp h
    obtain ⟨hr, hentry, hsided, hside, -⟩ := entryLocation_some ht hf he hl
    exact ⟨hr, hentry ▸ he, hsided, hside⟩

theorem pairwise_fileLocations :
    (fileLocations t ascending f).Pairwise fun a b => a.entry.maxTime < b.entry.minTime := by
  rw [fileLocations]
  split_ifs
  · exact List.Pairwise.nil
  · exact List.Pairwise.nil
  · rw [hf.readEntries]
    refine pairwise_filterMap.mpr (hf.disjoint.imp_of_mem fun {a b} ha hb hab l hl m hm => ?_)
    rw [(entryLocation_some ht hf ha hl).2.1, (entryLocation_some ht hf hb hm).2.1]
    exact hab

end

/-- A location with a time holds it inside its entry. -/
theorem Location.Sound.covers (h : l.Sound) {x : ℤ} (hx : latest l.unread x ≠ none) :
    l.entry.minTime ≤ x ∧ x ≤ l.entry.maxTime := by
  obtain ⟨v, hv⟩ := Option.ne_none_iff_exists'.mp hx
  exact h.bounds _ (mem_block_of_mem_unread (mem_of_latest_eq_some hv))

section

variable (ht : minNanoTime ≤ t ∧ t ≤ maxNanoTime) (hfiles : ∀ f ∈ files, f.WellFormed)
include ht hfiles

theorem sound_of_mem_locations (h : l ∈ locations files t ascending) :
    l.Sound ∧ l.Sided ascending ∧ if ascending then t ≤ l.entry.maxTime else l.entry.minTime ≤ t := by
  obtain ⟨f, hf, hl⟩ := mem_flatMap.mp h
  have hf := hfiles f hf
  obtain ⟨rfl, he, hsided, hside⟩ := mem_fileLocations ht hf hl
  exact ⟨⟨hf.decodes _ he, hf.ascending _ he, hf.bounds _ he, (hf.isInt64 _ he).1, (hf.isInt64 _ he).2⟩,
    hsided, hside⟩

/-- Locations that share a time come in the order of their files. -/
theorem pairwise_locations (hpaths : files.Pairwise fun a b => a.path < b.path) (x : ℤ) :
    (locations files t ascending).Pairwise fun a b =>
      latest a.unread x ≠ none → latest b.unread x ≠ none → a.r.path < b.r.path := by
  have hsound : ∀ f ∈ files, ∀ l ∈ fileLocations t ascending f, l.Sound := fun f hf l hl =>
    (sound_of_mem_locations ht hfiles (mem_flatMap.mpr ⟨f, hf, hl⟩)).1
  refine pairwise_flatMap.mpr ⟨fun f hf => ?_, hpaths.imp_of_mem fun {f g} hf hg hlt a ha b hb _ _ => ?_⟩
  · refine (pairwise_fileLocations ht (hfiles f hf)).imp_of_mem fun {a b} ha hb hab hax hbx => ?_
    have h₁ := (hsound f hf a ha).covers hax
    have h₂ := (hsound f hf b hb).covers hbx
    omega
  · rw [(mem_fileLocations ht (hfiles f hf) ha).1, (mem_fileLocations ht (hfiles g hg) hb).1]
    exact hlt

end

variable {sorted : List (Location α)}

/-- The sort keeps the files in order where blocks overlap. -/
theorem pairwise_sorted {time : IndexEntry → ℤ} (hs : ∀ l ∈ sorted, l.Sound)
    (hsorted : sorted.Pairwise fun a b => lessBy time a b = true) (x : ℤ) :
    sorted.Pairwise fun a b => latest a.unread x ≠ none → latest b.unread x ≠ none → a.r.path < b.r.path := by
  refine hsorted.imp_of_mem fun {a b} ha hb hless hax hbx => ?_
  have h₁ := (hs a ha).covers hax
  have h₂ := (hs b hb).covers hbx
  rw [lessBy, if_pos (by
    simp only [IndexEntry.overlapsTimeRange, Bool.and_eq_true, decide_eq_true_eq]
    omega)] at hless
  exact of_decide_eq_true hless

/-- The points of all locations, in the order of the files. -/
theorem latest_locations (ht : minNanoTime ≤ t ∧ t ≤ maxNanoTime)
    (hfiles : ∀ f ∈ files, f.WellFormed) (x : ℤ) :
    latest ((locations files t ascending).flatMap (·.unread)) x =
      if Seeks ascending t x then latest (files.flatMap (·.points)) x else none := by
  have heq : (locations files t ascending).flatMap (·.unread) =
      (files.flatMap (·.points)).filter fun p => decide (Seeks ascending t p.1) := by
    rw [locations, flatMap_assoc, filter_flatMap]
    exact flatMap_congr fun f hf => fileLocations_unread ht (hfiles f hf)
  rw [heq, latest_filter fun x => decide (Seeks ascending t x)]
  simp

/-- A new cursor overlays its locations in their sorted order. -/
theorem unreadAt_newKeyCursor (sorted : List (Location α)) (t : ℤ) (ascending : Bool) (x : ℤ) :
    (newKeyCursor sorted t ascending).unreadAt x = latest (sorted.flatMap (·.unread)) x := by
  have hmap : ((finRange sorted.length).map fun i => (sorted.get i).unread) = sorted.map (·.unread) := by
    conv_rhs => rw [← map_get_finRange sorted, map_map]
    rfl
  show overlay ascending ((scan sorted.length ascending).map fun i => (sorted.get i).unread) x = _
  rw [flatMap_def]
  cases ascending with
  | true =>
    rw [overlay_true, ← hmap]
    rfl
  | false =>
    rw [overlay_false, ← map_reverse, scan, if_neg (by simp), reverse_reverse, hmap]

theorem inv_newKeyCursor
    (h : ∀ l ∈ sorted, l.Sound ∧ l.Sided ascending ∧
      if ascending then t ≤ l.entry.maxTime else l.entry.minTime ≤ t) :
    (newKeyCursor sorted t ascending).Inv := by
  have hsub : (seekLocations sorted.get t ascending).Sublist (scan sorted.length ascending) := by
    rw [seekLocations, scan]
    split_ifs
    · exact filter_sublist
    · exact filter_sublist
  refine ⟨fun i => (h _ (get_mem sorted i)).1, fun i => (h _ (get_mem sorted i)).2.1, .inl hsub,
    fun i _ => ?_, ?_⟩
  · obtain ⟨-, -, hside⟩ := h _ (get_mem sorted i)
    show i ∈ seekLocations sorted.get t ascending
    rw [seekLocations]
    split_ifs at hside ⊢
    · refine mem_filter.mpr ⟨mem_finRange i, ?_⟩
      simp only [IndexEntry.contains, Bool.or_eq_true, Bool.and_eq_true, decide_eq_true_eq]
      omega
    · refine mem_filter.mpr ⟨mem_reverse.mpr (mem_finRange i), ?_⟩
      simp only [IndexEntry.contains, Bool.or_eq_true, Bool.and_eq_true, decide_eq_true_eq]
      omega
  · show ∀ i ∈ seekLocations sorted.get t ascending, if ascending then
      firstPos (seekLocations sorted.get t ascending) ≤ (i : ℕ) else
      ((i : ℕ) : ℤ) ≤ firstPos (seekLocations sorted.get t ascending)
    generalize seekLocations sorted.get t ascending = cur at hsub
    cases cur with
    | nil => simp
    | cons i rest =>
      intro j hj
      rw [scan] at hsub
      rw [firstPos]
      rcases mem_cons.mp hj with rfl | hj
      · split_ifs <;> exact le_rfl
      split_ifs at hsub ⊢
      · have : (i : ℕ) < (j : ℕ) := rel_of_pairwise_cons ((pairwise_lt_finRange _).sublist hsub) hj
        omega
      · have : (j : ℕ) < (i : ℕ) := rel_of_pairwise_cons
          ((pairwise_reverse.mpr (pairwise_lt_finRange _)).sublist hsub) hj
        omega

end Files

/-- Draining a cursor over well-formed files ends, and its batches are, in time order, exactly the surviving
    points on its side of the seek time, each time once with the value of the last file that holds it. -/
theorem drain_newKeyCursor {files : List (TSMFile α)} (hfiles : ∀ f ∈ files, f.WellFormed)
    (hpaths : files.Pairwise fun a b => a.path < b.path) {t : ℤ} (ht : minNanoTime ≤ t ∧ t ≤ maxNanoTime)
    (ascending : Bool) {sorted : List (Location α)} (hperm : sorted.Perm (locations files t ascending))
    (hsorted : sorted.Pairwise fun a b =>
      (if ascending then ascLess a b else descLess a b) = true) :
    ∃ batches n, (∀ fuel ≥ n, (newKeyCursor sorted t ascending).drain fuel = .ok (some batches)) ∧
      Ascending (joined ascending batches) ∧
      ∀ x v, (x, v) ∈ joined ascending batches ↔
        Seeks ascending t x ∧ latest (files.flatMap (·.points)) x = some v := by
  have hlocs : ∀ l ∈ sorted, l.Sound ∧ l.Sided ascending ∧
      if ascending then t ≤ l.entry.maxTime else l.entry.minTime ≤ t := fun l hl =>
    sound_of_mem_locations ht hfiles (hperm.mem_iff.mp hl)
  have hinv := inv_newKeyCursor hlocs
  have hfiles_order : ∀ x, sorted.Pairwise fun a b =>
      latest a.unread x ≠ none → latest b.unread x ≠ none → a.r.path < b.r.path := by
    cases ascending with
    | true | false => exact pairwise_sorted (fun l hl => (hlocs l hl).1) hsorted
  have hmap : ∀ x, (newKeyCursor sorted t ascending).unreadAt x =
      if Seeks ascending t x then latest (files.flatMap (·.points)) x else none := fun x => by
    rw [unreadAt_newKeyCursor, ← latest_locations ht hfiles]
    exact latest_flatMap_of_perm hperm _ x (hfiles_order x) (pairwise_locations ht hfiles hpaths x)
  obtain ⟨batches, hdrain, hasc, hlatest⟩ := hinv.drain (Nat.lt_succ_self _)
  have hasc : Ascending (joined ascending batches) := hasc
  have hlatest : ∀ x, latest (joined ascending batches) x = _ := hlatest
  refine ⟨batches, _, fun fuel hf => drain_mono hf hdrain, hasc, fun x v => ?_⟩
  rw [← hasc.latest_eq_some_iff, hlatest, hmap]
  split_ifs with hs <;> simp [hs]

/-- Two files with an overlap; the first has a tombstone. -/
def overlappingFiles : List (TSMFile ℕ) :=
  [{ path := [1], minTime := 0, maxTime := 6, readEntries := .ok [⟨0, 2, 0, 0⟩, ⟨5, 6, 1, 0⟩]
     tombstoneRange := [⟨5, 5⟩]
     readFloatArrayBlockAt := fun e => .ok (if e.offset = 0 then [(0, 10), (2, 12)] else [(5, 15), (6, 16)]) },
   { path := [2], minTime := 2, maxTime := 3, readEntries := .ok [⟨2, 3, 0, 0⟩], tombstoneRange := []
     readFloatArrayBlockAt := fun _ => .ok [(2, 22), (3, 23)] }]

theorem wellFormed_overlappingFiles : ∀ f ∈ overlappingFiles, f.WellFormed := by
  simp only [overlappingFiles, forall_mem_cons, not_mem_nil, false_imp_iff, implies_true, and_true]
  constructor
  all_goals
    exact ⟨rfl, by decide, by simp [TSMFile.entries, TSMFile.block, Except.toOption], by decide, by decide, by decide,
      by decide⟩

/-- A descending read from inside the first file: the second file wins at the time they share, and the
    tombstoned point is gone. -/
theorem drain_newKeyCursor_overlappingFiles : ∃ sorted : List (Location ℕ), ∃ batches n,
    sorted.Perm (locations overlappingFiles 5 false) ∧
    (∀ fuel ≥ n, (newKeyCursor sorted 5 false).drain fuel = .ok (some batches)) ∧
    (2, 22) ∈ joined false batches ∧ (0, 10) ∈ joined false batches ∧
    ∀ v, (5, v) ∉ joined false batches := by
  obtain ⟨a, b, c, hlocs⟩ : ∃ a b c, locations overlappingFiles 5 false = [a, b, c] := ⟨_, _, _, rfl⟩
  have hperm : [a, c, b].Perm (locations overlappingFiles 5 false) := by
    rw [hlocs]
    exact (List.Perm.swap _ _ _).cons _
  have hsorted : [a, c, b].Pairwise fun a b =>
      (if false then ascLess a b else descLess a b) = true := by
    cases hlocs
    decide
  obtain ⟨batches, n, hdrain, -, hmem⟩ :=
    drain_newKeyCursor wellFormed_overlappingFiles (by decide) (by decide) false
    hperm hsorted
  refine ⟨[a, c, b], batches, n, hperm, hdrain, ?_, ?_, fun v => ?_⟩
  · exact (hmem _ _).mpr ⟨by decide, by decide⟩
  · exact (hmem _ _).mpr ⟨by decide, by decide⟩
  · rw [hmem, show latest (overlappingFiles.flatMap (·.points)) 5 = none from by decide]
    simp

end InfluxDB.Tsm
