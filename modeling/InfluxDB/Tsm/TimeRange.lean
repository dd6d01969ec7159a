import InfluxDB.Tsm.Values

/-! `reader_time_range.go`: time ranges, and when tombstones cover all the entries of a key.

    `timeRangesCoverEntries` walks the entries along the ranges of a merger. Whatever the order in which
    the ranges come, a positive answer is right: every timestamp of an entry is in some range. Over sorted
    ranges a negative answer is right too, and no bound of 64 bits overflows on the way. -/

namespace InfluxDB.Tsm
open Lib List

/-- `TimeRange`: a closed interval of timestamps, empty when `max < min`. -/
structure TimeRange where
  min : ℤ
  max : ℤ
  deriving DecidableEq, Repr

/-- The range contains `t`. -/
def TimeRange.Covers (r : TimeRange) (t : ℤ) : Prop := r.min ≤ t ∧ t ≤ r.max

instance (r : TimeRange) (t : ℤ) : Decidable (r.Covers t) := inferInstanceAs (Decidable (_ ∧ _))

/-- Some range of the list contains `t`. -/
def Tombstoned (rs : List TimeRange) (t : ℤ) : Prop := ∃ r ∈ rs, r.Covers t

instance (rs : List TimeRange) (t : ℤ) : Decidable (Tombstoned rs t) :=
  inferInstanceAs (Decidable (∃ r ∈ rs, r.Covers t))

@[simp] theorem tombstoned_nil (t : ℤ) : ¬ Tombstoned [] t := by simp [Tombstoned]

@[simp] theorem tombstoned_cons (r : TimeRange) (rs : List TimeRange) (t : ℤ) :
    Tombstoned (r :: rs) t ↔ r.Covers t ∨ Tombstoned rs t := by simp [Tombstoned]

@[simp] theorem tombstoned_append (rs rs' : List TimeRange) (t : ℤ) :
    Tombstoned (rs ++ rs') t ↔ Tombstoned rs t ∨ Tombstoned rs' t := by
  simp only [Tombstoned, mem_append, or_and_right, exists_or]

variable {α : Type*}

/-- The points that no tombstone of the list removes. -/
def survivors (rs : List TimeRange) (a : Values α) : Values α := a.filter (fun p => decide (¬ Tombstoned rs p.1))

theorem ascending_survivors (rs : List TimeRange) {a : Values α} (ha : Ascending a) :
    Ascending (survivors rs a) := ha.filter _

/-- `excludeTombstones…`: apply each tombstone to the array. -/
def excludeTombstones (rs : List TimeRange) (a : Values α) : Values α := rs.foldl (fun v r => v.exclude r.min r.max) a

theorem excludeTombstones_eq_survivors : ∀ (rs : List TimeRange) {a : Values α}, Ascending a →
    excludeTombstones rs a = survivors rs a
  | [], a, _ => by simp [excludeTombstones, survivors]
  | r :: rs, a, ha => by
    rw [excludeTombstones, foldl_cons, exclude_eq_filter ha]
    have ih := excludeTombstones_eq_survivors rs
      (ha.filter (fun p => !(decide (r.min ≤ p.1) && decide (p.1 ≤ r.max))))
    rw [excludeTombstones] at ih
    rw [ih, survivors, survivors, filter_filter]
    refine filter_congr fun p _ => ?_
    rw [Bool.eq_iff_iff]
    simp only [Bool.and_eq_true, decide_eq_true_eq, tombstoned_cons, TimeRange.Covers, not_or,
      Bool.not_eq_true', Bool.and_eq_false_iff, decide_eq_false_iff_not, not_and_or]
    tauto

/-! ### Covering index entries -/

/-- `Less`. -/
def TimeRange.less (t o : TimeRange) : Bool := decide (t.min < o.min) || decide (t.min = o.min ∧ t.max < o.max)

/-- `timeRangeMerger`. -/
structure TimeRangeMerger where
  fromMap : List TimeRange
  fromPrefix : List TimeRange
  single : TimeRange
  used : Bool

namespace TimeRangeMerger

/-- The ranges not popped yet. -/
def rest (m : TimeRangeMerger) : List TimeRange := m.fromMap ++ m.fromPrefix ++ (if m.used then [] else [m.single])

/-- The next range of the two lists, with the merger that is left. -/
def popList (m : TimeRangeMerger) : Option (TimeRange × TimeRangeMerger) :=
  match m.fromMap, m.fromPrefix with
  | [], [] => none
  | x :: xs, [] => some (x, { m with fromMap := xs })
  | [], y :: ys => some (y, { m with fromPrefix := ys })
  | x :: xs, y :: ys => if y.less x then some (y, { m with fromPrefix := ys }) else some (x, { m with fromMap := xs })

/-- `Pop`. -/
def pop (m : TimeRangeMerger) : Option (TimeRange × TimeRangeMerger) :=
  if !m.used && m.popList.all (fun p => m.single.less p.1) then some (m.single, { m with used := true })
  else m.popList

variable {m m' : TimeRangeMerger} {t : TimeRange}

theorem popList_perm (h : m.popList = some (t, m')) : m.rest.Perm (t :: m'.rest) := by
  rw [popList] at h
  split at h
  · cases h
  · rename_i x xs hm hp
    cases h
    simp [rest, hm, hp]
  · rename_i y ys hm hp
    cases h
    simp [rest, hm, hp]
  · rename_i x xs y ys hm hp
    split_ifs at h
    · cases h
      simp only [rest, hm, hp]
      exact (@perm_middle _ _ (x :: xs) _).append_right _
    · cases h
      simp [rest, hm, hp]

theorem pop_perm (h : m.pop = some (t, m')) : m.rest.Perm (t :: m'.rest) := by
  rw [pop] at h
  split_ifs at h with hu
  · cases h
    simp only [Bool.and_eq_true, Bool.not_eq_true'] at hu
    simp only [rest, hu.1, Bool.false_eq_true, if_false, if_true, append_nil]
    exact perm_append_singleton _ _
  · exact popList_perm h

end TimeRangeMerger

open TimeRangeMerger

/-- The loop of `timeRangesCoverEntries`; `ts` is the range popped last, and `succ` adds one to a time. -/
def coverLoop (succ : ℤ → ℤ) (m : TimeRangeMerger) (ts : Option TimeRange) (entries : List TimeRange)
    (mustCover : ℤ) : Bool :=
  match ts, entries with
  | _, [] => true
  | none, _ :: _ => false
  | some ts, e :: es =>
    if ts.min > mustCover then false
    else if ts.max ≥ e.max then
      coverLoop succ m (some ts) es ((es.head?.map (·.min)).getD mustCover)
    else
      let mustCover := if ts.max ≥ mustCover then succ ts.max else mustCover
      match _h : m.pop with
      | some (t, m') => coverLoop succ m' (some t) (e :: es) mustCover
      | none => coverLoop succ m none (e :: es) mustCover
termination_by entries.length + 2 * m.rest.length + (if ts.isSome then 1 else 0)
decreasing_by
  · simp
  · have := (pop_perm _h).length_eq
    simp only [length_cons] at this ⊢
    simp
    omega
  · simp

/-- `timeRangesCoverEntries`; of an entry only the times matter. -/
def coverEntries (succ : ℤ → ℤ) (m : TimeRangeMerger) (entries : List TimeRange) : Bool :=
  match entries with
  | [] => true
  | e :: es =>
    match m.pop with
    | some (t, m') => coverLoop succ m' (some t) (e :: es) e.min
    | none => coverLoop succ m none (e :: es) e.min

/-- `timeRangesCoverEntries` with times that are integers. -/
def timeRangesCoverEntries : TimeRangeMerger → List TimeRange → Bool := coverEntries (· + 1)

/-- `timeRangesCoverEntries` with the addition of the machine. -/
def timeRangesCoverEntries64 : TimeRangeMerger → List TimeRange → Bool :=
  coverEntries fun t => (t + 1).bmod (2 ^ 64)

theorem tombstoned_of_perm {rs rs' : List TimeRange} (h : rs.Perm rs') {t : ℤ} :
    Tombstoned rs t ↔ Tombstoned rs' t := by
  simp only [Tombstoned, h.mem_iff]

/-- The ranges cover the rest of the first entry and all later entries. -/
def CoverFrom (rs : List TimeRange) (mustCover : ℤ) : List TimeRange → Prop
  | [] => True
  | e :: es => (∀ t, mustCover ≤ t → t ≤ e.max → Tombstoned rs t) ∧ ∀ e ∈ es, ∀ t, e.Covers t →
      Tombstoned rs t

section Cover
variable {ts e : TimeRange} {es rs rs' : List TimeRange} {mustCover x : ℤ}

theorem coverFrom_min : CoverFrom rs e.min (e :: es) ↔ ∀ e' ∈ e :: es, ∀ t, e'.Covers t →
    Tombstoned rs t := by
  rw [CoverFrom, forall_mem_cons]
  exact and_congr_left' ⟨fun h t ht => h t ht.1 ht.2, fun h t hlo hhi => h t ⟨hlo, hhi⟩⟩

/-- The range in hand covers the rest of the first entry. -/
theorem coverFrom_tail (hmin : ¬ ts.min > mustCover) (hmax : ts.max ≥ e.max) :
    CoverFrom (ts :: rs) ((es.head?.map (·.min)).getD mustCover) es ↔ CoverFrom (ts :: rs) mustCover (e :: es) := by
  have hthis : ∀ t, mustCover ≤ t → t ≤ e.max → Tombstoned (ts :: rs) t := fun t hlo hhi =>
    ⟨ts, mem_cons_self, by omega, by omega⟩
  cases es with
  | nil => exact iff_of_true trivial ⟨hthis, nofun⟩
  | cons e' es => exact coverFrom_min.trans (and_iff_right hthis).symm

/-- Below the new bound it is the range in hand that covers. -/
theorem CoverFrom.back (h : CoverFrom rs' x (e :: es)) (hrs : ∀ t, Tombstoned rs' t → Tombstoned rs t)
    (hmin : ¬ ts.min > mustCover) (hx : ∀ t, mustCover ≤ t → t < x → t ≤ ts.max) :
    CoverFrom (ts :: rs) mustCover (e :: es) := by
  have hlater : ∀ t, Tombstoned rs' t → Tombstoned (ts :: rs) t :=
    fun t ht => (tombstoned_cons _ _ _).mpr (.inr (hrs t ht))
  refine ⟨fun t hlo hhi => ?_, fun e' he' t ht => hlater t (h.2 e' he' t ht)⟩
  by_cases ht : t < x
  · exact ⟨ts, mem_cons_self, (not_lt.mp hmin).trans hlo, hx t hlo ht⟩
  · exact hlater t (h.1 t (not_lt.mp ht) hhi)

end Cover

/-- What the loop has established when it succeeds: the rest of the current entry and all later ones
    are covered by the range in hand and those to come. -/
theorem coverLoop_sound (m : TimeRangeMerger) (ts : Option TimeRange) (entries : List TimeRange) (mustCover : ℤ)
    (h : coverLoop (· + 1) m ts entries mustCover = true) : CoverFrom (ts.toList ++ m.rest) mustCover entries := by
  fun_induction coverLoop (· + 1) m ts entries mustCover with
  | case1 => trivial
  | case2 => cases h
  | case3 => cases h
  | case4 m mustCover ts e es hmin hmax ih => exact (coverFrom_tail hmin hmax).mp (ih h)
  | case5 m mustCover ts e es hmin hmax mustCover' t₀ m' hpop ih =>
    refine (ih h).back (fun t => (tombstoned_of_perm (pop_perm hpop)).mpr) hmin fun t hlo ht => ?_
    simp only [mustCover'] at ht
    split_ifs at ht <;> omega
  | case6 m mustCover ts e es hmin hmax mustCover' hpop ih =>
    rw [coverLoop] at h
    cases h

theorem timeRangesCoverEntries_sound {m : TimeRangeMerger} {entries : List TimeRange}
    (h : timeRangesCoverEntries m entries = true) : ∀ e ∈ entries, ∀ t, e.Covers t → Tombstoned m.rest t := by
  cases entries with
  | nil => simp
  | cons e es =>
    rw [timeRangesCoverEntries, coverEntries] at h
    cases hp : m.pop with
    | none =>
      rw [hp] at h
      exact coverFrom_min.mp (coverLoop_sound m none _ _ h)
    | some p =>
      rw [hp] at h
      intro e' he' t ht
      have hall := coverFrom_min.mp (coverLoop_sound p.2 (some p.1) _ _ h)
      exact (tombstoned_of_perm (pop_perm hp)).mpr (hall e' he' t ht)

/-! ### Sorted ranges of machine integers -/

namespace TimeRangeMerger
variable {m m' : TimeRangeMerger} {t : TimeRange}

/-- The lists are sorted by the start of the ranges. -/
structure Sorted (m : TimeRangeMerger) : Prop where
  fromMap : m.fromMap.Pairwise fun r r' => r.min ≤ r'.min
  fromPrefix : m.fromPrefix.Pairwise fun r r' => r.min ≤ r'.min

theorem rest_of_pop_none (h : m.pop = none) : m.rest = [] := by
  rw [pop, popList] at h
  rw [rest]
  split at h <;> split_ifs at h
  simp_all

/-- Ranges are popped in the order of their starts. -/
theorem Sorted.pop (hm : m.Sorted) (h : m.pop = some (t, m')) : m'.Sorted ∧ ∀ r ∈ m'.rest, t.min ≤ r.min := by
  obtain ⟨hmap, hpre⟩ := hm
  rw [TimeRangeMerger.pop, popList] at h
  split at h <;> split_ifs at h <;> grind [rest, TimeRange.less, Sorted, pairwise_cons]

end TimeRangeMerger

/-- The entries are intervals that follow one another, with bounds of 64 bits. -/
structure EntriesInOrder (entries : List TimeRange) : Prop where
  le : ∀ e ∈ entries, e.min ≤ e.max
  disjoint : entries.Pairwise fun e e' => e.max < e'.min
  int64 : ∀ e ∈ entries, IsInt64 e.min ∧ IsInt64 e.max

section Cover
variable {ts e : TimeRange} {mustCover x : ℤ}

theorem bmod_add_one (hts : minInt64 ≤ ts.max) (he : e.max ≤ maxInt64) (hmax : ¬ ts.max ≥ e.max) :
    (ts.max + 1).bmod (2 ^ 64) = ts.max + 1 := by
  rw [minInt64] at hts
  rw [maxInt64] at he
  exact Int.bmod_eq_of_le (by omega) (by omega)

/-- The range in hand covers everything before the next time to cover. -/
theorem mustCover_spec (hx : x = if ts.max ≥ mustCover then (ts.max + 1).bmod (2 ^ 64) else mustCover)
    (hts : minInt64 ≤ ts.max) (he : e.max ≤ maxInt64) (hmax : ¬ ts.max ≥ e.max) (hmust : mustCover ≤ e.max) :
    mustCover ≤ x ∧ ts.max < x ∧ x ≤ e.max ∧ ∀ t, mustCover ≤ t → t < x → t ≤ ts.max := by
  rw [bmod_add_one hts he hmax] at hx
  split_ifs at hx <;> refine ⟨?_, ?_, ?_, fun t => ?_⟩ <;> omega

theorem coverFrom_iff {es rs rs' : List TimeRange} (hrs : ∀ t, Tombstoned rs' t ↔ Tombstoned rs t)
    (hmin : ¬ ts.min > mustCover) (he : ∀ e' ∈ es, e.max < e'.min)
    (hx : mustCover ≤ x ∧ ts.max < x ∧ x ≤ e.max ∧ ∀ t, mustCover ≤ t → t < x → t ≤ ts.max) :
    CoverFrom rs' x (e :: es) ↔ CoverFrom (ts :: rs) mustCover (e :: es) := by
  have hbeyond : ∀ t, x ≤ t → Tombstoned (ts :: rs) t → Tombstoned rs' t := fun t ht h =>
    (hrs t).mpr (((tombstoned_cons _ _ _).mp h).resolve_left fun hc => absurd hc.2 (by omega))
  refine ⟨fun h => h.back (fun t => (hrs t).mp) hmin hx.2.2.2,
    fun h => ⟨fun t hlo hhi => ?_, fun e' he' t ht => ?_⟩⟩
  · exact hbeyond t hlo (h.1 t (hx.1.trans hlo) hhi)
  · exact hbeyond t (hx.2.2.1.trans ((he e' he').le.trans ht.1)) (h.2 e' he' t ht)

end Cover

/-- The ranges popped before do not reach `mustCover`, so the loop fails only where no range covers. -/
theorem coverLoop64_iff (m : TimeRangeMerger) (ts : Option TimeRange) (entries : List TimeRange) (mustCover : ℤ)
    (hm : m.Sorted) (hts : ∀ r ∈ m.rest, ∃ t ∈ ts, t.min ≤ r.min) (he : EntriesInOrder entries)
    (hr : ∀ r ∈ ts.toList ++ m.rest, minInt64 ≤ r.max) (hmust : ∀ e ∈ entries.head?, mustCover ≤ e.max) :
    coverLoop (fun t => (t + 1).bmod (2 ^ 64)) m ts entries mustCover = true ↔
      CoverFrom (ts.toList ++ m.rest) mustCover entries := by
  fun_induction coverLoop (fun t => (t + 1).bmod (2 ^ 64)) m ts entries mustCover with
  | case1 => exact iff_of_true rfl trivial
  | case2 m mustCover e es =>
    refine iff_of_false nofun fun h => ?_
    obtain ⟨r, hr, -⟩ := h.1 mustCover le_rfl (hmust e rfl)
    obtain ⟨t, ht, -⟩ := hts r hr
    cases ht
  | case3 m mustCover ts e es hmin =>
    refine iff_of_false nofun fun h => ?_
    obtain ⟨r, hr, hc, -⟩ := h.1 mustCover le_rfl (hmust e rfl)
    rcases mem_cons.mp hr with rfl | hr
    · omega
    · obtain ⟨_, ⟨⟩, hle⟩ := hts r hr
      omega
  | case4 m mustCover ts e es hmin hmax ih =>
    have hle := (forall_mem_cons.mp he.le).2
    rw [ih hm hts ⟨hle, (pairwise_cons.mp he.disjoint).2, (forall_mem_cons.mp he.int64).2⟩ hr fun e' he' => by
      rw [Option.mem_def.mp he']; exact hle e' (mem_of_mem_head? he')]
    exact coverFrom_tail hmin hmax
  | case5 m mustCover ts e es hmin hmax mustCover' t₀ m' hpop ih =>
    have hx := mustCover_spec (x := mustCover') rfl (hr ts mem_cons_self)
      (he.int64 e mem_cons_self).2.2 hmax (hmust e rfl)
    obtain ⟨hm', hts'⟩ := hm.pop hpop
    have hperm := pop_perm hpop
    have hr' : ∀ r ∈ t₀ :: m'.rest, minInt64 ≤ r.max :=
      fun r hr' => hr r (mem_cons_of_mem _ (hperm.mem_iff.mpr hr'))
    rw [ih hm' (fun r hr => ⟨t₀, rfl, hts' r hr⟩) he hr' (by rintro _ ⟨⟩; exact hx.2.2.1)]
    exact coverFrom_iff (fun t => (tombstoned_of_perm hperm).symm) hmin (pairwise_cons.mp he.disjoint).1 hx
  | case6 m mustCover ts e es hmin hmax mustCover' hpop ih =>
    have hx := mustCover_spec (x := mustCover') rfl (hr ts mem_cons_self)
      (he.int64 e mem_cons_self).2.2 hmax (hmust e rfl)
    have hnil := rest_of_pop_none hpop
    rw [ih hm (by simp [hnil]) he (by simp [hnil]) (by rintro _ ⟨⟩; exact hx.2.2.1)]
    exact coverFrom_iff (fun t => Iff.rfl) hmin (pairwise_cons.mp he.disjoint).1 hx

/-- Over ranges sorted by their start and entries in order, the answer is exact. -/
theorem timeRangesCoverEntries64_iff {m : TimeRangeMerger} {entries : List TimeRange} (hm : m.Sorted)
    (hr : ∀ r ∈ m.rest, IsInt64 r.min ∧ IsInt64 r.max) (he : EntriesInOrder entries) :
    timeRangesCoverEntries64 m entries = true ↔ ∀ e ∈ entries, ∀ t, e.Covers t → Tombstoned m.rest t := by
  cases entries with
  | nil => exact iff_of_true rfl nofun
  | cons e es =>
    have hmust : ∀ e' ∈ (e :: es).head?, e.min ≤ e'.max := by
      rintro _ ⟨⟩
      exact he.le e mem_cons_self
    rw [timeRangesCoverEntries64, coverEntries]
    cases hpop : m.pop with
    | none =>
      have hnil := rest_of_pop_none hpop
      exact (coverLoop64_iff m none _ _ hm (by simp [hnil]) he (by simp [hnil]) hmust).trans coverFrom_min
    | some p =>
      have hperm := pop_perm hpop
      obtain ⟨hm', hts⟩ := hm.pop hpop
      refine (coverLoop64_iff p.2 (some p.1) _ _ hm' (fun r hr => ⟨p.1, rfl, hts r hr⟩) he
        (fun r hr' => ?_) hmust).trans ?_
      · exact (hr r (hperm.mem_iff.mpr hr')).2.1
      · rw [coverFrom_min]
        simp only [tombstoned_of_perm hperm]
        rfl

theorem coverLoop_bmod {m : TimeRangeMerger} {ts : Option TimeRange} {entries : List TimeRange} {mustCover : ℤ}
    (hr : ∀ r ∈ ts.toList ++ m.rest, minInt64 ≤ r.max) (he : ∀ e ∈ entries, e.max ≤ maxInt64) :
    coverLoop (fun t => (t + 1).bmod (2 ^ 64)) m ts entries mustCover = coverLoop (· + 1) m ts entries mustCover := by
  fun_induction coverLoop (· + 1) m ts entries mustCover with
  | case1 => rw [coverLoop]
  | case2 => rw [coverLoop]
  | case3 m mustCover ts e es hmin => rw [coverLoop, if_pos hmin]
  | case4 m mustCover ts e es hmin hmax ih =>
    rw [coverLoop, if_neg hmin, if_pos hmax, ih hr (forall_mem_cons.mp he).2]
  | case5 m mustCover ts e es hmin hmax mustCover' t₀ m' hpop ih =>
    have hperm := pop_perm hpop
    rw [coverLoop, if_neg hmin, if_neg hmax]
    dsimp only
    rw [bmod_add_one (hr ts mem_cons_self) (he e mem_cons_self) hmax]
    split
    · next t m₁ h =>
      obtain ⟨rfl, rfl⟩ := Prod.mk.inj (Option.some.inj (h.symm.trans hpop))
      exact ih (fun r hr' => hr r (mem_cons_of_mem _ (hperm.mem_iff.mpr hr'))) he
    · next h => exact absurd (h.symm.trans hpop) nofun
  | case6 m mustCover ts e es hmin hmax mustCover' hpop ih =>
    rw [coverLoop, coverLoop, if_neg hmin, if_neg hmax]
    generalize (if ts.max ≥ mustCover then (ts.max + 1).bmod (2 ^ 64) else mustCover) = x
    split
    · next t m₁ h => exact absurd (hpop.symm.trans h) nofun
    · rw [coverLoop]

/-- As long as times are of 64 bits, the addition of the machine gives the same answer. -/
theorem timeRangesCoverEntries64_eq {m : TimeRangeMerger} {entries : List TimeRange}
    (hr : ∀ r ∈ m.rest, minInt64 ≤ r.max) (he : ∀ e ∈ entries, e.max ≤ maxInt64) :
    timeRangesCoverEntries64 m entries = timeRangesCoverEntries m entries := by
  cases entries with
  | nil => rfl
  | cons e es =>
    rw [timeRangesCoverEntries64, timeRangesCoverEntries, coverEntries, coverEntries]
    cases hpop : m.pop with
    | none => exact coverLoop_bmod hr he
    | some p => exact coverLoop_bmod (fun r hr' => hr r ((pop_perm hpop).mem_iff.mpr hr')) he

/-- Two adjacent ranges cover all 64-bit times. -/
theorem timeRangesCoverEntries64_extremes :
    timeRangesCoverEntries64 ⟨[⟨minInt64, -1⟩], [⟨0, maxInt64⟩], ⟨5, 5⟩, true⟩
      [⟨minInt64, maxInt64⟩] = true := by
  refine (timeRangesCoverEntries64_iff ⟨by decide, by decide⟩ (by decide)
    ⟨by decide, by decide, by decide⟩).mpr ?_
  simp [rest, TimeRange.Covers]
  omega

/-- `insertTimeRange`. -/
def insertTimeRange (ts : List TimeRange) (minTime maxTime : ℤ) : List TimeRange :=
  let n := sortSearch ts.length fun i =>
    (ts[i]?).any fun t => if t.min = minTime then decide (t.max ≥ maxTime) else decide (t.min > minTime)
  ts.take n ++ { min := minTime, max := maxTime } :: ts.drop n

theorem insertTimeRange_perm (ts : List TimeRange) (minTime maxTime : ℤ) :
    (insertTimeRange ts minTime maxTime).Perm ({ min := minTime, max := maxTime } :: ts) := by
  rw [insertTimeRange]
  refine perm_middle.trans ?_
  rw [take_append_drop]

end InfluxDB.Tsm
