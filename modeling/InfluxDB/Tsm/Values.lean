import InfluxDB.Lib.Search

/-! The typed value arrays of `tsdb/cursors/arrayvalues.gen.go` and the value slices of
    `tsdb/tsm1/encoding.gen.go`.

    `FloatArray`, `IntegerArray` and their siblings keep two parallel slices, `Timestamps` and
    `Values`; here an array is the list of the pairs, generic in the value type, since the five
    generated versions differ in nothing else. `Exclude`, `Include` and `Merge` index the array by
    binary search and are only defined on sorted arrays; on those they are filters and an overlay.
    `deduplicate` is `Values.Deduplicate`, which takes a slice in any order. -/

namespace InfluxDB.Tsm
open Lib Option
open List hiding insertionSort

/-- `math.MinInt64`. -/
def minInt64 : ℤ := -9223372036854775808

/-- `math.MaxInt64`. -/
def maxInt64 : ℤ := 9223372036854775807

/-- The values of type `int64`. -/
def IsInt64 (t : ℤ) : Prop := minInt64 ≤ t ∧ t ≤ maxInt64

instance (t : ℤ) : Decidable (IsInt64 t) := inferInstanceAs (Decidable (_ ∧ _))

/-- `MaxPointsPerBlock`, the most points of a block and the length of a cursor's result buffer. -/
def maxPointsPerBlock : ℕ := 1000

/-- A value array: timestamps with their values. -/
abbrev Values (α : Type*) := List (ℤ × α)

variable {α : Type*}

/-- `MinTime`: the first timestamp, which an empty array does not have. -/
def Values.minTime? (a : Values α) : Option ℤ := a.head?.map (·.1)

/-- `MaxTime`: the last timestamp, which an empty array does not have. -/
def Values.maxTime? (a : Values α) : Option ℤ := a.getLast?.map (·.1)

/-- `search`: the position where a value of time `v` would be inserted. -/
def Values.search (a : Values α) (v : ℤ) : ℕ := sortSearch a.length (fun i => !((a[i]?.map (·.1)).any (· < v)))

/-- `FindRange`; `none` is the pair `(-1, -1)`. -/
def Values.findRange (a : Values α) (min max : ℤ) : Option (ℕ × ℕ) :=
  if min > max then none
  else
    match a.minTime?, a.maxTime? with
    | some minVal, some maxVal =>
      if maxVal < min ∨ minVal > max then none else some (a.search min, a.search max)
    | _, _ => none

/-- `rmax`, moved past an element at exactly `max`. -/
def Values.bumpMax (a : Values α) (rmax : ℕ) (max : ℤ) : ℕ :=
  if (a[rmax]?.map (·.1)) = some max then rmax + 1 else rmax

/-- `Exclude`: drop the points in `[min, max]`. -/
def Values.exclude (a : Values α) (min max : ℤ) : Values α :=
  match a.findRange min max with
  | none => a
  | some (rmin, rmax) =>
    if rmax < a.length then
      let rmax' := a.bumpMax rmax max
      if a.length - rmax' > 0 then a.take rmin ++ a.drop rmax' else a.take rmin
    else a.take rmin

/-- `Include`: keep the points in `[min, max]`. -/
def Values.include (a : Values α) (min max : ℤ) : Values α :=
  match a.findRange min max with
  | none => []
  | some (rmin, rmax) => (a.take (a.bumpMax rmax max)).drop rmin

/-- `TimestampArray.Contains`. -/
def Values.containsRange (a : Values α) (min max : ℤ) : Bool :=
  match a.findRange min max with
  | none => false
  | some (rmin, rmax) => a[rmin]?.map (·.1) == some min || a[rmax]?.map (·.1) == some max || decide (rmax > rmin)

/-- The two-pointer loop of `Merge`; on equal timestamps the point of `b` is kept. -/
def Values.mergeLoop : Values α → Values α → Values α
  | [], b => b
  | a, [] => a
  | p :: a, q :: b =>
    if p.1 < q.1 then p :: Values.mergeLoop a (q :: b)
    else if p.1 = q.1 then q :: Values.mergeLoop a b
    else q :: Values.mergeLoop (p :: a) b
termination_by a b => a.length + b.length

/-- `a.Merge(b)`: overlay `b` on top of `a`. -/
def Values.merge (a b : Values α) : Values α :=
  match a.minTime?, a.maxTime?, b.minTime?, b.maxTime? with
  | some amin, some amax, some bmin, some bmax =>
    if amax < bmin then a ++ b
    else if bmax < amin then b ++ a
    else a.mergeLoop b
  | none, _, _, _ => b
  | _, _, _, _ => a

/-- One step of the in-place compaction of `Deduplicate`; `out` is the kept prefix, last first. -/
def dedupStep (out : Values α) (v : ℤ × α) : Values α :=
  match out with
  | [] => [v]
  | w :: r => if v.1 ≠ w.1 then v :: w :: r else v :: r

/-- `Values.Deduplicate`: sort by time, keeping the last value of each timestamp. -/
def Values.deduplicate (a : Values α) : Values α :=
  if a.length ≤ 1 then a
  else if a.IsChain (fun p q => p.1 < q.1) then a
  else ((insertionSort (fun p q => decide (p.1 < q.1)) a).foldl dedupStep []).reverse

/-- The loop of the `Merge` of slices; on equal timestamps the point of `a` is dropped. -/
def Values.mergeValuesLoop : Values α → Values α → Values α
  | [], b => b
  | a, [] => a
  | p :: a, q :: b =>
    if p.1 < q.1 then p :: Values.mergeValuesLoop a (q :: b)
    else if p.1 = q.1 then Values.mergeValuesLoop a (q :: b)
    else q :: Values.mergeValuesLoop (p :: a) b
termination_by a b => a.length + b.length

/-- `a.Merge(b)` of slices in any order, which deduplicates both unless one is empty. -/
def Values.mergeValues (a b : Values α) : Values α :=
  if a.isEmpty then b
  else if b.isEmpty then a
  else
    let a := a.deduplicate
    let b := b.deduplicate
    if a.maxTime?.any fun amax => b.minTime?.any (amax < ·) then a ++ b
    else if b.maxTime?.any fun bmax => a.minTime?.any (bmax < ·) then b ++ a
    else a.mergeValuesLoop b

/-! ### First and last timestamps -/

variable {a : Values α} {t : ℤ}

@[simp] theorem minTime?_nil : Values.minTime? ([] : Values α) = none := rfl
@[simp] theorem maxTime?_nil : Values.maxTime? ([] : Values α) = none := rfl
@[simp] theorem minTime?_cons (p : ℤ × α) (a : Values α) : Values.minTime? (p :: a) = some p.1 := rfl

theorem minTime?_eq_none_iff : a.minTime? = none ↔ a = [] := by
  simp [Values.minTime?]

theorem maxTime?_eq_none_iff : a.maxTime? = none ↔ a = [] := by
  simp [Values.maxTime?]

theorem exists_minTime?_of_ne_nil (h : a ≠ []) : ∃ t, a.minTime? = some t :=
  ne_none_iff_exists'.mp fun hn => h (minTime?_eq_none_iff.mp hn)

theorem exists_maxTime?_of_ne_nil (h : a ≠ []) : ∃ t, a.maxTime? = some t :=
  ne_none_iff_exists'.mp fun hn => h (maxTime?_eq_none_iff.mp hn)

theorem mem_of_minTime? (h : a.minTime? = some t) : ∃ p ∈ a, p.1 = t := by
  obtain ⟨p, hp, rfl⟩ := map_eq_some_iff.mp h
  exact ⟨p, mem_of_mem_head? hp, rfl⟩

theorem mem_of_maxTime? (h : a.maxTime? = some t) : ∃ p ∈ a, p.1 = t := by
  obtain ⟨p, hp, rfl⟩ := map_eq_some_iff.mp h
  exact ⟨p, mem_of_getLast? hp, rfl⟩

theorem minTime?_le (ha : Ascending a) (h : a.minTime? = some t) : ∀ p ∈ a, t ≤ p.1 := by
  cases a with
  | nil => simp at h
  | cons q a =>
    rw [minTime?_cons] at h
    obtain rfl := some.inj h
    intro p hp
    rcases mem_cons.mp hp with rfl | hp
    · exact le_rfl
    · exact ((ascending_cons.mp ha).1 p hp).le

theorem le_maxTime? (ha : Ascending a) (h : a.maxTime? = some t) : ∀ p ∈ a, p.1 ≤ t := by
  obtain ⟨q, hq, rfl⟩ := map_eq_some_iff.mp h
  obtain ⟨s, rfl⟩ := getLast?_eq_some_iff.mp hq
  intro p hp
  rcases mem_append.mp hp with hp | hp
  · exact ((ascending_append.mp ha).2.2 p hp q (by simp)).le
  · rw [mem_singleton.mp hp]

/-! ### Search, `Exclude` and `Include` on sorted arrays -/

section

variable (ha : Ascending a) (max : ℤ) (v : ℤ)
include ha

theorem search_split :
    a.take (a.search v) = a.filter (fun p => p.1 < v) ∧
      a.drop (a.search v) = a.filter (fun p => v ≤ p.1) ∧ a.search v ≤ a.length := by
  obtain ⟨ht, hd, hle⟩ := sortSearch_split a (fun p => decide (v ≤ p.1))
    (fun i => !((a[i]?.map (·.1)).any (· < v)))
    (fun i h => by rw [Bool.eq_iff_iff]; simp [getElem?_eq_getElem h])
    (List.Pairwise.imp (fun hlt h => by simp only [decide_eq_true_eq] at h ⊢; omega) ha)
  have hboth : ∀ {s : Values α}, Ascending s →
      s.takeWhile (fun p => !decide (v ≤ p.1)) = s.filter (fun p => p.1 < v) ∧
        s.dropWhile (fun p => !decide (v ≤ p.1)) = s.filter (fun p => v ≤ p.1) := by
    intro s
    induction s with
    | nil => intro _; exact ⟨rfl, rfl⟩
    | cons p s ih =>
      intro hs
      obtain ⟨hp, hs⟩ := ascending_cons.mp hs
      by_cases hv : v ≤ p.1
      · have hall : ∀ q ∈ s, v ≤ q.1 := fun q hq => hv.trans (hp q hq).le
        have h1 : s.filter (fun p => decide (p.1 < v)) = [] :=
          filter_eq_nil_iff.mpr fun q hq => by simpa using hall q hq
        have h2 : s.filter (fun p => decide (v ≤ p.1)) = s := filter_eq_self.mpr fun q hq => by simpa using hall q hq
        simp [hv, not_lt.mpr hv, h1, h2]
      · simp [hv, not_le.mp hv, (ih hs).1, (ih hs).2]
  exact ⟨ht.trans (hboth ha).1, hd.trans (hboth ha).2, hle⟩

theorem search_eq_length : a.search v = (a.filter fun p => p.1 < v).length := by
  obtain ⟨ht, -, hle⟩ := search_split ha v
  rw [← ht, length_take, min_eq_left hle]

/-- Where `bumpMax` ends up is where a search for the next time would. -/
theorem bumpMax_search : a.bumpMax (a.search max) max = a.search (max + 1) := by
  -- at most one point has time `max`, and the points from `search max` on start with it
  have hlow := ha.filter_append_filter (f := fun p => p.1 < max) (g := fun p => p.1 = max) (by simp; omega)
  have hhigh := ha.filter_append_filter (f := fun p => p.1 = max) (g := fun p => max < p.1) (by simp; omega)
  have hsucc : a.search (max + 1) = a.search max + (a.filter fun p => p.1 = max).length := by
    rw [search_eq_length ha, search_eq_length ha, ← length_append, hlow]
    congr 2 with p
    simp only [Int.lt_add_one_iff, le_iff_lt_or_eq, Bool.decide_or]
  have hdrop : a.drop (a.search max) = (a.filter fun p => p.1 = max) ++ a.filter fun p => max < p.1 := by
    rw [(search_split ha max).2.1, hhigh]
    congr 1 with p
    simp [le_iff_eq_or_lt, eq_comm]
  have hasc : Ascending (a.drop (a.search max)) := ha.sublist (drop_sublist _ _)
  have heq : ∀ p ∈ a.filter fun p => p.1 = max, p.1 = max := by simp
  have hgt : ∀ p ∈ a.filter fun p => max < p.1, max < p.1 := by simp
  rw [Values.bumpMax, hsucc, ← head?_drop]
  rw [hdrop] at hasc ⊢
  generalize (a.filter fun p => p.1 = max) = e, (a.filter fun p => max < p.1) = g at *
  match e with
  | [] => cases g <;> simp_all [ne_of_gt]
  | [p] => simp_all
  | p :: q :: e =>
    have := (ascending_cons.mp hasc).1 q (by simp)
    simp_all

/-- `bumpMax` moves from the first point at or after `max` to the first point after it. -/
theorem drop_bumpMax :
    a.drop (a.bumpMax (a.search max) max) = a.filter (fun p => max < p.1) ∧
      a.take (a.bumpMax (a.search max) max) = a.filter (fun p => p.1 ≤ max) := by
  obtain ⟨ht, hd, -⟩ := search_split ha (max + 1)
  rw [bumpMax_search ha, ht, hd]
  simp only [Int.lt_add_one_iff, Int.add_one_le_iff, and_self]

end

variable {min max : ℤ} {b : Values α}

theorem findRange_eq_none_iff (ha : Ascending a) :
    a.findRange min max = none ↔ max < min ∨ (∀ p ∈ a, p.1 < min) ∨ ∀ p ∈ a, max < p.1 := by
  rw [Values.findRange]
  split_ifs with hle
  · exact iff_of_true rfl (.inl hle)
  · rw [or_iff_right hle]
    by_cases hnil : a = []
    · simp [hnil]
    · obtain ⟨lo, hlo⟩ := exists_minTime?_of_ne_nil hnil
      obtain ⟨hi, hhi⟩ := exists_maxTime?_of_ne_nil hnil
      have hfirst : (∀ p ∈ a, max < p.1) ↔ max < lo := by
        obtain ⟨p, hp, heq⟩ := mem_of_minTime? hlo
        exact ⟨fun h => heq ▸ h p hp, fun h q hq => h.trans_le (minTime?_le ha hlo q hq)⟩
      have hlast : (∀ p ∈ a, p.1 < min) ↔ hi < min := by
        obtain ⟨p, hp, heq⟩ := mem_of_maxTime? hhi
        exact ⟨fun h => heq ▸ h p hp, fun h q hq => (le_maxTime? ha hhi q hq).trans_lt h⟩
      rw [hlo, hhi, hfirst, hlast]
      simp [or_iff_not_imp_left]

theorem findRange_eq_none (ha : Ascending a) (h : a.findRange min max = none) :
    ∀ p ∈ a, ¬ (min ≤ p.1 ∧ p.1 ≤ max) := by
  intro p hp ⟨hmin, hmax⟩
  rcases (findRange_eq_none_iff ha).mp h with hlt | hall | hall
  · omega
  all_goals
    have := hall p hp
    omega

theorem findRange_eq_some {r : ℕ × ℕ}
    (h : a.findRange min max = some r) : r = (a.search min, a.search max) ∧ min ≤ max := by
  rw [Values.findRange] at h
  split at h
  · cases h
  · rename_i hle
    split at h
    · split at h
      · cases h
      · exact ⟨(some.inj h).symm, not_lt.mp hle⟩
    · cases h

/-- On a sorted array `Exclude` removes exactly the points of the range. -/
theorem exclude_eq_filter (ha : Ascending a) (min max : ℤ) :
    a.exclude min max = a.filter (fun p => !(decide (min ≤ p.1) && decide (p.1 ≤ max))) := by
  rw [Values.exclude]
  cases h : a.findRange min max with
  | none =>
    refine (filter_eq_self.mpr fun p hp => ?_).symm
    have := findRange_eq_none ha h p hp
    simp only [Bool.not_eq_true', Bool.and_eq_false_iff, decide_eq_false_iff_not]
    omega
  | some r =>
    obtain ⟨rfl, hle⟩ := findRange_eq_some h
    obtain ⟨ht, hd, hlen⟩ := search_split ha min
    obtain ⟨hd', _⟩ := drop_bumpMax ha max
    have hcut : a.take (a.search min) ++ a.drop (a.bumpMax (a.search max) max) =
        a.filter (fun p => !(decide (min ≤ p.1) && decide (p.1 ≤ max))) := by
      rw [ht, hd', ha.filter_append_filter (by simp; omega)]
      congr 1 with p
      rw [Bool.eq_iff_iff]
      simp
    simp only
    split
    · split
      · exact hcut
      · rename_i hpos
        rw [← hcut, drop_of_length_le (by omega), append_nil]
    · rename_i hge
      rw [← hcut, Values.bumpMax, getElem?_eq_none (not_lt.mp hge), if_neg (by simp),
        drop_of_length_le (not_lt.mp hge), append_nil]

/-- On a sorted array `Include` keeps exactly the points of the range. -/
theorem include_eq_filter (ha : Ascending a) (min max : ℤ) :
    a.include min max = a.filter (fun p => decide (min ≤ p.1) && decide (p.1 ≤ max)) := by
  rw [Values.include]
  cases h : a.findRange min max with
  | none =>
    refine (filter_eq_nil_iff.mpr fun p hp => ?_).symm
    simpa [-not_and] using findRange_eq_none ha h p hp
  | some r =>
    obtain ⟨rfl, hle⟩ := findRange_eq_some h
    obtain ⟨_, ht'⟩ := drop_bumpMax ha max
    -- the points before `min` all lie before `max`, so dropping them commutes with the cut
    have hsplit : (a.filter fun p => p.1 < min) ++ a.filter (fun p => decide (min ≤ p.1) && decide (p.1 ≤ max)) =
        a.filter fun p => p.1 ≤ max := by
      rw [ha.filter_append_filter (by simp; omega)]
      congr 1 with p
      rw [Bool.eq_iff_iff]
      simp; omega
    simp only
    rw [ht', ← hsplit, search_eq_length ha min, drop_left]

/-- On a sorted array `Contains` says whether a timestamp is in the range. -/
theorem containsRange_iff (ha : Ascending a) :
    a.containsRange min max ↔ ∃ p ∈ a, min ≤ p.1 ∧ p.1 ≤ max := by
  rw [Values.containsRange]
  cases hr : a.findRange min max with
  | none => simpa using findRange_eq_none ha hr
  | some r =>
    obtain ⟨rfl, hle⟩ := findRange_eq_some hr
    -- the positions enclose what `Include` keeps
    have hkept := include_eq_filter ha min max
    simp only [Values.include, hr, bumpMax_search ha] at hkept
    have hpos : (∃ p ∈ a, min ≤ p.1 ∧ p.1 ≤ max) ↔ a.search min < a.search (max + 1) := by
      have hlen := congrArg length hkept
      rw [length_drop, length_take, min_eq_left (search_split ha _).2.2] at hlen
      rw [← Nat.sub_pos_iff_lt, hlen, length_filter_pos_iff]
      simp
    simp only [Bool.or_eq_true, beq_iff_eq, decide_eq_true_eq]
    constructor
    · rintro ((h | h) | h)
      · obtain ⟨p, hp, rfl⟩ := map_eq_some_iff.mp h
        exact ⟨p, mem_of_getElem? hp, le_rfl, hle⟩
      · obtain ⟨p, hp, rfl⟩ := map_eq_some_iff.mp h
        exact ⟨p, mem_of_getElem? hp, hle, le_rfl⟩
      · rw [hpos, ← bumpMax_search ha, Values.bumpMax]
        split_ifs <;> omega
    · intro h
      rw [hpos, ← bumpMax_search ha, Values.bumpMax] at h
      split_ifs at h with hmax
      · exact .inl (.inr hmax)
      · exact .inr h

/-! ### `Merge` -/

theorem mergeLoop_nil (a : Values α) : a.mergeLoop [] = a := by
  cases a <;> simp [Values.mergeLoop]

theorem mem_of_mem_mergeLoop : ∀ (a b : Values α) {p : ℤ × α}, p ∈ a.mergeLoop b → p ∈ a ∨ p ∈ b := by
  intro a b
  fun_induction Values.mergeLoop a b with
  | case1 b => exact fun h => .inr h
  | case2 a _ => exact fun h => .inl h
  | case3 p a q b hlt ih =>
    intro r hr
    rcases mem_cons.mp hr with rfl | hr
    · exact .inl mem_cons_self
    · exact (ih hr).imp_left (mem_cons_of_mem _)
  | case4 p a q b hlt heq ih =>
    intro r hr
    rcases mem_cons.mp hr with rfl | hr
    · exact .inr mem_cons_self
    · exact (ih hr).imp (mem_cons_of_mem _) (mem_cons_of_mem _)
  | case5 p a q b hlt heq ih =>
    intro r hr
    rcases mem_cons.mp hr with rfl | hr
    · exact .inr mem_cons_self
    · exact (ih hr).imp_right (mem_cons_of_mem _)

theorem ascending_mergeLoop : ∀ (a b : Values α), Ascending a → Ascending b → Ascending (a.mergeLoop b) := by
  intro a b
  fun_induction Values.mergeLoop a b with
  | case1 b => exact fun _ hb => hb
  | case2 a _ => exact fun ha _ => ha
  | case3 p a q b hlt ih =>
    intro ha hb
    obtain ⟨hp, ha⟩ := ascending_cons.mp ha
    refine ascending_cons.mpr ⟨fun r hr => ?_, ih ha hb⟩
    rcases mem_of_mem_mergeLoop a (q :: b) hr with hr | hr
    · exact hp r hr
    · rcases mem_cons.mp hr with rfl | hr
      · exact hlt
      · exact hlt.trans ((ascending_cons.mp hb).1 r hr)
  | case4 p a q b hlt heq ih =>
    intro ha hb
    obtain ⟨hp, ha⟩ := ascending_cons.mp ha
    obtain ⟨hq, hb⟩ := ascending_cons.mp hb
    refine ascending_cons.mpr ⟨fun r hr => ?_, ih ha hb⟩
    rcases mem_of_mem_mergeLoop a b hr with hr | hr
    · exact heq ▸ hp r hr
    · exact hq r hr
  | case5 p a q b hlt heq ih =>
    intro ha hb
    obtain ⟨hq, hb'⟩ := ascending_cons.mp hb
    have hqp : q.1 < p.1 := lt_of_le_of_ne (not_lt.mp hlt) (Ne.symm heq)
    refine ascending_cons.mpr ⟨fun r hr => ?_, ih ha hb'⟩
    rcases mem_of_mem_mergeLoop (p :: a) b hr with hr | hr
    · rcases mem_cons.mp hr with rfl | hr
      · exact hqp
      · exact hqp.trans ((ascending_cons.mp ha).1 r hr)
    · exact hq r hr

theorem latest_mergeLoop : ∀ (a b : Values α), Ascending a → Ascending b → ∀ t,
    latest (a.mergeLoop b) t = (latest b t).or (latest a t) := by
  intro a b
  fun_induction Values.mergeLoop a b with
  | case1 b | case2 a _ => intro _ _ t; simp
  | case3 p a q b hlt ih =>
    intro ha hb t
    rw [latest_cons, ih (ascending_cons.mp ha).2 hb, latest_cons p a, Option.or_assoc]
  | case4 p a q b hlt heq ih =>
    intro ha hb t
    obtain ⟨hp, ha⟩ := ascending_cons.mp ha
    rw [latest_cons, ih ha (ascending_cons.mp hb).2, latest_cons q b, latest_cons p a]
    by_cases hqt : q.1 = t
    · -- the shadowed point of `a` is the only one of its time there
      have hnone : latest a t = none := (latest_eq_none_iff a t).mpr fun r hr => by
        have := hp r hr; omega
      simp [hqt, heq, hnone]
    · simp [hqt, heq]
  | case5 p a q b hlt heq ih =>
    intro ha hb t
    rw [latest_cons, ih ha (ascending_cons.mp hb).2, latest_cons q b]
    by_cases hqt : q.1 = t
    · have hnone : latest (p :: a) t = none := (latest_eq_none_iff _ t).mpr fun r hr => by
        rcases mem_cons.mp hr with rfl | hr
        · omega
        · have := (ascending_cons.mp ha).1 r hr; omega
      simp [hqt, hnone]
    · simp [hqt]

/-- `Merge` of sorted arrays is sorted and reads as `b` laid over `a`. -/
theorem merge_spec (ha : Ascending a) (hb : Ascending b) :
    Ascending (a.merge b) ∧ ∀ t, latest (a.merge b) t = latest (a ++ b) t := by
  rw [Values.merge]
  cases h1 : a.minTime? with
  | none => rw [minTime?_eq_none_iff] at h1; subst h1; simpa using hb
  | some amin =>
    obtain ⟨amax, h2⟩ := exists_maxTime?_of_ne_nil (a := a) (by rintro rfl; simp at h1)
    rw [h2]
    cases h3 : b.minTime? with
    | none => rw [minTime?_eq_none_iff] at h3; subst h3; simpa using ha
    | some bmin =>
      obtain ⟨bmax, h4⟩ := exists_maxTime?_of_ne_nil (a := b) (by rintro rfl; simp at h3)
      rw [h4]
      simp only
      have hal := minTime?_le ha h1
      have hau := le_maxTime? ha h2
      have hbl := minTime?_le hb h3
      have hbu := le_maxTime? hb h4
      split
      · refine ⟨ascending_append.mpr ⟨ha, hb, fun p hp q hq => ?_⟩, fun t => rfl⟩
        have := hau p hp; have := hbl q hq; omega
      · split
        · have hba : ∀ p ∈ b, ∀ q ∈ a, p.1 < q.1 := fun p hp q hq => by
            have := hbu p hp; have := hal q hq; omega
          exact ⟨ascending_append.mpr ⟨hb, ha, hba⟩, latest_append_comm fun p hp q hq => (hba p hp q hq).ne⟩
        · exact ⟨ascending_mergeLoop a b ha hb, fun t => by
            rw [latest_mergeLoop a b ha hb, latest_append]⟩

/-- On arrays in time order the operations are the overlay, the filters and the membership that their
names say. -/
theorem array_operations {a b : Values α} (ha : Ascending a) (hb : Ascending b) (min max : ℤ) :
    (Ascending (a.merge b) ∧ ∀ t, latest (a.merge b) t = (latest b t).or (latest a t)) ∧
      a.exclude min max = a.filter (fun p => !(decide (min ≤ p.1) && decide (p.1 ≤ max))) ∧
      a.include min max = a.filter (fun p => decide (min ≤ p.1) && decide (p.1 ≤ max)) ∧
      (a.containsRange min max ↔ ∃ p ∈ a, min ≤ p.1 ∧ p.1 ≤ max) ∧
      (a.findRange min max = none ↔ max < min ∨ (∀ p ∈ a, p.1 < min) ∨ ∀ p ∈ a, max < p.1) ∧
      ∀ i j, a.findRange min max = some (i, j) → i < a.length ∧
        a.take i = a.filter (fun p => p.1 < min) ∧ a.drop i = a.filter (fun p => min ≤ p.1) ∧
        a.take j = a.filter (fun p => p.1 < max) ∧ a.drop j = a.filter (fun p => max ≤ p.1) := by
  obtain ⟨hasc, hlatest⟩ := merge_spec ha hb
  refine ⟨⟨hasc, fun t => by rw [hlatest, latest_append]⟩, exclude_eq_filter ha min max,
    include_eq_filter ha min max, containsRange_iff ha, findRange_eq_none_iff ha, fun i j hr => ?_⟩
  have hsome : ¬ ∀ p ∈ a, p.1 < min := fun hall => by
    rw [(findRange_eq_none_iff ha).mpr (.inr (.inl hall))] at hr
    cases hr
  obtain ⟨⟨rfl, rfl⟩, -⟩ := (findRange_eq_some hr).imp_left Prod.mk.inj
  obtain ⟨ht, hd, -⟩ := search_split ha min
  obtain ⟨ht', hd', -⟩ := search_split ha max
  refine ⟨?_, ht, hd, ht', hd'⟩
  by_contra hge
  rw [take_of_length_le (not_lt.mp hge)] at ht
  exact hsome fun p hp => by simpa using filter_eq_self.mp ht.symm p hp

/-- Two arrays that overlap, and a range within the first. -/
theorem array_operations_overlap :
    latest (Values.merge [(1, 'a'), (3, 'b'), (5, 'c')] [(3, 'x'), (4, 'y')]) 3 = some 'x' ∧
      Values.exclude [(1, 'a'), (3, 'b'), (5, 'c')] 2 4 = [(1, 'a'), (5, 'c')] ∧
      Values.include [(1, 'a'), (3, 'b'), (5, 'c')] 2 4 = [(3, 'b')] ∧
      Values.containsRange [(1, 'a'), (3, 'b'), (5, 'c')] 2 4 ∧
      Values.findRange [(1, 'a'), (3, 'b'), (5, 'c')] 2 4 ≠ none := by
  obtain ⟨⟨-, hmerge⟩, hexclude, hinclude, hcontains, hfind, -⟩ := array_operations
    (a := [(1, 'a'), (3, 'b'), (5, 'c')]) (b := [(3, 'x'), (4, 'y')]) (by decide) (by decide) 2 4
  exact ⟨(hmerge 3).trans (by decide), hexclude.trans (by decide), hinclude.trans (by decide),
    hcontains.mpr (by decide), fun hnone => absurd (hfind.mp hnone) (by decide)⟩

/-! ### `Deduplicate` -/

/-- Compaction of a run sorted by time: the kept prefix is strictly increasing and reads the same. -/
theorem foldl_dedupStep_spec : ∀ (s out : Values α), Ascending out.reverse →
    (out.reverse ++ s).Pairwise (fun p q => p.1 ≤ q.1) →
    Ascending (s.foldl dedupStep out).reverse ∧
      ∀ t, latest (s.foldl dedupStep out).reverse t = latest (out.reverse ++ s) t
  | [], out, h, _ => by simpa using h
  | v :: s, [], _, hs => by
    have := foldl_dedupStep_spec s [v] (pairwise_singleton _ _) (by simpa using hs)
    simpa [dedupStep] using this
  | v :: s, w :: r, h, hs => by
    rw [foldl_cons, dedupStep]
    have hle : ∀ p ∈ (w :: r).reverse, p.1 ≤ v.1 := fun p hp =>
      (pairwise_append.mp hs).2.2 p hp v mem_cons_self
    by_cases hvw : v.1 = w.1
    · simp only [ne_eq, hvw, not_true_eq_false, if_false]
      rw [reverse_cons, ascending_append] at h
      have hv : Ascending (v :: r).reverse := by
        rw [reverse_cons, ascending_append]
        refine ⟨h.1, pairwise_singleton _ _, fun p hp q hq => ?_⟩
        rw [mem_singleton.mp hq, hvw]
        exact h.2.2 p hp w (by simp)
      have hsub : ((v :: r).reverse ++ s).Sublist ((w :: r).reverse ++ v :: s) := by
        simp only [reverse_cons, append_assoc, singleton_append]
        exact (List.Sublist.refl _).append (sublist_cons_self _ _)
      obtain ⟨hasc, hlat⟩ := foldl_dedupStep_spec s (v :: r) hv (hs.sublist hsub)
      refine ⟨hasc, fun t => ?_⟩
      -- the overwritten value `w` is shadowed by `v`
      rw [hlat]
      simp only [reverse_cons, append_assoc, singleton_append, latest_append, latest_cons, ← hvw]
      by_cases hvt : v.1 = t <;> simp [hvt]
    · simp only [ne_eq, hvw, not_false_eq_true, if_true]
      have hv : Ascending (v :: w :: r).reverse := by
        rw [reverse_cons, ascending_append]
        refine ⟨h, pairwise_singleton _ _, fun p hp q hq => ?_⟩
        rw [mem_singleton.mp hq]
        rw [reverse_cons] at hp h
        have hwv : w.1 < v.1 := lt_of_le_of_ne (hle w (by simp)) (Ne.symm hvw)
        rcases mem_append.mp hp with hp | hp
        · exact ((ascending_append.mp h).2.2 p hp w (by simp)).trans hwv
        · rw [mem_singleton.mp hp]; exact hwv
      obtain ⟨hasc, hlat⟩ := foldl_dedupStep_spec s (v :: w :: r) hv (by simpa using hs)
      exact ⟨hasc, fun t => by rw [hlat]; simp⟩

/-- `Deduplicate` of any slice is strictly increasing in time and keeps the last value of each. -/
theorem deduplicate_spec (a : Values α) : Ascending a.deduplicate ∧ ∀ t, latest a.deduplicate t = latest a t := by
  rw [Values.deduplicate]
  split
  · rename_i hlen
    refine ⟨?_, fun _ => rfl⟩
    match a, hlen with
    | [], _ => exact ascending_nil
    | [p], _ => exact pairwise_singleton _ _
  · split
    · rename_i hchain
      exact ⟨(isChain_iff_pairwise (R := fun p q : ℤ × α => p.1 < q.1)).mp hchain, fun _ => rfl⟩
    · have hsorted : (insertionSort (fun p q : ℤ × α => decide (p.1 < q.1)) a).Pairwise
          (fun p q => p.1 ≤ q.1) := by
        have hasymm : ∀ p q : ℤ × α, decide (p.1 < q.1) = true → decide (q.1 < p.1) = false := by
          intro p q h
          simp only [decide_eq_true_eq, decide_eq_false_iff_not] at h ⊢
          omega
        have hchain := insertionSort_isChain hasymm a
        simp only [decide_eq_false_iff_not, not_lt] at hchain
        exact (isChain_iff_pairwise (R := fun p q : ℤ × α => p.1 ≤ q.1)).mp hchain
      obtain ⟨hasc, hlat⟩ := foldl_dedupStep_spec
        (insertionSort (fun p q : ℤ × α => decide (p.1 < q.1)) a) [] List.Pairwise.nil
        (by simpa using hsorted)
      refine ⟨hasc, fun t => ?_⟩
      rw [hlat, reverse_nil, nil_append]
      refine insertionSort_invariant (F := fun s => latest s t) (fun u w p q hpq => ?_) a
      have hne : p.1 ≠ q.1 := by simp only [decide_eq_true_eq] at hpq; omega
      have hswap := latest_append_comm (a := [q]) (b := [p]) (by simpa using Ne.symm hne) t
      change latest (u ++ ([q] ++ [p] ++ w)) t = latest (u ++ ([p] ++ [q] ++ w)) t
      rw [latest_append, latest_append _ w, hswap, ← latest_append _ w, ← latest_append]

/-! ### The `Merge` of slices -/

theorem mergeValuesLoop_of_lt {q : ℤ × α} (h : ∀ p ∈ a, q.1 < p.1) :
    a.mergeValuesLoop (q :: b) = q :: a.mergeValuesLoop b := by
  cases a with
  | nil => simp [Values.mergeValuesLoop]
  | cons p a =>
    have hlt := h p mem_cons_self
    rw [Values.mergeValuesLoop, if_neg (by omega), if_neg (by omega)]

theorem mergeValuesLoop_eq :
    ∀ {a b : Values α}, Ascending a → Ascending b → a.mergeValuesLoop b = a.mergeLoop b := by
  intro a b
  fun_induction Values.mergeLoop a b with
  | case1 b => simp [Values.mergeValuesLoop]
  | case2 a _ => cases a <;> simp [Values.mergeValuesLoop]
  | case3 p a q b hlt ih =>
    intro ha hb
    rw [Values.mergeValuesLoop, if_pos hlt, ih (ascending_cons.mp ha).2 hb]
  | case4 p a q b hlt heq ih =>
    intro ha hb
    obtain ⟨hp, ha⟩ := ascending_cons.mp ha
    rw [Values.mergeValuesLoop, if_neg hlt, if_pos heq, mergeValuesLoop_of_lt (heq ▸ hp),
      ih ha (ascending_cons.mp hb).2]
  | case5 p a q b hlt heq ih =>
    intro ha hb
    rw [Values.mergeValuesLoop, if_neg hlt, if_neg heq, ih ha (ascending_cons.mp hb).2]

theorem deduplicate_eq_self_iff : a.deduplicate = a ↔ Ascending a := by
  obtain ⟨hasc, hlatest⟩ := deduplicate_spec a
  exact ⟨fun h => h ▸ hasc, fun h => hasc.ext h hlatest⟩

theorem deduplicate_ne_nil (h : a ≠ []) : a.deduplicate ≠ [] := by
  intro hnil
  obtain ⟨p, hp⟩ := exists_mem_of_ne_nil a h
  obtain ⟨v, hv⟩ := exists_latest_of_mem hp
  rw [← (deduplicate_spec a).2, hnil] at hv
  cases hv

theorem mergeValues_of_ne_nil (ha : a ≠ []) (hb : b ≠ []) :
    a.mergeValues b = a.deduplicate.merge b.deduplicate := by
  obtain ⟨amin, hamin⟩ := exists_minTime?_of_ne_nil (deduplicate_ne_nil ha)
  obtain ⟨amax, hamax⟩ := exists_maxTime?_of_ne_nil (deduplicate_ne_nil ha)
  obtain ⟨bmin, hbmin⟩ := exists_minTime?_of_ne_nil (deduplicate_ne_nil hb)
  obtain ⟨bmax, hbmax⟩ := exists_maxTime?_of_ne_nil (deduplicate_ne_nil hb)
  rw [Values.mergeValues, if_neg (by simpa using ha), if_neg (by simpa using hb), Values.merge]
  simp [hamin, hamax, hbmin, hbmax, mergeValuesLoop_eq (deduplicate_spec a).1 (deduplicate_spec b).1]

/-- `Deduplicate` keeps the last value of each time, in time order. `Merge` does the same to the slices one
after the other, unless one of them is empty and the other is not in time order: that one is returned as it
is. On slices in time order `Exclude` and `Include` are filters. -/
theorem slice_operations (a b : Values α) :
    (Ascending a.deduplicate ∧ ∀ t, latest a.deduplicate t = latest a t) ∧
      (a.mergeValues b = (a ++ b).deduplicate ↔ (a = [] → Ascending b) ∧ (b = [] → Ascending a)) ∧
      (Ascending a → ∀ min max,
        a.exclude min max = a.filter (fun p => !(decide (min ≤ p.1) && decide (p.1 ≤ max))) ∧
        a.include min max = a.filter (fun p => decide (min ≤ p.1) && decide (p.1 ≤ max))) := by
  refine ⟨deduplicate_spec a, ?_,
    fun ha min max => ⟨exclude_eq_filter ha min max, include_eq_filter ha min max⟩⟩
  by_cases ha : a = []
  · subst ha
    simp only [Values.mergeValues, isEmpty_nil, if_true, nil_append, forall_const, ascending_nil, implies_true,
      and_true]
    exact eq_comm.trans deduplicate_eq_self_iff
  · by_cases hb : b = []
    · subst hb
      simp only [Values.mergeValues, isEmpty_nil, if_true, isEmpty_eq_false_iff.mpr ha, Bool.false_eq_true, if_false,
        append_nil, ha, false_implies, true_and, forall_const]
      exact eq_comm.trans deduplicate_eq_self_iff
    · refine iff_of_true ?_ ⟨fun h => absurd h ha, fun h => absurd h hb⟩
      obtain ⟨hasc, hlatest⟩ := merge_spec (deduplicate_spec a).1 (deduplicate_spec b).1
      obtain ⟨hasc', hlatest'⟩ := deduplicate_spec (a ++ b)
      rw [mergeValues_of_ne_nil ha hb]
      refine hasc.ext hasc' fun t => ?_
      rw [hlatest, hlatest', latest_append, latest_append, (deduplicate_spec a).2, (deduplicate_spec b).2]

/-- Two values of one time stay when the other slice is empty. -/
theorem mergeValues_keeps_duplicates :
    Values.mergeValues [] [(1, 'a'), (1, 'b')] = [(1, 'a'), (1, 'b')] ∧
      Values.deduplicate ([] ++ [(1, 'a'), (1, 'b')]) = [(1, 'b')] := by
  decide

end InfluxDB.Tsm
