import Mathlib.Algebra.Order.BigOperators.Group.List
import InfluxDB.Lib.Fallible
import InfluxDB.Tsm.KeyCursor

/-! What a read of the block cursor of `file_store.go` does, and a run of reads.

    What a location still has to give is `Location.unread`, and `unreadAt` overlays the locations of a cursor
    in its order. A read takes a window of times from that map: no unread point lies behind the window, so the
    batches of a drained cursor are adjacent pieces of the map. The two directions share all of this; only
    the choice of the window is proved for each. -/

namespace InfluxDB.Tsm
open Lib List Bool Function Location
variable {α : Type*}

/-- A time of the window, or one that a cursor in this direction reaches after it. -/
def TimeRange.Ahead (w : TimeRange) (ascending : Bool) (t : ℤ) : Prop :=
  if ascending then w.min ≤ t else t ≤ w.max

/-! ### Unread points -/

namespace Location

/-- The decoded block. -/
def block (l : Location α) : Values α := (l.r.readFloatArrayBlockAt l.entry).toOption.getD []

/-- The points that survive the tombstones of their file and are not marked as read. -/
def unread (l : Location α) : Values α :=
  (survivors l.r.tombstoneRange l.block).filter fun p => !(decide (l.readMin ≤ p.1) && decide (p.1 ≤ l.readMax))

/-- The block decodes to sorted points inside the times of its entry. -/
structure Sound (l : Location α) : Prop where
  decodes : l.r.readFloatArrayBlockAt l.entry = .ok l.block
  ascending : Ascending l.block
  bounds : ∀ p ∈ l.block, l.entry.minTime ≤ p.1 ∧ p.1 ≤ l.entry.maxTime
  minTime : IsInt64 l.entry.minTime
  maxTime : IsInt64 l.entry.maxTime

/-- The mark on the side that the cursor comes from is never moved. -/
def Sided (ascending : Bool) (l : Location α) : Prop :=
  if ascending then l.readMin = minInt64 else l.readMax = maxInt64

variable {l : Location α} {w : TimeRange} {ascending : Bool}

theorem readMin_markRead (l : Location α) (a b : ℤ) : (l.markRead a b).readMin = min a l.readMin := by
  show (if a < l.readMin then a else l.readMin) = _
  split_ifs <;> omega

theorem readMax_markRead (l : Location α) (a b : ℤ) : (l.markRead a b).readMax = max b l.readMax := by
  show (if b > l.readMax then b else l.readMax) = _
  split_ifs <;> omega

theorem Sound.markRead (h : l.Sound) (min max : ℤ) : (l.markRead min max).Sound :=
  ⟨h.decodes, h.ascending, h.bounds, h.minTime, h.maxTime⟩

theorem mem_block_of_mem_unread {p : ℤ × α} (h : p ∈ l.unread) : p ∈ l.block :=
  mem_of_mem_filter (mem_of_mem_filter h)

section

variable (h : l.Sound)
include h

theorem Sound.ascending_unread : Ascending l.unread := (ascending_survivors _ h.ascending).filter _

theorem Sound.isInt64 {p : ℤ × α} (hp : p ∈ l.block) : minInt64 ≤ p.1 ∧ p.1 ≤ maxInt64 := by
  have hb := h.bounds p hp
  have hmin := h.minTime.1
  have hmax := h.maxTime.2
  omega

/-- `first`: read values go before tombstoned ones. -/
theorem Sound.excludeTombstones_exclude :
    excludeTombstones l.r.tombstoneRange (l.block.exclude l.readMin l.readMax) = l.unread := by
  rw [exclude_eq_filter h.ascending, excludeTombstones_eq_survivors _ (h.ascending.filter _),
    unread, survivors, survivors, filter_filter, filter_filter]
  simp only [Bool.and_comm]

/-- The other blocks: tombstoned values go before read ones. -/
theorem Sound.exclude_excludeTombstones :
    (excludeTombstones l.r.tombstoneRange l.block).exclude l.readMin l.readMax = l.unread := by
  rw [excludeTombstones_eq_survivors _ h.ascending, exclude_eq_filter (ascending_survivors _ h.ascending), unread]

theorem Sound.unread_of_read (hr : l.read = true) : l.unread = [] := by
  simp only [read, and_eq_true, decide_eq_true_eq] at hr
  refine filter_eq_nil_iff.mpr fun p hp => ?_
  have hb := h.bounds p (mem_of_mem_filter hp)
  simp only [not_eq_true', and_eq_false_iff, decide_eq_false_iff_not]
  omega

/-- Marking a window that no unread point is behind removes its points. -/
theorem Sound.unread_markRead (hs : l.Sided ascending) (hw : ∀ p ∈ l.unread, w.Ahead ascending p.1) :
    (l.markRead w.min w.max).unread = l.unread.filter fun p => !decide (w.Covers p.1) := by
  rw [unread, unread, filter_filter]
  refine filter_congr fun p hp => ?_
  have hint := h.isInt64 (mem_of_mem_filter hp)
  have hahead : ¬ (l.readMin ≤ p.1 ∧ p.1 ≤ l.readMax) → w.Ahead ascending p.1 := fun hn =>
    hw p (mem_filter.mpr ⟨hp, by rw [← decide_and, decide_eq_false hn]; rfl⟩)
  rw [Bool.eq_iff_iff]
  simp only [and_eq_true, not_eq_true', and_eq_false_iff, decide_eq_false_iff_not, readMin_markRead, readMax_markRead]
  unfold TimeRange.Ahead at hahead
  unfold TimeRange.Covers
  cases ascending with
  | true =>
    simp only [Sided, if_true] at hs hahead
    omega
  | false =>
    simp only [Sided, false_eq_true, if_false] at hs hahead
    omega

end

theorem Sided.markRead (h : l.Sided ascending) (hw : if ascending then minInt64 ≤ w.min else w.max ≤ maxInt64) :
    (l.markRead w.min w.max).Sided ascending := by
  cases ascending with
  | true =>
    simp only [Sided, if_true, readMin_markRead] at h hw ⊢
    omega
  | false =>
    simp only [Sided, false_eq_true, if_false, readMax_markRead] at h hw ⊢
    omega

end Location

/-- The points of a window. -/
def within (w : TimeRange) (vs : Values α) : Values α := vs.filter fun p => decide (w.Covers p.1)

namespace KeyCursor
variable {n : ℕ} {seeks : Fin n → Location α} {w : TimeRange} {ascending : Bool}

/-! ### Merging the other blocks -/

theorem include_eq_within {vs : Values α} (h : Ascending vs) : vs.include w.min w.max = within w vs := by
  rw [include_eq_filter h, within]
  refine filter_congr fun p _ => ?_
  rw [← decide_and]
  rfl

theorem combine_spec {a b : Values α} (ha : Ascending a) (hb : Ascending b) :
    Ascending (combine ascending a b) ∧ ∀ t, latest (combine ascending a b) t = overlay ascending [a, b] t := by
  cases ascending with
  | true =>
    obtain ⟨hasc, hlatest⟩ := merge_spec ha hb
    exact ⟨hasc, fun t => by simp [combine, hlatest, overlay_cons, latest_append]⟩
  | false =>
    obtain ⟨hasc, hlatest⟩ := merge_spec hb ha
    exact ⟨hasc, fun t => by simp [combine, hlatest, overlay_cons, latest_append]⟩

variable {i : Fin n} {values : Values α}

/-- One pass of the merge loop lays the unread points of the window over the values. -/
theorem mergeBlock_spec (ascending : Bool) (w : TimeRange) (hv : Ascending values) (hi : (seeks i).Sound) :
    ∃ values', mergeBlock ascending w (values, seeks) i =
        .ok (values', update seeks i ((seeks i).markRead w.min w.max)) ∧
      Ascending values' ∧ ∀ t, latest values' t = overlay ascending [values, within w (seeks i).unread] t := by
  have hskip : within w (seeks i).unread = [] → ∀ t, latest values t =
      overlay ascending [values, within w (seeks i).unread] t := by
    intro hnil t
    rw [hnil]
    cases ascending <;> simp [overlay_cons]
  rw [mergeBlock]
  by_cases hout : (!(seeks i).entry.overlapsTimeRange w.min w.max || (seeks i).read) = true
  · rw [if_pos hout]
    refine ⟨values, rfl, hv, hskip (filter_eq_nil_iff.mpr fun p hp => ?_)⟩
    rcases or_eq_true_iff.mp hout with hno | hread
    · have hb := hi.bounds p (mem_block_of_mem_unread hp)
      simp only [IndexEntry.overlapsTimeRange, not_eq_true', and_eq_false_iff, decide_eq_false_iff_not] at hno
      rw [decide_eq_true_eq, TimeRange.Covers]
      omega
    · rw [hi.unread_of_read hread] at hp
      cases hp
  · rw [if_neg hout, hi.decodes]
    refine ⟨_, rfl, ?_⟩
    rw [hi.exclude_excludeTombstones]
    by_cases hlen : (seeks i).unread.length > 0
    · rw [if_pos hlen, include_eq_within hi.ascending_unread]
      exact combine_spec hv (hi.ascending_unread.filter _)
    · rw [if_neg hlen]
      have hnil : (seeks i).unread = [] := eq_nil_of_length_eq_zero (by omega)
      exact ⟨hv, hskip (by rw [hnil]; rfl)⟩

/-- The marks that a read with the window leaves. -/
def markAll (seeks : Fin n → Location α) (cur : List (Fin n)) (w : TimeRange) (i : Fin n) : Location α :=
  if i ∈ cur then (seeks i).markRead w.min w.max else seeks i

variable {rest : List (Fin n)}

theorem markAll_cons (hi : i ∉ rest) :
    markAll (update seeks i ((seeks i).markRead w.min w.max)) rest w = markAll seeks (i :: rest) w := by
  funext j
  rw [markAll, markAll]
  rcases eq_or_ne j i with rfl | hne
  · simp [hi]
  · simp [hne]

theorem foldlM_mergeBlock (ascending : Bool) (w : TimeRange) (hs : ∀ i, (seeks i).Sound)
    (hrest : rest.Nodup) (hv : Ascending values) :
    ∃ values', rest.foldlM (mergeBlock ascending w) (values, seeks) = .ok (values', markAll seeks rest w) ∧
      Ascending values' ∧
      ∀ t, latest values' t = overlay ascending (values :: rest.map fun i => within w (seeks i).unread) t := by
  induction rest generalizing values seeks with
  | nil =>
    have hnone : markAll seeks [] w = seeks := funext fun i => if_neg not_mem_nil
    exact ⟨values, by rw [hnone]; rfl, hv, fun t => by simp [overlay_singleton]⟩
  | cons i rest ih =>
    obtain ⟨hi, hrest⟩ := nodup_cons.mp hrest
    obtain ⟨values₁, hstep, hv₁, hlatest₁⟩ := mergeBlock_spec ascending w hv (hs i)
    have hs₁ : ∀ j, (update seeks i ((seeks i).markRead w.min w.max) j).Sound := fun j => by
      rcases eq_or_ne j i with rfl | hne
      · rw [update_self]
        exact (hs j).markRead _ _
      · rw [update_of_ne hne]
        exact hs j
    obtain ⟨values', hfold, hv', hlatest⟩ := ih hs₁ hrest hv₁
    refine ⟨values', ?_, hv', fun t => ?_⟩
    · rw [foldlM_cons, hstep, ← markAll_cons hi]
      exact hfold
    · rw [hlatest, overlay_merge (hlatest₁ t), map_cons]
      congr 3
      refine map_congr_left fun j hj => ?_
      rw [update_of_ne (by rintro rfl; exact hi hj)]

/-! ### The first block -/

theorem firstBlock_spec (hs : ∀ i, (seeks i).Sound) (current : List (Fin n)) :
    ∃ dropped rest, current = dropped ++ rest ∧ (∀ i ∈ dropped, (seeks i).unread = []) ∧
      (rest = [] ∧ firstBlock seeks current = .ok ([], []) ∨
        ∃ i rest', rest = i :: rest' ∧ (seeks i).unread ≠ [] ∧
          firstBlock seeks current = .ok ((seeks i).unread, i :: rest')) := by
  induction current with
  | nil => exact ⟨[], [], rfl, by simp, .inl ⟨rfl, rfl⟩⟩
  | cons i current ih =>
    have hstep : firstBlock seeks (i :: current) =
        if (seeks i).unread.length = 0 then firstBlock seeks current else .ok ((seeks i).unread, i :: current) := by
      rw [firstBlock, (hs i).decodes]
      show (if (excludeTombstones _ ((seeks i).block.exclude _ _)).length = 0 then _ else _) = _
      rw [(hs i).excludeTombstones_exclude]
    rw [hstep]
    by_cases hlen : (seeks i).unread.length = 0
    · obtain ⟨dropped, rest, hcur, hdrop, h⟩ := ih
      rw [if_pos hlen]
      refine ⟨i :: dropped, rest, by rw [hcur]; rfl, ?_, h⟩
      rw [forall_mem_cons]
      exact ⟨eq_nil_of_length_eq_zero hlen, hdrop⟩
    · rw [if_neg hlen]
      exact ⟨[], i :: current, rfl, by simp, .inr ⟨i, current, rfl, fun hnil => hlen (by rw [hnil]; rfl), rfl⟩⟩

/-! ### The window -/

/-- A window for a read: it holds the values of the first block, no unread point is behind it, and its
    near side is an `int64`. -/
structure Spans (seeks : Fin n → Location α) (cur : List (Fin n)) (ascending : Bool) (values : Values α)
    (w : TimeRange) : Prop where
  holds : ∀ p ∈ values, w.Covers p.1
  ahead : ∀ i ∈ cur, ∀ p ∈ (seeks i).unread, w.Ahead ascending p.1
  side : if ascending then minInt64 ≤ w.min else w.max ≤ maxInt64

section

variable (hs : ∀ i, (seeks i).Sound)
include hs

theorem not_read_of_mem_unread {p : ℤ × α} (hp : p ∈ (seeks i).unread) : (!(seeks i).read) = true := by
  cases hr : (seeks i).read with
  | false => rfl
  | true => rw [(hs i).unread_of_read hr] at hp; cases hp

section

variable {w₀ : TimeRange} (h₀ : ∀ p ∈ (seeks i).unread, w₀.Covers p.1)
include h₀

theorem ascWindow_spec (hmin : minInt64 ≤ w₀.min) :
    Spans seeks (i :: rest) true (seeks i).unread (ascWindow seeks rest w₀).1 := by
  obtain ⟨hle, hall, hor⟩ := foldl_pick (fun i => (seeks i).entry.minTime) (fun i => !(seeks i).read) rest w₀.min
  rw [ascWindow]
  generalize rest.foldl _ w₀.min = minT at hle hall hor
  have hside : minInt64 ≤ minT := by
    rcases hor with rfl | ⟨j, -, rfl⟩
    · exact hmin
    · exact (hs j).minTime.1
  have hspan : ∀ maxT, w₀.max ≤ maxT →
      Spans seeks (i :: rest) true (seeks i).unread { min := minT, max := maxT } := by
    intro maxT hmax
    refine ⟨fun p hp => ?_, forall_mem_cons.mpr ⟨fun p hp => ?_, fun j hj p hp => ?_⟩, hside⟩
    · exact ⟨hle.trans (h₀ p hp).1, (h₀ p hp).2.trans hmax⟩
    · exact hle.trans (h₀ p hp).1
    · exact (hall j hj (not_read_of_mem_unread hs hp)).trans ((hs j).bounds p (mem_block_of_mem_unread hp)).1
  split
  · exact hspan _ le_rfl
  · refine hspan _ ?_
    split_ifs <;> omega

theorem descWindow_spec (hmax : w₀.max ≤ maxInt64) :
    Spans seeks (i :: rest) false (seeks i).unread (descWindow seeks rest w₀).1 := by
  obtain ⟨hle, hall, hor⟩ :=
    foldl_pick_max (fun i => (seeks i).entry.maxTime) (fun i => !(seeks i).read) rest w₀.max
  rw [descWindow]
  generalize rest.foldl _ w₀.max = maxT at hle hall hor
  have hside : maxT ≤ maxInt64 := by
    rcases hor with rfl | ⟨j, -, rfl⟩
    · exact hmax
    · exact (hs j).maxTime.2
  have hspan : ∀ minT, minT ≤ w₀.min →
      Spans seeks (i :: rest) false (seeks i).unread { min := minT, max := maxT } := by
    intro minT hmin
    refine ⟨fun p hp => ?_, forall_mem_cons.mpr ⟨fun p hp => ?_, fun j hj p hp => ?_⟩, hside⟩
    · exact ⟨hmin.trans (h₀ p hp).1, (h₀ p hp).2.trans hle⟩
    · exact (h₀ p hp).2.trans hle
    · exact ((hs j).bounds p (mem_block_of_mem_unread hp)).2.trans (hall j hj (not_read_of_mem_unread hs hp))
  split
  · exact hspan _ le_rfl
  · refine hspan _ ?_
    split_ifs <;> omega

end

end

/-! ### A read -/

/-- The order in which a cursor goes through its locations. -/
def scan (n : ℕ) (ascending : Bool) : List (Fin n) := if ascending then finRange n else (finRange n).reverse

theorem nodup_scan : (scan n ascending).Nodup := by
  cases ascending
  · exact nodup_reverse.mpr (nodup_finRange n)
  · exact nodup_finRange n

/-- In the order of the cursor, but the first location may be there twice. -/
def Ordered (ascending : Bool) (cur : List (Fin n)) : Prop :=
  cur.Sublist (scan n ascending) ∨ ∃ i rest, cur = i :: i :: rest ∧ (i :: rest).Sublist (scan n ascending)

theorem Ordered.tail (h : Ordered ascending (i :: rest)) : rest.Sublist (scan n ascending) := by
  rcases h with h | ⟨j, rest', he, h⟩
  · exact sublist_of_cons_sublist h
  · cases he
    exact h

theorem Ordered.suffix {dropped : List (Fin n)} (h : Ordered ascending (dropped ++ rest)) : Ordered ascending rest := by
  cases dropped with
  | nil => exact h
  | cons i dropped => exact .inl ((sublist_append_right dropped rest).trans h.tail)

/-- The locations left out have nothing to give. -/
theorem Ordered.overlay_eq {cur : List (Fin n)} (h : Ordered ascending cur) {g : Fin n → Values α}
    (hg : ∀ i, i ∉ cur → g i = []) (t : ℤ) :
    overlay ascending (cur.map g) t = overlay ascending ((scan n ascending).map g) t := by
  rcases h with h | ⟨i, rest, rfl, h⟩
  · exact overlay_map_sublist h nodup_scan (fun i _ => hg i) t
  · rw [map_cons, map_cons, overlay_self_cons, ← map_cons]
    exact overlay_map_sublist h nodup_scan (fun j _ hj => hg j (by simpa using hj)) t

/-- The unread points of all locations as one map. -/
def unreadAt (c : KeyCursor α n) (t : ℤ) : Option α :=
  overlay c.ascending ((scan n c.ascending).map fun i => (c.seeks i).unread) t

theorem exists_of_unreadAt {c : KeyCursor α n} {t : ℤ} (h : c.unreadAt t ≠ none) :
    ∃ i, ∃ p ∈ (c.seeks i).unread, p.1 = t := by
  obtain ⟨b, hb, hne⟩ := exists_of_overlay_ne_none h
  obtain ⟨i, -, rfl⟩ := mem_map.mp hb
  obtain ⟨v, hv⟩ := Option.ne_none_iff_exists'.mp hne
  exact ⟨i, (t, v), mem_of_latest_eq_some hv, rfl⟩

/-- The invariant of a cursor: what is unread lies in the locations of `current`. -/
structure Inv (c : KeyCursor α n) : Prop where
  sound : ∀ i, (c.seeks i).Sound
  sided : ∀ i, (c.seeks i).Sided c.ascending
  ordered : Ordered c.ascending c.current
  covered : ∀ i, (c.seeks i).unread ≠ [] → i ∈ c.current
  pos : ∀ i ∈ c.current, if c.ascending then c.pos ≤ (i : ℕ) else ((i : ℕ) : ℤ) ≤ c.pos

/-- How many points are unread. -/
def left (c : KeyCursor α n) : ℕ := ((finRange n).map fun i => (c.seeks i).unread.length).sum

/-- A read moves the points of a window from the cursor to the values. -/
structure Emits (c : KeyCursor α n) (values : Values α) (c' : KeyCursor α n) (w : TimeRange) : Prop where
  ascending : Ascending values
  inside : ∀ t, latest values t = if w.Covers t then c.unreadAt t else none
  outside : ∀ t, c'.unreadAt t = if w.Covers t then none else c.unreadAt t
  ahead : ∀ t, c.unreadAt t ≠ none → w.Ahead c.ascending t
  left_lt : c'.left < c.left

section Step
variable {c : KeyCursor α n}

theorem markRead_markRead (l : Location α) (a b : ℤ) : (l.markRead a b).markRead a b = l.markRead a b := by
  simp only [markRead]
  congr 1 <;> split_ifs <;> omega

theorem update_markAll (seeks : Fin n → Location α) (i : Fin n) (rest : List (Fin n)) (w : TimeRange) :
    update (markAll seeks rest w) i ((markAll seeks rest w i).markRead w.min w.max) =
      markAll seeks (i :: rest) w := by
  funext j
  rcases eq_or_ne j i with rfl | hne
  · rw [update_self, markAll, markAll, if_pos mem_cons_self]
    split_ifs
    · exact markRead_markRead _ _ _
    · rfl
  · rw [update_of_ne hne, markAll, markAll]
    simp [hne]

/-- Values that overlay the window, with the window marked, are a read. -/
theorem emits_markAll (h : Inv c) (hcur : Ordered c.ascending (i :: rest)) (hsub : i :: rest ⊆ c.current)
    (hcov : ∀ j, (c.seeks j).unread ≠ [] → j ∈ i :: rest) (hi : (c.seeks i).unread ≠ [])
    (hw : Spans c.seeks (i :: rest) c.ascending (c.seeks i).unread w) (hvalues : Ascending values)
    (hlatest : ∀ t, latest values t = overlay c.ascending ((i :: rest).map fun j => within w (c.seeks j).unread) t) :
    Inv { c with current := i :: rest, seeks := markAll c.seeks (i :: rest) w } ∧
      Emits c values { c with current := i :: rest, seeks := markAll c.seeks (i :: rest) w } w := by
  have hempty : ∀ j, j ∉ i :: rest → (c.seeks j).unread = [] := fun j hj => by
    by_contra hne
    exact hj (hcov j hne)
  have hunread : ∀ j, (markAll c.seeks (i :: rest) w j).unread =
      (c.seeks j).unread.filter fun p => !decide (w.Covers p.1) := by
    intro j
    rw [markAll]
    split_ifs with hj
    · exact (h.sound j).unread_markRead (h.sided j) (hw.ahead j hj)
    · rw [hempty j hj, filter_nil]
  refine ⟨⟨fun j => ?_, fun j => ?_, hcur, fun j hj => hcov j ?_, fun j hj => h.pos j (hsub hj)⟩,
    ⟨hvalues, fun t => ?_, fun t => ?_, fun t ht => ?_, ?_⟩⟩
  · dsimp only
    rw [markAll]
    split_ifs
    · exact (h.sound j).markRead _ _
    · exact h.sound j
  · dsimp only
    rw [markAll]
    split_ifs
    · exact (h.sided j).markRead hw.side
    · exact h.sided j
  · rintro hnil
    rw [hunread, hnil] at hj
    exact hj rfl
  · rw [hlatest, hcur.overlay_eq (fun j hj => by rw [hempty j hj]; rfl)]
    have := overlay_map_filter (w := c.ascending) (fun x => decide (w.Covers x))
      ((scan n c.ascending).map fun j => (c.seeks j).unread) t
    rw [map_map] at this
    simp only [decide_eq_true_eq] at this
    exact this
  · have := overlay_map_filter (w := c.ascending) (fun x => !decide (w.Covers x))
      ((scan n c.ascending).map fun j => (c.seeks j).unread) t
    rw [map_map] at this
    rw [unreadAt, map_congr_left fun j _ => hunread j]
    rw [comp_def] at this
    rw [this, unreadAt]
    by_cases hc : w.Covers t <;> simp [hc]
  · obtain ⟨j, p, hp, rfl⟩ := exists_of_unreadAt ht
    exact hw.ahead j (hcov j (ne_nil_of_mem hp)) p hp
  · refine sum_lt_sum _ _ (fun j _ => ?_) ⟨i, mem_finRange i, ?_⟩
    · rw [hunread]
      exact length_filter_le _ _
    · rw [hunread, filter_eq_nil_iff.mpr fun p hp => by simpa using hw.holds p hp]
      exact length_pos_iff.mpr hi

theorem firstWindow_spec (h : (c.seeks i).Sound) (hi : (c.seeks i).unread ≠ []) :
    (∀ p ∈ (c.seeks i).unread, (firstWindow (c.seeks i) (c.seeks i).unread).Covers p.1) ∧
      minInt64 ≤ (firstWindow (c.seeks i) (c.seeks i).unread).min ∧
      (firstWindow (c.seeks i) (c.seeks i).unread).max ≤ maxInt64 := by
  obtain ⟨minT, hmin⟩ := exists_minTime?_of_ne_nil hi
  obtain ⟨maxT, hmax⟩ := exists_maxTime?_of_ne_nil hi
  rw [firstWindow, hmin, hmax]
  refine ⟨fun p hp => ⟨minTime?_le h.ascending_unread hmin p hp,
    le_maxTime? h.ascending_unread hmax p hp⟩, ?_, ?_⟩
  · obtain ⟨p, hp, rfl⟩ := mem_of_minTime? hmin
    exact (h.isInt64 (mem_block_of_mem_unread hp)).1
  · obtain ⟨p, hp, rfl⟩ := mem_of_maxTime? hmax
    exact (h.isInt64 (mem_block_of_mem_unread hp)).2

theorem within_eq_self (h : ∀ p ∈ values, w.Covers p.1) : within w values = values :=
  filter_eq_self.mpr fun p hp => decide_eq_true (h p hp)

/-- `ReadFloatArrayBlock` reads a window, and returns no values only when none are left. -/
theorem readFloatArrayBlock_spec (h : Inv c) :
    ∃ values c', c.readFloatArrayBlock = .ok (values, c') ∧ c'.ascending = c.ascending ∧ Inv c' ∧
      (values = [] ∧ (∀ t, c.unreadAt t = none) ∨ values ≠ [] ∧ ∃ w, Emits c values c' w) := by
  obtain ⟨dropped, cur, hcur, hdrop, hfirst⟩ := firstBlock_spec h.sound c.current
  have hcov : ∀ j, (c.seeks j).unread ≠ [] → j ∈ cur := fun j hj =>
    ((mem_append.mp (hcur ▸ h.covered j hj))).resolve_left fun hd => hj (hdrop j hd)
  rcases hfirst with ⟨rfl, hfirst⟩ | ⟨i, rest, rfl, hi, hfirst⟩
  · have hnone : ∀ j, (c.seeks j).unread = [] := fun j => by
      by_contra hne
      exact not_mem_nil (hcov j hne)
    refine ⟨[], { c with current := [] }, ?_, rfl, ⟨h.sound, h.sided, .inl (nil_sublist _), hcov, by simp⟩,
      .inl ⟨rfl, fun t => ?_⟩⟩
    · rw [readFloatArrayBlock, hfirst]
      rfl
    · by_contra hne
      obtain ⟨j, p, hp, -⟩ := exists_of_unreadAt hne
      rw [hnone] at hp
      cases hp
  have hordered : Ordered c.ascending (i :: rest) := (hcur ▸ h.ordered).suffix
  have hsub : i :: rest ⊆ c.current := hcur ▸ subset_append_right _ _
  obtain ⟨h₀, hmin, hmax⟩ := firstWindow_spec (h.sound i) hi
  by_cases hlen : rest.length = 0
  · -- one block: its values are the window
    obtain rfl := eq_nil_of_length_eq_zero hlen
    have hw : Spans c.seeks [i] c.ascending (c.seeks i).unread (firstWindow (c.seeks i) (c.seeks i).unread) := by
      refine ⟨h₀, forall_mem_singleton.mpr fun p hp => ?_, ?_⟩
      · rw [TimeRange.Ahead]
        split_ifs
        · exact (h₀ p hp).1
        · exact (h₀ p hp).2
      · split_ifs
        · exact hmin
        · exact hmax
    obtain ⟨hinv, hemits⟩ := emits_markAll h hordered hsub hcov hi hw (h.sound i).ascending_unread fun t => by
      rw [map_singleton, overlay_singleton, within_eq_self h₀]
    refine ⟨_, { c with current := [i], seeks := markAll c.seeks [i] _ }, ?_, rfl, hinv, .inr ⟨hi, _, hemits⟩⟩
    rw [readFloatArrayBlock, hfirst, ← update_markAll]
    rfl
  · obtain ⟨w, found, hwin, hw⟩ : ∃ w found, (if c.ascending then
        ascWindow c.seeks rest (firstWindow (c.seeks i) (c.seeks i).unread) else
        descWindow c.seeks rest (firstWindow (c.seeks i) (c.seeks i).unread)) = (w, found) ∧
          Spans c.seeks (i :: rest) c.ascending (c.seeks i).unread w := by
      cases hasc : c.ascending with
      | true => exact ⟨_, _, if_pos rfl, ascWindow_spec h.sound h₀ hmin⟩
      | false => exact ⟨_, _, if_neg (by simp), descWindow_spec h.sound h₀ hmax⟩
    have hvalues : (if found then (c.seeks i).unread.include w.min w.max else (c.seeks i).unread) =
        (c.seeks i).unread := by
      split_ifs
      · rw [include_eq_within (h.sound i).ascending_unread, within_eq_self hw.holds]
      · rfl
    obtain ⟨values, hfold, hasc, hlatest⟩ := foldlM_mergeBlock c.ascending w h.sound
      (hordered.tail.nodup nodup_scan) (h.sound i).ascending_unread
    obtain ⟨hinv, hemits⟩ := emits_markAll h hordered hsub hcov hi hw hasc fun t => by
      rw [hlatest, map_cons, within_eq_self hw.holds]
    refine ⟨values, { c with current := i :: rest, seeks := markAll c.seeks (i :: rest) w }, ?_, rfl, hinv,
      .inr ⟨?_, w, hemits⟩⟩
    · rw [readFloatArrayBlock, hfirst]
      simp only [bind, Except.bind, if_neg hlen, hwin, hvalues, hfold, pure, Except.pure]
      rw [update_markAll]
    · -- the first point of the first block is among the values
      rintro rfl
      obtain ⟨p, hp⟩ := exists_mem_of_ne_nil _ hi
      have hnone := (hlatest p.1).symm
      obtain ⟨v, hv⟩ := exists_latest_of_mem hp
      rw [overlay_cons, hv] at hnone
      split_ifs at hnone <;> simp at hnone

end Step

/-! ### Whole runs -/

section Run
variable {c : KeyCursor α n} {batches : List (Values α)}

/-- Past a head that is read, what is unread lies further on. -/
theorem Inv.beyond (h : Inv c) (hcur : c.current = i :: rest)
    (hread : (c.seeks i).read = true) {j : Fin n} (hj : (c.seeks j).unread ≠ []) :
    if c.ascending then c.pos < (j : ℕ) else ((j : ℕ) : ℤ) < c.pos := by
  have hmem := h.covered j hj
  have hpos := h.pos i (hcur ▸ mem_cons_self)
  have hne : j ≠ i := by
    rintro rfl
    exact hj ((h.sound j).unread_of_read hread)
  have hord := h.ordered
  rw [hcur] at hmem hord
  -- the other locations come after the head, whether it is there once or twice
  have hafter : ∃ l, j ∈ l ∧ (i :: l).Sublist (scan n c.ascending) := by
    rcases hord with hord | ⟨k, l, he, hord⟩
    · exact ⟨rest, (mem_cons.mp hmem).resolve_left hne, hord⟩
    · cases he
      exact ⟨l, by simpa [hne] using hmem, hord⟩
  obtain ⟨l, hjl, hsub⟩ := hafter
  cases hasc : c.ascending with
  | true =>
    rw [hasc] at hsub hpos
    have hlt : i < j := rel_of_pairwise_cons ((pairwise_lt_finRange n).sublist hsub) hjl
    simp only [if_true] at hpos ⊢
    omega
  | false =>
    rw [hasc] at hsub hpos
    have hlt : j < i := rel_of_pairwise_cons
      ((pairwise_reverse.mpr (pairwise_lt_finRange n)).sublist hsub) hjl
    simp only [false_eq_true, if_false] at hpos ⊢
    omega

/-- What is unread and lies ahead is found in the order of the cursor. -/
theorem Inv.mem_ahead (h : Inv c) {ahead : Fin n → Prop} [DecidablePred ahead]
    (hahead : ∀ j, (c.seeks j).unread ≠ [] → ahead j) (j : Fin n) (hj : (c.seeks j).unread ≠ []) :
    j ∈ (scan n c.ascending).filter fun i => decide (ahead i) && !(c.seeks i).read := by
  obtain ⟨p, hp⟩ := exists_mem_of_ne_nil _ hj
  refine mem_filter.mpr ⟨?_, ?_⟩
  · rw [scan]
    split_ifs <;> simp
  · rw [and_eq_true, decide_eq_true_eq]
    exact ⟨hahead j hj, not_read_of_mem_unread h.sound hp⟩

theorem Inv.nextAscending (h : Inv c) (hasc : c.ascending = true)
    (hbeyond : ∀ j, (c.seeks j).unread ≠ [] → c.pos < (j : ℕ)) :
    Inv c.nextAscending ∧ c.nextAscending.seeks = c.seeks ∧ c.nextAscending.ascending = c.ascending := by
  have hcov := h.mem_ahead hbeyond
  rw [scan, hasc, if_pos rfl] at hcov
  rw [KeyCursor.nextAscending]
  split
  · rename_i heq
    rw [heq] at hcov
    exact ⟨⟨h.sound, h.sided, .inl (nil_sublist _), hcov, by simp⟩, rfl, rfl⟩
  · rename_i i rest heq
    rw [heq] at hcov
    have hsub : (i :: rest).Sublist (scan n true) := heq ▸ filter_sublist
    refine ⟨⟨h.sound, h.sided, .inl (hasc ▸ hsub), hcov, ?_⟩, rfl, rfl⟩
    rw [hasc, forall_mem_cons]
    have hpair := (pairwise_lt_finRange n).sublist hsub
    exact ⟨le_rfl, fun j hj => by
      have : (i : ℕ) < (j : ℕ) := rel_of_pairwise_cons hpair hj
      simp only [if_true]
      omega⟩

theorem Inv.nextDescending (h : Inv c) (hasc : c.ascending = false)
    (hbeyond : ∀ j, (c.seeks j).unread ≠ [] → ((j : ℕ) : ℤ) < c.pos) :
    Inv c.nextDescending ∧ c.nextDescending.seeks = c.seeks ∧ c.nextDescending.ascending = c.ascending := by
  have hcov := h.mem_ahead hbeyond
  rw [scan, hasc, if_neg Bool.false_ne_true] at hcov
  rw [KeyCursor.nextDescending]
  split
  · rename_i heq
    rw [heq] at hcov
    exact ⟨⟨h.sound, h.sided, .inl (nil_sublist _), hcov, by simp⟩, rfl, rfl⟩
  · rename_i i rest heq
    rw [heq] at hcov
    have hsub : (i :: rest).Sublist (scan n false) := heq ▸ filter_sublist
    refine ⟨⟨h.sound, h.sided, .inr ⟨i, rest, rfl, hasc ▸ hsub⟩,
      fun j hj => mem_cons_of_mem i (hcov j hj), ?_⟩, rfl, rfl⟩
    rw [hasc]
    have hpair := (pairwise_reverse.mpr (pairwise_lt_finRange n)).sublist hsub
    simp only [false_eq_true, if_false, forall_mem_cons]
    refine ⟨le_rfl, le_rfl, fun j hj => ?_⟩
    have : (j : ℕ) < (i : ℕ) := rel_of_pairwise_cons hpair hj
    omega

/-- `Next` keeps the invariant and the marks. -/
theorem Inv.next (h : Inv c) : Inv c.next ∧ c.next.seeks = c.seeks ∧ c.next.ascending = c.ascending := by
  rw [KeyCursor.next]
  cases hcur : c.current with
  | nil => exact ⟨h, rfl, rfl⟩
  | cons i rest =>
    dsimp only
    cases hread : (c.seeks i).read with
    | false => exact ⟨h, rfl, rfl⟩
    | true =>
      have hbeyond := fun j => h.beyond hcur hread (j := j)
      rw [if_neg (by simp)]
      by_cases hasc : c.ascending = true
      · rw [if_pos hasc]
        exact h.nextAscending hasc (by simpa [hasc] using hbeyond)
      · rw [if_neg hasc]
        have hasc := eq_false_iff.mpr hasc
        exact h.nextDescending hasc (by simpa [hasc] using hbeyond)

/-- The batches of a cursor in time order. -/
def joined (ascending : Bool) (batches : List (Values α)) : Values α :=
  if ascending then batches.flatten else batches.reverse.flatten

/-- A read before the rest of a run. -/
theorem Emits.joined {c' : KeyCursor α n} (h : Emits c values c' w)
    (hasc : Ascending (joined c.ascending batches))
    (hlatest : ∀ t, latest (joined c.ascending batches) t = c'.unreadAt t) :
    Ascending (joined c.ascending (values :: batches)) ∧
      ∀ t, latest (joined c.ascending (values :: batches)) t = c.unreadAt t := by
  have hin : ∀ p ∈ values, w.Covers p.1 := fun p hp => by
    by_contra hno
    obtain ⟨v, hv⟩ := exists_latest_of_mem hp
    rw [h.inside, if_neg hno] at hv
    cases hv
  have hout : ∀ p ∈ KeyCursor.joined c.ascending batches, ¬ w.Covers p.1 ∧ w.Ahead c.ascending p.1 :=
    fun p hp => by
    obtain ⟨v, hv⟩ := exists_latest_of_mem hp
    rw [hlatest, h.outside] at hv
    by_cases hc : w.Covers p.1
    · rw [if_pos hc] at hv
      cases hv
    · rw [if_neg hc] at hv
      exact ⟨hc, h.ahead p.1 (by rw [hv]; simp)⟩
  have hsplit : ∀ t, (latest values t = none ∨ latest (KeyCursor.joined c.ascending batches) t = none) ∧
      (latest values t).or (latest (KeyCursor.joined c.ascending batches) t) = c.unreadAt t := fun t => by
    rw [hlatest, h.inside, h.outside]
    by_cases hc : w.Covers t <;> simp [hc]
  unfold TimeRange.Covers at hin hout
  unfold TimeRange.Ahead at hout
  cases hdir : c.ascending with
  | true =>
    rw [hdir] at hasc hout hsplit
    have heq : KeyCursor.joined true (values :: batches) = values ++ KeyCursor.joined true batches := rfl
    rw [heq]
    refine ⟨ascending_append.mpr ⟨h.ascending, hasc, fun p hp q hq => ?_⟩, fun t => ?_⟩
    · have h₁ := hin p hp
      have h₂ := hout q hq
      simp only [if_true] at h₂
      omega
    · rw [latest_append, ← (hsplit t).2]
      rcases (hsplit t).1 with hn | hn <;> simp [hn]
  | false =>
    rw [hdir] at hasc hout hsplit
    have heq : KeyCursor.joined false (values :: batches) = KeyCursor.joined false batches ++ values := by
      simp [KeyCursor.joined]
    rw [heq]
    refine ⟨ascending_append.mpr ⟨hasc, h.ascending, fun p hp q hq => ?_⟩, fun t => ?_⟩
    · have h₁ := hin q hq
      have h₂ := hout p hp
      simp only [false_eq_true, if_false] at h₂
      omega
    · rw [latest_append, ← (hsplit t).2]

/-- A drained cursor has returned everything that was unread, in order. -/
theorem Inv.drain (h : Inv c) {fuel : ℕ} (hf : c.left < fuel) :
    ∃ batches, c.drain fuel = .ok (some batches) ∧ Ascending (joined c.ascending batches) ∧
      ∀ t, latest (joined c.ascending batches) t = c.unreadAt t := by
  induction fuel generalizing c with
  | zero => omega
  | succ fuel ih =>
    obtain ⟨values, c₁, hread, hdir, hinv, hor⟩ := readFloatArrayBlock_spec h
    rw [drain, hread]
    rcases hor with ⟨rfl, hnone⟩ | ⟨hne, w, hemits⟩
    · refine ⟨[], rfl, ?_, fun t => ?_⟩
      · cases c.ascending <;> exact ascending_nil
      · rw [hnone t]
        cases c.ascending <;> rfl
    · obtain ⟨hinv', hseeks, hdir'⟩ := hinv.next
      have hleft : c₁.next.left = c₁.left := by rw [left, left, hseeks]
      obtain ⟨batches, hdrain, hasc, hlatest⟩ := ih hinv' (by have := hemits.left_lt; omega)
      have hunread : c₁.next.unreadAt = c₁.unreadAt := by
        funext t
        rw [unreadAt, unreadAt, hseeks, hdir']
      rw [hdir', hdir] at hasc hlatest
      rw [hunread] at hlatest
      refine ⟨values :: batches, ?_, hemits.joined hasc hlatest⟩
      show (if values.length = 0 then _ else _) = _
      rw [if_neg (by simpa using hne), hdrain]
      rfl

/-- More fuel does not change the batches. -/
theorem drain_mono {n' m : ℕ} (hm : n' ≤ m) (h : c.drain n' = .ok (some batches)) :
    c.drain m = .ok (some batches) := by
  induction n' generalizing c m batches with
  | zero => cases h
  | succ n' ih =>
    obtain ⟨m, rfl⟩ := Nat.exists_eq_add_of_le' (Nat.le_trans (Nat.le_add_left 1 n') hm)
    rw [drain] at h ⊢
    obtain ⟨res, hread, h⟩ := bind_eq_ok.mp h
    rw [hread, ok_bind]
    dsimp only at h ⊢
    by_cases hlen : res.1.length = 0
    · rwa [if_pos hlen] at h ⊢
    · rw [if_neg hlen] at h ⊢
      obtain ⟨rest, hrest, h⟩ := bind_eq_ok.mp h
      cases rest with
      | none => cases h
      | some rest =>
        rw [ih (by omega) hrest]
        exact h

end Run

end KeyCursor

end InfluxDB.Tsm
