import Mathlib.Data.List.Flatten
import InfluxDB.Tsm.ArrayCursor

/-!
    What the ascending array cursor returns.  The points that a cursor has still to return are the
    merge of what is left of the cache and of the blocks; a call takes the next of them off the front.
    The one exception is a call that finds the cache exhausted and a block that fits the buffer
    partly read: it returns the whole block again.
-/

namespace InfluxDB.Tsm

open Lib List ArrayAscendingCursor Nat

variable {α : Type*}

namespace ArrayAscendingCursor

variable {c c' c'' : ArrayAscendingCursor α} {out out' : Values α}

/-! ### What is left to return -/

def cacheLeft (c : ArrayAscendingCursor α) : Values α := c.cacheValues.drop c.cachePos

def tsmLeft (c : ArrayAscendingCursor α) : Values α := c.keyCursor.flatten.drop c.tsmPos

/-- The points that the cursor has still to return, in order. -/
def left (c : ArrayAscendingCursor α) : Values α := c.tsmLeft.mergeLoop c.cacheLeft

/-- The buffered block is the current one of the key cursor, whose blocks are not empty and follow
one another in time. -/
structure Sound (c : ArrayAscendingCursor α) : Prop where
  current : c.tsmValues = c.keyCursor.headD []
  nonempty : ∀ b ∈ c.keyCursor, b ≠ []
  tsm : Ascending c.keyCursor.flatten
  cache : Ascending c.cacheValues
  tsmPos_le : c.tsmPos ≤ c.tsmValues.length

/-- Between two iterations the block has a point left, unless no block is. -/
structure Ready (c : ArrayAscendingCursor α) : Prop extends Sound c where
  tsmPos_lt : c.keyCursor ≠ [] → c.tsmPos < c.tsmValues.length

section

variable (h : c.Sound)
include h

theorem Sound.ascending_cacheLeft : Ascending c.cacheLeft := h.cache.sublist (drop_sublist _ _)

theorem Sound.ascending_tsmLeft : Ascending c.tsmLeft := h.tsm.sublist (drop_sublist _ _)

theorem Sound.ascending_left : Ascending c.left := ascending_mergeLoop _ _ h.ascending_tsmLeft h.ascending_cacheLeft

theorem Sound.flatten_eq : c.keyCursor.flatten = c.tsmValues ++ c.keyCursor.tail.flatten := by
  rw [h.current]
  cases c.keyCursor <;> rfl

theorem Sound.tsmLeft_eq : c.tsmLeft = c.tsmValues.drop c.tsmPos ++ c.keyCursor.tail.flatten := by
  rw [tsmLeft, h.flatten_eq, drop_append_of_le_length h.tsmPos_le]

theorem Sound.tsmValues_mem (hlt : c.tsmPos < c.tsmValues.length) : c.tsmValues ∈ c.keyCursor := by
  rw [h.current] at hlt ⊢
  cases hk : c.keyCursor with
  | nil =>
    rw [hk] at hlt
    exact absurd hlt (not_lt_zero _)
  | cons b rest => exact mem_cons_self

end

theorem Ready.tsmPos_lt_iff (h : c.Ready) : c.tsmPos < c.tsmValues.length ↔ c.tsmLeft ≠ [] := by
  constructor
  · intro hlt hnil
    have := congrArg length (h.tsmLeft_eq.symm.trans hnil)
    simp only [length_append, length_drop, length_nil] at this
    omega
  · intro hne
    refine h.tsmPos_lt fun hk => hne ?_
    rw [tsmLeft, hk]
    simp

/-- The cursor goes on at the first of two states, returns the points, and is left in the second;
every cache value that was passed is among the points. -/
structure Took (c : ArrayAscendingCursor α) (out : Values α) (c' : ArrayAscendingCursor α) : Prop where
  ready : c'.Ready
  left : c.left = out ++ c'.left
  blocks : c'.keyCursor <:+ c.keyCursor
  cache : ∃ passed, c.cacheLeft = passed ++ c'.cacheLeft ∧ passed ⊆ out
  endTime : c'.endTime = c.endTime
  resLen : c'.resLen = c.resLen

theorem Took.refl (h : c.Ready) : Took c [] c := ⟨h, rfl, suffix_rfl, ⟨[], rfl, List.Subset.refl _⟩, rfl, rfl⟩

theorem Took.trans (h : Took c out c') (h' : Took c' out' c'') : Took c (out ++ out') c'' := by
  obtain ⟨passed, hpassed, hsub⟩ := h.cache
  obtain ⟨passed', hpassed', hsub'⟩ := h'.cache
  refine ⟨h'.ready, ?_, h'.blocks.trans h.blocks, ⟨passed ++ passed', ?_, ?_⟩, h'.endTime.trans h.endTime,
    h'.resLen.trans h.resLen⟩
  · rw [h.left, h'.left, append_assoc]
  · rw [hpassed, hpassed', append_assoc]
  · exact append_subset.mpr ⟨subset_append_of_subset_left _ hsub, subset_append_of_subset_right _ hsub'⟩

theorem Ready.keyCursor_eq_nil (h : c.Ready) (hnil : c.tsmLeft = []) : c.keyCursor = [] := by
  by_contra hne
  exact h.tsmPos_lt_iff.mp (h.tsmPos_lt hne) hnil

/-- An exhausted side stays exhausted. -/
theorem Took.done (h : Took c out c') (hready : c.Ready) (hdone : c.tsmLeft = [] ∨ c.cacheLeft = []) :
    c'.tsmLeft = [] ∨ c'.cacheLeft = [] := by
  rcases hdone with hnil | hnil
  · have hk := h.blocks
    rw [hready.keyCursor_eq_nil hnil, suffix_nil] at hk
    exact .inl (by rw [tsmLeft, hk]; exact drop_nil)
  · obtain ⟨passed, hpassed, -⟩ := h.cache
    exact .inr (append_eq_nil_iff.mp (hpassed.symm.trans hnil)).2

theorem Sound.refill (h : c.Sound) :
    c.refill.Ready ∧ c.refill.tsmLeft = c.tsmLeft ∧ c.refill.cacheLeft = c.cacheLeft ∧
      c.refill.keyCursor <:+ c.keyCursor ∧ c.refill.endTime = c.endTime ∧ c.refill.resLen = c.resLen := by
  rw [ArrayAscendingCursor.refill]
  by_cases hge : c.tsmPos ≥ c.tsmValues.length
  · rw [if_pos hge]
    have hsound : c.nextTSM.Sound :=
      ⟨rfl, fun b hb => h.nonempty b (mem_of_mem_tail hb),
        h.tsm.sublist (tail_sublist c.keyCursor).flatten, h.cache, zero_le _⟩
    refine ⟨⟨hsound, fun hk => ?_⟩, ?_, rfl, tail_suffix _, rfl, rfl⟩
    · have hk : c.keyCursor.tail ≠ [] := hk
      obtain ⟨b, rest, hb⟩ := exists_cons_of_ne_nil hk
      have hne : b ≠ [] := h.nonempty b (mem_of_mem_tail (hb ▸ mem_cons_self))
      simp only [nextTSM, hb, headD_cons]
      exact length_pos_of_ne_nil hne
    · rw [h.tsmLeft_eq, drop_eq_nil_of_le hge]
      rfl
  · rw [if_neg hge]
    exact ⟨⟨h, fun _ => not_le.mp hge⟩, rfl, rfl, suffix_rfl, rfl, rfl⟩

/-! ### The merge loop -/

theorem Sound.advance (h : c.Sound) {j k : ℕ} (hk : c.tsmPos + k ≤ c.tsmValues.length) :
    Sound { c with cachePos := c.cachePos + j, tsmPos := c.tsmPos + k } :=
  ⟨h.current, h.nonempty, h.tsm, h.cache, hk⟩

/-- Moving the positions past points that the merge of what is left begins with. -/
theorem Sound.took (h : c.Sound) {j k : ℕ} (hk : c.tsmPos + k ≤ c.tsmValues.length)
    (hleft : c.left = out ++ Values.mergeLoop (c.tsmLeft.drop k) (c.cacheLeft.drop j))
    (hout : c.cacheLeft.take j ⊆ out) :
    Took c out { c with cachePos := c.cachePos + j, tsmPos := c.tsmPos + k }.refill := by
  obtain ⟨hready, htsm, hcache, hblocks, hend, hlen⟩ := (h.advance hk (j := j)).refill
  have hcache' : c.cacheLeft.drop j =
      { c with cachePos := c.cachePos + j, tsmPos := c.tsmPos + k }.refill.cacheLeft := by
    rw [hcache, cacheLeft, drop_drop, cacheLeft]
  refine ⟨hready, ?_, hblocks, ⟨c.cacheLeft.take j, ?_, hout⟩, hend, hlen⟩
  · rw [hleft, left, htsm, ← hcache']
    simp only [tsmLeft, drop_drop]
  · rw [← hcache', take_append_drop]

/-- What one iteration of the merge loop does. -/
theorem Ready.mergePoint (h : c.Ready) :
    (c.mergePoint = none ∧ (c.tsmLeft = [] ∨ c.cacheLeft = [])) ∨
      ∃ p c', c.mergePoint = some (p, c') ∧ Took c [p] c' ∧ ∃ x ∈ c.cacheLeft, p.1 ≤ x.1 := by
  rw [ArrayAscendingCursor.mergePoint]
  cases ht : c.tsmValues[c.tsmPos]? with
  | none =>
    refine .inl ⟨rfl, .inl (not_not.mp fun hne => ?_)⟩
    have := getElem?_eq_none_iff.mp ht
    have := h.tsmPos_lt_iff.mpr hne
    omega
  | some t =>
    obtain ⟨hlt, -⟩ := List.getElem?_eq_some_iff.mp ht
    have htsm : c.tsmLeft = t :: c.tsmLeft.drop 1 := by
      rw [h.tsmLeft_eq, drop_of_getElem? ht]
      rfl
    cases hx : c.cacheValues[c.cachePos]? with
    | none =>
      exact .inl ⟨rfl, .inr (drop_eq_nil_of_le (getElem?_eq_none_iff.mp hx))⟩
    | some x =>
      have hcache : c.cacheLeft = x :: c.cacheLeft.drop 1 := by
        rw [cacheLeft, drop_of_getElem? hx]
        rfl
      have hleft : c.left = Values.mergeLoop (t :: c.tsmLeft.drop 1) (x :: c.cacheLeft.drop 1) := by
        rw [← htsm, ← hcache, left]
      have hhead : x ∈ c.cacheLeft := by rw [hcache]; exact mem_cons_self
      have htake : c.cacheLeft.take 1 = [x] := by rw [hcache]; rfl
      rw [Values.mergeLoop] at hleft
      dsimp only
      refine .inr ?_
      by_cases heq : x.1 = t.1
      · rw [if_pos heq]
        rw [if_neg (by omega), if_pos heq.symm] at hleft
        exact ⟨x, _, rfl, h.took hlt hleft (by rw [htake]; exact List.Subset.refl _), x, hhead, le_rfl⟩
      · rw [if_neg heq]
        by_cases hxt : x.1 < t.1
        · rw [if_pos hxt]
          rw [if_neg (by omega), if_neg (Ne.symm heq), ← htsm] at hleft
          exact ⟨x, _, rfl, h.took (k := 0) h.tsmPos_le hleft (by rw [htake]; exact List.Subset.refl _),
            x, hhead, le_rfl⟩
        · rw [if_neg hxt]
          rw [if_pos (by omega), ← hcache] at hleft
          exact ⟨t, _, rfl, h.took (j := 0) hlt hleft (by simp), x, hhead, by omega⟩

/-- The merge loop stops when the result is full, or the cache or the blocks are exhausted; no point
it adds is later than all cache values that were left. -/
theorem Ready.mergeLoop (room : ℕ) : ∀ {c : ArrayAscendingCursor α}, c.Ready →
    Took c (c.mergeLoop room).1 (c.mergeLoop room).2 ∧ (c.mergeLoop room).1.length ≤ room ∧
      ((c.mergeLoop room).1.length = room ∨ (c.mergeLoop room).2.tsmLeft = [] ∨
        (c.mergeLoop room).2.cacheLeft = []) ∧
      ((c.mergeLoop room).1 = [] → (c.mergeLoop room).2 = c) ∧
      ∀ p ∈ (c.mergeLoop room).1, ∃ x ∈ c.cacheLeft, p.1 ≤ x.1 := by
  induction room with
  | zero =>
    intro c h
    exact ⟨Took.refl h, le_rfl, .inl rfl, fun _ => rfl, nofun⟩
  | succ room ih =>
    intro c h
    rw [ArrayAscendingCursor.mergeLoop]
    rcases h.mergePoint with ⟨hnone, hdone⟩ | ⟨p, c₁, hsome, htook, x, hx, hpx⟩
    · rw [hnone]
      exact ⟨Took.refl h, zero_le _, .inr hdone, fun _ => rfl, nofun⟩
    · rw [hsome]
      obtain ⟨htook₁, hlen, hstop, -, hle⟩ := ih htook.ready
      refine ⟨htook.trans htook₁, succ_le_succ hlen, hstop.imp (congrArg succ) id,
        nofun, ?_⟩
      obtain ⟨passed, hpassed, -⟩ := htook.cache
      rintro q (_ | ⟨_, hq⟩)
      · exact ⟨x, hx, hpx⟩
      · obtain ⟨y, hy, hqy⟩ := hle q hq
        exact ⟨y, hpassed ▸ mem_append_right _ hy, hqy⟩

/-! ### One call -/

/-- The state in which a call returns points again: the cache is exhausted and a block that fits the
result is partly read. -/
def Stale (c : ArrayAscendingCursor α) : Prop :=
  c.cacheLeft = [] ∧ 0 < c.tsmPos ∧ c.tsmPos < c.tsmValues.length ∧ c.tsmValues.length ≤ c.resLen

theorem left_of_cacheLeft_nil (h : c.cacheLeft = []) : c.left = c.tsmLeft := by
  rw [left, h, mergeLoop_nil]

theorem left_of_tsmLeft_nil (h : c.tsmLeft = []) : c.left = c.cacheLeft := by
  rw [left, h, Values.mergeLoop]

/-- Copying points of the block is right when the cache is exhausted. -/
theorem Ready.took_tsm (h : c.Ready) (hcache : c.cacheLeft = []) (n : ℕ) :
    Took c ((c.tsmValues.drop c.tsmPos).take n)
      { c with tsmPos := c.tsmPos + ((c.tsmValues.drop c.tsmPos).take n).length }.refill := by
  have hk : c.tsmPos + ((c.tsmValues.drop c.tsmPos).take n).length ≤ c.tsmValues.length := by
    have := h.tsmPos_le
    rw [length_take, length_drop]
    omega
  refine h.took (j := 0) hk ?_ (by simp)
  have hpre : (c.tsmValues.drop c.tsmPos).take n <+: c.tsmLeft := by
    rw [h.tsmLeft_eq]
    exact (List.take_prefix _ _).trans (prefix_append _ _)
  rw [drop_zero, hcache, left_of_cacheLeft_nil hcache, mergeLoop_nil]
  exact (prefix_iff_eq_append.mp hpre).symm

theorem Ready.copyTSM (h : c.Ready) (hdone : c.tsmLeft = [] ∨ c.cacheLeft = []) (hstale : c.Stale → out ≠ [])
    (hlen : out.length < c.resLen) :
    ∃ copied, (c.copyTSM out).1 = out ++ copied ∧ Took c copied (c.copyTSM out).2 ∧
      (c.tsmLeft ≠ [] → copied ≠ []) ∧ out.length + copied.length ≤ c.resLen := by
  rw [ArrayAscendingCursor.copyTSM]
  by_cases hlt : c.tsmPos < c.tsmValues.length
  · rw [if_pos hlt]
    have hcache : c.cacheLeft = [] := hdone.resolve_left (h.tsmPos_lt_iff.mp hlt)
    by_cases hwhole : out.length = 0 ∧ c.resLen ≥ c.tsmValues.length
    · rw [if_pos hwhole]
      have hnil : out = [] := eq_nil_of_length_eq_zero hwhole.1
      have hpos : c.tsmPos = 0 := by
        by_contra hne
        exact hstale ⟨hcache, pos_of_ne_zero hne, hlt, hwhole.2⟩ hnil
      refine ⟨c.tsmValues, by rw [hnil]; rfl, ?_⟩
      have htook := h.took_tsm hcache c.tsmValues.length
      rw [take_of_length_le (by simp), hpos, drop_zero, refill, if_pos (by simp)] at htook
      exact ⟨htook, fun _ => ne_nil_of_length_pos (by omega), by omega⟩
    · rw [if_neg hwhole]
      refine ⟨_, rfl, h.took_tsm hcache _, fun _ => ne_nil_of_length_pos ?_, ?_⟩ <;>
        rw [length_take, length_drop] <;> omega
  · rw [if_neg hlt]
    exact ⟨[], (append_nil _).symm, Took.refl h, fun hne => absurd (h.tsmPos_lt_iff.mpr hne) hlt, hlen.le⟩

theorem Ready.copyCache (h : c.Ready) (hdone : c.tsmLeft = [] ∨ c.cacheLeft = []) (hlen : out.length ≤ c.resLen) :
    ∃ copied, (c.copyCache out).1 = out ++ copied ∧ Took c copied (c.copyCache out).2 ∧
      out.length + copied.length ≤ c.resLen ∧
      ((c.copyCache out).2.cacheLeft ≠ [] → out.length + copied.length = c.resLen) := by
  rw [ArrayAscendingCursor.copyCache]
  set copied := (c.cacheValues.drop c.cachePos).take (c.resLen - out.length) with hcopied
  have hcache : copied ++ c.cacheLeft.drop copied.length = c.cacheLeft := prefix_iff_eq_append.mp (List.take_prefix _ _)
  have hleft : ({ c with cachePos := c.cachePos + copied.length } : ArrayAscendingCursor α).cacheLeft =
      c.cacheLeft.drop copied.length := by
    simp only [cacheLeft, drop_drop]
  refine ⟨copied, rfl, ⟨⟨⟨h.current, h.nonempty, h.tsm, h.cache, h.tsmPos_le⟩, h.tsmPos_lt⟩, ?_, suffix_rfl,
    ⟨copied, by rw [hleft, hcache], List.Subset.refl _⟩, rfl, rfl⟩, ?_, fun hne => ?_⟩
  · change c.left = copied ++ c.tsmLeft.mergeLoop (cacheLeft { c with cachePos := c.cachePos + copied.length })
    rw [hleft]
    rcases hdone with hnil | hnil
    · rw [left_of_tsmLeft_nil hnil, hnil, Values.mergeLoop, hcache]
    · have hcopied : copied = [] := by rw [hcopied, ← cacheLeft, hnil, take_nil]
      rw [hcopied, left]
      rfl
  · rw [hcopied, length_take]
    omega
  · rw [hleft, ← length_pos_iff, length_drop, hcopied, length_take, ← cacheLeft] at hne
    rw [hcopied, length_take, ← cacheLeft]
    omega

variable {c₁ : ArrayAscendingCursor α} {resLen m : ℕ}

theorem fill_eq (hloop : c.mergeLoop c.resLen = (out, c₁)) :
    c.fill = if out.length < c₁.resLen then (c₁.copyTSM out).2.copyCache (c₁.copyTSM out).1 else (out, c₁) := by
  rw [fill, hloop]

/-- A call that does not begin in a stale state returns the next points, at least one if there is
one; it leaves cache values only when the result is full. -/
theorem Ready.fill (h : c.Ready) (hstale : ¬ c.Stale) (hlen : 0 < c.resLen) :
    Took c c.fill.1 c.fill.2 ∧ (c.left ≠ [] → c.fill.1 ≠ []) ∧
      (c.fill.2.cacheLeft ≠ [] → c.fill.1.length = c.resLen) := by
  have hspec := h.mergeLoop c.resLen
  rcases hloop : c.mergeLoop c.resLen with ⟨out, c₁⟩
  rw [hloop] at hspec
  obtain ⟨htook : Took c out c₁, hle : out.length ≤ _, hstop : out.length = _ ∨ _,
      hsame : out = [] → c₁ = c, -⟩ := hspec
  rw [fill_eq hloop, htook.resLen]
  by_cases hroom : out.length < c.resLen
  · rw [if_pos hroom]
    have hdone : c₁.tsmLeft = [] ∨ c₁.cacheLeft = [] := hstop.resolve_left hroom.ne
    have htsm := htook.ready.copyTSM hdone (fun hs hnil => hstale (hsame hnil ▸ hs)) (htook.resLen ▸ hroom)
    generalize c₁.copyTSM out = r at htsm ⊢
    obtain ⟨res, c₂⟩ := r
    obtain ⟨tsm, rfl, htsm : Took c₁ tsm c₂, hprogress, hle₁⟩ := htsm
    have hcached := htsm.ready.copyCache (htsm.done htook.ready hdone)
      (by rwa [length_append, htsm.resLen] : (out ++ tsm).length ≤ c₂.resLen)
    change Took c (c₂.copyCache (out ++ tsm)).1 (c₂.copyCache (out ++ tsm)).2 ∧ _
    generalize c₂.copyCache (out ++ tsm) = r at hcached ⊢
    obtain ⟨res', c₃⟩ := r
    obtain ⟨cached, rfl, hcached : Took c₂ cached c₃, -, hfull⟩ := hcached
    rw [← length_append, htsm.resLen, htook.resLen] at hfull
    have hall := (htook.trans htsm).trans hcached
    refine ⟨hall, fun hleft hnil => hleft ?_, hfull⟩
    -- Nothing was returned, so the loop did not move and no copy found a point.
    obtain ⟨⟨rfl, rfl⟩, rfl⟩ : (out = [] ∧ tsm = []) ∧ cached = [] := by
      simpa only [append_eq_nil_iff] using hnil
    have hcache : c₃.cacheLeft = [] := by
      by_contra hne
      exact absurd (hfull hne) hlen.ne
    have htsmLeft : c₁.tsmLeft = [] := by
      by_contra hne
      exact hprogress hne rfl
    obtain ⟨passed, hpassed, hsub⟩ := hall.cache
    rw [hcache, eq_nil_of_subset_nil hsub] at hpassed
    rw [hsame rfl] at htsmLeft
    rw [left_of_tsmLeft_nil htsmLeft, hpassed]
    rfl
  · rw [if_neg hroom]
    exact ⟨htook, fun _ => ne_nil_of_length_pos (show 0 < out.length by omega),
      fun _ => le_antisymm hle (not_lt.mp hroom)⟩

/-! ### Which block is returned again -/

/-- The number of points up to the last cache value. -/
def upToCache (cache merged : Values α) : ℕ :=
  (cache.getLast?.map fun x => merged.countP fun p => p.1 ≤ x.1).getD 0

/-- The least multiple of the result length that is not less than the number. -/
def roundUp (resLen m : ℕ) : ℕ := (m + (resLen - 1)) / resLen * resLen

/-- The inputs on which a block is returned again.  With `m` points up to the last cache value and
`n` the multiple of the result length behind them, a block that fits the result holds both the point
number `m` and the point number `n`, and begins before the latter; the query does not end before the
block begins, nor before the array that ends with the point number `n - 1`. -/
def Repeats (resLen : ℕ) (cache : Values α) (blocks : List (Values α)) (merged : Values α)
    (endTime : ℤ) : Prop :=
  let m := upToCache cache merged
  let n := roundUp resLen m
  ∃ b ∈ blocks, b.length ≤ resLen ∧ ∃ first ∈ b.head?, ∃ x ∈ merged[m]?, ∃ y ∈ merged[n]?,
    ∃ z ∈ merged[n - resLen]?, x ∈ b ∧ y ∈ b ∧ first.1 < y.1 ∧ first.1 < endTime ∧ z.1 < endTime

/-- The condition for what a cursor has left. -/
def WillRepeat (c : ArrayAscendingCursor α) : Prop := Repeats c.resLen c.cacheLeft c.keyCursor c.left c.endTime

theorem upToCache_singleton (x : ℤ × α) (merged : Values α) :
    upToCache [x] merged = merged.countP fun p => p.1 ≤ x.1 := rfl

theorem upToCache_append {cache cache' merged : Values α} (h : cache'.getLast? = cache.getLast?)
    (hne : cache ≠ []) (hout : ∀ p ∈ out, ∀ x ∈ cache.getLast?, p.1 ≤ x.1) :
    upToCache cache (out ++ merged) = out.length + upToCache cache' merged := by
  obtain ⟨x, hx⟩ : ∃ x, cache.getLast? = some x := ⟨_, getLast?_eq_some_getLast hne⟩
  rw [upToCache, upToCache, h, hx, Option.map_some, Option.map_some, Option.getD_some, Option.getD_some,
    countP_append, countP_eq_length.mpr fun p hp => decide_eq_true (hout p hp x hx)]

theorem roundUp_add (hlen : 0 < resLen) (m : ℕ) : roundUp resLen (resLen + m) = resLen + roundUp resLen m := by
  rw [roundUp, roundUp, add_assoc, add_div_left _ hlen, succ_mul]
  exact add_comm _ _

theorem roundUp_of_le (hm : 0 < m) (hle : m ≤ resLen) : roundUp resLen m = resLen := by
  have : (m + (resLen - 1)) / resLen = 1 := Nat.div_eq_of_lt_le (by omega) (by omega)
  rw [roundUp, this, one_mul]

theorem le_roundUp (hlen : 0 < resLen) (hm : 0 < m) : resLen ≤ roundUp resLen m := by
  rw [roundUp]
  exact Nat.le_mul_of_pos_left _ (Nat.div_pos (by omega) hlen)

/-- Two blocks that share a point are the same block. -/
theorem block_eq_of_mem :
    ∀ {blocks : List (Values α)} {b b' : Values α} {x : ℤ × α}, Ascending blocks.flatten →
    b ∈ blocks → b' ∈ blocks → x ∈ b → x ∈ b' → b = b' := by
  intro blocks
  induction blocks with
  | nil => intro b b' x _ hb
           cases hb
  | cons a rest ih =>
    intro b b' x hasc hb hb' hx hx'
    rw [flatten_cons, ascending_append] at hasc
    obtain ⟨-, hrest, hbefore⟩ := hasc
    rcases mem_cons.mp hb with rfl | hmem <;> rcases mem_cons.mp hb' with rfl | hmem'
    · rfl
    · exact absurd (hbefore x hx x (mem_flatten_of_mem hmem' hx')) (lt_irrefl _)
    · exact absurd (hbefore x hx' x (mem_flatten_of_mem hmem hx)) (lt_irrefl _)
    · exact ih hrest hmem hmem' hx hx'

theorem Sound.cacheLeft_subset_left (h : c.Sound) : c.cacheLeft ⊆ c.left := by
  rintro ⟨t, v⟩ hx
  refine (h.ascending_left.latest_eq_some_iff).mp ?_
  rw [left, latest_mergeLoop _ _ h.ascending_tsmLeft h.ascending_cacheLeft,
    h.ascending_cacheLeft.latest_eq_some_iff.mpr hx]
  rfl

variable {x : ℤ × α} {p : ℤ × α}

theorem Took.ascending (h : Took c out c') (hc : c.Ready) :
    Ascending out ∧ Ascending c'.left ∧ ∀ p ∈ out, ∀ q ∈ c'.left, p.1 < q.1 := by
  have hasc := hc.ascending_left
  rwa [h.left, ascending_append] at hasc

/-- The points returned are before the cache values that are left. -/
theorem Took.lt_cacheLeft (h : Took c out c') (hc : c.Ready) (hp : p ∈ out) (hx : x ∈ c'.cacheLeft) : p.1 < x.1 :=
  (h.ascending hc).2.2 p hp x (h.ready.cacheLeft_subset_left hx)

theorem Took.getLast? (h : Took c out c') (hne : c'.cacheLeft ≠ []) :
    c'.cacheLeft.getLast? = c.cacheLeft.getLast? := by
  obtain ⟨passed, hpassed, -⟩ := h.cache
  rw [hpassed, getLast?_append_of_ne_nil _ hne]

theorem Sound.upToCache_pos (h : c.Sound) (hne : c.cacheLeft ≠ []) : 0 < upToCache c.cacheLeft c.left := by
  have hlast := getLast?_eq_some_getLast hne
  rw [upToCache, hlast, Option.map_some, Option.getD_some, countP_pos_iff]
  exact ⟨_, h.cacheLeft_subset_left (getLast_mem hne), decide_eq_true le_rfl⟩

theorem Sound.lt_of_getElem_upToCache (h : c.Sound) (hne : c.cacheLeft ≠ [])
    (hx : x ∈ c.left[upToCache c.cacheLeft c.left]?) : (c.cacheLeft.getLast hne).1 < x.1 := by
  refine h.ascending_left.lt_of_countP_le (i := upToCache c.cacheLeft c.left) ?_ hx
  rw [upToCache, getLast?_eq_some_getLast hne]
  rfl

/-- The point behind the last cache value is one of the blocks. -/
theorem Ready.exists_block (h : c.Ready) (hne : c.cacheLeft ≠ [])
    (hx : x ∈ c.left[upToCache c.cacheLeft c.left]?) : ∃ b ∈ c.keyCursor, x ∈ b := by
  have hlt := h.lt_of_getElem_upToCache hne hx
  rcases mem_of_mem_mergeLoop _ _ (mem_of_getElem? hx) with htsm | hcache
  · exact mem_flatten.mp (mem_of_mem_drop htsm)
  · exact absurd (h.ascending_cacheLeft.le_getLast hne hcache) (not_le.mpr hlt)

/-- A full result that leaves cache values leaves the condition as it was. -/
theorem Took.willRepeat_iff (h : Took c out c') (hc : c.Ready) (hne : c'.cacheLeft ≠ []) (hlen : 0 < c.resLen)
    (hfull : out.length = c.resLen) : c.WillRepeat ↔ c'.WillRepeat := by
  have hlast := h.getLast? hne
  have hm : upToCache c.cacheLeft c.left = c.resLen + upToCache c'.cacheLeft c'.left := by
    rw [h.left, ← hfull]
    refine upToCache_append hlast (fun hnil => hne ?_) fun p hp x hx => (h.lt_cacheLeft hc hp ?_).le
    · rw [← getLast?_eq_none_iff, hlast, hnil]
      rfl
    · exact mem_of_getLast? (hlast.trans hx)
  have hpos := le_roundUp hlen (h.ready.upToCache_pos hne)
  have hget : ∀ i, c.left[c.resLen + i]? = c'.left[i]? := fun i => by
    rw [h.left, ← hfull, getElem?_append_right (Nat.le_add_right _ _), Nat.add_sub_cancel_left]
  have hz : c.left[roundUp c.resLen (upToCache c'.cacheLeft c'.left)]? =
      c'.left[roundUp c.resLen (upToCache c'.cacheLeft c'.left) - c.resLen]? := by
    rw [← hget, Nat.add_sub_cancel' hpos]
  rw [WillRepeat, WillRepeat, Repeats, Repeats]
  rw [hm, roundUp_add hlen, hget, hget, Nat.add_sub_cancel_left, h.resLen, h.endTime, hz]
  constructor
  · rintro ⟨b, hb, hblen, first, hfirst, x, hx, y, hy, z, hz, hxb, rest⟩
    obtain ⟨b', hb', hxb'⟩ := h.ready.exists_block hne hx
    rw [← block_eq_of_mem hc.tsm hb (h.blocks.subset hb') hxb hxb'] at hb'
    exact ⟨b, hb', hblen, first, hfirst, x, hx, y, hy, z, hz, hxb, rest⟩
  · rintro ⟨b, hb, rest⟩
    exact ⟨b, h.blocks.subset hb, rest⟩

/-! ### The call that exhausts the cache -/

theorem copyCache_of_cacheLeft_nil (h : c.cacheLeft = []) : c.copyCache out = (out, c) := by
  rw [copyCache, ← cacheLeft, h, take_nil, append_nil]
  rfl

/-- With the cache exhausted in the merge loop, the rest of the result is filled from the block. -/
theorem fill_of_cache_exhausted (hloop : c.mergeLoop c.resLen = (out, c₁))
    (htook : Took c out c₁) (hne : out ≠ []) (hcache : c₁.cacheLeft = [])
    (hlt : c₁.tsmPos < c₁.tsmValues.length) :
    c.fill.2 = if c₁.tsmPos + (c.resLen - out.length) < c₁.tsmValues.length then
      { c₁ with tsmPos := c₁.tsmPos + (c.resLen - out.length) } else c₁.nextTSM := by
  rw [fill_eq hloop, ← htook.resLen]
  by_cases hroom : out.length < c₁.resLen
  · have hwhole : ¬ (out.length = 0 ∧ c₁.resLen ≥ c₁.tsmValues.length) := fun h =>
      hne (eq_nil_of_length_eq_zero h.1)
    rw [if_pos hroom, copyTSM, if_pos hlt, if_neg hwhole]
    have hcopied : ((c₁.tsmValues.drop c₁.tsmPos).take (c₁.resLen - out.length)).length =
        min (c₁.resLen - out.length) (c₁.tsmValues.length - c₁.tsmPos) := by
      rw [length_take, length_drop]
    dsimp only
    rw [hcopied]
    have hc :
        ({ c₁ with tsmPos := c₁.tsmPos + min (c₁.resLen - out.length) (c₁.tsmValues.length - c₁.tsmPos) } :
        ArrayAscendingCursor α).refill = if c₁.tsmPos + (c₁.resLen - out.length) < c₁.tsmValues.length then
          { c₁ with tsmPos := c₁.tsmPos + (c₁.resLen - out.length) } else c₁.nextTSM := by
      rw [refill]
      split_ifs with hge hlt' hlt'
      · dsimp only at hge
        omega
      · rfl
      · rw [min_eq_left (by omega)]
      · dsimp only at hge
        omega
    rw [hc, copyCache_of_cacheLeft_nil]
    split_ifs <;> exact hcache
  · rw [if_neg hroom, Nat.sub_eq_zero_of_le (not_lt.mp hroom), if_pos (by simpa using hlt)]
    rfl

/-- When no point is behind the last cache value, no block is returned again. -/
theorem Ready.not_willRepeat (h : c.Ready) (hne : c.cacheLeft ≠ [])
    (hall : ∀ p ∈ c.left, ∃ x ∈ c.cacheLeft, p.1 ≤ x.1) : ¬ c.WillRepeat := by
  rintro ⟨-, -, -, -, -, x, hx, -⟩
  have hlt : (c.cacheLeft.getLast hne).1 < x.1 := h.lt_of_getElem_upToCache hne hx
  obtain ⟨y, hy, hxy⟩ := hall x (mem_of_getElem? hx)
  exact absurd (hxy.trans (h.ascending_cacheLeft.le_getLast hne hy)) (not_le.mpr hlt)

/-- Once the cache is passed, what is left is behind its last value. -/
theorem Took.lt_left (h : Took c out c') (hc : c.Ready) (hdone : c'.cacheLeft = []) (hx : x ∈ c.cacheLeft)
    (hp : p ∈ c'.left) : x.1 < p.1 := by
  obtain ⟨passed, hpassed, hsub⟩ := h.cache
  rw [hdone, append_nil] at hpassed
  exact (h.ascending hc).2.2 x (hsub (hpassed ▸ hx)) p hp

theorem Stale.left_ne_nil (h : c.Stale) (hc : c.Ready) : c.left ≠ [] := by
  rw [left_of_cacheLeft_nil h.1]
  exact hc.tsmPos_lt_iff.mp h.2.2.1

/-- The condition for the call whose merge loop exhausts the cache inside a block. -/
theorem Took.willRepeat_iff_block (h : Took c out c₁) (hc : c.Ready)
    (hne : c.cacheLeft ≠ []) (hcache : c₁.cacheLeft = []) (hlt : c₁.tsmPos < c₁.tsmValues.length)
    (hlen : out.length ≤ c.resLen) (hout : ∀ p ∈ out, ∃ x ∈ c.cacheLeft, p.1 ≤ x.1)
    (hfirst : ∃ z ∈ c.left.head?, z.1 < c.endTime) :
    c.WillRepeat ↔ c₁.tsmValues.length ≤ c.resLen ∧ ∃ first ∈ c₁.tsmValues.head?, first.1 < c.endTime ∧
      ∃ y ∈ c₁.tsmLeft[c.resLen - out.length]?, y ∈ c₁.tsmValues ∧ first.1 < y.1 := by
  obtain ⟨passed, hpassed, hsub⟩ := h.cache
  rw [hcache, append_nil] at hpassed
  have hpos : 0 < out.length := by
    obtain ⟨x, hx⟩ := exists_mem_of_ne_nil _ hne
    exact length_pos_of_mem (hsub (hpassed ▸ hx))
  have hm : upToCache c.cacheLeft c.left = out.length := by
    rw [upToCache, getLast?_eq_some_getLast hne, Option.map_some, Option.getD_some, h.left, countP_append,
      countP_eq_length.mpr, countP_eq_zero.mpr, add_zero]
    · intro p hp
      simpa using h.lt_left hc hcache (getLast_mem hne) hp
    · intro p hp
      obtain ⟨x, hx, hpx⟩ := hout p hp
      exact decide_eq_true (hpx.trans (hc.ascending_cacheLeft.le_getLast hne hx))
  have hget : ∀ i, out.length ≤ i → c.left[i]? = c₁.tsmLeft[i - out.length]? := fun i hi => by
    rw [h.left, left_of_cacheLeft_nil hcache, getElem?_append_right hi]
  have hblock := h.ready.tsmValues_mem hlt
  have hx₀ : c₁.tsmLeft[0]? = some (c₁.tsmValues.get ⟨c₁.tsmPos, hlt⟩) := by
    rw [h.ready.tsmLeft_eq, drop_eq_getElem_cons hlt]
    rfl
  rw [WillRepeat, Repeats, hm, roundUp_of_le hpos hlen, hget _ le_rfl, hget _ hlen, Nat.sub_self, Nat.sub_self, hx₀,
    ← head?_eq_getElem?]
  constructor
  · rintro ⟨b, hb, hblen, first, hfirst, x, hx, y, hy, z, -, hxb, hyb, hlt₁, hlt₂, -⟩
    obtain rfl := Option.some.inj hx
    obtain rfl := block_eq_of_mem hc.tsm hb (h.blocks.subset hblock) hxb (get_mem _ _)
    exact ⟨hblen, first, hfirst, hlt₂, y, hy, hyb, hlt₁⟩
  · rintro ⟨hblen, first, hfirst', hlt₂, y, hy, hyb, hlt₁⟩
    obtain ⟨z, hz, hzlt⟩ := hfirst
    exact ⟨_, h.blocks.subset hblock, hblen, first, hfirst', _, rfl, y, hy, z, hz, get_mem _ _,
      hyb, hlt₁, hlt₂, hzlt⟩

theorem head_lt_getElem_iff {s : Values α} (hs : Ascending s) {q : ℕ} (hq : q < s.length) {first : ℤ × α}
    (hfirst : first ∈ s.head?) : first.1 < s[q].1 ↔ 0 < q := by
  obtain ⟨rest, rfl⟩ := head?_eq_some_iff.mp hfirst
  cases q with
  | zero => simp
  | succ q => simpa using (ascending_cons.mp hs).1 _ (getElem_mem _)

/-- When a call exhausts the cache, a block is returned again exactly if the call leaves the cursor
stale, in a block that begins before the end time. -/
theorem Ready.willRepeat_iff_stale (h : c.Ready) (hne : c.cacheLeft ≠ []) (hlen : 0 < c.resLen)
    (hdone : c.fill.2.cacheLeft = []) (hfirst : ∃ z ∈ c.left.head?, z.1 < c.endTime) :
    c.WillRepeat ↔ c.fill.2.Stale ∧ ∃ first ∈ c.fill.2.tsmValues.head?, first.1 < c.endTime := by
  have hspec := h.mergeLoop c.resLen
  rcases hloop : c.mergeLoop c.resLen with ⟨out, c₁⟩
  rw [hloop] at hspec
  obtain ⟨htook : Took c out c₁, hle : out.length ≤ _, hstop : out.length = _ ∨ _, -,
      hout : ∀ p ∈ out, _⟩ := hspec
  obtain ⟨passed, hpassed, hsub⟩ := htook.cache
  by_cases htsm : c₁.tsmLeft = []
  · have hall : ∀ p ∈ c.left, ∃ x ∈ c.cacheLeft, p.1 ≤ x.1 := by
      rw [htook.left, left_of_tsmLeft_nil htsm]
      intro p hp
      rcases mem_append.mp hp with hp | hp
      · exact hout p hp
      · exact ⟨p, hpassed ▸ mem_append_right _ hp, le_rfl⟩
    refine iff_of_false (h.not_willRepeat hne hall) ?_
    rintro ⟨hstale, -⟩
    have hfill := (h.fill (fun hs => hne hs.1) hlen).1
    obtain ⟨p, hp⟩ := exists_mem_of_ne_nil _ (hstale.left_ne_nil hfill.ready)
    obtain ⟨x, hx, hpx⟩ := hall p (hfill.left ▸ mem_append_right _ hp)
    exact absurd (hfill.lt_left h hdone hx hp) (not_lt.mpr hpx)
  · have hlt := htook.ready.tsmPos_lt_iff.mpr htsm
    have hcache : c₁.cacheLeft = [] := by
      rcases hstop with hfull | hnil | hnil
      · rwa [fill_eq hloop, htook.resLen, if_neg (by omega)] at hdone
      · exact absurd hnil htsm
      · exact hnil
    have hout_ne : out ≠ [] := by
      rintro rfl
      rw [hcache, eq_nil_of_subset_nil hsub] at hpassed
      exact hne hpassed
    have hasc := htook.ready.tsm
    rw [htook.ready.flatten_eq, ascending_append] at hasc
    obtain ⟨hblock, -, hbefore⟩ := hasc
    rw [htook.willRepeat_iff_block h hne hcache hlt hle hout hfirst,
      fill_of_cache_exhausted hloop htook hout_ne hcache hlt, htook.ready.tsmLeft_eq]
    by_cases hq : c₁.tsmPos + (c.resLen - out.length) < c₁.tsmValues.length
    · rw [if_pos hq, getElem?_append_left (by rw [length_drop]; omega), getElem?_drop, getElem?_eq_getElem hq]
      constructor
      · rintro ⟨hblen, first, hfirst, hend, y, hy, -, hfy⟩
        obtain rfl := Option.some.inj hy
        exact ⟨⟨hcache, (head_lt_getElem_iff hblock hq hfirst).mp hfy, hq, htook.resLen.symm ▸ hblen⟩,
          first, hfirst, hend⟩
      · rintro ⟨⟨-, hpos, -, hblen⟩, first, hfirst, hend⟩
        exact ⟨htook.resLen ▸ hblen, first, hfirst, hend, _, rfl, getElem_mem hq,
          (head_lt_getElem_iff hblock hq hfirst).mpr hpos⟩
    · rw [if_neg hq]
      refine iff_of_false ?_ ?_
      · rintro ⟨-, -, -, -, y, hy, hyb, -⟩
        rw [getElem?_append_right (by rw [length_drop]; omega)] at hy
        exact lt_irrefl _ (hbefore y hyb y (mem_of_getElem? hy))
      · rintro ⟨⟨-, hpos, -⟩, -⟩
        exact absurd hpos (lt_irrefl 0)

/-! ### All calls -/

/-- The arrays up to the first empty one hold the points that are left before the end time. -/
def Serves (c : ArrayAscendingCursor α) : Prop :=
  ∃ fuel arrays, c.drain fuel = some arrays ∧ arrays.flatten = c.left.filter fun p => p.1 < c.endTime

theorem next_eq (hasc : Ascending c.fill.1) : c.next = (c.fill.1.filter fun p => p.1 < c.fill.2.endTime, c.fill.2) := by
  rw [next]
  refine Prod.ext ?_ rfl
  dsimp only
  rw [rdropWhile_eq_filter]
  · exact filter_congr fun p _ => by rw [← decide_not]; exact decide_eq_decide.mpr not_le
  · refine hasc.imp fun hlt hge => ?_
    simp only [ge_iff_le, decide_eq_true_eq] at hge ⊢
    omega

theorem drain_succ (c : ArrayAscendingCursor α) (fuel : ℕ) :
    c.drain (fuel + 1) = if c.next.1 = [] then some [] else (c.next.2.drain fuel).map (c.next.1 :: ·) := by
  rw [drain]
  rcases c.next with ⟨res, c'⟩
  cases res <;> rfl

/-- A call that returns points as it should leaves the rest to the following calls. -/
theorem Took.serves_iff (h : Took c c.fill.1 c.fill.2) (hc : c.Ready)
    (hne : (c.fill.1.filter fun p => p.1 < c.endTime) ≠ []) : c.Serves ↔ c.fill.2.Serves := by
  have hnext := next_eq (h.ascending hc).1
  rw [h.endTime] at hnext
  have hleft : (c.left.filter fun p => p.1 < c.endTime) = (c.fill.1.filter fun p => p.1 < c.endTime) ++
      c.fill.2.left.filter fun p => p.1 < c.fill.2.endTime := by
    rw [h.endTime, ← filter_append, ← h.left]
  rw [Serves, Serves, hleft]
  constructor
  · rintro ⟨fuel, arrays, hdrain, hflat⟩
    cases fuel with
    | zero => cases hdrain
    | succ fuel =>
      rw [drain_succ, hnext, if_neg hne, Option.map_eq_some_iff] at hdrain
      obtain ⟨arrays', hdrain', rfl⟩ := hdrain
      exact ⟨fuel, arrays', hdrain', append_cancel_left hflat⟩
  · rintro ⟨fuel, arrays, hdrain, hflat⟩
    refine ⟨fuel + 1, (c.fill.1.filter fun p => p.1 < c.endTime) :: arrays, ?_, ?_⟩
    · rw [drain_succ, hnext, if_neg hne, hdrain]
      rfl
    · rw [flatten_cons, hflat]

/-- The calls stop when no point before the end time is left. -/
theorem serves_of_le (hasc : Ascending c.fill.1) (hend : c.fill.2.endTime = c.endTime)
    (hres : ∀ p ∈ c.fill.1, c.endTime ≤ p.1) (hleft : ∀ p ∈ c.left, c.endTime ≤ p.1) : c.Serves := by
  have hnil : ∀ l : Values α, (∀ p ∈ l, c.endTime ≤ p.1) → (l.filter fun p => p.1 < c.endTime) = [] :=
    fun l hl =>
    filter_eq_nil_iff.mpr fun p hp => by simpa using hl p hp
  refine ⟨1, [], ?_, by rw [hnil _ hleft]; rfl⟩
  rw [drain_succ, next_eq hasc, hend, hnil _ hres]
  rfl

theorem Took.serves_of_head (h : Took c c.fill.1 c.fill.2) (hc : c.Ready)
    (hprogress : c.left ≠ [] → c.fill.1 ≠ [])
    (hnil : (c.fill.1.filter fun p => p.1 < c.endTime) = []) : c.Serves ∧ ∀ p ∈ c.left, c.endTime ≤ p.1 := by
  have hasc := h.ascending hc
  have hres : ∀ p ∈ c.fill.1, c.endTime ≤ p.1 := fun p hp => by
    simpa using filter_eq_nil_iff.mp hnil p hp
  have hleft : ∀ p ∈ c.left, c.endTime ≤ p.1 := by
    intro p hp
    obtain ⟨first, hfirst⟩ := exists_mem_of_ne_nil _ (hprogress (ne_nil_of_mem hp))
    rw [h.left] at hp
    rcases mem_append.mp hp with hp | hp
    · exact hres p hp
    · exact (hres first hfirst).trans (hasc.2.2 first hfirst p hp).le
  exact ⟨serves_of_le hasc.1 h.endTime hres hleft, hleft⟩

theorem mergeLoop_of_cacheLeft_nil (h : c.cacheLeft = []) (room : ℕ) : c.mergeLoop room = ([], c) := by
  cases room with
  | zero => rfl
  | succ room =>
    have hnone : c.cacheValues[c.cachePos]? = none := getElem?_eq_none (drop_eq_nil_iff.mp h)
    rw [mergeLoop, mergePoint, hnone]
    cases c.tsmValues[c.tsmPos]? <;> rfl

theorem cacheLeft_refill (c : ArrayAscendingCursor α) : c.refill.cacheLeft = c.cacheLeft := by
  rw [refill]
  split_ifs <;> rfl

theorem cacheLeft_copyTSM (c : ArrayAscendingCursor α) (out : Values α) :
    (c.copyTSM out).2.cacheLeft = c.cacheLeft := by
  rw [copyTSM]
  split_ifs
  · rfl
  · exact cacheLeft_refill _
  · rfl

theorem fill_of_cacheLeft_nil (h : c.cacheLeft = []) (hlen : 0 < c.resLen) : c.fill = c.copyTSM [] := by
  rw [fill_eq (mergeLoop_of_cacheLeft_nil h _),
    if_pos (show ([] : Values α).length < c.resLen from hlen), copyCache_of_cacheLeft_nil]
  rw [cacheLeft_copyTSM, h]

/-- Without cache values left, a cursor that is not stale does not become stale. -/
theorem not_stale_fill (h : c.cacheLeft = []) (hlen : 0 < c.resLen) (hstale : ¬ c.Stale) : ¬ c.fill.2.Stale := by
  rw [fill_of_cacheLeft_nil h hlen, copyTSM]
  by_cases hlt : c.tsmPos < c.tsmValues.length
  · rw [if_pos hlt]
    by_cases hwhole : ([] : Values α).length = 0 ∧ c.resLen ≥ c.tsmValues.length
    · rw [if_pos hwhole]
      exact fun hs => absurd hs.2.1 (lt_irrefl 0)
    · rw [if_neg hwhole]
      dsimp only
      rw [refill]
      split_ifs
      · exact fun hs => absurd hs.2.1 (lt_irrefl 0)
      · exact fun hs => hwhole ⟨rfl, hs.2.2.2⟩
  · rw [if_neg hlt]
    exact hstale

/-- From a stale state the whole block is returned. -/
theorem Stale.fill_eq (h : c.Stale) : c.fill = (c.tsmValues, c.nextTSM) := by
  obtain ⟨hcache, hpos, hlt, hle⟩ := h
  rw [fill_of_cacheLeft_nil hcache (by omega), copyTSM, if_pos hlt, if_pos ⟨rfl, hle⟩]

/-- A stale cursor serves what is left only if all of it is behind the end time. -/
theorem Stale.serves_iff (h : c.Stale) (hc : c.Ready) :
    c.Serves ↔ ¬ ∃ first ∈ c.tsmValues.head?, first.1 < c.endTime := by
  have hasc := hc.tsm
  rw [hc.flatten_eq] at hasc
  have hblock := (ascending_append.mp hasc).1
  have hfill : Ascending c.fill.1 := by rw [h.fill_eq]; exact hblock
  constructor
  · rintro ⟨fuel, arrays, hdrain, hflat⟩ ⟨first, hfirst, hend⟩
    obtain ⟨rest, hrest⟩ := head?_eq_some_iff.mp hfirst
    have hmem : first ∈ c.next.1 := by
      rw [next_eq hfill, h.fill_eq]
      exact mem_filter.mpr ⟨mem_of_mem_head? hfirst, decide_eq_true hend⟩
    cases fuel with
    | zero => cases hdrain
    | succ fuel =>
      rw [drain_succ, if_neg (ne_nil_of_mem hmem), Option.map_eq_some_iff] at hdrain
      obtain ⟨arrays', -, rfl⟩ := hdrain
      have hleft : first ∈ c.tsmLeft := by
        rw [← left_of_cacheLeft_nil h.1]
        refine mem_of_mem_filter (p := fun p => p.1 < c.endTime) (hflat ▸ ?_)
        exact mem_append_left _ hmem
      -- The first point of the block was passed before, so it is not left.
      rw [hrest, cons_append, ascending_cons] at hasc
      rw [hc.tsmLeft_eq, hrest, ← Nat.sub_add_cancel h.2.1, drop_succ_cons] at hleft
      refine lt_irrefl _ (hasc.1 first ?_)
      rcases mem_append.mp hleft with hmem | hmem
      · exact mem_append_left _ (mem_of_mem_drop hmem)
      · exact mem_append_right _ hmem
  · intro hnone
    have hall : ∀ p ∈ c.keyCursor.flatten, c.endTime ≤ p.1 := by
      obtain ⟨first, rest, hrest⟩ := exists_cons_of_length_pos (zero_lt_of_lt h.2.2.1)
      have hfirst : c.endTime ≤ first.1 := not_lt.mp fun hlt => hnone ⟨first, by rw [hrest]; rfl, hlt⟩
      rw [hrest, cons_append, ascending_cons] at hasc
      rw [hc.flatten_eq, hrest, cons_append]
      rintro p (_ | ⟨_, hp⟩)
      · exact hfirst
      · exact hfirst.trans (hasc.1 p hp).le
    refine serves_of_le hfill (by rw [h.fill_eq]; rfl) (fun p hp => hall p ?_) fun p hp => hall p ?_
    · rw [h.fill_eq] at hp
      rw [hc.flatten_eq]
      exact mem_append_left _ hp
    · rw [left_of_cacheLeft_nil h.1] at hp
      exact mem_of_mem_drop hp

/-- Without cache values left, a cursor that is not stale serves what is left. -/
theorem Ready.serves_of_cacheLeft_nil (hc : c.Ready) (hlen : 0 < c.resLen) (hcache : c.cacheLeft = [])
    (hstale : ¬ c.Stale) : c.Serves := by
  -- Every call returns a point, so the induction is on the number of points left.
  induction hn : c.left.length using Nat.strong_induction_on generalizing c with
  | _ n ih =>
    obtain ⟨htook, hprogress, -⟩ := hc.fill hstale hlen
    by_cases hnil : (c.fill.1.filter fun p => p.1 < c.endTime) = []
    · exact (htook.serves_of_head hc hprogress hnil).1
    · rw [htook.serves_iff hc hnil]
      refine ih _ ?_ htook.ready (htook.resLen ▸ hlen) ?_ (not_stale_fill hcache hlen hstale) rfl
      · have hpos : 0 < c.fill.1.length := length_pos_of_ne_nil fun h => hnil (by rw [h]; rfl)
        have := congrArg length htook.left
        rw [length_append] at this
        omega
      · rw [fill_of_cacheLeft_nil hcache hlen, cacheLeft_copyTSM, hcache]

/-- With cache values left, the cursor serves what is left unless it returns a block again. -/
theorem Ready.serves_iff (hc : c.Ready) (hlen : 0 < c.resLen) (hne : c.cacheLeft ≠ []) :
    c.Serves ↔ ¬ c.WillRepeat := by
  induction hn : c.left.length using Nat.strong_induction_on generalizing c with
  | _ n ih =>
    obtain ⟨htook, hprogress, hfull⟩ := hc.fill (fun hs => hne hs.1) hlen
    by_cases hnil : (c.fill.1.filter fun p => p.1 < c.endTime) = []
    · obtain ⟨hserves, hend⟩ := htook.serves_of_head hc hprogress hnil
      refine iff_of_true hserves ?_
      rintro ⟨-, -, -, -, -, -, -, -, -, z, hz, -, -, -, -, hlt⟩
      exact absurd (hend z (mem_of_getElem? hz)) (not_le.mpr hlt)
    · rw [htook.serves_iff hc hnil]
      have hres : c.fill.1 ≠ [] := fun h => hnil (by rw [h]; rfl)
      by_cases hdone : c.fill.2.cacheLeft = []
      · -- The last cache value was passed by this call.
        have hfirst : ∃ z ∈ c.left.head?, z.1 < c.endTime := by
          obtain ⟨p, hp⟩ := exists_mem_of_ne_nil _ hnil
          obtain ⟨hp, hlt⟩ := mem_filter.mp hp
          obtain ⟨first, rest, hrest⟩ := exists_cons_of_ne_nil hres
          have hasc := hc.ascending_left
          rw [htook.left, hrest, cons_append] at hasc ⊢
          rw [hrest] at hp
          refine ⟨first, rfl, lt_of_le_of_lt ?_ (of_decide_eq_true hlt)⟩
          rcases mem_cons.mp hp with rfl | hp
          · exact le_rfl
          · exact ((ascending_cons.mp hasc).1 p (mem_append_left _ hp)).le
        rw [hc.willRepeat_iff_stale hne hlen hdone hfirst]
        by_cases hstale : c.fill.2.Stale
        · rw [hstale.serves_iff htook.ready, htook.endTime, and_iff_right hstale]
        · exact iff_of_true (htook.ready.serves_of_cacheLeft_nil (htook.resLen ▸ hlen) hdone hstale)
            fun h => hstale h.1
      · rw [htook.willRepeat_iff hc hdone hlen (hfull hdone)]
        refine ih _ ?_ htook.ready (htook.resLen ▸ hlen) hdone rfl
        have := congrArg length htook.left
        have := length_pos_of_ne_nil hres
        rw [length_append] at *
        omega

/-! ### The cursor of a query -/

/-- The blocks that the key cursor delivers to an ascending cursor that starts at the seek time. -/
structure Delivers (seek : ℤ) (blocks : List (Values α)) : Prop where
  nonempty : ∀ b ∈ blocks, b ≠ []
  ascending : Ascending blocks.flatten
  from_seek : ∀ p ∈ blocks.flatten, seek ≤ p.1

/-- The calls of `Next`, up to the first empty array, return in time order exactly the points from
the seek time up to the end time, with the value of the cache where both have one. -/
def Merges (seek endTime : ℤ) (cache : Values α) (blocks : List (Values α)) : Prop :=
  ∃ fuel arrays, (reset seek endTime cache blocks).drain fuel = some arrays ∧ Ascending arrays.flatten ∧
    ∀ p, p ∈ arrays.flatten ↔ seek ≤ p.1 ∧ p.1 < endTime ∧ CacheOverTSM cache blocks p

/-- The points of the cache and the blocks from the seek time on, in time order. -/
def mergedFrom (seek : ℤ) (cache : Values α) (blocks : List (Values α)) : Values α :=
  Values.mergeLoop blocks.flatten (cache.filter fun p => seek ≤ p.1)

section Reset

variable {seek endTime : ℤ} {cache : Values α} {blocks : List (Values α)}

theorem tsmPos_reset (hb : Delivers seek blocks) : (reset seek endTime cache blocks).tsmPos = 0 := by
  cases blocks with
  | nil => rfl
  | cons b rest =>
    have hasc := hb.ascending
    rw [flatten_cons, ascending_append] at hasc
    obtain ⟨htake, -, hle⟩ := search_split hasc.1 seek
    have hnil : (b.filter fun p => p.1 < seek) = [] := filter_eq_nil_iff.mpr fun p hp => by
      simpa using hb.from_seek p (mem_append_left _ hp)
    rw [hnil, take_eq_nil_iff] at htake
    exact htake.resolve_right (hb.nonempty b mem_cons_self)

section

variable (hcache : Ascending cache)
include hcache

section

variable (hb : Delivers seek blocks)
include hb

theorem ready_reset : (reset seek endTime cache blocks).Ready := by
  have hpos : (reset seek endTime cache blocks).tsmPos = 0 := tsmPos_reset hb
  refine ⟨⟨rfl, hb.nonempty, hb.ascending, hcache, by rw [hpos]; exact zero_le _⟩, fun hne => ?_⟩
  rw [hpos]
  obtain ⟨b, rest, rfl⟩ := exists_cons_of_ne_nil hne
  exact length_pos_of_ne_nil (hb.nonempty b mem_cons_self)

omit hb in
theorem cacheLeft_reset : (reset seek endTime cache blocks).cacheLeft = cache.filter fun p => seek ≤ p.1 :=
  (search_split hcache seek).2.1

theorem left_reset : (reset seek endTime cache blocks).left = mergedFrom seek cache blocks := by
  rw [left, cacheLeft_reset hcache, tsmLeft, tsmPos_reset hb]
  rfl

theorem merges_iff_serves : Merges seek endTime cache blocks ↔ (reset seek endTime cache blocks).Serves := by
  have hasc : Ascending (mergedFrom seek cache blocks) := ascending_mergeLoop _ _ hb.ascending (hcache.filter _)
  have hmem : ∀ p, p ∈ (mergedFrom seek cache blocks).filter (fun p => p.1 < endTime) ↔
      seek ≤ p.1 ∧ p.1 < endTime ∧ CacheOverTSM cache blocks p := fun p => by
    rw [mem_filter, mergedFrom, mem_mergeLoop_filter (f := fun t => decide (seek ≤ t)) hcache hb.ascending
      fun p hp => decide_eq_true (hb.from_seek p hp), decide_eq_true_eq, decide_eq_true_eq, CacheOverTSM]
    tauto
  rw [Merges, Serves, left_reset hcache hb]
  constructor
  · rintro ⟨fuel, arrays, hdrain, hsorted, hpoints⟩
    refine ⟨fuel, arrays, hdrain, hsorted.ext (hasc.filter _) fun t => Option.ext fun v => ?_⟩
    rw [hsorted.latest_eq_some_iff, (hasc.filter _).latest_eq_some_iff, hpoints]
    exact (hmem (t, v)).symm
  · rintro ⟨fuel, arrays, hdrain, hflat⟩
    refine ⟨fuel, arrays, hdrain, hflat ▸ hasc.filter _, fun p => ?_⟩
    rw [hflat]
    exact hmem p

/-- The ascending cursor merges the cache and the blocks unless it returns a block again. -/
theorem merges_iff_not_repeats :
    Merges seek endTime cache blocks ↔ ¬ Repeats maxPointsPerBlock (cache.filter fun p => seek ≤ p.1) blocks
      (mergedFrom seek cache blocks) endTime := by
  have hready : (reset seek endTime cache blocks).Ready := ready_reset hcache hb
  have hleft : (reset seek endTime cache blocks).left = mergedFrom seek cache blocks := left_reset hcache hb
  have hcacheLeft : (reset seek endTime cache blocks).cacheLeft = _ := cacheLeft_reset hcache
  rw [merges_iff_serves hcache hb, ← hcacheLeft, ← hleft]
  by_cases hnil : (reset seek endTime cache blocks).cacheLeft = []
  · have hserves := hready.serves_of_cacheLeft_nil (succ_pos _) hnil fun hs =>
      absurd hs.2.1 (by rw [tsmPos_reset hb]; exact lt_irrefl 0)
    refine iff_of_true hserves ?_
    rw [left_of_cacheLeft_nil hnil, hnil]
    rintro ⟨b, hmem, -, first, hfirst, -, -, y, hy, -, -, -, -, hlt, -⟩
    have hzero : roundUp maxPointsPerBlock (upToCache [] (reset seek endTime cache blocks).tsmLeft) = 0 := by
      simp [roundUp, upToCache, maxPointsPerBlock]
    have hasc := hready.ascending_tsmLeft
    rw [hzero, ← head?_eq_getElem?] at hy
    obtain ⟨rest, hrest⟩ := head?_eq_some_iff.mp hy
    have hfirst : first ∈ (reset seek endTime cache blocks).tsmLeft := by
      rw [tsmLeft, tsmPos_reset hb]
      exact mem_flatten_of_mem hmem (mem_of_mem_head? hfirst)
    rw [hrest] at hasc hfirst
    rcases mem_cons.mp hfirst with rfl | hfirst
    · exact lt_irrefl _ hlt
    · exact lt_asymm hlt ((ascending_cons.mp hasc).1 first hfirst)
  · exact hready.serves_iff (succ_pos _) hnil

end

end

end Reset

end ArrayAscendingCursor

end InfluxDB.Tsm
