import InfluxDB.Tsm.Values
import Mathlib.Data.List.DropRight

/-!
    The array cursors that serve a query: the ascending and the descending cursor read the points of
    one key from the cache and from the blocks that the key cursor delivers, and return them in arrays
    of at most `MaxPointsPerBlock` points.  The result buffer is filled again on every call, so the
    positions in the cache and in the current block carry over.  The source generates one pair of
    cursors for each value type; here the value type is a parameter.

    The key cursor is the list of the blocks that it still delivers, the current one first.
-/

namespace InfluxDB.Tsm

open Lib List

variable {α : Type*}

/-- Cutting a tail off a list whose elements fail the test only from some point on. -/
theorem rdropWhile_eq_filter {β : Type*} {f : β → Bool} {l : List β}
    (h : l.Pairwise fun a b => f a = true → f b = true) :
    l.rdropWhile f = l.filter fun a => !f a := by
  induction l using reverseRecOn with
  | nil => rfl
  | append_singleton l a ih =>
    obtain ⟨hl, -, hlast⟩ := pairwise_append.mp h
    by_cases hf : f a = true
    · rw [rdropWhile_concat_pos _ _ _ hf, ih hl, filter_append]
      simp [hf]
    · rw [rdropWhile_concat_neg _ _ _ hf, eq_comm, filter_eq_self]
      intro b hb
      rcases mem_append.mp hb with hb | hb
      · simpa using fun hfb => hf (hlast b hb a (mem_singleton_self a) hfb)
      · simpa [mem_singleton.mp hb] using hf

/-- The point is in the cache, or in the blocks at a time that the cache has no value for. -/
def CacheOverTSM (cache : Values α) (blocks : List (Values α)) (p : ℤ × α) : Prop :=
  p ∈ cache ∨ p ∈ blocks.flatten ∧ ∀ q ∈ cache, q.1 ≠ p.1

/-- The merge of blocks on one side of the seek time with the cache values there. -/
theorem mem_mergeLoop_filter {cache tsm : Values α} {f : ℤ → Bool} (hcache : Ascending cache)
    (htsm : Ascending tsm) (hf : ∀ p ∈ tsm, f p.1 = true) (p : ℤ × α) :
    p ∈ tsm.mergeLoop (cache.filter fun q => f q.1) ↔
      f p.1 = true ∧ (p ∈ cache ∨ p ∈ tsm ∧ ∀ q ∈ cache, q.1 ≠ p.1) := by
  obtain ⟨t, v⟩ := p
  have hfilter := hcache.filter fun q => f q.1
  rw [← (ascending_mergeLoop _ _ htsm hfilter).latest_eq_some_iff, latest_mergeLoop _ _ htsm hfilter, latest_filter f,
    Option.or_eq_some_iff, htsm.latest_eq_some_iff, ← hcache.latest_eq_some_iff, ← latest_eq_none_iff]
  by_cases ht : f t = true
  · simp only [ht, if_true, true_and]
    tauto
  · simp only [ht]
    constructor
    · rintro (h | ⟨-, h⟩)
      · cases h
      · exact absurd (hf _ h) ht
    · rintro ⟨h, -⟩
      cases h

/-! ### Ascending cursor -/

/-- `{{type}}ArrayAscendingCursor`. -/
structure ArrayAscendingCursor (α : Type*) where
  cacheValues : Values α
  cachePos : ℕ
  tsmValues : Values α
  tsmPos : ℕ
  keyCursor : List (Values α)
  endTime : ℤ
  resLen : ℕ

namespace ArrayAscendingCursor

variable (c : ArrayAscendingCursor α)

/-- `reset` of a new cursor. -/
def reset (seek endTime : ℤ) (cacheValues : Values α) (keyCursor : List (Values α)) : ArrayAscendingCursor α :=
  let tsmValues := keyCursor.headD []
  { cacheValues
    cachePos := cacheValues.search seek
    tsmValues
    tsmPos := tsmValues.search seek
    keyCursor
    endTime
    resLen := maxPointsPerBlock }

/-- `nextTSM` moves to the next block; behind the last one the key cursor returns an empty block. -/
def nextTSM : ArrayAscendingCursor α :=
  { c with keyCursor := c.keyCursor.tail, tsmValues := c.keyCursor.tail.headD [], tsmPos := 0 }

/-- The block is replaced once all of its points are read. -/
def refill : ArrayAscendingCursor α := if c.tsmPos ≥ c.tsmValues.length then c.nextTSM else c

/-- One iteration of the merge loop, or none when the cache or the block has no point left. -/
def mergePoint : Option ((ℤ × α) × ArrayAscendingCursor α) :=
  match c.tsmValues[c.tsmPos]?, c.cacheValues[c.cachePos]? with
  | some t, some x =>
    if x.1 = t.1 then some (x, { c with cachePos := c.cachePos + 1, tsmPos := c.tsmPos + 1 }.refill)
    else if x.1 < t.1 then some (x, { c with cachePos := c.cachePos + 1 }.refill)
    else some (t, { c with tsmPos := c.tsmPos + 1 }.refill)
  | _, _ => none

/-- The merge loop, with room for so many points. -/
def mergeLoop : ℕ → ArrayAscendingCursor α → Values α × ArrayAscendingCursor α
  | 0, c => ([], c)
  | room + 1, c =>
    match c.mergePoint with
    | none => ([], c)
    | some (p, c) => (mergeLoop room c).map (p :: ·) id

/-- The points of the block that still fit behind the ones in the result.  A whole block is copied
without a look at the position in it when the result is empty. -/
def copyTSM (res : Values α) : Values α × ArrayAscendingCursor α :=
  if c.tsmPos < c.tsmValues.length then
    if res.length = 0 ∧ c.resLen ≥ c.tsmValues.length then (c.tsmValues, c.nextTSM)
    else
      let copied := (c.tsmValues.drop c.tsmPos).take (c.resLen - res.length)
      (res ++ copied, { c with tsmPos := c.tsmPos + copied.length }.refill)
  else (res, c)

/-- The cache values that still fit, when the blocks are exhausted. -/
def copyCache (res : Values α) : Values α × ArrayAscendingCursor α :=
  let copied := (c.cacheValues.drop c.cachePos).take (c.resLen - res.length)
  (res ++ copied, { c with cachePos := c.cachePos + copied.length })

/-- The result buffer before it is cut at the end time. -/
def fill : Values α × ArrayAscendingCursor α :=
  let (res, c) := c.mergeLoop c.resLen
  if res.length < c.resLen then
    let (res, c) := c.copyTSM res
    c.copyCache res
  else (res, c)

/-- `Next`. -/
def next : Values α × ArrayAscendingCursor α :=
  let (res, c) := c.fill
  (res.rdropWhile fun p => p.1 ≥ c.endTime, c)

/-- The arrays of successive calls of `Next`, up to the first empty one. -/
def drain : ℕ → ArrayAscendingCursor α → Option (List (Values α))
  | 0, _ => none
  | fuel + 1, c =>
    match c.next with
    | ([], _) => some []
    | (res, c) => (drain fuel c).map (res :: ·)

end ArrayAscendingCursor

/-! ### Descending cursor -/

/-- `{{type}}ArrayDescendingCursor`.  It reads each block from its end; a position here counts the
points that are left and is one more than the index in the source, where -1 says that none is. -/
structure ArrayDescendingCursor (α : Type*) where
  cacheValues : Values α
  cachePos : ℕ
  tsmValues : Values α
  tsmPos : ℕ
  keyCursor : List (Values α)
  endTime : ℤ
  resLen : ℕ

namespace ArrayDescendingCursor

variable (c : ArrayDescendingCursor α)

/-- The number of points up to the seek time, from a search for the first one at or after it. -/
def seekPos (values : Values α) (seek : ℤ) : ℕ :=
  match values[values.search seek]? with
  | none => values.length
  | some p => if p.1 ≠ seek then values.search seek else values.search seek + 1

/-- `reset` of a new cursor. -/
def reset (seek endTime : ℤ) (cacheValues : Values α) (keyCursor : List (Values α)) : ArrayDescendingCursor α :=
  let tsmValues := keyCursor.headD []
  { cacheValues
    cachePos := seekPos cacheValues seek
    tsmValues
    tsmPos := seekPos tsmValues seek
    keyCursor
    endTime
    resLen := maxPointsPerBlock }

/-- `nextTSM` moves to the end of the next block. -/
def nextTSM : ArrayDescendingCursor α :=
  { c with
    keyCursor := c.keyCursor.tail
    tsmValues := c.keyCursor.tail.headD []
    tsmPos := (c.keyCursor.tail.headD []).length }

/-- The block is replaced once all of its points are read. -/
def refill : ArrayDescendingCursor α := if c.tsmPos = 0 then c.nextTSM else c

/-- The point of the block at the position, if one is left. -/
def tsmPoint : Option (ℤ × α) := if c.tsmPos = 0 then none else c.tsmValues[c.tsmPos - 1]?

/-- The cache value at the position, if one is left. -/
def cachePoint : Option (ℤ × α) := if c.cachePos = 0 then none else c.cacheValues[c.cachePos - 1]?

/-- One iteration of the merge loop, or none when the cache or the block has no point left. -/
def mergePoint : Option ((ℤ × α) × ArrayDescendingCursor α) :=
  match c.tsmPoint, c.cachePoint with
  | some t, some x =>
    if x.1 = t.1 then some (x, { c with cachePos := c.cachePos - 1, tsmPos := c.tsmPos - 1 }.refill)
    else if x.1 > t.1 then some (x, { c with cachePos := c.cachePos - 1 }.refill)
    else some (t, { c with tsmPos := c.tsmPos - 1 }.refill)
  | _, _ => none

/-- One iteration of the loop over the blocks, when the cache is exhausted. -/
def readPoint : Option ((ℤ × α) × ArrayDescendingCursor α) :=
  c.tsmPoint.map fun t => (t, { c with tsmPos := c.tsmPos - 1 }.refill)

/-- One iteration of the loop over the cache, when the blocks are exhausted. -/
def readCache : Option ((ℤ × α) × ArrayDescendingCursor α) :=
  c.cachePoint.map fun x => (x, { c with cachePos := c.cachePos - 1 })

/-- A loop that adds the points of its iterations to the result, while it has room for so many. -/
def loop (step : ArrayDescendingCursor α → Option ((ℤ × α) × ArrayDescendingCursor α)) :
    ℕ → ArrayDescendingCursor α → Values α × ArrayDescendingCursor α
  | 0, c => ([], c)
  | room + 1, c =>
    match step c with
    | none => ([], c)
    | some (p, c) => (loop step room c).map (p :: ·) id

/-- The result buffer before it is cut at the end time. -/
def fill : Values α × ArrayDescendingCursor α :=
  let (merged, c) := loop mergePoint c.resLen c
  let (read, c) := loop readPoint (c.resLen - merged.length) c
  let (cached, c) := loop readCache (c.resLen - merged.length - read.length) c
  (merged ++ read ++ cached, c)

/-- `Next`. -/
def next : Values α × ArrayDescendingCursor α :=
  let (res, c) := c.fill
  (res.rdropWhile fun p => p.1 ≤ c.endTime, c)

/-- The arrays of successive calls of `Next`, up to the first empty one. -/
def drain : ℕ → ArrayDescendingCursor α → Option (List (Values α))
  | 0, _ => none
  | fuel + 1, c =>
    match c.next with
    | ([], _) => some []
    | (res, c) => (drain fuel c).map (res :: ·)

end ArrayDescendingCursor

end InfluxDB.Tsm
