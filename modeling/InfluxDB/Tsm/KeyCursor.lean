import Mathlib.Data.List.FinRange
import InfluxDB.Tsm.Index

/-! `file_store.go` and `file_store_array.gen.go`: the cursor over the blocks of a key in all files.

    The cursor lists the blocks that may hold points, in file order where they overlap and in time order
    otherwise. A read decodes the first of them that has unread points, widens its time range to a window
    that no unread point precedes, merges what the other blocks have in the window, and marks the window as
    read. The two directions mirror each other. Reading the other value types is the same code; the
    reference counts, metrics and buffers are left out. -/

namespace InfluxDB.Tsm
open Lib

/-- `OverlapsTimeRange`. -/
def IndexEntry.overlapsTimeRange (e : IndexEntry) (min max : ℤ) : Bool :=
  decide (e.minTime ≤ max) && decide (e.maxTime ≥ min)

/-- The `int64` that an integer wraps to. -/
def wrapInt64 (x : ℤ) : ℤ := (x + 2 ^ 63) % 2 ^ 64 - 2 ^ 63

/-- `TSMFile`, as it answers for the key of the cursor. -/
structure TSMFile (α : Type*) where
  path : Bytes
  minTime : ℤ
  maxTime : ℤ
  readEntries : Except String (List IndexEntry)
  tombstoneRange : List TimeRange
  readFloatArrayBlockAt : IndexEntry → Except String (Values α)

/-- `location`. -/
structure Location (α : Type*) where
  r : TSMFile α
  entry : IndexEntry
  readMin : ℤ
  readMax : ℤ

variable {α : Type*}

namespace Location

/-- `read`. -/
def read (l : Location α) : Bool := decide (l.readMin ≤ l.entry.minTime) && decide (l.readMax ≥ l.entry.maxTime)

/-- `markRead`. -/
def markRead (l : Location α) (min max : ℤ) : Location α :=
  { l with
    readMin := if min < l.readMin then min else l.readMin
    readMax := if max > l.readMax then max else l.readMax }

/-- Overlapping blocks by path, other blocks by a time of theirs. -/
def lessBy (time : IndexEntry → ℤ) (a b : Location α) : Bool :=
  if a.entry.overlapsTimeRange b.entry.minTime b.entry.maxTime then decide (a.r.path < b.r.path)
  else decide (time a.entry < time b.entry)

/-- `ascLocations.Less`. -/
def ascLess : Location α → Location α → Bool := lessBy (·.minTime)

/-- `descLocations.Less`. -/
def descLess : Location α → Location α → Bool := lessBy (·.maxTime)

end Location

/-! ### Finding the blocks -/

/-- The location of a block that `locations` takes. Everything on the far side of the seek time is marked
    as read. -/
def entryLocation (t : ℤ) (ascending : Bool) (fd : TSMFile α) (ie : IndexEntry) : Option (Location α) :=
  if fd.tombstoneRange.any fun r => decide (r.min ≤ ie.minTime) && decide (r.max ≥ ie.maxTime) then none
  else if ascending ∧ ie.maxTime < t then none
  else if !ascending ∧ ie.minTime > t then none
  else if ascending then some { r := fd, entry := ie, readMin := minInt64, readMax := wrapInt64 (t - 1) }
  else some { r := fd, entry := ie, readMin := wrapInt64 (t + 1), readMax := maxInt64 }

/-- The locations of one file. -/
def fileLocations (t : ℤ) (ascending : Bool) (fd : TSMFile α) : List (Location α) :=
  if ascending ∧ fd.maxTime < t then []
  else if !ascending ∧ fd.minTime > t then []
  else
    match fd.readEntries with
    | .error _ => []
    | .ok entries => entries.filterMap (entryLocation t ascending fd)

/-- `FileStore.locations`. -/
def locations (files : List (TSMFile α)) (t : ℤ) (ascending : Bool) : List (Location α) :=
  files.flatMap (fileLocations t ascending)

/-- `KeyCursor` over `n` locations; `current` holds pointers into `seeks`. -/
structure KeyCursor (α : Type*) (n : ℕ) where
  seeks : Fin n → Location α
  current : List (Fin n)
  pos : ℤ
  ascending : Bool

/-- The locations that `seekAscending` and `seekDescending` keep, in the order of the direction. -/
def seekLocations {n : ℕ} (seeks : Fin n → Location α) (t : ℤ) (ascending : Bool) : List (Fin n) :=
  if ascending then
    (List.finRange n).filter fun i => decide (t < (seeks i).entry.minTime) || (seeks i).entry.contains t
  else
    (List.finRange n).reverse.filter fun i => decide (t > (seeks i).entry.maxTime) || (seeks i).entry.contains t

/-- The position of the first location of `current`. -/
def firstPos {n : ℕ} : List (Fin n) → ℤ
  | [] => 0
  | i :: _ => (i : ℕ)

/-- `newKeyCursor`, for the locations as `sort` has left them. -/
def newKeyCursor (sorted : List (Location α)) (t : ℤ) (ascending : Bool) : KeyCursor α sorted.length :=
  let current := seekLocations sorted.get t ascending
  { seeks := sorted.get, current := current, pos := firstPos current, ascending := ascending }

namespace KeyCursor
variable {n : ℕ}

/-! ### Next -/

variable (c : KeyCursor α n)

/-- `nextAscending`: the unread locations after `pos`. -/
def nextAscending : KeyCursor α n :=
  match (List.finRange n).filter fun i : Fin n => decide (c.pos < (i : ℕ)) && !(c.seeks i).read with
  | [] => { c with current := [], pos := max (c.pos + 1) n }
  | i :: rest => { c with current := i :: rest, pos := (i : ℕ) }

/-- `nextDescending`: the unread locations before `pos`. Its second loop starts at the first one again. -/
def nextDescending : KeyCursor α n :=
  match (List.finRange n).reverse.filter fun i : Fin n => decide ((i : ℕ) < c.pos) && !(c.seeks i).read with
  | [] => { c with current := [], pos := min (c.pos - 1) (-1) }
  | i :: rest => { c with current := i :: i :: rest, pos := (i : ℕ) }

/-- `Next`. -/
def next : KeyCursor α n :=
  match c.current with
  | [] => c
  | i :: _ =>
    if !(c.seeks i).read then c
    else if c.ascending then c.nextAscending else c.nextDescending

/-! ### Reading a block -/

/-- The part up to the first location with values left; the locations before it are dropped. -/
def firstBlock (seeks : Fin n → Location α) : List (Fin n) → Except String (Values α × List (Fin n))
  | [] => .ok ([], [])
  | i :: rest => do
    let first := seeks i
    let values ← first.r.readFloatArrayBlockAt first.entry
    let values := values.exclude first.readMin first.readMax
    let values := excludeTombstones first.r.tombstoneRange values
    if values.length = 0 then firstBlock seeks rest else .ok (values, i :: rest)

/-- The window of an ascending read, and whether an overlapping block was found. -/
def ascWindow (seeks : Fin n → Location α) (rest : List (Fin n)) (w : TimeRange) : TimeRange × Bool :=
  let minT := rest.foldl (fun minT i =>
    if (seeks i).entry.minTime < minT ∧ !(seeks i).read then (seeks i).entry.minTime else minT) w.min
  match rest.find? fun i => (seeks i).entry.overlapsTimeRange minT w.max && !(seeks i).read with
  | none => ({ min := minT, max := w.max }, false)
  | some i =>
    ({ min := minT, max := if (seeks i).entry.maxTime > w.max then (seeks i).entry.maxTime else w.max }, true)

/-- The window of a descending read. -/
def descWindow (seeks : Fin n → Location α) (rest : List (Fin n)) (w : TimeRange) : TimeRange × Bool :=
  let maxT := rest.foldl (fun maxT i =>
    if (seeks i).entry.maxTime > maxT ∧ !(seeks i).read then (seeks i).entry.maxTime else maxT) w.max
  match rest.find? fun i => (seeks i).entry.overlapsTimeRange w.min maxT && !(seeks i).read with
  | none => ({ min := w.min, max := maxT }, false)
  | some i =>
    ({ min := if (seeks i).entry.minTime < w.min then (seeks i).entry.minTime else w.min, max := maxT }, true)

/-- Merge the values of a later location of `current`: they win in an ascending read and lose in a
    descending one. -/
def combine (ascending : Bool) (values v : Values α) : Values α :=
  if ascending then values.merge v else v.merge values

/-- The body of the merge loop. -/
def mergeBlock (ascending : Bool) (w : TimeRange) (s : Values α × (Fin n → Location α)) (i : Fin n) :
    Except String (Values α × (Fin n → Location α)) :=
  let cur := s.2 i
  let seeks := Function.update s.2 i (cur.markRead w.min w.max)
  if !cur.entry.overlapsTimeRange w.min w.max || cur.read then .ok (s.1, seeks)
  else do
    let v ← cur.r.readFloatArrayBlockAt cur.entry
    let v := excludeTombstones cur.r.tombstoneRange v
    let v := v.exclude cur.readMin cur.readMax
    return (if v.length > 0 then combine ascending s.1 (v.include w.min w.max) else s.1, seeks)

/-- The time range of the values of the first block. -/
def firstWindow (first : Location α) (values : Values α) : TimeRange :=
  match values.minTime?, values.maxTime? with
  | some minT, some maxT => { min := minT, max := maxT }
  | _, _ => { min := first.readMin, max := first.readMax }

/-- `ReadFloatArrayBlock`. -/
def readFloatArrayBlock : Except String (Values α × KeyCursor α n) := do
  let (values, current) ← firstBlock c.seeks c.current
  match current with
  | [] => return ([], { c with current := [] })
  | i :: rest =>
    let w := firstWindow (c.seeks i) values
    if rest.length = 0 then
      return (values, { c with
        current := i :: rest, seeks := Function.update c.seeks i ((c.seeks i).markRead w.min w.max) })
    else
      let (w, found) := if c.ascending then ascWindow c.seeks rest w else descWindow c.seeks rest w
      let values := if found then values.include w.min w.max else values
      let (values, seeks) ← rest.foldlM (mergeBlock c.ascending w) (values, c.seeks)
      return (values, { c with
        current := i :: rest, seeks := Function.update seeks i ((seeks i).markRead w.min w.max) })

/-- Reading and `Next` in turn, up to an empty block; `none` if that takes more than `fuel` reads. -/
def drain : ℕ → KeyCursor α n → Except String (Option (List (Values α)))
  | 0, _ => .ok none
  | fuel + 1, c => do
    let (values, c) ← c.readFloatArrayBlock
    if values.length = 0 then return some []
    else
      let rest ← drain fuel c.next
      return rest.map (values :: ·)

end KeyCursor

end InfluxDB.Tsm
