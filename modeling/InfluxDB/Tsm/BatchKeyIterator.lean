import InfluxDB.Lib.Bytes
import InfluxDB.Tsm.TimeRange

/-! `tsmBatchKeyIterator` of `compact.go` and its generated `merge`/`combine`/`chunk`: the iterator
    that a compaction drains to rewrite several TSM files into one.

    The five typed copies of `merge`, `combine` and `chunk` are one definition over a codec. The five
    typed buffers of merged values are one: `typ` changes only when all of them are empty. Blocks are
    pointers in the source and are mutated while `combine` runs; here the mutated list is returned.
    A loop that need not end takes fuel, and a call ends in an `Outcome`: it returned, it ran into a
    run-time panic, or it was still running when the fuel was gone. -/

namespace InfluxDB.Tsm
open Lib

abbrev Key := Bytes

/-- What a call comes to within the fuel it was given. -/
inductive Outcome (σ : Type) where
  | returned (s : σ)
  | panicked
  | running

def Outcome.map {σ τ : Type} (f : σ → τ) : Outcome σ → Outcome τ
  | .returned s => .returned (f s)
  | .panicked => .panicked
  | .running => .running

/-- Go on with what a call returned. -/
def Outcome.bind {σ τ : Type} (o : Outcome σ) (f : σ → Outcome τ) : Outcome τ :=
  match o with
  | .returned s => f s
  | .panicked => .panicked
  | .running => .running

variable {σ τ : Type}

@[simp] theorem Outcome.returned_bind (s : σ) (f : σ → Outcome τ) : (Outcome.returned s).bind f = f s := rfl

theorem Outcome.bind_eq_returned {o : Outcome σ} {f : σ → Outcome τ} {r : τ} :
    o.bind f = .returned r ↔ ∃ s, o = .returned s ∧ f s = .returned r := by
  cases o <;> simp [Outcome.bind]

namespace Compact

/-! ### Blocks -/

/-- The block codec: `Decode…ArrayBlock` and `Encode…ArrayBlock` of the type a tag names, and
    `BlockCount`, which panics (`none`) on bytes it cannot unpack. -/
structure Codec (β α : Type) where
  decode : ℕ → β → Except String (Values α)
  encode : ℕ → Values α → Except String β
  blockCount : β → Option ℕ

def blockFloat64 : ℕ := 0
def blockInteger : ℕ := 1
def blockBoolean : ℕ := 2
def blockString : ℕ := 3
def blockUnsigned : ℕ := 4

/-- The tags that `merge` dispatches on. -/
def isBlockType (typ : ℕ) : Bool :=
  typ == blockFloat64 || typ == blockInteger || typ == blockUnsigned || typ == blockBoolean ||
    typ == blockString

/-- `block`. -/
structure Block (β : Type) where
  key : Key
  minTime : ℤ
  maxTime : ℤ
  typ : ℕ
  b : β
  tombstones : List TimeRange
  readMin : ℤ
  readMax : ℤ

variable {β α : Type}

def Block.overlapsTimeRange (b : Block β) (min max : ℤ) : Bool :=
  decide (b.minTime ≤ max) && decide (b.maxTime ≥ min)

def Block.read (b : Block β) : Bool := decide (b.readMin ≤ b.minTime) && decide (b.readMax ≥ b.maxTime)

def Block.markRead (b : Block β) (min max : ℤ) : Block β :=
  { b with
    readMin := if min < b.readMin then min else b.readMin
    readMax := if max > b.readMax then max else b.readMax }

def Block.partiallyRead (b : Block β) : Bool :=
  if b.readMin = maxInt64 ∧ b.readMax = minInt64 then false
  else decide (b.readMin ≠ b.minTime) || decide (b.readMax ≠ b.maxTime)

/-- `blocks.Less`. -/
def Block.less (x y : Block β) : Bool :=
  if x.key = y.key then decide (x.minTime < y.minTime) && decide (x.maxTime < y.minTime)
  else decide (x.key < y.key)

/-! ### Readers and block iterators -/

/-- An index entry together with the bytes of its block. -/
structure IndexedBlock (β : Type) where
  minTime : ℤ
  maxTime : ℤ
  b : β

/-- A key of a TSM index with its blocks. The writer never flushes an empty key and the reader
    refuses an index with a key that has no entries. -/
structure KeyEntry (β : Type) where
  key : Key
  typ : ℕ
  entries : List (IndexedBlock β)
  key_ne : key ≠ []
  entries_ne : entries ≠ []

/-- What a compaction sees of a `TSMReader`. -/
structure TSMReader (β : Type) where
  keys : List (KeyEntry β)
  tombstoneRange : Key → List TimeRange

/-- `BlockIterator`: `key`, `typ` and `entries` are those of the index iterator's current key,
    `rest` the keys it has not reached. -/
structure BlockIterator (β : Type) where
  r : TSMReader β
  key : Key
  typ : ℕ
  entries : List (IndexedBlock β)
  rest : List (KeyEntry β)

def TSMReader.blockIterator (r : TSMReader β) : BlockIterator β :=
  { r := r, key := [], typ := 0, entries := [], rest := r.keys }

variable (it : BlockIterator β)

/-- `PeekNext`; no next key is the empty byte string. -/
def BlockIterator.peekNext : Key :=
  if 1 < it.entries.length then it.key else (it.rest.head?.map (·.key)).getD []

/-- `Next`. -/
def BlockIterator.next : Bool × BlockIterator β :=
  match it.entries.tail with
  | e :: es => (true, { it with entries := e :: es })
  | [] =>
    match it.rest with
    | [] => (false, { it with entries := [] })
    | ke :: rest => (true, { it with key := ke.key, typ := ke.typ, entries := ke.entries, rest := rest })

/-- The block that `Read` describes, as `Next` of the key iterator sets it up. -/
def BlockIterator.block (e : IndexedBlock β) : Block β :=
  { key := it.key, minTime := e.minTime, maxTime := e.maxTime, typ := it.typ, b := e.b,
    tombstones := it.r.tombstoneRange it.key, readMin := maxInt64, readMax := minInt64 }

/-- Number of blocks the iterator still holds. -/
def BlockIterator.remaining : ℕ := it.entries.length + (it.rest.map (·.entries.length)).sum

/-- `for bytes.Equal(iter.PeekNext(), blockKey)`: append the further blocks of the same key. -/
def BlockIterator.readRun (blockKey : Key) :
    ℕ → BlockIterator β → List (Block β) → BlockIterator β × List (Block β)
  | 0, it, acc => (it, acc)
  | n + 1, it, acc =>
    if it.peekNext = blockKey then
      let it' := it.next.2
      match it'.entries with
      | e :: _ => BlockIterator.readRun blockKey n it' (acc ++ [it'.block e])
      | [] => (it', acc)
    else (it, acc)

/-- `iterators[i]` with `buf[i]`. -/
structure Source (β : Type) where
  iter : BlockIterator β
  buf : List (Block β)

/-- Read the next key's blocks of one TSM iterator when its buffer is empty. -/
def Source.fill (s : Source β) : Source β :=
  match s.buf with
  | _ :: _ => s
  | [] =>
    match s.iter.next with
    | (false, it) => { iter := it, buf := [] }
    | (true, it) =>
      match it.entries with
      | [] => { iter := it, buf := [] }
      | e :: _ =>
        let r := it.readRun it.key it.remaining [it.block e]
        { iter := r.1, buf := r.2 }

/-! ### The key iterator -/

/-- `tsmBatchKeyIterator`. -/
structure TsmBatchKeyIterator (β α : Type) where
  size : ℕ
  fast : Bool
  sources : List (Source β)
  key : Key
  typ : ℕ
  blocks : List (Block β)
  mergedValues : Values α
  merged : List (Block β)
  err : Option String

/-- `NewTSMBatchKeyIterator`. -/
def newTSMBatchKeyIterator (size : ℕ) (fast : Bool) (readers : List (TSMReader β)) : TsmBatchKeyIterator β α :=
  { size := size, fast := fast
    sources := readers.map fun r => { iter := r.blockIterator, buf := [] }
    key := [], typ := 0, blocks := [], mergedValues := [], merged := [], err := none }

variable (c : Codec β α) (k : TsmBatchKeyIterator β α)

/-- The block that `chunk` appends for a slice of merged values. -/
def encodedBlock (values : Values α) (cb : β) : Block β :=
  { key := k.key, minTime := values.minTime?.getD 0, maxTime := values.maxTime?.getD 0, typ := 0,
    b := cb, tombstones := [], readMin := 0, readMax := 0 }

/-- `chunk`: encode at most `size` of the merged values and append the block to `dst`. -/
def chunk (dst : List (Block β)) : TsmBatchKeyIterator β α :=
  if k.mergedValues.length > k.size then
    match c.encode k.typ (k.mergedValues.take k.size) with
    | .error e => { k with err := some e, merged := [] }
    | .ok cb =>
      { k with
        merged := dst ++ [encodedBlock k (k.mergedValues.take k.size) cb]
        mergedValues := k.mergedValues.drop k.size }
  else if k.mergedValues.length > 0 then
    match c.encode k.typ k.mergedValues with
    | .error e => { k with err := some e, merged := [] }
    | .ok cb => { k with merged := dst ++ [encodedBlock k k.mergedValues cb], mergedValues := [] }
  else { k with merged := dst }

/-- Adjust the window to one more block. -/
def adjustWindow (w : ℤ × ℤ) (b : Block β) : ℤ × ℤ :=
  if b.overlapsTimeRange w.1 w.2 && !b.read then
    let minTime := if b.minTime < w.1 then b.minTime else w.1
    let maxTime := if b.maxTime > minTime ∧ b.maxTime < w.2 then b.maxTime else w.2
    (minTime, maxTime)
  else w

/-- Decode every block that overlaps the window and merge its unread values of the window. The
    result has the error that stopped the loop, the mutated blocks and the merged values. -/
def readWindow (typ : ℕ) (minTime : ℤ) : ℤ → Values α → List (Block β) →
    Outcome (Option String × List (Block β) × Values α)
  | _, vals, [] => .returned (none, [], vals)
  | maxTime, vals, blk :: blks =>
    if !blk.overlapsTimeRange minTime maxTime || blk.read then
      (readWindow typ minTime maxTime vals blks).map fun r => (r.1, blk :: r.2.1, r.2.2)
    else
      match c.decode typ blk.b with
      | .error e => .returned (some e, blk :: blks, vals)
      | .ok v =>
        match v.maxTime? with
        | none => .panicked
        | some vmax =>
          -- the index may name another max time than the block has
          let maxTime := if blk.maxTime ≠ vmax ∧ maxTime = blk.maxTime then vmax else maxTime
          let v := (v.exclude blk.readMin blk.readMax).include minTime maxTime
          let blk := { blk with maxTime := vmax }
          let blk :=
            match v.minTime?, v.maxTime? with
            | some lo, some hi => blk.markRead lo hi
            | _, _ => blk
          (readWindow typ minTime maxTime (vals.merge (excludeTombstones blk.tombstones v)) blks).map
            fun r => (r.1, blk :: r.2.1, r.2.2)

/-- `combine(true)`: decode window by window until `size` values are merged. -/
def combineDedup : ℕ → TsmBatchKeyIterator β α → Outcome (TsmBatchKeyIterator β α)
  | 0, _ => .running
  | fuel + 1, k =>
    if k.mergedValues.length < k.size ∧ k.blocks ≠ [] then
      match k.blocks.dropWhile (·.read) with
      | [] => .returned (chunk c { k with blocks := [] } [])
      | first :: rest =>
        let w := (first :: rest).foldl adjustWindow (first.minTime, first.maxTime)
        (readWindow c k.typ w.1 w.2 k.mergedValues (first :: rest)).bind fun
          | (some e, bs, vs) =>
            .returned { k with err := some e, merged := [], blocks := bs, mergedValues := vs }
          | (none, bs, vs) => combineDedup fuel { k with blocks := bs, mergedValues := vs }
    else .returned (chunk c k [])

/-- The leading unread blocks that are already full, and the blocks after them. -/
def passFull (size : ℕ) : List (Block β) → Outcome (List (Block β) × List (Block β))
  | [] => .returned ([], [])
  | b :: bs =>
    if b.read then passFull size bs
    else
      match c.blockCount b.b with
      | none => .panicked
      | some n =>
        if n ≥ size then (passFull size bs).map fun r => (b :: r.1, r.2)
        else .returned ([], b :: bs)

/-- Decode blocks that do not overlap until `size` values are merged: the error, the blocks gone
    through, the blocks left and the merged values. -/
def decodeRest (typ size : ℕ) : Values α → List (Block β) →
    Outcome (Option String × List (Block β) × List (Block β) × Values α)
  | vals, [] => .returned (none, [], [], vals)
  | vals, b :: bs =>
    if vals.length < size then
      if b.read then (decodeRest typ size vals bs).map fun r => (r.1, b :: r.2.1, r.2.2)
      else
        match c.decode typ b.b with
        | .error e => .returned (some e, [], b :: bs, vals)
        | .ok v =>
          match v.maxTime? with
          | none => .panicked
          | some vmax =>
            let b := { b with maxTime := vmax }
            (decodeRest typ size (vals.merge (excludeTombstones b.tombstones v)) bs).map
              fun r => (r.1, b.markRead b.minTime b.maxTime :: r.2.1, r.2.2)
    else .returned (none, [], b :: bs, vals)

/-- The blocks that `combine(false)` uses as they are, and the blocks it has to decode. -/
def passThrough (fast : Bool) (full rest : List (Block β)) : List (Block β) × List (Block β) :=
  let r := if fast then (full ++ rest.filter (fun b => !b.read), []) else (full, rest)
  match r.2 with
  | [b] => (if b.read then r.1 else r.1 ++ [b], [])
  | _ => r

/-- `combine(false)`. -/
def combineFast : Outcome (TsmBatchKeyIterator β α) :=
  (passFull c k.size k.blocks).bind fun (full, rest) =>
    let p := passThrough k.fast full rest
    (decodeRest c k.typ k.size k.mergedValues p.2).bind fun
      | (some e, done, left, vals) =>
        .returned { k with
          err := some e, merged := [], mergedValues := vals
          blocks := k.blocks.take (k.blocks.length - p.2.length) ++ done ++ left }
      | (none, _, left, vals) =>
        .returned (chunk c { k with blocks := left, mergedValues := vals } (k.merged ++ p.1))

/-- The scan of `merge` for blocks that have to be deduplicated. -/
def needsDedup : List (Block β) → Bool
  | [] => false
  | [b] => !b.tombstones.isEmpty || b.partiallyRead
  | b :: b' :: bs =>
    !b.tombstones.isEmpty || b.partiallyRead || b'.overlapsTimeRange b.minTime b.maxTime ||
      needsDedup (b' :: bs)

/-- `mergeFloat` and its siblings. -/
def mergeTyped (fuel : ℕ) (k : TsmBatchKeyIterator β α) : Outcome (TsmBatchKeyIterator β α) :=
  if k.blocks = [] ∧ k.merged = [] ∧ k.mergedValues = [] then .returned k
  else
    let k := { k with blocks := insertionSort Block.less k.blocks }
    if k.mergedValues ≠ [] ∨ needsDedup k.blocks then combineDedup c fuel k else combineFast c k

/-- `merge`: dispatch on the block type. -/
def merge (fuel : ℕ) (k : TsmBatchKeyIterator β α) : Outcome (TsmBatchKeyIterator β α) :=
  if isBlockType k.typ then mergeTyped c fuel k
  else .returned { k with err := some "unknown block type" }

/-- One more buffer in the search for the smallest key. -/
def minKeyStep (m : Key × ℕ) (s : Source β) : Key × ℕ :=
  match s.buf with
  | [] => m
  | b :: _ => if m.1 = [] ∨ b.key < m.1 then (b.key, b.typ) else m

/-- The smallest key at the head of the buffers, with the type of its first block. -/
def minKeyOf (sources : List (Source β)) : Key × ℕ := sources.foldl minKeyStep ([], 0)

/-- Does the buffer hold blocks of `key`? -/
def Source.holds (s : Source β) (key : Key) : Bool :=
  match s.buf with
  | [] => false
  | b :: _ => decide (b.key = key)

/-- Fill the buffers, find the smallest key and move its blocks to `k.blocks`. -/
def gather : TsmBatchKeyIterator β α :=
  let sources := k.sources.map Source.fill
  let m := minKeyOf sources
  { k with
    key := m.1, typ := m.2
    blocks := k.blocks ++ (sources.filter (·.holds m.1)).flatMap (·.buf)
    sources := sources.map fun s => if s.holds m.1 then { s with buf := [] } else s }

/-- Are merged blocks or values available? -/
def hasMerged : Bool := !k.merged.isEmpty || !k.mergedValues.isEmpty

/-- The part of an iteration of `Next` before new blocks are read: `inl` returns true. -/
def drainPending (fuel : ℕ) (k : TsmBatchKeyIterator β α) :
    Outcome (TsmBatchKeyIterator β α ⊕ TsmBatchKeyIterator β α) :=
  let k := { k with merged := k.merged.tail }
  if k.merged ≠ [] then .returned (.inl k)
  else
    -- merged values pending?
    (if k.mergedValues ≠ [] then merge c fuel k else .returned k).bind fun k' =>
      if k.mergedValues ≠ [] ∧ hasMerged k' then .returned (.inl k')
      else
        -- blocks left from the last read?
        (if k'.blocks ≠ [] then merge c fuel k' else .returned k').bind fun k'' =>
          if k'.blocks ≠ [] ∧ hasMerged k'' then .returned (.inl k'') else .returned (.inr k'')

/-- One pass of `Next` from `RETRY` on: `inl` is a return, `inr` the state at `goto RETRY`. -/
def nextPass (fuel : ℕ) (k : TsmBatchKeyIterator β α) :
    Outcome ((Bool × TsmBatchKeyIterator β α) ⊕ TsmBatchKeyIterator β α) :=
  (drainPending c fuel k).bind fun
    | .inl k => .returned (.inl (true, k))
    | .inr k =>
      let k := gather k
      if k.blocks = [] then .returned (.inl (false, k))
      else
        (merge c fuel k).bind fun k =>
          if k.merged = [] then .returned (.inr k) else .returned (.inl (true, k))

/-- `Next`: the `RETRY` loop. -/
def next : ℕ → TsmBatchKeyIterator β α → Outcome (Bool × TsmBatchKeyIterator β α)
  | 0, _ => .running
  | fuel + 1, k =>
    (nextPass c fuel k).bind fun
      | .inl r => .returned r
      | .inr k => next fuel k

/-- What `Read` returns. -/
structure Emitted (β : Type) where
  key : Key
  minTime : ℤ
  maxTime : ℤ
  b : Option β
  err : Option String

/-- `Read`. -/
def TsmBatchKeyIterator.read : Emitted β :=
  match k.merged with
  | [] => { key := [], minTime := 0, maxTime := 0, b := none, err := k.err }
  | b :: _ => { key := b.key, minTime := b.minTime, maxTime := b.maxTime, b := some b.b, err := k.err }

/-- Draining the iterator: `Next` and `Read` until `Next` is false. -/
def drain : ℕ → TsmBatchKeyIterator β α → List (Emitted β) → Outcome (List (Emitted β))
  | 0, _, _ => .running
  | fuel + 1, k, out =>
    (next c fuel k).bind fun
      | (true, k) => drain fuel k (out ++ [k.read])
      | (false, _) => .returned out

end Compact

end InfluxDB.Tsm
