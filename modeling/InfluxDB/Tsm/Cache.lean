import InfluxDB.Lib.Bytes
import InfluxDB.Lib.FinMap
import InfluxDB.Tsm.Values

/-!
    The in-memory cache of the engine: entries of values by series key, the snapshot that is being
    written to TSM files, and the deletes that go to the live entries.

    The ring spreads the entries over partitions by a hash of the key, so it is one map from keys to
    entries; the count that an entry keeps beside its values is their number.  The sizes are those of
    the trackers: a snapshot only ever has its snapshot size set.
-/

namespace InfluxDB.Tsm

open Lib

/-! ### Values and entries -/

/-- A `Value` without its time. -/
inductive Value where
  | float (bits : BitVec 64)
  | integer (v : ℤ)
  | unsigned (v : ℕ)
  | boolean (b : Bool)
  | string (s : Bytes)
  deriving DecidableEq

/-- The five types of values. -/
inductive Value.Kind where
  | float
  | integer
  | unsigned
  | boolean
  | string
  deriving DecidableEq

def Value.kind : Value → Value.Kind
  | .float _ => .float
  | .integer _ => .integer
  | .unsigned _ => .unsigned
  | .boolean _ => .boolean
  | .string _ => .string

/-- `Value.Size`. -/
def Value.size : Value → ℕ
  | .float _ => 16
  | .integer _ => 16
  | .unsigned _ => 16
  | .boolean _ => 9
  | .string s => 8 + s.length

/-- `Values.Size`. -/
def Values.size (a : Values Value) : ℕ := (a.map fun p => p.2.size).sum

/-- `valueType`, the type tag of an entry; it has no case for unsigned values. -/
def valueType : Value → ℕ
  | .float _ => 1
  | .integer _ => 2
  | .string _ => 3
  | .boolean _ => 4
  | _ => 0

theorem valueType_eq_iff (v w : Value) : valueType v = valueType w ↔ v.kind = w.kind := by
  cases v <;> cases w <;> simp [valueType, Value.kind]

inductive CacheError where
  | memorySizeLimitExceeded (size limit : ℕ)
  | fieldTypeConflict
  | snapshotInProgress
  deriving DecidableEq

/-- `entry`. -/
structure Entry where
  values : Values Value
  vtype : ℕ

namespace Entry

/-- `newEntryValues`. -/
def newEntryValues : Values Value → Except CacheError Entry
  | [] => .ok { values := [], vtype := 0 }
  | v :: values =>
    if (v :: values).any fun w => valueType v.2 ≠ valueType w.2 then .error .fieldTypeConflict
    else .ok { values := v :: values, vtype := valueType v.2 }

/-- `add`. -/
def add (e : Entry) : Values Value → Except CacheError Entry
  | [] => .ok e
  | v :: values =>
    if e.vtype ≠ 0 ∧ (v :: values).any fun w => e.vtype ≠ valueType w.2 then .error .fieldTypeConflict
    else if e.values.length = 0 then .ok { values := v :: values, vtype := valueType v.2 }
    else .ok { e with values := e.values ++ v :: values }

/-- `deduplicate`. -/
def deduplicate (e : Entry) : Entry := if e.values.length ≤ 1 then e else { e with values := e.values.deduplicate }

/-- `filter` removes the values between two times. -/
def filter (e : Entry) (min max : ℤ) : Entry :=
  let values := if e.values.length > 1 then e.values.deduplicate else e.values
  { e with values := values.exclude min max }

end Entry

/-! ### The ring -/

/-- `ring`. -/
abbrev CacheRing := FinMap Bytes Entry

namespace CacheRing

/-- What a write leaves at a key: the values go to the entry, or to a new one. -/
def writeEntry (e : Option Entry) (values : Values Value) : Except CacheError Entry :=
  match e with
  | some e => e.add values
  | none => Entry.newEntryValues values

/-- `write`: whether the key is new, and the ring with the values added. -/
def write (r : CacheRing) (key : Bytes) (values : Values Value) : Except CacheError (Bool × CacheRing) :=
  (writeEntry (r.lookup key) values).map fun e => ((r.lookup key).isNone, r.insert key e)

/-- `apply` of `deduplicate` to every entry. -/
def deduplicate (r : CacheRing) : CacheRing := FinMap.filterMap (fun _ e => some e.deduplicate) r

/-- Deduplicate the entry of one key. -/
def deduplicateKey (r : CacheRing) (key : Bytes) : CacheRing :=
  FinMap.filterMap (fun k e => some (if k = key then e.deduplicate else e)) r

/-- The values of a key. -/
def valuesAt (r : CacheRing) (key : Bytes) : Values Value := ((r.lookup key).map Entry.values).getD []

end CacheRing

/-! ### The cache -/

/-- A snapshot: its store, and the size recorded when it was taken. -/
structure Snapshot where
  store : CacheRing
  size : ℕ

/-- `Cache`. -/
structure Cache where
  store : CacheRing
  maxSize : ℕ
  snapshot : Option Snapshot
  snapshotting : Bool
  cacheSize : ℕ
  snapshotSize : ℕ

/-- `NewCache`. -/
def newCache (maxSize : ℕ) : Cache :=
  { store := ∅, maxSize, snapshot := none, snapshotting := false, cacheSize := 0, snapshotSize := 0 }

namespace Cache

variable (c : Cache)

/-- `Size`. -/
def size : ℕ := c.cacheSize + c.snapshotSize

/-- Whether a write of so many bytes would go over the limit. -/
def overLimit (addedSize : ℕ) : Bool := decide (c.maxSize > 0) && decide (c.size + addedSize > c.maxSize)

/-- `Write`. -/
def write (key : Bytes) (values : Values Value) : Option CacheError × Cache :=
  let addedSize := values.size
  if c.overLimit addedSize then (some (.memorySizeLimitExceeded (c.size + addedSize) c.maxSize), c)
  else
    match c.store.write key values with
    | .error err => (some err, c)
    | .ok (newKey, store) =>
      (none, { c with store, cacheSize := c.cacheSize + (addedSize + if newKey then key.length else 0) })

/-- The loop of `WriteMulti` over the keys, in the order in which the map is iterated: the last
error, the store, and the bytes added. -/
def writeKeys : List (Sigma fun _ : Bytes => Values Value) → CacheRing → Option CacheError → ℕ →
    Option CacheError × CacheRing × ℕ
  | [], store, werr, addedSize => (werr, store, addedSize)
  | ⟨k, v⟩ :: rest, store, werr, addedSize =>
    match store.write k v with
    | .error err => writeKeys rest store (some err) (addedSize - v.size)
    | .ok (newKey, store) => writeKeys rest store werr (addedSize + if newKey then k.length else 0)

/-- `WriteMulti`; an error for one key does not stop the others. -/
def writeMulti (values : FinMap Bytes (Values Value)) : Option CacheError × Cache :=
  let addedSize := FinMap.sumBy (fun _ v => v.size) values
  if c.overLimit addedSize then (some (.memorySizeLimitExceeded (c.size + addedSize) c.maxSize), c)
  else
    let (werr, store, addedSize) := writeKeys values.entries c.store none addedSize
    (werr, { c with store, cacheSize := c.cacheSize + addedSize })

/-- `Snapshot`. -/
def takeSnapshot : Except CacheError Snapshot × Cache :=
  if c.snapshotting then (.error .snapshotInProgress, c)
  else
    let prior := c.snapshot.getD { store := ∅, size := 0 }
    if prior.size > 0 then (.ok prior, { c with snapshotting := true, snapshot := some prior })
    else
      -- The stores are swapped, and the one that is live now is reset.
      let snapshot : Snapshot := { store := c.store, size := c.size }
      (.ok snapshot,
        { c with
          snapshotting := true, snapshot := some snapshot, store := ∅, cacheSize := 0,
          snapshotSize := c.size })

/-- `Deduplicate` of the snapshot. -/
def deduplicateSnapshot : Cache :=
  { c with snapshot := c.snapshot.map fun s => { s with store := s.store.deduplicate } }

/-- `ClearSnapshot`; without a snapshot there is nothing to dereference. -/
def clearSnapshot (success : Bool) : Option Cache :=
  c.snapshot.map fun _ =>
    if success then { c with snapshotting := false, snapshot := some { store := ∅, size := 0 }, snapshotSize := 0 }
    else { c with snapshotting := false }

/-- `Values`: the values of the key in the snapshot and in the live store, which are deduplicated in
place, under the order in which the live ones win. -/
def values (key : Bytes) : Values Value × Cache :=
  let c := { c with
    store := c.store.deduplicateKey key
    snapshot := c.snapshot.map fun s => { s with store := s.store.deduplicateKey key } }
  (Values.deduplicate ((c.snapshot.elim [] fun s => s.store.valuesAt key) ++ c.store.valuesAt key), c)

/-- The range of all times. -/
def AllTimes (min max : ℤ) : Prop := min = -2 ^ 63 ∧ max = 2 ^ 63 - 1

instance decidableAllTimes (min max : ℤ) : Decidable (AllTimes min max) := inferInstanceAs (Decidable (_ ∧ _))

/-- What `DeleteBucketRange` does to an entry: the entry that stays, if one does, and the bytes that
are freed. -/
def deleteFrom (name : Bytes) (min max : ℤ) (pred : Option (Bytes → Bool)) (k : Bytes) (e : Entry) :
    Option Entry × ℕ :=
  if e.values.length = 0 then (some e, 0)
  else if !name.isPrefixOf k then (some e, 0)
  else if pred.any fun p => !p k then (some e, 0)
  else if AllTimes min max then (none, e.values.size + k.length)
  else
    let e' := e.filter min max
    if e'.values.length = 0 then (none, e.values.size - e'.values.size + k.length)
    else (some e', e.values.size - e'.values.size)

/-- `DeleteBucketRange`: the entries in the store are changed; the snapshot is not. -/
def deleteBucketRange (name : Bytes) (min max : ℤ) (pred : Option (Bytes → Bool)) : Cache :=
  let total := FinMap.sumBy (fun k e => (deleteFrom name min max pred k e).2) c.store
  { c with
    store := FinMap.filterMap (fun k e => (deleteFrom name min max pred k e).1) c.store
    cacheSize := c.cacheSize - total }

end Cache

end InfluxDB.Tsm
