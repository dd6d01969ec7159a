import InfluxDB.Lib.FinMap
import InfluxDB.Tsi.DropMeasurement

/-!
    The cache of the series of tag values, and the calls of the index that use it.

    A lookup that misses reads the partitions one after the other and then puts the union into the cache.
    Writes change a partition first and afterwards repeat the change in the sets that are cached.  Calls run
    at the same time; what is atomic is a single access to a partition or to the cache.  Goroutines of a call
    do their parts in any order.  A call is kept as what is left of it.
-/

namespace InfluxDB.Tsi

open Lib Models

/-- The tuple of a name, a key and a value. -/
structure TagTuple where
  name : Bytes
  key : Bytes
  value : Bytes
  deriving DecidableEq

/-! ### The cache -/

structure TagValueSeriesIDCache where
  /-- The elements of the eviction list, by their numbers, with their sets. -/
  cache : FinMap TagTuple (ℕ × Finset ℕ)
  /-- The most recently used element is in front. -/
  evictor : List (ℕ × TagTuple)
  /-- The number of the next element. -/
  next : ℕ
  capacity : ℕ

namespace TagValueSeriesIDCache

def new (capacity : ℕ) : TagValueSeriesIDCache := { cache := ∅, evictor := [], next := 0, capacity := capacity }

variable (c : TagValueSeriesIDCache) (t : TagTuple)

/-- The set of a tuple, without an access. -/
def peek : Option (Finset ℕ) := (c.cache.lookup t).map Prod.snd

def moveToFront (l : List (ℕ × TagTuple)) (e : ℕ) : List (ℕ × TagTuple) :=
  (l.filter fun x => x.1 = e) ++ l.filter fun x => x.1 ≠ e

def get : Option (Finset ℕ) × TagValueSeriesIDCache :=
  match c.cache.lookup t with
  | some (e, ss) => (some ss, { c with evictor := moveToFront c.evictor e })
  | none => (none, c)

/-- Change the set of a tuple if it is cached. -/
def modify (f : Finset ℕ → Finset ℕ) : TagValueSeriesIDCache :=
  match c.cache.lookup t with
  | some (e, ss) => { c with cache := c.cache.insert t (e, f ss) }
  | none => c

/-- `measurementContainsSets` is not asked before: no set of the measurement is changed then. -/
def addToSet (x : ℕ) : TagValueSeriesIDCache := c.modify t (insert x)

def delete (x : ℕ) : TagValueSeriesIDCache := c.modify t fun ss => ss.erase x

/-- The least recently used item is evicted if the cache is too big. -/
def checkEviction : TagValueSeriesIDCache :=
  if c.evictor.length ≤ c.capacity then c
  else
    match c.evictor.getLast? with
    | none => c
    | some e => { c with evictor := c.evictor.dropLast, cache := c.cache.erase e.2 }

def put (ss : Finset ℕ) : TagValueSeriesIDCache :=
  if (c.cache.lookup t).isSome then c
  else
    checkEviction { c with
      cache := c.cache.insert t (c.next, ss)
      evictor := (c.next, t) :: c.evictor
      next := c.next + 1 }

/-- The elements stay in the eviction list. -/
def deleteMeasurement (name : Bytes) : TagValueSeriesIDCache :=
  { c with cache := FinMap.filterMap (fun t v => if t.name = name then none else some v) c.cache }

variable {c : TagValueSeriesIDCache} {t t' : TagTuple} {ss ss' : Finset ℕ}

theorem get_fst : (c.get t).1 = c.peek t := by
  rw [get, peek]
  cases c.cache.lookup t with
  | none => rfl
  | some v => rfl

theorem peek_get : (c.get t).2.peek t' = c.peek t' := by
  rw [get]
  cases c.cache.lookup t with
  | none => rfl
  | some v => rfl

theorem peek_modify (f : Finset ℕ → Finset ℕ) :
    (c.modify t f).peek t' = if t' = t then (c.peek t).map f else c.peek t' := by
  rw [modify, peek, peek]
  cases hlookup : c.cache.lookup t with
  | none =>
    split_ifs with ht
    · rw [ht, hlookup]; rfl
    · rfl
  | some v =>
    rw [FinMap.lookup_insert_eq]
    split_ifs with ht
    · rfl
    · rfl

theorem peek_checkEviction (h : c.checkEviction.peek t = some ss) : c.peek t = some ss := by
  rw [checkEviction] at h
  split_ifs at h
  · exact h
  · cases hlast : c.evictor.getLast? with
    | none => rwa [hlast] at h
    | some e =>
      rw [hlast] at h
      by_cases ht : t = e.2
      · rw [peek, ht, AList.lookup_erase] at h
        cases h
      · rwa [peek, AList.lookup_erase_ne ht] at h

/-- What is cached after a put was cached before, or is what was put. -/
theorem peek_put (h : (c.put t ss).peek t' = some ss') : c.peek t' = some ss' ∨ t' = t ∧ ss' = ss := by
  rw [put] at h
  split_ifs at h
  · exact .inl h
  · have h := peek_checkEviction h
    rw [peek, FinMap.lookup_insert_eq] at h
    split_ifs at h with ht
    · exact .inr ⟨ht, (Option.some.inj h).symm⟩
    · exact .inl h

theorem peek_deleteMeasurement (name : Bytes) :
    (c.deleteMeasurement name).peek t = if t.name = name then none else c.peek t := by
  rw [deleteMeasurement, peek, FinMap.lookup_filterMap, peek]
  split_ifs
  all_goals
    cases c.cache.lookup t with
    | none | some v => rfl

end TagValueSeriesIDCache

/-! ### Partitions -/

/-- The tuples of a series. -/
def SeriesKey.tuples (key : SeriesKey) : List TagTuple := key.tags.map fun t => ⟨key.name, t.key, t.value⟩

namespace Partition

/-- `TagValueSeriesIDIterator`, as the set of its ids. -/
def tagValueSeriesIDs (p : Partition) (t : TagTuple) : Finset ℕ := p.fileSet.tagValueSeriesIDs t.name t.key t.value

def measurementHasSeries (p : Partition) (name : Bytes) : Bool :=
  p.fileSet.any fun f => decide (∃ id ∈ f.measurementSeriesIDs name, id ∈ p.seriesIDSet)

/-- Roll-overs and compactions. -/
def Op.Maintenance : Op → Prop
  | .createSeriesListIfNotExists _ => False
  | .dropSeries _ _ => False
  | .dropMeasurement _ _ => False
  | _ => True

end Partition

/-! ### The index -/

/-- What the index takes from elsewhere. -/
structure Env where
  /-- The hash of a key, modulo the number of partitions. -/
  partitionIdx : Bytes → ℕ
  parseKeyBytes : Bytes → SeriesKey
  /-- The key that the series file has for an id. -/
  keyOf : ℕ → SeriesKey

/-- What calls share. -/
structure Shared where
  partitions : List Partition
  cache : TagValueSeriesIDCache

namespace Shared

/-- The index is opened for the first time. -/
def new (partitionN levels capacity : ℕ) : Shared where
  partitions := List.replicate partitionN (.new levels)
  cache := .new capacity

/-- `tagValueSeriesIDIterator` with the cache disabled. -/
def uncachedSeriesIDs (s : Shared) (t : TagTuple) : Finset ℕ :=
  (s.partitions.map fun p => p.tagValueSeriesIDs t).foldr (· ∪ ·) ∅

/-- `tagValueSeriesIDIterator`, when no other call comes between. -/
def cachedSeriesIDs (s : Shared) (t : TagTuple) : Finset ℕ :=
  match (s.cache.get t).1 with
  | some ss => ss
  | none => s.uncachedSeriesIDs t

end Shared

/-- `FilterUndeletedSeriesIDIterator`. -/
def filterUndeleted (deleted : ℕ → Bool) (ss : Finset ℕ) : Finset ℕ := ss.filter fun id => deleted id = false

/-- What is left of a call. -/
inductive Call where
  /-- The collections of the partitions that are not done, and sets that have to be updated. -/
  | create (todo : List (ℕ × List (ℕ × SeriesKey))) (adds : List (TagTuple × ℕ))
  | dropSeries (id : ℕ) (key : Bytes) (cascade : Bool)
  /-- Sets that the series has to be deleted from. -/
  | deleteSets (id : ℕ) (name : Bytes) (pairs : List TagTuple)
  /-- The first partitions have no series of the measurement. -/
  | hasSeries (name : Bytes) (n : ℕ)
  /-- The partitions that are not done, and whether the cache is. -/
  | dropMeasurement (name : Bytes) (todo : List ℕ) (cleared : Bool)
  | get (t : TagTuple)
  /-- The first partitions are read. -/
  | read (t : TagTuple) (n : ℕ) (ss : Finset ℕ)

inductive Request where
  | createSeriesListIfNotExists (collection : List (Bytes × ℕ × SeriesKey))
  | dropSeries (id : ℕ) (key : Bytes) (cascade : Bool)
  | dropMeasurement (name : Bytes)
  | tagValueSeriesIDIterator (t : TagTuple)

namespace Request

/-- Series of a collection have the ids and keys of the series file. -/
def Consistent (env : Env) : Request → Prop
  | .createSeriesListIfNotExists collection => ∀ s ∈ collection, s.2.2 = env.keyOf s.2.1
  | _ => True

/-- The call of a request, in an index with a number of partitions. -/
def call (env : Env) (partitionN : ℕ) : Request → Call
  | .createSeriesListIfNotExists collection =>
    .create ((List.range partitionN).map fun idx =>
      (idx, (collection.filter fun s => env.partitionIdx s.1 = idx).map Prod.snd)) []
  | .dropSeries id key cascade => .dropSeries id key cascade
  | .dropMeasurement name => .dropMeasurement name (List.range partitionN) false
  | .tagValueSeriesIDIterator t => .get t

end Request

/-- The sets that have to be updated for new series. -/
def addsOf (created : List (ℕ × SeriesKey)) : List (TagTuple × ℕ) :=
  created.flatMap fun s => s.2.tuples.map fun t => (t, s.1)

/-- What a step of a call accesses. -/
inductive Access where
  | partition (idx : ℕ)
  | get (t : TagTuple)
  | put (t : TagTuple)
  | addToSet (t : TagTuple) (id : ℕ)
  | delete (t : TagTuple) (id : ℕ)
  | deleteMeasurement (name : Bytes)
  /-- Nothing that is shared: the call goes over to its next part, or ends. -/
  | silent

/-- A call makes a step: what is shared changes, and the call goes on or ends. -/
inductive Move (env : Env) (sfile : SeriesFile) : Shared → Call → Access → Shared → List Call → Prop where
  | create (pre : List Partition) (p : Partition) (post : List Partition) (cache : TagValueSeriesIDCache)
      (l l' : List (ℕ × List (ℕ × SeriesKey))) (collection : List (ℕ × SeriesKey))
        (adds : List (TagTuple × ℕ)) :
      Move env sfile ⟨pre ++ p :: post, cache⟩ (.create (l ++ (pre.length, collection) :: l') adds)
        (.partition pre.length) ⟨pre ++ p.createSeriesListIfNotExists collection :: post, cache⟩
        [.create (l ++ l') (adds ++ addsOf (p.created collection))]
  | addToSet (s : Shared) (todo : List (ℕ × List (ℕ × SeriesKey))) (l l' : List (TagTuple × ℕ)) (t : TagTuple)
      (id : ℕ) :
      Move env sfile s (.create todo (l ++ (t, id) :: l')) (.addToSet t id)
        { s with cache := s.cache.addToSet t id } [.create todo (l ++ l')]
  | created (s : Shared) : Move env sfile s (.create [] []) .silent s []
  | dropSeries (pre : List Partition) (p : Partition) (post : List Partition) (cache : TagValueSeriesIDCache) (id : ℕ)
      (key : Bytes) (cascade : Bool) (hidx : env.partitionIdx key = pre.length) :
      Move env sfile ⟨pre ++ p :: post, cache⟩ (.dropSeries id key cascade) (.partition pre.length)
        ⟨pre ++ p.dropSeries sfile id :: post, cache⟩
        (if cascade then [.deleteSets id (env.parseKeyBytes key).name (env.parseKeyBytes key).tuples] else [])
  | delete (s : Shared) (id : ℕ) (name : Bytes) (l l' : List TagTuple) (t : TagTuple) :
      Move env sfile s (.deleteSets id name (l ++ t :: l')) (.delete t id)
        { s with cache := s.cache.delete t id } [.deleteSets id name (l ++ l')]
  | deleted (s : Shared) (id : ℕ) (name : Bytes) :
      Move env sfile s (.deleteSets id name []) .silent s [.hasSeries name 0]
  | hasSeries (pre : List Partition) (p : Partition) (post : List Partition) (cache : TagValueSeriesIDCache)
      (name : Bytes) (hp : p.measurementHasSeries name = true) :
      Move env sfile ⟨pre ++ p :: post, cache⟩ (.hasSeries name pre.length) (.partition pre.length)
        ⟨pre ++ p :: post, cache⟩ []
  | hasNoSeries (pre : List Partition) (p : Partition) (post : List Partition) (cache : TagValueSeriesIDCache)
      (name : Bytes) (hp : p.measurementHasSeries name = false) :
      Move env sfile ⟨pre ++ p :: post, cache⟩ (.hasSeries name pre.length) (.partition pre.length)
        ⟨pre ++ p :: post, cache⟩ [.hasSeries name (pre.length + 1)]
  | cascade (s : Shared) (name : Bytes) :
      Move env sfile s (.hasSeries name s.partitions.length) .silent s
        [.dropMeasurement name (List.range s.partitions.length) false]
  | dropMeasurement (pre : List Partition) (p : Partition) (post : List Partition) (cache : TagValueSeriesIDCache)
      (name : Bytes) (l l' : List ℕ) (cleared : Bool) :
      Move env sfile ⟨pre ++ p :: post, cache⟩ (.dropMeasurement name (l ++ pre.length :: l') cleared)
        (.partition pre.length) ⟨pre ++ p.dropMeasurement sfile name :: post, cache⟩
        [.dropMeasurement name (l ++ l') cleared]
  | deleteMeasurement (s : Shared) (name : Bytes) (todo : List ℕ) :
      Move env sfile s (.dropMeasurement name todo false) (.deleteMeasurement name)
        { s with cache := s.cache.deleteMeasurement name } [.dropMeasurement name todo true]
  | dropped (s : Shared) (name : Bytes) : Move env sfile s (.dropMeasurement name [] true) .silent s []
  | hit (s : Shared) (t : TagTuple) (ss : Finset ℕ) (hget : (s.cache.get t).1 = some ss) :
      Move env sfile s (.get t) (.get t) { s with cache := (s.cache.get t).2 } []
  | miss (s : Shared) (t : TagTuple) (hget : (s.cache.get t).1 = none) :
      Move env sfile s (.get t) (.get t) { s with cache := (s.cache.get t).2 } [.read t 0 ∅]
  | read (pre : List Partition) (p : Partition) (post : List Partition) (cache : TagValueSeriesIDCache) (t : TagTuple)
      (ss : Finset ℕ) :
      Move env sfile ⟨pre ++ p :: post, cache⟩ (.read t pre.length ss) (.partition pre.length)
        ⟨pre ++ p :: post, cache⟩ [.read t (pre.length + 1) (ss ∪ p.tagValueSeriesIDs t)]
  | put (s : Shared) (t : TagTuple) (ss : Finset ℕ) :
      Move env sfile s (.read t s.partitions.length ss) (.put t) { s with cache := s.cache.put t ss } []

/-- An index with the calls that are not finished. -/
structure Index where
  shared : Shared
  calls : List Call

/-- What happens next to an index. -/
inductive Act where
  | start (r : Request)
  | move (c : Call) (a : Access) (sfile : SeriesFile)
  | maintain (idx : ℕ) (op : Partition.Op)

namespace Index

inductive Step (env : Env) : Index → Act → Index → Prop where
  | start (i : Index) (r : Request) (hr : r.Consistent env) :
      Step env i (.start r) { i with calls := r.call env i.shared.partitions.length :: i.calls }
  | move (s s' : Shared) (l l' : List Call) (c : Call) (a : Access) (cs : List Call) (sfile : SeriesFile)
      (hsfile : ∀ id key, sfile id = some key → key = env.keyOf id) (h : Move env sfile s c a s' cs) :
      Step env ⟨s, l ++ c :: l'⟩ (.move c a sfile) ⟨s', l ++ cs ++ l'⟩
  | maintain (pre : List Partition) (p : Partition) (post : List Partition) (cache : TagValueSeriesIDCache)
      (calls : List Call) (op : Partition.Op) (hop : op.Maintenance) :
      Step env ⟨⟨pre ++ p :: post, cache⟩, calls⟩ (.maintain pre.length op)
        ⟨⟨pre ++ p.step op :: post, cache⟩, calls⟩

/-- Runs whose steps meet a condition. -/
inductive Runs (env : Env) (ok : Index → Act → Prop) : Index → Index → Prop where
  | refl (i : Index) : Runs env ok i i
  | step {i j k : Index} {a : Act} (h : Runs env ok i j) (hok : ok j a) (hstep : Step env j a k) : Runs env ok i k

end Index

end InfluxDB.Tsi
