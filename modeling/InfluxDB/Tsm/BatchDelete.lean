import InfluxDB.Tsm.Reader

/-!
    Batch deletes and the mutex that a reader holds for one.  `BatchDelete` takes the mutex, `Commit`
    and `Rollback` both give it back.  `FileStore.DeleteRange` rolls back after any error, also after
    a failed commit, which has given the mutexes back already.
-/

namespace InfluxDB.Tsm.BatchDelete

open Lib

/-- A `sync.Mutex` under the calls of one goroutine at a time.  `misused` stands for an unlock of an
unlocked mutex, which ends the process, and for a second lock, which waits for ever. -/
inductive Mutex where | unlocked | locked | misused
  deriving DecidableEq

def Mutex.lock : Mutex → Mutex
  | .unlocked => .locked
  | _ => .misused

def Mutex.unlock : Mutex → Mutex
  | .locked => .unlocked
  | _ => .misused

/-- The calls into the tombstone writer; each may fail, and leaves a state either way. -/
structure TombstoneWriter (ω : Type*) where
  addRange : List Bytes → ℤ → ℤ → ω → Option String × ω
  flush : ω → Option String × ω
  applyTombstones : ω → Option String × ω
  rollback : ω → Option String × ω

/-- A reader of the file store; the time and key bounds of its index do not change. -/
structure Reader (ω : Type*) where
  index : IndirectIndex
  tombstoner : ω
  deleteMu : Mutex

variable {ω : Type*} (w : TombstoneWriter ω)

namespace Reader

/-- `BatchDelete`. -/
def batchDelete (r : Reader ω) : Reader ω := { r with deleteMu := r.deleteMu.lock }

def deleteRange (keys : List Bytes) (minTime maxTime : ℤ) (r : Reader ω) : Option String × Reader ω :=
  if keys.length = 0 then (none, r)
  else if !r.index.overlapsKeyRange (keys.headD []) (keys.getLastD []) then (none, r)
  else if !r.index.overlapsTimeRange minTime maxTime then (none, r)
  else ((w.addRange keys minTime maxTime r.tombstoner).1,
    { r with tombstoner := (w.addRange keys minTime maxTime r.tombstoner).2 })

/-- `Commit`; the mutex is given back on every exit. -/
def commit (r : Reader ω) : Option String × Reader ω :=
  let flushed := w.flush r.tombstoner
  let applied := if flushed.1.isSome then flushed else w.applyTombstones flushed.2
  (applied.1, { r with tombstoner := applied.2, deleteMu := r.deleteMu.unlock })

def rollback (r : Reader ω) : Option String × Reader ω :=
  ((w.rollback r.tombstoner).1, { r with tombstoner := (w.rollback r.tombstoner).2, deleteMu := r.deleteMu.unlock })

end Reader

/-- A call of `BatchDeleters`: the operation on every batch, and an error if one failed.  The batches
are those of the readers whose times overlap the range. -/
def eachBatch (min max : ℤ) (op : Reader ω → Option String × Reader ω) (rs : List (Reader ω)) :
    Option String × List (Reader ω) :=
  (((rs.filter fun r => r.index.overlapsTimeRange min max).filterMap fun r => (op r).1).getLast?,
    rs.map fun r => if r.index.overlapsTimeRange min max then (op r).2 else r)

/-- The batches of a call after its deletes were recorded. -/
def recorded (keys : List Bytes) (min max : ℤ) (files : List (Reader ω)) : Option String × List (Reader ω) :=
  eachBatch min max (Reader.deleteRange w keys min max) (eachBatch min max (fun r => (none, r.batchDelete)) files).2

/-- `FileStore.DeleteRange`. -/
def fileStoreDeleteRange (keys : List Bytes) (min max : ℤ) (files : List (Reader ω)) :
    Option String × List (Reader ω) :=
  let deleted := recorded w keys min max files
  let ended := if deleted.1.isSome then deleted else eachBatch min max (Reader.commit w) deleted.2
  if ended.1.isSome then (ended.1, (eachBatch min max (Reader.rollback w) ended.2).2) else ended

/-! ### One call -/

variable {w} {keys : List Bytes} {min max : ℤ} {files rs : List (Reader ω)}
  {op : Reader ω → Option String × Reader ω} (r : Reader ω) {m : Mutex}

/-- Every mutex is free. -/
def Released (rs : List (Reader ω)) : Prop := ∀ r ∈ rs, r.deleteMu = .unlocked

/-- The readers with a batch have the mutex in the state, the others are free. -/
def Batches (min max : ℤ) (m : Mutex) (rs : List (Reader ω)) : Prop :=
  ∀ r ∈ rs, r.deleteMu = if r.index.overlapsTimeRange min max then m else .unlocked

theorem Batches.eachBatch {m' : Mutex} (h : Batches min max m rs)
    (hindex : ∀ r, (op r).2.index = r.index) (hop : ∀ r : Reader ω, r.deleteMu = m → (op r).2.deleteMu = m') :
    Batches min max m' (eachBatch min max op rs).2 := by
  intro r hr
  obtain ⟨r, hmem, rfl⟩ := List.mem_map.mp hr
  have := h r hmem
  by_cases hov : r.index.overlapsTimeRange min max <;> simp_all

theorem index_deleteRange : (r.deleteRange w keys min max).2.index = r.index := by
  unfold Reader.deleteRange
  split_ifs <;> rfl

theorem deleteMu_deleteRange : (r.deleteRange w keys min max).2.deleteMu = r.deleteMu := by
  unfold Reader.deleteRange
  split_ifs <;> rfl

theorem eachBatch_isSome :
    (eachBatch min max op rs).1.isSome ↔ ∃ r ∈ rs, r.index.overlapsTimeRange min max ∧ (op r).1.isSome := by
  simp [eachBatch, and_assoc]

/-- Recording the deletes fails, or all commits behind it succeed. -/
def NoFailedCommit (w : TombstoneWriter ω) (keys : List Bytes) (min max : ℤ) (files : List (Reader ω)) : Prop :=
  (recorded w keys min max files).1.isSome ∨
    ∀ r ∈ (recorded w keys min max files).2, r.index.overlapsTimeRange min max → (r.commit w).1 = none

theorem Released.recorded (h : Released files) : Batches min max .locked (recorded w keys min max files).2 := by
  have hopen : Batches min max .locked (eachBatch min max (fun r => (none, r.batchDelete)) files).2 :=
    Batches.eachBatch (m := .unlocked) (fun r hr => by simp [h r hr]) (fun _ => rfl) fun r hr => by
      simp [Reader.batchDelete, hr, Mutex.lock]
  exact hopen.eachBatch index_deleteRange fun r hr => (deleteMu_deleteRange r).trans hr

theorem Batches.released (h : Batches min max .unlocked rs) : Released rs := fun r hr => by simp [h r hr]

/-- Giving back the mutexes of the batches. -/
theorem Batches.commit (h : Batches min max m rs) :
    Batches min max m.unlock (BatchDelete.eachBatch min max (Reader.commit w) rs).2 :=
  h.eachBatch (fun _ => rfl) fun r hr => by simp [Reader.commit, hr]

theorem Batches.rollback (h : Batches min max m rs) :
    Batches min max m.unlock (BatchDelete.eachBatch min max (Reader.rollback w) rs).2 :=
  h.eachBatch (fun _ => rfl) fun r hr => by simp [Reader.rollback, hr]

/-- A call gives every mutex back exactly once unless a commit fails. -/
theorem Released.deleteRange_iff (h : Released files) :
    Released (fileStoreDeleteRange w keys min max files).2 ↔ NoFailedCommit w keys min max files := by
  have hlocked : Batches min max .locked (BatchDelete.recorded w keys min max files).2 := h.recorded
  simp only [fileStoreDeleteRange, NoFailedCommit]
  generalize BatchDelete.recorded w keys min max files = d at hlocked ⊢
  by_cases hadd : d.1.isSome
  · simp [hadd, hlocked.rollback.released]
  · simp only [hadd, false_or, if_neg, Bool.false_eq_true, not_false_eq_true]
    have hcommit := hlocked.commit (w := w)
    split_ifs with herr
    · -- The commits gave the mutexes back, and the rollback does so again.
      obtain ⟨r, hr, hov, hfail⟩ := eachBatch_isSome.mp herr
      refine iff_of_false (fun hrel => ?_) fun hok => by simp [hok r hr hov] at hfail
      have hmem := List.mem_map_of_mem (f := fun r => if r.index.overlapsTimeRange min max then (r.rollback w).2 else r)
        (List.mem_map_of_mem (f := fun r => if r.index.overlapsTimeRange min max then (r.commit w).2 else r) hr)
      have hmis := hcommit.rollback (w := w) _ hmem
      rw [hrel _ hmem] at hmis
      simp [hov, Reader.commit, Reader.rollback, Mutex.unlock] at hmis
    · refine iff_of_true hcommit.released fun r hr hov => ?_
      simpa using fun hfail => herr (eachBatch_isSome.mpr ⟨r, hr, hov, hfail⟩)

/-! ### Sequences of calls -/

/-- The readers after calls of `FileStore.DeleteRange`. -/
def run (w : TombstoneWriter ω) (files : List (Reader ω)) (calls : List (List Bytes × ℤ × ℤ)) :
    List (Reader ω) :=
  calls.foldl (fun files call => (fileStoreDeleteRange w call.1 call.2.1 call.2.2 files).2) files

/-- The mutexes are free between all calls exactly if they are at first and no call has a failed commit. -/
theorem released_run_iff (w : TombstoneWriter ω) (calls : List (List Bytes × ℤ × ℤ)) (files : List (Reader ω)) :
    (∀ n, Released (run w files (calls.take n))) ↔ Released files ∧ ∀ n, ∀ call ∈ calls[n]?,
      NoFailedCommit w call.1 call.2.1 call.2.2 (run w files (calls.take n)) := by
  induction calls generalizing files with
  | nil => simp [run]
  | cons call calls ih =>
    rw [← Nat.and_forall_add_one, ← Nat.and_forall_add_one (p := fun n => ∀ call ∈ _, _)]
    refine and_congr_right fun hfiles : Released files => ?_
    have hrest := ih (fileStoreDeleteRange w call.1 call.2.1 call.2.2 files).2
    rw [hfiles.deleteRange_iff] at hrest
    simpa [run] using hrest

/-- A file with points of one key. -/
def oneKeyFile (min max : ℤ) : Reader Unit :=
  { index := indexOf [⟨[97], 1, [⟨min, max, 5, 40⟩]⟩], tombstoner := (), deleteMu := .unlocked }

/-- A flush that fails, with two files: the rollback unlocks the unlocked mutex of the file with points in the range. -/
theorem failed_flush_unlocks_twice :
    let w : TombstoneWriter Unit :=
      ⟨fun _ _ _ t => (none, t), fun t => (some "disk full", t), fun t => (none, t), fun t => (none, t)⟩
    (fileStoreDeleteRange w [[97]] 2 5 [oneKeyFile 0 10, oneKeyFile 20 30]).2.map Reader.deleteMu =
      [.misused, .unlocked] := by
  decide +kernel

end InfluxDB.Tsm.BatchDelete
