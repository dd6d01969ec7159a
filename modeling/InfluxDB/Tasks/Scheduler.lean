import Mathlib.Data.Int.Log
import Mathlib.Data.List.Sort
import Mathlib.Data.List.TakeWhile
import Mathlib.Data.Rat.Floor

/-! `task/backend/scheduler/treescheduler.go`: the scheduler that hands the runs of tasks to workers.

    The B-tree is the list of its items in their order. Times are in nanoseconds where the source has a
    `time.Time` and in seconds where it has Unix times. A log of the calls and of what was handed over
    is kept with the state, the newest first, to say what happened since a task was scheduled. -/

namespace InfluxDB.Tasks.Scheduler

open List Option Function

variable {ι : Type*} [LinearOrder ι]

/-- `Time.Unix`. -/
def unix (t : ℤ) : ℤ := t / 1000000000

/-- `time.Unix`. -/
def ofUnix (s : ℤ) : ℤ := s * 1000000000

/-! ### Seconds of a duration -/

/-- The nearest integer, and the even one of two. -/
def roundEven (q : ℚ) : ℤ :=
  let below := ⌊q⌋
  if q - below < 1 / 2 ∨ q - below = 1 / 2 ∧ Even below then below else below + 1

/-- The nearest `float64`: a significand of 53 bits, for numbers in the range of the normal ones. -/
def toFloat64 (q : ℚ) : ℚ :=
  let ulp : ℚ := 2 ^ (Int.log 2 |q| - 52)
  roundEven (q / ulp) * ulp

/-- `Duration.Seconds` of a duration in nanoseconds, and `int64` of it, which truncates. -/
def wholeSeconds (d : ℤ) : ℤ :=
  let seconds := toFloat64 (toFloat64 (d.tdiv 1000000000) + toFloat64 (toFloat64 (d.tmod 1000000000) / 1000000000))
  seconds.num.tdiv seconds.den

-- The sum is rounded, up to the next second where the seconds take 25 bits.
example : wholeSeconds 1999999999 = 1 ∧ wholeSeconds (-1999999999) = -1 ∧
    wholeSeconds 16777216999999999 = 16777217 := by
  decide +kernel

/-! ### The scheduler -/

/-- `Schedulable`; `schedule` is the `Next` of its schedule. -/
structure Schedulable (ι : Type*) where
  id : ι
  schedule : ℤ → Option ℤ
  offset : ℤ
  lastScheduled : ℤ

/-- `int64(sch.Offset().Seconds())`. -/
def Schedulable.offsetSeconds (sch : Schedulable ι) : ℤ := wholeSeconds sch.offset

/-- `Item`. -/
structure Item (ι : Type*) where
  when : ℤ
  id : ι
  cron : ℤ → Option ℤ
  next : ℤ
  offset : ℤ

namespace Item

/-- `Less`. -/
def less (a b : Item ι) : Prop := a.when < b.when ∨ a.when = b.when ∧ a.id < b.id

instance decidableLess (a b : Item ι) : Decidable (a.less b) := inferInstanceAs (Decidable (_ ∨ _))

/-- `updateNext`, or nothing if there is no next time. -/
def updateNext (it : Item ι) : Option (Item ι) :=
  (it.cron (ofUnix it.next)).map fun t => { it with next := unix t, when := unix t + it.offset }

end Item

/-- What a worker received, and when. -/
structure Handed where
  time : ℤ
  worker : ℕ
  now : ℤ

inductive Event (ι : Type*) where
  | scheduled (sch : Schedulable ι)
  | released (id : ι)
  | handed (id : ι) (h : Handed)

/-- `TreeScheduler`. -/
structure State (ι : Type*) where
  priorityQueue : List (Item ι)
  nextTime : ι → Option ℤ
  log : List (Event ι)

/-- `BTree.Delete` of the item with the time and the id. -/
def treeDelete (q : List (Item ι)) (when : ℤ) (id : ι) : List (Item ι) :=
  q.filter fun it => ¬ (it.when = when ∧ it.id = id)

/-- `BTree.ReplaceOrInsert`. -/
def replaceOrInsert (q : List (Item ι)) (it : Item ι) : List (Item ι) :=
  (treeDelete q it.when it.id).orderedInsert (fun a b => ¬ b.less a) it

variable (hash : ι → ℕ) (workers : ℕ)

namespace State

variable (s : State ι)

/-- Delete an item from the tree and the map. -/
def remove (it : Item ι) : State ι :=
  { s with
    nextTime := update s.nextTime it.id none
    priorityQueue := treeDelete s.priorityQueue it.when it.id }

/-- Insert an item into the tree and the map. -/
def place (it : Item ι) : State ι :=
  { s with
    nextTime := update s.nextTime it.id (some it.when)
    priorityQueue := replaceOrInsert s.priorityQueue it }

/-- `release`. -/
def release (id : ι) : State ι :=
  match s.nextTime id with
  | none => s
  | some when =>
    { s with
      priorityQueue := treeDelete s.priorityQueue when id
      nextTime := update s.nextTime id none }

/-- `Schedule`; it fails where there is no next time. -/
def schedule (sch : Schedulable ι) : State ι :=
  match sch.schedule sch.lastScheduled with
  | none => s
  | some t =>
    let it : Item ι := ⟨unix t + sch.offsetSeconds, sch.id, sch.schedule, unix t, sch.offsetSeconds⟩
    let queue := match s.nextTime it.id with
      | some when => treeDelete s.priorityQueue when it.id
      | none => s.priorityQueue
    { s with priorityQueue := queue, log := .scheduled sch :: s.log }.place it

/-- The items the iterator sends: those before the first that is not due yet, where the worker is free. -/
def sent (now : ℤ) (free : ι → Bool) : List (Item ι) :=
  (s.priorityQueue.takeWhile fun it => ofUnix (it.next + it.offset) ≤ now).filter fun it => free it.id

/-- `process`: the items that were sent are deleted, and inserted again with their next times. -/
def process (now : ℤ) (free : ι → Bool) : State ι :=
  let sent := s.sent now free
  { (sent.filterMap Item.updateNext).foldl place (sent.foldl remove s) with
    log := sent.foldl (fun log it => .handed it.id ⟨it.next, hash it.id % workers, now⟩ :: log) s.log }

end State

inductive Step (ι : Type*) where
  | schedule (sch : Schedulable ι)
  | release (id : ι)
  | process (now : ℤ) (free : ι → Bool)

def State.step (s : State ι) : Step ι → State ι
  | .schedule sch => s.schedule sch
  | .release id => { s.release id with log := .released id :: s.log }
  | .process now free => s.process hash workers now free

/-- The scheduler after steps from a new one. -/
def run (steps : List (Step ι)) : State ι := steps.foldl (State.step hash workers) ⟨[], fun _ => none, []⟩

/-! ### What happened to a task -/

/-- The last schedule of the task and what was handed over since, unless it was released. -/
def since (id : ι) : List (Event ι) → Option (Schedulable ι × List Handed)
  | [] => none
  | .scheduled sch :: log => if sch.id = id then some (sch, []) else since id log
  | .released id' :: log => if id' = id then none else since id log
  | .handed id' h :: log => (since id log).map fun p => if id' = id then (p.1, p.2 ++ [h]) else p

/-- The first values of the iteration of `Next` from a time on, as Unix times. -/
def FirstValues (next : ℤ → Option ℤ) : ℤ → List ℤ → Prop
  | _, [] => True
  | t, u :: us => (next t).map unix = some u ∧ FirstValues next (ofUnix u) us

theorem FirstValues.append {next : ℤ → Option ℤ} {u v : ℤ}
    (hv : (next (ofUnix u)).map unix = some v) {us : List ℤ} {t : ℤ}
    (h : FirstValues next t (us ++ [u])) : FirstValues next t (us ++ [u] ++ [v]) := by
  induction us generalizing t with
  | nil => exact ⟨h.1, hv, trivial⟩
  | cons w us ih => exact ⟨h.1, ih h.2⟩

variable {hash workers} {s : State ι} {it x : Item ι} {id : ι} {l : List (Item ι)} {now : ℤ}

/-- Several items are handed over; only those of the task count for it. -/
theorem since_foldl_handed (f : Item ι → Handed) (log : List (Event ι)) :
    since id (l.foldl (fun log it => .handed it.id (f it) :: log) log) =
      (since id log).map fun p => (p.1, p.2 ++ (l.filter (·.id = id)).map f) := by
  induction l generalizing log with
  | nil => simp
  | cons it l ih =>
    rw [foldl_cons, ih, since, Option.map_map]
    by_cases hid : it.id = id <;> simp [hid, comp_def]

/-! ### The queue and the map -/

theorem mem_treeDelete {q : List (Item ι)} {when : ℤ} :
    x ∈ treeDelete q when id ↔ x ∈ q ∧ ¬ (x.when = when ∧ x.id = id) := by
  simp [treeDelete, imp_iff_not_or]

/-- Each task is queued at most once, and the map has its due time. -/
structure Table (s : State ι) : Prop where
  unique : (s.priorityQueue.map Item.id).Nodup
  nextTime : ∀ id when, s.nextTime id = some when ↔ ∃ it ∈ s.priorityQueue, it.id = id ∧ it.when = when
  due : ∀ it ∈ s.priorityQueue, it.when = it.next + it.offset

section

variable (h : Table s)
include h

omit [LinearOrder ι] in
theorem Table.eq (hx : x ∈ s.priorityQueue) (hit : it ∈ s.priorityQueue) (hid : x.id = it.id) : x = it :=
  inj_on_of_nodup_map h.unique hx hit hid

theorem Table.mem_remove (hit : it ∈ s.priorityQueue) :
    x ∈ (s.remove it).priorityQueue ↔ x ∈ s.priorityQueue ∧ x.id ≠ it.id := by
  rw [State.remove, mem_treeDelete]
  refine and_congr_right fun hx => not_congr ⟨And.right, fun hid => ?_⟩
  rw [h.eq hx hit hid]
  exact ⟨rfl, rfl⟩

theorem Table.remove (hit : it ∈ s.priorityQueue) : Table (s.remove it) := by
  refine ⟨h.unique.sublist (filter_sublist.map _), fun id when => ?_,
    fun x hx => h.due x ((h.mem_remove hit).mp hx).1⟩
  simp only [h.mem_remove hit]
  by_cases hid : id = it.id
  · subst hid
    simp only [State.remove, update_self, reduceCtorEq, false_iff]
    rintro ⟨x, ⟨-, hne⟩, hid, -⟩
    exact hne hid
  · rw [show (s.remove it).nextTime id = s.nextTime id from update_of_ne hid _ _, h.nextTime]
    constructor
    · rintro ⟨x, hx, rfl, rfl⟩
      exact ⟨x, ⟨hx, hid⟩, rfl, rfl⟩
    · rintro ⟨x, ⟨hx, -⟩, rfl, rfl⟩
      exact ⟨x, hx, rfl, rfl⟩

omit h in
theorem place_queue_perm (hnew : ∀ x ∈ s.priorityQueue, x.id ≠ it.id) :
    (s.place it).priorityQueue.Perm (it :: s.priorityQueue) := by
  rw [State.place, replaceOrInsert, treeDelete, filter_eq_self.mpr fun x hx => by simp [hnew x hx]]
  exact perm_orderedInsert _ _ _

theorem Table.place (hnew : ∀ x ∈ s.priorityQueue, x.id ≠ it.id) (hdue : it.when = it.next + it.offset) :
    Table (s.place it) := by
  have hperm := place_queue_perm hnew
  refine ⟨?_, fun id when => ?_, fun x hx => ?_⟩
  · rw [(hperm.map _).nodup_iff, map_cons, nodup_cons]
    exact ⟨by simpa using hnew, h.unique⟩
  · simp only [hperm.mem_iff, mem_cons, exists_eq_or_imp]
    by_cases hid : id = it.id
    · subst hid
      simpa [State.place] using fun x hx hid => absurd hid (hnew x hx)
    · rw [show (s.place it).nextTime id = s.nextTime id from update_of_ne hid _ _, h.nextTime]
      simp [Ne.symm hid]
  · rcases mem_cons.mp (hperm.mem_iff.mp hx) with rfl | hx
    exacts [hdue, h.due x hx]

theorem Table.removeAll (hnodup : (l.map Item.id).Nodup) (hl : ∀ it ∈ l, it ∈ s.priorityQueue) :
    Table (l.foldl State.remove s) ∧
      ∀ x, x ∈ (l.foldl State.remove s).priorityQueue ↔
        x ∈ s.priorityQueue ∧ ∀ it ∈ l, x.id ≠ it.id := by
  induction l generalizing s with
  | nil => simp [h]
  | cons it l ih =>
    obtain ⟨hit, hl⟩ := forall_mem_cons.mp hl
    obtain ⟨hne, hnodup⟩ := nodup_cons.mp hnodup
    have hnext := ih (h.remove hit) hnodup
      fun x hx => (h.mem_remove hit).mpr ⟨hl x hx, fun hid => hne (hid ▸ mem_map_of_mem hx)⟩
    simp only [foldl_cons, h.mem_remove hit] at hnext ⊢
    refine ⟨hnext.1, fun x => ?_⟩
    rw [hnext.2, forall_mem_cons, and_assoc]

theorem Table.placeAll (hnodup : (l.map Item.id).Nodup) (hdue : ∀ it ∈ l, it.when = it.next + it.offset)
    (hnew : ∀ it ∈ l, ∀ x ∈ s.priorityQueue, x.id ≠ it.id) :
    Table (l.foldl State.place s) ∧ ∀ x, x ∈ (l.foldl State.place s).priorityQueue ↔
      x ∈ l ∨ x ∈ s.priorityQueue := by
  induction l generalizing s with
  | nil => simp [h]
  | cons it l ih =>
    obtain ⟨hit, hl⟩ := forall_mem_cons.mp hnew
    obtain ⟨hne, hnodup⟩ := nodup_cons.mp hnodup
    have hmem : ∀ x, x ∈ (s.place it).priorityQueue ↔ x = it ∨ x ∈ s.priorityQueue := by
      simp [(place_queue_perm hit).mem_iff]
    have hnext := ih (h.place hit (hdue it mem_cons_self)) hnodup (forall_mem_cons.mp hdue).2 ?_
    · refine ⟨hnext.1, fun x => ?_⟩
      rw [foldl_cons, hnext.2, hmem, mem_cons]
      tauto
    · intro y hy x hx
      rcases (hmem x).mp hx with rfl | hx
      exacts [fun hid => hne (hid ▸ mem_map_of_mem hy), hl y hy x hx]

theorem Table.release (id : ι) :
    Table (s.release id) ∧ ∀ x, x ∈ (s.release id).priorityQueue ↔ x ∈ s.priorityQueue ∧ x.id ≠ id := by
  rw [State.release]
  cases hwhen : s.nextTime id with
  | none =>
    refine ⟨h, fun x => ⟨fun hx => ⟨hx, fun hid => ?_⟩, And.left⟩⟩
    have := (h.nextTime id x.when).mpr ⟨x, hx, hid, rfl⟩
    simp [hwhen] at this
  | some when =>
    obtain ⟨it, hit, rfl, rfl⟩ := (h.nextTime id when).mp hwhen
    exact ⟨h.remove hit, fun x => h.mem_remove hit⟩

end

/-- The old item is deleted as a release does it. -/
theorem schedule_eq {sch : Schedulable ι} {t : ℤ} (ht : sch.schedule sch.lastScheduled = some t) :
    s.schedule sch = ({ s.release sch.id with log := .scheduled sch :: s.log } : State ι).place
      ⟨unix t + sch.offsetSeconds, sch.id, sch.schedule, unix t, sch.offsetSeconds⟩ := by
  rw [State.schedule, ht, State.release]
  cases hwhen : s.nextTime sch.id <;> simp [State.place, hwhen]

/-! ### Runs -/

/-- The handed times are the first values of the schedule, each at its worker and not before its time. -/
def Proper (hash : ι → ℕ) (workers : ℕ) (id : ι) (sch : Schedulable ι) (hs : List Handed) : Prop :=
  FirstValues sch.schedule sch.lastScheduled (hs.map Handed.time) ∧
    ∀ h ∈ hs, h.worker = hash id % workers ∧ ofUnix (h.time + sch.offsetSeconds) ≤ h.now

/-- A queued item has the schedule of its task, and the value after those that were handed over. -/
def Item.Awaits (it : Item ι) (p : Schedulable ι × List Handed) : Prop :=
  it.cron = p.1.schedule ∧ it.offset = p.1.offsetSeconds ∧
    FirstValues p.1.schedule p.1.lastScheduled (p.2.map Handed.time ++ [it.next])

structure Sound (hash : ι → ℕ) (workers : ℕ) (s : State ι) : Prop where
  table : Table s
  awaits : ∀ it ∈ s.priorityQueue, ∃ p, since it.id s.log = some p ∧ it.Awaits p
  proper : ∀ id p, since id s.log = some p → Proper hash workers id p.1 p.2

theorem Sound.release (h : Sound hash workers s) (id : ι) :
    Sound hash workers { s.release id with log := .released id :: s.log } := by
  obtain ⟨htable, hmem⟩ := h.table.release id
  refine ⟨⟨htable.1, htable.2, htable.3⟩, fun it hit => ?_, fun id' p hp => ?_⟩
  · obtain ⟨hit, hid⟩ := (hmem it).mp hit
    rw [since, if_neg hid.symm]
    exact h.awaits it hit
  · rw [since] at hp
    split_ifs at hp
    exact h.proper id' p hp

theorem Sound.schedule (h : Sound hash workers s) (sch : Schedulable ι) : Sound hash workers (s.schedule sch) := by
  cases ht : sch.schedule sch.lastScheduled with
  | none =>
    rw [State.schedule, ht]
    exact h
  | some t =>
    obtain ⟨htable, hmem⟩ := h.table.release sch.id
    rw [schedule_eq ht]
    generalize hit : (⟨unix t + sch.offsetSeconds, sch.id, sch.schedule, unix t, sch.offsetSeconds⟩ : Item ι) = it
    have hnew : ∀ x ∈ (s.release sch.id).priorityQueue, x.id ≠ it.id := by
      subst hit
      exact fun x hx => ((hmem x).mp hx).2
    have htable' : Table ({ s.release sch.id with log := .scheduled sch :: s.log } : State ι) :=
      ⟨htable.1, htable.2, htable.3⟩
    refine ⟨htable'.place hnew (by rw [← hit]), fun x hx => ?_, fun id p hp => ?_⟩
    · rcases mem_cons.mp ((place_queue_perm hnew).mem_iff.mp hx) with rfl | hx
      · subst hit
        exact ⟨_, if_pos rfl, rfl, rfl, by simp [FirstValues, ht]⟩
      · obtain ⟨hx, hid⟩ := (hmem x).mp hx
        exact (h.awaits x hx).imp fun p hp => ⟨(if_neg hid.symm).trans hp.1, hp.2⟩
    · rw [State.place, since] at hp
      split_ifs at hp
      · cases hp
        exact ⟨trivial, by simp⟩
      · exact h.proper id p hp

omit [LinearOrder ι] in
theorem updateNext_spec (hx : it.updateNext = some x) : x.id = it.id ∧ x.when = x.next + x.offset := by
  obtain ⟨t, -, rfl⟩ := map_eq_some_iff.mp hx
  exact ⟨rfl, rfl⟩

omit [LinearOrder ι] in
theorem Item.Awaits.next {p : Schedulable ι × List Handed} (h : it.Awaits p) (hx : it.updateNext = some x) (w : ℕ) :
    x.Awaits (p.1, p.2 ++ [⟨it.next, w, now⟩]) := by
  obtain ⟨t, ht, rfl⟩ := map_eq_some_iff.mp hx
  obtain ⟨hcron, hoffset, hvalues⟩ := h
  refine ⟨hcron, hoffset, ?_⟩
  rw [map_append]
  exact hvalues.append (by rw [← hcron, ht]; rfl)

omit [LinearOrder ι] in
/-- Every item that is sent is queued and due. -/
theorem mem_sent {free : ι → Bool} (hit : it ∈ s.sent now free) :
    it ∈ s.priorityQueue ∧ ofUnix (it.next + it.offset) ≤ now := by
  have hit := (mem_filter.mp hit).1
  exact ⟨(takeWhile_sublist _).subset hit, by simpa using mem_takeWhile_imp hit⟩

/-- A task has at most one of the items. -/
theorem filter_id_eq (hnodup : (l.map Item.id).Nodup) (hit : it ∈ l) : l.filter (·.id = it.id) = [it] := by
  induction l with
  | nil => simp at hit
  | cons a l ih =>
    obtain ⟨hne, hnodup⟩ := nodup_cons.mp hnodup
    rcases mem_cons.mp hit with rfl | hit
    · rw [filter_cons_of_pos (by simp), filter_eq_nil_iff.mpr fun x hx => ?_]
      exact fun hid => hne (of_decide_eq_true hid ▸ mem_map_of_mem hx)
    · rw [filter_cons_of_neg, ih hnodup hit]
      exact fun hid => hne (of_decide_eq_true hid ▸ mem_map_of_mem hit)

theorem Sound.process (h : Sound hash workers s) (now : ℤ) (free : ι → Bool) :
    Sound hash workers (s.process hash workers now free) := by
  have hsub : (s.sent now free).Sublist s.priorityQueue := filter_sublist.trans (takeWhile_sublist _)
  have hdue := fun it (hit : it ∈ s.sent now free) => mem_sent hit
  rw [State.process]
  generalize s.sent now free = sent at hsub hdue
  have hnodup := hsub.map Item.id |>.nodup h.table.unique
  obtain ⟨htable, hmem⟩ := h.table.removeAll hnodup fun it hit => hsub.subset hit
  have hnodup' : ((sent.filterMap Item.updateNext).map Item.id).Nodup := by
    refine pairwise_map.mpr ((pairwise_map.mp hnodup).filterMap _ fun a b hab x hx y hy => ?_)
    rwa [(updateNext_spec hx).1, (updateNext_spec hy).1]
  have hspec : ∀ y ∈ sent.filterMap Item.updateNext, ∃ it ∈ sent, y.id = it.id ∧
      y.when = y.next + y.offset := by
    intro y hy
    obtain ⟨it, hit, hy⟩ := mem_filterMap.mp hy
    exact ⟨it, hit, updateNext_spec hy⟩
  have hdue' : ∀ y ∈ sent.filterMap Item.updateNext, y.when = y.next + y.offset := by
    intro y hy
    obtain ⟨-, -, -, hy⟩ := hspec y hy
    exact hy
  obtain ⟨htable, hmem'⟩ := htable.placeAll hnodup' hdue' <| by
    intro y hy x hx
    obtain ⟨it, hit, hid, -⟩ := hspec y hy
    rw [hid]
    exact ((hmem x).mp hx).2 it hit
  have hawaits : ∀ it ∈ sent, ∃ p, since it.id s.log = some p ∧ it.Awaits p :=
    fun it hit => h.awaits it (hsub.subset hit)
  refine ⟨⟨htable.1, htable.2, htable.3⟩, fun x hx => ?_, fun id p' hp' => ?_⟩
  · rw [since_foldl_handed]
    rcases (hmem' x).mp hx with hx | hx
    · obtain ⟨it, hit, hx⟩ := mem_filterMap.mp hx
      obtain ⟨p, hp, hit'⟩ := hawaits it hit
      rw [(updateNext_spec hx).1, hp, filter_id_eq hnodup hit]
      exact ⟨_, rfl, hit'.next hx _⟩
    · obtain ⟨hx, hid⟩ := (hmem x).mp hx
      obtain ⟨p, hp, hx⟩ := h.awaits x hx
      rw [hp, filter_eq_nil_iff.mpr fun it hit => by simpa using (hid it hit).symm]
      exact ⟨_, rfl, by simpa using hx⟩
  · rw [since_foldl_handed] at hp'
    obtain ⟨p, hp, rfl⟩ := map_eq_some_iff.mp hp'
    obtain ⟨hvalues, hhanded⟩ := h.proper id p hp
    by_cases hid : ∃ it ∈ sent, it.id = id
    · obtain ⟨it, hit, rfl⟩ := hid
      obtain ⟨q, hq, -, hoffset, hnext⟩ := hawaits it hit
      obtain rfl : p = q := Option.some.inj (hp.symm.trans hq)
      rw [filter_id_eq hnodup hit]
      refine ⟨by simpa using hnext, forall_mem_append.mpr ⟨hhanded, ?_⟩⟩
      simpa [← hoffset] using (hdue it hit).2
    · simp only [not_exists, not_and] at hid
      rw [filter_eq_nil_iff.mpr fun it hit => by simpa using hid it hit]
      simpa [Proper] using h.proper id p hp

theorem Sound.steps (h : Sound hash workers s) (steps : List (Step ι)) :
    Sound hash workers (steps.foldl (State.step hash workers) s) := by
  induction steps generalizing s with
  | nil => exact h
  | cons l steps ih =>
    cases l with
    | schedule sch => exact ih (h.schedule sch)
    | release id => exact ih (h.release id)
    | process now free => exact ih (h.process now free)

end InfluxDB.Tasks.Scheduler
