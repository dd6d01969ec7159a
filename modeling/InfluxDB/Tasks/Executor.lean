import InfluxDB.Lib.Trace

/-!
    `task/backend/executor/executor.go`: promises of task runs, the queue they wait in, the registry of
    those not fulfilled yet, and the workers that fulfill them.  Callers queue a promise, register it
    and start a worker if a slot is free; a worker goes on until it finds the queue empty, and gives
    its slot back some time later.
-/

namespace InfluxDB.Tasks.Executor

open Lib List Function

/-- Where a call of `PromisedExecute`, `ManualRun` or `ResumeCurrentRun` is. -/
inductive Call where | idle | sending (p : ℕ) | storing (p : ℕ) | starting
  deriving DecidableEq

/-- What a slot of `workerLimit` is taken by: nothing, a worker at one of its steps, or one that has
left its loop and not given the slot back yet. -/
inductive Worker where | off | fetching | limiting (p : ℕ) | executing (p : ℕ) | deleting (p : ℕ) | leaving
  deriving DecidableEq

/-- Promises are numbered as they are created; `runOf` is the run a promise is for, `closed` counts the
closes of its done channel, `canceled` is its context. -/
structure State (C R : Type*) (n : ℕ) where
  promiseQueue : List ℕ
  currentPromises : R → Option ℕ
  runOf : ℕ → R
  next : ℕ
  closed : ℕ → ℕ
  canceled : ℕ → Bool
  callers : C → Call
  workers : Fin n → Worker

/-- How the check against the limits ends: below them, above them for another second, or with the
context of the promise done. -/
inductive LimitResult where | pass | wait | stop

inductive Step (C R : Type*) (n : ℕ) where
  /-- A run was created or started by hand. -/
  | call (c : C) (r : R)
  /-- The `Load` of `ResumeCurrentRun`. -/
  | resume (c : C) (r : R)
  /-- A manual run whose task is not found, which starts a worker all the same. -/
  | failed (c : C)
  | send (c : C)
  | store (c : C)
  | start (c : C) (w : Fin n)
  | skip (c : C)
  | cancel (r : R)
  /-- The caller's context is done, and with it that of the promise. -/
  | cancelContext (p : ℕ)
  | fetch (w : Fin n)
  | limit (w : Fin n) (res : LimitResult)
  | close (w : Fin n)
  | delete (w : Fin n)
  | leave (w : Fin n)

variable {C R : Type*} {n : ℕ}

section

variable [DecidableEq C] [DecidableEq R]

namespace State

def setCaller (s : State C R n) (c : C) (v : Call) : State C R n := { s with callers := update s.callers c v }

def setWorker (s : State C R n) (w : Fin n) (v : Worker) : State C R n := { s with workers := update s.workers w v }

def createPromise (s : State C R n) (c : C) (r : R) : State C R n :=
  { s.setCaller c (.sending s.next) with runOf := update s.runOf s.next r, next := s.next + 1 }

def closeDone (s : State C R n) (p : ℕ) : State C R n := { s with closed := update s.closed p (s.closed p + 1) }

/-- A step whose call or worker is elsewhere does nothing; a send on the full queue waits. -/
def step (cap : ℕ) (s : State C R n) : Step C R n → State C R n
  | .call c r => if s.callers c = .idle then s.createPromise c r else s
  | .resume c r => if s.callers c = .idle ∧ s.currentPromises r = none then s.createPromise c r else s
  | .failed c => if s.callers c = .idle then s.setCaller c .starting else s
  | .send c =>
    match s.callers c with
    | .sending p =>
      if s.promiseQueue.length < cap
        then { s.setCaller c (.storing p) with promiseQueue := s.promiseQueue ++ [p] } else s
    | _ => s
  | .store c =>
    match s.callers c with
    | .storing p => { s.setCaller c .starting with currentPromises := update s.currentPromises (s.runOf p) (some p) }
    | _ => s
  | .start c w => if s.callers c = .starting ∧ s.workers w = .off
      then (s.setCaller c .idle).setWorker w .fetching else s
  | .skip c => if s.callers c = .starting ∧ ∀ w, s.workers w ≠ .off then s.setCaller c .idle else s
  | .cancel r =>
    match s.currentPromises r with
    | some p => { s with canceled := update s.canceled p true }
    | none => s
  | .cancelContext p => { s with canceled := update s.canceled p true }
  | .fetch w =>
    match s.workers w, s.promiseQueue with
    | .fetching, [] => s.setWorker w .leaving
    | .fetching, p :: rest => { s.setWorker w (.limiting p) with promiseQueue := rest }
    | _, _ => s
  | .limit w res =>
    match s.workers w, res with
    | .limiting p, .pass => s.setWorker w (.executing p)
    | .limiting p, .stop => if s.canceled p then (s.closeDone p).setWorker w .leaving else s
    | _, _ => s
  | .close w =>
    match s.workers w with
    | .executing p => (s.closeDone p).setWorker w (.deleting p)
    | _ => s
  | .delete w =>
    match s.workers w with
    | .deleting p => { s.setWorker w .fetching with currentPromises := update s.currentPromises (s.runOf p) none }
    | _ => s
  | .leave w => if s.workers w = .leaving then s.setWorker w .off else s

def run (cap : ℕ) (s : State C R n) (steps : List (Step C R n)) : State C R n := steps.foldl (step cap) s

/-- An executor without promises. -/
def new (r : R) : State C R n :=
  ⟨[], fun _ => none, fun _ => r, 0, fun _ => 0, fun _ => false, fun _ => .idle, fun _ => .off⟩

end State

/-! ### The invariant -/

/-- The worker will look at the queue again. -/
def Worker.Active (v : Worker) : Prop := v ≠ .off ∧ v ≠ .leaving

/-- The call will start a worker, or find all slots taken. -/
def Call.Starting (v : Call) : Prop := v = .starting ∨ ∃ p, v = .storing p

def Call.sends (p : ℕ) : Call → ℕ
  | .sending p' => if p' = p then 1 else 0
  | _ => 0

/-- Whether the worker holds the promise, with its done channel open. -/
def Worker.holds (p : ℕ) : Worker → ℕ
  | .limiting p' | .executing p' => if p' = p then 1 else 0
  | _ => 0

structure State.Inv [Fintype C] (s : State C R n) : Prop where
  /-- A promise that was created is in one place: with its caller, in the queue, with a worker, or done. -/
  places : ∀ p, s.promiseQueue.count p + ∑ c, (s.callers c).sends p + ∑ w, (s.workers w).holds p + s.closed p =
    min 1 (s.next - p)
  wake : s.promiseQueue ≠ [] → (∃ w, (s.workers w).Active) ∨ ∃ c, (s.callers c).Starting
  storing : ∀ c p, s.callers c = .storing p → p ∈ s.promiseQueue
  registered : ∀ r p, s.currentPromises r = some p → s.runOf p = r ∧ p < s.next ∧
    (s.closed p = 0 ∨ ∃ w, s.workers w = .deleting p)

/-- A promise is taken from the queue after it was registered; no context is found done while a worker
waits for the limits; and a call that finds all slots taken finds one of them by a worker that will
look at the queue again. -/
def Allowed (s : State C R n) : Step C R n → Prop
  | .fetch _ => ∀ p ∈ s.promiseQueue.head?, ∀ c, s.callers c ≠ .storing p
  | .limit w .stop => ∀ p, s.workers w = .limiting p → s.canceled p = false
  | .skip _ => ∃ w, (s.workers w).Active
  | _ => True

def AllAllowed (cap : ℕ) (s : State C R n) : List (Step C R n) → Prop
  | [] => True
  | l :: steps => Allowed s l ∧ AllAllowed cap (s.step cap l) steps

end

variable [Fintype C] {cap : ℕ} {s : State C R n} {c : C} {w : Fin n} {p : ℕ} {r : R}

theorem exists_update_of_ne {ι α : Type*} [DecidableEq ι] {f : ι → α} {i : ι} {v : α}
    {P : α → Prop} (hi : P (f i) → P v) (h : ∃ j, P (f j)) : ∃ j, P (update f i v j) := by
  obtain ⟨j, hj⟩ := h
  by_cases hij : j = i
  · exact ⟨i, by simpa using hi (hij ▸ hj)⟩
  · exact ⟨j, by rwa [update_of_ne hij]⟩

namespace State

/-- A worker that was not about to remove the promise does not matter to its registration. -/
theorem Inv.registered_update (h : s.Inv) (hr : s.currentPromises r = some p) (hdel : s.workers w ≠ .deleting p)
    (v : Worker) : s.runOf p = r ∧ p < s.next ∧
      (s.closed p = 0 ∨ ∃ w', update s.workers w v w' = .deleting p) := by
  obtain ⟨hrun, hlt, hopen⟩ := h.registered r p hr
  exact ⟨hrun, hlt, hopen.imp_right (exists_update_of_ne (P := (· = Worker.deleting p)) fun hw => absurd hw hdel)⟩

/-- A worker goes on with what it holds, or leaves with the queue empty. -/
theorem Inv.setWorker {v : Worker} (h : s.Inv) (hholds : ∀ p, v.holds p = (s.workers w).holds p)
    (hactive : (s.workers w).Active → v.Active ∨ s.promiseQueue = []) (hdel : ∀ p, s.workers w ≠ .deleting p) :
    (s.setWorker w v).Inv := by
  refine ⟨fun p => ?_, fun hne => ?_, h.storing, fun r p hr => ?_⟩
  · have hsum := sum_update_add (Worker.holds p) s.workers w v
    have hplaces := h.places p
    have hsame := hholds p
    simp only [State.setWorker]
    omega
  · exact (h.wake hne).imp_left (exists_update_of_ne fun ha => (hactive ha).resolve_right hne)
  · exact h.registered_update hr (hdel p) v

/-- A promise that is queued is not done. -/
theorem Inv.closed_of_mem (h : s.Inv) (hp : p ∈ s.promiseQueue) : s.closed p = 0 ∧ p < s.next := by
  have hplaces := h.places p
  have := count_pos_iff.mpr hp
  omega

theorem Inv.fetch {rest : List ℕ} (h : s.Inv) (hw : s.workers w = .fetching) (hq : s.promiseQueue = p :: rest)
    (hstored : ∀ c, s.callers c ≠ .storing p) : Inv { s.setWorker w (.limiting p) with promiseQueue := rest } := by
  refine ⟨fun p' => ?_, fun _ => .inl ⟨w, by simp [State.setWorker, Worker.Active]⟩,
    fun c p' hc => ?_, fun r p' hr => ?_⟩
  · have hplaces := h.places p'
    have := sum_update_add (Worker.holds p') s.workers w (.limiting p)
    rw [hw] at this
    change _ + 0 = _ + ite _ 1 0 at this
    simp only [hq, count_cons, beq_iff_eq] at hplaces
    simp only [State.setWorker]
    split_ifs at this hplaces ⊢ <;> omega
  · have hmem := h.storing c p' hc
    rw [hq] at hmem
    exact (mem_cons.mp hmem).resolve_left fun heq => hstored c (heq ▸ hc)
  · exact h.registered_update hr (by simp [hw]) _

theorem Inv.close (h : s.Inv) (hw : s.workers w = .executing p) : ((s.closeDone p).setWorker w (.deleting p)).Inv := by
  refine ⟨fun p' => ?_, fun _ => .inl ⟨w, by simp [State.setWorker, Worker.Active]⟩, h.storing,
    fun r p' hr => ?_⟩
  · have hplaces := h.places p'
    have := sum_update_add (Worker.holds p') s.workers w (.deleting p)
    rw [hw] at this
    change _ + ite _ 1 0 = _ + 0 at this
    simp only [State.setWorker, State.closeDone]
    by_cases heq : p = p'
    · subst heq
      rw [update_self]
      simp only [if_true] at this
      omega
    · rw [update_of_ne (Ne.symm heq)]
      simp only [heq, if_false] at this
      omega
  · obtain ⟨hrun, hlt, hopen⟩ := h.registered r p' hr
    refine ⟨hrun, hlt, ?_⟩
    by_cases heq : p' = p
    · exact .inr ⟨w, by simp [State.setWorker, heq]⟩
    · refine hopen.imp (fun h0 => ?_)
        (exists_update_of_ne (P := (· = Worker.deleting p')) (by simp [State.closeDone, hw]))
      exact (update_of_ne heq _ _).trans h0

theorem inv_new (r : R) : (new r : State C R n).Inv :=
  ⟨fun p => by simp [new, Call.sends, Worker.holds], by simp [new], by simp [new], by simp [new]⟩

section

variable [DecidableEq C] (h : s.Inv)
include h

/-- A call goes on after its send, leaving the queue to a worker. -/
theorem Inv.setCaller {v : Call} (hsends : ∀ p, v.sends p = (s.callers c).sends p)
    (hstart : (s.callers c).Starting → v.Starting ∨ ∃ w, (s.workers w).Active)
    (hstore : ∀ p, v ≠ .storing p) :
    (s.setCaller c v).Inv := by
  refine ⟨fun p => ?_, fun hne => ?_, fun c' p hc' => ?_, h.registered⟩
  · have hsum := sum_update_add (Call.sends p) s.callers c v
    have hplaces := h.places p
    have hsame := hsends p
    simp only [State.setCaller]
    omega
  · rcases h.wake hne with hw | hc
    · exact .inl hw
    · by_cases hw : ∃ w, (s.workers w).Active
      · exact .inl hw
      · exact .inr (exists_update_of_ne (fun hs => (hstart hs).resolve_right hw) hc)
  · simp only [State.setCaller, update_apply] at hc'
    split_ifs at hc' with heq
    · exact absurd hc' (hstore p)
    · exact h.storing c' p hc'

theorem Inv.createPromise (hc : s.callers c = .idle) : (s.createPromise c r).Inv := by
  have hsum := fun p => sum_update_add (Call.sends p) s.callers c (.sending s.next)
  refine ⟨fun p => ?_, fun hne => ?_, fun c' p hc' => ?_, fun r' p hr => ?_⟩
  · have hplaces := h.places p
    have := hsum p
    rw [hc] at this
    change _ + 0 = _ + ite _ 1 0 at this
    simp only [State.createPromise, State.setCaller]
    split_ifs at this <;> omega
  · refine (h.wake hne).imp_right (exists_update_of_ne ?_)
    simp [hc, Call.Starting]
  · simp only [State.createPromise, State.setCaller, update_apply] at hc'
    split_ifs at hc' with heq
    exact h.storing c' p hc'
  · obtain ⟨hrun, hlt, hopen⟩ := h.registered r' p hr
    refine ⟨?_, Nat.lt_succ_of_lt hlt, hopen⟩
    simpa [State.createPromise, update_apply, hlt.ne] using hrun

theorem Inv.send (hc : s.callers c = .sending p) :
    Inv { s.setCaller c (.storing p) with promiseQueue := s.promiseQueue ++ [p] } := by
  refine ⟨fun p' => ?_, fun _ => .inr ⟨c, .inr ⟨p, by simp [State.setCaller]⟩⟩,
    fun c' p' hc' => ?_, h.registered⟩
  · have hplaces := h.places p'
    have := sum_update_add (Call.sends p') s.callers c (.storing p)
    rw [hc] at this
    change _ + ite _ 1 0 = _ + 0 at this
    simp only [State.setCaller, count_append, count_singleton, beq_iff_eq]
    split_ifs at this ⊢ <;> omega
  · simp only [State.setCaller, update_apply] at hc'
    split_ifs at hc' with heq
    · simp [Call.storing.inj hc']
    · exact mem_append_left _ (h.storing c' p' hc')

variable [DecidableEq R]

theorem Inv.store (hc : s.callers c = .storing p) :
    Inv { s.setCaller c .starting with currentPromises := update s.currentPromises (s.runOf p) (some p) } := by
  have hset := h.setCaller (c := c) (v := .starting) (by simp [hc, Call.sends]) (fun _ => .inl (.inl rfl)) (by simp)
  refine ⟨hset.places, hset.wake, hset.storing, fun r' p' hr => ?_⟩
  simp only [update_apply] at hr
  split_ifs at hr with heq
  · obtain ⟨hopen, hlt⟩ := h.closed_of_mem (h.storing c p hc)
    cases hr
    exact ⟨heq.symm, hlt, .inl hopen⟩
  · exact h.registered r' p' hr

end

variable [DecidableEq R]

theorem Inv.delete (h : s.Inv) (hw : s.workers w = .deleting p) :
    Inv { s.setWorker w .fetching with currentPromises := update s.currentPromises (s.runOf p) none } := by
  refine ⟨fun p' => ?_, fun _ => .inl ⟨w, by simp [State.setWorker, Worker.Active]⟩, h.storing,
    fun r p' hr => ?_⟩
  · have hplaces := h.places p'
    have := sum_update_add (Worker.holds p') s.workers w .fetching
    rw [hw] at this
    change _ + 0 = _ + 0 at this
    simp only [State.setWorker]
    omega
  · simp only [update_apply] at hr
    split_ifs at hr with heq
    refine h.registered_update hr (fun hw' => ?_) _
    cases hw.symm.trans hw'
    exact heq (h.registered r p hr).1.symm

variable [DecidableEq C]

theorem Inv.step (h : s.Inv) {l : Step C R n} (hl : Allowed s l) : (s.step cap l).Inv := by
  cases l <;> simp only [State.step]
  case call c r =>
    split_ifs with hc
    · exact h.createPromise hc
    · exact h
  case resume c r =>
    split_ifs with hc
    · exact h.createPromise hc.1
    · exact h
  case failed c =>
    split_ifs with hc
    · exact h.setCaller (by simp [hc, Call.sends]) (fun _ => .inl (.inl rfl)) (by simp)
    · exact h
  case send c =>
    split
    next p hc =>
      split_ifs
      · exact h.send hc
      · exact h
    next => exact h
  case store c =>
    split
    next p hc => exact h.store hc
    next => exact h
  case start c w =>
    split_ifs with hs
    · have hw := h.setWorker (w := w) (v := .fetching) (by simp [hs.2, Worker.holds])
        (by simp [hs.2, Worker.Active]) (by simp [hs.2])
      refine hw.setCaller (c := c) (v := .idle) (by simp [State.setWorker, hs.1, Call.sends])
        (fun _ => .inr ⟨w, ?_⟩) (by simp)
      simp [State.setWorker, Worker.Active]
    · exact h
  case skip c =>
    split_ifs with hs
    · exact h.setCaller (by simp [hs.1, Call.sends]) (fun _ => .inr hl) (by simp)
    · exact h
  case cancel r =>
    split
    next => exact ⟨h.places, h.wake, h.storing, h.registered⟩
    next => exact h
  case cancelContext p => exact ⟨h.places, h.wake, h.storing, h.registered⟩
  case fetch w =>
    split
    next hw hq => exact h.setWorker (by simp [hw, Worker.holds]) (fun _ => .inr hq) (by simp [hw])
    next p rest hw hq => exact h.fetch hw hq (hl p (by rw [hq]; rfl))
    next => exact h
  case limit w res =>
    split
    next p hw => exact h.setWorker (by simp [hw, Worker.holds]) (by simp [Worker.Active]) (by simp [hw])
    next p hw =>
      rw [if_neg (by simp [hl p hw])]
      exact h
    next => exact h
  case close w =>
    split
    next p hw => exact h.close hw
    next => exact h
  case delete w =>
    split
    next p hw => exact h.delete hw
    next => exact h
  case leave w =>
    split_ifs with hw
    · exact h.setWorker (by simp [hw, Worker.holds]) (by simp [hw, Worker.Active]) (by simp [hw])
    · exact h

theorem Inv.run {steps : List (Step C R n)} (h : s.Inv) (hsteps : AllAllowed cap s steps) : (s.run cap steps).Inv := by
  induction steps generalizing s with
  | nil => exact h
  | cons l steps ih => exact ih (h.step hsteps.1) hsteps.2

end State

variable [DecidableEq C] [DecidableEq R]

/-- In every run whose steps are allowed, a done channel is closed at most once; a promise that is done is
not registered, unless its worker has closed it and is about to remove it; and when no call and no worker
runs, the queue is empty and every promise is done. -/
theorem executor_run (cap : ℕ) (r : R) (steps : List (Step C R n)) (h : AllAllowed cap (.new r) steps) :
    let s := (State.new r).run cap steps
    (∀ p, s.closed p ≤ 1) ∧
      (∀ p, 0 < s.closed p → (∀ w, s.workers w ≠ .deleting p) → ∀ r, s.currentPromises r ≠ some p) ∧
      ((∀ c, s.callers c = .idle) → (∀ w, s.workers w = .off) →
        s.promiseQueue = [] ∧ ∀ p < s.next, s.closed p = 1) := by
  intro s
  have hinv : s.Inv := (State.inv_new r).run h
  refine ⟨fun p => ?_, fun p hdone hworkers r hr => ?_, fun hcalls hworkers => ?_⟩
  · have := hinv.places p
    omega
  · obtain ⟨-, -, hopen | ⟨w, hw⟩⟩ := hinv.registered r p hr
    · omega
    · exact hworkers w hw
  · have hnil : s.promiseQueue = [] := by
      by_contra hne
      rcases hinv.wake hne with ⟨w, hw⟩ | ⟨c, hc⟩
      · exact hw.1 (hworkers w)
      · simp [hcalls c, Call.Starting] at hc
    refine ⟨hnil, fun p hp => ?_⟩
    have := hinv.places p
    simp only [hcalls, hworkers, hnil, Call.sends, Worker.holds, count_nil, Finset.sum_const_zero] at this
    omega

/-- One promise, from its call to the end of its worker. -/
theorem executor_run_one_promise :
    let steps : List (Step (Fin 1) ℕ 1) :=
      [.call 0 7, .send 0, .store 0, .start 0 0, .fetch 0, .limit 0 .pass, .close 0,
      .delete 0, .fetch 0, .leave 0]
    let s := (State.new 0).run 1 steps
    s.closed 0 = 1 ∧ (∀ r, s.currentPromises r ≠ some 0) ∧ s.promiseQueue = [] ∧
      ∀ p < s.next, s.closed p = 1 := by
  intro steps
  have hallowed : AllAllowed 1 (.new 0) steps := by
    refine ⟨trivial, trivial, trivial, trivial, ?_, trivial, trivial, trivial, ?_, trivial, trivial⟩
    · intro p _ c hc
      obtain rfl : c = 0 := Subsingleton.elim _ _
      cases hc
    · rintro _ ⟨⟩
  obtain ⟨-, hremoved, hquiet⟩ := executor_run 1 0 steps hallowed
  exact ⟨by decide, hremoved 0 (by decide) (by decide), hquiet (by decide) (by decide)⟩

/-- A promise that is queued after the last worker has found the queue empty, and before it has given
its slot back, stays in the queue; one that is canceled while it waits for the limits stays registered;
and every promise is registered for a moment after it was closed. -/
theorem promise_forgotten :
    let first : List (Step (Fin 1) ℕ 1) := [.call 0 7, .send 0, .store 0, .start 0 0, .fetch 0]
    let late := (State.new 0).run 1
      (first ++ [.limit 0 .pass, .close 0, .delete 0, .fetch 0, .call 0 8, .send 0, .store 0,
      .skip 0, .leave 0])
    let stopped := (State.new 0).run 1 (first ++ [.cancel 7, .limit 0 .stop, .leave 0])
    let closing := (State.new 0).run 1 (first ++ [.limit 0 .pass, .close 0])
    ((∀ c, late.callers c = .idle) ∧ (∀ w, late.workers w = .off) ∧ late.promiseQueue = [1] ∧
      late.closed 1 = 0) ∧ (stopped.closed 0 = 1 ∧ stopped.currentPromises 7 = some 0) ∧
      closing.closed 0 = 1 ∧ closing.currentPromises 7 = some 0 := by
  decide

/-! ### Running a query -/

/-- What `finish` records. -/
inductive RunStatus where | success | fail
  deriving DecidableEq

/-- The error of `finish`, by the step that failed. -/
inductive RunError (ε : Type*) where
  | fluxParse (err : ε)
  | query (err : ε)
  | runExecution (err : ε)
  | resultIterator (err : ε)

/-- A result of a query: how the reading of each of its tables ends, and how the iterator over them does. -/
structure Result (ε : Type*) where
  tables : List (Option ε)
  err : Option ε

/-- The results that a query delivers, and `Err` behind them. -/
structure ResultIterator (ε : Type*) where
  results : List (Result ε)
  err : Option ε

section Query

variable {ε π : Type*}

/-- `exhaustResultIterators`: the first table that fails ends the reading. -/
def exhaustResultIterators (res : Result ε) : Option ε := (res.tables.findSome? id).or res.err

/-- The loop over the results, which keeps one `runErr`. -/
def drainResults (it : ResultIterator ε) : Option ε := it.results.foldl (fun _ res => exhaustResultIterators res) none

variable (parse : Except ε π) (query : π → Except ε (ResultIterator ε))

/-- `executeQuery`, as its calls of `finish`. -/
def executeQuery : List (RunStatus × Option (RunError ε)) :=
  match parse with
  | .error err => [(.fail, some (.fluxParse err))]
  | .ok pkg =>
    match query pkg with
    | .error err => [(.fail, some (.query err))]
    | .ok it =>
      match drainResults it with
      | some err => [(.fail, some (.runExecution err))]
      | none =>
        match it.err with
        | some err => [(.fail, some (.resultIterator err))]
        | none => [(.success, none)]

/-- The query was started, and all of it was read without an error. -/
def Succeeds : Prop :=
  ∃ pkg it, parse = .ok pkg ∧ query pkg = .ok it ∧
    (∀ res ∈ it.results, exhaustResultIterators res = none) ∧ it.err = none

/-- A result failed, but neither the last one nor the iterator did. -/
def Forgets : Prop :=
  ∃ pkg it, parse = .ok pkg ∧ query pkg = .ok it ∧
    (∃ res ∈ it.results, exhaustResultIterators res ≠ none) ∧
    (∀ res ∈ it.results.getLast?, exhaustResultIterators res = none) ∧ it.err = none

theorem drainResults_eq_none (it : ResultIterator ε) :
    drainResults it = none ↔ ∀ res ∈ it.results.getLast?, exhaustResultIterators res = none := by
  rw [drainResults]
  rcases eq_nil_or_concat it.results with h | ⟨l, res, h⟩ <;> simp [h]

/-- A run is finished once, and as a success exactly if it was one, unless the error of a result is forgotten. -/
theorem executeQuery_truthful_iff :
    (∃ status err, executeQuery parse query = [(status, err)] ∧ (status = .success ↔ Succeeds parse query)) ↔
      ¬ Forgets parse query := by
  simp only [Forgets, Succeeds, executeQuery, ← drainResults_eq_none]
  cases parse with
  | error err => simp
  | ok pkg =>
    cases hquery : query pkg with
    | error err => simp [hquery]
    | ok it =>
      cases hdrain : drainResults it with
      | some err =>
        have hfails : ¬ ∀ res ∈ it.results, exhaustResultIterators res = none := fun hall => by
          rw [(drainResults_eq_none it).mpr fun res hres => hall res (mem_of_getLast? hres)] at hdrain
          cases hdrain
        simp [hquery, hdrain, hfails]
      | none => cases herr : it.err <;> simp [hquery, hdrain, herr]

/-- Of two results, the first fails. -/
theorem not_truthful_firstFails :
    let it : ResultIterator Unit := ⟨[⟨[some ()], none⟩, ⟨[], none⟩], none⟩
    executeQuery (.ok ()) (fun _ => .ok it) = [(.success, none)] ∧ ¬ Succeeds (.ok ()) fun _ => .ok it := by
  simp [executeQuery, drainResults, exhaustResultIterators, Succeeds]

end Query

end InfluxDB.Tasks.Executor
