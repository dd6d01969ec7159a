import Mathlib.Data.List.Basic

/-!
    `query/control/controller.go`: the life of a query, from its creation over compiling, queueing and
    executing to its end, while the caller may cancel it or declare it done at any time.  `Done` moves
    the query to its final state and cancels its context; whatever step of the controller comes next
    takes that for a cancellation by the caller, unless the results are being pumped already.  Once they
    are drained, `Done` keeps the error of the program, which was running in that context.
-/

namespace InfluxDB.Control

inductive QueryState where | created | compiling | queueing | executing | errored | finished | canceled
  deriving DecidableEq

def isFinishedState : QueryState → Bool
  | .canceled | .errored | .finished => true
  | _ => false

/-- The error of the context, or one of the controller, the compiler or the program. -/
inductive QueryError where | context | other (msg : String)
  deriving DecidableEq

/-- The step that the controller takes next for the query. -/
inductive Stage where
  | tryCompile | compile | tryQueue | send | dequeue | tryExec | start | pump | setErr (msg : String) | ended
  deriving DecidableEq

structure Query where
  state : QueryState := .created
  err : Option QueryError := none
  /-- The context of the query is done. -/
  ctxDone : Bool := false
  /-- How many times the channel of results was closed. -/
  closed : ℕ := 0
  stage : Stage := .tryCompile
  /-- The program was started. -/
  exec : Bool := false
  /-- The context ended while the program was running. -/
  interrupted : Bool := false
  /-- The caller holds the query, has called `Done`, has cancelled the query or its context. -/
  returned : Bool := false
  done : Bool := false
  canceledByCaller : Bool := false
  deriving DecidableEq

namespace Query

variable (q : Query)

def moveTo (new : QueryState) : Query :=
  { q with state := new, ctxDone := q.ctxDone || isFinishedState new }

/-- `transitionTo` from one given state to one that is not final. -/
def tryTransition (new current : QueryState) : Bool × Query :=
  if q.ctxDone then (false, q.moveTo .canceled)
  else if q.state = current then (true, q.moveTo new)
  else (false, q)

/-- A transition, and what the controller does when it fails. -/
def attempt (new current : QueryState) (next : Stage) (msg : String) : Query :=
  { (q.tryTransition new current).2 with
    stage := if (q.tryTransition new current).1 then next else .setErr msg }

def setErr (err : QueryError) : Query :=
  let q := if q.ctxDone then { q.moveTo .canceled with err := some .context }
    else { q.moveTo .errored with err := some err }
  { q with closed := q.closed + 1, stage := .ended }

/-- The next step of the controller, which succeeds or fails.  A failure of the compiler or the start
may also be a panic; one of the pump is, and its deferred close comes before the recovery. -/
def advance (ok : Bool) : Query :=
  match q.stage with
  | .tryCompile => q.attempt .compiling .created .compile "failed to transition query to compiling state"
  | .compile => { q with stage := if ok then .tryQueue else .setErr "compilation failed" }
  | .tryQueue => q.attempt .queueing .compiling .send "failed to transition query to queueing state"
  | .send => { q with stage := if ok then .dequeue else .setErr "queue length exceeded", returned := ok }
  | .dequeue => { q with stage := .tryExec }
  | .tryExec => q.attempt .executing .queueing .start "impossible state transition"
  | .start => { q with stage := if ok then .pump else .setErr "start", exec := ok, interrupted := ok && q.ctxDone }
  | .pump => { q with closed := q.closed + 1, stage := if ok then .ended else .setErr "panic" }
  | .setErr msg => q.setErr (.other msg)
  | .ended => q

/-- The context of the query ends; the program runs until the pump has ended. -/
def cancelContext : Query := { q with ctxDone := true, interrupted := q.interrupted || q.stage = .pump }

/-- The first part of `Done`, once and by the caller that holds the query. -/
def beginDone : Query :=
  if q.returned && !q.done then { (q.moveTo .finished).cancelContext with done := true } else q

/-- The rest of `Done`, when the results are drained: the error of the program is kept. -/
def endDone (err : Option QueryError) : Query :=
  if q.done && q.closed > 0 && q.exec && q.err.isNone then { q with err } else q

def cancel : Query := { q.cancelContext with canceledByCaller := true }

end Query

inductive QueryStep where
  | advance (ok : Bool)
  | beginDone
  | endDone (err : Option QueryError)
  | cancel

namespace Query

def step (q : Query) : QueryStep → Query
  | .advance ok => q.advance ok
  | .beginDone => q.beginDone
  | .endDone err => q.endDone err
  | .cancel => q.cancel

def run (q : Query) (steps : List QueryStep) : Query := steps.foldl step q

/-- The steps of a run meet a condition on the step and the state before it. -/
def Along (P : Query → QueryStep → Prop) (q : Query) : List QueryStep → Prop
  | [] => True
  | l :: steps => P q l ∧ (q.step l).Along P steps

/-- What is known of a program: its error is that of its context only if the context ended while it was
running, and it is one of those that report this. -/
def Answered (reports : Bool) (q : Query) : QueryStep → Prop
  | .endDone err => err = some .context → reports = true ∧ q.interrupted = true
  | _ => True

/-- The pump does not panic, and `Done` is called on a query that executes and whose pump has ended, or
has begun and the program does not report the end of its context. -/
def Allowed (reports : Bool) (q : Query) : QueryStep → Prop
  | .advance ok => q.stage = .pump → ok = true
  | .beginDone => q.state = .executing ∧ (q.stage = .ended ∨ q.stage = .pump ∧ reports = false)
  | _ => True

instance decidableAlong (P : Query → QueryStep → Prop) [∀ q l, Decidable (P q l)] :
    ∀ (q : Query) (steps : List QueryStep), Decidable (q.Along P steps)
  | _, [] => inferInstanceAs (Decidable True)
  | q, l :: steps =>
    have := decidableAlong P (q.step l) steps
    inferInstanceAs (Decidable (P q l ∧ (q.step l).Along P steps))

instance decidableAnswered (reports : Bool) (q : Query) : ∀ l, Decidable (q.Answered reports l)
  | .endDone err => inferInstanceAs (Decidable (err = some .context → reports = true ∧ q.interrupted = true))
  | .advance _ | .beginDone | .cancel => inferInstanceAs (Decidable True)

instance decidableAllowed (reports : Bool) (q : Query) : ∀ l, Decidable (q.Allowed reports l)
  | .advance ok => inferInstanceAs (Decidable (q.stage = .pump → ok = true))
  | .beginDone =>
    inferInstanceAs (Decidable (q.state = .executing ∧ (q.stage = .ended ∨ q.stage = .pump ∧ reports = false)))
  | .endDone _ | .cancel => inferInstanceAs (Decidable True)

/-! ### The invariant -/

/-- Before the pump: nothing is closed, `Done` was not called, and only the caller can have cancelled. -/
def Early (q : Query) : Prop := q.closed = 0 ∧ q.err = none ∧ q.done = false ∧ (q.ctxDone → q.canceledByCaller)

/-- A program that reports the end of its context was interrupted by the caller only. -/
def Calm (reports : Bool) (q : Query) : Prop := q.interrupted → reports → q.canceledByCaller

def Inv (q : Query) : Prop :=
  match q.stage with
  | .tryCompile => q.Early ∧ q.state = .created
  | .compile | .tryQueue => q.Early ∧ q.state = .compiling
  | .send | .dequeue | .tryExec => q.Early ∧ q.state = .queueing
  | .start => q.Early ∧ q.state = .executing
  | .setErr _ => q.Early ∧ (isFinishedState q.state → q.state = .canceled ∧ q.ctxDone)
  | .pump => q.closed = 0 ∧ q.err = none ∧
      (q.state = .executing ∧ q.done = false ∧ (q.ctxDone → q.canceledByCaller) ∨
        q.state = .finished ∧ q.done)
  | .ended => q.closed = 1 ∧ (q.err = some .context ∨ q.state = .canceled → q.canceledByCaller) ∧
      (q.done → q.state = .finished)

/-- A step keeps the invariant, and a final state. -/
def Keeps (q q' : Query) : Prop := q'.Inv ∧ (isFinishedState q.state → q'.state = q.state)

variable {q : Query}

/-- A transition that fails because of the context leaves the query canceled, for `setErr` to say so. -/
theorem Early.attempt {new current : QueryState} {next : Stage} {msg : String} (hq : q.Early)
    (hstate : q.state = current)
    (hcurrent : isFinishedState current = false) (hnew : isFinishedState new = false)
    (hnext : ∀ q' : Query, q'.Early → q'.state = new → q'.stage = next → q'.Inv) :
    q.Keeps (q.attempt new current next msg) := by
  refine ⟨?_, by simp [hstate, hcurrent]⟩
  cases hc : q.ctxDone with
  | true => simp_all [Query.attempt, tryTransition, moveTo, Inv, Early, isFinishedState]
  | false => apply hnext <;> simp_all [Query.attempt, tryTransition, moveTo, Early]

theorem Early.setErr (hq : q.Early)
    (hfinal : isFinishedState q.state → q.state = .canceled ∧ q.ctxDone) (msg : String) :
    q.Keeps (q.setErr (.other msg)) := by
  obtain ⟨hclosed, -, hdone, hctx⟩ := hq
  cases hc : q.ctxDone <;> simp_all [Keeps, Query.setErr, moveTo, Inv]
  exact fun hq => (hfinal hq).symm

theorem Inv.advance (h : q.Inv) {ok : Bool} (hl : q.stage = .pump → ok = true) : q.Keeps (q.advance ok) := by
  cases hstage : q.stage with
  | tryCompile | tryQueue | tryExec =>
    simp only [Inv, Query.advance, hstage] at h ⊢
    exact h.1.attempt h.2 rfl rfl fun q' hq' hs hst => by simp [Inv, hst, hq', hs]
  | setErr msg =>
    simp only [Inv, Query.advance, hstage] at h ⊢
    exact h.1.setErr h.2 msg
  | pump =>
    simp only [Inv, Query.advance, Keeps, hstage] at h ⊢
    obtain ⟨hclosed, herr, ⟨hstate, hdone, -⟩ | ⟨hstate, -⟩⟩ := h <;> simp_all
  | compile | send | start | dequeue | ended =>
    cases ok <;> simp_all [Inv, Query.advance, Keeps, Early, isFinishedState]

theorem Inv.beginDone (h : q.Inv) (hl : q.state = .executing ∧ (q.stage = .ended ∨ q.stage = .pump)) :
    q.Keeps q.beginDone := by
  obtain ⟨hstate, hstage | hstage⟩ := hl <;>
    simp only [Inv, Keeps, Query.beginDone, cancelContext, hstage, hstate, isFinishedState, moveTo] at h ⊢ <;>
    split_ifs <;> simp_all

theorem Inv.endDone (h : q.Inv) {err : Option QueryError} (herr : err = some .context → q.canceledByCaller = true) :
    q.Keeps (q.endDone err) := by
  unfold Query.endDone
  split_ifs with hready
  · -- Only the last stage has the channel closed.
    cases hstage : q.stage <;> simp_all [Inv, Keeps, Early]
  · exact ⟨h, fun _ => rfl⟩

theorem Inv.cancel (h : q.Inv) : q.Keeps q.cancel := by
  cases hstage : q.stage <;> simp_all [Inv, Keeps, Query.cancel, cancelContext, Early]
  all_goals tauto

variable {reports : Bool} {steps : List QueryStep}

/-- Before the program starts only the caller can have ended the context, and `Done` ends it when the
program has ended or does not report it. -/
theorem Calm.step (hc : q.Calm reports) (h : q.Inv) {l : QueryStep} (hl : q.Allowed reports l) :
    (q.step l).Calm reports := by
  cases l with
  | advance ok =>
    cases hstage : q.stage <;> simp_all
      [Calm, Inv, Early, Query.step, Query.advance, Query.attempt, tryTransition, moveTo,
      Query.setErr]
    all_goals split_ifs <;> simp_all
  | beginDone =>
    obtain ⟨-, hstage | ⟨-, hreports⟩⟩ := hl
    · simp only [Calm, Query.step, Query.beginDone, cancelContext, moveTo]
      split_ifs <;> simp_all [Calm]
    · simp [Calm, hreports]
  | endDone err =>
    simp only [Query.step, Query.endDone]
    split_ifs
    · exact hc
    · exact hc
  | cancel => exact fun _ _ => rfl

theorem Inv.step (h : q.Inv) (hc : q.Calm reports) {l : QueryStep} (ha : q.Answered reports l)
    (hl : q.Allowed reports l) :
    q.Keeps (q.step l) := by
  cases l with
  | advance ok => exact h.advance hl
  | beginDone => exact h.beginDone ⟨hl.1, hl.2.imp_right And.left⟩
  | endDone err => exact h.endDone fun herr => hc (ha herr).2 (ha herr).1
  | cancel => exact h.cancel

theorem Inv.run (h : q.Inv) (hc : q.Calm reports) (ha : q.Along (Answered reports) steps)
    (hl : q.Along (Allowed reports) steps) : q.Keeps (q.run steps) ∧ (q.run steps).Calm reports := by
  induction steps generalizing q with
  | nil => exact ⟨⟨h, fun _ => rfl⟩, hc⟩
  | cons l steps ih =>
    obtain ⟨hinv, hkeep⟩ := h.step hc ha.1 hl.1
    obtain ⟨⟨hinv', hkeep'⟩, hc'⟩ := ih hinv (hc.step h hl.1) ha.2 hl.2
    exact ⟨⟨hinv', fun hfinal => (hkeep' ((hkeep hfinal).symm ▸ hfinal)).trans (hkeep hfinal)⟩, hc'⟩

theorem Along.append {P : Query → QueryStep → Prop} {steps' : List QueryStep} (h : q.Along P (steps ++ steps')) :
    q.Along P steps ∧ (q.run steps).Along P steps' := by
  induction steps generalizing q with
  | nil => exact ⟨trivial, h⟩
  | cons l steps ih => exact ⟨⟨h.1, (ih h.2).1⟩, (ih h.2).2⟩

theorem Inv.closed (h : q.Inv) : q.closed = if q.stage = .ended then 1 else 0 := by
  cases hstage : q.stage <;> simp_all [Inv, Early]

/-- In every run in which the pump does not panic and `Done` is called on an executing query after its
pump has ended, or after it has begun if the program does not report the end of its context, the results
are closed once, at the end; a final state stays; and a query that is done and was not cancelled is
finished, without the error of its context. -/
theorem query_lifecycle (reports : Bool) (steps steps' : List QueryStep)
    (hprogram : ({} : Query).Along (Answered reports) (steps ++ steps'))
    (h : ({} : Query).Along (Allowed reports) (steps ++ steps')) :
    let q := ({} : Query).run steps
    let q' := ({} : Query).run (steps ++ steps')
    (q.closed = if q.stage = .ended then 1 else 0) ∧ (isFinishedState q.state → q'.state = q.state) ∧
      (q.done → q.canceledByCaller = false → (q.state = .finished ∨ q.state = .errored) ∧
        q.err ≠ some .context) := by
  have hnew : ({} : Query).Inv := by simp [Inv, Early]
  have hcalm : ({} : Query).Calm reports := by simp [Calm]
  obtain ⟨⟨hq, -⟩, hc⟩ := hnew.run hcalm hprogram.append.1 h.append.1
  refine ⟨hq.closed, ?_, fun hdone hnot => ?_⟩
  · rw [show ({} : Query).run (steps ++ steps') = (({} : Query).run steps).run steps' from List.foldl_append]
    exact (hq.run hc hprogram.append.2 h.append.2).1.2
  · generalize ({} : Query).run steps = q at hq hdone hnot
    cases hstage : q.stage <;> simp_all [Inv, Early]

/-- A query that is compiled, queued, started and pumped, and then declared done, with a program that
reports the end of its context; and one that is declared done while it is pumped, with a program that
does not and has an error of its own. -/
theorem query_lifecycle_plain :
    let q := ({} : Query).run (List.replicate 8 (.advance true) ++ [.beginDone, .endDone none])
    let q' := ({} : Query).run (List.replicate 7 (.advance true) ++
      [.beginDone, .advance true, .endDone (some (.other "read"))])
    (q.closed = 1 ∧ q.state = .finished ∧ q.err ≠ some .context) ∧
      q'.closed = 1 ∧ q'.err = some (.other "read") ∧ q'.err ≠ some .context := by
  have h := query_lifecycle true (List.replicate 8 (.advance true) ++ [.beginDone, .endDone none])
    [] (by decide) (by decide)
  have h' := query_lifecycle false
    (List.replicate 7 (.advance true) ++ [.beginDone, .advance true, .endDone (some (.other "read"))]) []
    (by decide) (by decide)
  exact ⟨⟨h.1, by decide, (h.2.2 (by decide) (by decide)).2⟩, h'.1, by decide,
    (h'.2.2 (by decide) (by decide)).2⟩

/-- `Done` on a query that waits in the queue ends in the canceled state with the error of the context;
a panic of the pump closes the results twice; `Done` on a query that failed to start makes it finished;
and a program that reports the end of its context hands that to the query that is done while it is pumped. -/
theorem done_while_queued_cancels :
    let queued := List.replicate 4 (QueryStep.advance true)
    let early := ({} : Query).run (queued ++ [.beginDone, .advance true, .advance true, .advance true])
    let panicked := ({} : Query).run (List.replicate 7 (.advance true) ++ [.advance false, .advance true])
    let failed := ({} : Query).run (List.replicate 6 (.advance true) ++ [.advance false, .advance true])
    let pumped := ({} : Query).run
      (List.replicate 7 (.advance true) ++ [.beginDone, .advance true, .endDone (some .context)])
    (early.canceledByCaller = false ∧ early.done = true ∧ early.state = .canceled ∧ early.err = some .context) ∧
      panicked.closed = 2 ∧ failed.state = .errored ∧ failed.beginDone.state = .finished ∧
      pumped.interrupted = true ∧ pumped.canceledByCaller = false ∧ pumped.err = some .context := by
  decide

end Query

end InfluxDB.Control
