import InfluxDB.Wal.SyncRuns

/-!
    Every call that waits is answered.  The holder of the lock hands results over until the queue is empty, so a
    call is answered once a sync has been made; and while no sync is made the goroutine can take the lock.
-/

namespace InfluxDB.Wal.Sync

open Lib List Option State Nat Function

variable {s : State} {io : FileIO} {c n : ℕ}

/-! ### Calls that wait -/

namespace State

@[simp] theorem sync_calls (s : State) (io : FileIO) (after : After) : (s.sync io after).calls = s.calls := by
  rw [sync]
  split <;> rfl

@[simp] theorem newSegmentFile_calls (s : State) (io : FileIO) (p : Purpose) :
    (s.newSegmentFile io p).calls = s.calls := by
  rw [newSegmentFile]
  split
  · rfl
  · rw [sync_calls]

theorem refuse_calls_of_ne {c' : ℕ} (h : c ≠ c') (err : CallError) : (s.refuse c' err).calls c = s.calls c :=
  update_of_ne h _ _

@[simp] theorem scheduleSync_calls (s : State) : s.scheduleSync.calls = s.calls := by
  rw [scheduleSync]
  split <;> rfl

theorem append_calls_of_ne {c' : ℕ} (h : c ≠ c') : (s.append io c' n).calls c = s.calls c := by
  rw [append]
  split
  · rfl
  · dsimp only
    split_ifs
    · rw [scheduleSync_calls]
      exact update_of_ne h _ _
    · exact refuse_calls_of_ne h _
    · exact refuse_calls_of_ne h _

end State

variable {seg pos : ℕ}

theorem ne_of_waiting {c' : ℕ} (hc : s.calls c = .waiting seg pos) (hidle : s.calls c' = .idle) : c ≠ c' := by
  rintro rfl
  rw [hc] at hidle
  cases hidle

section

variable {p : Purpose} (hp : p.Pending s) (hc : s.calls c = .waiting seg pos)
include hp hc

theorem Purpose.Pending.rolled_calls : (s.rolled io p).calls c = s.calls c := by
  cases p with
  | write c' n => exact append_calls_of_ne (ne_of_waiting hc hp.1)
  | closeSegment => rfl

theorem Purpose.Pending.notRolled_calls : (s.notRolled p).calls c = s.calls c := by
  cases p with
  | write c' n => exact refuse_calls_of_ne (ne_of_waiting hc hp.1) _
  | closeSegment => rfl

end

variable {after : After} {l : Label}

theorem After.Pending.goOn_calls (ha : after.Pending s) (hc : s.calls c = .waiting seg pos) :
    (s.goOn io after).calls c = s.calls c := by
  cases after with
  | unlock => rfl
  | roll p =>
    rw [goOn]
    split
    · rfl
    · dsimp only
      split_ifs
      · rfl
      · refine Purpose.Pending.notRolled_calls ?_ hc
        cases p <;> exact ha
  | close =>
    rw [goOn]
    split <;> rfl

theorem handOver_calls {ok : Bool} {c' : ℕ} {queue : List ℕ} (hc : s.calls c = .waiting seg pos) :
    (s.handOver ok c' queue).calls c = .waiting seg pos ∨
      (s.handOver ok c' queue).calls c = .answered seg pos ok := by
  rw [handOver]
  split
  next seg' pos' hc' =>
    dsimp only
    rw [update_apply]
    split_ifs with heq
    · rw [← heq, hc] at hc'
      obtain ⟨rfl, rfl⟩ := CallState.waiting.inj hc'
      exact .inr rfl
    · exact .inl hc
  next => exact .inl hc

/-- A call that waits goes on waiting or is answered. -/
theorem Inv.step_calls (h : Inv s) (l : Label) (hc : s.calls c = .waiting seg pos) :
    (s.step l).calls c = .waiting seg pos ∨ ∃ ok, (s.step l).calls c = .answered seg pos ok := by
  rw [State.step]
  cases hstep : s.step? l with
  | none => exact .inl hc
  | some s' =>
    rw [getD_some]
    cases l <;> rw [step?] at hstep
    case notify =>
      split at hstep
      next =>
        cases hstep
        exact (handOver_calls hc).imp_right fun hok => ⟨_, hok⟩
      next => cases hstep
    all_goals refine .inl (Eq.trans ?_ hc)
    case write c' n io =>
      split at hstep
      next hidle =>
        have hne := ne_of_waiting hc hidle
        cases hstep
        split_ifs
        · exact refuse_calls_of_ne hne _
        · rw [newSegmentFile_calls]
        · exact append_calls_of_ne hne
      next => cases hstep
    case closeSegment io =>
      split at hstep
      next =>
        cases hstep
        split_ifs
        · rw [newSegmentFile_calls]
        · rfl
      next => cases hstep
    case close io =>
      split at hstep
      next =>
        cases hstep
        split_ifs
        · rfl
        · dsimp only
          split
          · rfl
          · rw [sync_calls]
      next => cases hstep
    case timer io =>
      split at hstep
      next hfree =>
        rw [ite_none_left_eq_some] at hstep
        rw [← some.inj hstep.2]
        split_ifs
        · rfl
        · rw [sync_calls]
      next => cases hstep
    case closing =>
      split_ifs at hstep
      cases hstep
      rfl
    case proceed io =>
      split at hstep
      next hholder _ =>
        cases hstep
        obtain ⟨-, hafter, -⟩ : (Holder.notify _ _).Holds s := hholder ▸ h.holder
        exact hafter.goOn_calls hc
      next p hholder =>
        cases hstep
        obtain ⟨-, hp⟩ : (Holder.opening p).Holds s := hholder ▸ h.holder
        split_ifs
        · refine Purpose.Pending.rolled_calls ?_ hc
          cases p <;> exact hp
        · exact hp.notRolled_calls hc
      next => cases hstep

/-! ### Runs -/

/-- The thread that holds the lock makes a step. -/
def HolderMoves (s : State) (l : Label) : Prop := (l = .notify ∨ ∃ io, l = .proceed io) ∧ (s.step? l).isSome

/-- While the lock is held nothing but its holder moves the queue. -/
theorem step_of_not_holderMoves (hheld : s.holder ≠ .free) (hmoves : ¬HolderMoves s l) :
    (s.step l).holder = s.holder ∧ (s.step l).queue = s.queue := by
  have hnone : s.step? l = none → (s.step l).holder = s.holder ∧ (s.step l).queue = s.queue := by
    intro h
    rw [step, h]
    exact ⟨rfl, rfl⟩
  have hother : (l = .notify ∨ ∃ io, l = .proceed io) → s.step? l = none := by
    intro h
    rw [HolderMoves, not_and] at hmoves
    exact not_isSome_iff_eq_none.mp (hmoves h)
  cases l with
  | write c n io => exact hnone (by rw [step?]; split <;> first | contradiction | rfl)
  | closeSegment io | close io | timer io => exact hnone (by rw [step?]; split <;> first | contradiction | rfl)
  | closing =>
    rw [step, step?]
    split_ifs <;> exact ⟨rfl, rfl⟩
  | notify => exact hnone (hother (.inl rfl))
  | proceed io => exact hnone (hother (.inr ⟨io, rfl⟩))

/-- The holder of the lock hands results over as long as calls wait. -/
theorem HolderMoves.handOver {ok : Bool} {c' : ℕ} {queue : List ℕ} (hmoves : HolderMoves s l)
    (hholder : s.holder = .notify ok after) (hqueue : s.queue = c' :: queue) : s.step l = s.handOver ok c' queue := by
  obtain ⟨rfl | ⟨io, rfl⟩, hsome⟩ := hmoves
  · rw [step, step?, hholder, hqueue]
    rfl
  · rw [step?, hholder, hqueue] at hsome
    cases hsome

theorem Inv.handOver_holder (h : Inv s) {ok : Bool} {c' : ℕ} {queue : List ℕ} (hqueue : s.queue = c' :: queue) :
    (s.handOver ok c' queue).holder = s.holder ∧ (s.handOver ok c' queue).queue = queue := by
  obtain ⟨seg, pos, hc⟩ := (h.queued c').mp (hqueue ▸ mem_cons_self)
  rw [State.handOver, hc]
  exact ⟨rfl, rfl⟩

/-- The threads are not held up for ever: the holder of the lock makes its next step, and the goroutine with an
expired timer gets the lock when it could have it from some time on. -/
structure Fair (run : ℕ → State) (labels : ℕ → Label) : Prop where
  holder : ∀ n, (run n).holder ≠ .free → ∃ m ≥ n, HolderMoves (run m) (labels m)
  timer : ∀ n, (∀ m ≥ n, (run m).holder = .free ∧ 0 < (run m).syncers) →
    ∃ m ≥ n, ∃ io, labels m = .timer io

section Run

variable {run : ℕ → State} {labels : ℕ → Label} (hrun : ∀ n, run (n + 1) = (run n).step (labels n))
  (hinv : ∀ n, Inv (run n)) (hfair : Fair run labels)

include hrun hinv hfair

/-- A sync answers the call: the queue gets shorter with each result that is handed over. -/
theorem answered_of_notify {ok : Bool} (hc : (run n).calls c = .waiting seg pos)
    (hholder : (run n).holder = .notify ok after) : ∃ m ≥ n, ∃ ok, (run m).calls c = .answered seg pos ok := by
  refine exists_of_measure (fun m => (run m).queue.length)
    (P := fun m => (run m).calls c = .waiting seg pos ∧ (run m).holder = .notify ok after) ?_ n ⟨hc, hholder⟩
  rintro n ⟨hc, hholder⟩
  let P m := (run m).calls c = .waiting seg pos ∧ (run m).holder = .notify ok after ∧ (run m).queue = (run n).queue
  have hkeep : ∀ m ≥ n, P m → ¬HolderMoves (run m) (labels m) → P (m + 1) := by
    rintro m - ⟨hc, hholder, hqueue⟩ hmoves
    have hmem : c ∈ (run m).queue := ((hinv m).queued c).mpr ⟨seg, pos, hc⟩
    have hnext := hinv (m + 1)
    have hstep := step_of_not_holderMoves (by rw [hholder]; exact Holder.noConfusion) hmoves
    have hcalls := (hinv m).step_calls (labels m) hc
    rw [← hrun] at hstep hcalls
    refine ⟨hcalls.resolve_right ?_, hstep.1.trans hholder, hstep.2.trans hqueue⟩
    rintro ⟨ok', hok'⟩
    obtain ⟨seg', pos', hwait⟩ := (hnext.queued c).mp (hstep.2 ▸ hmem)
    rw [hok'] at hwait
    cases hwait
  obtain ⟨m, hm, hmoves, hc, hholder, hqueue⟩ := exists_until (P := P)
    ⟨hc, hholder, rfl⟩ hkeep (hfair.holder n (by rw [hholder]; exact Holder.noConfusion))
  have hmem : c ∈ (run m).queue := ((hinv m).queued c).mpr ⟨seg, pos, hc⟩
  obtain ⟨c', queue, hcons⟩ := exists_cons_of_ne_nil (ne_nil_of_mem hmem)
  have hstep : run (m + 1) = (run m).handOver ok c' queue := (hrun m).trans (hmoves.handOver hholder hcons)
  have hnext := @Inv.handOver_holder _ (hinv m) ok _ _ hcons
  refine ⟨m + 1, by omega, ?_⟩
  have hcalls := (hinv m).step_calls (labels m) hc
  rw [← hrun] at hcalls
  refine hcalls.symm.imp_right fun hwait => ⟨⟨hwait, ?_⟩, ?_⟩
  · rw [hstep, hnext.1, hholder]
  · rw [hstep, hnext.2, ← hqueue, hcons]
    exact lt_succ_self _

/-- While no sync is made the goroutine can take the lock, and it makes one. -/
theorem answered_of_waiting (hc : (run n).calls c = .waiting seg pos) :
    ∃ m ≥ n, ∃ ok, (run m).calls c = .answered seg pos ok := by
  by_contra hnone
  have hnever : ∀ m ≥ n, ¬∃ ok, (run m).calls c = .answered seg pos ok := fun m hm hok => hnone ⟨m, hm, hok⟩
  have hwaits : ∀ m ≥ n, (run m).calls c = .waiting seg pos := by
    intro m hm
    induction m, hm using le_induction with
    | base => exact hc
    | succ m hm ih =>
      have hcalls := (hinv m).step_calls (labels m) ih
      rw [← hrun] at hcalls
      exact hcalls.resolve_right (hnever (m + 1) (by omega))
  have hqueue : ∀ m ≥ n, (run m).queue ≠ [] := fun m hm =>
    ne_nil_of_mem (((hinv m).queued c).mpr ⟨seg, pos, hwaits m hm⟩)
  have hfree : ∀ m ≥ n, (run m).holder = .free := by
    intro m hm
    have hholds := (hinv m).holder
    cases hholder : (run m).holder with
    | free => rfl
    | notify ok after =>
      obtain ⟨k, hk, hok⟩ := answered_of_notify hrun hinv hfair (hwaits m hm) hholder
      exact absurd hok (hnever k (hm.trans hk))
    | opening p =>
      rw [hholder] at hholds
      exact absurd hholds.1 (hqueue m hm)
  have hsyncers : ∀ m ≥ n, (run m).syncers = 1 := by
    intro m hm
    have hholds := (hinv m).holder
    rw [hfree m hm] at hholds
    refine ((hinv m).syncers ?_).2.2 (hqueue m hm)
    exact Bool.eq_false_iff.mpr fun hclosed => hqueue m hm (hholds hclosed)
  obtain ⟨m, hm, io, hlabel⟩ := hfair.timer n fun m hm => ⟨hfree m hm, by rw [hsyncers m hm]; exact one_pos⟩
  have hnext := hfree (m + 1) (by omega)
  obtain ⟨w, hw⟩ := ne_none_iff_exists'.mp
    ((hinv m).writer_ne_none (((hinv m).queued c).mpr ⟨seg, pos, hwaits m hm⟩))
  rw [hrun, hlabel, step, step?, hfree m hm] at hnext
  rw [if_neg (by rw [hsyncers m hm]; exact one_ne_zero), if_neg (hqueue m hm), sync, hw] at hnext
  cases hnext

end Run

/-- The states of a run of a log that has been opened. -/
def run (id : ℕ) (hasWriter : Bool) (labels : ℕ → Label) : ℕ → State := trace step (init id hasWriter) labels

/-- A call that has got no error has its entry written and synced, every call gets one result, a goroutine is there as
long as a call waits, and if threads are not held up for ever then every call that waits is answered. -/
theorem writeToLog_acknowledged (id : ℕ) (hasWriter : Bool) (labels : ℕ → Label) :
    (∀ n c seg pos, (run id hasWriter labels n).calls c = .answered seg pos true →
      ((run id hasWriter labels n).segments seg).entries[pos]? = some c ∧
        pos < ((run id hasWriter labels n).segments seg).synced) ∧
      (∀ n c, (run id hasWriter labels n).received c = ((run id hasWriter labels n).calls c).results) ∧
      (∀ n c seg pos, (run id hasWriter labels n).calls c = .waiting seg pos →
        (run id hasWriter labels n).closed = false → (run id hasWriter labels n).syncers = 1) ∧
      (Fair (run id hasWriter labels) labels →
        ∀ n c seg pos, (run id hasWriter labels n).calls c = .waiting seg pos →
        ∃ m ≥ n, ∃ ok, (run id hasWriter labels m).calls c = .answered seg pos ok) := by
  have hinv : ∀ n, Inv (run id hasWriter labels n) := trace_invariant (Inv.init id hasWriter) fun _ l h => h.step l
  refine ⟨fun n => (hinv n).filed.durable, fun n => (hinv n).received,
    fun n c seg pos hc hopen => ?_, fun hfair n c seg pos hc => ?_⟩
  · exact ((hinv n).syncers hopen).2.2 (ne_nil_of_mem (((hinv n).queued c).mpr ⟨seg, pos, hc⟩))
  · exact answered_of_waiting (fun _ => rfl) hinv hfair hc

/-- One call, and the goroutine that syncs for it until it finds the queue empty. -/
def oneWrite : ℕ → Label
  | 0 => .write 0 10 ⟨true, true, true, true, true⟩
  | 2 => .notify
  | 3 => .proceed ⟨true, true, true, true, true⟩
  | _ => .timer ⟨true, true, true, true, true⟩

theorem run_oneWrite (n : ℕ) : run 1 true oneWrite (n + 5) = run 1 true oneWrite 5 := by
  induction n with
  | zero => rfl
  | succ n ih =>
    have hstep : run 1 true oneWrite (n + 1 + 5) = (run 1 true oneWrite (n + 5)).step (oneWrite (n + 5)) := rfl
    rw [hstep, ih]
    rfl

theorem fair_oneWrite : Fair (run 1 true oneWrite) oneWrite := by
  have hlate : ∀ m ≥ 5, (run 1 true oneWrite m).holder = .free ∧ (run 1 true oneWrite m).syncers = 0 := by
    intro m hm
    obtain ⟨k, rfl⟩ := Nat.exists_eq_add_of_le' hm
    rw [run_oneWrite]
    exact ⟨rfl, rfl⟩
  refine ⟨fun n hn => ?_, fun n hn => ?_⟩
  · have hle : n ≤ 3 := by
      by_contra hlt
      rcases lt_or_ge n 5 with h | h
      · obtain rfl : n = 4 := by omega
        exact hn rfl
      · exact hn (hlate n h).1
    exact ⟨3, hle, .inr ⟨_, rfl⟩, rfl⟩
  · have := (hn (n + 5) (le_add_right n 5)).2
    rw [(hlate (n + 5) (le_add_left 5 n)).2] at this
    exact absurd this (lt_irrefl 0)

theorem writeToLog_acknowledged_oneWrite :
    Fair (run 1 true oneWrite) oneWrite ∧ (run 1 true oneWrite 1).calls 0 = .waiting 1 0 ∧
      ∃ m ≥ 1, ∃ ok, (run 1 true oneWrite m).calls 0 = .answered 1 0 ok :=
  ⟨fair_oneWrite, rfl, (writeToLog_acknowledged 1 true oneWrite).2.2.2 fair_oneWrite 1 0 1 0 rfl⟩

end InfluxDB.Wal.Sync
