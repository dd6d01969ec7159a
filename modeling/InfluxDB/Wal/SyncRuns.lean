import InfluxDB.Wal.Sync

/-!
    Acknowledged entries are on disk, and every call is answered.  A call that waits has its entry in the current
    segment, since a roll answers all calls before it takes another segment; so a sync of the current segment
    without an error is a sync of the entries of all calls that it answers.
-/

namespace InfluxDB.Wal.Sync

open Lib List Option Bool Function State

variable {s : State} {io : FileIO}

/-! ### Files -/

theorem flush_spec (io : FileIO) (w : Writer) (seg : Segment) :
    (flush io w seg).2.1.segment = w.segment ∧ (flush io w seg).2.2.entries = seg.entries ∧
      (flush io w seg).2.2.synced = seg.synced ∧
      ((flush io w seg).1 = true → (flush io w seg).2.2.flushed = seg.entries.length) := by
  rw [flush]
  split_ifs <;> simp_all

theorem syncWriter_spec (io : FileIO) (w : Writer) (seg : Segment) :
    (syncWriter io w seg).2.1.segment = w.segment ∧ (syncWriter io w seg).2.2.entries = seg.entries ∧
      ((syncWriter io w seg).2.2.synced = seg.synced ∨ (syncWriter io w seg).2.2.synced = seg.entries.length) ∧
      ((syncWriter io w seg).1 = true → (syncWriter io w seg).2.2.synced = seg.entries.length) := by
  have hflush := flush_spec io w seg
  rw [syncWriter]
  generalize flush io w seg = f at hflush ⊢
  obtain ⟨_ | _, w', seg'⟩ := f
  · exact ⟨hflush.1, hflush.2.1, .inl hflush.2.2.1, fun h => absurd h false_ne_true⟩
  · dsimp only at hflush ⊢
    have hflushed := hflush.2.2.2 rfl
    split_ifs
    · exact ⟨hflush.1, hflush.2.1, .inr hflushed, fun _ => hflushed⟩
    · exact ⟨hflush.1, hflush.2.1, .inl hflush.2.2.1, nofun⟩

theorem closeWriter_spec (io : FileIO) (w : Writer) (seg : Segment) :
    (closeWriter io w seg).2.1.segment = w.segment ∧ (closeWriter io w seg).2.2.entries = seg.entries ∧
      (closeWriter io w seg).2.2.synced = seg.synced := by
  have hflush := flush_spec io w seg
  rw [closeWriter]
  generalize flush io w seg = f at hflush ⊢
  obtain ⟨_ | _, w', seg'⟩ := f <;> exact ⟨hflush.1, hflush.2.1, hflush.2.2.1⟩

/-- The entries of calls: those of calls that wait lie in the current segment, and those of calls that were answered
without an error are synced. -/
structure Filed (s : State) : Prop where
  placed : ∀ c seg pos, s.calls c = .waiting seg pos →
    (∃ w ∈ s.writer, w.segment = seg) ∧ (s.segments seg).entries[pos]? = some c
  durable : ∀ c seg pos, s.calls c = .answered seg pos true →
    (s.segments seg).entries[pos]? = some c ∧ pos < (s.segments seg).synced

/-! ### One step -/

/-- The results that a call in a state has been given. -/
def CallState.results : CallState → ℕ
  | .answered _ _ _ => 1
  | _ => 0

def Purpose.Pending (s : State) : Purpose → Prop
  | .write c _ => s.calls c = .idle ∧ s.closed = false
  | .closeSegment => True

def After.Pending (s : State) : After → Prop
  | .roll p => p.Pending s
  | _ => True

/-- What the holder of the lock relies on: behind a sync without an error all entries of the current segment are
synced, and a new segment is only taken when no call waits. -/
def Holder.Holds (s : State) : Holder → Prop
  | .free => s.closed = true → s.queue = []
  | .notify ok after => s.writer ≠ none ∧ after.Pending s ∧
      (ok = true → ∀ w ∈ s.writer, (s.segments w.segment).synced = (s.segments w.segment).entries.length)
  | .opening p => s.queue = [] ∧ p.Pending s

/-- The queue holds the calls that wait, each once; while the log is open a goroutine is there if it is not empty. -/
structure Base (s : State) : Prop where
  filed : Filed s
  nodup : s.queue.Nodup
  queued : ∀ c, c ∈ s.queue ↔ ∃ seg pos, s.calls c = .waiting seg pos
  received : ∀ c, s.received c = (s.calls c).results
  syncers : s.closed = false → s.syncers ≤ 1 ∧ s.syncCount = s.syncers ∧ (s.queue ≠ [] → s.syncers = 1)

structure Inv (s : State) : Prop extends Base s where
  holder : s.holder.Holds s

theorem Inv.init (id : ℕ) (hasWriter : Bool) : Inv (init id hasWriter) := by
  refine ⟨⟨⟨fun c seg pos hc => ?_, fun c seg pos hc => ?_⟩, nodup_nil, fun c => ?_, fun c => rfl,
    fun _ => ⟨Nat.zero_le _, rfl, fun h => absurd rfl h⟩⟩, fun _ => rfl⟩
  · cases hc
  · cases hc
  · refine iff_of_false not_mem_nil ?_
    rintro ⟨seg, pos, hc⟩
    cases hc

variable {c n : ℕ}

section

variable (h : Base s) {w : Writer}
include h

theorem Base.not_queued (hc : s.calls c = .idle) : c ∉ s.queue := by
  intro hmem
  obtain ⟨seg, pos, hwait⟩ := (h.queued c).mp hmem
  rw [hc] at hwait
  cases hwait

/-- A call waits for the entry that a writer has taken. -/
theorem Base.writer_ne_none (hc : c ∈ s.queue) : s.writer ≠ none := by
  obtain ⟨seg, pos, hwait⟩ := (h.queued c).mp hc
  obtain ⟨⟨w, hw, -⟩, -⟩ := h.filed.placed c seg pos hwait
  rw [mem_def.mp hw]
  exact some_ne_none w

/-- A segment only grows, and what is synced stays so. -/
theorem Base.setWriter (hw : s.writer = some w) {r : Bool × Writer × Segment}
    (hsegment : r.2.1.segment = w.segment) (hentries : (s.segments w.segment).entries <+: r.2.2.entries)
    (hsynced : r.2.2.synced = (s.segments w.segment).synced ∨ r.2.2.synced = r.2.2.entries.length) :
    Base (s.setWriter r) := by
  have hsegments : (s.setWriter r).segments = update s.segments w.segment r.2.2 := by rw [State.setWriter, hsegment]
  have hget : ∀ {c seg pos : ℕ}, (s.segments seg).entries[pos]? = some c →
      ((s.setWriter r).segments seg).entries[pos]? = some c := by
    intro c seg pos hpos
    rw [hsegments]
    by_cases hseg : seg = w.segment
    · subst hseg
      rw [update_self]
      obtain ⟨more, hmore⟩ := hentries
      rw [← hmore, getElem?_append_left (List.getElem?_eq_some_iff.mp hpos).1, hpos]
    · rwa [update_of_ne hseg]
  refine ⟨⟨fun c seg pos hc => ?_, fun c seg pos hc => ?_⟩, h.nodup, h.queued, h.received, h.syncers⟩
  · obtain ⟨⟨w', hw', rfl⟩, hpos⟩ := h.filed.placed c seg pos hc
    rw [hw, mem_some_iff] at hw'
    exact ⟨⟨r.2.1, rfl, hw' ▸ hsegment⟩, hget hpos⟩
  · obtain ⟨hpos, hlt⟩ := h.filed.durable c seg pos hc
    refine ⟨hget hpos, ?_⟩
    have hnew := hget hpos
    rw [hsegments] at hnew ⊢
    by_cases hseg : seg = w.segment
    · subst hseg
      rw [update_self] at hnew ⊢
      rcases hsynced with hsame | hall
      · rwa [hsame]
      · rw [hall]
        exact (List.getElem?_eq_some_iff.mp hnew).1
    · rwa [update_of_ne hseg]

/-- The lock passes on. -/
theorem Base.pass (holder : Holder) : Base { s with holder := holder } :=
  ⟨⟨h.filed.placed, h.filed.durable⟩, h.nodup, h.queued, h.received, h.syncers⟩

theorem Base.sync (hw : s.writer ≠ none) {after : After} (hafter : after.Pending s) : Inv (s.sync io after) := by
  obtain ⟨w, hw⟩ := ne_none_iff_exists'.mp hw
  obtain ⟨hsegment, hentries, hkept, hall⟩ := syncWriter_spec io w (s.segments w.segment)
  have hbase := h.setWriter hw hsegment (hentries ▸ prefix_refl _) (hentries.symm ▸ hkept)
  rw [State.sync, hw]
  refine ⟨hbase.pass _, some_ne_none _, ?_, fun hok w' hw' => ?_⟩
  · cases after <;> exact hafter
  · obtain rfl := Option.some.inj hw'
    dsimp only [State.setWriter]
    rw [update_self, hentries]
    exact hall hok

/-- A call that has not been queued returns an error. -/
theorem Base.refuse (hc : s.calls c = .idle) (hqueue : s.closed = true → s.queue = []) (err : CallError) :
    Inv (s.refuse c err) := by
  have hcalls : ∀ c', (s.refuse c err).calls c' = if c' = c then .refused err else s.calls c' := fun c' =>
    update_apply _ _ _ _
  refine ⟨⟨⟨fun c' seg pos hc' => ?_, fun c' seg pos hc' => ?_⟩, h.nodup, fun c' => ?_,
    fun c' => ?_, h.syncers⟩, hqueue⟩
  · rw [hcalls] at hc'
    split_ifs at hc'
    exact h.filed.placed c' seg pos hc'
  · rw [hcalls] at hc'
    split_ifs at hc'
    exact h.filed.durable c' seg pos hc'
  · rw [hcalls]
    split_ifs with heq
    · subst heq
      exact iff_of_false (h.not_queued hc) (by simp)
    · exact h.queued c'
  · rw [hcalls]
    split_ifs with heq
    · subst heq
      have := h.received c'
      rw [hc] at this
      exact this
    · exact h.received c'

/-- A call queues for the next sync with its entry at the end of the current segment. -/
theorem Base.enqueue (hw : s.writer = some w) {pos : ℕ}
    (hpos : (s.segments w.segment).entries[pos]? = some c) (hc : s.calls c = .idle) (hopen : s.closed = false) :
    Inv { s with queue := s.queue ++ [c]
                 calls := update s.calls c (.waiting w.segment pos)
                 holder := .free }.scheduleSync := by
  have hcalls : ∀ c', update s.calls c (.waiting w.segment pos) c' = if c' = c
      then .waiting w.segment pos else s.calls c' :=
    fun c' => update_apply _ _ _ _
  obtain ⟨hone, hcount, -⟩ := h.syncers hopen
  have hfiled : ∀ s' : State, s'.writer = s.writer → s'.segments = s.segments →
      s'.calls = update s.calls c (.waiting w.segment pos) → Filed s' := by
    intro s' hwriter hsegments hcalls'
    refine ⟨fun c' seg pos' hc' => ?_, fun c' seg pos' hc' => ?_⟩
    · rw [hcalls', hcalls] at hc'
      rw [hwriter, hsegments]
      split_ifs at hc' with heq
      · obtain ⟨rfl, rfl⟩ := CallState.waiting.inj hc'
        exact ⟨⟨w, hw, rfl⟩, heq ▸ hpos⟩
      · exact h.filed.placed c' seg pos' hc'
    · rw [hcalls', hcalls] at hc'
      rw [hsegments]
      split_ifs at hc'
      exact h.filed.durable c' seg pos' hc'
  have hnodup : (s.queue ++ [c]).Nodup := by
    rw [nodup_append]
    exact ⟨h.nodup, nodup_singleton c, fun a ha b hb => by
      rw [mem_singleton.mp hb]
      exact ne_of_mem_of_not_mem ha (h.not_queued hc)⟩
  have hqueued : ∀ c', c' ∈ s.queue ++ [c] ↔
      ∃ seg pos', update s.calls c (.waiting w.segment pos) c' = .waiting seg pos' := by
    intro c'
    rw [hcalls, mem_append, mem_singleton]
    split_ifs with heq
    · exact iff_of_true (.inr heq) ⟨_, _, rfl⟩
    · rw [or_iff_left heq]
      exact h.queued c'
  have hreceived : ∀ c', s.received c' = (update s.calls c (.waiting w.segment pos) c').results := by
    intro c'
    rw [hcalls]
    split_ifs with heq
    · subst heq
      have := h.received c'
      rw [hc] at this
      exact this
    · exact h.received c'
  rw [scheduleSync]
  dsimp only
  split_ifs with hzero
  · exact ⟨⟨hfiled _ rfl rfl rfl, hnodup, hqueued, hreceived,
      fun _ => ⟨by dsimp only; omega, by dsimp only; omega,
      fun _ => by dsimp only; omega⟩⟩, fun hclosed => absurd (hopen.symm.trans hclosed) false_ne_true⟩
  · exact ⟨⟨hfiled _ rfl rfl rfl, hnodup, hqueued, hreceived,
      fun _ => ⟨hone, hcount, fun _ => by dsimp only; omega⟩⟩,
      fun hclosed => absurd (hopen.symm.trans hclosed) false_ne_true⟩

theorem Base.append (hw : s.writer ≠ none) (hc : s.calls c = .idle) (hopen : s.closed = false) :
    Inv (s.append io c n) := by
  obtain ⟨w, hw⟩ := ne_none_iff_exists'.mp hw
  have hqueue : s.closed = true → s.queue = [] := fun hclosed => absurd (hopen.symm.trans hclosed) false_ne_true
  rw [State.append, hw]
  dsimp only
  split_ifs with hok hspace
  · have hbase := h.setWriter (r := (true, { w with size := w.size + (5 + n) },
      { s.segments w.segment with entries := (s.segments w.segment).entries ++ [c] }))
      hw rfl (prefix_append _ _) (.inl rfl)
    refine hbase.enqueue (w := { w with size := w.size + (5 + n) }) rfl ?_ hc hopen
    dsimp only [State.setWriter]
    rw [update_self]
    exact getElem?_concat_length
  · exact (h.setWriter hw rfl (prefix_append _ _) (.inl rfl)).refuse hc hqueue _
  · exact (h.setWriter hw rfl (prefix_refl _) (.inl rfl)).refuse hc hqueue _

/-- The writer can be replaced when no call waits. -/
theorem Base.replaceWriter (hqueue : s.queue = []) (w : Option Writer) : Base { s with writer := w } := by
  refine ⟨⟨fun c seg pos hc => ?_, h.filed.durable⟩, h.nodup, h.queued, h.received, h.syncers⟩
  have hmem : c ∈ s.queue := (h.queued c).mpr ⟨seg, pos, hc⟩
  rw [hqueue] at hmem
  cases hmem

end

variable {p : Purpose} {after : After} {ok : Bool}

theorem Base.notRolled (h : Base s) (hqueue : s.queue = []) (hp : p.Pending s) : Inv (s.notRolled p) := by
  cases p with
  | write c n => exact h.refuse hp.1 (fun _ => hqueue) _
  | closeSegment => exact ⟨h.pass _, fun _ => hqueue⟩

theorem Base.rolled (h : Base s) (hw : s.writer ≠ none) (hqueue : s.queue = []) (hp : p.Pending s) :
    Inv (s.rolled io p) := by
  cases p with
  | write c n => exact h.append hw hp.1 hp.2
  | closeSegment => exact ⟨h.pass _, fun _ => hqueue⟩

/-- The result of a sync without an error goes to calls whose entries it has synced. -/
theorem Inv.handOver (h : Inv s) {queue : List ℕ} (hholder : s.holder = .notify ok after)
    (hqueue : s.queue = c :: queue) : Inv (s.handOver ok c queue) := by
  obtain ⟨seg, pos, hc⟩ := (h.queued c).mp (hqueue ▸ mem_cons_self)
  obtain ⟨⟨w, hw, rfl⟩, hpos⟩ := h.filed.placed c seg pos hc
  have hcalls : ∀ c', update s.calls c (.answered w.segment pos ok) c' = if c' = c
      then .answered w.segment pos ok else s.calls c' :=
    fun c' => update_apply _ _ _ _
  obtain ⟨hwriter, hafter, hsynced⟩ : (Holder.notify ok after).Holds s := hholder ▸ h.holder
  have hnodup := h.nodup
  rw [hqueue, nodup_cons] at hnodup
  rw [State.handOver, hc]
  refine ⟨⟨⟨fun c' seg' pos' hc' => ?_, fun c' seg' pos' hc' => ?_⟩, hnodup.2, fun c' => ?_,
    fun c' => ?_, fun hopen => ?_⟩, ?_⟩
  · dsimp only at hc'
    rw [hcalls] at hc'
    split_ifs at hc'
    exact h.filed.placed c' seg' pos' hc'
  · dsimp only at hc'
    rw [hcalls] at hc'
    split_ifs at hc' with heq
    · obtain ⟨rfl, rfl, rfl⟩ := CallState.answered.inj hc'
      rw [hsynced rfl w hw, heq]
      exact ⟨hpos, (List.getElem?_eq_some_iff.mp hpos).1⟩
    · exact h.filed.durable c' seg' pos' hc'
  · dsimp only
    rw [hcalls]
    have hold := h.queued c'
    rw [hqueue, mem_cons] at hold
    split_ifs with heq
    · exact iff_of_false (heq ▸ hnodup.1) (by simp)
    · rwa [or_iff_right heq] at hold
  · dsimp only
    rw [hcalls, update_apply]
    split_ifs with heq
    · have := h.received c
      rw [hc] at this
      rw [this]
      rfl
    · exact h.received c'
  · obtain ⟨hone, hcount, hall⟩ := h.syncers hopen
    exact ⟨hone, hcount, fun _ => hall (by rw [hqueue]; exact cons_ne_nil _ _)⟩
  · rw [hholder]
    refine ⟨hwriter, ?_, hsynced⟩
    rcases after with _ | ⟨c', n⟩ | _
    · exact trivial
    · have hidle : s.calls c' = .idle ∧ s.closed = false := hafter
      have hne : c' ≠ c := by
        rintro rfl
        rw [hc] at hidle
        cases hidle.1
      refine ⟨?_, hidle.2⟩
      dsimp only
      rw [hcalls, if_neg hne]
      exact hidle.1
    · exact trivial
    · exact trivial

theorem Inv.goOn (h : Inv s) (hholder : s.holder = .notify ok after) (hqueue : s.queue = []) :
    Inv (s.goOn io after) := by
  obtain ⟨hwriter, hafter, -⟩ : (Holder.notify ok after).Holds s := hholder ▸ h.holder
  obtain ⟨w, hw⟩ := ne_none_iff_exists'.mp hwriter
  obtain ⟨hsegment, hentries, hsynced⟩ := closeWriter_spec io w (s.segments w.segment)
  have hclosed := h.toBase.setWriter hw hsegment (hentries ▸ prefix_refl _) (.inl hsynced)
  cases after with
  | unlock => exact ⟨h.toBase.pass _, fun _ => hqueue⟩
  | roll p =>
    rw [goOn, hw]
    dsimp only
    split_ifs
    · refine ⟨hclosed.pass _, hqueue, ?_⟩
      cases p <;> exact hafter
    · refine hclosed.notRolled hqueue ?_
      cases p <;> exact hafter
  | close =>
    rw [goOn, hw]
    exact ⟨(hclosed.replaceWriter hqueue none).pass _, fun _ => hqueue⟩

theorem Base.newSegmentFile (h : Base s) (hp : p.Pending s) : Inv (s.newSegmentFile io p) := by
  have hnext : Base { s with currentSegmentID := s.currentSegmentID + 1 } :=
    ⟨⟨h.filed.placed, h.filed.durable⟩, h.nodup, h.queued, h.received, h.syncers⟩
  rw [State.newSegmentFile]
  split
  next hw =>
    have hqueue : s.queue = [] := eq_nil_iff_forall_not_mem.mpr fun c hc => h.writer_ne_none hc hw
    refine ⟨hnext.pass _, hqueue, ?_⟩
    cases p <;> exact hp
  next w hw =>
    refine hnext.sync (by rw [hw]; exact some_ne_none w) ?_
    cases p <;> exact hp

section

variable (h : Inv s)
include h

theorem Inv.write (hfree : s.holder = .free) (hc : s.calls c = .idle) :
    Inv (if s.closed then s.refuse c .walClosed else if s.rolls then s.newSegmentFile io
      (.write c n) else s.append io c n) := by
  have hqueue : s.closed = true → s.queue = [] := by
    have := h.holder
    rwa [hfree] at this
  split_ifs with hclosed hrolls
  · exact h.toBase.refuse hc hqueue _
  · exact h.toBase.newSegmentFile ⟨hc, eq_false_iff.mpr hclosed⟩
  · refine h.toBase.append (fun hw => hrolls ?_) hc (eq_false_iff.mpr hclosed)
    rw [rolls, hw]
    rfl

theorem Inv.closeSegment : Inv (if s.closes then s.newSegmentFile io .closeSegment else s) := by
  split_ifs
  · exact h.toBase.newSegmentFile trivial
  · exact h

/-- `Close` answers the calls that still wait, and no call queues after it. -/
theorem Inv.close {s' : State} (hstep : s.step? (.close io) = some s') : Inv s' := by
  have hbase : Base { s with closed := true } :=
    ⟨⟨h.filed.placed, h.filed.durable⟩, h.nodup, h.queued, h.received,
      fun hopen => (false_ne_true hopen.symm).elim⟩
  rw [step?] at hstep
  split at hstep
  next hfree =>
    cases hstep
    split_ifs
    · exact h
    · dsimp only
      split
      next hw =>
        refine ⟨hbase, ?_⟩
        rw [hfree]
        exact fun _ => eq_nil_iff_forall_not_mem.mpr fun c hc => h.writer_ne_none hc hw
      next w hw => exact hbase.sync (by rw [hw]; exact some_ne_none w) trivial
  next => cases hstep

theorem Inv.timer (hfree : s.holder = .free) :
    Inv (if s.queue = [] then { s with syncCount := 0, syncers := s.syncers - 1 } else s.sync io .unlock) := by
  split_ifs with hqueue
  · refine ⟨⟨⟨h.filed.placed, h.filed.durable⟩, h.nodup, h.queued, h.received, fun hopen => ?_⟩, ?_⟩
    · obtain ⟨hone, -, -⟩ := h.syncers hopen
      dsimp only
      exact ⟨by omega, by omega, fun hne => absurd hqueue hne⟩
    · rw [hfree]
      exact fun _ => hqueue
  · obtain ⟨c, hc⟩ := exists_mem_of_ne_nil _ hqueue
    exact h.toBase.sync (h.writer_ne_none hc) trivial

theorem Inv.closing (hclosed : s.closed = true) : Inv { s with syncCount := 0, syncers := s.syncers - 1 } := by
  refine ⟨⟨⟨h.filed.placed, h.filed.durable⟩, h.nodup, h.queued, h.received, fun hopen => ?_⟩, ?_⟩
  · exact (false_ne_true (hopen.symm.trans hclosed)).elim
  · have hholder := h.holder
    generalize s.holder = holder at hholder
    rcases holder with _ | ⟨ok, _ | ⟨_ | _⟩ | _⟩ | ⟨_ | _⟩ <;> exact hholder

theorem Inv.proceed (hholder : s.holder = .opening p) :
    Inv (if io.openFile then { s with writer := some ⟨s.currentSegmentID, 0, false, false⟩ }.rolled io p
      else s.notRolled p) := by
  obtain ⟨hqueue, hp⟩ : (Holder.opening p).Holds s := hholder ▸ h.holder
  split_ifs
  · refine (h.toBase.replaceWriter hqueue _).rolled (some_ne_none _) hqueue ?_
    cases p <;> exact hp
  · exact h.toBase.notRolled hqueue hp

theorem Inv.step (l : Label) : Inv (s.step l) := by
  rw [State.step]
  cases hstep : s.step? l with
  | none => exact h
  | some s' =>
    rw [getD_some]
    cases l with
    | write c n io =>
      rw [step?] at hstep
      split at hstep
      next hfree hc =>
        cases hstep
        exact h.write hfree hc
      next => cases hstep
    | closeSegment io =>
      rw [step?] at hstep
      split at hstep
      next => exact some.inj hstep ▸ h.closeSegment
      next => cases hstep
    | close io => exact h.close hstep
    | timer io =>
      rw [step?] at hstep
      split at hstep
      next hfree =>
        rw [ite_none_left_eq_some] at hstep
        rw [← some.inj hstep.2]
        exact h.timer hfree
      next => cases hstep
    | closing =>
      rw [step?] at hstep
      split_ifs at hstep with hclosed
      cases hstep
      exact h.closing hclosed.1
    | notify =>
      rw [step?] at hstep
      split at hstep
      next hholder hqueue =>
        cases hstep
        exact h.handOver hholder hqueue
      next => cases hstep
    | proceed io =>
      rw [step?] at hstep
      split at hstep
      next hholder hqueue =>
        cases hstep
        exact h.goOn hholder hqueue
      next hholder =>
        cases hstep
        exact h.proceed hholder
      next => cases hstep

end

end InfluxDB.Wal.Sync
