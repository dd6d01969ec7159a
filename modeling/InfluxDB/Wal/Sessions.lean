import InfluxDB.Wal.Replay

/-!
    Sessions of the write-ahead log: in every run of opens, writes, removals, closes and crashes whose
    writes go to the end of a file on disk, every open delivers the acknowledged entries.
-/

namespace InfluxDB.Wal

open Lib List

variable {sn : Snappy} {E : ℕ → List WALEntry} {l : Log} {s : Session}

/-- The compressed entry has a length of four bytes. -/
def Sized (sn : Snappy) (e : WALEntry) : Prop := ∀ b, e.encode = .ok b → (sn.encode b).length < 2 ^ 32

/-- When a step keeps the entries: a write fits its fields and goes to a new segment or to the end of a file
that is on disk, and new segments have ids of at most five digits. -/
def Step.Safe (sn : Snappy) (s : Session) : Step → Prop
  | .write e => s.opened = true → e.Fits ∧ Sized sn e ∧
      (s.log.rolls = true → s.log.wal.currentSegmentID + 1 < 100000) ∧ (s.log.rolls = false → s.log.AtEnd)
  | .acquire => s.opened = true → s.log.closes = true → s.log.wal.currentSegmentID + 1 < 100000
  | .crash e _ => s.opened = true → Sized sn e ∧ (s.log.rolls = true → s.log.wal.currentSegmentID + 1 < 100000)
  | _ => True

/-- All steps of a run are safe, each in the session that it is made in. -/
def SafeRun (sn : Snappy) : Session → List Step → Prop
  | _, [] => True
  | s, st :: steps => st.Safe sn s ∧ SafeRun sn (s.step sn st) steps

namespace Session

/-- The invariant: what the files hold ends with what was acknowledged, and what they hold without the
segments that were acquired ends with what was acknowledged since. -/
structure Inv (sn : Snappy) (s : Session) (E : ℕ → List WALEntry) : Prop where
  running : s.opened = true → Running sn s.log E
  stopped : s.opened = false → Stopped sn s.log E
  ids_lt : ∀ id ∈ s.log.disk, id < 100000
  acked : s.acked <:+ kept s.log.disk E
  acquired : ∀ files mark, s.acquired = some (files, mark) → s.opened = true ∧ mark ≤ s.acked.length ∧
    s.log.Behind files ∧ s.acked.drop mark <:+ keptOutside files s.log.disk E

theorem Inv.init : Inv sn init fun _ => [] := by
  refine ⟨nofun, fun _ => ⟨⟨fun id c hc => ?_, nofun, fun _ _ => rfl⟩,
    fun w hw => ?_⟩, nofun, nil_suffix, fun files mark h => ?_⟩
  · cases hc
  · cases hw
  · cases h

theorem concat_suffix {a b : List WALEntry} (h : a <:+ b) (e : WALEntry) : a ++ [e] <:+ b ++ [e] := by
  obtain ⟨t, rfl⟩ := h
  exact ⟨t, by rw [append_assoc]⟩

theorem Inv.openEngine (h : Inv sn s E) : Inv sn (step sn s .openEngine) E := by
  rw [step]
  by_cases hopen : s.opened = true
  · rw [if_pos hopen]
    exact h
  · rw [if_neg hopen]
    have hclosed : s.opened = false := by simpa using hopen
    obtain ⟨-, hrun, hkept, hsub⟩ := (h.stopped hclosed).replay h.ids_lt
    refine ⟨fun _ => hrun, fun hfalse => absurd hfalse.symm Bool.false_ne_true,
      fun id hid => h.ids_lt id (hsub id hid), ?_, fun files mark hacquired => ?_⟩
    · rw [hkept]
      exact h.acked
    · exact absurd (h.acquired files mark hacquired).1 hopen

theorem ids_lt_newSegmentFile (h : ∀ id ∈ l.disk, id < 100000) (hid : l.wal.currentSegmentID + 1 < 100000) :
    ∀ id ∈ l.newSegmentFile.disk, id < 100000 := by
  intro id hmem
  rcases mem_newSegmentFile hmem with hmem | rfl
  · exact h id hmem
  · exact hid

theorem ids_lt_rollSegment (h : ∀ id ∈ l.disk, id < 100000)
    (hid : l.rolls = true → l.wal.currentSegmentID + 1 < 100000) :
    ∀ id ∈ l.rollSegment.disk, id < 100000 := by
  rw [Log.rollSegment]
  cases hrolls : l.rolls with
  | true => exact ids_lt_newSegmentFile h (hid hrolls)
  | false => exact h

variable {e : WALEntry}

section

variable (h : Inv sn s E)
include h

/-- What a write that succeeds does. -/
theorem Inv.append (hopen : s.opened = true) (he : Storable sn e)
    (hid : s.log.rolls = true → s.log.wal.currentSegmentID + 1 < 100000)
    (hend : s.log.rolls = false → s.log.AtEnd) :
    ∃ E', Inv sn { s with log := s.log.rollSegment.append (record sn e), acked := s.acked ++ [e] } E' := by
  obtain ⟨E', hrun, -, hbehind⟩ := (h.running hopen).write hend he
  refine ⟨E', fun _ => hrun, fun hfalse => absurd (hopen.symm.trans hfalse) (by decide), fun id hmem => ?_, ?_,
    fun files mark hacquired => ?_⟩
  · rw [← mem_ids, ids_append, mem_ids] at hmem
    exact ids_lt_rollSegment h.ids_lt hid id hmem
  · have hall := (hbehind [] Log.behind_nil).2
    rw [keptOutside_nil, keptOutside_nil] at hall
    rw [hall]
    exact concat_suffix h.acked e
  · obtain ⟨-, hmark, hfiles, hsuffix⟩ := h.acquired files mark hacquired
    obtain ⟨hfiles', hkept⟩ := hbehind files hfiles
    refine ⟨hopen, ?_, hfiles', ?_⟩
    · rw [length_append]
      exact hmark.trans (Nat.le_add_right _ _)
    · rw [hkept, drop_append_of_le_length hmark]
      exact concat_suffix hsuffix e

theorem Inv.write (hsafe : (Step.write e).Safe sn s) : ∃ E', Inv sn (step sn s (.write e)) E' := by
  rw [step]
  by_cases hopen : s.opened = true
  · obtain ⟨hfits, hsized, hid, hend⟩ := hsafe hopen
    rw [if_pos hopen]
    rcases writeToLog_cases sn s.log e with ⟨err, herr⟩ | ⟨b, hb, id, hok⟩
    · rw [herr]
      exact ⟨E, h⟩
    · rw [hok]
      exact h.append hopen ⟨⟨b, hb, hsized b hb⟩, hfits⟩ hid hend
  · rw [if_neg hopen]
    exact ⟨E, h⟩

theorem Inv.acquire (hsafe : Step.acquire.Safe sn s) : Inv sn (step sn s .acquire) E := by
  rw [step]
  by_cases hopen : s.opened = true
  · rw [if_pos hopen]
    obtain ⟨hrun, -, hbehind⟩ := (h.running hopen).closeSegment
    refine ⟨fun _ => hrun, fun hfalse => absurd (hopen.symm.trans hfalse) (by decide), ?_,
      ?_, fun files mark hacquired => ?_⟩
    · rw [Log.closeSegment]
      cases hcloses : s.log.closes with
      | true => exact ids_lt_newSegmentFile h.ids_lt (hsafe hopen hcloses)
      | false => exact h.ids_lt
    · have hkept := (hbehind [] Log.behind_nil).2
      rw [keptOutside_nil, keptOutside_nil] at hkept
      rw [hkept]
      exact h.acked
    · cases hacquired
      refine ⟨hopen, le_rfl, hrun.behind_closedSegments, ?_⟩
      rw [drop_length]
      exact nil_suffix
  · rw [if_neg hopen]
    exact h

theorem Inv.commit : ∃ E', Inv sn (step sn s .commit) E' := by
  rw [step]
  cases hacquired : s.acquired with
  | none => exact ⟨E, h⟩
  | some a =>
    obtain ⟨files, mark⟩ := a
    obtain ⟨hopen, -, -, hsuffix⟩ := h.acquired files mark hacquired
    obtain ⟨E', hrun, hkept, -⟩ := (h.running hopen).remove files
    refine ⟨E', fun _ => hrun, fun hfalse => absurd (hopen.symm.trans hfalse) (by decide),
      fun id hid => h.ids_lt id (mem_remove.mp hid).1, ?_, fun files mark hnone => ?_⟩
    · rw [hkept]
      exact hsuffix
    · cases hnone

theorem Inv.close : Inv sn (step sn s .close) E := by
  rw [step]
  by_cases hopen : s.opened = true
  · rw [if_pos hopen]
    have hstopped := (h.running hopen).stopped
    have hdisk : s.log.close.disk = s.log.disk := by
      rw [Log.close]
      split_ifs <;> rfl
    refine ⟨nofun, fun _ => ⟨hdisk ▸ hstopped.holds, fun w hw hmem => ?_⟩, hdisk ▸ h.ids_lt,
      hdisk ▸ h.acked, fun files mark hnone => ?_⟩
    · rw [hdisk] at hmem ⊢
      rw [Log.close] at hw
      split_ifs at hw
      · exact hstopped.writer w hw hmem
      · cases hw
    · cases hnone
  · rw [if_neg hopen]
    exact h

end

theorem junk_torn (he : Sized sn e) (k : ℕ) : Junk sn (torn sn e k) := by
  rw [torn, record]
  cases hb : e.encode with
  | error err =>
    refine .inl ?_
    simp [Except.toOption]
  | ok b =>
    have hlen := length_frame e.type (sn.encode b)
    dsimp only [Except.toOption, Option.map_some, Option.getD_some]
    rw [dropLast_eq_take, take_take]
    exact junk_take_frame (he b hb) (by omega)

theorem Inv.crash (h : Inv sn s E) {k : ℕ} (hsafe : (Step.crash e k).Safe sn s) :
    Inv sn (step sn s (.crash e k)) E := by
  have hdown : ∀ disk : Disk, Holds sn false disk E → (∀ id ∈ disk, id < 100000) →
      kept disk E = kept s.log.disk E →
      Inv sn { s with log := ⟨disk, newWAL⟩, opened := false, acquired := none } E := by
    intro disk hholds hids hkept
    refine ⟨nofun, fun _ => ⟨hholds, fun w hw => ?_⟩, hids, hkept ▸ h.acked,
      fun files mark hnone => ?_⟩
    · cases hw
    · cases hnone
  rw [step]
  by_cases hopen : s.opened = true
  · obtain ⟨hsized, hid⟩ := hsafe hopen
    obtain ⟨hroll, hids, -⟩ := (h.running hopen).rollSegment
    have hholds := hroll.holds_append_torn (junk_torn hsized k)
    have hall := hids (fun _ => true) rfl
    rw [filter_true, filter_true] at hall
    rw [if_pos hopen]
    refine hdown _ hholds (fun id hmem => ?_) ?_
    · rw [← mem_ids, ids_append, mem_ids] at hmem
      exact ids_lt_rollSegment h.ids_lt hid id hmem
    · rw [kept, ids_append]
      exact hall
  · rw [if_neg hopen]
    exact hdown _ (h.stopped (by simpa using hopen)).holds h.ids_lt rfl

theorem Inv.step (h : Inv sn s E) {st : Step} (hsafe : st.Safe sn s) : ∃ E', Inv sn (step sn s st) E' := by
  cases st with
  | openEngine => exact ⟨E, h.openEngine⟩
  | write e => exact h.write hsafe
  | acquire => exact ⟨E, h.acquire hsafe⟩
  | commit => exact h.commit
  | close => exact ⟨E, h.close⟩
  | crash e k => exact ⟨E, h.crash hsafe⟩

theorem Inv.run (steps : List Step) (h : Inv sn s E) (hsafe : SafeRun sn s steps) :
    ∃ E', Inv sn (steps.foldl (Session.step sn) s) E' := by
  induction steps generalizing s E with
  | nil => exact ⟨E, h⟩
  | cons st steps ih =>
    obtain ⟨E', hE'⟩ := h.step hsafe.1
    exact ih hE' hsafe.2

/-- In every run whose steps are safe, the next open of the engine delivers, in order and at the end, every
entry that was acknowledged since the segment files were last removed. -/
theorem replay_delivers (sn : Snappy) (steps : List Step) (hsafe : SafeRun sn init steps)
    (hclosed : (run sn steps).opened = false) :
    (run sn steps).acked <:+ ((run sn steps).log.openWAL.replay sn).1 := by
  obtain ⟨E, hE : Inv sn (run sn steps) E⟩ := Inv.run steps Inv.init hsafe
  rw [((hE.stopped hclosed).replay hE.ids_lt).1]
  exact hE.acked

/-- A compression for closed examples: one byte in front. -/
def plain : Snappy where
  encode b := 0 :: b
  decode b := b.tail?
  decode_encode _ := rfl
  decode_nil := rfl

/-- A write of one point. -/
def point (t : ℤ) : WALEntry := .write ⟨[⟨[1], [(t, .boolean true)]⟩], by simp⟩

theorem fits_point {t : ℤ} (ht : Tsm.IsInt64 t) : (point t).Fits := by
  intro kv hkv
  obtain rfl := mem_singleton.mp hkv
  refine ⟨Nat.one_lt_two_pow (by decide), Nat.one_lt_two_pow (by decide), fun p hp => ?_⟩
  obtain rfl := mem_singleton.mp hp
  exact ⟨ht, trivial⟩

theorem sized_point (t : ℤ) : Sized plain (point t) := by
  intro b hb
  cases hb
  have hlen : (18 : ℕ) < 2 ^ 32 := by decide
  exact hlen

/-- A run with a removal of segments and a crash between two records. -/
def cleanCrash : List Step :=
  [.openEngine, .write (point 1), .acquire, .write (point 2), .commit, .crash (point 3) 0,
    .openEngine, .write (point 4), .close]

theorem replay_delivers_cleanCrash :
    (run plain cleanCrash).acked <:+ ((run plain cleanCrash).log.openWAL.replay plain).1 := by
  refine replay_delivers plain cleanCrash ?_ (by decide +kernel)
  refine ⟨trivial, fun _ => ⟨fits_point (by decide), sized_point 1, ?_, ?_⟩, fun _ => ?_,
    fun _ => ⟨fits_point (by decide), sized_point 2, ?_, ?_⟩, trivial, fun _ => ⟨sized_point 3, ?_⟩, trivial,
    fun _ => ⟨fits_point (by decide), sized_point 4, ?_, ?_⟩, trivial, trivial⟩
  all_goals decide +kernel

/-- A run with a crash that leaves one byte of a record. -/
def tornEntry : List Step := [.openEngine, .write (point 1), .crash (point 2) 1, .openEngine, .write (point 3), .close]

/-- The entry that was acknowledged behind the torn one is not delivered. -/
theorem not_delivered_tornEntry :
    ¬ (run plain tornEntry).acked <:+ ((run plain tornEntry).log.openWAL.replay plain).1 := by
  intro h
  have hlen : ¬ (run plain tornEntry).acked.length ≤ ((run plain tornEntry).log.openWAL.replay plain).1.length := by
    decide +kernel
  exact hlen h.length_le

end Session

end InfluxDB.Wal
