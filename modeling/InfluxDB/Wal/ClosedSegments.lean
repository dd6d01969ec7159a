import Mathlib.Data.List.Infix
import InfluxDB.Wal.Sessions

/-!
    What the closed segments cover.  A snapshot closes the current segment and takes the closed ones for all
    that has been written so far.

    The writer of an existing file counts from zero, so a segment that an earlier session has written to is not
    closed as long as the current session has written nothing to it.
-/

namespace InfluxDB.Wal

open Lib List Option Log Session

/-- A log, and beside it the history: the entries that were acknowledged, each with the file that it was written
to, unless the file has been removed. -/
structure Writes where
  log : Log
  acked : List (ℕ × WALEntry)

/-- The calls of the log; `new` starts another process on the same directory. -/
inductive Writes.Call where
  | new
  | openWAL
  | close
  | write (e : WALEntry)
  | closeSegment
  | remove (files : List ℕ)

/-- The file that the writer writes to, if it is in the directory. -/
def Log.writerFile (l : Log) : Option ℕ :=
  l.wal.currentSegmentWriter.bind fun w => (l.disk.lookup w.segment).map fun _ => w.segment

namespace Writes

def init : Writes := ⟨⟨∅, newWAL⟩, []⟩

variable (sn : Snappy)

/-- One call; an entry that is written to a file that was removed is in a removed file. -/
def step (s : Writes) : Call → Writes
  | .new => { s with log := ⟨s.log.disk, newWAL⟩ }
  | .openWAL => { s with log := s.log.openWAL }
  | .close => { s with log := s.log.close }
  | .write e =>
    match s.log.writeToLog sn e with
    | (.ok _, log) => { log, acked := s.acked ++ (log.writerFile.toList.map fun id => (id, e)) }
    | (.error _, log) => { s with log }
  | .closeSegment => { s with log := s.log.closeSegment }
  | .remove files => { log := s.log.remove files, acked := s.acked.filter fun p => p.1 ∉ files }

def run (calls : List Call) : Writes := calls.foldl (step sn) init

/-- The acknowledged entries lie in files that are closed. -/
def Covered (s : Writes) : Prop :=
  ∀ p ∈ s.acked, p.1 ∈ s.log.closedSegments ∧ ∃ c ∈ s.log.disk.lookup p.1, record sn p.2 <:+: c

/-- The file that a call makes is not there yet. -/
def Fresh (s : Writes) : Prop := s.log.disk.lookup (s.log.wal.currentSegmentID + 1) = none

instance decidableFresh (s : Writes) : Decidable s.Fresh := inferInstanceAs (Decidable (_ = none))

/-- A log is opened that has no segment open, and new segments are new files. -/
def Call.Safe (s : Writes) : Call → Prop
  | .openWAL => s.log.wal.currentSegmentWriter = none
  | .write _ => s.log.wal.closed = false → s.log.rolls = true → s.Fresh
  | .closeSegment => s.log.closes = true → s.Fresh
  | _ => True

/-- All calls of a run are safe, each in the state that it is made in. -/
def SafeRun : Writes → List Call → Prop
  | _, [] => True
  | s, c :: calls => c.Safe s ∧ SafeRun (s.step sn c) calls

/-- The invariant: the entries lie in their files, and the writer is at the end of its file. -/
structure Inv (s : Writes) : Prop where
  lies : ∀ p ∈ s.acked, record sn p.2 ≠ [] ∧ ∃ c ∈ s.log.disk.lookup p.1, record sn p.2 <:+: c
  writer : ∀ w ∈ s.log.wal.currentSegmentWriter, ∀ c ∈ s.log.disk.lookup w.segment, w.pos = c.length

variable {sn} {s : Writes}

theorem Inv.init : Inv sn init := by
  refine ⟨nofun, ?_⟩
  rintro w ⟨⟩

section

variable (h : Inv sn s) {e : WALEntry} (files : List ℕ)
include h

theorem Inv.openWAL (hsafe : Call.openWAL.Safe s) : Inv sn (s.step sn .openWAL) := by
  have hwriter : ∀ disk : Disk, ∀ w ∈ s.log.wal.currentSegmentWriter, ∀ c ∈ disk.lookup w.segment,
      w.pos = c.length := by
    intro disk w hw
    rw [show s.log.wal.currentSegmentWriter = none from hsafe] at hw
    cases hw
  rw [step, Log.openWAL]
  cases (segmentFileNames s.log.disk).getLast? with
  | none => exact ⟨h.lies, hwriter _⟩
  | some id =>
    dsimp only
    split_ifs with hsize
    · -- The last file is empty, so it holds no entry.
      refine ⟨fun p hp => ?_, hwriter _⟩
      obtain ⟨hne, c, hc, hin⟩ := h.lies p hp
      refine ⟨hne, c, ?_, hin⟩
      have hid : p.1 ≠ id := by
        rintro rfl
        rw [mem_def.mp hc, getD_some] at hsize
        rw [length_eq_zero_iff.mp hsize] at hin
        exact hne (eq_nil_of_infix_nil hin)
      rw [AList.lookup_erase_ne hid]
      exact hc
    · refine ⟨h.lies, ?_⟩
      rintro w ⟨⟩ c hc
      rw [mem_def.mp hc, getD_some]

omit h in
theorem lookup_newSegmentFile (hfresh : s.Fresh) (id : ℕ) :
    s.log.newSegmentFile.disk.lookup id = if id = s.log.wal.currentSegmentID + 1 then some []
      else s.log.disk.lookup id := by
  rw [newSegmentFile]
  rw [show s.log.disk.lookup (s.log.wal.currentSegmentID + 1) = none from hfresh,
    if_neg (by simp), FinMap.lookup_insert_eq]

/-- A new file changes no other. -/
theorem Inv.newSegmentFile (hfresh : s.Fresh) : Inv sn { s with log := s.log.newSegmentFile } := by
  refine ⟨fun p hp => ?_, ?_⟩
  · obtain ⟨hne, c, hc, hin⟩ := h.lies p hp
    refine ⟨hne, c, ?_, hin⟩
    rw [lookup_newSegmentFile hfresh, if_neg]
    · exact hc
    · intro hid
      rw [hid, show s.log.disk.lookup (s.log.wal.currentSegmentID + 1) = none from hfresh] at hc
      cases hc
  · rintro w ⟨⟩ c hc
    rw [lookup_newSegmentFile hfresh, if_pos rfl] at hc
    obtain rfl := some.inj hc
    rfl

theorem Inv.rollSegment (hfresh : s.log.rolls = true → s.Fresh) : Inv sn { s with log := s.log.rollSegment } := by
  rw [Log.rollSegment]
  split_ifs with hrolls
  · exact h.newSegmentFile (hfresh hrolls)
  · exact h

/-- A record that is written lies at the end of the file of the writer, if that is there. -/
theorem Inv.append (he : record sn e ≠ []) :
    Inv sn ⟨s.log.append (record sn e),
      s.acked ++ ((s.log.append (record sn e)).writerFile.toList.map fun id => (id, e))⟩ := by
  cases hw : s.log.wal.currentSegmentWriter with
  | none =>
    have happend : s.log.append (record sn e) = s.log := by rw [Log.append, hw]
    have hfile : s.log.writerFile = none := by rw [writerFile, hw]; rfl
    rw [happend, hfile, toList_none, map_nil, append_nil]
    exact h
  | some w =>
    have hwriter := congrArg WAL.currentSegmentWriter (wal_append hw (record sn e))
    cases hc : s.log.disk.lookup w.segment with
    | none =>
      have hdisk := disk_append_of_removed hw (record sn e) hc
      have hfile : (s.log.append (record sn e)).writerFile = none := by
        rw [writerFile, hwriter, hdisk, bind_some, hc]
        rfl
      rw [hfile, toList_none, map_nil, append_nil]
      refine ⟨fun p hp => ?_, ?_⟩
      · rw [hdisk]
        exact h.lies p hp
      · rw [hwriter, hdisk]
        rintro w' ⟨⟩ c' hc'
        rw [hc] at hc'
        cases hc'
    | some c =>
      have hpos := h.writer w hw c hc
      have hlookup : ∀ id, (s.log.append (record sn e)).disk.lookup id =
          if id = w.segment then some (c ++ record sn e) else s.log.disk.lookup id := by
        intro id
        rw [disk_append hw _ hc hpos, FinMap.lookup_insert_eq]
      have hfile : (s.log.append (record sn e)).writerFile = some w.segment := by
        rw [writerFile, hwriter, bind_some, hlookup, if_pos rfl]
        rfl
      rw [hfile, toList_some, map_singleton]
      refine ⟨fun p hp => ?_, ?_⟩
      · rw [hlookup]
        rcases mem_append.mp hp with hp | hp
        · obtain ⟨hne, c', hc', hin⟩ := h.lies p hp
          split_ifs with hid
          · rw [hid, hc, mem_some_iff] at hc'
            exact ⟨hne, _, rfl, hin.trans (hc' ▸ (prefix_append c (record sn e)).isInfix)⟩
          · exact ⟨hne, c', hc', hin⟩
        · obtain rfl := mem_singleton.mp hp
          rw [if_pos rfl]
          exact ⟨he, _, rfl, (suffix_append _ _).isInfix⟩
      · rw [hwriter]
        rintro w' ⟨⟩ c' hc'
        rw [hlookup, if_pos rfl] at hc'
        rw [← some.inj hc', length_append, hpos]

omit h in
theorem record_ne_nil {b : Bytes} (hb : e.encode = .ok b) : record sn e ≠ [] := by
  rw [record, hb]
  exact cons_ne_nil _ _

theorem Inv.write (hsafe : (Call.write e).Safe s) : Inv sn (s.step sn (.write e)) := by
  rw [step, writeToLog]
  cases hb : e.encode with
  | error err => exact h
  | ok b =>
    dsimp only
    cases hclosed : s.log.wal.closed with
    | true => exact h
    | false =>
      have hrecord : frame e.type (sn.encode b) = record sn e := by rw [record, hb]; rfl
      rw [if_neg Bool.false_ne_true, hrecord]
      exact (h.rollSegment (hsafe hclosed)).append (record_ne_nil hb)

theorem Inv.remove : Inv sn (s.step sn (.remove files)) := by
  refine ⟨fun p hp => ?_, fun w hw c hc => ?_⟩
  · obtain ⟨hp, hfiles⟩ := mem_filter.mp hp
    obtain ⟨hne, c, hc, hin⟩ := h.lies p hp
    refine ⟨hne, c, ?_, hin⟩
    rw [step, Log.remove]
    rw [lookup_remove, if_neg (by simpa using hfiles)]
    exact hc
  · rw [step, Log.remove] at hc hw
    rw [lookup_remove] at hc
    split_ifs at hc
    · cases hc
    · exact h.writer w hw c hc

theorem Inv.step {c : Call} (hsafe : c.Safe s) : Inv sn (s.step sn c) := by
  cases c with
  | new => exact ⟨h.lies, by simp [Writes.step, newWAL]⟩
  | openWAL => exact h.openWAL hsafe
  | close =>
    rw [Writes.step, close]
    split_ifs
    · exact h
    · exact ⟨h.lies, by simp⟩
  | write e => exact h.write hsafe
  | closeSegment =>
    rw [Writes.step, closeSegment]
    split_ifs with hcloses
    · exact h.newSegmentFile (hsafe hcloses)
    · exact h
  | remove files => exact h.remove files

end

theorem Inv.run {calls : List Call} (h : Inv sn s) (hsafe : SafeRun sn s calls) :
    Inv sn (calls.foldl (Writes.step sn) s) := by
  induction calls generalizing s with
  | nil => exact h
  | cons c calls ih => exact ih (h.step hsafe.1) hsafe.2

theorem mem_closedSegments {l : Log} {id : ℕ} :
    id ∈ l.closedSegments ↔ id ∈ l.disk ∧ ∀ w ∈ l.wal.currentSegmentWriter, w.segment ≠ id := by
  rw [closedSegments, mem_filter, segmentFileNames, mem_insertionSort, Option.all_eq_true]
  simp only [decide_eq_true_eq]
  rfl

/-- The closed segments cover the entries that are not in the file of the writer. -/
theorem Inv.covered_iff (h : Inv sn s) : Covered sn s ↔ ∀ p ∈ s.acked, s.log.writerFile ≠ some p.1 := by
  refine forall₂_congr fun p hp => ?_
  obtain ⟨-, hlies⟩ := h.lies p hp
  obtain ⟨c, hc, -⟩ := id hlies
  rw [mem_def] at hc
  rw [and_iff_left hlies, mem_closedSegments, and_iff_right (mem_iff_lookup.mpr ⟨c, hc⟩), writerFile]
  cases s.log.wal.currentSegmentWriter with
  | none => simp
  | some w =>
    rw [bind_some]
    by_cases hw : w.segment = p.1
    · rw [hw, hc]
      simp [hw]
    · cases s.log.disk.lookup w.segment <;> simp [hw]

/-- In every run whose calls are safe, `CloseSegment` leaves the acknowledged entries in closed segments exactly if
it closes the segment, or the file of the writer holds none of them. -/
theorem covered_closeSegment_iff (sn : Snappy) (calls : List Call) (hsafe : SafeRun sn init calls)
    (hclose : Call.closeSegment.Safe (run sn calls)) :
    Covered sn (run sn (calls ++ [.closeSegment])) ↔
      (run sn calls).log.closes = true ∨ ∀ p ∈ (run sn calls).acked,
        (run sn calls).log.writerFile ≠ some p.1 := by
  have hinv : Inv sn (run sn calls) := Inv.init.run hsafe
  have hrun : run sn (calls ++ [.closeSegment]) = (run sn calls).step sn .closeSegment := by
    rw [run, foldl_append]
    rfl
  rw [hrun, (hinv.step hclose).covered_iff, step, closeSegment]
  cases hcloses : (run sn calls).log.closes with
  | false => simp
  | true =>
    have hfresh := hclose hcloses
    refine iff_of_true (fun p hp hfile => ?_) (.inl rfl)
    -- The new file is not one of those in which entries lie.
    obtain ⟨-, c, hc, -⟩ := hinv.lies p hp
    have hnew : (run sn calls).log.newSegmentFile.writerFile = some ((run sn calls).log.wal.currentSegmentID + 1) := by
      rw [writerFile]
      exact congrArg (Option.map _) (lookup_newSegmentFile hfresh _ |>.trans (if_pos rfl))
    rw [if_pos rfl, hnew, some_inj] at hfile
    rw [← hfile, show (run sn calls).log.disk.lookup _ = none from hfresh] at hc
    cases hc

/-- Two sessions, each with a write. -/
def twoSessions (e : WALEntry) : List Call := [.openWAL, .write e, .close, .new, .openWAL, .write e]

theorem covered_twoSessions : Covered plain (run plain (twoSessions (point 1) ++ [.closeSegment])) := by
  refine (covered_closeSegment_iff plain (twoSessions (point 1)) ⟨rfl, fun _ _ => rfl,
    trivial, trivial, rfl, fun _ _ => ?_, trivial⟩
    fun _ => ?_).mpr (.inl ?_)
  all_goals decide +kernel

/-- A session that writes nothing leaves the entry of the one before in a segment that is not closed. -/
theorem not_covered_reopened :
    ¬Covered plain (run plain ([.openWAL, .write (point 1), .close, .new, .openWAL] ++ [.closeSegment])) := by
  intro h
  have hacked : (run plain ([.openWAL, .write (point 1), .close, .new, .openWAL] ++ [.closeSegment])).acked =
      [(1, point 1)] := rfl
  rw [Covered, hacked, forall_mem_singleton] at h
  exact absurd h.1 (by decide +kernel)

end Writes

open Writes (Call)

/-! ### Sizes and names -/

/-- The log with the size in its `walTracker`, and beside it the files in the order in which they were made. -/
structure Tracked where
  log : Log
  oldSegmentBytes : ℕ
  files : List ℕ

/-- The total size of the segment files. -/
def totalSize (disk : Disk) : ℕ := (disk.entries.map fun file => file.2.length).sum

namespace Tracked

variable (sn : Snappy) (t : Tracked)

/-- The log behind a call; a new process opens it. -/
def logAfter : Call → Log
  | .new => openWAL ⟨t.log.disk, newWAL⟩
  | c => (Writes.step sn ⟨t.log, []⟩ c).log

/-- What the writer has written behind a call. -/
def written (c : Call) : ℕ := ((t.logAfter sn c).wal.currentSegmentWriter.map SegmentWriter.size).getD 0

/-- What a call stores last, as the size of the old segments or of the current one, which share a field. -/
def stores : Call → ℕ
  | .write e => if (t.log.writeToLog sn e).1.isOk then t.written sn (.write e) else t.oldSegmentBytes
  | .closeSegment => if t.log.closes then 0 else t.oldSegmentBytes
  | .close => t.oldSegmentBytes
  | c => totalSize (t.logAfter sn c).disk

/-- A call; the file of the current segment was made by it if it was not there before. -/
def call (c : Call) : Tracked :=
  let l := t.logAfter sn c
  { log := l
    oldSegmentBytes := t.stores sn c
    files := (if l.wal.currentSegmentID ∈ t.log.disk then t.files else t.files ++ [l.wal.currentSegmentID]).filter
      (· ∈ l.disk) }

def run (calls : List Call) : Tracked := calls.foldl (call sn) ⟨⟨∅, newWAL⟩, 0, []⟩

/-- `DiskSizeBytes`. -/
def diskSizeBytes : ℕ := t.oldSegmentBytes + t.oldSegmentBytes

def Accurate : Prop := t.diskSizeBytes = totalSize t.log.disk

/-- The call writes no record: it is no write, or the log is closed, or the entry cannot be encoded. -/
def Refused : Call → Prop
  | .write e => t.log.wal.closed = true ∨ ∃ err, e.encode = .error err
  | _ => True

/-- No call of a run writes a record, each in the state that it is made in. -/
def AllRefused : Tracked → List Call → Prop
  | _, [] => True
  | t, c :: calls => t.Refused c ∧ AllRefused (t.call sn c) calls

/-- The files are empty, and the writer is at the start of one. -/
structure Blank (l : Log) : Prop where
  files : ∀ id, ∀ c ∈ l.disk.lookup id, c = []
  writer : ∀ w ∈ l.wal.currentSegmentWriter, w.pos = 0

/-- Nothing was written, and the tracker says so. -/
structure Unwritten : Prop extends Blank t.log where
  stored : t.oldSegmentBytes = 0

variable {sn t}

/-- Only one of the files has bytes. -/
theorem totalSize_le {disk : Disk} {id n : ℕ}
    (h : ∀ id', ∀ c ∈ disk.lookup id', id' = id ∧ c.length ≤ n ∨ c = []) :
    totalSize disk ≤ n := by
  have hentries : ∀ p ∈ disk.entries, p.1 = id ∧ p.2.length ≤ n ∨ p.2 = [] := fun p hp =>
    h p.1 p.2 (AList.mem_lookup_iff.mpr hp)
  have hkeys := disk.nodupKeys
  rw [totalSize]
  generalize disk.entries = l at hentries hkeys
  induction l with
  | nil => exact Nat.zero_le n
  | cons p l ih =>
    obtain ⟨hp, hl⟩ := forall_mem_cons.mp hentries
    rw [nodupKeys_cons] at hkeys
    rw [map_cons, sum_cons]
    rcases hp with ⟨hid, hlen⟩ | hnil
    · have hrest : (l.map fun file => file.2.length).sum = 0 := by
        refine sum_eq_zero fun k hk => ?_
        obtain ⟨q, hq, rfl⟩ := mem_map.mp hk
        rcases hl q hq with ⟨hq', -⟩ | hnil
        · exact absurd (mem_keys_of_mem hq) (hq' ▸ hid ▸ hkeys.1)
        · rw [hnil, length_nil]
      omega
    · rw [hnil, length_nil, Nat.zero_add]
      exact ih hl hkeys.2

theorem totalSize_eq_zero {disk : Disk} (h : ∀ id, ∀ c ∈ disk.lookup id, c = []) : totalSize disk = 0 :=
  Nat.le_zero.mp (@totalSize_le _ 0 _ fun id c hc => .inr (h id c hc))

theorem Unwritten.accurate (h : Unwritten t) : t.Accurate := by
  rw [Accurate, diskSizeBytes, h.stored, totalSize_eq_zero h.files]

theorem Blank.newSegmentFile {l : Log} (h : Blank l) : Blank l.newSegmentFile := by
  refine ⟨fun id c hc => ?_, ?_⟩
  · rw [Log.newSegmentFile] at hc
    dsimp only at hc
    split_ifs at hc
    · exact h.files id c hc
    · rw [FinMap.lookup_insert_eq] at hc
      split_ifs at hc
      · exact (some.inj hc).symm
      · exact h.files id c hc
  · rintro w ⟨⟩
    rfl

theorem Blank.openWAL {l : Log} (h : Blank l) : Blank l.openWAL := by
  rw [Log.openWAL]
  cases (segmentFileNames l.disk).getLast? with
  | none => exact ⟨h.files, h.writer⟩
  | some id =>
    have hsize : ((l.disk.lookup id).getD []).length = 0 := by
      cases hc : l.disk.lookup id with
      | none => rfl
      | some c => rw [h.files id c hc, getD_some, length_nil]
    dsimp only
    rw [if_pos hsize]
    refine ⟨fun id' c hc => ?_, h.writer⟩
    by_cases hid : id' = id
    · rw [hid, AList.lookup_erase] at hc
      cases hc
    · rw [AList.lookup_erase_ne hid] at hc
      exact h.files id' c hc

/-- A write is refused, or its record is written. -/
theorem write_cases (sn : Snappy) (t : Tracked) (e : WALEntry) :
    (t.Refused (.write e) ∧ ∃ err, t.log.writeToLog sn e = (.error err, t.log)) ∨
      ¬ t.Refused (.write e) ∧ record sn e ≠ [] ∧
        ∃ id, t.log.writeToLog sn e = (.ok id, t.log.rollSegment.append (record sn e)) := by
  rcases writeToLog_cases sn t.log e with ⟨err, herr⟩ | ⟨b, hb, id, hok⟩
  · refine .inl ⟨?_, err, herr⟩
    rw [writeToLog] at herr
    cases hb : e.encode with
    | error err => exact .inr ⟨err, hb⟩
    | ok b =>
      rw [hb] at herr
      dsimp only at herr
      split_ifs at herr with hclosed
      · exact .inl hclosed
      · cases herr
  · refine .inr ⟨?_, Writes.record_ne_nil hb, id, hok⟩
    rintro (hclosed | ⟨err, herr⟩)
    · rw [writeToLog, hb] at hok
      dsimp only at hok
      rw [if_pos hclosed] at hok
      cases hok
    · rw [hb] at herr
      cases herr

/-- The files stay empty where no record is written. -/
theorem Unwritten.logAfter {c : Call} (h : Unwritten t) (hc : t.Refused c) : Blank (t.logAfter sn c) := by
  cases c with
  | new => exact Blank.openWAL ⟨h.files, by simp [newWAL]⟩
  | openWAL => exact h.toBlank.openWAL
  | close =>
    simp only [Tracked.logAfter, Writes.step, close]
    split_ifs
    · exact h.toBlank
    · exact ⟨h.files, by simp⟩
  | write e =>
    obtain ⟨-, err, herr⟩ := (write_cases sn t e).resolve_right fun hwritten => hwritten.1 hc
    simp only [Tracked.logAfter, Writes.step, herr]
    exact h.toBlank
  | closeSegment =>
    simp only [Tracked.logAfter, Writes.step, closeSegment]
    split_ifs
    · exact h.toBlank.newSegmentFile
    · exact h.toBlank
  | remove files =>
    refine ⟨fun id c hc => ?_, h.writer⟩
    simp only [Tracked.logAfter, Writes.step, Log.remove, lookup_remove] at hc
    split_ifs at hc
    · cases hc
    · exact h.files id c hc

theorem Unwritten.call {c : Call} (h : Unwritten t) (hc : t.Refused c) : Unwritten (t.call sn c) := by
  have hblank : Blank (t.logAfter sn c) := h.logAfter hc
  refine ⟨hblank, show t.stores sn c = 0 from ?_⟩
  cases c with
  | new | openWAL | remove files => exact totalSize_eq_zero hblank.files
  | close => exact h.stored
  | write e =>
    obtain ⟨-, err, herr⟩ := (write_cases sn t e).resolve_right fun hwritten => hwritten.1 hc
    simp only [stores, herr]
    exact h.stored
  | closeSegment =>
    simp only [stores]
    split_ifs
    · rfl
    · exact h.stored

theorem exists_writer_rollSegment (l : Log) : ∃ w, l.rollSegment.wal.currentSegmentWriter = some w := by
  rw [Log.rollSegment, rolls]
  cases hw : l.wal.currentSegmentWriter with
  | none => exact ⟨_, rfl⟩
  | some w =>
    split_ifs
    · exact ⟨_, rfl⟩
    · exact ⟨w, hw⟩

/-- Behind the first record the files hold at most that. -/
theorem Blank.totalSize_append {l : Log} (h : Blank l) (b : Bytes) : totalSize (l.append b).disk ≤ b.length := by
  have hnone : totalSize l.disk ≤ b.length := (totalSize_eq_zero h.files).trans_le (Nat.zero_le _)
  cases hw : l.wal.currentSegmentWriter with
  | none =>
    rw [Log.append, hw]
    exact hnone
  | some w =>
    cases hc : l.disk.lookup w.segment with
    | none =>
      rw [disk_append_of_removed hw b hc]
      exact hnone
    | some c =>
      obtain rfl := h.files _ c hc
      rw [disk_append hw b hc (h.writer w hw), nil_append]
      refine @totalSize_le _ w.segment _ fun id c' hc' => ?_
      rw [FinMap.lookup_insert_eq] at hc'
      split_ifs at hc' with hid
      · obtain rfl := some.inj hc'
        exact .inl ⟨hid, le_rfl⟩
      · exact .inr (h.files id c' hc')

/-- The bytes of the first record are counted twice. -/
theorem Unwritten.not_accurate {c : Call} (h : Unwritten t) (hc : ¬ t.Refused c) : ¬ (t.call sn c).Accurate := by
  cases c with
  | write e =>
    obtain ⟨-, hne, id, hok⟩ := (write_cases sn t e).resolve_left fun hrefused => hc hrefused.1
    have hblank : Blank t.log.rollSegment := by
      rw [Log.rollSegment]
      split_ifs
      · exact h.toBlank.newSegmentFile
      · exact h.toBlank
    obtain ⟨w, hw⟩ := exists_writer_rollSegment t.log
    have hlog : t.logAfter sn (.write e) = t.log.rollSegment.append (record sn e) := by
      simp only [Tracked.logAfter, Writes.step, hok]
    have hstores : t.stores sn (.write e) = w.size + (record sn e).length := by
      simp only [stores, hok, Except.isOk, Except.toBool, if_true, written, hlog, Log.append, hw, map_some, getD_some]
    have hsize := hblank.totalSize_append (record sn e)
    have hpos := length_pos_iff.mpr hne
    intro hacc
    have hsum : t.stores sn (.write e) + t.stores sn (.write e) = totalSize (t.logAfter sn (.write e)).disk := hacc
    rw [hstores, hlog] at hsum
    omega
  | _ => exact absurd trivial hc

theorem Unwritten.accurate_iff {calls : List Call} (h : Unwritten t) :
    (∀ front, front <+: calls → (front.foldl (Tracked.call sn) t).Accurate) ↔ AllRefused sn t calls := by
  induction calls generalizing t with
  | nil => exact iff_of_true (fun front hfront => eq_nil_of_prefix_nil hfront ▸ h.accurate) trivial
  | cons c calls ih =>
    have hcons : (∀ front, front <+: c :: calls → (front.foldl (Tracked.call sn) t).Accurate) ↔
        ∀ front, front <+: calls → (front.foldl (Tracked.call sn) (t.call sn c)).Accurate := by
      refine ⟨fun hall front hfront => hall (c :: front) (cons_prefix_cons.mpr ⟨rfl, hfront⟩),
        fun hall front hfront => ?_⟩
      cases front with
      | nil => exact h.accurate
      | cons c' front =>
        obtain ⟨rfl, hrest⟩ := cons_prefix_cons.mp hfront
        exact hall front hrest
    rw [hcons]
    by_cases hc : t.Refused c
    · rw [ih (h.call hc), AllRefused, and_iff_right hc]
    · exact iff_of_false (fun hall => h.not_accurate hc (hall [] nil_prefix)) fun hall => hc hall.1

/-- The size is right in every state of a run exactly if the run writes no record. -/
theorem accurate_run_iff (sn : Snappy) (calls : List Call) :
    (∀ front, front <+: calls → (run sn front).Accurate) ↔ AllRefused sn ⟨⟨∅, newWAL⟩, 0, []⟩ calls :=
  Unwritten.accurate_iff ⟨⟨by simp, by simp [newWAL]⟩, rfl⟩

/-- The bytes of a write are counted twice. -/
theorem not_accurate_point : ¬ (run plain [.openWAL, .write (point 1)]).Accurate := by
  unfold Accurate
  decide +kernel

variable (t)

/-- The files are listed as they were made, `Open` goes on with the last one unless that is empty, and the next one
is new. -/
structure InOrder : Prop where
  names : segmentFileNames t.log.disk = t.files
  newest : ∀ id ∈ t.files.getLast?, t.log.openWAL.wal.currentSegmentID = id ∧
    (id ∈ t.log.openWAL.disk → ∃ w ∈ t.log.openWAL.wal.currentSegmentWriter, w.segment = id)
  fresh : t.log.wal.currentSegmentID + 1 ∉ t.log.disk

/-- All files have ids of at most five digits. -/
def Short : Prop := ∀ id ∈ t.log.disk, id < 100000

/-- The invariant: the files were made in the order of their ids, up to the current one. -/
structure Inv : Prop where
  files : t.files = ids t.log.disk
  current : ∀ id ∈ t.log.disk, id ≤ t.log.wal.currentSegmentID

variable {t}

theorem Inv.inOrder (h : Inv t) (hshort : t.Short) : InOrder t := by
  have hnames := segmentFileNames_eq hshort
  refine ⟨hnames.trans h.files.symm, fun id hid => ?_, fun hmem => absurd (h.current _ hmem) (by omega)⟩
  rw [h.files, mem_def] at hid
  rw [openWAL, hnames, hid]
  dsimp only
  split_ifs
  · exact ⟨rfl, fun hmem => absurd rfl (AList.mem_erase.mp hmem).1⟩
  · exact ⟨rfl, fun _ => ⟨_, rfl, rfl⟩⟩

/-- The only new file is that of the current segment, which is behind all there were. -/
def Follows (l l' : Log) : Prop :=
  (∀ id ∈ l'.disk, id ∈ l.disk ∨ id = l'.wal.currentSegmentID) ∧
    ∀ id ∈ l.disk, id ≤ l'.wal.currentSegmentID

theorem Follows.append {l l' : Log} (h : Follows l l') (b : Bytes) : Follows l (l'.append b) := by
  have hcurrent : (l'.append b).wal.currentSegmentID = l'.wal.currentSegmentID := by
    rw [Log.append]
    split <;> rfl
  rw [Follows, hcurrent]
  refine h.imp_left fun hmem id hid => hmem id ?_
  rwa [← mem_ids, ids_append, mem_ids] at hid

theorem follows_logAfter (h : Inv t) (hshort : t.Short) (sn : Snappy) (c : Call) : Follows t.log (t.logAfter sn c) := by
  have hold : Follows t.log t.log := ⟨fun _ => .inl, h.current⟩
  have hnew : Follows t.log t.log.newSegmentFile :=
    ⟨fun _ => mem_newSegmentFile, fun id hid => (h.current id hid).trans (Nat.le_succ _)⟩
  have hopen : ∀ wal, Follows t.log (Log.openWAL ⟨t.log.disk, wal⟩) := fun wal =>
    (mem_openWAL (l := ⟨t.log.disk, wal⟩) hshort).imp_left fun hsub id hid => .inl (hsub id hid)
  cases c with
  | new => exact hopen newWAL
  | openWAL => exact hopen t.log.wal
  | close =>
    simp only [logAfter, Writes.step, close]
    split_ifs <;> exact hold
  | write e =>
    simp only [logAfter, Writes.step]
    rcases writeToLog_cases sn t.log e with ⟨err, herr⟩ | ⟨-, -, id, hok⟩
    · rw [herr]
      exact hold
    · rw [hok, rollSegment]
      split_ifs
      · exact hnew.append _
      · exact hold.append _
  | closeSegment =>
    simp only [logAfter, Writes.step, closeSegment]
    split_ifs
    · exact hnew
    · exact hold
  | remove files => exact ⟨fun id hid => .inl (mem_remove.mp hid).1, h.current⟩

theorem Inv.call (h : Inv t) (hshort : t.Short) (c : Call) : Inv (t.call sn c) := by
  obtain ⟨hmem, hle⟩ := follows_logAfter h hshort sn c
  refine ⟨(ids_eq ?_ fun id => ?_).symm, fun id hid => (hmem id hid).elim (hle id) le_of_eq⟩
  · refine Pairwise.filter _ ?_
    rw [h.files]
    split_ifs with hthere
    · exact pairwise_ids
    · refine pairwise_append.mpr ⟨pairwise_ids, pairwise_singleton _ _, fun x hx y hy => ?_⟩
      obtain rfl := mem_singleton.mp hy
      exact lt_of_le_of_ne (hle x (mem_ids.mp hx)) fun heq => hthere (heq ▸ mem_ids.mp hx)
  · refine mem_filter.trans ?_
    rw [decide_eq_true_eq]
    refine and_iff_right_of_imp fun hid => ?_
    rw [h.files]
    split_ifs with hthere
    · exact mem_ids.mpr ((hmem id hid).elim (fun hold => hold) fun heq => heq ▸ hthere)
    · exact mem_append.mpr ((hmem id hid).imp mem_ids.mpr mem_singleton.mpr)

theorem Inv.run {calls : List Call} (hshort : ∀ front, front <+: calls → (run sn front).Short) :
    Inv (run sn calls) := by
  induction calls using reverseRecOn with
  | nil => exact ⟨rfl, nofun⟩
  | append_singleton calls c ih =>
    rw [Tracked.run, foldl_append]
    exact (ih fun front hfront => hshort front (hfront.trans (prefix_append _ _))).call
      (hshort calls (prefix_append _ _)) c

/-- In every run without an id of more than five digits, the segments stay in order. -/
theorem inOrder_run (sn : Snappy) (calls : List Call) (hshort : ∀ front, front <+: calls → (run sn front).Short) :
    InOrder (run sn calls) := (Inv.run hshort).inOrder (hshort calls prefix_rfl)

/-- Two segments with a point each, of which the second is gone on with by another process. -/
theorem inOrder_run_point : InOrder (Tracked.run plain
    [.openWAL, .write (point 1), .closeSegment, .write (point 2), .close, .new, .write (point 3)]) := by
  refine inOrder_run plain _ fun front hfront id (hid : id ∈ (Tracked.run plain front).log.disk.keys) => ?_
  rw [← mem_inits] at hfront
  revert front id
  decide +kernel

/-- Every new process makes a segment, and finds the one before empty. -/
def restarts : ℕ → List Call
  | 0 => []
  | n + 1 => restarts n ++ [.new, .closeSegment]

theorem run_restarts (n : ℕ) : Tracked.run sn (restarts (n + 1)) =
    ⟨⟨AList.singleton (n + 1) [], ⟨n + 1, some ⟨n + 1, 0, 0⟩, false, false⟩⟩, 0, [n + 1]⟩ := by
  induction n with
  | zero => rfl
  | succ n ih =>
    have hopen : Log.openWAL ⟨AList.singleton (n + 1) [], newWAL⟩ = ⟨∅, ⟨n + 1, none, false, false⟩⟩ := by
      have hsize : AList.lookup (n + 1) (AList.singleton (n + 1) [] : Disk) = some [] := dlookup_cons_eq ..
      have hgone : AList.erase (n + 1) (AList.singleton (n + 1) [] : Disk) = ∅ := AList.ext (kerase_cons_eq rfl)
      simp [Log.openWAL, segmentFileNames, newWAL, hsize, hgone]
    rw [restarts, Tracked.run, foldl_append, ← Tracked.run, ih, foldl_cons, foldl_cons, foldl_nil]
    simp [Tracked.call, logAfter, hopen, Writes.step, stores, closeSegment, closes, newSegmentFile]
    exact mem_cons_self

/-- The segment with the first id of six digits is listed in front of the one before. -/
theorem not_inOrder_restarts :
    ¬ InOrder (Tracked.run plain (restarts 99999 ++ [.write (point 1), .closeSegment])) := by
  intro h
  have hnames := h.names
  rw [Tracked.run, foldl_append, ← Tracked.run, run_restarts 99998] at hnames
  revert hnames
  decide +kernel

end Tracked

end InfluxDB.Wal
