import InfluxDB.Wal.Directory

/-!
    No acknowledged entry is lost, as long as writes go to the end of a file that is on disk.

    Each file holds the records of some entries and, after a crash, bytes behind them at which a reader
    stops.  The entries of all files, in order, end with those that were acknowledged since files were last
    removed.  An open of the engine takes the bytes behind the records away, but only after the writer was
    put behind them; the next write then leaves a gap that no reader gets over.
-/

namespace InfluxDB.Wal

open Lib List Function AList Log FinMap

variable {sn : Snappy}

/-! ### What the files hold -/

/-- The files hold the records of the given entries.  Behind the records there may be bytes at which a
reader stops, unless the files are clean. -/
structure Holds (sn : Snappy) (clean : Bool) (disk : Disk) (E : ℕ → List WALEntry) : Prop where
  content : ∀ id c, disk.lookup id = some c →
    ∃ junk, Junk sn junk ∧ (clean = true → junk = []) ∧ c = (E id).flatMap (record sn) ++ junk
  storable : ∀ id, ∀ e ∈ E id, Storable sn e
  absent : ∀ id, disk.lookup id = none → E id = []

/-- The entries of all files. -/
def kept (disk : Disk) (E : ℕ → List WALEntry) : List WALEntry := (ids disk).flatMap E

variable {clean : Bool} {disk : Disk} {E : ℕ → List WALEntry} {l : List ℕ} {id : ℕ}

theorem Holds.weaken (h : Holds sn clean disk E) : Holds sn false disk E := ⟨fun id c hc => by
    obtain ⟨junk, hjunk, -, hc⟩ := h.content id c hc
    exact ⟨junk, hjunk, nofun, hc⟩, h.storable, h.absent⟩

theorem mem_iff_lookup : id ∈ disk ↔ ∃ c, disk.lookup id = some c := by
  rw [← lookup_isSome, Option.isSome_iff_exists]

/-- A file without bytes holds no entries. -/
theorem Holds.eq_nil (h : Holds sn clean disk E) (hc : disk.lookup id = some []) : E id = [] := by
  obtain ⟨junk, -, -, hjunk⟩ := h.content id [] hc
  have hnil : (E id).flatMap (record sn) = [] := (append_eq_nil_iff.mp hjunk.symm).1
  cases hE : E id with
  | nil => rfl
  | cons e es =>
    rw [hE, flatMap_cons] at hnil
    have hpos := (h.storable id e (hE ▸ mem_cons_self)).length_pos
    rw [(append_eq_nil_iff.mp hnil).1] at hpos
    exact absurd hpos (lt_irrefl 0)

/-- Files without entries do not count. -/
theorem flatMap_filter_of_nil {p : ℕ → Bool} (h : ∀ id ∈ l, p id = false → E id = []) :
    (l.filter p).flatMap E = l.flatMap E := by
  induction l with
  | nil => rfl
  | cons id l ih =>
    have hl := ih (forall_mem_cons.mp h).2
    cases hp : p id with
    | true => rw [filter_cons_of_pos hp, flatMap_cons, flatMap_cons, hl]
    | false =>
      rw [filter_cons_of_neg (by simp [hp]), flatMap_cons, h id mem_cons_self hp, nil_append, hl]

/-- An entry behind those of the last file is behind all. -/
theorem flatMap_update (hl : l.Pairwise (· < ·)) (hid : id ∈ l) (hmax : ∀ x ∈ l, x ≤ id)
    (e : WALEntry) : l.flatMap (update E id (E id ++ [e])) = l.flatMap E ++ [e] := by
  obtain ⟨s, t, rfl⟩ := append_of_mem hid
  obtain ⟨-, hcons, hs⟩ := pairwise_append.mp hl
  have ht : t = [] := by
    cases t with
    | nil => rfl
    | cons x t =>
      have hlt := rel_of_pairwise_cons hcons mem_cons_self
      have hle := hmax x (by simp)
      omega
  have hother : s.flatMap (update E id (E id ++ [e])) = s.flatMap E :=
    flatMap_congr fun x hx => update_of_ne (hs x hx id mem_cons_self).ne _ _
  rw [ht, flatMap_append, flatMap_append, hother, flatMap_singleton, flatMap_singleton, update_self, append_assoc]

/-! ### Replay -/

theorem foldl_replayFile (hl : l.Nodup) {r : List WALEntry × Disk} (hstorable : ∀ id, ∀ e ∈ E id, Storable sn e)
    (hr : ∀ id ∈ l, ∃ c, r.2.lookup id = some c ∧ ∃ junk, Junk sn junk ∧
      c = (E id).flatMap (record sn) ++ junk) :
    (l.foldl (replayFile sn) r).1 = r.1 ++ l.flatMap E ∧
      ∀ id, (l.foldl (replayFile sn) r).2.lookup id =
        if id ∈ l then some ((E id).flatMap (record sn)) else r.2.lookup id := by
  induction l generalizing r with
  | nil => simp
  | cons id l ih =>
    obtain ⟨c, hc, junk, hjunk, rfl⟩ := hr id mem_cons_self
    obtain ⟨hid, hl⟩ := nodup_cons.mp hl
    have hfile : replayFile sn r id = (r.1 ++ E id, r.2.insert id ((E id).flatMap (record sn))) := by
      rw [replayFile, hc, Option.getD_some, readFile_records (hstorable id) hjunk]
    rw [foldl_cons, hfile]
    obtain ⟨hentries, hlookup⟩ :=
      ih (r := (r.1 ++ E id, r.2.insert id ((E id).flatMap (record sn)))) hl fun x hx => by
      obtain ⟨c', hc', hjunk'⟩ := hr x (mem_cons_of_mem _ hx)
      refine ⟨c', ?_, hjunk'⟩
      rw [lookup_insert_ne (ne_of_mem_of_not_mem hx hid)]
      exact hc'
    refine ⟨by rw [hentries, flatMap_cons, append_assoc], fun x => ?_⟩
    rw [hlookup, lookup_insert_eq]
    by_cases hx : x = id
    · rw [hx, if_neg hid, if_pos rfl, if_pos mem_cons_self]
    · simp [hx]

/-- A replay delivers the entries of all files and leaves their records. -/
theorem Holds.replay (h : Holds sn clean disk E) (hids : ∀ id ∈ disk, id < 100000) (wal : WAL) :
    ((⟨disk, wal⟩ : Log).replay sn).1 = kept disk E ∧ ((⟨disk, wal⟩ : Log).replay sn).2.wal = wal ∧
      ∀ id, ((⟨disk, wal⟩ : Log).replay sn).2.disk.lookup id =
        (disk.lookup id).map fun _ => (E id).flatMap (record sn) := by
  have hnodup : (ids disk).Nodup := pairwise_ids.imp ne_of_lt
  obtain ⟨hentries, hlookup⟩ := foldl_replayFile (r := ([], disk)) hnodup h.storable fun id hid => by
    obtain ⟨c, hc⟩ := mem_iff_lookup.mp (mem_ids.mp hid)
    obtain ⟨junk, hjunk, -, hcontent⟩ := h.content id c hc
    exact ⟨c, hc, junk, hjunk, hcontent⟩
  rw [Log.replay, segmentFileNames_eq hids]
  refine ⟨hentries, rfl, fun id => (hlookup id).trans ?_⟩
  cases hid : disk.lookup id with
  | none =>
    rw [if_neg (by rw [mem_ids, mem_iff_lookup, hid]; simp)]
    rfl
  | some c =>
    rw [if_pos (mem_ids.mpr (mem_iff_lookup.mpr ⟨c, hid⟩))]
    rfl

/-! ### One step -/

/-- A log on disk, seen from a process: the entries of the files, the writer on the last file and not in front
of its end, and no id behind the current one. -/
structure Running (sn : Snappy) (l : Log) (E : ℕ → List WALEntry) : Prop where
  holds : Holds sn true l.disk E
  writer : ∀ w ∈ l.wal.currentSegmentWriter, ∀ c, l.disk.lookup w.segment = some c →
    c.length ≤ w.pos ∧ ∀ id ∈ l.disk, id ≤ w.segment
  current : ∀ id ∈ l.disk, id ≤ l.wal.currentSegmentID

/-- The writer is at the end of a file that is on disk. -/
def Log.AtEnd (l : Log) : Prop :=
  ∃ w ∈ l.wal.currentSegmentWriter, ∃ c ∈ l.disk.lookup w.segment, w.pos = c.length

instance decidableAtEnd (l : Log) : Decidable l.AtEnd :=
  inferInstanceAs (Decidable (∃ w ∈ l.wal.currentSegmentWriter, ∃ c ∈ l.disk.lookup w.segment,
    w.pos = c.length))

variable {l : Log}

/-- A new segment makes at most the file of its id. -/
theorem mem_newSegmentFile {id : ℕ} (h : id ∈ l.newSegmentFile.disk) :
    id ∈ l.disk ∨ id = l.wal.currentSegmentID + 1 := by
  rw [newSegmentFile] at h
  split_ifs at h
  · exact .inl h
  · exact ((mem_insert _).mp h).symm

/-- A write makes no file. -/
theorem ids_append (b : Bytes) : ids (l.append b).disk = ids l.disk := by
  rw [append]
  cases l.wal.currentSegmentWriter with
  | none => rfl
  | some w =>
    dsimp only
    cases hc : l.disk.lookup w.segment with
    | none => rfl
    | some c => exact ids_insert_of_mem (mem_iff_lookup.mpr ⟨c, hc⟩) _

section

variable {w : SegmentWriter} (hw : l.wal.currentSegmentWriter = some w) (b : Bytes)
include hw

theorem wal_append : (l.append b).wal =
    { l.wal with currentSegmentWriter := some ⟨w.segment, w.pos + b.length, w.size + b.length⟩ } := by
  rw [append, hw]

/-- A write at the end of a file makes it longer. -/
theorem disk_append {c : Bytes} (hc : l.disk.lookup w.segment = some c) (hpos : w.pos = c.length) :
    (l.append b).disk = l.disk.insert w.segment (c ++ b) := by
  rw [append, hw]
  dsimp only
  rw [hc, hpos]
  dsimp only
  rw [writeAt_length]

theorem disk_append_of_removed (hc : l.disk.lookup w.segment = none) : (l.append b).disk = l.disk := by
  rw [append, hw]
  dsimp only
  rw [hc]

end

/-- A new segment is a new file without entries. -/
theorem Running.newSegmentFile (h : Running sn l E) :
    Running sn l.newSegmentFile E ∧ l.newSegmentFile.AtEnd ∧
      ids l.newSegmentFile.disk = ids l.disk ++ [l.wal.currentSegmentID + 1] ∧
        E (l.wal.currentSegmentID + 1) = [] := by
  have hfresh : ∀ x ∈ l.disk, x < l.wal.currentSegmentID + 1 := fun x hx => Nat.lt_succ_of_le (h.current x hx)
  have hnone : l.disk.lookup (l.wal.currentSegmentID + 1) = none := by
    cases hlookup : l.disk.lookup (l.wal.currentSegmentID + 1) with
    | none => rfl
    | some c => exact absurd (hfresh _ (mem_iff_lookup.mpr ⟨c, hlookup⟩)) (lt_irrefl _)
  have hdisk : l.newSegmentFile.disk = l.disk.insert (l.wal.currentSegmentID + 1) [] := by
    rw [Log.newSegmentFile, hnone]
    rfl
  have hwriter : l.newSegmentFile.wal.currentSegmentWriter = some ⟨l.wal.currentSegmentID + 1, 0, 0⟩ := rfl
  have hnil := h.holds.absent _ hnone
  have hle : ∀ x ∈ l.newSegmentFile.disk, x ≤ l.wal.currentSegmentID + 1 := by
    intro x hx
    rcases mem_newSegmentFile hx with hx | rfl
    · exact (hfresh x hx).le
    · exact le_rfl
  refine ⟨⟨⟨fun x c hc => ?_, h.holds.storable, fun x hx => ?_⟩, ?_, hle⟩, ?_, ?_, hnil⟩
  · rw [hdisk, lookup_insert_eq] at hc
    split_ifs at hc with hx
    · cases hc
      exact ⟨[], .inl rfl, fun _ => rfl, by rw [hx, hnil]; rfl⟩
    · exact h.holds.content x c hc
  · rw [hdisk, lookup_insert_eq] at hx
    split_ifs at hx
    exact h.holds.absent x hx
  · rw [hwriter]
    rintro w ⟨⟩ c hc
    rw [hdisk, lookup_insert] at hc
    cases hc
    exact ⟨le_rfl, hle⟩
  · exact ⟨_, hwriter, [], by rw [hdisk, lookup_insert]; rfl, rfl⟩
  · rw [hdisk, ids_insert_of_lt hfresh]

/-- The segment of a write that rolls, or does not have to. -/
theorem Running.rollSegment (h : Running sn l E) :
    Running sn l.rollSegment E ∧ (∀ p : ℕ → Bool, p (l.wal.currentSegmentID + 1) = true →
      ((ids l.rollSegment.disk).filter p).flatMap E = ((ids l.disk).filter p).flatMap E) ∧
      (l.rolls = true → l.rollSegment.AtEnd ∧
        ∀ w ∈ l.rollSegment.wal.currentSegmentWriter, w.segment = l.wal.currentSegmentID + 1) := by
  rw [Log.rollSegment]
  cases hrolls : l.rolls with
  | false => exact ⟨h, fun _ _ => rfl, nofun⟩
  | true =>
    obtain ⟨hrun, hend, hids, hnil⟩ := h.newSegmentFile
    rw [if_pos rfl]
    refine ⟨hrun, fun p hp => ?_, fun _ => ⟨hend, ?_⟩⟩
    · rw [hids, filter_append, flatMap_append, filter_cons_of_pos hp, filter_nil, flatMap_singleton, hnil, append_nil]
    · rintro w ⟨⟩
      rfl

/-- A record that is written at the end of a file is behind all entries. -/
theorem Running.append (h : Running sn l E) (hend : l.AtEnd) {e : WALEntry} (he : Storable sn e) :
    ∃ E', Running sn (l.append (record sn e)) E' ∧ (l.append (record sn e)).AtEnd ∧
      ∀ w ∈ l.wal.currentSegmentWriter, ∀ p : ℕ → Bool, p w.segment = true →
        ((ids l.disk).filter p).flatMap E' = ((ids l.disk).filter p).flatMap E ++ [e] := by
  obtain ⟨w, hw, c, hc, hpos⟩ := hend
  rw [Option.mem_def] at hw hc
  have hmem : w.segment ∈ l.disk := mem_iff_lookup.mpr ⟨c, hc⟩
  obtain ⟨-, hmax⟩ := h.writer w hw c hc
  have hdisk := disk_append hw (record sn e) hc hpos
  have hwriter := wal_append hw (record sn e)
  have hin : ∀ x, x ∈ (l.append (record sn e)).disk ↔ x ∈ l.disk := by
    intro x
    rw [← mem_ids, ids_append, mem_ids]
  refine ⟨update E w.segment (E w.segment ++ [e]), ⟨⟨fun x c' hc' => ?_, fun x e' he' => ?_, fun x hx => ?_⟩,
    ?_, ?_⟩, ?_, ?_⟩
  · rw [hdisk, lookup_insert_eq] at hc'
    split_ifs at hc' with hx
    · cases hc'
      obtain ⟨junk, -, hclean, hcontent⟩ := h.holds.content w.segment c hc
      refine ⟨[], .inl rfl, fun _ => rfl, ?_⟩
      rw [hx, update_self, flatMap_append, flatMap_singleton, append_nil, hcontent, hclean rfl, append_nil]
    · rw [update_of_ne hx]
      exact h.holds.content x c' hc'
  · by_cases hx : x = w.segment
    · rw [hx, update_self] at he'
      rcases mem_append.mp he' with he' | he'
      · exact h.holds.storable _ e' he'
      · exact mem_singleton.mp he' ▸ he
    · rw [update_of_ne hx] at he'
      exact h.holds.storable x e' he'
  · rw [hdisk, lookup_insert_eq] at hx
    split_ifs at hx with hne
    rw [update_of_ne hne]
    exact h.holds.absent x hx
  · rw [hwriter]
    rintro w' ⟨⟩ c' hc'
    rw [hdisk, lookup_insert] at hc'
    cases hc'
    exact ⟨by rw [length_append, hpos], fun x hx => hmax x ((hin x).mp hx)⟩
  · rw [hwriter]
    exact fun x hx => h.current x ((hin x).mp hx)
  · refine ⟨_, by rw [hwriter]; rfl, c ++ record sn e, by rw [hdisk, lookup_insert]; rfl, ?_⟩
    rw [length_append, hpos]
  · rintro w' hw' p hp
    obtain rfl : w = w' := Option.some.inj (hw.symm.trans hw')
    exact flatMap_update (pairwise_ids.filter p) (mem_filter.mpr ⟨mem_ids.mpr hmem, hp⟩)
      (fun x hx => hmax x (mem_ids.mp (mem_filter.mp hx).1)) e

/-- What is written from now on goes to none of the given files. -/
def Log.Behind (l : Log) (files : List ℕ) : Prop :=
  (∀ f ∈ files, f ≤ l.wal.currentSegmentID) ∧ ∀ w ∈ l.wal.currentSegmentWriter, w.segment ∉ files

/-- The entries of all files but the given ones. -/
def keptOutside (files : List ℕ) (disk : Disk) (E : ℕ → List WALEntry) : List WALEntry :=
  ((ids disk).filter fun id => id ∉ files).flatMap E

theorem keptOutside_nil : keptOutside [] disk E = kept disk E := by
  rw [keptOutside, kept, filter_eq_self.mpr fun _ _ => by simp]

theorem Log.behind_nil : l.Behind [] := ⟨nofun, fun _ _ => not_mem_nil⟩

variable {files : List ℕ}

/-- A new segment takes the writer away from all files there are. -/
theorem Log.Behind.newSegmentFile (h : l.Behind files) : l.newSegmentFile.Behind files := by
  refine ⟨fun f hf => (h.1 f hf).trans (Nat.le_succ _), ?_⟩
  rintro w ⟨⟩ hf
  exact absurd (h.1 _ hf) (Nat.not_succ_le_self _)

section

variable (h : Running sn l E)
include h

theorem Running.keptOutside_newSegmentFile (hfiles : l.Behind files) :
    keptOutside files l.newSegmentFile.disk E = keptOutside files l.disk E := by
  obtain ⟨-, -, hids, hnil⟩ := h.newSegmentFile
  have hnew : l.wal.currentSegmentID + 1 ∉ files := fun hf => absurd (hfiles.1 _ hf) (Nat.not_succ_le_self _)
  rw [keptOutside, keptOutside, hids, filter_append, flatMap_append, filter_cons_of_pos (by simpa using hnew),
    filter_nil, flatMap_singleton, hnil, append_nil]

omit h in
/-- A write fails and changes nothing, or puts the record of the entry behind what the writer has written. -/
theorem writeToLog_cases (sn : Snappy) (l : Log) (e : WALEntry) :
    (∃ err, l.writeToLog sn e = (.error err, l)) ∨
      ∃ b, e.encode = .ok b ∧ ∃ id, l.writeToLog sn e = (.ok id, l.rollSegment.append (record sn e)) := by
  rw [writeToLog, record]
  cases e.encode with
  | error err => exact .inl ⟨_, rfl⟩
  | ok b =>
    cases l.wal.closed with
    | true => exact .inl ⟨_, rfl⟩
    | false => exact .inr ⟨b, rfl, _, rfl⟩

/-- The record of a write is behind all entries of files that it may go to. -/
theorem Running.write (hend : l.rolls = false → l.AtEnd) {e : WALEntry} (he : Storable sn e) :
    ∃ E', Running sn (l.rollSegment.append (record sn e)) E' ∧ (l.rollSegment.append (record sn e)).AtEnd ∧
      ∀ files, l.Behind files → (l.rollSegment.append (record sn e)).Behind files ∧
        keptOutside files (l.rollSegment.append (record sn e)).disk E' = keptOutside files l.disk E ++ [e] := by
  obtain ⟨hroll, hend', hbehind⟩ : Running sn l.rollSegment E ∧ l.rollSegment.AtEnd ∧
      ∀ files, l.Behind files →
      l.rollSegment.Behind files ∧ keptOutside files l.rollSegment.disk E = keptOutside files l.disk E := by
    rw [Log.rollSegment]
    cases hrolls : l.rolls with
    | false => exact ⟨h, hend hrolls, fun files hfiles => ⟨hfiles, rfl⟩⟩
    | true =>
      obtain ⟨hrun, hend', -⟩ := h.newSegmentFile
      exact ⟨hrun, hend', fun files hfiles => ⟨hfiles.newSegmentFile, h.keptOutside_newSegmentFile hfiles⟩⟩
  obtain ⟨E', hrun, hatEnd, hflat⟩ := hroll.append hend' he
  refine ⟨E', hrun, hatEnd, fun files hfiles => ?_⟩
  obtain ⟨⟨hle, hwriter⟩, hkept⟩ := hbehind files hfiles
  obtain ⟨w, hw, -⟩ := hend'
  rw [Option.mem_def] at hw
  refine ⟨?_, ?_⟩
  · rw [Log.append, hw]
    refine ⟨hle, ?_⟩
    rintro w' ⟨⟩
    exact hwriter w hw
  · rw [keptOutside, ids_append, hflat w hw _ (by simpa using hwriter w hw), ← hkept, keptOutside]

theorem Running.closeSegment :
    Running sn l.closeSegment E ∧ (l.closes = true → l.closeSegment.AtEnd) ∧
      ∀ files, l.Behind files → l.closeSegment.Behind files ∧
        keptOutside files l.closeSegment.disk E = keptOutside files l.disk E := by
  rw [Log.closeSegment]
  cases hcloses : l.closes with
  | false => exact ⟨h, nofun, fun files hfiles => ⟨hfiles, rfl⟩⟩
  | true =>
    obtain ⟨hrun, hend, -⟩ := h.newSegmentFile
    exact ⟨hrun, fun _ => hend,
      fun files hfiles => ⟨hfiles.newSegmentFile, h.keptOutside_newSegmentFile hfiles⟩⟩

theorem Running.behind_closedSegments : l.Behind l.closedSegments := by
  refine ⟨fun f hf => h.current f ?_, fun w hw hf => ?_⟩
  · have hkeys : f ∈ l.disk.keys := (perm_insertionSort _ _).mem_iff.mp (mem_filter.mp hf).1
    exact hkeys
  · have := (mem_filter.mp hf).2
    rw [Option.mem_def.mp hw] at this
    simp at this

omit h in
theorem lookup_remove (files : List ℕ) (disk : Disk) (id : ℕ) :
    (files.foldl (fun disk id => disk.erase id) disk).lookup id = if id ∈ files then none else disk.lookup id := by
  induction files generalizing disk with
  | nil => rfl
  | cons f files ih =>
    rw [foldl_cons, ih]
    by_cases hf : id = f
    · subst hf
      simp
    · rw [lookup_erase_ne hf]
      simp [hf]

omit h in
theorem mem_remove : id ∈ (l.remove files).disk ↔ id ∈ l.disk ∧ decide (id ∉ files) = true := by
  rw [← lookup_isSome, ← lookup_isSome, remove, lookup_remove, decide_eq_true_eq]
  by_cases hid : id ∈ files <;> simp [hid]

/-- The entries of files that are removed are gone, all others stay. -/
theorem Running.remove (files : List ℕ) :
    ∃ E', Running sn (l.remove files) E' ∧ kept (l.remove files).disk E' = keptOutside files l.disk E ∧
      ∀ files', files ⊆ files' → keptOutside files' (l.remove files).disk E' = keptOutside files' l.disk E := by
  have hlookup : ∀ id, (l.remove files).disk.lookup id = if id ∈ files then none else l.disk.lookup id :=
    lookup_remove files l.disk
  have hkeep : ∀ id c, (l.remove files).disk.lookup id = some c → id ∉ files ∧ l.disk.lookup id = some c := by
    intro id c hc
    rw [hlookup] at hc
    split_ifs at hc with hid
    exact ⟨hid, hc⟩
  refine ⟨fun id => if id ∈ files then [] else E id,
    ⟨⟨fun id c hc => ?_, fun id e he => ?_, fun id hid => ?_⟩,
    fun w hw c hc => ?_, fun id hid => h.current id (mem_remove.mp hid).1⟩, ?_, fun files' hfiles => ?_⟩
  · obtain ⟨hid, hc⟩ := hkeep id c hc
    rw [if_neg hid]
    exact h.holds.content id c hc
  · split_ifs at he
    · exact absurd he not_mem_nil
    · exact h.holds.storable id e he
  · rw [hlookup] at hid
    split_ifs at hid ⊢ with hmem
    · rfl
    · exact h.holds.absent id hid
  · obtain ⟨-, hc⟩ := hkeep w.segment c hc
    obtain ⟨hpos, hmax⟩ := h.writer w hw c hc
    exact ⟨hpos, fun id hid => hmax id (mem_remove.mp hid).1⟩
  · rw [kept, ids_of_mem_iff fun id => mem_remove]
    exact flatMap_congr fun id hid => if_neg (by simpa using (mem_filter.mp hid).2)
  · have hids : (ids (l.remove files).disk).filter (fun id => id ∉ files') =
        (ids l.disk).filter fun id => id ∉ files' := by
      rw [ids_of_mem_iff fun id => mem_remove, filter_filter]
      refine filter_congr fun id _ => ?_
      have : id ∈ files → id ∈ files' := fun hid => hfiles hid
      by_cases hid : id ∈ files' <;> simp [hid]
      exact fun hmem => hid (this hmem)
    rw [keptOutside, keptOutside, hids]
    exact flatMap_congr fun id hid => if_neg fun hmem => by simpa [hfiles hmem] using (mem_filter.mp hid).2

/-- Bytes of a record that was not finished are not read. -/
theorem Running.holds_append_torn {torn : Bytes} (htorn : Junk sn torn) : Holds sn false (l.append torn).disk E := by
  rw [Log.append]
  cases hw : l.wal.currentSegmentWriter with
  | none => exact h.holds.weaken
  | some w =>
    dsimp only
    cases hc : l.disk.lookup w.segment with
    | none => exact h.holds.weaken
    | some c =>
      refine ⟨fun x c' hc' => ?_, h.holds.storable, fun x hx => ?_⟩
      · rw [lookup_insert_eq] at hc'
        split_ifs at hc' with hx
        · cases hc'
          obtain ⟨junk, -, hclean, hcontent⟩ := h.holds.content w.segment c hc
          rw [hclean rfl, append_nil] at hcontent
          obtain ⟨hpos, -⟩ := h.writer w hw c hc
          subst hx
          by_cases hnil : torn = []
          · exact ⟨[], .inl rfl, fun _ => rfl, by rw [writeAt, if_pos hnil, append_nil, hcontent]⟩
          · refine ⟨replicate (w.pos - c.length) 0 ++ torn, ?_, by simp, ?_⟩
            · -- A gap of zeros is as unreadable as what stands behind it.
              cases w.pos - c.length with
              | zero => exact htorn
              | succ n => exact junk_zero _
            · rw [writeAt_of_le hpos hnil, ← hcontent]
        · obtain ⟨junk, hjunk, -, hcontent⟩ := h.holds.content x c' hc'
          exact ⟨junk, hjunk, by simp, hcontent⟩
      · rw [lookup_insert_eq] at hx
        split_ifs at hx
        exact h.holds.absent x hx

end

/-! ### Opening -/

/-- The files of a log that is not open; a writer that was left on one of them is on the last. -/
structure Stopped (sn : Snappy) (l : Log) (E : ℕ → List WALEntry) : Prop where
  holds : Holds sn false l.disk E
  writer : ∀ w ∈ l.wal.currentSegmentWriter, w.segment ∈ l.disk → ∀ id ∈ l.disk, id ≤ w.segment

theorem Running.stopped (h : Running sn l E) : Stopped sn l E := by
  refine ⟨h.holds.weaken, fun w hw hmem => ?_⟩
  obtain ⟨c, hc⟩ := mem_iff_lookup.mp hmem
  exact (h.writer w hw c hc).2

theorem notMem_of_getLast?_ids (h : (ids l.disk).getLast? = none) (id : ℕ) : id ∉ l.disk := by
  intro hid
  rw [← mem_ids, getLast?_eq_none_iff.mp h] at hid
  exact absurd hid not_mem_nil

/-- `WAL.Open` makes no file, and goes on behind the last one. -/
theorem mem_openWAL (hids : ∀ id ∈ l.disk, id < 100000) :
    (∀ id ∈ l.openWAL.disk, id ∈ l.disk) ∧ ∀ id ∈ l.disk, id ≤ l.openWAL.wal.currentSegmentID := by
  rw [openWAL, segmentFileNames_eq hids]
  cases hlast : (ids l.disk).getLast? with
  | none => exact ⟨fun _ hid => hid, fun id hid => absurd hid (notMem_of_getLast?_ids hlast id)⟩
  | some last =>
    obtain ⟨-, hmax⟩ := le_of_getLast?_ids hlast
    dsimp only
    split_ifs
    · exact ⟨fun id hid => (mem_erase.mp hid).2, hmax⟩
    · exact ⟨fun _ hid => hid, hmax⟩

/-- `WAL.Open` keeps the entries, and puts the writer behind the bytes of the last file. -/
theorem Stopped.openWAL (h : Stopped sn l E) (hids : ∀ id ∈ l.disk, id < 100000) :
    Holds sn false l.openWAL.disk E ∧ kept l.openWAL.disk E = kept l.disk E ∧
      (∀ w ∈ l.openWAL.wal.currentSegmentWriter, ∀ c, l.openWAL.disk.lookup w.segment = some c →
        c.length ≤ w.pos ∧ ∀ id ∈ l.openWAL.disk, id ≤ w.segment) := by
  rw [Log.openWAL, segmentFileNames_eq hids]
  cases hlast : (ids l.disk).getLast? with
  | none =>
    exact ⟨h.holds, rfl, fun w _ c hc => absurd (mem_iff_lookup.mpr ⟨c, hc⟩) (notMem_of_getLast?_ids hlast _)⟩
  | some id =>
    obtain ⟨hmem, hmax⟩ := le_of_getLast?_ids hlast
    obtain ⟨c, hc⟩ := mem_iff_lookup.mp hmem
    dsimp only
    rw [hc, Option.getD_some]
    by_cases hsize : c.length = 0
    · rw [if_pos hsize]
      obtain rfl : c = [] := eq_nil_of_length_eq_zero hsize
      have hnil := h.holds.eq_nil hc
      have hin : ∀ x, x ∈ l.disk.erase id ↔ x ∈ l.disk ∧ decide (x ≠ id) = true := by
        intro x
        rw [mem_erase, decide_eq_true_eq, and_comm]
      have hlookup : ∀ x, x ≠ id → (l.disk.erase id).lookup x = l.disk.lookup x := fun x hx => lookup_erase_ne hx
      refine ⟨⟨fun x c hc => ?_, h.holds.storable, fun x hx => ?_⟩, ?_, fun w hw c hc => ?_⟩
      · have hx : x ≠ id := by simpa using ((hin x).mp (mem_iff_lookup.mpr ⟨c, hc⟩)).2
        rw [hlookup x hx] at hc
        exact h.holds.content x c hc
      · by_cases hne : x = id
        · rw [hne, hnil]
        · rw [hlookup x hne] at hx
          exact h.holds.absent x hx
      · rw [kept, kept, ids_of_mem_iff hin]
        refine flatMap_filter_of_nil fun x _ hx => ?_
        obtain rfl : x = id := by simpa using hx
        exact hnil
      · -- A writer that was left over was on the last file, which is gone.
        obtain ⟨hon, hne⟩ := (hin w.segment).mp (mem_iff_lookup.mpr ⟨c, hc⟩)
        have hle := h.writer w hw hon id hmem
        have hge := hmax w.segment hon
        exact absurd (le_antisymm hge hle) (by simpa using hne)
    · rw [if_neg hsize]
      refine ⟨h.holds, rfl, ?_⟩
      rintro w ⟨⟩ c' hc'
      rw [hc] at hc'
      cases hc'
      exact ⟨le_rfl, hmax⟩

/-- An open of the engine delivers the entries of all files. -/
theorem Stopped.replay (h : Stopped sn l E) (hids : ∀ id ∈ l.disk, id < 100000) :
    (l.openWAL.replay sn).1 = kept l.disk E ∧ Running sn (l.openWAL.replay sn).2 E ∧
      kept (l.openWAL.replay sn).2.disk E = kept l.disk E ∧ ∀ id ∈ (l.openWAL.replay sn).2.disk,
        id ∈ l.disk := by
  obtain ⟨hholds, hkept, hwriter⟩ := h.openWAL hids
  obtain ⟨hsub, hcurrent⟩ := mem_openWAL hids
  generalize l.openWAL = l' at hholds hkept hwriter hsub hcurrent ⊢
  obtain ⟨hentries, hwal, hlookup⟩ := hholds.replay (fun id hid => hids id (hsub id hid)) l'.wal
  have hin : ∀ x, x ∈ (l'.replay sn).2.disk ↔ x ∈ l'.disk := by
    intro x
    rw [← lookup_isSome, ← lookup_isSome, hlookup, Option.isSome_map]
  have hlist : ids (l'.replay sn).2.disk = ids l'.disk := ids_eq pairwise_ids fun x => by rw [mem_ids, hin]
  refine ⟨hentries.trans hkept, ⟨⟨fun x c hc => ?_, hholds.storable, fun x hx => ?_⟩,
    fun w hw c hc => ?_, fun x hx => ?_⟩, ?_, fun x hx => hsub x ((hin x).mp hx)⟩
  · rw [hlookup, Option.map_eq_some_iff] at hc
    obtain ⟨_, -, rfl⟩ := hc
    exact ⟨[], .inl rfl, fun _ => rfl, (append_nil _).symm⟩
  · rw [hlookup, Option.map_eq_none_iff] at hx
    exact hholds.absent x hx
  · rw [hwal] at hw
    rw [hlookup, Option.map_eq_some_iff] at hc
    obtain ⟨c', hc', rfl⟩ := hc
    obtain ⟨hpos, hmax⟩ := hwriter w hw c' hc'
    obtain ⟨junk, -, -, rfl⟩ := hholds.content _ c' hc'
    rw [length_append] at hpos
    exact ⟨by omega, fun x hx => hmax x ((hin x).mp hx)⟩
  · rw [hwal]
    exact hcurrent x (hsub x ((hin x).mp hx))
  · rw [kept, hlist]
    exact hkept

end InfluxDB.Wal
