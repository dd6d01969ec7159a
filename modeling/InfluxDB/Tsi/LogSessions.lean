import InfluxDB.Tsi.LogEntry

/-!
    A log file of the series index that is opened and written in turn, with a crash at the end of each
    session.  A crash leaves a part of what the session wrote, with the entries that were flushed, and may
    cut the file behind them.  Bytes of an entry that an earlier crash cut off stay behind what is
    written over them, and the next session reads on there.
-/

namespace InfluxDB.Tsi

open Lib LogEntry List Nat

variable (crc : Checksum)

/-- The loop of `LogFile.open`; each entry takes at least one of the `fuel` bytes. -/
def openLoop (sfile : SeriesFile) : ℕ → Bytes → Contents → ℕ → Except LogError (Contents × ℕ)
  | 0, _, _, _ => .error .panic
  | fuel + 1, buf, f, n =>
    if buf.length > 0 then
      match unmarshalBinary crc buf with
      | .error .shortBuffer => .ok (f, n)
      | .error .checksumMismatch => .ok (f, n)
      | .error err => .error err
      | .ok (e, size) => openLoop sfile fuel (buf.drop size) (f.execEntry sfile e) (n + size)
    else .ok (f, n)

/-- `LogFile.open`: the contents, and the position for the next entry. -/
def openLog (sfile : SeriesFile) (data : Bytes) : Except LogError (Contents × ℕ) :=
  openLoop crc sfile (data.length + 1) data .new 0

/-- The bytes of entries. -/
def appendEntries (es : List LogEntry) : Bytes := es.flatMap (appendLogEntry crc)

/-- A session that opens the file, appends entries and ends with a crash: how many of the entries were flushed, how many
of their bytes reached the file, and where the file is cut. -/
structure Session where
  sfile : SeriesFile
  entries : List LogEntry
  flushed : ℕ
  written : ℕ
  cut : ℕ

namespace Session

variable (s : Session)

/-- The file that a session leaves which began to write at a position. -/
def file (data : Bytes) (n : ℕ) : Bytes := (writeAt data n ((appendEntries crc s.entries).take s.written)).take s.cut

/-- The flushed entries are in the file, and not cut. -/
structure Possible (n : ℕ) : Prop where
  fits : ∀ e ∈ s.entries, e.Fits crc
  written : s.written ≤ (appendEntries crc s.entries).length
  flushed : (appendEntries crc (s.entries.take s.flushed)).length ≤ s.written
  cut : n + (appendEntries crc (s.entries.take s.flushed)).length ≤ s.cut

/-- No byte of the file lies behind those that the session wrote, unless it wrote none. -/
def Clean (data : Bytes) (n : ℕ) : Prop := s.written = 0 ∨ (s.file crc data n).length ≤ n + s.written

end Session

/-- The entries whose bytes are among the first ones. -/
def wholeEntries : List LogEntry → ℕ → List LogEntry
  | [], _ => []
  | e :: es, len =>
    if (appendLogEntry crc e).length ≤ len then e :: wholeEntries es (len - (appendLogEntry crc e).length) else []

/-- The files that sessions lead to which keep to a condition, with the entries that were completely written. -/
inductive Reaches (ok : Session → Bytes → ℕ → Prop) : Bytes → List LogEntry → Prop where
  | new : Reaches ok [] []
  | session {data : Bytes} {es : List LogEntry} {f : Contents} {n : ℕ} (s : Session) (h : Reaches ok data es)
      (hopen : openLog crc s.sfile data = .ok (f, n)) (hpossible : s.Possible crc n) (hok : ok s data n) :
      Reaches ok (s.file crc data n) (es ++ wholeEntries crc s.entries (min s.written (s.cut - n)))

variable {crc} {b : Bytes}

/-! ### Entries and a rest that is cut off -/

/-- No bytes, or the first ones of an entry. -/
def Torn (crc : Checksum) (b : Bytes) : Prop :=
  b = [] ∨ ∃ e k, e.Fits crc ∧ k < (appendLogEntry crc e).length ∧ b = (appendLogEntry crc e).take k

theorem length_appendLogEntry_pos (crc : Checksum) (e : LogEntry) : 0 < (appendLogEntry crc e).length := by
  rw [length_appendLogEntry]
  omega

theorem Torn.take (h : Torn crc b) (k : ℕ) : Torn crc (b.take k) := by
  rcases h with rfl | ⟨e, j, he, hj, rfl⟩
  · exact .inl take_nil
  · exact .inr ⟨e, min k j, he, (min_le_right _ _).trans_lt hj, take_take⟩

variable {es : List LogEntry}

/-- Opening a file executes the entries in front of a part of another one. -/
theorem openLoop_append {sfile : SeriesFile} (hes : ∀ e ∈ es, e.Fits crc)
    (hb : Torn crc b) {fuel : ℕ} (hfuel : es.length < fuel) (f : Contents) (n : ℕ) :
    openLoop crc sfile fuel (appendEntries crc es ++ b) f n =
      .ok (f.execEntries sfile (es.map stored), n + (appendEntries crc es).length) := by
  induction es generalizing fuel f n with
  | nil =>
    obtain ⟨fuel, rfl⟩ := exists_eq_add_one_of_ne_zero (ne_of_gt hfuel)
    rw [openLoop, appendEntries, flatMap_nil, nil_append]
    rcases hb with rfl | ⟨e, k, he, hk, rfl⟩
    · rfl
    · rw [he.unmarshalBinary_take hk, ite_self]
      rfl
  | cons e es ih =>
    obtain ⟨fuel, rfl⟩ := exists_eq_add_one_of_ne_zero (ne_of_gt (zero_lt_of_lt hfuel))
    obtain ⟨he, hes⟩ := forall_mem_cons.mp hes
    have hpos := length_appendLogEntry_pos crc e
    rw [openLoop, appendEntries, flatMap_cons, append_assoc, if_pos (by rw [length_append]; omega),
      he.unmarshalBinary_append]
    dsimp only
    rw [drop_left]
    refine (ih hes (by simpa using hfuel) _ _).trans ?_
    rw [length_append, add_assoc]
    rfl

theorem length_le_appendEntries (crc : Checksum) (es : List LogEntry) :
    es.length ≤ (appendEntries crc es).length := by
  induction es with
  | nil => exact zero_le _
  | cons e es ih =>
    have hpos := length_appendLogEntry_pos crc e
    rw [appendEntries, flatMap_cons, length_append, length_cons]
    rw [appendEntries] at ih
    omega

theorem openLog_append (sfile : SeriesFile) (hes : ∀ e ∈ es, e.Fits crc)
    (hb : Torn crc b) :
    openLog crc sfile (appendEntries crc es ++ b) =
      .ok (Contents.new.execEntries sfile (es.map stored), (appendEntries crc es).length) := by
  have hlen := length_le_appendEntries crc es
  rw [openLog, openLoop_append hes hb (by rw [length_append]; omega), zero_add]

theorem wholeEntries_subset (es : List LogEntry) (k : ℕ) : wholeEntries crc es k ⊆ es := by
  induction es generalizing k with
  | nil => exact List.Subset.refl _
  | cons e es ih =>
    rw [wholeEntries]
    split_ifs
    · exact cons_subset_cons _ (ih _)
    · exact nil_subset _

/-- The first bytes of entries are those of whole entries and of a part of one. -/
theorem take_appendEntries (hes : ∀ e ∈ es, e.Fits crc) (k : ℕ) :
    ∃ b, Torn crc b ∧ (appendEntries crc es).take k = appendEntries crc (wholeEntries crc es k) ++ b := by
  induction es generalizing k with
  | nil => exact ⟨[], .inl rfl, take_nil⟩
  | cons e es ih =>
    obtain ⟨he, hes⟩ := forall_mem_cons.mp hes
    rw [wholeEntries, appendEntries, flatMap_cons]
    split_ifs with hle
    · obtain ⟨b, hb, heq⟩ := ih hes (k - (appendLogEntry crc e).length)
      refine ⟨b, hb, ?_⟩
      rw [take_append, take_of_length_le hle, appendEntries, flatMap_cons, append_assoc]
      exact congrArg _ heq
    · refine ⟨(appendLogEntry crc e).take k, .inr ⟨e, k, he, not_le.mp hle, rfl⟩, ?_⟩
      rw [take_append_of_le_length (not_le.mp hle).le]
      rfl

theorem wholeEntries_zero (es : List LogEntry) : wholeEntries crc es 0 = [] := by
  cases es with
  | nil => rfl
  | cons e es => rw [wholeEntries, if_neg (not_le.mpr (length_appendLogEntry_pos crc e))]

/-! ### Sessions -/

/-- What a clean session leaves of a file of entries. -/
theorem Session.file_append (s : Session)
    (hpossible : s.Possible crc (appendEntries crc es).length)
    (hclean : s.Clean crc (appendEntries crc es ++ b) (appendEntries crc es).length) (hb : Torn crc b) :
    ∃ b', Torn crc b' ∧ s.file crc (appendEntries crc es ++ b) (appendEntries crc es).length =
      appendEntries crc (es ++
        wholeEntries crc s.entries (min s.written (s.cut - (appendEntries crc es).length))) ++ b' := by
  have hcut : (appendEntries crc es).length ≤ s.cut := le_of_add_le_left hpossible.cut
  have hlen : ((appendEntries crc s.entries).take s.written).length = s.written := by
    rw [length_take, min_eq_left hpossible.written]
  have hfile : s.file crc (appendEntries crc es ++ b) (appendEntries crc es).length =
      appendEntries crc es ++ ((appendEntries crc s.entries).take s.written ++ b.drop s.written).take
        (s.cut - (appendEntries crc es).length) := by
    rw [file, writeAt_append, hlen, take_append, take_of_length_le hcut]
  rw [Clean, hfile, length_append, add_le_add_iff_left] at hclean
  rw [hfile]
  generalize s.cut - (appendEntries crc es).length = k at hclean
  rcases hclean with hzero | hlt
  · refine ⟨b.take k, hb.take k, ?_⟩
    rw [hzero, zero_min, wholeEntries_zero, append_nil]
    rfl
  · -- Nothing of the old entry is left, so what is there are the first bytes of the new ones.
    have hdrop : ((appendEntries crc s.entries).take s.written ++ b.drop s.written).take k =
        (appendEntries crc s.entries).take (min s.written k) := by
      rw [length_take, length_append, hlen] at hlt
      rw [take_append, hlen, take_take, min_comm, append_right_eq_self]
      refine eq_nil_of_length_eq_zero ?_
      rw [length_take]
      omega
    obtain ⟨b', hb', heq⟩ := take_appendEntries hpossible.fits (min s.written k)
    refine ⟨b', hb', ?_⟩
    rw [hdrop, heq, appendEntries, appendEntries, appendEntries, flatMap_append, append_assoc]

/-- After clean sessions a file has whole entries and the first bytes of another one at most. -/
theorem Reaches.exists_torn {data : Bytes} (h : Reaches crc (Session.Clean crc) data es) :
    (∀ e ∈ es, e.Fits crc) ∧ ∃ b, Torn crc b ∧ data = appendEntries crc es ++ b := by
  induction h with
  | new => exact ⟨nofun, [], .inl rfl, rfl⟩
  | session s _ hopen hpossible hok ih =>
    obtain ⟨hes, b, hb, rfl⟩ := ih
    rw [openLog_append _ hes hb] at hopen
    cases hopen
    refine ⟨forall_mem_append.mpr ⟨hes, fun e he => ?_⟩, s.file_append hpossible hok hb⟩
    exact hpossible.fits e (wholeEntries_subset _ _ he)

/-- Every file that is left by clean sessions is opened, with the entries that were completely written. -/
theorem openLog_of_clean (crc : Checksum) (data : Bytes) (es : List LogEntry)
    (h : Reaches crc (Session.Clean crc) data es) (sfile : SeriesFile) :
    ∃ n, openLog crc sfile data = .ok (Contents.new.execEntries sfile (es.map stored), n) := by
  obtain ⟨hes, b, hb, rfl⟩ := h.exists_torn
  exact ⟨_, openLog_append sfile hes hb⟩

/-- The entry that drops a measurement with a short name. -/
def shortEntry : LogEntry := ⟨2, 0, [109], [], [], none⟩

/-- An entry whose name has ten bytes with a high bit and more. -/
def longEntry : LogEntry := ⟨2, 0, replicate 25 255 ++ replicate 5 0, [], [], none⟩

theorem fits_of_length {crc : Checksum} {e : LogEntry} (hid : e.seriesID < 2 ^ 32)
    (hlen : e.appendFields.length < 100) :
    e.Fits crc :=
  ⟨hid, by rw [length_appendLogEntry]; omega⟩

theorem length_appendEntries_singleton (crc : Checksum) (e : LogEntry) :
    (appendEntries crc [e]).length = e.appendFields.length + 4 := by
  rw [appendEntries, flatMap_singleton, length_appendLogEntry]

/-- A session in which 30 bytes of the long entry reach the file. -/
def tornSession : Session := ⟨fun _ => none, [longEntry], 0, 30, 30⟩

theorem possible_tornSession (crc : Checksum) : tornSession.Possible crc 0 where
  fits := forall_mem_singleton.mpr (fits_of_length (by decide) (by decide))
  written := (show (30 : ℕ) ≤ longEntry.appendFields.length + 4 by decide).trans
    (length_appendEntries_singleton crc longEntry).ge
  flushed := zero_le _
  cut := zero_le _

theorem file_tornSession (crc : Checksum) : tornSession.file crc [] 0 = longEntry.appendFields.take 30 := by
  rw [Session.file, tornSession, appendEntries, flatMap_singleton, appendLogEntry, take_append_of_le_length (by decide)]
  rfl

theorem torn_longEntry (crc : Checksum) : Torn crc (longEntry.appendFields.take 30) :=
  .inr ⟨longEntry, 30, fits_of_length (by decide) (by decide), by rw [length_appendLogEntry]; decide, by
    rw [appendLogEntry, take_append_of_le_length (by decide)]⟩

/-- A session that writes the long entry over its first bytes, and a part of the short one behind it. -/
def overwritingSession : Session := ⟨fun _ => none, [longEntry, shortEntry], 1, 45, 45⟩

/-- After the session that was torn, the long entry is written again and the short one is torn. -/
theorem openLog_overwritingSession :
    ∃ n, openLog (fun _ => 0) (fun _ => none)
        (overwritingSession.file (fun _ => 0) (tornSession.file (fun _ => 0) [] 0) 0) =
      .ok (Contents.new.execEntries (fun _ => none) [longEntry], n) := by
  have htorn := Reaches.new.session tornSession rfl (possible_tornSession fun _ => 0)
    (show tornSession.Clean (fun _ => 0) [] 0 from .inr (by decide +kernel))
  have hopen : openLog (fun _ => 0) (fun _ => none) (tornSession.file (fun _ => 0) [] 0) = .ok (Contents.new, 0) := by
    rw [file_tornSession]
    exact openLog_append (fun _ => none) (forall_mem_nil _) (torn_longEntry _)
  have hpossible : overwritingSession.Possible (fun _ => 0) 0 := by
    refine ⟨forall_mem_cons.mpr ⟨?_, forall_mem_singleton.mpr ?_⟩, ?_, ?_, ?_⟩
    · exact fits_of_length (by decide) (by decide)
    · exact fits_of_length (by decide) (by decide)
    all_goals decide +kernel
  exact openLog_of_clean (fun _ => 0) _ [longEntry]
    (htorn.session overwritingSession hopen hpossible (.inr (by decide +kernel))) _

/-- A session in which the short entry is flushed. -/
def flushedSession (cut : ℕ) : Session := ⟨fun _ => none, [shortEntry], 1, 10, cut⟩

theorem possible_flushedSession (crc : Checksum) {cut : ℕ} (hcut : 10 ≤ cut) :
    (flushedSession cut).Possible crc 0 where
  fits := forall_mem_singleton.mpr (fits_of_length (by decide) (by decide))
  written := (length_appendEntries_singleton crc shortEntry).ge
  flushed := (length_appendEntries_singleton crc shortEntry).le
  cut := by
    rw [zero_add]
    exact (length_appendEntries_singleton crc shortEntry).trans_le hcut

/-- The rest of the long entry behind the short one. -/
theorem file_flushedSession (crc : Checksum) :
    (flushedSession 30).file crc (longEntry.appendFields.take 30) 0 =
      appendEntries crc [shortEntry] ++ (longEntry.appendFields.take 30).drop 10 := by
  have hlen : (appendEntries crc [shortEntry]).length = 10 := length_appendEntries_singleton crc shortEntry
  have hwrite := writeAt_append [] (longEntry.appendFields.take 30) (appendEntries crc [shortEntry])
  rw [hlen] at hwrite
  rw [Session.file, flushedSession, take_of_length_le hlen.le]
  refine (congrArg (take 30) hwrite).trans (take_of_length_le ?_)
  rw [nil_append, length_append, hlen]
  decide

/-- The rest of the long entry starts with a number that has too many bits. -/
theorem openLog_rest (crc : Checksum) (sfile : SeriesFile) :
    openLog crc sfile (appendEntries crc [shortEntry] ++ (longEntry.appendFields.take 30).drop 10) =
      .error .uvarint := by
  have hfits : shortEntry.Fits crc := fits_of_length (by decide) (by decide)
  have hrest : unmarshalBinary crc ((longEntry.appendFields.take 30).drop 10) = .error .uvarint := by
    rw [unmarshalBinary, show readFields ((longEntry.appendFields.take 30).drop 10) = .error .uvarint by decide +kernel]
  rw [openLog, appendEntries, flatMap_singleton, length_append, length_appendLogEntry, openLoop,
    if_pos (by rw [length_append, length_appendLogEntry]; omega), hfits.unmarshalBinary_append]
  dsimp only
  rw [drop_left, show shortEntry.appendFields.length + 4 = 9 + 1 by decide, add_right_comm, openLoop,
    if_pos (by decide), hrest]

/-- A short entry is written over the first bytes of a long one that an earlier crash cut off, and the rest of it stays
in the file. -/
theorem not_openLog_rest : ¬ ∃ crc, ∀ data es, Reaches crc (fun _ _ _ => True) data es → ∀ sfile,
    ∃ n, openLog crc sfile data = .ok (Contents.new.execEntries sfile (es.map stored), n) := by
  rintro ⟨crc, h⟩
  have hopen := openLog_append (fun _ => none) (forall_mem_nil _) (torn_longEntry crc)
  have hnew : Reaches crc (fun _ _ _ => True) [] [] := .new
  have htornFile := hnew.session tornSession rfl (possible_tornSession crc) trivial
  rw [file_tornSession] at htornFile
  have hfile := htornFile.session (flushedSession 30) hopen (possible_flushedSession crc (by decide)) trivial
  change Reaches crc _ ((flushedSession 30).file crc (longEntry.appendFields.take 30) 0) _ at hfile
  rw [file_flushedSession] at hfile
  obtain ⟨n, hn⟩ := h _ _ hfile fun _ => none
  rw [openLog_rest] at hn
  cases hn

end InfluxDB.Tsi
