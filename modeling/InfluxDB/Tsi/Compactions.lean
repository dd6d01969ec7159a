import InfluxDB.Tsi.Partition

/-!
    The files that the compactions of a partition have picked stay a run of its file set until they are
    replaced.  A file is at most one level above a log file behind it and at most on the level of an
    index file behind it, so the files of a level stand together, and behind them are only files of
    higher levels.  A compaction that ends changes the file set either in front of the run of another
    one or behind it.
-/

namespace InfluxDB.Tsi

open Lib Models List Compaction Nat

/-- A file may stand in front of another one. -/
def File.Before (f g : File) : Prop := f.level ≤ max g.level 1

/-- The files of a level, with files of higher levels behind them. -/
structure RunOfLevel (files : List File) (level : ℕ) (run pre post : List File) : Prop where
  eq : files = pre ++ run ++ post
  pos : 1 ≤ level
  ne_nil : run ≠ []
  level_run : ∀ f ∈ run, f.level = level
  level_post : ∀ f ∈ post, level < f.level

section

variable {files run pre post : List File} {level : ℕ}

/-- In front of a run are files of at most its level. -/
theorem RunOfLevel.level_pre (h : RunOfLevel files level run pre post) (hfiles : files.Pairwise File.Before) :
    ∀ f ∈ pre, f.level ≤ level := by
  intro f hf
  obtain ⟨g, hg⟩ := exists_mem_of_ne_nil _ h.ne_nil
  rw [h.eq, append_assoc] at hfiles
  have hbefore := (pairwise_append.mp hfiles).2.2 f hf g (mem_append_left _ hg)
  rw [File.Before, h.level_run g hg, max_eq_left h.pos] at hbefore
  exact hbefore

/-! ### Picking files -/

theorem lastContiguousLoop_spec (hpos : 1 ≤ level) {files : List File} (hfiles : files.reverse.Pairwise File.Before)
    (a post : List File) (ha : ∀ f ∈ a, f.level = level) (hpost : ∀ f ∈ post, level < f.level)
    (hempty : a = [] ∨ ∀ f ∈ files, f.level ≤ level) :
    ∃ pre run post', files.reverse ++ a ++ post = pre ++ run ++ post' ∧ lastContiguousLoop level files a = run ∧
      (∀ f ∈ run, f.level = level) ∧ ∀ f ∈ post', level < f.level := by
  induction files generalizing a post with
  | nil => exact ⟨[], a, post, rfl, rfl, ha, hpost⟩
  | cons f files ih =>
    rw [reverse_cons] at hfiles
    obtain ⟨hfiles, -, hbefore⟩ := pairwise_append.mp hfiles
    have hbefore : ∀ g ∈ files, g.level ≤ max f.level 1 := fun g hg =>
      hbefore g (mem_reverse.mpr hg) f mem_cons_self
    rw [lastContiguousLoop, reverse_cons]
    by_cases hgt : level < f.level
    · rw [if_pos hgt]
      have hnil : a = [] := hempty.resolve_right fun h => absurd (h f mem_cons_self) (not_le.mpr hgt)
      subst hnil
      have hpost' : ∀ g ∈ f :: post, level < g.level := forall_mem_cons.mpr ⟨hgt, hpost⟩
      simpa using ih hfiles [] (f :: post) ha hpost' (.inl rfl)
    · rw [if_neg hgt]
      by_cases hlt : level > f.level
      · rw [if_pos hlt]
        exact ⟨files.reverse ++ [f], a, post, rfl, rfl, ha, hpost⟩
      · rw [if_neg hlt]
        have heq : f.level = level := by omega
        have ha' : ∀ g ∈ f :: a, g.level = level := forall_mem_cons.mpr ⟨heq, ha⟩
        have hle : ∀ g ∈ files, g.level ≤ level := fun g hg => (hbefore g hg).trans (by omega)
        simpa using ih hfiles (f :: a) post ha' hpost (.inr hle)

/-- The last files of a level are a run. -/
theorem lastContiguous_spec (hpos : 1 ≤ level) (hfiles : files.Pairwise File.Before) {n : ℕ} {last : List File}
    (hlast : last = (lastContiguousIndexFilesByLevel files level).drop n) (hne : last ≠ []) :
    ∃ pre post, RunOfLevel files level last pre post := by
  rw [lastContiguousIndexFilesByLevel, if_neg (by omega)] at hlast
  obtain ⟨pre, run, post, heq, hrun, hlevel, hpost⟩ := @lastContiguousLoop_spec level hpos files.reverse
    (by rwa [reverse_reverse]) [] [] nofun nofun (.inl rfl)
  rw [hrun] at hlast
  refine ⟨pre ++ run.take n, post, ?_, hpos, hne, ?_, hpost⟩
  · rw [reverse_reverse, append_nil, append_nil] at heq
    rw [heq, hlast, append_assoc pre (run.take n), take_append_drop]
  · intro f hf
    rw [hlast] at hf
    exact hlevel f (mem_of_mem_drop hf)

/-! ### Replacing files beside a run -/

/-- Two ways to cut a list, by the levels of the files. -/
theorem append_eq_append_of_level {a b c d : List File} {n : ℕ} (h : a ++ b = c ++ d) (ha : ∀ f ∈ a, f.level < n)
    (hd : ∀ f ∈ d, n ≤ f.level) : ∃ m, c = a ++ m ∧ b = m ++ d := by
  rcases append_eq_append_iff.mp h with ⟨m, hc, hb⟩ | ⟨m, ha', hd'⟩
  · exact ⟨m, hc, hb⟩
  · cases m with
    | nil => exact ⟨[], by simpa using ha'.symm, by simpa using hd'.symm⟩
    | cons f m =>
      have hlt := ha f (by simp [ha'])
      have hle := hd f (by simp [hd'])
      omega

theorem pairwise_replace {oldFiles : List File} (h : (pre ++ oldFiles ++ post).Pairwise File.Before) {newFile : File}
    (hpre : ∀ f ∈ pre, f.Before newFile) (hpost : ∀ f ∈ post, newFile.Before f) :
    (pre ++ newFile :: post).Pairwise File.Before := by
  have hsub : (pre ++ post).Sublist (pre ++ oldFiles ++ post) := by
    rw [append_assoc]
    exact (List.Sublist.refl pre).append (sublist_append_right _ _)
  obtain ⟨h₁, h₂, h₁₂⟩ := pairwise_append.mp (h.sublist hsub)
  exact pairwise_append.mpr ⟨h₁, pairwise_cons.mpr ⟨hpost, h₂⟩, fun f hf =>
    forall_mem_cons.mpr ⟨hpre f hf, h₁₂ f hf⟩⟩

namespace RunOfLevel

/-- The active log file stands in front of every run. -/
theorem exists_pre {a : File} {rest : List File} (h : RunOfLevel (a :: rest) level run pre post) (ha : a.level = 0) :
    ∃ pre', pre = a :: pre' ∧ rest = pre' ++ run ++ post := by
  have heq := h.eq
  cases pre with
  | cons b pre =>
    obtain ⟨rfl, hrest⟩ := cons.inj heq
    exact ⟨pre, rfl, hrest⟩
  | nil =>
    have ha' : a ∈ run ++ post := by
      rw [nil_append] at heq
      exact heq ▸ mem_cons_self
    have hpos := h.pos
    rcases mem_append.mp ha' with hrun | hpost
    · have := h.level_run a hrun
      omega
    · have := h.level_post a hpost
      omega

theorem cons (h : RunOfLevel files level run pre post) (f : File) : RunOfLevel (f :: files) level run (f :: pre) post :=
  ⟨by rw [h.eq]; rfl, h.pos, h.ne_nil, h.level_run, h.level_post⟩

/-- A log file is replaced in front of the run. -/
theorem replace_log (h : RunOfLevel files level run pre post) (hnodup : files.Nodup) {f newFile : File}
    (hf : f ∈ files) (hlevel : f.level = 0) {files' : List File}
    (hreplace : mustReplace files [f] newFile = .ok files') :
    ∃ pre' post', RunOfLevel files' level run pre' post' := by
  have hpos := h.pos
  have hpre : f ∈ pre := by
    rw [h.eq] at hf
    rcases mem_append.mp hf with hf | hf
    · refine (mem_append.mp hf).resolve_right fun hrun => ?_
      have := h.level_run f hrun
      omega
    · have := h.level_post f hf
      omega
  obtain ⟨x, y, rfl⟩ := append_of_mem hpre
  have heq : files = x ++ [f] ++ (y ++ run ++ post) := by simp [h.eq]
  rw [heq, mustReplace_append (cons_ne_nil _ _) (heq ▸ hnodup)] at hreplace
  cases hreplace
  exact ⟨x ++ newFile :: y, post, by simp, h.pos, h.ne_nil, h.level_run, h.level_post⟩

/-- A run of another level is replaced, by a file of the next level. -/
theorem replace_run {level' : ℕ} {run' pre' post' : List File} (h : RunOfLevel files level run pre post)
    (h' : RunOfLevel files level' run' pre' post') (hfiles : files.Pairwise File.Before) (hne : level ≠ level')
    {newFile : File} (hnew : newFile.level = level' + 1) :
    ∃ pre'' post'', RunOfLevel (pre' ++ newFile :: post') level run pre'' post'' := by
  have hpre := h.level_pre hfiles
  have hpre' := h'.level_pre hfiles
  rcases lt_or_gt_of_ne hne with hlt | hgt
  · obtain ⟨m, hm, hm'⟩ := @append_eq_append_of_level (pre ++ run) post pre' (run' ++ post') (level + 1)
      (by rw [← h.eq, h'.eq, append_assoc])
      (fun f hf => (mem_append.mp hf).elim (fun hf => lt_succ_of_le (hpre f hf)) fun hf => by
        rw [h.level_run f hf]
        exact lt_succ_self level)
      (fun f hf => (mem_append.mp hf).elim (fun hf => (h'.level_run f hf).symm ▸ hlt) fun hf =>
        hlt.trans (h'.level_post f hf))
    refine ⟨pre, m ++ newFile :: post', ?_, h.pos, h.ne_nil, h.level_run, fun f hf => ?_⟩
    · rw [hm, append_assoc]
    · rcases mem_append.mp hf with hf | hf
      · exact h.level_post f (hm' ▸ mem_append_left _ hf)
      · rcases mem_cons.mp hf with rfl | hf
        · omega
        · exact hlt.trans (h'.level_post f hf)
  · obtain ⟨m, hm, hm'⟩ := @append_eq_append_of_level (pre' ++ run') post' pre (run ++ post) level
      (by rw [← h'.eq, h.eq, append_assoc])
      (fun f hf => (mem_append.mp hf).elim (fun hf => (hpre' f hf).trans_lt hgt) fun hf =>
        (h'.level_run f hf).symm ▸ hgt)
      (fun f hf => (mem_append.mp hf).elim (fun hf => (h.level_run f hf).ge) fun hf => (h.level_post f hf).le)
    exact ⟨pre' ++ newFile :: m, post, by simp [hm'], h.pos, h.ne_nil, h.level_run, h.level_post⟩

end RunOfLevel

end

/-! ### The invariant -/

namespace Partition

structure Inv (p : Partition) : Prop where
  active : ∃ a rest, p.files = a :: rest ∧ a.level = 0
  before : p.files.Pairwise File.Before
  ids : (p.files.map File.id ++ p.compactions.filterMap Compaction.id).Nodup
  seq : ∀ id ∈ p.files.map File.id ++ p.compactions.filterMap Compaction.id, id ≤ p.seq
  runs : ∀ c ∈ p.compactions, ∃ pre post, RunOfLevel p.files c.level c.files pre post
  levels : (p.compactions.map level ++ p.ended).Nodup
  marked : ∀ level ∈ p.compactions.map Compaction.level ++ p.ended, level ∈ p.levelCompacting
  logs : ∀ f ∈ p.logs, f ∈ p.files.tail ∧ f.level = 0
  nodup_logs : p.logs.Nodup

variable {p : Partition}

theorem Inv.nodup (h : p.Inv) : p.files.Nodup := (nodup_append.mp h.ids).1.of_map _

theorem inv_new (levels : ℕ) : (new levels).Inv where
  active := ⟨_, _, rfl, rfl⟩
  before := pairwise_singleton _ _
  ids := nodup_singleton _
  seq := by simp [new]
  runs := nofun
  levels := nodup_nil
  marked := nofun
  logs := nofun
  nodup_logs := nodup_nil

section

variable (h : p.Inv) (c : Compaction) {level : ℕ} (f : File)
include h

theorem Inv.writeActive (g : Contents → Contents) (ss : Finset ℕ) :
    Inv { p.writeActive g with seriesIDSet := ss } := by
  obtain ⟨a, rest, hfiles, ha⟩ := h.active
  have hfiles' : (p.writeActive g).files = { a with contents := g a.contents } :: rest := by
    rw [Partition.writeActive, hfiles, modifyHead_cons]
  have hids : (p.writeActive g).files.map File.id = p.files.map File.id := by
    rw [hfiles', hfiles]
    rfl
  have hbefore := h.before
  rw [hfiles, pairwise_cons] at hbefore
  refine ⟨⟨_, rest, hfiles', ha⟩, ?_, ?_, ?_, fun c hc => ?_, h.levels, h.marked, fun f hf => ?_, h.nodup_logs⟩
  · change ((p.writeActive g).files).Pairwise File.Before
    rw [hfiles', pairwise_cons]
    exact hbefore
  · change ((p.writeActive g).files.map File.id ++ _).Nodup
    rw [hids]
    exact h.ids
  · change ∀ id ∈ (p.writeActive g).files.map File.id ++ _, _
    rw [hids]
    exact h.seq
  · obtain ⟨pre, post, hrun⟩ := h.runs c hc
    rw [hfiles] at hrun
    obtain ⟨pre', rfl, hrest⟩ := hrun.exists_pre ha
    refine ⟨{ a with contents := g a.contents } :: pre', post, ?_, hrun.pos, hrun.ne_nil,
      hrun.level_run, hrun.level_post⟩
    change (p.writeActive g).files = _
    rw [hfiles', hrest]
    rfl
  · have hlog := h.logs f hf
    rw [hfiles] at hlog
    change f ∈ (p.writeActive g).files.tail ∧ _
    rw [hfiles']
    exact hlog

theorem Inv.rollOver : p.rollOver.Inv := by
  obtain ⟨a, rest, hfiles, ha⟩ := h.active
  have hnew : p.seq + 1 ∉ p.files.map File.id ++ p.compactions.filterMap Compaction.id := fun hmem =>
    absurd (h.seq _ hmem) (not_succ_le_self _)
  have hlogs : p.files.head?.toList ++ p.logs = a :: p.logs := by
    rw [hfiles]
    rfl
  refine ⟨⟨_, _, rfl, rfl⟩, ?_, ?_, ?_, fun c hc => ?_, h.levels, h.marked, fun f hf => ?_, ?_⟩
  · exact pairwise_cons.mpr ⟨fun f _ => zero_le _, h.before⟩
  · exact nodup_cons.mpr ⟨hnew, h.ids⟩
  · exact forall_mem_cons.mpr ⟨le_rfl, fun id hid => (h.seq id hid).trans (le_succ _)⟩
  · obtain ⟨pre, post, hrun⟩ := h.runs c hc
    exact ⟨_, post, hrun.cons _⟩
  · change f ∈ p.files.head?.toList ++ p.logs at hf
    rw [hlogs] at hf
    change f ∈ p.files ∧ _
    rcases mem_cons.mp hf with rfl | hf
    · exact ⟨hfiles ▸ mem_cons_self, ha⟩
    · exact ⟨mem_of_mem_tail (h.logs f hf).1, (h.logs f hf).2⟩
  · change (p.files.head?.toList ++ p.logs).Nodup
    rw [hlogs]
    refine nodup_cons.mpr ⟨fun hmem => ?_, h.nodup_logs⟩
    have htail := (h.logs a hmem).1
    have hnodup := h.nodup
    rw [hfiles] at htail hnodup
    exact (nodup_cons.mp hnodup).1 htail

/-- A log file that is compacted can be replaced. -/
theorem Inv.exists_log {f : File} (hf : f ∈ p.logs) (newFile : File) :
    ∃ a pre post, p.files = a :: pre ++ [f] ++ post ∧ a.level = 0 ∧
      mustReplace p.files [f] newFile = .ok (a :: pre ++ newFile :: post) := by
  obtain ⟨a, rest, hfiles, ha⟩ := h.active
  have htail := (h.logs f hf).1
  rw [hfiles] at htail
  obtain ⟨pre, post, rfl⟩ := append_of_mem htail
  have heq : p.files = a :: pre ++ [f] ++ post := by simp [hfiles]
  exact ⟨a, pre, post, heq, ha, heq ▸ mustReplace_append (cons_ne_nil _ _) (heq ▸ h.nodup)⟩

/-- The files of a compaction can be replaced. -/
theorem Inv.exists_run {c : Compaction} (hc : c ∈ p.compactions) (newFile : File) :
    ∃ a pre post, RunOfLevel p.files c.level c.files (a :: pre) post ∧ a.level = 0 ∧
      mustReplace p.files c.files newFile = .ok (a :: pre ++ newFile :: post) := by
  obtain ⟨a, rest, hfiles, ha⟩ := h.active
  obtain ⟨pre, post, hrun⟩ := h.runs c hc
  obtain ⟨pre', rfl, -⟩ := (hfiles ▸ hrun).exists_pre ha
  refine ⟨a, pre', post, hrun, ha, ?_⟩
  rw [hrun.eq]
  exact mustReplace_append hrun.ne_nil (hrun.eq ▸ h.nodup)

theorem Inv.failLog : (p.failLog f).Inv :=
  { h with
    logs := fun g hg => h.logs g (mem_of_mem_erase hg)
    nodup_logs := h.nodup_logs.erase f }

theorem Inv.finishLog : (p.finishLog f).Inv := by
  rw [Partition.finishLog]
  split_ifs with hf
  · obtain ⟨a, pre, post, hfiles, ha, hreplace⟩ := h.exists_log hf ⟨f.id, 1, f.contents.compactTo⟩
    have hlevel := (h.logs f hf).2
    have hids : (a :: pre ++ ⟨f.id, 1, f.contents.compactTo⟩ :: post).map File.id = p.files.map File.id := by
      simp [hfiles]
    have hbefore := h.before
    rw [hfiles] at hbefore
    rw [hreplace]
    refine ⟨⟨a, _, rfl, ha⟩, ?_, hids.symm ▸ h.ids, hids.symm ▸ h.seq, fun c hc => ?_, h.levels, h.marked,
      fun g hg => ?_, h.nodup_logs.erase f⟩
    · refine pairwise_replace hbefore (fun g hg => ?_) fun g _ => le_max_right _ _
      have hg' := (pairwise_append.mp (pairwise_append.mp hbefore).1).2.2 g hg f mem_cons_self
      rw [File.Before, hlevel] at hg'
      exact hg'
    · obtain ⟨pre', post', hrun⟩ := h.runs c hc
      exact hrun.replace_log h.nodup (mem_of_mem_tail (h.logs f hf).1) hlevel hreplace
    · obtain ⟨hg', hne⟩ := (List.Nodup.mem_erase_iff h.nodup_logs).mp hg |>.symm
      have htail := (h.logs g hg').1
      rw [hfiles] at htail
      refine ⟨?_, (h.logs g hg').2⟩
      simp only [cons_append, append_assoc, tail_cons, mem_append, mem_cons, not_mem_nil, false_or] at htail ⊢
      exact htail.imp_right fun hor => .inr (hor.resolve_left hne)
  · exact h

theorem Inv.endLevel {c : Compaction} (hc : c ∈ p.compactions) : (p.endLevel c).Inv := by
  have hsub : (p.compactions.erase c).Sublist p.compactions := erase_sublist
  have hids := (List.Sublist.refl (p.files.map File.id)).append (hsub.filterMap Compaction.id)
  have hperm : (p.compactions.map level ++ p.ended).Perm
      ((p.compactions.erase c).map level ++ c.level :: p.ended) :=
    (((perm_cons_erase hc).map level).append_right p.ended).trans perm_middle.symm
  exact { h with
    ids := h.ids.sublist hids
    seq := fun id hid => h.seq id (hids.subset hid)
    runs := fun d hd => h.runs d (hsub.subset hd)
    levels := hperm.nodup_iff.mp h.levels
    marked := fun level hl => h.marked level (hperm.mem_iff.mpr hl) }

theorem Inv.failLevel : (p.failLevel c).Inv := by
  rw [Partition.failLevel]
  split_ifs with hc
  · exact h.endLevel hc
  · exact h

/-- At most one compaction runs for a level. -/
theorem Inv.level_ne {c d : Compaction} (hc : c ∈ p.compactions) (hd : d ∈ p.compactions.erase c) :
    d.level ≠ c.level := by
  have hlevels := (nodup_append.mp h.levels).1
  rw [((perm_cons_erase hc).map level).nodup_iff, map_cons, nodup_cons] at hlevels
  exact fun heq => hlevels.1 (heq ▸ mem_map_of_mem hd)

theorem Inv.finishLevel : (p.finishLevel c).Inv := by
  rw [Partition.finishLevel]
  cases hid : c.id with
  | none => exact h
  | some id =>
    dsimp only
    split_ifs with hc
    · obtain ⟨a, pre, post, hrun, ha, hreplace⟩ :=
        h.exists_run hc ⟨id, c.level + 1, IndexFiles.compactTo (c.files.map File.contents)⟩
      rw [hreplace]
      have hend := h.endLevel hc
      -- The id of the new file moves from the compaction to the file set.
      have hcomp : (p.compactions.filterMap Compaction.id).Perm
          (id :: (p.compactions.erase c).filterMap Compaction.id) := by
        simpa [hid] using (perm_cons_erase hc).filterMap Compaction.id
      have hperm := (hcomp.append_left (p.files.map File.id)).trans perm_middle
      have hsub : ((a :: pre ++ post).map File.id).Sublist (p.files.map File.id) := by
        rw [hrun.eq, append_assoc]
        exact ((List.Sublist.refl _).append (sublist_append_right _ _)).map _
      have hnew : ((a :: pre ++ ⟨id, c.level + 1, IndexFiles.compactTo (c.files.map File.contents)⟩ :: post).map
            File.id ++ (p.compactions.erase c).filterMap Compaction.id).Perm
          (id :: ((a :: pre ++ post).map File.id ++ (p.compactions.erase c).filterMap Compaction.id)) := by
        simp only [map_append, map_cons]
        exact perm_middle.append_right _
      have hids := (hsub.append_right ((p.compactions.erase c).filterMap Compaction.id)).cons_cons id
      refine ⟨⟨a, _, rfl, ha⟩, ?_, ?_, ?_, fun d hd => ?_, hend.levels, hend.marked,
        fun f hf => ?_, h.nodup_logs⟩
      · refine pairwise_replace (hrun.eq ▸ h.before) (fun g hg => ?_) fun g hg => ?_
        · exact ((hrun.level_pre h.before g hg).trans (le_succ _)).trans (le_max_left _ _)
        · exact (succ_le_of_lt (hrun.level_post g hg)).trans (le_max_left _ _)
      · exact hnew.nodup_iff.mpr ((hperm.nodup_iff.mp h.ids).sublist hids)
      · exact fun id' hid' => h.seq id' (hperm.mem_iff.mpr (hids.subset (hnew.mem_iff.mp hid')))
      · obtain ⟨pre', post', hrun'⟩ := h.runs d (mem_of_mem_erase hd)
        exact hrun'.replace_run hrun h.before (h.level_ne hc hd) rfl
      · obtain ⟨htail, hlevel⟩ := h.logs f hf
        refine ⟨?_, hlevel⟩
        have hpos := hrun.pos
        have hnot : f ∉ c.files := fun hmem => by
          have := hrun.level_run f hmem
          omega
        rw [hrun.eq] at htail
        simp only [cons_append, append_assoc, tail_cons, mem_append, mem_cons] at htail ⊢
        exact htail.imp_right fun hor => .inr (hor.resolve_left hnot)
    · exact h

theorem Inv.createFile : (p.createFile c).Inv := by
  rw [Partition.createFile]
  split_ifs with hc
  · obtain ⟨hc, hnone⟩ := hc
    have hperm := perm_cons_erase hc
    have hcomp : (p.compactions.filterMap Compaction.id).Perm ((p.compactions.erase c).filterMap Compaction.id) := by
      simpa [hnone] using hperm.filterMap Compaction.id
    have hids := hcomp.append_left (p.files.map File.id)
    have hlevels := (hperm.map Compaction.level).append_right p.ended
    have hnew : p.seq + 1 ∉ p.files.map File.id ++ (p.compactions.erase c).filterMap Compaction.id := fun hmem =>
      absurd (h.seq _ (hids.mem_iff.mpr hmem)) (not_succ_le_self _)
    have hmiddle : (p.files.map File.id ++ (p.seq + 1) :: (p.compactions.erase c).filterMap Compaction.id).Perm
        ((p.seq + 1) :: (p.files.map File.id ++ (p.compactions.erase c).filterMap Compaction.id)) := perm_middle
    exact { h with
      ids := hmiddle.nodup_iff.mpr (nodup_cons.mpr ⟨hnew, hids.nodup_iff.mp h.ids⟩)
      seq := fun id hid => (mem_cons.mp (hmiddle.mem_iff.mp hid)).elim (fun heq => heq.le) fun hid =>
        (h.seq id (hids.mem_iff.mpr hid)).trans (le_succ _)
      runs := forall_mem_cons.mpr ⟨h.runs c hc, fun d hd => h.runs d (mem_of_mem_erase hd)⟩
      levels := hlevels.nodup_iff.mp h.levels
      marked := fun level hl => h.marked level (hlevels.mem_iff.mpr hl) }
  · exact h

theorem Inv.release (level : ℕ) : (p.release level).Inv := by
  rw [Partition.release]
  split_ifs with hended
  · have hperm : (p.compactions.map Compaction.level ++ p.ended).Perm
        (level :: (p.compactions.map Compaction.level ++ p.ended.erase level)) :=
      ((perm_cons_erase hended).append_left _).trans perm_middle
    obtain ⟨hnot, hnodup⟩ := nodup_cons.mp (hperm.nodup_iff.mp h.levels)
    exact { h with
      levels := hnodup
      marked := fun l hl => Finset.mem_erase.mpr
        ⟨fun heq => hnot (heq ▸ hl), h.marked l (hperm.mem_iff.mpr (mem_cons_of_mem _ hl))⟩ }
  · exact h

/-- A compaction of a level that is not marked starts. -/
theorem Inv.start (hmarked : level ∉ p.levelCompacting) {files : List File}
    (hrun : ∃ pre post, RunOfLevel p.files level files pre post) :
    Inv { p with
      levelCompacting := insert level p.levelCompacting
      compactions := ⟨level, files, none⟩ :: p.compactions } := by
  have hnot : level ∉ p.compactions.map Compaction.level ++ p.ended := fun hl => hmarked (h.marked level hl)
  exact { h with
    runs := forall_mem_cons.mpr ⟨hrun, h.runs⟩
    levels := nodup_cons.mpr ⟨hnot, h.levels⟩
    marked := forall_mem_cons.mpr ⟨Finset.mem_insert_self _ _, fun l hl =>
      Finset.mem_insert_of_mem (h.marked l hl)⟩ }

theorem Inv.compactLevel (hpos : 1 ≤ level) : (p.compactLevel level).Inv := by
  rw [Partition.compactLevel]
  by_cases hmarked : level ∈ p.levelCompacting
  · rwa [if_pos hmarked]
  · rw [if_neg hmarked]
    by_cases hlen : (lastContiguousIndexFilesByLevel p.files level).length < 2
    · rwa [if_pos hlen]
    · rw [if_neg hlen]
      refine h.start hmarked ?_
      split_ifs with hmax
      · refine lastContiguous_spec hpos h.before rfl (ne_nil_of_length_pos ?_)
        rw [length_drop]
        exact Nat.sub_pos_of_lt (Nat.sub_lt_self (by decide) hmax.le)
      · exact lastContiguous_spec hpos h.before (drop_zero).symm (ne_nil_of_length_pos (by omega))

theorem Inv.compact : p.compact.Inv := by
  have hpos : ∀ level ∈ List.range' 1 (p.levels - 2), 1 ≤ level := fun level hl => (mem_range'_1.mp hl).1
  rw [Partition.compact]
  generalize range' 1 (p.levels - 2) = levels at hpos
  induction levels generalizing p with
  | nil => exact h
  | cons level levels ih =>
    obtain ⟨hlevel, hlevels⟩ := forall_mem_cons.mp hpos
    exact ih (h.compactLevel hlevel) hlevels

theorem Inv.step (op : Op) : (p.step op).Inv := by
  cases op with
  | createSeriesListIfNotExists collection | dropMeasurement sfile name => exact h.writeActive _ _
  | dropSeries sfile id =>
    rw [Partition.step, Partition.dropSeries]
    split_ifs
    · exact h.writeActive _ _
    · exact h
  | rollOver => exact h.rollOver
  | finishLog f => exact h.finishLog f
  | failLog f => exact h.failLog f
  | compact => exact h.compact
  | createFile c => exact h.createFile c
  | finishLevel c => exact h.finishLevel c
  | failLevel c => exact h.failLevel c
  | release level => exact h.release level

theorem Inv.run (ops : List Op) : (p.run ops).Inv := by
  induction ops generalizing p with
  | nil => exact h
  | cons op ops ih => exact ih (h.step op)

end

/-- What the compactions of a partition rely on. -/
structure Contiguous (p : Partition) : Prop where
  /-- Without the log files, levels do not decrease from the newest file to the oldest one. -/
  sorted : ((p.files.filter fun f => f.level ≠ 0).map File.level).Pairwise (· ≤ ·)
  /-- A log file that is compacted is in the file set, and will be replaced there. -/
  log : ∀ f ∈ p.logs, ∀ newFile, ∃ pre post, p.files = pre ++ [f] ++ post ∧
    mustReplace p.files [f] newFile = .ok (pre ++ newFile :: post)
  /-- The files of a compaction are a run of the file set, and will be replaced there. -/
  run : ∀ c ∈ p.compactions, ∀ newFile, ∃ pre post, p.files = pre ++ c.files ++ post ∧
    mustReplace p.files c.files newFile = .ok (pre ++ newFile :: post)
  /-- No two compactions share a file. -/
  disjoint : (p.logs ++ p.compactions.flatMap Compaction.files).Nodup

theorem Inv.sorted (h : p.Inv) : ((p.files.filter fun f => f.level ≠ 0).map File.level).Pairwise (· ≤ ·) := by
  rw [pairwise_map, pairwise_filter]
  refine h.before.imp fun {f g} hbefore _ hg => ?_
  have hpos : 1 ≤ g.level := one_le_iff_ne_zero.mpr (by simpa using hg)
  rwa [File.Before, max_eq_left hpos] at hbefore

theorem Inv.disjoint (h : p.Inv) : (p.logs ++ p.compactions.flatMap Compaction.files).Nodup := by
  have hlevels := pairwise_map.mp (nodup_append.mp h.levels).1
  have hmem : ∀ c ∈ p.compactions, ∀ f ∈ c.files, f.level = c.level ∧ 1 ≤ c.level := fun c hc f hf => by
    obtain ⟨pre, post, hrun⟩ := h.runs c hc
    exact ⟨hrun.level_run f hf, hrun.pos⟩
  refine nodup_append.mpr ⟨h.nodup_logs, nodup_flatMap.mpr ⟨fun c hc => ?_, ?_⟩, ?_⟩
  · obtain ⟨pre, post, hrun⟩ := h.runs c hc
    have hnodup := h.nodup
    rw [hrun.eq] at hnodup
    exact (nodup_append.mp (nodup_append.mp hnodup).1).2.1
  · refine (List.Pairwise.and_mem.mp hlevels).imp fun {c d} hcd f hfc hfd => ?_
    obtain ⟨hc, hd, hne⟩ := hcd
    exact hne ((hmem c hc f hfc).1.symm.trans (hmem d hd f hfd).1)
  · rintro f hf g hg rfl
    obtain ⟨c, hc, hfc⟩ := mem_flatMap.mp hg
    have hlevel := hmem c hc f hfc
    have hlog := (h.logs f hf).2
    omega

end Partition

/-- In every run of writes, roll-overs and compactions of a partition, in any order. -/
theorem compactions_contiguous (levels : ℕ) (ops : List Partition.Op) :
    ((Partition.new levels).run ops).Contiguous := by
  have h := (Partition.inv_new levels).run ops
  refine ⟨h.sorted, fun f hf newFile => ?_, fun c hc newFile => ?_, h.disjoint⟩
  · obtain ⟨a, pre, post, hfiles, -, hreplace⟩ := h.exists_log hf newFile
    exact ⟨a :: pre, post, hfiles, hreplace⟩
  · obtain ⟨a, pre, post, hrun, -, hreplace⟩ := h.exists_run hc newFile
    exact ⟨a :: pre, post, hrun.eq, hreplace⟩

end InfluxDB.Tsi
