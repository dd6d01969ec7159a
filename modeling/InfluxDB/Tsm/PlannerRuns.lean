import InfluxDB.Tsm.Planner

/-!
    What the planner leaves out.  A group is a run of adjacent generations of the list that the planner
    works on.  A generation between two of a group is missing only if its files were in use when that list
    was computed, or if `Plan` or `PlanOptimize` skip it because it is over-size.
-/

namespace InfluxDB.Tsm

open Lib List Bool

/-! ### Runs of a list -/

/-- A run of a sorted list has all elements between two of its own. -/
theorem mem_of_isInfix {α : Type*} {f : α → ℤ} {l m : List α} (hsorted : m.Pairwise fun a b => f a < f b)
    (hl : l <:+: m) {a b x : α} (ha : a ∈ l) (hb : b ∈ l) (hx : x ∈ m) (hax : f a < f x)
    (hxb : f x < f b) : x ∈ l := by
  obtain ⟨s, t, rfl⟩ := hl
  obtain ⟨hsl, -, hlast⟩ := pairwise_append.mp hsorted
  obtain ⟨-, -, hfirst⟩ := pairwise_append.mp hsl
  rcases mem_append.mp hx with hx | hx
  · rcases mem_append.mp hx with hx | hx
    · exact absurd (hfirst x hx a ha) (lt_asymm hax)
    · exact hx
  · exact absurd (hlast b (mem_append_right _ hb) x hx) (lt_asymm hxb)

/-! ### Groups -/

namespace TsmGenerations

variable (fs : FileStore) {size : ℕ}

/-- The groups hold what is not skipped, in order. -/
theorem flatten_groupLevels (skip : TsmGeneration → Bool) (gens currentGen : TsmGenerations)
    (groups : List TsmGenerations) :
    (groupLevels fs skip gens currentGen groups).flatten =
      groups.flatten ++ currentGen ++ gens.filter fun g => !skip g := by
  induction gens generalizing currentGen groups with
  | nil =>
    rw [groupLevels]
    split_ifs with hlen
    · simp
    · have hnil : currentGen = [] := eq_nil_of_length_eq_zero (by omega)
      simp [hnil]
  | cons cur rest ih =>
    rw [groupLevels]
    by_cases hskip : skip cur = true
    · rw [if_pos hskip, ih, filter_cons_of_neg (by simp [hskip])]
    · rw [if_neg hskip, filter_cons_of_pos (by simpa using hskip)]
      split_ifs
      · rw [ih]
        simp
      · rw [ih]
        simp
      · rw [ih]
        simp

theorem flatten_chunk (hsize : size ≠ 0) (a : TsmGenerations) : (chunk size a).flatten = a := by
  induction hn : a.length using Nat.strong_induction_on generalizing a with
  | _ n ih =>
    rw [chunk]
    by_cases hnil : a = []
    · rw [dif_pos (.inl hnil), hnil]
      rfl
    · rw [dif_neg (by tauto)]
      split_ifs with hlen
      · have hshort : (a.drop size).length < n := by
          rw [length_drop]
          omega
        rw [flatten_cons, ih _ hshort _ rfl, take_append_drop]
      · simp

theorem isInfix_of_mem_chunk {a l : TsmGenerations} (hl : l ∈ chunk size a) : l <:+: a := by
  by_cases hsize : size = 0
  · rw [chunk, dif_pos (.inr hsize)] at hl
    exact absurd hl not_mem_nil
  · exact flatten_chunk hsize a ▸ infix_of_mem_flatten hl

theorem isInfix_of_window {w l : TsmGenerations} (h : window fs w = some l) : l <:+: w := by
  rw [window] at h
  dsimp only at h
  split_ifs at h
  cases h
  exact (drop_suffix _ _).isInfix

/-- A full plan leaves out generations that are over-size. -/
theorem full_spec (n : ℕ) (gens : TsmGenerations) :
    (full fs n gens).Sublist gens ∧ ∀ g ∈ gens, ¬ (g.overSize fs = true ∧ g.hasTombstones = false) →
      g ∈ full fs n gens := by
  induction gens with
  | nil => exact ⟨List.Sublist.refl _, nofun⟩
  | cons group rest ih =>
    obtain ⟨hsub, hmem⟩ := ih
    rw [full]
    by_cases hskip : (if (rest.head?.any fun next => next.level fs ≤ 3) = true then false
        else n > 2 && group.overSize fs && !group.hasTombstones) = true
    · rw [if_pos hskip]
      refine ⟨hsub.cons _, fun g hg hkeep => ?_⟩
      rcases mem_cons.mp hg with rfl | hg
      · split_ifs at hskip
        simp only [and_eq_true, not_eq_true', decide_eq_true_eq] at hskip
        exact absurd ⟨hskip.1.2, hskip.2⟩ hkeep
      · exact hmem g hg hkeep
    · rw [if_neg hskip]
      refine ⟨hsub.cons_cons _, fun g hg hkeep => ?_⟩
      rcases mem_cons.mp hg with rfl | hg
      · exact mem_cons_self
      · exact mem_cons_of_mem _ (hmem g hg hkeep)

theorem mem_paths {a : TsmGenerations} {p : Bytes} : p ∈ paths a ↔ ∃ g ∈ a, ∃ f ∈ g.files, f.path = p := by
  simp [paths]

end TsmGenerations

/-! ### Generations -/

namespace FileStore

open TsmGenerations

variable {fs : FileStore} {m : FinMap ℤ TsmGeneration} {added : List FileStat}

/-- The map holds, under each generation, files that were added and have this generation, and every file
that was added. -/
structure Grouped (fs : FileStore) (added : List FileStat) (m : FinMap ℤ TsmGeneration) : Prop where
  sound : ∀ i g, m.lookup i = some g → g.id = i ∧ ∀ f ∈ g.files, f ∈ added ∧ fs.generation f.path = i
  complete : ∀ f ∈ added, ∃ g, m.lookup (fs.generation f.path) = some g ∧ f ∈ g.files

/-- The generation that a file is added to. -/
theorem lookup_addFile (fs : FileStore) (m : FinMap ℤ TsmGeneration) (f : FileStat) :
    ∃ g, fs.addFile m f = m.insert (fs.generation f.path) g ∧
      g.id = ((m.lookup (fs.generation f.path)).map TsmGeneration.id).getD (fs.generation f.path) ∧
      g.files = ((m.lookup (fs.generation f.path)).map TsmGeneration.files).getD [] ++ [f] := by
  rw [addFile]
  cases m.lookup (fs.generation f.path) with
  | none | some group => exact ⟨_, rfl, rfl, rfl⟩

theorem Grouped.addFile (hm : Grouped fs added m) (f : FileStat) : Grouped fs (added ++ [f]) (fs.addFile m f) := by
  obtain ⟨g, hadd, hid, hfiles⟩ := lookup_addFile fs m f
  rw [hadd]
  refine ⟨fun i g' hg' => ?_, fun f' hf' => ?_⟩
  · rw [FinMap.lookup_insert_eq] at hg'
    split_ifs at hg' with hi
    · cases hg'
      subst hi
      cases hlookup : m.lookup (fs.generation f.path) with
      | none =>
        rw [hlookup] at hid hfiles
        refine ⟨hid, fun f' hf' => ?_⟩
        rw [hfiles] at hf'
        obtain rfl : f' = f := by simpa using hf'
        exact ⟨by simp, rfl⟩
      | some group =>
        rw [hlookup] at hid hfiles
        obtain ⟨hgroup, hsound⟩ := hm.sound _ _ hlookup
        refine ⟨hid.trans hgroup, fun f' hf' => ?_⟩
        rw [hfiles] at hf'
        rcases mem_append.mp hf' with hf' | hf'
        · exact ⟨mem_append_left _ (hsound f' hf').1, (hsound f' hf').2⟩
        · obtain rfl := mem_singleton.mp hf'
          exact ⟨by simp, rfl⟩
    · obtain ⟨hid', hsound⟩ := hm.sound i g' hg'
      exact ⟨hid', fun f' hf' => ⟨mem_append_left _ (hsound f' hf').1, (hsound f' hf').2⟩⟩
  · rw [FinMap.lookup_insert_eq]
    rcases mem_append.mp hf' with hf' | hf'
    · obtain ⟨g', hg', hmem⟩ := hm.complete f' hf'
      split_ifs with hi
      · refine ⟨g, rfl, ?_⟩
        rw [hfiles, ← hi, hg']
        exact mem_append_left _ hmem
      · exact ⟨g', hg', hmem⟩
    · obtain rfl := mem_singleton.mp hf'
      rw [if_pos rfl]
      exact ⟨g, rfl, by simp [hfiles]⟩

theorem Grouped.foldl (files : List FileStat)
    (hm : Grouped fs added m) : Grouped fs (added ++ files) (files.foldl fs.addFile m) := by
  induction files generalizing added m with
  | nil =>
    rw [append_nil]
    exact hm
  | cons f files ih =>
    rw [foldl_cons, append_cons]
    exact ih (hm.addFile f)

theorem pairwise_of_isSorted {a : TsmGenerations} (h : isSorted a = true) : a.Pairwise fun g g' => g.id ≤ g'.id := by
  induction a with
  | nil => exact List.Pairwise.nil
  | cons g rest ih =>
    cases rest with
    | nil => exact pairwise_singleton _ _
    | cons g' rest =>
      rw [isSorted, and_eq_true, not_eq_true', decide_eq_false_iff_not, not_lt] at h
      obtain ⟨hle, hrest⟩ := h
      refine pairwise_cons.mpr ⟨fun x hx => ?_, ih hrest⟩
      rcases mem_cons.mp hx with rfl | hx
      · exact hle
      · exact hle.trans (rel_of_pairwise_cons (ih hrest) hx)

/-- The generations are sorted, and each holds exactly the files of its id that are not skipped. -/
theorem generationsOf_spec (fs : FileStore) (skipped : Finset Bytes) :
    ((fs.generationsOf skipped).Pairwise fun g g' => g.id < g'.id) ∧
      (∀ g ∈ fs.generationsOf skipped, ∀ f ∈ g.files, f ∈ fs.stats ∧ fs.generation f.path = g.id) ∧
      ∀ f ∈ fs.stats, f.path ∉ skipped → ∃ g ∈ fs.generationsOf skipped,
        g.id = fs.generation f.path ∧ f ∈ g.files := by
  have hempty : Grouped fs [] ∅ := by
    refine ⟨fun i g hg => ?_, nofun⟩
    rw [AList.lookup_empty] at hg
    cases hg
  have hgrouped := hempty.foldl (fs.stats.filter fun f => f.path ∉ skipped)
  rw [nil_append] at hgrouped
  rw [generationsOf]
  generalize (fs.stats.filter fun f => f.path ∉ skipped).foldl fs.addFile ∅ = m at hgrouped ⊢
  have hids : (m.entries.map (·.2)).Pairwise fun g g' => g.id ≠ g'.id := by
    rw [pairwise_map]
    have hnodup := nodupKeys_iff_pairwise.mp m.nodupKeys
    refine hnodup.imp_of_mem fun {s s'} hs hs' hne => ?_
    rw [(hgrouped.sound s.1 s.2 (AList.mem_lookup_iff.mpr hs)).1,
      (hgrouped.sound s'.1 s'.2 (AList.mem_lookup_iff.mpr hs')).1]
    exact hne
  generalize hordered : (if isSorted (m.entries.map (·.2)) then m.entries.map (·.2)
    else (m.entries.map (·.2)).insertionSort fun a b => a.id ≤ b.id) = ordered
  have hperm : ordered.Perm (m.entries.map (·.2)) := by
    rw [← hordered]
    split_ifs
    · exact List.Perm.refl _
    · exact perm_insertionSort _ _
  have hsorted : ordered.Pairwise fun g g' => g.id ≤ g'.id := by
    rw [← hordered]
    split_ifs with hsorted
    · exact pairwise_of_isSorted hsorted
    · exact pairwise_insertionSort _ _
  have hmem : ∀ g, g ∈ ordered ↔ ∃ i, m.lookup i = some g := by
    intro g
    rw [hperm.mem_iff, mem_map]
    constructor
    · rintro ⟨s, hs, rfl⟩
      exact ⟨s.1, AList.mem_lookup_iff.mpr hs⟩
    · rintro ⟨i, hi⟩
      exact ⟨⟨i, g⟩, AList.mem_lookup_iff.mp hi, rfl⟩
  refine ⟨?_, fun g hg f hf => ?_, fun f hf hskip => ?_⟩
  · have hne : ordered.Pairwise fun g g' => g.id ≠ g'.id := (hperm.pairwise_iff fun h => Ne.symm h).mpr hids
    exact (hsorted.and hne).imp fun h => lt_of_le_of_ne h.1 h.2
  · obtain ⟨i, hi⟩ := (hmem g).mp hg
    obtain ⟨hid, hsound⟩ := hgrouped.sound i g hi
    obtain ⟨hfilter, hgen⟩ := hsound f hf
    exact ⟨(mem_filter.mp hfilter).1, hgen.trans hid.symm⟩
  · obtain ⟨g, hg, hfile⟩ := hgrouped.complete f (mem_filter.mpr ⟨hf, by simpa using hskip⟩)
    exact ⟨g, (hmem g).mpr ⟨_, hg⟩, (hgrouped.sound _ g hg).1, hfile⟩

end FileStore

/-! ### Calls -/

/-- A call on the planner, or a change of the file store at a later time. -/
inductive PlannerCall where
  | changed (stats : List FileStat) (blockCount : Bytes → ℕ → ℕ) (dt : ℕ)
  | plan (lastWrite now : ℕ)
  | planLevel (level : ℕ)
  | planOptimize
  | release (groups : List CompactionGroup)
  | forceFull
  | fullyCompacted

namespace PlannerCall

/-- The groups that a call returns, and the planner after it. -/
def exec (c : DefaultPlanner) : PlannerCall → List CompactionGroup × DefaultPlanner
  | .changed stats blockCount dt =>
    ([], { c with fileStore := { c.fileStore with
      stats, blockCount, lastModified := c.fileStore.lastModified + dt + 1 } })
  | .plan lastWrite now => c.plan lastWrite now
  | .planLevel level => c.planLevel level
  | .planOptimize => c.planOptimize
  | .release groups => ([], c.release groups)
  | .forceFull => ([], { c with forceFull := true })
  | .fullyCompacted => ([], c.fullyCompacted.2)

def run (c : DefaultPlanner) (calls : List PlannerCall) : DefaultPlanner :=
  calls.foldl (fun c call => (exec c call).2) c

/-- The call leaves the file store as it is. -/
def Keeps : PlannerCall → Prop
  | .changed _ _ _ => False
  | _ => True

/-- The call skips generations that are over-size. -/
def SkipsOverSize : PlannerCall → Prop
  | .plan _ _ => True
  | .planOptimize => True
  | _ => False

/-- The file was in use at some moment since the file store has changed. -/
def WasInUse (c : DefaultPlanner) (calls : List PlannerCall) (path : Bytes) : Prop :=
  ∃ pre post, calls = pre ++ post ∧ (∀ call ∈ post, call.Keeps) ∧ path ∈ (run c pre).filesInUse

end PlannerCall

namespace DefaultPlanner

open TsmGenerations

variable (c : DefaultPlanner)

/-- The two planners have the same list of generations for the same file store. -/
structure SameCache (c c' : DefaultPlanner) : Prop where
  fileStore : c'.fileStore = c.fileStore
  lastFindGenerations : c'.lastFindGenerations = c.lastFindGenerations
  lastGenerations : c'.lastGenerations = c.lastGenerations

theorem SameCache.refl : SameCache c c := ⟨rfl, rfl, rfl⟩

theorem acquire_spec (groups : List CompactionGroup) :
    (∀ G ∈ (c.acquire groups).1, G ∈ groups) ∧ SameCache c (c.acquire groups).2 := by
  rw [acquire]
  split_ifs
  · exact ⟨nofun, ⟨rfl, rfl, rfl⟩⟩
  · exact ⟨fun G hG => hG, ⟨rfl, rfl, rfl⟩⟩

/-- The group holds the files of adjacent generations, where only generations that meet `skips` do not
count. -/
def Adjacent (gens : TsmGenerations) (skips : TsmGeneration → Prop) (G : CompactionGroup) : Prop :=
  ∃ l m : TsmGenerations, (∀ p, p ∈ G ↔ p ∈ paths l) ∧ l <:+: m ∧ m.Sublist gens ∧
    ∀ g ∈ gens, ¬ skips g → g ∈ m

/-- What a call does that works on the generations. -/
structure Planned (c : DefaultPlanner) (skips : TsmGeneration → Prop)
    (r : List CompactionGroup × DefaultPlanner) : Prop where
  adjacent : ∀ G ∈ r.1, Adjacent (c.findGenerations true).1 skips G
  cache : SameCache c r.2 ∨ SameCache (c.findGenerations true).2 r.2

variable {c} {gens : TsmGenerations} {skips : TsmGeneration → Prop}

theorem Adjacent.of_isInfix {l : TsmGenerations} {G : CompactionGroup} (hl : l <:+: gens)
    (hG : ∀ p, p ∈ G ↔ p ∈ paths l) :
    Adjacent gens skips G :=
  ⟨l, gens, hG, hl, List.Sublist.refl _, fun _ hg _ => hg⟩

/-- A group of the loop over the levels is adjacent up to what the loop skips. -/
theorem Adjacent.of_groupLevels {fs : FileStore} {skip : TsmGeneration → Bool} {group l : TsmGenerations}
    (hskip : ∀ g, skip g = true → skips g) (hgroup : group ∈ groupLevels fs skip gens [] []) (hl : l <:+: group) :
    Adjacent gens skips (paths l) := by
  refine ⟨l, gens.filter fun g => !skip g, fun _ => Iff.rfl, ?_, filter_sublist, fun g hg hkeep => ?_⟩
  · have hflatten := flatten_groupLevels fs skip gens [] []
    rw [flatten_nil, nil_append, nil_append] at hflatten
    exact hl.trans (hflatten ▸ infix_of_mem_flatten hgroup)
  · refine mem_filter.mpr ⟨hg, ?_⟩
    cases hs : skip g with
    | false => rfl
    | true => exact absurd (hskip g hs) hkeep

variable {d : DefaultPlanner}

theorem Planned.none (h : SameCache c d ∨ SameCache (c.findGenerations true).2 d) : Planned c skips ([], d) :=
  ⟨nofun, h⟩

theorem Planned.acquire {groups : List CompactionGroup} (hd : SameCache (c.findGenerations true).2 d)
    (hgroups : ∀ G ∈ groups, Adjacent (c.findGenerations true).1 skips G) : Planned c skips (d.acquire groups) := by
  obtain ⟨hmem, hcache⟩ := d.acquire_spec groups
  exact ⟨fun G hG => hgroups G (hmem G hG), .inr ⟨hcache.fileStore.trans hd.fileStore,
    hcache.lastFindGenerations.trans hd.lastFindGenerations, hcache.lastGenerations.trans hd.lastGenerations⟩⟩

/-- A call that plans nothing while a full plan is forced, or when there is nothing to compact. -/
theorem Planned.of_guards {r : List CompactionGroup × DefaultPlanner} (few : Bool) (h : Planned c skips r) :
    Planned c skips (if c.forceFull then ([], c) else if few then ([], (c.findGenerations true).2) else r) := by
  split_ifs
  · exact Planned.none (.inl (SameCache.refl c))
  · exact Planned.none (.inr (SameCache.refl _))
  · exact h

variable (c)

theorem planLevel_planned (level : ℕ) : Planned c (fun _ => False) (c.planLevel level) := by
  rw [planLevel]
  refine Planned.of_guards _ (Planned.acquire (SameCache.refl _) fun G hG => ?_)
  obtain ⟨chunk, hchunk, rfl⟩ := mem_map.mp hG
  obtain ⟨group, hgroup, hmem⟩ := mem_flatMap.mp (mem_filter.mp hchunk).1
  exact Adjacent.of_groupLevels (by simp) (mem_filter.mp hgroup).1 (isInfix_of_mem_chunk hmem)

/-- The generation is over-size and has no tombstones. -/
def Skipped (c : DefaultPlanner) (g : TsmGeneration) : Prop := g.overSize c.fileStore = true ∧ g.hasTombstones = false

theorem fileStore_findGenerations (skipInUse : Bool) : (c.findGenerations skipInUse).2.fileStore = c.fileStore := by
  rw [findGenerations]
  split_ifs <;> rfl

theorem planOptimize_planned : Planned c c.Skipped c.planOptimize := by
  rw [planOptimize]
  dsimp only
  refine Planned.of_guards _ (Planned.acquire (SameCache.refl _) fun G hG => ?_)
  obtain ⟨group, hgroup, rfl⟩ := mem_map.mp hG
  refine Adjacent.of_groupLevels (fun g hskip => ?_) (mem_filter.mp (mem_filter.mp hgroup).1).1 (infix_refl _)
  rw [fileStore_findGenerations] at hskip
  simp only [and_eq_true, not_eq_true', decide_eq_true_eq] at hskip
  exact ⟨hskip.1.2, hskip.2⟩

theorem planFull_planned (hd : SameCache (c.findGenerations true).2 d) :
    Planned c c.Skipped (d.planFull (c.findGenerations true).1) := by
  have hfs : d.fileStore = c.fileStore := hd.fileStore.trans (c.fileStore_findGenerations true)
  have hd' : SameCache (c.findGenerations true).2 { d with forceFull := false } :=
    ⟨hd.fileStore, hd.lastFindGenerations, hd.lastGenerations⟩
  rw [planFull]
  split_ifs
  · exact Planned.none (.inr hd')
  · refine Planned.acquire hd' fun G hG => ?_
    obtain rfl := mem_singleton.mp hG
    obtain ⟨hsub, hmem⟩ := full_spec d.fileStore (c.findGenerations true).1.length (c.findGenerations true).1
    refine ⟨_, _, fun p => mem_insertionSort _, infix_refl _, hsub, fun g hg hkeep => hmem g hg ?_⟩
    rw [hfs]
    exact hkeep

theorem plan_planned (lastWrite now : ℕ) : Planned c c.Skipped (c.plan lastWrite now) := by
  have hwindows : ∀ {fs : FileStore} {step start stop : ℕ} {keep : TsmGenerations → Bool} {G : CompactionGroup},
      G ∈ (((chunk step (((c.findGenerations true).1.take stop).drop start)).filterMap (window fs)).filter keep).map
        (fun group => (paths group).insertionSort (· ≤ ·)) → Adjacent (c.findGenerations true).1 c.Skipped G := by
    intro fs step start stop keep G hG
    obtain ⟨group, hgroup, rfl⟩ := mem_map.mp hG
    obtain ⟨w, hw, hwindow⟩ := mem_filterMap.mp (mem_filter.mp hgroup).1
    have hslice : ((c.findGenerations true).1.take stop).drop start <:+: (c.findGenerations true).1 :=
      (drop_suffix _ _).isInfix.trans (List.take_prefix _ _).isInfix
    exact Adjacent.of_isInfix ((isInfix_of_window _ hwindow).trans ((isInfix_of_mem_chunk hw).trans hslice)) fun p =>
      mem_insertionSort _
  rw [plan]
  dsimp only
  split_ifs
  · exact c.planFull_planned (SameCache.refl _)
  · exact Planned.none (.inr (SameCache.refl _))
  · exact Planned.none (.inr ⟨rfl, rfl, rfl⟩)
  all_goals exact Planned.acquire ⟨rfl, rfl, rfl⟩ fun G hG => hwindows hG

end DefaultPlanner

/-! ### Runs -/

namespace PlannerCall

open TsmGenerations DefaultPlanner

variable {c₀ : DefaultPlanner} {calls : List PlannerCall} (call : PlannerCall)

theorem run_concat : run c₀ (calls ++ [call]) = (exec (run c₀ calls) call).2 := by
  rw [run, foldl_append]
  rfl

theorem WasInUse.concat {call : PlannerCall} (hkeeps : call.Keeps) {path : Bytes} (h : WasInUse c₀ calls path) :
    WasInUse c₀ (calls ++ [call]) path := by
  obtain ⟨pre, post, rfl, hpost, hpath⟩ := h
  refine ⟨pre, post ++ [call], by rw [append_assoc], fun call' hcall' => ?_, hpath⟩
  rcases mem_append.mp hcall' with hcall' | hcall'
  · exact hpost call' hcall'
  · exact mem_singleton.mp hcall' ▸ hkeeps

/-- The list is that of the file store without files that were in use. -/
def Current (c₀ : DefaultPlanner) (calls : List PlannerCall) (fs : FileStore) (gens : TsmGenerations) : Prop :=
  ∃ skipped, gens = fs.generationsOf skipped ∧ ∀ path ∈ skipped, WasInUse c₀ calls path

/-- The list that the planner has kept is older than the file store, or current. -/
def Cached (c₀ : DefaultPlanner) (calls : List PlannerCall) (c : DefaultPlanner) : Prop :=
  c.lastFindGenerations ≤ c.fileStore.lastModified ∧
    (c.lastFindGenerations ≠ 0 → c.lastFindGenerations = c.fileStore.lastModified →
      Current c₀ calls c.fileStore c.lastGenerations)

theorem Cached.concat (hkeeps : call.Keeps) {c c' : DefaultPlanner} (hsame : SameCache c c')
    (h : Cached c₀ calls c) : Cached c₀ (calls ++ [call]) c' := by
  rw [Cached, hsame.fileStore, hsame.lastFindGenerations, hsame.lastGenerations]
  refine ⟨h.1, fun hne heq => ?_⟩
  obtain ⟨skipped, hgens, hskipped⟩ := h.2 hne heq
  exact ⟨skipped, hgens, fun path hpath => (hskipped path hpath).concat hkeeps⟩

theorem findGenerations_current (h : Cached c₀ calls (run c₀ calls)) (skipInUse : Bool) :
    Current c₀ calls (run c₀ calls).fileStore ((run c₀ calls).findGenerations skipInUse).1 ∧
      Cached c₀ calls ((run c₀ calls).findGenerations skipInUse).2 := by
  rw [findGenerations]
  split_ifs with hkept hskip
  · exact ⟨h.2 hkept.1 hkept.2.symm, h⟩
  · have hnow : Current c₀ calls (run c₀ calls).fileStore
        ((run c₀ calls).fileStore.generationsOf (run c₀ calls).filesInUse) :=
      ⟨_, rfl, fun path hpath => ⟨calls, [], by simp, by simp, hpath⟩⟩
    exact ⟨hnow, le_rfl, fun _ _ => hnow⟩
  · have hall : Current c₀ calls (run c₀ calls).fileStore ((run c₀ calls).fileStore.generationsOf ∅) :=
      ⟨_, rfl, nofun⟩
    exact ⟨hall, le_rfl, fun _ _ => hall⟩

theorem Planned.cached (hkeeps : call.Keeps) {skips : TsmGeneration → Prop}
    {r : List CompactionGroup × DefaultPlanner} (hr : Planned (run c₀ calls) skips r)
    (h : Cached c₀ calls (run c₀ calls)) : Cached c₀ (calls ++ [call]) r.2 := by
  rcases hr.cache with hsame | hsame
  · exact h.concat call hkeeps hsame
  · exact (findGenerations_current h true).2.concat call hkeeps hsame

theorem cached_run (fs : FileStore) (writeColdDuration : ℤ) (calls : List PlannerCall) :
    Cached (newDefaultPlanner fs writeColdDuration) calls (run (newDefaultPlanner fs writeColdDuration) calls) := by
  induction calls using reverseRecOn with
  | nil => exact ⟨Nat.zero_le _, fun hne => absurd rfl hne⟩
  | append_singleton calls call ih =>
    rw [run_concat]
    cases call with
    | changed stats blockCount dt =>
      refine ⟨ih.1.trans (by dsimp only [exec]; omega), fun _ heq => ?_⟩
      have := ih.1
      dsimp only [exec] at heq
      omega
    | plan lastWrite now => exact Planned.cached (.plan lastWrite now) trivial (plan_planned _ lastWrite now) ih
    | planLevel level => exact Planned.cached (.planLevel level) trivial (planLevel_planned _ level) ih
    | planOptimize => exact Planned.cached .planOptimize trivial (planOptimize_planned _) ih
    | release groups => exact ih.concat (.release groups) trivial ⟨rfl, rfl, rfl⟩
    | forceFull => exact ih.concat .forceFull trivial ⟨rfl, rfl, rfl⟩
    | fullyCompacted => exact (findGenerations_current ih false).2.concat .fullyCompacted trivial ⟨rfl, rfl, rfl⟩

/-- The groups of a call are adjacent, up to what the call skips. -/
theorem exec_adjacent (c : DefaultPlanner) (call : PlannerCall) {G : CompactionGroup} (hG : G ∈ (exec c call).1) :
    Adjacent (c.findGenerations true).1 (fun g => call.SkipsOverSize ∧ c.Skipped g) G := by
  have hskips : ∀ {skips skips' : TsmGeneration → Prop}, (∀ g, skips g → skips' g) →
      Adjacent (c.findGenerations true).1 skips G → Adjacent (c.findGenerations true).1 skips' G := by
    rintro skips skips' himp ⟨l, m, hpaths, hl, hm, hmem⟩
    exact ⟨l, m, hpaths, hl, hm, fun g hg hskip => hmem g hg fun h => hskip (himp g h)⟩
  cases call with
  | plan lastWrite now => exact hskips (fun g hg => ⟨trivial, hg⟩) ((c.plan_planned lastWrite now).adjacent G hG)
  | planLevel level => exact hskips (fun g hg => hg.elim) ((c.planLevel_planned level).adjacent G hG)
  | planOptimize => exact hskips (fun g hg => ⟨trivial, hg⟩) (c.planOptimize_planned.adjacent G hG)
  | changed stats blockCount dt | release groups | forceFull | fullyCompacted => exact absurd hG not_mem_nil

/-- In every run of the planner, a file whose generation lies strictly between the generations of two
files of a returned group is of a generation of the group as well, or it was in use since the file store
has changed, or the call skips its generation because that is over-size and has no tombstones. -/
theorem plan_between (fs : FileStore) (writeColdDuration : ℤ) (calls : List PlannerCall) (call : PlannerCall) :
    let c := run (newDefaultPlanner fs writeColdDuration) calls
    ∀ G ∈ (exec c call).1, ∀ a ∈ G, ∀ b ∈ G, ∀ f ∈ c.fileStore.stats,
      c.fileStore.generation a < c.fileStore.generation f.path →
        c.fileStore.generation f.path < c.fileStore.generation b →
      (∃ p ∈ G, c.fileStore.generation p = c.fileStore.generation f.path) ∨
        WasInUse (newDefaultPlanner fs writeColdDuration) calls f.path ∨
        call.SkipsOverSize ∧ ∃ g ∈ (c.findGenerations true).1, f ∈ g.files ∧ c.Skipped g ∧
          ∀ f' ∈ g.files, f' ∈ c.fileStore.stats ∧
            c.fileStore.generation f'.path = c.fileStore.generation f.path := by
  intro c G hG a ha b hb f hf haf hfb
  obtain ⟨⟨skipped, hgens, hskipped⟩, -⟩ := findGenerations_current (cached_run fs writeColdDuration calls) true
  obtain ⟨hsorted, hfiles, hcomplete⟩ := c.fileStore.generationsOf_spec skipped
  by_cases huse : f.path ∈ skipped
  · exact .inr (.inl (hskipped f.path huse))
  · obtain ⟨l, m, hpaths, hl, hm, hmem⟩ := exec_adjacent c call hG
    obtain ⟨g, hg, hid, hfile⟩ := hcomplete f hf huse
    rw [← hgens] at hg hsorted hfiles
    by_cases hskip : call.SkipsOverSize ∧ c.Skipped g
    · exact .inr (.inr ⟨hskip.1, g, hg, hfile, hskip.2, fun f' hf' =>
        ⟨(hfiles g hg f' hf').1, (hfiles g hg f' hf').2.trans hid⟩⟩)
    · -- The generations of the two files enclose that of the third, which therefore is in the group.
      obtain ⟨ga, hga, fa, hfa, rfl⟩ := mem_paths.mp ((hpaths a).mp ha)
      obtain ⟨gb, hgb, fb, hfb', rfl⟩ := mem_paths.mp ((hpaths b).mp hb)
      rw [(hfiles ga (hm.subset (hl.subset hga)) fa hfa).2, ← hid] at haf
      rw [(hfiles gb (hm.subset (hl.subset hgb)) fb hfb').2, ← hid] at hfb
      have hgl : g ∈ l := mem_of_isInfix (hsorted.sublist hm) hl hga hgb (hmem g hg hskip) haf hfb
      exact .inl ⟨f.path, (hpaths _).mpr (mem_paths.mpr ⟨g, hgl, f, hfile, rfl⟩), rfl⟩

/-- Three generations of level 4, of which the second is over-size and starts with a full block.  A name
has the generation and the sequence as its two bytes. -/
def overSizeStore : FileStore where
  stats := [⟨[1, 4], false, 10⟩, ⟨[2, 4], false, maxTSMFileSize + 1⟩, ⟨[3, 4], false, 10⟩]
  lastModified := 1
  blockCount := fun _ _ => maxPointsPerBlock
  parseFileName := fun p => ((p.head?.elim 0 Fin.val : ℕ), p.getLast?.elim 0 Fin.val)

/-- The file of the second generation. -/
def overSizeFile : FileStat := ⟨[2, 4], false, maxTSMFileSize + 1⟩

theorem plan_between_overSize :
    let c := run (newDefaultPlanner overSizeStore 0) [.forceFull]
    (∃ p ∈ ([[1, 4], [3, 4]] : CompactionGroup),
      c.fileStore.generation p = c.fileStore.generation overSizeFile.path) ∨
      WasInUse (newDefaultPlanner overSizeStore 0) [.forceFull] overSizeFile.path ∨
      (plan 0 0).SkipsOverSize ∧ ∃ g ∈ (c.findGenerations true).1, overSizeFile ∈ g.files ∧ c.Skipped g ∧
        ∀ f' ∈ g.files, f' ∈ c.fileStore.stats ∧
          c.fileStore.generation f'.path = c.fileStore.generation overSizeFile.path :=
  plan_between overSizeStore 0 [.forceFull] (.plan 0 0) [[1, 4], [3, 4]] (by decide) [1, 4]
    (by decide) [3, 4] (by decide)
    overSizeFile (by decide) (by decide) (by decide)

/-- A full plan of the three generations has the files of the first and the third only. -/
theorem not_contiguous_overSize :
    ∃ G ∈ (exec (run (newDefaultPlanner overSizeStore 0) [.forceFull]) (.plan 0 0)).1, ∃ a ∈ G, ∃ b ∈ G,
      ∃ f ∈ overSizeStore.stats, overSizeStore.generation a < overSizeStore.generation f.path ∧
        overSizeStore.generation f.path < overSizeStore.generation b ∧
        ¬ ∃ p ∈ G, overSizeStore.generation p = overSizeStore.generation f.path :=
  ⟨[[1, 4], [3, 4]], by decide, [1, 4], by decide, [3, 4], by decide,
    overSizeFile, by decide, by decide, by decide, by decide⟩

end PlannerCall

end InfluxDB.Tsm
