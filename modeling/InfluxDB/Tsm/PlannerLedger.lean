import InfluxDB.Tsm.PlannerRuns

/-!
    The groups that are out.  A call hands out groups and marks their files as in use, `Release` takes
    groups back.  The generations that a call works on share no file and the call cuts its groups out of
    them without overlap, so the groups that are out share no file, as long as only such are released.
-/

namespace InfluxDB.Tsm

open Lib List

namespace TsmGenerations

variable {gens : TsmGenerations} {L : List TsmGenerations} {size : ℕ} (fs : FileStore)

/-- No two generations have a file in common. -/
def Apart (gens : TsmGenerations) : Prop :=
  gens.Pairwise fun g g' => ∀ f ∈ g.files, ∀ f' ∈ g'.files, f.path ≠ f'.path

theorem Apart.paths (h : Apart gens) (hL : L.flatten.Sublist gens) :
    L.Pairwise fun l l' => (paths l).Disjoint (paths l') := by
  refine (pairwise_flatten.mp (h.sublist hL)).2.imp fun hll p hp hp' => ?_
  obtain ⟨g, hg, f, hf, rfl⟩ := mem_paths.mp hp
  obtain ⟨g', hg', f', hf', heq⟩ := mem_paths.mp hp'
  exact hll g hg g' hg' f hf f' hf' heq.symm

theorem flatten_groupLevels_sublist (skip : TsmGeneration → Bool) :
    (groupLevels fs skip gens [] []).flatten.Sublist gens := by
  rw [flatten_groupLevels, flatten_nil, nil_append, nil_append]
  exact filter_sublist

theorem flatten_flatMap_chunk (hsize : size ≠ 0) : (L.flatMap (chunk size)).flatten = L.flatten := by
  induction L with
  | nil => rfl
  | cons l L ih => simp [flatMap_cons, flatten_append, flatten_chunk hsize, ih]

theorem flatten_chunk_sublist : (chunk size gens).flatten.Sublist gens := by
  by_cases hsize : size = 0
  · simp [chunk, hsize]
  · rw [flatten_chunk hsize]

theorem flatten_filterMap_window : (L.filterMap (window fs)).flatten.Sublist L.flatten := by
  induction L with
  | nil => exact Sublist.refl _
  | cons l L ih =>
    cases hw : window fs l with
    | none =>
      rw [filterMap_cons_none hw, flatten_cons]
      exact ih.trans (sublist_append_right _ _)
    | some w =>
      rw [filterMap_cons_some hw, flatten_cons, flatten_cons]
      exact (isInfix_of_window fs hw).sublist.append ih

end TsmGenerations

namespace DefaultPlanner

open TsmGenerations

variable {c d : DefaultPlanner}

/-- A call takes groups back and hands out groups whose files were free; the latter share no file if the
generations do not. -/
structure HandsOut (c : DefaultPlanner) (taken : List CompactionGroup)
    (r : List CompactionGroup × DefaultPlanner) : Prop where
  apart : Apart (c.findGenerations true).1 → r.1.Pairwise Disjoint
  free : ∀ G ∈ r.1, ∀ p ∈ G, p ∉ c.filesInUse
  inUse : r.2.filesInUse = (c.filesInUse \ taken.flatten.toFinset) ∪ r.1.flatten.toFinset

theorem HandsOut.none (h : d.filesInUse = c.filesInUse) : HandsOut c [] ([], d) :=
  ⟨fun _ => Pairwise.nil, nofun, by simp [h]⟩

theorem HandsOut.acquire {L : List TsmGenerations} {f : TsmGenerations → CompactionGroup}
    (hd : d.filesInUse = c.filesInUse)
    (hf : ∀ l, ∀ p ∈ f l, p ∈ paths l) (hL : L.flatten.Sublist (c.findGenerations true).1) :
    HandsOut c [] (d.acquire (L.map f)) := by
  rw [DefaultPlanner.acquire]
  split_ifs with hany
  · exact .none hd
  · refine ⟨fun h => pairwise_map.mpr ?_, fun G hG p hp => ?_, by simp [hd]⟩
    · exact (h.paths hL).imp fun hll p hp hp' => hll (hf _ p hp) (hf _ p hp')
    · rw [← hd]
      exact fun huse => hany (any_eq_true.mpr ⟨G, hG, any_eq_true.mpr ⟨p, hp, decide_eq_true huse⟩⟩)

theorem filesInUse_findGenerations (c : DefaultPlanner) (skipInUse : Bool) :
    (c.findGenerations skipInUse).2.filesInUse = c.filesInUse := by
  rw [findGenerations]
  split_ifs <;> rfl

variable (c)

theorem planLevel_handsOut (level : ℕ) : HandsOut c [] (c.planLevel level) := by
  have hsize : (if level = 1 then 8 else 4) ≠ 0 := by split_ifs <;> omega
  rw [planLevel]
  generalize (if level = 1 then 8 else 4) = size at hsize ⊢
  split_ifs with hforce
  · exact .none rfl
  · dsimp only
    split_ifs with hfew
    · exact .none (c.filesInUse_findGenerations true)
    · refine .acquire (c.filesInUse_findGenerations true) (fun l p hp => hp) (filter_sublist.flatten.trans ?_)
      rw [flatten_flatMap_chunk hsize]
      exact filter_sublist.flatten.trans (flatten_groupLevels_sublist _ _)

theorem planOptimize_handsOut : HandsOut c [] c.planOptimize := by
  rw [planOptimize]
  split_ifs with hforce
  · exact .none rfl
  · dsimp only
    split_ifs with hfew
    · exact .none (c.filesInUse_findGenerations true)
    · refine .acquire (c.filesInUse_findGenerations true) (fun l p hp => hp) ?_
      exact (filter_sublist.trans filter_sublist).flatten.trans (flatten_groupLevels_sublist _ _)

theorem plan_handsOut (lastWrite now : ℕ) : HandsOut c [] (c.plan lastWrite now) := by
  have hinUse := c.filesInUse_findGenerations true
  have hwindows : ∀ {fs : FileStore} {step start stop : ℕ} {keep : TsmGenerations → Bool},
      (((chunk step (((c.findGenerations true).1.take stop).drop start)).filterMap (window fs)).filter
        keep).flatten.Sublist
        (c.findGenerations true).1 := fun {fs step start stop keep} =>
    filter_sublist.flatten.trans ((flatten_filterMap_window fs).trans (flatten_chunk_sublist.trans
      ((drop_sublist _ _).trans (take_sublist _ _))))
  rw [plan]
  dsimp only
  split_ifs
  · rw [planFull]
    split_ifs
    · exact .none hinUse
    · refine .acquire (L := [_]) (f := fun l => (paths l).insertionSort (· ≤ ·)) hinUse
        (fun l p => (mem_insertionSort _).mp) ?_
      rw [flatten_singleton]
      exact (full_spec _ _ _).1
  · exact .none hinUse
  · exact .none hinUse
  all_goals exact .acquire hinUse (fun l p => (mem_insertionSort _).mp) hwindows

end DefaultPlanner

namespace PlannerCall

open TsmGenerations DefaultPlanner

/-- The groups that a call takes back. -/
def released : PlannerCall → List CompactionGroup
  | .release groups => groups
  | _ => []

/-- A call on the planner, beside the groups that are out: returned by a call and not released since. -/
def track (s : DefaultPlanner × List CompactionGroup) (call : PlannerCall) : DefaultPlanner × List CompactionGroup :=
  ((exec s.1 call).2, (s.2.filter fun G => G ∉ call.released) ++ (exec s.1 call).1)

/-- The planner and the groups that are out after calls on a new planner. -/
def ledger (fs : FileStore) (writeColdDuration : ℤ) (calls : List PlannerCall) :
    DefaultPlanner × List CompactionGroup :=
  calls.foldl track (newDefaultPlanner fs writeColdDuration, [])

/-- Every group that is released is out at that time. -/
def Proper (fs : FileStore) (writeColdDuration : ℤ) (calls : List PlannerCall) : Prop :=
  ∀ pre call post, calls = pre ++ call :: post → ∀ G ∈ call.released, G ∈ (ledger fs writeColdDuration pre).2

variable {fs : FileStore} {writeColdDuration : ℤ} {calls : List PlannerCall}

theorem ledger_concat (call : PlannerCall) :
    ledger fs writeColdDuration (calls ++ [call]) = track (ledger fs writeColdDuration calls) call := by
  rw [ledger, foldl_append]
  rfl

theorem ledger_planner :
    (ledger fs writeColdDuration calls).1 = run (newDefaultPlanner fs writeColdDuration) calls := by
  induction calls using reverseRecOn with
  | nil => rfl
  | append_singleton calls call ih => rw [ledger_concat, run_concat, ← ih, track]

theorem exec_handsOut (c : DefaultPlanner) (call : PlannerCall) : HandsOut c call.released (exec c call) := by
  cases call with
  | plan lastWrite now => exact c.plan_handsOut lastWrite now
  | planLevel level => exact c.planLevel_handsOut level
  | planOptimize => exact c.planOptimize_handsOut
  | changed stats blockCount dt | forceFull => exact .none rfl
  | fullyCompacted => exact .none (c.filesInUse_findGenerations false)
  | release groups => exact ⟨fun _ => Pairwise.nil, nofun, by simp [exec, DefaultPlanner.release, released]⟩

/-- The generations that a planner works on share no file. -/
theorem apart_findGenerations :
    Apart ((run (newDefaultPlanner fs writeColdDuration) calls).findGenerations true).1 := by
  obtain ⟨⟨skipped, hgens, -⟩, -⟩ := findGenerations_current (cached_run fs writeColdDuration calls) true
  obtain ⟨hsorted, hfiles, -⟩ :=
    (run (newDefaultPlanner fs writeColdDuration) calls).fileStore.generationsOf_spec skipped
  rw [hgens]
  refine hsorted.imp_of_mem fun hg hg' hlt f hf f' hf' heq => hlt.ne ?_
  rw [← (hfiles _ hg f hf).2, ← (hfiles _ hg' f' hf').2, heq]

/-- In every run that releases only groups that are out, the groups that are out share no file and hold
exactly the files that are in use; every call hands out files that were free, and what it hands out and
takes back is all that changes. -/
theorem groups_out_disjoint (fs : FileStore) (writeColdDuration : ℤ) (calls : List PlannerCall)
    (hproper : Proper fs writeColdDuration calls) :
    let s := ledger fs writeColdDuration calls
    s.2.Pairwise Disjoint ∧ (∀ p, p ∈ s.1.filesInUse ↔ ∃ G ∈ s.2, p ∈ G) ∧
      ∀ call, (∀ G ∈ (exec s.1 call).1, ∀ p ∈ G, p ∉ s.1.filesInUse) ∧ (exec s.1 call).2.filesInUse =
        (s.1.filesInUse \ call.released.flatten.toFinset) ∪ (exec s.1 call).1.flatten.toFinset := by
  intro s
  rw [← and_assoc]
  refine ⟨?_, fun call => ⟨(exec_handsOut s.1 call).free, (exec_handsOut s.1 call).inUse⟩⟩
  induction calls using reverseRecOn with
  | nil => exact ⟨Pairwise.nil, fun p => by simp [s, ledger, newDefaultPlanner]⟩
  | append_singleton calls call ih =>
    obtain ⟨hout, hinUse⟩ := ih fun pre call' post hcalls =>
      hproper pre call' (post ++ [call]) (by rw [hcalls, append_assoc, cons_append])
    have hreleased := hproper calls call [] rfl
    obtain ⟨hapart, hfree, hafter⟩ := exec_handsOut (ledger fs writeColdDuration calls).1 call
    replace hapart := hapart (ledger_planner ▸ apart_findGenerations)
    have hs : s = track (ledger fs writeColdDuration calls) call := ledger_concat call
    rw [hs, track]
    refine ⟨pairwise_append.mpr ⟨hout.sublist filter_sublist, hapart, fun G hG G' hG' p hp hp' => ?_⟩,
      fun p => ?_⟩
    · exact hfree G' hG' p hp' ((hinUse p).mpr ⟨G, (mem_filter.mp hG).1, hp⟩)
    · rw [hafter]
      simp only [Finset.mem_union, Finset.mem_sdiff, hinUse, mem_toFinset, mem_flatten, mem_append, mem_filter,
        decide_eq_true_eq]
      constructor
      · rintro (⟨⟨G, hG, hp⟩, hkept⟩ | ⟨G, hG, hp⟩)
        · exact ⟨G, .inl ⟨hG, fun h => hkept ⟨G, h, hp⟩⟩, hp⟩
        · exact ⟨G, .inr hG, hp⟩
      · rintro ⟨G, ⟨hG, hkept⟩ | hG, hp⟩
        · -- A group that is taken back shares no file with one that stays out.
          refine .inl ⟨⟨G, hG, hp⟩, ?_⟩
          rintro ⟨G', hG', hp'⟩
          have hne : G ≠ G' := fun heq => hkept (heq ▸ hG')
          have : Std.Symm (Disjoint (α := Bytes)) := ⟨fun _ _ h => h.symm⟩
          exact hout.forall hG (hreleased G' hG') hne hp hp'
        · exact .inr ⟨G, hG, hp⟩

/-- Two generations of level 4, named by the generation and the sequence. -/
def pairStore : FileStore := { overSizeStore with stats := [⟨[1, 4], false, 10⟩, ⟨[2, 4], false, 10⟩] }

theorem proper_of_get
    (h : ∀ n : Fin calls.length, ∀ G ∈ (calls.get n).released,
      G ∈ (ledger fs writeColdDuration (calls.take n)).2) :
    Proper fs writeColdDuration calls := by
  rintro pre call post rfl G hG
  have hout := h ⟨pre.length, by simp⟩ G (by simpa using hG)
  rwa [take_left' rfl] at hout

/-- A group is released and handed out again, and then the store has two more generations. -/
def twoGroups : List PlannerCall :=
  [.forceFull, .plan 0 0, .release [[[1, 4], [2, 4]]], .forceFull, .plan 0 0,
    .changed [⟨[1, 4], false, 10⟩, ⟨[2, 4], false, 10⟩, ⟨[3, 4], false, 10⟩, ⟨[4, 4], false, 10⟩]
      (fun _ _ => 0) 0,
    .forceFull, .plan 0 0]

theorem groups_out_twoGroups :
    (ledger pairStore 0 twoGroups).2 = [[[1, 4], [2, 4]], [[3, 4], [4, 4]]] ∧
      (ledger pairStore 0 twoGroups).2.Pairwise Disjoint :=
  ⟨by decide, (groups_out_disjoint pairStore 0 twoGroups (proper_of_get (by decide))).1⟩

/-- A group is released, its files are handed out again in a larger group, and it is released once more. -/
def staleRelease : List PlannerCall :=
  let stats : List FileStat := [⟨[1, 4], false, 10⟩, ⟨[2, 4], false, 10⟩, ⟨[3, 4], false, 10⟩]
  [.forceFull, .plan 0 0, .release [[[1, 4], [2, 4]]], .changed stats (fun _ _ => 0) 0,
    .forceFull, .plan 0 0, .release [[[1, 4], [2, 4]]], .changed stats (fun _ _ => 0) 0, .forceFull, .plan 0 0]

/-- The last plan has files of a group that is still out. -/
theorem not_disjoint_staleRelease : ¬ (ledger pairStore 0 staleRelease).2.Pairwise Disjoint := by
  intro hdisjoint
  have hout : (ledger pairStore 0 staleRelease).2 = [[[1, 4], [2, 4], [3, 4]], [[1, 4], [2, 4]]] := by decide
  rw [hout] at hdisjoint
  have hfirst := rel_of_pairwise_cons hdisjoint (mem_singleton_self _)
  exact hfirst (a := [1, 4]) (by decide) (by decide)

end PlannerCall

end InfluxDB.Tsm
