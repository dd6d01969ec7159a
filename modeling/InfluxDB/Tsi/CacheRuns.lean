import InfluxDB.Tsi.TagValueSeries

/-!
    When the cache of tag values is transparent.  A set stays cached until it is evicted, so one that is put
    after the partitions have changed, or that a drop does not reach, is wrong from then on.  Cached sets
    and the sets that lookups have gathered so far are treated alike: such a set has the series that the
    partitions show, and no others, but for the updates that calls in flight still owe it.  Calls may run
    at the same time; the condition asks a step only for what the sets that are held at that moment need.
-/

namespace InfluxDB.Tsi

open Lib Models List TagValueSeriesIDCache Shared

/-! ### What the partitions show -/

namespace Shared

variable {s : Shared} {t : TagTuple} {id n : ℕ} {pre post : List Partition} {p p' : Partition}
  {cache cache' : TagValueSeriesIDCache} {X : Prop}

/-- One of the first partitions shows the series under the tag value. -/
def Shows (s : Shared) (n : ℕ) (t : TagTuple) (id : ℕ) : Prop := ∃ p ∈ s.partitions.take n, p.Shows t id

/-- A partition shows the series under the tag value. -/
def Listed (s : Shared) (t : TagTuple) (id : ℕ) : Prop := ∃ p ∈ s.partitions, p.Shows t id

theorem Shows.listed (h : s.Shows n t id) : s.Listed t id :=
  h.imp fun _ hp => hp.imp_left fun hp => mem_of_mem_take hp

theorem listed_iff_shows : s.Listed t id ↔ s.Shows s.partitions.length t id := by
  rw [Shows, take_length]
  rfl

/-- One partition changes. -/
theorem Shows.middle (h : Shows ⟨pre ++ p' :: post, cache'⟩ n t id) (hp : p'.Shows t id → p.Shows t id ∨ X) :
    Shows ⟨pre ++ p :: post, cache⟩ n t id ∨ X := by
  obtain ⟨q, hq, hshows⟩ := h
  rw [take_append] at hq
  cases hm : n - pre.length with
  | zero =>
    rw [hm] at hq
    refine .inl ⟨q, ?_, hshows⟩
    rw [take_append, hm]
    exact hq
  | succ m =>
    rw [hm, take_succ_cons, mem_append, mem_cons, or_left_comm] at hq
    have hmem : ∀ q, q ∈ (pre ++ p :: post).take n ↔ q = p ∨ q ∈ pre.take n ∨ q ∈ post.take m := by
      intro q
      rw [take_append, hm, take_succ_cons, mem_append, mem_cons, or_left_comm]
    rcases hq with rfl | hq
    · exact (hp hshows).imp_left fun hp => ⟨p, (hmem p).mpr (.inl rfl), hp⟩
    · exact .inl ⟨q, (hmem q).mpr (.inr hq), hshows⟩

theorem Listed.middle (h : Listed ⟨pre ++ p' :: post, cache'⟩ t id) (hp : p'.Shows t id → p.Shows t id ∨ X) :
    Listed ⟨pre ++ p :: post, cache⟩ t id ∨ X :=
  ((listed_iff_shows.mp h).middle hp).imp_left Shows.listed

theorem mem_foldr_union {l : List (Finset ℕ)} : id ∈ l.foldr (· ∪ ·) ∅ ↔ ∃ ss ∈ l, id ∈ ss := by
  induction l with
  | nil => simp
  | cons ss l ih => rw [foldr_cons, Finset.mem_union, ih, exists_mem_cons_iff]

theorem mem_uncachedSeriesIDs : id ∈ s.uncachedSeriesIDs t ↔ s.Listed t id := by
  rw [uncachedSeriesIDs, mem_foldr_union]
  simp only [mem_map, exists_exists_and_eq_and, Partition.mem_tagValueSeriesIDs]
  rfl

end Shared

/-! ### The condition -/

/-- A set of the tag value is cached, or a lookup has gathered it from the first partitions. -/
def Index.Held (i : Index) (n : ℕ) (t : TagTuple) (ss : Finset ℕ) : Prop :=
  i.shared.cache.peek t = some ss ∧ n = i.shared.partitions.length ∨ Call.read t n ss ∈ i.calls

/-- What a step of a call asks of the sets that are held. -/
def Call.Safe (env : Env) (i : Index) (a : Access) : Call → Prop
  -- A series is added to a cached set while a partition shows it, and no lookup has passed it over.
  | .create _ _ => ∀ t id, a = .addToSet t id →
    (∀ ss, i.shared.cache.peek t = some ss → id ∉ ss → i.shared.Listed t id) ∧
      ∀ n ss, .read t n ss ∈ i.calls → i.shared.Shows n t id → id ∈ ss
  -- A drop of a series names the series and updates the cache, unless no set has the series.
  | .dropSeries id key cascade => cascade = true ∧ env.parseKeyBytes key = env.keyOf id ∨
    ∀ t ∈ (env.keyOf id).tuples, ∀ n ss, i.Held n t ss → id ∉ ss
  -- A series is deleted from a cached set when no partition shows it, and no lookup has it from before.
  | .deleteSets _ _ _ => ∀ t id, a = .delete t id →
    (∀ ss, i.shared.cache.peek t = some ss → id ∈ ss → ¬ i.shared.Listed t id) ∧
      ∀ n ss, .read t n ss ∈ i.calls → id ∈ ss → i.shared.Listed t id
  -- When the cache is cleared, no lookup has dropped series; later, no set has series that are still to be dropped.
  | .dropMeasurement name _ false => a = .deleteMeasurement name →
    ∀ t n ss, t.name = name → .read t n ss ∈ i.calls → ∀ id ∈ ss, i.shared.Listed t id
  | .dropMeasurement name _ true => ∀ idx p, a = .partition idx → i.shared.partitions[idx]? = some p →
    ∀ t n ss, t.name = name → i.Held n t ss → ∀ id ∈ ss, ¬ p.Shows t id
  | _ => True

/-- Calls may start at any time.  Roll-overs and compactions come while no file of the partition deletes a series that
a file lists under a tag value of which a set is held. -/
def Act.Safe (env : Env) (i : Index) : Act → Prop
  | .start _ => True
  | .move c a _ => c.Safe env i a
  | .maintain idx _ => ∀ p, i.shared.partitions[idx]? = some p → ∀ n t ss, i.Held n t ss →
    ∀ f ∈ p.fileSet, ∀ id, f.Lists t.name t.key t.value id → ∀ g ∈ p.fileSet, id ∉ g.tombstoneSeriesIDSet

/-! ### What calls still owe -/

namespace Call

/-- The call will add the series to the set of the tag value. -/
def Adds : Call → TagTuple → ℕ → Prop
  | .create _ adds, t, id => (t, id) ∈ adds
  | _, _, _ => False

/-- The call will delete the series from the set of the tag value, or the set itself. -/
def Deletes : Call → TagTuple → ℕ → Prop
  | .deleteSets id' _ pairs, t, id => id = id' ∧ t ∈ pairs
  | .dropMeasurement name _ cleared, t, _ => t.name = name ∧ cleared = false
  | _, _, _ => False

/-- Series that are to be created have the keys of the series file. -/
def Ready (env : Env) : Call → Prop
  | .create todo _ => ∀ d ∈ todo, ∀ s ∈ d.2, s.2 = env.keyOf s.1
  | _ => True

end Call

/-- The set has what the first partitions show, and nothing that no partition shows, but for what calls still owe. -/
structure Faithful (s : Shared) (calls : List Call) (n : ℕ) (t : TagTuple) (ss : Finset ℕ) : Prop where
  complete : ∀ id, s.Shows n t id → id ∈ ss ∨ ∃ c ∈ calls, c.Adds t id
  sound : ∀ id ∈ ss, s.Listed t id ∨ ∃ c ∈ calls, c.Deletes t id

theorem mem_middle {α : Type*} {a b : α} {l l' : List α} : a ∈ l ++ b :: l' ↔ a = b ∨ a ∈ l ++ l' :=
  perm_middle.mem_iff.trans mem_cons

section

variable {env : Env} {s s' : Shared} {sfile : SeriesFile} {l l' cs : List Call} {c : Call} {n : ℕ} {t : TagTuple}
  {ss ss' : Finset ℕ}

theorem exists_of_step {P : Call → Prop} (h : ∃ d ∈ l ++ c :: l', P d) (hc : ¬ P c) :
    ∃ d ∈ l ++ cs ++ l', P d := by
  obtain ⟨d, hd, hP⟩ := h
  rcases mem_middle.mp hd with rfl | hd
  · exact absurd hP hc
  · refine ⟨d, ?_, hP⟩
    rw [mem_append, mem_append]
    exact (mem_append.mp hd).imp_left .inl

/-- A step of a call: a series that is missing afterwards was missing before, and one too many was one too many. -/
theorem Faithful.step (h : Faithful s (l ++ c :: l') n t ss)
    (hcomplete : ∀ id, s'.Shows n t id → id ∉ ss' → (∀ c' ∈ cs, ¬ c'.Adds t id) →
      s.Shows n t id ∧ id ∉ ss ∧ ¬ c.Adds t id)
    (hsound : ∀ id ∈ ss', ¬ s'.Listed t id → (∀ c' ∈ cs, ¬ c'.Deletes t id) →
      id ∈ ss ∧ ¬ s.Listed t id ∧ ¬ c.Deletes t id) :
    Faithful s' (l ++ cs ++ l') n t ss' := by
  have hrest : ∀ {P : Call → Prop}, (¬ ∃ d ∈ l ++ cs ++ l', P d) → ∀ c' ∈ cs, ¬ P c' :=
    fun hno c' hc' hP =>
    hno ⟨c', mem_append_left _ (mem_append_right _ hc'), hP⟩
  refine ⟨fun id hid => or_iff_not_imp_left.mpr fun hss => ?_,
    fun id hid => or_iff_not_imp_left.mpr fun hlisted => ?_⟩
  · by_contra hno
    obtain ⟨hshows, hnot, hc⟩ := hcomplete id hid hss (hrest hno)
    exact hno (exists_of_step ((h.complete id hshows).resolve_left hnot) hc)
  · by_contra hno
    obtain ⟨hmem, hnot, hc⟩ := hsound id hid hlisted (hrest hno)
    exact hno (exists_of_step ((h.sound id hmem).resolve_left hnot) hc)

/-- Every set that is held is right but for what calls still owe. -/
structure CacheInv (env : Env) (i : Index) : Prop where
  tracked : ∀ p ∈ i.shared.partitions, p.Tracked env.keyOf
  ready : ∀ c ∈ i.calls, c.Ready env
  faithful : ∀ n t ss, i.Held n t ss → Faithful i.shared i.calls n t ss

/-- A set that is held after a step that puts none was held before. -/
theorem Index.Held.of_step (h : Held ⟨s', l ++ cs ++ l'⟩ n t ss)
    (hlen : s'.partitions.length = s.partitions.length)
    (hpeek : ∀ ss, s'.cache.peek t = some ss → s.cache.peek t = some ss) (hcs : ∀ n ss, Call.read t n ss ∉ cs) :
    Held ⟨s, l ++ c :: l'⟩ n t ss := by
  rcases h with ⟨h, rfl⟩ | h
  · exact .inl ⟨hpeek ss h, hlen⟩
  · rw [mem_append, mem_append, or_right_comm] at h
    exact .inr (mem_middle.mpr (.inr (mem_append.mpr (h.resolve_right (hcs n ss)))))

/-! ### The steps of calls -/

/-- What a step that changes no partition does to a set: what its call does not owe any more is done. -/
structure Pays (s : Shared) (c : Call) (cs : List Call) (n : ℕ) (t : TagTuple) (ss ss' : Finset ℕ) : Prop where
  complete : ∀ id, s.Shows n t id → id ∉ ss' → (∀ c' ∈ cs, ¬ c'.Adds t id) → id ∉ ss ∧ ¬ c.Adds t id
  sound : ∀ id ∈ ss', ¬ s.Listed t id → (∀ c' ∈ cs, ¬ c'.Deletes t id) → id ∈ ss ∧ ¬ c.Deletes t id

/-- A step that changes no partition. -/
theorem CacheInv.pay (h : CacheInv env ⟨s, l ++ c :: l'⟩) {cache : TagValueSeriesIDCache}
    (hready : ∀ c' ∈ cs, c'.Ready env)
    (hcached : ∀ t ss', cache.peek t = some ss' →
      ∃ ss, Index.Held ⟨s, l ++ c :: l'⟩ s.partitions.length t ss ∧
      Pays s c cs s.partitions.length t ss ss')
    (hreads : ∀ n t ss, .read t n ss ∈ l ++ l' → Pays s c cs n t ss ss)
    (hnew : ∀ n t ss, .read t n ss ∈ cs → Faithful s (l ++ cs ++ l') n t ss) :
    CacheInv env ⟨{ s with cache := cache }, l ++ cs ++ l'⟩ := by
  have hpays : ∀ {n t ss ss'}, Index.Held ⟨s, l ++ c :: l'⟩ n t ss → Pays s c cs n t ss ss' →
      Faithful { s with cache := cache } (l ++ cs ++ l') n t ss' := fun hheld hp =>
    (h.faithful _ _ _ hheld).step (fun id hid hnot hno => ⟨hid, hp.complete id hid hnot hno⟩) fun id hid hnot hno =>
      ⟨(hp.sound id hid hnot hno).1, hnot, (hp.sound id hid hnot hno).2⟩
  refine ⟨h.tracked, ?_, fun n t ss hheld => ?_⟩
  · have hold := h.ready
    simp only [forall_mem_append, forall_mem_cons] at hold ⊢
    exact ⟨⟨hold.1, hready⟩, hold.2.2⟩
  · rcases hheld with ⟨hpeek, rfl⟩ | hread
    · obtain ⟨ss₀, hheld, hp⟩ := hcached t ss hpeek
      exact hpays hheld hp
    · rw [mem_append, mem_append, or_right_comm] at hread
      rcases hread with hread | hread
      · have hmem := mem_append.mpr hread
        exact hpays (.inr (mem_middle.mpr (.inr hmem))) (hreads n t ss hmem)
      · have hnew := hnew n t ss hread
        exact ⟨hnew.complete, hnew.sound⟩

theorem Pays.nothing (hadds : ∀ t id, ¬ c.Adds t id) (hdeletes : ∀ t id, ¬ c.Deletes t id) :
    Pays s c cs n t ss ss :=
  ⟨fun id _ hnot _ => ⟨hnot, hadds t id⟩, fun id hid _ _ => ⟨hid, hdeletes t id⟩⟩

/-- A step of a call that owes nothing, which leaves the sets alone. -/
theorem CacheInv.silent (h : CacheInv env ⟨s, l ++ c :: l'⟩) (hadds : ∀ t id, ¬ c.Adds t id)
    (hdeletes : ∀ t id, ¬ c.Deletes t id) {cache : TagValueSeriesIDCache}
    (hpeek : ∀ t, cache.peek t = s.cache.peek t) (hready : ∀ c' ∈ cs, c'.Ready env)
    (hnew : ∀ n t ss, .read t n ss ∈ cs → Faithful s (l ++ cs ++ l') n t ss) :
    CacheInv env ⟨{ s with cache := cache }, l ++ cs ++ l'⟩ :=
  h.pay hready (fun t ss hss => ⟨ss, .inl ⟨hpeek t ▸ hss, rfl⟩, .nothing hadds hdeletes⟩)
    (fun _ _ _ _ => .nothing hadds hdeletes) hnew

/-- A step that changes the set of one tag value, if it is cached. -/
theorem CacheInv.modify (h : CacheInv env ⟨s, l ++ c :: l'⟩) {f : Finset ℕ → Finset ℕ}
    (hready : ∀ c' ∈ cs, c'.Ready env) (hcs : ∀ n t ss, Call.read t n ss ∉ cs)
    (hcached : ∀ ss, s.cache.peek t = some ss → Pays s c cs s.partitions.length t ss (f ss))
    (hreads : ∀ n ss, .read t n ss ∈ l ++ l' → Pays s c cs n t ss ss)
    (hother : ∀ n t' ss, t' ≠ t → Pays s c cs n t' ss ss) :
    CacheInv env ⟨{ s with cache := s.cache.modify t f }, l ++ cs ++ l'⟩ := by
  refine h.pay hready (fun t' ss' hss' => ?_) (fun n t' ss hread => ?_) fun n t ss hmem => absurd hmem (hcs n t ss)
  · rw [peek_modify] at hss'
    split_ifs at hss' with ht
    · subst ht
      obtain ⟨ss, hss, rfl⟩ := Option.map_eq_some_iff.mp hss'
      exact ⟨ss, .inl ⟨hss, rfl⟩, hcached ss hss⟩
    · exact ⟨ss', .inl ⟨hss', rfl⟩, hother _ t' ss' ht⟩
  · rcases eq_or_ne t' t with rfl | ht
    · exact hreads n ss hread
    · exact hother n t' ss ht

/-- A step that changes a partition. -/
theorem CacheInv.partition {pre post : List Partition} {p p' : Partition} {cache : TagValueSeriesIDCache}
    (h : CacheInv env ⟨⟨pre ++ p :: post, cache⟩, l ++ c :: l'⟩) (hp : p'.Tracked env.keyOf)
    (hready : ∀ c' ∈ cs, c'.Ready env) (hcs : ∀ t n ss, Call.read t n ss ∉ cs)
    (hgrow : ∀ t id, p'.Shows t id → p.Shows t id ∨ ∃ c' ∈ cs, c'.Adds t id)
    (hadds : ∀ t id, c.Adds t id → ∃ c' ∈ cs, c'.Adds t id)
    (hshrink : ∀ n t ss, Index.Held ⟨⟨pre ++ p :: post, cache⟩, l ++ c :: l'⟩ n t ss →
      ∀ id ∈ ss, p.Shows t id → p'.Shows t id ∨ ∃ c' ∈ cs, c'.Deletes t id)
    (hdeletes : ∀ t id, c.Deletes t id → ∃ c' ∈ cs, c'.Deletes t id) :
    CacheInv env ⟨⟨pre ++ p' :: post, cache⟩, l ++ cs ++ l'⟩ := by
  refine ⟨?_, ?_, fun n t ss hheld => ?_⟩
  · have htracked := h.tracked
    simp only [forall_mem_append, forall_mem_cons] at htracked ⊢
    exact ⟨htracked.1, hp, htracked.2.2⟩
  · have hold := h.ready
    simp only [forall_mem_append, forall_mem_cons] at hold ⊢
    exact ⟨⟨hold.1, hready⟩, hold.2.2⟩
  · have hheld := hheld.of_step (s := ⟨pre ++ p :: post, cache⟩) (c := c) (by simp) (fun ss h => h) (hcs t)
    refine (h.faithful n t ss hheld).step (fun id hid hnot hno => ?_) fun id hid hnot hno => ?_
    · refine ⟨(hid.middle (hgrow t id)).resolve_right fun ⟨c', hc', h⟩ => hno c' hc' h, hnot, fun hc => ?_⟩
      obtain ⟨c', hc', h⟩ := hadds t id hc
      exact hno c' hc' h
    · refine ⟨hid, fun hlisted => ?_, fun hc => ?_⟩
      · rcases hlisted.middle (hshrink n t ss hheld id hid) with h | ⟨c', hc', h⟩
        · exact hnot h
        · exact hno c' hc' h
      · obtain ⟨c', hc', h⟩ := hdeletes t id hc
        exact hno c' hc' h

theorem CacheInv.addToSet {todo : List (ℕ × List (ℕ × SeriesKey))} {m m' : List (TagTuple × ℕ)} {id : ℕ}
    (h : CacheInv env ⟨s, l ++ .create todo (m ++ (t, id) :: m') :: l'⟩)
    (hsafe : (Call.create todo (m ++ (t, id) :: m')).Safe env ⟨s, l ++ .create todo (m ++ (t, id) :: m') :: l'⟩
      (.addToSet t id)) :
    CacheInv env ⟨{ s with cache := s.cache.addToSet t id }, l ++ [.create todo (m ++ m')] ++ l'⟩ := by
  obtain ⟨hcached, hreads⟩ := hsafe t id rfl
  have hready : (Call.create todo (m ++ (t, id) :: m')).Ready env := h.ready _ (mem_middle.mpr (.inl rfl))
  -- What is owed afterwards is what was owed, but for this update.
  have hadds : ∀ t' id', (∀ c' ∈ [Call.create todo (m ++ m')], ¬ c'.Adds t' id') →
      (Call.create todo (m ++ (t, id) :: m')).Adds t' id' → t' = t ∧ id' = id := by
    intro t' id' hno hc
    rcases mem_middle.mp hc with heq | hc
    · exact Prod.mk.inj heq
    · exact absurd hc (hno _ mem_cons_self)
  refine h.modify (forall_mem_singleton.mpr hready) (fun _ _ _ hmem => by simp at hmem) (fun ss hss => ?_)
    (fun n ss hread => ?_) fun n t' ss ht => ?_
  · refine ⟨fun id' _ hnot hno => ⟨fun hmem => hnot (Finset.mem_insert_of_mem hmem), fun hc => hnot ?_⟩,
      fun id' hmem hnot _ => ⟨?_, nofun⟩⟩
    · rw [(hadds t id' hno hc).2]
      exact Finset.mem_insert_self id ss
    · rcases Finset.mem_insert.mp hmem with rfl | hmem
      · by_contra hid
        exact hnot (hcached ss hss hid)
      · exact hmem
  · refine ⟨fun id' hid' hnot hno => ⟨hnot, fun hc => hnot ?_⟩, fun id' hmem _ _ => ⟨hmem, nofun⟩⟩
    obtain ⟨-, rfl⟩ := hadds t id' hno hc
    exact hreads n ss (mem_middle.mpr (.inr hread)) hid'
  · exact ⟨fun id' _ hnot hno => ⟨hnot, fun hc => ht (hadds t' id' hno hc).1⟩,
      fun id' hmem _ _ => ⟨hmem, nofun⟩⟩

theorem CacheInv.delete {name : Bytes} {m m' : List TagTuple} {id : ℕ}
    (h : CacheInv env ⟨s, l ++ .deleteSets id name (m ++ t :: m') :: l'⟩)
    (hsafe : (Call.deleteSets id name (m ++ t :: m')).Safe env ⟨s, l ++ .deleteSets id name (m ++ t :: m') :: l'⟩
      (.delete t id)) :
    CacheInv env ⟨{ s with cache := s.cache.delete t id }, l ++ [.deleteSets id name (m ++ m')] ++ l'⟩ := by
  obtain ⟨hcached, hreads⟩ := hsafe t id rfl
  have hdeletes : ∀ t' id', (∀ c' ∈ [Call.deleteSets id name (m ++ m')], ¬ c'.Deletes t' id') →
      (Call.deleteSets id name (m ++ t :: m')).Deletes t' id' → t' = t ∧ id' = id := by
    rintro t' id' hno ⟨rfl, hc⟩
    rcases mem_middle.mp hc with heq | hc
    · exact ⟨heq, rfl⟩
    · exact absurd ⟨rfl, hc⟩ (hno _ mem_cons_self)
  refine h.modify (forall_mem_singleton.mpr trivial) (fun _ _ _ hmem => by simp at hmem) (fun ss hss => ?_)
    (fun n ss hread => ?_) fun n t' ss ht => ?_
  · refine ⟨fun id' hid' hnot _ => ⟨fun hmem => ?_, nofun⟩, fun id' hmem _ hno => ?_⟩
    · rcases eq_or_ne id' id with rfl | hne
      · exact hcached ss hss hmem hid'.listed
      · exact hnot (Finset.mem_erase_of_ne_of_mem hne hmem)
    · obtain ⟨hne, hmem⟩ := Finset.mem_erase.mp hmem
      exact ⟨hmem, fun hc => hne (hdeletes t id' hno hc).2⟩
  · refine ⟨fun id' _ hnot _ => ⟨hnot, nofun⟩, fun id' hmem hnot hno => ⟨hmem, fun hc => hnot ?_⟩⟩
    obtain ⟨-, rfl⟩ := hdeletes t id' hno hc
    exact hreads n ss (mem_middle.mpr (.inr hread)) hmem
  · exact ⟨fun id' _ hnot _ => ⟨hnot, nofun⟩,
      fun id' hmem _ hno => ⟨hmem, fun hc => ht (hdeletes t' id' hno hc).1⟩⟩

theorem CacheInv.deleteMeasurement {name : Bytes} {todo : List ℕ}
    (h : CacheInv env ⟨s, l ++ .dropMeasurement name todo false :: l'⟩)
    (hsafe : (Call.dropMeasurement name todo false).Safe env ⟨s, l ++ .dropMeasurement name todo false :: l'⟩
      (.deleteMeasurement name)) :
    CacheInv env ⟨{ s with cache := s.cache.deleteMeasurement name },
      l ++ [.dropMeasurement name todo true] ++ l'⟩ := by
  refine h.pay (forall_mem_singleton.mpr trivial) (fun t ss hss => ?_) (fun n t ss hread => ?_)
    fun _ _ _ hmem => by simp at hmem
  · rw [peek_deleteMeasurement] at hss
    split_ifs at hss with ht
    exact ⟨ss, .inl ⟨hss, rfl⟩, fun id _ hnot _ => ⟨hnot, nofun⟩,
      fun id hmem _ _ => ⟨hmem, fun hc => ht hc.1⟩⟩
  · refine ⟨fun id _ hnot _ => ⟨hnot, nofun⟩, fun id hmem hnot _ => ⟨hmem, fun hc => hnot ?_⟩⟩
    exact hsafe rfl t n ss hc.1 (mem_middle.mpr (.inr hread)) id hmem

theorem CacheInv.put (h : CacheInv env ⟨s, l ++ .read t s.partitions.length ss :: l'⟩) :
    CacheInv env ⟨{ s with cache := s.cache.put t ss }, l ++ [] ++ l'⟩ := by
  have hnothing : ∀ {n t' ss'}, Pays s (.read t s.partitions.length ss) [] n t' ss' ss' :=
    .nothing (fun _ _ => not_false) fun _ _ => not_false
  refine h.pay (forall_mem_nil _) (fun t' ss' hss' => ?_) (fun _ _ _ _ => hnothing)
    fun _ _ _ hmem => absurd hmem not_mem_nil
  rcases peek_put hss' with hss' | ⟨rfl, rfl⟩
  · exact ⟨ss', .inl ⟨hss', rfl⟩, hnothing⟩
  · exact ⟨ss', .inr (mem_middle.mpr (.inl rfl)), hnothing⟩

theorem CacheInv.read {pre post : List Partition} {p : Partition} {cache : TagValueSeriesIDCache}
    (h : CacheInv env ⟨⟨pre ++ p :: post, cache⟩, l ++ .read t pre.length ss :: l'⟩) :
    CacheInv env ⟨⟨pre ++ p :: post, cache⟩,
      l ++ [.read t (pre.length + 1) (ss ∪ p.tagValueSeriesIDs t)] ++ l'⟩ := by
  refine h.silent (fun _ _ => not_false) (fun _ _ => not_false) (fun _ => rfl) (forall_mem_singleton.mpr trivial)
    fun n t' ss' hmem => ?_
  cases mem_singleton.mp hmem
  have hold := h.faithful _ t ss (.inr (mem_middle.mpr (.inl rfl)))
  refine ⟨fun id ⟨q, hq, hshows⟩ => ?_, fun id hid => ?_⟩
  · have htake : (pre ++ p :: post).take (pre.length + 1) = pre ++ [p] := by
      rw [append_cons, take_left' (by simp)]
    rw [htake, mem_append, mem_singleton] at hq
    rcases hq with hq | rfl
    · have hbefore := hold.complete id ⟨q, by rw [take_left' rfl]; exact hq, hshows⟩
      exact hbefore.imp (fun hid => Finset.mem_union_left _ hid) fun hadds =>
        exists_of_step (c := .read t pre.length ss) hadds not_false
    · exact .inl (Finset.mem_union_right _ (Partition.mem_tagValueSeriesIDs.mpr hshows))
  · rcases Finset.mem_union.mp hid with hid | hid
    · exact (hold.sound id hid).imp_right fun hdeletes =>
        exists_of_step (c := .read t pre.length ss) hdeletes not_false
    · exact .inl ⟨p, by simp, Partition.mem_tagValueSeriesIDs.mp hid⟩

section

variable {pre post : List Partition} {p : Partition} {cache : TagValueSeriesIDCache}

theorem CacheInv.create {m m' : List (ℕ × List (ℕ × SeriesKey))} {collection : List (ℕ × SeriesKey)}
    {adds : List (TagTuple × ℕ)}
    (h : CacheInv env ⟨⟨pre ++ p :: post, cache⟩,
      l ++ .create (m ++ (pre.length, collection) :: m') adds :: l'⟩) :
    CacheInv env ⟨⟨pre ++ p.createSeriesListIfNotExists collection :: post, cache⟩,
      l ++ [.create (m ++ m') (adds ++ addsOf (p.created collection))] ++ l'⟩ := by
  have hp := h.tracked p (mem_middle.mpr (.inl rfl))
  have hready : (Call.create (m ++ (pre.length, collection) :: m') adds).Ready env :=
    h.ready _ (mem_middle.mpr (.inl rfl))
  have hcoll : ∀ s ∈ collection, s.2 = env.keyOf s.1 := hready (pre.length, collection) (mem_middle.mpr (.inl rfl))
  refine h.partition (@Partition.Tracked.step _ _ (.createSeriesListIfNotExists collection) hp hcoll)
    (forall_mem_singleton.mpr fun d hd => hready d (mem_middle.mpr (.inr hd))) (fun _ _ _ hmem => by simp at hmem)
    (fun t id hid => ?_) (fun t id hid => ⟨_, mem_cons_self, mem_append_left _ hid⟩)
    (fun n t ss _ id _ hid => .inl ((hp.shows_create collection).mpr (.inl hid))) fun _ _ hc => absurd hc not_false
  exact ((hp.shows_create collection).mp hid).imp_right fun hid => ⟨_, mem_cons_self, mem_append_right _ hid⟩

variable (hsfile : ∀ id key, sfile id = some key → key = env.keyOf id)
include hsfile

theorem CacheInv.dropSeries {id : ℕ} {key : Bytes} {cascade : Bool} {a : Access}
    (h : CacheInv env ⟨⟨pre ++ p :: post, cache⟩, l ++ .dropSeries id key cascade :: l'⟩)
    (hsafe : (Call.dropSeries id key cascade).Safe env ⟨⟨pre ++ p :: post, cache⟩,
      l ++ .dropSeries id key cascade :: l'⟩ a) :
    CacheInv env ⟨⟨pre ++ p.dropSeries sfile id :: post, cache⟩,
      l ++ (if cascade then [.deleteSets id (env.parseKeyBytes key).name (env.parseKeyBytes key).tuples] else []) ++
        l'⟩ := by
  have hp := h.tracked p (mem_middle.mpr (.inl rfl))
  refine h.partition (@Partition.Tracked.step _ _ (.dropSeries sfile id) hp hsfile) ?_ ?_
    (fun t id' hid' => .inl ((hp.shows_dropSeries hsfile).1 hid')) (fun _ _ hc => absurd hc not_false)
    (fun n t ss hheld id' hmem hid' => ?_) fun _ _ hc => absurd hc not_false
  · cases cascade with
    | true => exact forall_mem_singleton.mpr trivial
    | false => exact forall_mem_nil _
  · cases cascade with
    | true | false => exact fun _ _ _ hmem => by simp at hmem
  · by_cases hown : t ∈ (env.keyOf id).tuples ∧ id' = id
    · right
      rcases hsafe with ⟨rfl, hkey⟩ | hsafe
      · exact ⟨_, mem_cons_self, hown.2, hkey ▸ hown.1⟩
      · exact absurd (hown.2 ▸ hmem) (hsafe t hown.1 n ss hheld)
    · exact .inl ((hp.shows_dropSeries hsfile).2 hid' hown)

theorem CacheInv.dropMeasurement {name : Bytes} {m m' : List ℕ} {cleared : Bool}
    (h : CacheInv env ⟨⟨pre ++ p :: post, cache⟩,
      l ++ .dropMeasurement name (m ++ pre.length :: m') cleared :: l'⟩)
    (hsafe : (Call.dropMeasurement name (m ++ pre.length :: m') cleared).Safe env
      ⟨⟨pre ++ p :: post, cache⟩, l ++ .dropMeasurement name (m ++ pre.length :: m') cleared :: l'⟩
      (.partition pre.length)) :
    CacheInv env ⟨⟨pre ++ p.dropMeasurement sfile name :: post, cache⟩,
      l ++ [.dropMeasurement name (m ++ m') cleared] ++ l'⟩ := by
  have hp := h.tracked p (mem_middle.mpr (.inl rfl))
  refine h.partition (@Partition.Tracked.step _ _ (.dropMeasurement sfile name) hp hsfile)
    (forall_mem_singleton.mpr trivial) (fun _ _ _ hmem => by simp at hmem)
    (fun t id hid => .inl ((hp.shows_dropMeasurement hsfile).1 hid)) (fun _ _ hc => absurd hc not_false)
    (fun n t ss hheld id hmem hid => ?_) fun t id hc => ⟨_, mem_cons_self, hc⟩
  by_cases ht : t.name = name
  · cases cleared with
    | false => exact .inr ⟨_, mem_cons_self, ht, rfl⟩
    | true => exact absurd hid (hsafe pre.length p rfl (by simp) t n ss ht hheld id hmem)
  · exact .inl ((hp.shows_dropMeasurement hsfile).2 hid ht)

end

/-- A step of a call that meets the condition keeps the invariant. -/
theorem CacheInv.move {a : Access} (h : CacheInv env ⟨s, l ++ c :: l'⟩)
    (hsfile : ∀ id key, sfile id = some key → key = env.keyOf id) (hmove : Move env sfile s c a s' cs)
    (hsafe : c.Safe env ⟨s, l ++ c :: l'⟩ a) : CacheInv env ⟨s', l ++ cs ++ l'⟩ := by
  cases hmove with
  | create pre p post cache m m' collection adds => exact h.create
  | addToSet s todo m m' t id => exact h.addToSet hsafe
  | created =>
    exact h.silent (fun _ _ => not_mem_nil) (fun _ _ => not_false) (fun _ => rfl) (forall_mem_nil _)
      fun _ _ _ hmem => absurd hmem not_mem_nil
  | dropSeries pre p post cache id key cascade hidx => exact h.dropSeries hsfile hsafe
  | delete s id name m m' t => exact h.delete hsafe
  | deleted s id name =>
    exact h.silent (fun _ _ => not_false) (fun _ _ hc => not_mem_nil hc.2) (fun _ => rfl)
      (forall_mem_singleton.mpr trivial) fun _ _ _ hmem => by simp at hmem
  | hasSeries pre p post cache name hp =>
    exact h.silent (fun _ _ => not_false) (fun _ _ => not_false) (fun _ => rfl) (forall_mem_nil _)
      fun _ _ _ hmem => absurd hmem not_mem_nil
  | hasNoSeries pre p post cache name hp =>
    exact h.silent (fun _ _ => not_false) (fun _ _ => not_false) (fun _ => rfl) (forall_mem_singleton.mpr trivial)
      fun _ _ _ hmem => by simp at hmem
  | cascade s name =>
    exact h.silent (fun _ _ => not_false) (fun _ _ => not_false) (fun _ => rfl) (forall_mem_singleton.mpr trivial)
      fun _ _ _ hmem => by simp at hmem
  | dropMeasurement pre p post cache name m m' cleared => exact h.dropMeasurement hsfile hsafe
  | deleteMeasurement s name todo => exact h.deleteMeasurement hsafe
  | dropped s name =>
    exact h.silent (fun _ _ => not_false) (fun _ _ hc => Bool.false_ne_true hc.2.symm) (fun _ => rfl) (forall_mem_nil _)
      fun _ _ _ hmem => absurd hmem not_mem_nil
  | hit s t ss hget =>
    exact h.silent (fun _ _ => not_false) (fun _ _ => not_false) (fun _ => peek_get) (forall_mem_nil _)
      fun _ _ _ hmem => absurd hmem not_mem_nil
  | miss s t hget =>
    refine h.silent (fun _ _ => not_false) (fun _ _ => not_false) (fun _ => peek_get) (forall_mem_singleton.mpr trivial)
      fun n t' ss hmem => ?_
    cases mem_singleton.mp hmem
    exact ⟨fun id ⟨q, hq, _⟩ => absurd hq not_mem_nil, fun id hid => absurd hid (Finset.notMem_empty id)⟩
  | read pre p post cache t ss => exact h.read
  | put s t ss => exact h.put

end

namespace CacheInv

variable {env : Env} {i j : Index}

theorem start (h : CacheInv env i) {r : Request} (hr : r.Consistent env) :
    CacheInv env { i with calls := r.call env i.shared.partitions.length :: i.calls } := by
  refine ⟨h.tracked, forall_mem_cons.mpr ⟨?_, h.ready⟩, fun n t ss hheld => ?_⟩
  · cases r with
    | createSeriesListIfNotExists collection =>
      intro d hd
      obtain ⟨idx, -, rfl⟩ := mem_map.mp hd
      intro s hs
      obtain ⟨s', hs', rfl⟩ := mem_map.mp hs
      exact hr s' (mem_of_mem_filter hs')
    | _ => trivial
  · have hold : i.Held n t ss := hheld.imp_right fun hread => (mem_cons.mp hread).resolve_left fun heq => by
      cases r <;> cases heq
    have hmore : ∀ {P : Call → Prop}, (∃ c ∈ i.calls, P c) →
        ∃ c ∈ r.call env i.shared.partitions.length :: i.calls, P c :=
      fun hP => hP.imp fun c hc => hc.imp_left (mem_cons_of_mem _)
    exact ⟨fun id hid => ((h.faithful n t ss hold).complete id hid).imp_right hmore,
      fun id hid => ((h.faithful n t ss hold).sound id hid).imp_right hmore⟩

theorem maintain {pre post : List Partition} {p : Partition} {cache : TagValueSeriesIDCache} {calls : List Call}
    {op : Partition.Op} (h : CacheInv env ⟨⟨pre ++ p :: post, cache⟩, calls⟩) (hop : op.Maintenance)
    (hsafe : (Act.maintain pre.length op).Safe env ⟨⟨pre ++ p :: post, cache⟩, calls⟩) :
    CacheInv env ⟨⟨pre ++ p.step op :: post, cache⟩, calls⟩ := by
  have hp := h.tracked p (mem_middle.mpr (.inl rfl))
  have hm : Maintains p.fileSet (p.step op).fileSet := by
    rcases p.step_cases op with ⟨hm, -⟩ | ⟨_, rfl⟩ | ⟨_, _, rfl⟩ | ⟨_, _, rfl⟩
    · exact hm
    all_goals exact hop.elim
  refine ⟨?_, h.ready, fun n t ss hheld => ?_⟩
  · have htracked := h.tracked
    simp only [forall_mem_append, forall_mem_cons] at htracked ⊢
    refine ⟨htracked.1, hp.step ?_, htracked.2.2⟩
    cases op with
    | createSeriesListIfNotExists | dropSeries | dropMeasurement => exact hop.elim
    | _ => trivial
  · have hold : Index.Held ⟨⟨pre ++ p :: post, cache⟩, calls⟩ n t ss :=
      hheld.imp_left fun hc => ⟨hc.1, by simpa using hc.2⟩
    have hshows : ∀ id, (p.step op).Shows t id ↔ p.Shows t id := fun id =>
      hp.shows_maintain hm fun f hf => hsafe p (by simp) n t ss hold f hf id
    have hfaithful := h.faithful n t ss hold
    refine ⟨fun id hid => hfaithful.complete id ?_,
      fun id hid => (hfaithful.sound id hid).imp_left fun hlisted => ?_⟩
    · exact (hid.middle fun h => .inl ((hshows id).mp h)).resolve_right not_false
    · exact (hlisted.middle fun h => .inl ((hshows id).mpr h)).resolve_right not_false

theorem step {a : Act} (h : CacheInv env i) (hsafe : a.Safe env i) (hstep : Index.Step env i a j) : CacheInv env j := by
  cases hstep with
  | start i r hr => exact h.start hr
  | move s s' l l' c a cs sfile hsfile hmove => exact h.move hsfile hmove hsafe
  | maintain pre p post cache calls op hop => exact h.maintain hop hsafe

theorem new (env : Env) (partitionN levels capacity : ℕ) :
    CacheInv env ⟨.new partitionN levels capacity, []⟩ where
  tracked p hp := eq_of_mem_replicate hp ▸ Partition.tracked_new env.keyOf levels
  ready := forall_mem_nil _
  faithful n t ss hheld := by
    rcases hheld with ⟨⟨⟩, -⟩ | hread
    cases hread

theorem runs (h : CacheInv env i) (hruns : Index.Runs env (fun i a => a.Safe env i) i j) : CacheInv env j := by
  induction hruns with
  | refl => exact h
  | step _ hok hstep ih => exact ih.step hok hstep

end CacheInv

/-- In every run of the index whose steps meet the condition, when all calls are finished, lookups of tag values return
what they would return with the cache disabled. -/
theorem cachedSeriesIDs_of_safe (env : Env) (partitionN levels capacity : ℕ) (s : Shared)
    (h : Index.Runs env (fun i a => a.Safe env i) ⟨.new partitionN levels capacity, []⟩ ⟨s, []⟩)
    (deleted : ℕ → Bool) (t : TagTuple) :
    filterUndeleted deleted (s.cachedSeriesIDs t) = filterUndeleted deleted (s.uncachedSeriesIDs t) := by
  rw [cachedSeriesIDs, get_fst]
  cases hpeek : s.cache.peek t with
  | none => rfl
  | some ss =>
    have hfaithful := ((CacheInv.new env partitionN levels capacity).runs h).faithful _ t ss (.inl ⟨hpeek, rfl⟩)
    have hnone : ∀ {P : Call → Prop}, ¬ ∃ c ∈ ([] : List Call), P c := fun ⟨_, hc, _⟩ => not_mem_nil hc
    refine congrArg (filterUndeleted deleted) (Finset.ext fun id => ?_)
    rw [mem_uncachedSeriesIDs]
    constructor
    · exact fun hid => (hfaithful.sound id hid).resolve_right hnone
    · exact fun hid => (hfaithful.complete id (listed_iff_shows.mp hid)).resolve_right hnone

/-! ### A lookup while series are created -/

/-- A series with one tag. -/
def cpuKey : SeriesKey := { name := [99, 112, 117], tags := [⟨[104], [97]⟩] }

/-- A series with the same tag and another one. -/
def regionKey : SeriesKey := { name := [99, 112, 117], tags := [⟨[104], [97]⟩, ⟨[114], [98]⟩] }

/-- The tag value that both series have. -/
def cpuHost : TagTuple := ⟨[99, 112, 117], [104], [97]⟩

/-- The other tag value. -/
def cpuRegion : TagTuple := ⟨[99, 112, 117], [114], [98]⟩

/-- The keys of the series 1 and 2. -/
def cpuEnv : Env where
  partitionIdx _ := 0
  parseKeyBytes key := if key = [] then cpuKey else regionKey
  keyOf id := if id = 1 then cpuKey else regionKey

/-- The partition after both series were created. -/
def cpuPartition : Partition := (Partition.new 3).createSeriesListIfNotExists [(1, cpuKey), (2, regionKey)]

/-- What a lookup reads from the partition. -/
def cpuSet : Finset ℕ := ∅ ∪ cpuPartition.tagValueSeriesIDs cpuHost

/-- The cache after the lookup and the updates for the series. -/
def cpuCache : TagValueSeriesIDCache :=
  (((((TagValueSeriesIDCache.new 10).get cpuHost).2.addToSet cpuHost 1).addToSet cpuHost 2).addToSet cpuRegion 2).put
    cpuHost cpuSet

/-- The series 1 is dropped. -/
def cpuDropped : Partition := cpuPartition.dropSeries (fun id => some (cpuEnv.keyOf id)) 1

variable {env : Env} {i : Index}

theorem Index.Runs.next {ok : Index → Act → Prop} {j k : Index} {a : Act} (h : Runs env ok i j)
    (hstep : Step env j a k) (hok : ok j a) : Runs env ok i k := h.step hok hstep

/-- A call moves while no other call runs. -/
theorem Index.Runs.moveAlone {ok : Index → Act → Prop} {s s' : Shared} {c : Call} {a : Access} {cs : List Call}
    {sfile : SeriesFile} (h : Runs env ok i ⟨s, [c]⟩)
    (hsfile : ∀ id key, sfile id = some key → key = env.keyOf id)
    (hmove : Move env sfile s c a s' cs) (hok : ok ⟨s, [c]⟩ (.move c a sfile)) :
    Index.Runs env ok i ⟨s', cs⟩ := by
  have hstep := Index.Step.move s s' [] [] c a cs sfile hsfile hmove
  rw [nil_append, append_nil] at hstep
  exact h.step hok hstep

theorem keyOf_of_none (id : ℕ) (key : SeriesKey) (h : (fun _ => none : SeriesFile) id = some key) :
    key = cpuEnv.keyOf id := by cases h

theorem keyOf_of_some (id : ℕ) (key : SeriesKey) (h : (fun id => some (cpuEnv.keyOf id) : SeriesFile) id = some key) :
    key = cpuEnv.keyOf id := (Option.some.inj h).symm

theorem addsOf_cpu :
    addsOf ((Partition.new 3).created [(1, cpuKey), (2, regionKey)]) =
      [(cpuHost, 1), (cpuHost, 2), (cpuRegion, 2)] := by
  decide +kernel

/-- A series is added while its tag value is not cached, and the lookup in flight has it. -/
theorem Index.Runs.addToSet {s : Shared} {t t' : TagTuple} {id n : ℕ} {ss : Finset ℕ}
    {adds : List (TagTuple × ℕ)}
    (h : Runs env (fun i a => a.Safe env i) i ⟨s, [.read t' n ss, .create [] ((t, id) :: adds)]⟩)
    (hcached : s.cache.peek t = none) (hread : id ∈ ss) :
    Runs env (fun i a => a.Safe env i) i
      ⟨{ s with cache := s.cache.addToSet t id }, [.read t' n ss, .create [] adds]⟩ := by
  refine h.next (.move s _ [.read t' n ss] [] _ _ _ (fun _ => none) nofun (.addToSet s [] [] adds t id)) ?_
  rintro _ _ ⟨⟩
  refine ⟨fun ss' hss' => ?_, fun n' ss' hmem _ => ?_⟩
  · exact absurd (hcached.symm.trans hss') nofun
  · simp only [mem_cons, Call.read.injEq, reduceCtorEq, not_mem_nil, or_false] at hmem
    exact hmem.2.2 ▸ hread

/-- A lookup starts while two series are created, and puts its set after the cache was updated for them. -/
theorem runs_cpuCache :
    Index.Runs cpuEnv (fun i a => a.Safe cpuEnv i) ⟨.new 1 3 10, []⟩ ⟨⟨[cpuPartition], cpuCache⟩, []⟩ := by
  have hnew : Index.Runs cpuEnv (fun i a => a.Safe cpuEnv i) ⟨.new 1 3 10, []⟩ ⟨.new 1 3 10, []⟩ := .refl _
  have hstart := hnew.next (.start _ (.createSeriesListIfNotExists [([], 1, cpuKey), ([], 2, regionKey)])
    (forall_mem_cons.mpr ⟨rfl, forall_mem_singleton.mpr rfl⟩)) trivial
  have hcreate := hstart.moveAlone keyOf_of_none
    (.create [] (.new 3) [] _ [] [] [(1, cpuKey), (2, regionKey)] []) fun _ _ => nofun
  rw [addsOf_cpu] at hcreate
  have hlookup := hcreate.next (.start _ (.tagValueSeriesIDIterator cpuHost) trivial) trivial
  have hmiss := hlookup.next (.move _ _ [] [.create [] _] _ _ _ _ keyOf_of_none (.miss _ cpuHost rfl)) trivial
  have hread := hmiss.next (.move _ _ [] [.create [] _] _ _ _ _ keyOf_of_none
    (.read [] cpuPartition [] _ cpuHost ∅)) trivial
  have hadded := ((hread.addToSet rfl (by decide +kernel)).addToSet rfl (by decide +kernel)).addToSet rfl
    (by decide +kernel)
  have hcreated :=
    hadded.next (.move _ _ [.read cpuHost 1 cpuSet] [] _ _ _ _ keyOf_of_none (.created _)) fun _ _ => nofun
  exact hcreated.moveAlone keyOf_of_none (.put _ cpuHost _) trivial

/-- Afterwards the series 1 is dropped, with a cascade; the measurement has the other series. -/
theorem runs_cpuDropped :
    Index.Runs cpuEnv (fun i a => a.Safe cpuEnv i) ⟨.new 1 3 10, []⟩
      ⟨⟨[cpuDropped], cpuCache.delete cpuHost 1⟩, []⟩ := by
  have hdrop := (runs_cpuCache.next (.start _ (.dropSeries 1 [] true) trivial) trivial).moveAlone keyOf_of_some
    (.dropSeries [] cpuPartition [] cpuCache 1 [] true rfl) (.inl ⟨rfl, rfl⟩)
  have hnot : ¬ Listed ⟨[cpuDropped], cpuCache⟩ cpuHost 1 := by
    rw [← mem_uncachedSeriesIDs]
    decide +kernel
  have hdelete := hdrop.moveAlone keyOf_of_none (.delete _ 1 cpuKey.name [] [] cpuHost) (by
    rintro _ _ ⟨⟩
    exact ⟨fun _ _ _ => hnot, fun _ _ hread => by simp at hread⟩)
  exact (hdelete.moveAlone keyOf_of_none (.deleted _ 1 cpuKey.name) fun _ _ => nofun).moveAlone keyOf_of_none
    (.hasSeries [] cpuDropped [] _ cpuKey.name (by decide +kernel)) trivial

theorem cachedSeriesIDs_cpuDropped :
    (cpuCache.delete cpuHost 1).peek cpuHost = some {2} ∧
      filterUndeleted (fun _ => false) (Shared.cachedSeriesIDs ⟨[cpuDropped], cpuCache.delete cpuHost 1⟩ cpuHost) =
        filterUndeleted (fun _ => false)
          (Shared.uncachedSeriesIDs ⟨[cpuDropped], cpuCache.delete cpuHost 1⟩ cpuHost) :=
  ⟨by decide +kernel, cachedSeriesIDs_of_safe cpuEnv 1 3 10 _ runs_cpuDropped (fun _ => false) cpuHost⟩

/-! ### Stale sets -/

theorem Index.Runs.mono {ok ok' : Index → Act → Prop} {j : Index} (h : Runs env ok i j)
    (hok : ∀ i a, ok i a → ok' i a) : Runs env ok' i j := by
  induction h with
  | refl => exact .refl _
  | step _ ha hstep ih => exact .step ih (hok _ _ ha) hstep

/-- After the lookup the series 1 is dropped without a cascade. -/
theorem runs_noCascade :
    Index.Runs cpuEnv (fun _ _ => True) ⟨.new 1 3 10, []⟩ ⟨⟨[cpuDropped], cpuCache⟩, []⟩ := by
  have hlookup : Index.Runs cpuEnv (fun _ _ => True) ⟨.new 1 3 10, []⟩ ⟨⟨[cpuPartition], cpuCache⟩, []⟩ :=
    runs_cpuCache.mono fun _ _ _ => trivial
  exact (hlookup.step trivial (.start _ (.dropSeries 1 [] false) trivial)).moveAlone keyOf_of_some
    (.dropSeries [] cpuPartition [] cpuCache 1 [] false rfl) trivial

/-- The partition after the series 1 was created. -/
def onePartition : Partition := (Partition.new 3).createSeriesListIfNotExists [(1, cpuKey)]

/-- The cache when the lookup has read the partition before the series is created, and puts what it read afterwards. -/
def staleCache : TagValueSeriesIDCache :=
  ((((TagValueSeriesIDCache.new 10).get cpuHost).2.addToSet cpuHost 1).put cpuHost
    (∅ ∪ (Partition.new 3).tagValueSeriesIDs cpuHost))

theorem runs_staleCache :
    Index.Runs cpuEnv (fun _ _ => True) ⟨.new 1 3 10, []⟩ ⟨⟨[onePartition], staleCache⟩, []⟩ := by
  have hadds : addsOf ((Partition.new 3).created [(1, cpuKey)]) = [(cpuHost, 1)] := by decide +kernel
  have hnew : Index.Runs cpuEnv (fun _ _ => True) ⟨.new 1 3 10, []⟩ ⟨.new 1 3 10, []⟩ := .refl _
  have hmiss := (hnew.step trivial (.start _ (.tagValueSeriesIDIterator cpuHost) trivial)).moveAlone keyOf_of_none
    (.miss _ cpuHost rfl) trivial
  have hread := hmiss.moveAlone keyOf_of_none (.read [] (.new 3) [] _ cpuHost ∅) trivial
  have hstart := hread.step trivial (.start _ (.createSeriesListIfNotExists [([], 1, cpuKey)])
    (forall_mem_singleton.mpr rfl))
  have hcreate := hstart.step trivial (.move _ _ [] [.read cpuHost 1 _] _ _ _ _ keyOf_of_none
    (.create [] (.new 3) [] _ [] [] [(1, cpuKey)] []))
  rw [hadds] at hcreate
  have hadd := hcreate.step trivial (.move _ _ [] [.read cpuHost 1 _] _ _ _ _ keyOf_of_none
    (.addToSet _ [] [] [] cpuHost 1))
  have hcreated := hadd.step trivial (.move _ _ [] [.read cpuHost 1 _] _ _ _ _ keyOf_of_none (.created _))
  exact hcreated.moveAlone keyOf_of_none (.put _ cpuHost _) trivial

/-- A cached set misses a series that was created while a lookup ran, and it keeps a series that was dropped. -/
theorem not_cachedSeriesIDs :
    (∃ (env : Env) (s : Shared) (t : TagTuple),
      Index.Runs env (fun _ _ => True) ⟨.new 1 3 10, []⟩ ⟨s, []⟩ ∧
        filterUndeleted (fun _ => false) (s.cachedSeriesIDs t) = ∅ ∧
        filterUndeleted (fun _ => false) (s.uncachedSeriesIDs t) = {1}) ∧
    ∃ (env : Env) (s : Shared) (t : TagTuple),
      Index.Runs env (fun _ _ => True) ⟨.new 1 3 10, []⟩ ⟨s, []⟩ ∧
        filterUndeleted (fun _ => false) (s.cachedSeriesIDs t) = {1, 2} ∧
        filterUndeleted (fun _ => false) (s.uncachedSeriesIDs t) = {2} :=
  ⟨⟨cpuEnv, _, cpuHost, runs_staleCache, by decide +kernel, by decide +kernel⟩,
    ⟨cpuEnv, _, cpuHost, runs_noCascade, by decide +kernel, by decide +kernel⟩⟩

end InfluxDB.Tsi
