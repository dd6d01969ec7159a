import InfluxDB.Tsm.Compaction

/-! Draining the key iterator rewrites the data of the readers.

    For each key the iterator should emit `wanted`, the map that takes a timestamp to its value in the
    last reader that holds it un-tombstoned. `Progress` says that keys before the current one are
    finished, that the current one is at some frontier, and that the sources hold exactly the later
    keys; the keys of a reader increase, so the smallest buffered key is the next one of all. -/

namespace InfluxDB.Tsm.Compact
open Lib List Source TSMReader

variable {β α : Type}

/-! ### What is in the readers and what comes out -/

/-- The points that a block decodes to. -/
def decoded (c : Codec β α) (typ : ℕ) (b : β) : Values α :=
  match c.decode typ b with
  | .ok v => v
  | .error _ => []

/-- The points of a key in a reader that the reader's tombstones leave. -/
def TSMReader.points (c : Codec β α) (key : Key) (r : TSMReader β) : Values α :=
  survivors (r.tombstoneRange key)
    ((r.keys.filter (·.key = key)).flatMap fun ke => ke.entries.flatMap fun e => decoded c ke.typ e.b)

/-- The points of a key in the emitted blocks. -/
def emittedPoints (c : Codec β α) (typ : ℕ) (key : Key) (out : List (Emitted β)) : Values α :=
  (out.filter (·.key = key)).flatMap fun e => (e.b.map (decoded c typ)).getD []

variable {c : LawfulCodec β α} {τ : Key → ℕ} {readers : List (TSMReader β)} {A : List (Block β)}
  {typ : ℕ} {key : Key}

/-- What the key should hold in the end. -/
def wanted (c : LawfulCodec β α) (typ : ℕ) (readers : List (TSMReader β)) (key : Key) : ℤ → Option α :=
  latest (readers.flatMap fun r => content c typ (r.blocks.filter (·.key = key)))

/-- The points of a key in a list of blocks. -/
def keyVals (c : LawfulCodec β α) (typ : ℕ) (key : Key) (A : List (Block β)) : Values α :=
  (A.filter (·.key = key)).flatMap (vals c typ)

theorem keyVals_append (typ : ℕ) (key : Key) (A B : List (Block β)) :
    keyVals c typ key (A ++ B) = keyVals c typ key A ++ keyVals c typ key B := by simp [keyVals]

theorem keyVals_of_all (h : ∀ b ∈ A, b.key = key) : keyVals c typ key A = A.flatMap (vals c typ) := by
  rw [keyVals, filter_eq_self.mpr fun b hb => decide_eq_true (h b hb)]

theorem keyVals_of_none (h : ∀ b ∈ A, b.key ≠ key) : keyVals c typ key A = [] := by
  rw [keyVals, filter_eq_nil_iff.mpr fun b hb => by simpa using h b hb, flatMap_nil]

/-! ### Sources with increasing keys -/

theorem Source.taken_sorted {s : Source β} (hrun : s.Run)
    (hsort : s.pending.Pairwise (fun a b => a.key ≤ b.key)) (hle : ∀ b ∈ s.buf.head?, key ≤ b.key)
    (hbuf : s.buf = [] → s.pending = []) :
    s.taken key = s.pending.filter (·.key = key) ∧ (∀ b ∈ (s.dropKey key).pending, key < b.key) ∧
      ∀ b ∈ s.pending, key ≤ b.key := by
  cases hb : s.buf with
  | nil => simp [taken, dropKey, holds, hb, hbuf hb]
  | cons b bs =>
    have hkb : key ≤ b.key := hle b (by simp [hb])
    have hpend : s.pending = b :: (bs ++ s.iter.ahead) := by simp [pending, hb]
    have hfirst : ∀ x ∈ s.pending, b.key ≤ x.key := by
      rw [hpend] at hsort ⊢
      exact forall_mem_cons.mpr ⟨le_rfl, (pairwise_cons.mp hsort).1⟩
    have hall : ∀ x ∈ s.pending, key ≤ x.key := fun x hx => hkb.trans (hfirst x hx)
    by_cases hkey : b.key = key
    · have hholds : s.holds key = true := holds_iff.mpr ⟨b, by simp [hb], hkey⟩
      have hahead : ∀ x ∈ s.iter.ahead, key < x.key := by
        have hsub := hsort.sublist (sublist_append_right s.buf s.iter.ahead)
        cases ha : s.iter.ahead with
        | nil => simp
        | cons y ys =>
          rw [ha] at hsub
          have hy : key < y.key := by
            refine lt_of_le_of_ne (hall y (by simp [pending, ha])) fun he => ?_
            exact hrun.maximal b (by simp [hb]) y (by simp [ha]) (he.symm.trans hkey.symm)
          exact forall_mem_cons.mpr ⟨hy, fun x hx => hy.trans_le ((pairwise_cons.mp hsub).1 x hx)⟩
      have hbuf' : ∀ x ∈ s.buf, x.key = key := fun x hx =>
        (hrun.same x hx b (by simp [hb])).trans hkey
      refine ⟨?_, ?_, hall⟩
      · rw [taken, if_pos hholds, pending, filter_append,
          filter_eq_self.mpr fun x hx => decide_eq_true (hbuf' x hx),
          filter_eq_nil_iff.mpr fun x hx => by simpa using (hahead x hx).ne', append_nil]
      · simpa [dropKey, hholds, pending] using hahead
    · have hlt : ∀ x ∈ s.pending, key < x.key := fun x hx =>
        (lt_of_le_of_ne hkb (Ne.symm hkey)).trans_le (hfirst x hx)
      have hholds : s.holds key = false := by simp [holds, hb, hkey]
      refine ⟨?_, by simpa [dropKey, hholds] using hlt, hall⟩
      rw [taken, hholds, filter_eq_nil_iff.mpr fun x hx => by simpa using (hlt x hx).ne']
      rfl

/-! ### Progress through the keys -/

/-- Nothing left to do for a key: what was emitted is what is wanted. -/
theorem Phase.complete {S : ℤ → Option α} {F : ℤ} {E : Values α}
    (h : Phase c typ S F E [] []) : Ascending E ∧ ∀ t, latest E t = S t := by
  have hasc := h.asc
  have hle := h.le
  have hbefore := h.before
  rw [append_nil] at hasc hle hbefore
  refine ⟨hasc, fun t => ?_⟩
  by_cases ht : t ≤ F
  · exact hbefore t ht
  · rw [latest_eq_none_of_le hle (not_le.mp ht), ← h.after t (not_le.mp ht)]
    rfl

structure Progress (c : LawfulCodec β α) (τ : Key → ℕ) (readers : List (TSMReader β))
    (A : List (Block β)) (k : TsmBatchKeyIterator β α) : Prop where
  live : Live c τ k
  noerr : k.err = none
  typ : k.key ≠ [] → k.typ = τ k.key
  idle : k.key = [] → k.blocks = [] ∧ k.mergedValues = []
  order : A.Pairwise (fun a b => a.key ≤ b.key)
  bound : ∀ b ∈ A, b.key ≤ k.key
  good : ∀ b ∈ A, b.key ≠ [] ∧ WfBlock c (τ b.key) b
  past : ∀ key < k.key, key ≠ [] → Ascending (keyVals c (τ key) key A) ∧
    ∀ t, latest (keyVals c (τ key) key A) t = wanted c (τ key) readers key t
  current : ∃ F, Phase c k.typ (wanted c k.typ readers k.key) F (keyVals c k.typ k.key A) k.mergedValues k.blocks
  sorted : ∀ s ∈ k.sources, s.pending.Pairwise (fun a b => a.key ≤ b.key)
  ahead : ∀ s ∈ k.sources, ∀ b ∈ s.pending, k.key < b.key
  future : ∀ key, k.key < key → ∀ t,
    latest (k.sources.flatMap fun s => content c (τ key) (s.pending.filter (·.key = key))) t =
      wanted c (τ key) readers key t

section
variable {A : List (Block β)} {k k' : TsmBatchKeyIterator β α}

section

variable (h : Progress c τ readers A k)
include h

theorem Progress.merged (hm : k.merged = []) {fuel : ℕ}
    (hfuel : leftAll c k.typ k.blocks < fuel) (he : merge c.toCodec fuel k = .returned k') :
    Progress c τ readers (A ++ k'.merged) k' := by
  obtain ⟨F, hph⟩ := h.current
  obtain ⟨k'', he', hmerged, F', hph'⟩ := merge_iter_spec h.live.size h.live.known hm h.live.keyed hph hfuel
  obtain rfl : k' = k'' := by rw [he] at he'; cases he'; rfl
  obtain ⟨k'', he', -, hlive, -⟩ := h.live.merged hm hfuel
  obtain rfl : k' = k'' := by rw [he] at he'; cases he'; rfl
  have hkey : k'.key = k.key := by rw [hmerged.frame]
  have htyp : k'.typ = k.typ := by rw [hmerged.frame]
  have hsrc : k'.sources = k.sources := by rw [hmerged.frame]
  have herr : k'.err = k.err := by rw [hmerged.frame]
  have hnone : ∀ key < k.key, keyVals c (τ key) key k'.merged = [] := fun key hlt =>
    keyVals_of_none fun b hb => by rw [(hmerged.good b hb).1]; exact hlt.ne'
  -- at the empty key there is nothing to merge
  have hidle : k.key = [] → k'.merged = [] := by
    intro hk
    obtain ⟨hb, hp⟩ := h.idle hk
    have hle := hmerged.less
    rw [hb, hp, leftAll_nil, length_nil] at hle
    exact eq_nil_of_length_eq_zero (by omega)
  refine ⟨hlive, herr.trans h.noerr, ?_, ?_, ?_, ?_, ?_, ?_, ?_, ?_, ?_, ?_⟩
  · rw [hkey, htyp]; exact h.typ
  · rw [hkey]
    exact fun hk => hmerged.spent (hidle hk)
  · refine pairwise_append.mpr ⟨h.order, ?_, fun a ha b hb => ?_⟩
    · refine pairwise_of_forall_mem_list fun a ha b hb => ?_
      rw [(hmerged.good a ha).1, (hmerged.good b hb).1]
    · rw [(hmerged.good b hb).1]
      exact h.bound a ha
  · rw [hkey]
    intro b hb
    rcases mem_append.mp hb with hb | hb
    · exact h.bound b hb
    · exact (hmerged.good b hb).1.le
  · intro b hb
    rcases mem_append.mp hb with hb | hb
    · exact h.good b hb
    · have hne : k.key ≠ [] := fun hk => by rw [hidle hk] at hb; cases hb
      obtain ⟨hbk, hwf⟩ := hmerged.good b hb
      rw [hbk, ← h.typ hne]
      exact ⟨hne, hwf⟩
  · rw [hkey]
    intro key hlt
    rw [keyVals_append, hnone key hlt, append_nil]
    exact h.past key hlt
  · rw [hkey, htyp]
    refine ⟨F', ?_⟩
    rw [keyVals_append, keyVals_of_all fun b hb => (hmerged.good b hb).1]
    exact hph'
  · rw [hsrc]; exact h.sorted
  · rw [hsrc, hkey]; exact h.ahead
  · rw [hsrc, hkey]; exact h.future

/-- When the current key is drained, all keys up to it are finished. -/
theorem Progress.finished (hd : Drained k) :
    ∀ key ≤ k.key, key ≠ [] → Ascending (keyVals c (τ key) key A) ∧
      ∀ t, latest (keyVals c (τ key) key A) t = wanted c (τ key) readers key t := by
  intro key hle hne
  rcases hle.lt_or_eq with hlt | rfl
  · exact h.past key hlt hne
  · obtain ⟨F, hph⟩ := h.current
    rw [hd.blocks, hd.mergedValues, h.typ hne] at hph
    exact hph.complete

/-- Keys without pending blocks are wanted empty, and nothing was emitted for them. -/
theorem Progress.absent (hlt : k.key < key)
    (hnone : ∀ s ∈ k.sources, ∀ b ∈ s.pending, b.key ≠ key) :
    Ascending (keyVals c (τ key) key A) ∧ ∀ t, latest (keyVals c (τ key) key A) t =
      wanted c (τ key) readers key t := by
  rw [keyVals_of_none fun b hb => ((h.bound b hb).trans_lt hlt).ne]
  refine ⟨ascending_nil, fun t => ?_⟩
  have hnil : (k.sources.flatMap fun s => content c (τ key) (s.pending.filter (·.key = key))) = [] := by
    rw [flatMap_eq_nil_iff]
    intro s hs
    rw [filter_eq_nil_iff.mpr fun b hb => by simpa using hnone s hs b hb]
    rfl
  rw [← h.future key hlt, hnil]

theorem Progress.gathered (hd : Drained k) (hne : (gather k).blocks ≠ []) : Progress c τ readers A (gather k) := by
  obtain ⟨-, htyp, -, ⟨s₀, hs₀, b₀, hb₀, hkey₀⟩, hmin⟩ :=
    (h.live.gather_cases hd.blocks).resolve_left fun hc => hne hc.1
  have hfill := fun s hs =>
    fill_spec (fun b hb => (h.live.stored s hs b hb).key_ne) (h.live.run s hs)
  have hsrc : ∀ s ∈ k.sources, _ := fun s hs =>
    taken_sorted (hfill s hs).2.1 ((hfill s hs).1.symm ▸ h.sorted s hs) (hmin s hs)
      (fun hb => (hfill s hs).1.trans ((hfill s hs).2.2 hb))
  have hlt : k.key < (gather k).key := hkey₀ ▸ h.ahead s₀ hs₀ b₀ hb₀
  have hkne : (gather k).key ≠ [] := hkey₀ ▸ (h.live.stored s₀ hs₀ b₀ hb₀).key_ne
  have hlive := h.live.gathered hd.blocks hd.mergedValues
  have hstored := h.live.gather_stored hd.blocks
  have hnone : keyVals c (gather k).typ (gather k).key A = [] :=
    keyVals_of_none fun b hb => ((h.bound b hb).trans_lt hlt).ne
  refine ⟨hlive, h.noerr, fun _ => htyp, fun hk => absurd hk hkne, h.order,
    fun b hb => (h.bound b hb).trans hlt.le, h.good, ?_, ?_, ?_, ?_, ?_⟩
  · -- keys before the new one
    intro key hk hne'
    by_cases hle : key ≤ k.key
    · exact h.finished hd key hle hne'
    · refine h.absent (not_le.mp hle) fun s hs b hb he => ?_
      exact absurd ((hsrc s hs).2.2 b ((hfill s hs).1.symm ▸ hb)) (not_le.mpr (he ▸ hk))
  · -- the new key starts with fresh blocks
    have hwf : ∀ b ∈ (gather k).blocks, WfBlock c (gather k).typ b := fun b hb => by
      rw [htyp, ← (hstored b hb).2]
      exact (hstored b hb).1.wf
    have hph := phase_fresh hwf (fun b hb => (hstored b hb).1.readMin) (fun b hb => (hstored b hb).1.readMax)
    refine ⟨minInt64 - 1, ?_⟩
    rw [hnone, gather_mergedValues, hd.mergedValues]
    have hS : wanted c (gather k).typ readers (gather k).key = latest (content c (gather k).typ (gather k).blocks) := by
      funext t
      rw [htyp, ← h.future _ hlt, gather_blocks, hd.blocks, nil_append, content, flatMap_assoc]
      congr 1
      refine flatMap_congr fun s hs => ?_
      rw [(hsrc s hs).1, (hfill s hs).1, content]
    rw [hS]
    exact hph
  · rw [gather_sources]
    intro s' hs'
    obtain ⟨s, hs, rfl⟩ := mem_map.mp hs'
    have hsort := h.sorted s hs
    rw [← (hfill s hs).1, pending_split (gather k).key] at hsort
    exact (pairwise_append.mp hsort).2.1
  · rw [gather_sources]
    intro s' hs'
    obtain ⟨s, hs, rfl⟩ := mem_map.mp hs'
    exact (hsrc s hs).2.1
  · intro key hk t
    rw [← h.future key (hlt.trans hk) t, gather_sources, flatMap_map]
    congr 1
    refine flatMap_congr fun s hs => ?_
    have hnil : (s.fill.taken (gather k).key).filter (·.key = key) = [] := filter_eq_nil_iff.mpr fun b hb => by
        rw [taken_key (hfill s hs).2.1 b hb]
        simpa using hk.ne
    rw [← (hfill s hs).1, pending_split (gather k).key s.fill, filter_append, hnil, nil_append]

end

theorem progress_rule : Rule c τ (Progress c τ readers) where
  live h := h.live
  onPop h := ⟨h.live.pop, h.noerr, h.typ, h.idle, h.order, h.bound, h.good, h.past, h.current, h.sorted,
    h.ahead, h.future⟩
  onMerge h hm hfuel he := h.merged hm hfuel he
  onGather h hm hb hp hne := h.gathered ⟨hm, hb, hp⟩ hne

/-! ### Draining -/

/-- What `Read` returns for a merged block. -/
def emit (b : Block β) : Emitted β :=
  { key := b.key, minTime := b.minTime, maxTime := b.maxTime, b := some b.b, err := none }

theorem drain_spec : ∀ (n : ℕ) (k : TsmBatchKeyIterator β α) (ds : List (Block β)),
    weight c τ { k with merged := k.merged.tail } < n → Progress c τ readers (ds ++ k.merged.tail) k →
    ∃ fuel D k', drain c.toCodec fuel k (ds.map emit) = .returned (D.map emit) ∧
      Progress c τ readers D k' ∧ Drained k' ∧ (gather k').blocks = []
  | 0, _, _, hn, _ => absurd hn (Nat.not_lt_zero _)
  | n + 1, k, ds, hn, h => by
    rcases next_rule progress_rule (weight c τ k + 2) h (by omega) with
      ⟨k', new, he, hm, hne, hI, hw⟩ | ⟨k', he, htail, hd, hI, hb⟩
    · obtain ⟨b, bs, hbs⟩ := exists_cons_of_ne_nil hne
      have hlt : weight c τ { k' with merged := k'.merged.tail } < n := by
        simp only [weight, hbs, tail_cons, length_cons] at hw hn ⊢
        omega
      have hI' : Progress c τ readers ((ds ++ [b]) ++ k'.merged.tail) k' := by
        rw [append_assoc, ← hm, hbs] at hI
        rwa [hbs, append_assoc]
      obtain ⟨fuel, D, k'', hdrain, hres⟩ := drain_spec n k' (ds ++ [b]) hlt hI'
      refine ⟨max fuel (weight c τ k + 2) + 1, D, k'', ?_, hres⟩
      rw [drain, next_within (le_max_right _ _) _ he, Outcome.returned_bind]
      have hread : k'.read = emit b := by
        rw [TsmBatchKeyIterator.read, hbs, hI.noerr]
        rfl
      dsimp only
      rw [hread, ← drain_within (le_max_left _ _) _ hdrain, map_append]
      rfl
    · refine ⟨weight c τ k + 3, ds, k', ?_, ?_, hd, hb⟩
      · rw [drain, he]
        rfl
      · rwa [htail, append_nil] at hI

end

variable {r : TSMReader β}

theorem blocks_sorted (h : r.keys.Pairwise (fun a b => a.key < b.key)) :
    r.blocks.Pairwise (fun a b => a.key ≤ b.key) := by
  refine pairwise_flatMap.mpr ⟨fun ke _ => ?_, h.imp fun {a b} hab x hx y hy => ?_⟩
  · exact pairwise_map.mpr (pairwise_of_forall fun _ _ => le_rfl)
  · obtain ⟨_, _, rfl⟩ := mem_map.mp hx
    obtain ⟨_, _, rfl⟩ := mem_map.mp hy
    exact hab.le

theorem blocks_key_ne : ∀ b ∈ r.blocks, b.key ≠ [] := by
  intro b hb
  obtain ⟨ke, _, hb⟩ := mem_flatMap.mp hb
  obtain ⟨_, _, rfl⟩ := mem_map.mp hb
  exact ke.key_ne

theorem progress_new {size : ℕ} (hsize : 0 < size) (fast : Bool)
    (h : ∀ r ∈ readers, Decodable c.toCodec τ r)
    (hsort : ∀ r ∈ readers, r.keys.Pairwise (fun a b => a.key < b.key)) :
    Progress c τ readers [] (newTSMBatchKeyIterator size fast readers) := by
  have hnone : wanted c 0 readers [] = latest (content c 0 []) := by
    funext t
    rw [wanted, flatMap_eq_nil_iff.mpr fun r hr => ?_]
    · rfl
    · rw [filter_eq_nil_iff.mpr fun b hb => by simpa using blocks_key_ne b hb]
      rfl
  have hsrc : ∀ s ∈ (newTSMBatchKeyIterator (α := α) size fast readers).sources,
      ∃ r ∈ readers, s.pending = r.blocks := by
    intro s hs
    obtain ⟨r, hr, rfl⟩ := mem_map.mp hs
    exact ⟨r, hr, pending_new r⟩
  refine ⟨live_new hsize fast h, rfl, by simp [newTSMBatchKeyIterator], fun _ => ⟨rfl, rfl⟩,
    List.Pairwise.nil, by simp, by simp, nofun, ?_, ?_, ?_, ?_⟩
  · refine ⟨minInt64 - 1, ?_⟩
    show Phase c 0 (wanted c 0 readers []) (minInt64 - 1) [] [] []
    rw [hnone]
    exact phase_fresh (by simp) (by simp) (by simp)
  · intro s hs
    obtain ⟨r, hr, hp⟩ := hsrc s hs
    exact hp ▸ blocks_sorted (hsort r hr)
  · intro s hs b hb
    obtain ⟨r, hr, hp⟩ := hsrc s hs
    obtain ⟨x, xs, hx⟩ := exists_cons_of_ne_nil (blocks_key_ne b (hp ▸ hb))
    rw [hx]
    exact nil_lt_cons _ _
  · intro key _ t
    rw [wanted, newTSMBatchKeyIterator, flatMap_map]
    simp only [pending_new]

theorem points_eq (h : Decodable c.toCodec τ r) (key : Key) :
    r.points c.toCodec key = content c (τ key) (r.blocks.filter (·.key = key)) := by
  have hkeys : ∀ ks : List (KeyEntry β), (∀ ke ∈ ks, ke.typ = τ ke.key) →
      survivors (r.tombstoneRange key) ((ks.filter (·.key = key)).flatMap fun ke =>
        ke.entries.flatMap fun e => decoded c.toCodec ke.typ e.b) =
      content c (τ key) ((ks.flatMap r.keyBlocks).filter (·.key = key)) := by
    intro ks htyp
    induction ks with
    | nil => rfl
    | cons ke ks ih =>
      have ih := ih (forall_mem_cons.mp htyp).2
      rw [flatMap_cons, filter_append, content_append, ← ih]
      by_cases hk : ke.key = key
      · subst hk
        have hall : (r.keyBlocks ke).filter (·.key = ke.key) = r.keyBlocks ke := filter_eq_self.mpr fun b hb => by
            obtain ⟨e, _, rfl⟩ := mem_map.mp hb
            simp [block]
        rw [filter_cons_of_pos (by simp), flatMap_cons, survivors, filter_append, hall,
          keyBlocks, content, flatMap_map, filter_flatMap, htyp ke mem_cons_self]
        rfl
      · have hnone : (r.keyBlocks ke).filter (·.key = key) = [] := filter_eq_nil_iff.mpr fun b hb => by
            obtain ⟨e, _, rfl⟩ := mem_map.mp hb
            simp [block, hk]
        rw [filter_cons_of_neg (by simpa using hk), hnone]
        rfl
  exact hkeys r.keys h.typ

theorem emittedPoints_emit (typ : ℕ) (key : Key) (D : List (Block β)) :
    emittedPoints c.toCodec typ key (D.map emit) = keyVals c typ key D := by
  rw [emittedPoints, keyVals, filter_map, flatMap_map]
  rfl

/-- Blocks whose concatenated points increase have increasing time ranges. -/
theorem apart_of_ascending : ∀ (D : List (Block β)), (∀ b ∈ D, WfBlock c typ b) →
    Ascending (D.flatMap (vals c typ)) → D.Pairwise (fun a b => a.maxTime < b.minTime)
  | [], _, _ => List.Pairwise.nil
  | a :: D, hwf, hasc => by
    rw [flatMap_cons] at hasc
    obtain ⟨-, hD, hlt⟩ := ascending_append.mp hasc
    have ih := apart_of_ascending D (forall_mem_cons.mp hwf).2 hD
    refine pairwise_cons.mpr ⟨fun b hb => ?_, ih⟩
    obtain ⟨p, hp, hpm⟩ := (hwf a mem_cons_self).max_mem
    obtain ⟨q, hq, hqm⟩ := (hwf b (mem_cons_of_mem _ hb)).min_mem
    rw [← hpm, ← hqm]
    exact hlt p hp q (mem_flatMap.mpr ⟨b, hb, hq⟩)

theorem pairwise_of_filter {R : Block β → Block β → Prop} : ∀ (D : List (Block β)),
    (∀ b ∈ D, (D.filter (·.key = b.key)).Pairwise R) → D.Pairwise (fun a b => a.key = b.key → R a b)
  | [], _ => List.Pairwise.nil
  | a :: D, h => by
    have ha := h a mem_cons_self
    rw [filter_cons_of_pos (by simp)] at ha
    refine pairwise_cons.mpr ⟨fun b hb hk => ?_, pairwise_of_filter D fun b hb => ?_⟩
    · exact (pairwise_cons.mp ha).1 b (mem_filter.mpr ⟨hb, by simpa using hk.symm⟩)
    · exact (h b (mem_cons_of_mem _ hb)).sublist ((sublist_cons_self a D).filter _)

/-- Draining the iterator ends without error. The blocks come by increasing key and, for a key, by
    increasing disjoint time ranges that are the first and last timestamps of the block; the blocks of
    a key decode to the sorted map from timestamps to values of the last reader that holds them
    un-tombstoned. -/
theorem drain_preserves_data (c : LawfulCodec β α) {τ : Key → ℕ} {size : ℕ} (hsize : 0 < size)
    (fast : Bool) {readers : List (TSMReader β)} (hreaders : ∀ r ∈ readers, Decodable c.toCodec τ r)
    (hsorted : ∀ r ∈ readers, r.keys.Pairwise (fun a b => a.key < b.key)) :
    ∃ out N, (∀ fuel ≥ N, drain c.toCodec fuel (newTSMBatchKeyIterator size fast readers) [] = .returned out) ∧
      out.Pairwise (fun a b => a.key < b.key ∨ a.key = b.key ∧ a.maxTime < b.minTime) ∧
      (∀ e ∈ out, e.err = none ∧ ∃ b v, e.b = some b ∧ c.decode (τ e.key) b = .ok v ∧
        v.minTime? = some e.minTime ∧ v.maxTime? = some e.maxTime) ∧
      ∀ key, Ascending (emittedPoints c.toCodec (τ key) key out) ∧
        ∀ t, latest (emittedPoints c.toCodec (τ key) key out) t =
          latest (readers.flatMap (points c.toCodec key)) t := by
  obtain ⟨N, D, k, hdrain, hp, hd, hb⟩ := drain_spec _ (newTSMBatchKeyIterator size fast readers) []
    (Nat.lt_succ_self _) (progress_new hsize fast hreaders hsorted)
  have hempty : ∀ s ∈ k.sources, s.pending = [] := by
    rcases hp.live.gather_cases hd.blocks with ⟨-, -, he⟩ | ⟨hne, -⟩
    · exact he
    · exact absurd hb hne
  have hwant : ∀ key, wanted c (τ key) readers key = latest (readers.flatMap (points c.toCodec key)) := by
    intro key
    rw [wanted, flatMap_congr fun r hr => points_eq (hreaders r hr) key]
  -- every key is finished, or no reader has it
  have hdone : ∀ key, Ascending (keyVals c (τ key) key D) ∧
      ∀ t, latest (keyVals c (τ key) key D) t = wanted c (τ key) readers key t := by
    intro key
    by_cases hne : key = []
    · subst hne
      rw [keyVals_of_none fun b hb => (hp.good b hb).1, wanted, flatMap_eq_nil_iff.mpr fun r _ => ?_]
      · exact ⟨ascending_nil, fun _ => rfl⟩
      · rw [filter_eq_nil_iff.mpr fun b hb => by simpa using blocks_key_ne b hb]
        rfl
    · rcases le_or_gt key k.key with hle | hlt
      · exact hp.finished hd key hle hne
      · exact hp.absent hlt fun s hs b hb => by rw [hempty s hs] at hb; cases hb
  have hapart : D.Pairwise (fun a b => a.key = b.key → a.maxTime < b.minTime) := by
    refine pairwise_of_filter D fun b hb => apart_of_ascending _ (fun x hx => ?_) (hdone b.key).1
    obtain ⟨hx, hk⟩ := mem_filter.mp hx
    exact (of_decide_eq_true hk : x.key = b.key) ▸ (hp.good x hx).2
  refine ⟨D.map emit, N, fun fuel hf => drain_within hf _ hdrain, ?_, ?_, ?_⟩
  · refine pairwise_map.mpr ((hp.order.and hapart).imp fun {a b} h => ?_)
    rcases h.1.lt_or_eq with hlt | heq
    · exact .inl hlt
    · exact .inr ⟨heq, h.2 heq⟩
  · intro e he
    obtain ⟨b, hb, rfl⟩ := mem_map.mp he
    have hwf := (hp.good b hb).2
    exact ⟨rfl, b.b, _, rfl, hwf.decode, hwf.min, hwf.max⟩
  · intro key
    rw [emittedPoints_emit, ← hwant]
    exact hdone key

theorem drain_preserves_data_overlapping :
    ∃ out N, (∀ fuel ≥ N, drain plain.toCodec fuel (newTSMBatchKeyIterator 2 true overlapping) [] =
        .returned out) ∧ latest (emittedPoints plain.toCodec blockInteger [1] out) 3 = some 31 ∧
      latest (emittedPoints plain.toCodec blockInteger [1] out) 2 = some 20 := by
  obtain ⟨out, N, hdrain, -, -, hpts⟩ := drain_preserves_data plain (by decide : 0 < 2) true
    overlapping_decodable (by simp [overlapping, oneKey])
  exact ⟨out, N, hdrain, (hpts [1]).2 3, (hpts [1]).2 2⟩

end InfluxDB.Tsm.Compact
