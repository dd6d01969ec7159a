import InfluxDB.Tsm.Sources

/-! Runs of the key iterator: `Next` ends, and draining it rewrites the readers' data.

    `Live` is what every state of a run over decodable blocks satisfies. `weight` counts the points
    that blocks, pending values and emitted blocks still stand for; a pass of the `RETRY` loop that
    yields nothing lowers it, and so does taking an emitted block off the front. `next_rule` turns an
    invariant of the three things `Next` does (drop the block read last, `merge`, `gather`) into one of
    whole calls; the compaction theorem is the rule applied to `Progress`, which says how far the keys
    have been rewritten. -/

namespace InfluxDB.Tsm.Compact
open Lib List Outcome Source

variable {β α : Type}

/-! ### More fuel does not change a result -/

section Fuel
variable {σ ρ : Type} {x x' y y' : Outcome σ}

/-- What the one call returns, the other returns too. -/
def Within (x y : Outcome σ) : Prop := ∀ r, x = .returned r → y = .returned r

theorem Within.refl (x : Outcome σ) : Within x x := fun _ h => h

theorem Within.bind {f g : σ → Outcome ρ} (h : Within x y) (hf : ∀ s, Within (f s) (g s)) :
    Within (x.bind f) (y.bind g) := by
  intro r hr
  obtain ⟨s, hs, hr⟩ := bind_eq_returned.mp hr
  exact bind_eq_returned.mpr ⟨s, h s hs, hf s r hr⟩

theorem Within.ite {p : Prop} [Decidable p] (h : Within x y) (h' : Within x' y') :
    Within (if p then x else x') (if p then y else y') := by
  split_ifs
  · exact h
  · exact h'

variable {c : Codec β α}

theorem combineDedup_within : ∀ {n m : ℕ} {k : TsmBatchKeyIterator β α}, n ≤ m →
    Within (combineDedup c n k) (combineDedup c m k)
  | 0, _, _, _ => nofun
  | n + 1, 0, _, hm => absurd hm (Nat.not_succ_le_zero n)
  | n + 1, m + 1, k, hm => by
    rw [combineDedup, combineDedup]
    refine .ite ?_ (.refl _)
    cases k.blocks.dropWhile (·.read) with
    | nil => exact .refl _
    | cons first rest =>
      refine .bind (.refl _) ?_
      rintro ⟨_ | e, bs, vs⟩
      · exact combineDedup_within (Nat.le_of_succ_le_succ hm)
      · exact .refl _

variable {n m : ℕ} (hm : n ≤ m)
include hm

variable (k : TsmBatchKeyIterator β α)

theorem merge_within : Within (merge c n k) (merge c m k) := by
  rw [merge, merge, mergeTyped, mergeTyped]
  exact .ite (.ite (.refl _) (.ite (combineDedup_within hm) (.refl _))) (.refl _)

theorem drainPending_within : Within (drainPending c n k) (drainPending c m k) := by
  rw [drainPending, drainPending]
  refine .ite (.refl _) (.bind (.ite (merge_within hm _) (.refl _)) fun k' => .ite (.refl _) ?_)
  exact .bind (.ite (merge_within hm _) (.refl _)) fun k'' => .refl _

theorem nextPass_within : Within (nextPass c n k) (nextPass c m k) := by
  refine .bind (drainPending_within hm k) ?_
  rintro (k' | k')
  · exact .refl _
  · exact .ite (.refl _) (.bind (merge_within hm _) fun _ => .refl _)

omit hm

theorem next_within : ∀ {n m : ℕ} {k : TsmBatchKeyIterator β α}, n ≤ m → Within (next c n k) (next c m k)
  | 0, _, _, _ => nofun
  | n + 1, 0, _, hm => absurd hm (Nat.not_succ_le_zero n)
  | n + 1, m + 1, k, hm => by
    have hm := Nat.le_of_succ_le_succ hm
    refine .bind (nextPass_within hm k) ?_
    rintro (r | k')
    · exact .refl _
    · exact next_within hm

theorem drain_within : ∀ {n m : ℕ} {k : TsmBatchKeyIterator β α} {out : List (Emitted β)}, n ≤ m →
    Within (drain c n k out) (drain c m k out)
  | 0, _, _, _, _ => nofun
  | n + 1, 0, _, _, hm => absurd hm (Nat.not_succ_le_zero n)
  | n + 1, m + 1, k, out, hm => by
    have hm := Nat.le_of_succ_le_succ hm
    refine .bind (next_within hm) ?_
    rintro ⟨_ | _, k'⟩
    · exact .refl _
    · exact drain_within hm

end Fuel

/-! ### States of a run over decodable blocks -/

/-- A block as a reader hands it over; `τ` is the type of each key. -/
structure Stored (c : LawfulCodec β α) (τ : Key → ℕ) (b : Block β) : Prop where
  wf : WfBlock c (τ b.key) b
  typ : b.typ = τ b.key
  known : isBlockType b.typ = true
  readMin : b.readMin = maxInt64
  readMax : b.readMax = minInt64
  key_ne : b.key ≠ []

structure Live (c : LawfulCodec β α) (τ : Key → ℕ) (k : TsmBatchKeyIterator β α) : Prop where
  size : 0 < k.size
  known : isBlockType k.typ = true
  keyed : ∀ b ∈ k.blocks, b.key = k.key
  phase : ∃ S F E, Phase c k.typ S F E k.mergedValues k.blocks
  stored : ∀ s ∈ k.sources, ∀ b ∈ s.pending, Stored c τ b
  run : ∀ s ∈ k.sources, s.Run

/-- Number of points the sources still hold. -/
def sourcesLeft (c : LawfulCodec β α) (τ : Key → ℕ) (ss : List (Source β)) : ℕ :=
  ((ss.flatMap pending).map fun b => left c (τ b.key) b).sum

/-- What is left to do, counted in points, pending values and merged blocks. -/
def weight (c : LawfulCodec β α) (τ : Key → ℕ) (k : TsmBatchKeyIterator β α) : ℕ :=
  leftAll c k.typ k.blocks + k.mergedValues.length + k.merged.length + sourcesLeft c τ k.sources

variable {c : LawfulCodec β α} {τ : Key → ℕ} {k : TsmBatchKeyIterator β α}

theorem Live.pop (h : Live c τ k) : Live c τ { k with merged := k.merged.tail } :=
  ⟨h.size, h.known, h.keyed, h.phase, h.stored, h.run⟩

theorem Live.merged (h : Live c τ k) (hm : k.merged = []) {fuel : ℕ}
    (hfuel : leftAll c k.typ k.blocks < fuel) :
    ∃ k', merge c.toCodec fuel k = .returned k' ∧ Merged c k k' ∧ Live c τ k' ∧
      weight c τ k' ≤ weight c τ k := by
  obtain ⟨S, F, E, hph⟩ := h.phase
  obtain ⟨k', he, hmerged, F', hph'⟩ := merge_iter_spec h.size h.known hm h.keyed hph hfuel
  have hf := hmerged.frame
  refine ⟨k', he, hmerged, ?_, ?_⟩
  · rw [hf]
    refine ⟨h.size, h.known, fun b hb => ?_, ⟨S, F', _, hph'⟩, h.stored, h.run⟩
    obtain ⟨b', hb', hkey⟩ := hmerged.keys b hb
    exact hkey.trans (h.keyed b' hb')
  · have hle := hmerged.less
    have htyp : k'.typ = k.typ := by rw [hf]
    have hsrc : k'.sources = k.sources := by rw [hf]
    rw [weight, weight, htyp, hsrc]
    omega

theorem phase_fresh {typ : ℕ} {bs : List (Block β)} (hwf : ∀ b ∈ bs, WfBlock c typ b)
    (hmin : ∀ b ∈ bs, b.readMin = maxInt64) (hmax : ∀ b ∈ bs, b.readMax = minInt64) :
    Phase c typ (latest (content c typ bs)) (minInt64 - 1) [] [] bs := by
  refine ⟨hwf, fun b hb => ?_, ascending_nil, by simp, fun t ht => ?_, fun t _ => rfl, by simp⟩
  · have := (hwf b hb).int64_min.1
    exact .inl ⟨hmin b hb, hmax b hb, by omega⟩
  · rw [append_nil, latest_nil, eq_comm, latest_eq_none_iff]
    intro p hp he
    obtain ⟨b, hb, hpb⟩ := mem_content hp
    have := ((hwf b hb).int64 p hpb).1
    omega

theorem sourcesLeft_gather (key : Key) : ∀ (ss : List (Source β)),
    (∀ s ∈ ss, ∀ b ∈ s.pending, Stored c τ b) → (∀ s ∈ ss, s.Run) →
    leftAll c (τ key) (ss.flatMap fun s => s.fill.taken key) +
      sourcesLeft c τ (ss.map fun s => s.fill.dropKey key) = sourcesLeft c τ ss
  | [], _, _ => rfl
  | s :: ss, hst, hrun => by
    have ih := sourcesLeft_gather key ss (forall_mem_cons.mp hst).2
      (forall_mem_cons.mp hrun).2
    obtain ⟨hpend, hfrun, -⟩ := fill_spec (fun b hb => (hst s mem_cons_self b hb).key_ne)
      (hrun s mem_cons_self)
    have hs : (s.pending.map fun b => left c (τ b.key) b).sum = leftAll c (τ key) (s.fill.taken key) +
        ((s.fill.dropKey key).pending.map fun b => left c (τ b.key) b).sum := by
      rw [← hpend, s.fill.pending_split key, map_append, sum_append, leftAll]
      congr 2
      exact map_congr_left fun b hb => by rw [taken_key hfrun b hb]
    simp only [sourcesLeft, map_cons, flatMap_cons, map_append, sum_append, leftAll_append] at ih ⊢
    omega

section

variable (h : Live c τ k) (hb : k.blocks = [])
include h hb

/-- `gather` finds nothing when the sources are exhausted; otherwise it moves to the smallest key. -/
theorem Live.gather_cases :
    ((gather k).blocks = [] ∧ (gather k).typ = 0 ∧ ∀ s ∈ k.sources, s.pending = []) ∨
      ((gather k).blocks ≠ [] ∧ (gather k).typ = τ (gather k).key ∧
        isBlockType (gather k).typ = true ∧ (∃ s ∈ k.sources, ∃ b ∈ s.pending, b.key = (gather k).key) ∧
        ∀ s ∈ k.sources, ∀ b ∈ s.fill.buf.head?, (gather k).key ≤ b.key) := by
  have hfill := fun s hs => fill_spec (fun b hb => (h.stored s hs b hb).key_ne) (h.run s hs)
  have hbuf : ∀ s ∈ k.sources, ∀ b ∈ s.fill.buf, b ∈ s.pending := fun s hs b hb => by
    rw [← (hfill s hs).1]
    exact mem_append_left _ hb
  have hkey : ∀ s ∈ k.sources.map fill, ∀ b ∈ s.buf, b.key ≠ [] := by
    intro s hs b hb
    obtain ⟨s', hs', rfl⟩ := mem_map.mp hs
    exact (h.stored s' hs' b (hbuf s' hs' b hb)).key_ne
  have hkt := gather_key_typ k
  rw [gather_blocks, hb, nil_append]
  rcases minKeyOf_spec hkey with ⟨hnil, hm⟩ | ⟨⟨s, hs, b, hbh, hm⟩, hle⟩
  · have hempty : ∀ s ∈ k.sources, s.fill.buf = [] := fun s hs => hnil _ (mem_map_of_mem hs)
    refine .inl ⟨?_, congrArg Prod.snd (hkt.trans hm), fun s hs => (hfill s hs).2.2 (hempty s hs)⟩
    rw [flatMap_eq_nil_iff]
    intro s hs
    simp [taken, hempty s hs]
  · obtain ⟨s', hs', rfl⟩ := mem_map.mp hs
    have hbm := hbuf s' hs' b (mem_of_mem_head? hbh)
    have hst := h.stored s' hs' b hbm
    obtain ⟨hk, ht⟩ := Prod.mk.inj (hkt.trans hm)
    rw [hk, ht]
    refine .inr ⟨?_, hst.typ, hst.known, ⟨s', hs', b, hbm, rfl⟩, fun s hs b' hb' => ?_⟩
    · refine ne_nil_of_mem (mem_flatMap.mpr ⟨s', hs', (?_ : b ∈ _)⟩)
      rw [taken, if_pos (holds_iff.mpr ⟨b, hbh, rfl⟩)]
      exact mem_of_mem_head? hbh
    · have := hle _ (mem_map_of_mem hs) b' hb'
      rwa [hm] at this

/-- The blocks that `gather` moves are stored blocks of the new key. -/
theorem Live.gather_stored : ∀ b ∈ (gather k).blocks, Stored c τ b ∧ b.key = (gather k).key := by
  rw [gather_blocks, hb, nil_append]
  intro b hb
  obtain ⟨s, hs, hbs⟩ := mem_flatMap.mp hb
  obtain ⟨hpend, hrun, -⟩ := fill_spec (fun b hb => (h.stored s hs b hb).key_ne) (h.run s hs)
  refine ⟨h.stored s hs b ?_, taken_key hrun b hbs⟩
  rw [← hpend, pending_split]
  exact mem_append_left _ hbs

theorem Live.gathered (hp : k.mergedValues = []) : Live c τ (gather k) := by
  have hblocks := h.gather_stored hb
  have hsrc : ∀ s ∈ (gather k).sources, (∀ b ∈ s.pending, Stored c τ b) ∧ s.Run := by
    rw [gather_sources]
    intro s' hs'
    obtain ⟨s, hs, rfl⟩ := mem_map.mp hs'
    obtain ⟨hpend, hrun, -⟩ := fill_spec (fun b hb => (h.stored s hs b hb).key_ne) (h.run s hs)
    refine ⟨fun b hb => h.stored s hs b ?_, hrun.dropKey _⟩
    rw [← hpend, pending_split]
    exact mem_append_right _ hb
  have htyp : isBlockType (gather k).typ = true ∧ ∀ b ∈ (gather k).blocks, WfBlock c (gather k).typ b := by
    rcases h.gather_cases hb with ⟨hnil, ht, -⟩ | ⟨-, ht, hknown, -⟩
    · exact ⟨by rw [ht]; rfl, by simp [hnil]⟩
    · refine ⟨hknown, fun b hb => ?_⟩
      rw [ht, ← (hblocks b hb).2]
      exact (hblocks b hb).1.wf
  have hph := phase_fresh htyp.2 (fun b hb => (hblocks b hb).1.readMin) (fun b hb => (hblocks b hb).1.readMax)
  exact ⟨h.size, htyp.1, fun b hb => (hblocks b hb).2,
    ⟨_, _, [], by rw [gather_mergedValues, hp]; exact hph⟩, fun s hs => (hsrc s hs).1, fun s hs => (hsrc s hs).2⟩

theorem Live.weight_gather (hne : (gather k).blocks ≠ []) :
    weight c τ (gather k) = weight c τ k ∧ 0 < leftAll c (gather k).typ (gather k).blocks := by
  rcases h.gather_cases hb with ⟨hnil, -⟩ | ⟨-, ht, -, -⟩
  · exact absurd hnil hne
  · have hsum := sourcesLeft_gather (gather k).key k.sources h.stored h.run
    constructor
    · rw [weight, weight, gather_sources, gather_blocks, ht, hb, nil_append, gather_mergedValues,
        gather_merged, ← hsum]
      simp only [leftAll, map_nil, sum_nil]
      omega
    · obtain ⟨b, bs, hbs⟩ := exists_cons_of_ne_nil hne
      obtain ⟨hst, hkey⟩ := h.gather_stored hb b (by rw [hbs]; exact mem_cons_self)
      have hpos : 0 < left c (gather k).typ b := by
        have hwf := hst.wf
        rw [hkey, ← ht] at hwf
        have hint := hwf.int64_min.1
        have hmem : ∃ p, p ∈ vals c (gather k).typ b := hwf.max_mem.imp fun _ hp => hp.1
        rw [hwf.left_eq (F := minInt64 - 1) (.inl ⟨hst.readMin, hst.readMax, by omega⟩), filter_eq_self.mpr]
        · exact length_pos_of_mem hmem.choose_spec
        · intro p hp
          have := hwf.min_le p hp
          exact decide_eq_true (by omega)
      rw [hbs, leftAll, map_cons, sum_cons]
      omega

end

/-! ### Invariants of Next -/

/-- An invariant of a run: `A` is the list of all blocks merged so far, in order. -/
structure Rule (c : LawfulCodec β α) (τ : Key → ℕ)
    (I : List (Block β) → TsmBatchKeyIterator β α → Prop) : Prop where
  live : ∀ {A k}, I A k → Live c τ k
  onPop : ∀ {A k}, I A k → I A { k with merged := k.merged.tail }
  onMerge : ∀ {A k k' fuel}, I A k → k.merged = [] → leftAll c k.typ k.blocks < fuel →
    merge c.toCodec fuel k = .returned k' → I (A ++ k'.merged) k'
  onGather : ∀ {A k}, I A k → k.merged = [] → k.blocks = [] → k.mergedValues = [] →
    (gather k).blocks ≠ [] → I A (gather k)

/-- Nothing is left of the current key. -/
structure Drained (k : TsmBatchKeyIterator β α) : Prop where
  merged : k.merged = []
  blocks : k.blocks = []
  mergedValues : k.mergedValues = []

theorem leftAll_le_weight (k : TsmBatchKeyIterator β α) : leftAll c k.typ k.blocks ≤ weight c τ k := by
  rw [weight]
  omega

variable {k : TsmBatchKeyIterator β α}

theorem hasMerged_of_ne (h : k.merged ≠ []) : hasMerged k = true := by
  simp [hasMerged, h]

theorem hasMerged_of_spent (h : k.merged = []) (h' : k.mergedValues = []) :
    hasMerged k = false := by simp [hasMerged, h, h']

section
variable {I : List (Block β) → TsmBatchKeyIterator β α → Prop} {A : List (Block β)}

/-- A call of `merge` under the invariant yields blocks or drains the key. -/
theorem merge_rule (R : Rule c τ I) (h : I A k) (hm : k.merged = []) (fuel : ℕ)
    (hfuel : weight c τ k < fuel) :
    ∃ k', merge c.toCodec fuel k = .returned k' ∧ I (A ++ k'.merged) k' ∧ weight c τ k' ≤ weight c τ k ∧
      k'.sources = k.sources ∧
        (k'.merged ≠ [] ∧ hasMerged k' = true ∨ Drained k' ∧ hasMerged k' = false) := by
  have hlt := (leftAll_le_weight k).trans_lt hfuel
  obtain ⟨k', he, hmerged, -, hw⟩ := (R.live h).merged hm hlt
  refine ⟨k', he, R.onMerge h hm hlt he, hw, by rw [hmerged.frame], ?_⟩
  by_cases hn : k'.merged = []
  · obtain ⟨hb, hp⟩ := hmerged.spent hn
    exact .inr ⟨⟨hn, hb, hp⟩, hasMerged_of_spent hn hp⟩
  · exact .inl ⟨hn, hasMerged_of_ne hn⟩

theorem drainPending_rule (R : Rule c τ I) (h : I A k) (fuel : ℕ) (hfuel : weight c τ k < fuel) :
    (∃ k' new, drainPending c.toCodec fuel k = .returned (.inl k') ∧ k'.merged = k.merged.tail ++ new ∧
        k'.merged ≠ [] ∧ I (A ++ new) k' ∧ weight c τ k' ≤ weight c τ { k with merged := k.merged.tail }) ∨
      ∃ k', drainPending c.toCodec fuel k = .returned (.inr k') ∧ k.merged.tail = [] ∧ Drained k' ∧ I A k' ∧
        weight c τ k' ≤ weight c τ { k with merged := k.merged.tail } := by
  have hpop := R.onPop h
  have hwpop : weight c τ { k with merged := k.merged.tail } ≤ weight c τ k := by
    simp only [weight, length_tail]
    omega
  rw [drainPending]
  by_cases htail : k.merged.tail ≠ []
  · rw [if_pos htail]
    exact .inl ⟨_, [], rfl, by simp, htail, by rwa [append_nil], le_rfl⟩
  · rw [if_neg htail]
    rw [not_not] at htail
    rw [htail] at hpop hwpop ⊢
    obtain ⟨k', he, hI, hw, -, hk'⟩ := merge_rule R hpop rfl fuel (hwpop.trans_lt hfuel)
    by_cases hpend : k.mergedValues ≠ []
    · rw [if_pos hpend, he, returned_bind]
      rcases hk' with hk' | ⟨hd, hh⟩
      · exact .inl ⟨k', k'.merged, by rw [if_pos ⟨hpend, hk'.2⟩], rfl, hk'.1, hI, hw⟩
      · exact .inr ⟨k', by simp [hh, hd.blocks], rfl, hd, by simpa [hd.merged] using hI, hw⟩
    · rw [if_neg hpend, returned_bind, if_neg (fun hc => hpend hc.1)]
      rw [not_not] at hpend
      by_cases hb : k.blocks ≠ []
      · rw [if_pos hb, he, returned_bind]
        rcases hk' with hk' | ⟨hd, hh⟩
        · exact .inl ⟨k', k'.merged, by rw [if_pos ⟨hb, hk'.2⟩], rfl, hk'.1, hI, hw⟩
        · exact .inr ⟨k', by simp [hh], rfl, hd, by simpa [hd.merged] using hI, hw⟩
      · rw [if_neg hb, returned_bind, if_neg (fun hc => hb hc.1)]
        exact .inr ⟨_, rfl, rfl, ⟨rfl, not_not.mp hb, hpend⟩, hpop, le_rfl⟩

/-- `Next` returns: with a merged block in front, or with every source exhausted. -/
theorem next_rule (R : Rule c τ I) : ∀ (fuel : ℕ) {k : TsmBatchKeyIterator β α}, I A k →
    weight c τ k + 1 < fuel →
    (∃ k' new, next c.toCodec fuel k = .returned (true, k') ∧ k'.merged = k.merged.tail ++ new ∧
        k'.merged ≠ [] ∧ I (A ++ new) k' ∧ weight c τ k' ≤ weight c τ { k with merged := k.merged.tail }) ∨
      ∃ k', next c.toCodec fuel k = .returned (false, gather k') ∧ k.merged.tail = [] ∧ Drained k' ∧ I A k' ∧
        (gather k').blocks = []
  | 0, k, _, hfuel => absurd hfuel (Nat.not_lt_zero _)
  | fuel + 1, k, h, hfuel => by
    rw [next, nextPass]
    rcases drainPending_rule R h fuel (by omega) with
      ⟨k', new, he, hm, hne, hI, hw⟩ | ⟨k₁, he, htail, hd, hI, hw⟩
    · exact .inl ⟨k', new, by rw [he]; rfl, hm, hne, hI, hw⟩
    · rw [he]
      simp only [returned_bind]
      have hL := R.live hI
      by_cases hb : (gather k₁).blocks = []
      · rw [if_pos hb]
        exact .inr ⟨k₁, rfl, htail, hd, hI, hb⟩
      · rw [if_neg hb]
        obtain ⟨hwg, hpos⟩ := hL.weight_gather hd.blocks hb
        have hIg := R.onGather hI hd.merged hd.blocks hd.mergedValues hb
        have hwk : weight c τ { k with merged := k.merged.tail } ≤ weight c τ k := by
          simp only [weight, length_tail]
          omega
        obtain ⟨k₂, he₂, hI₂, hw₂, hsrc, ⟨hm₂, -⟩ | ⟨hd₂, -⟩⟩ := merge_rule R hIg hd.merged
          fuel (by omega)
        · rw [he₂, returned_bind, if_neg hm₂]
          exact .inl ⟨k₂, k₂.merged, rfl, by rw [htail]; rfl, hm₂, hI₂, by omega⟩
        · -- nothing merged: the pass has used up at least one point, try again
          rw [he₂, returned_bind, if_pos hd₂.merged]
          have hlt : weight c τ k₂ < weight c τ (gather k₁) := by
            simp only [weight, hd₂.merged, hd₂.blocks, hd₂.mergedValues, hsrc, leftAll, map_nil,
              sum_nil, length_nil] at hpos ⊢
            omega
          rw [hd₂.merged, append_nil] at hI₂
          have hpop₂ : weight c τ { k₂ with merged := k₂.merged.tail } = weight c τ k₂ := by
            simp only [weight, hd₂.merged, tail_nil]
          have hm₂ : k₂.merged.tail = k.merged.tail := by rw [hd₂.merged, htail]; rfl
          rcases next_rule R fuel hI₂ (by omega) with
            ⟨k', new, he', hm', hne', hI', hw'⟩ | ⟨k', he', -, hd', hI', hb'⟩
          · exact .inl ⟨k', new, he', hm₂ ▸ hm', hne', hI', by omega⟩
          · exact .inr ⟨k', he', htail, hd', hI', hb'⟩

end

/-! ### Termination of Next -/

/-- Every block is of the known type of its key and decodes to the sorted points its index entry
    announces. -/
structure Decodable (c : Codec β α) (τ : Key → ℕ) (r : TSMReader β) : Prop where
  typ : ∀ ke ∈ r.keys, ke.typ = τ ke.key
  known : ∀ ke ∈ r.keys, isBlockType ke.typ = true
  entries : ∀ ke ∈ r.keys, ∀ e ∈ ke.entries, ∃ v, c.decode ke.typ e.b = .ok v ∧ Ascending v ∧
    v.minTime? = some e.minTime ∧ v.maxTime? = some e.maxTime

/-- The states that calls of `Next` lead to. -/
inductive Reachable (c : Codec β α) (k₀ : TsmBatchKeyIterator β α) : TsmBatchKeyIterator β α → Prop
  | start : Reachable c k₀ k₀
  | next {k k' : TsmBatchKeyIterator β α} {fuel : ℕ} {more : Bool} :
      Reachable c k₀ k → next c fuel k = .returned (more, k') → Reachable c k₀ k'

theorem Decodable.stored {r : TSMReader β} (h : Decodable c.toCodec τ r) : ∀ b ∈ r.blocks, Stored c τ b := by
  intro b hb
  obtain ⟨ke, hke, hb⟩ := mem_flatMap.mp hb
  obtain ⟨e, he, rfl⟩ := mem_map.mp hb
  obtain ⟨v, hd, hasc, hmin, hmax⟩ := h.entries ke hke e he
  rw [h.typ ke hke] at hd
  have hv : vals c (τ ke.key) (r.block ke.key ke.typ e) = v := by simp [vals, TSMReader.block, hd]
  exact ⟨⟨hv.symm ▸ hd, hv.symm ▸ hasc, hv.symm ▸ hmin, hv.symm ▸ hmax⟩, h.typ ke hke,
    h.known ke hke, rfl,
    rfl, ke.key_ne⟩

theorem pending_new (r : TSMReader β) : (⟨r.blockIterator, []⟩ : Source β).pending = r.blocks := by
  simp [pending, BlockIterator.ahead, TSMReader.blockIterator, TSMReader.blocks]

theorem live_new {size : ℕ} (hsize : 0 < size) (fast : Bool) {readers : List (TSMReader β)}
    (h : ∀ r ∈ readers, Decodable c.toCodec τ r) :
    Live c τ (newTSMBatchKeyIterator size fast readers) := by
  have hph : Phase c 0 (latest (content c 0 [])) (minInt64 - 1) [] [] [] := phase_fresh (by simp) (by simp) (by simp)
  refine ⟨hsize, rfl, by simp [newTSMBatchKeyIterator], ⟨_, _, [], hph⟩, ?_, ?_⟩
  · intro s hs
    obtain ⟨r, hr, rfl⟩ := mem_map.mp hs
    rw [pending_new]
    exact (h r hr).stored
  · intro s hs
    obtain ⟨r, hr, rfl⟩ := mem_map.mp hs
    exact ⟨by simp, by simp⟩

theorem live_rule : Rule c τ (fun _ => Live c τ) where
  live h := h
  onPop h := h.pop
  onMerge h hm hfuel he := by
    obtain ⟨k', he', -, hlive, -⟩ := h.merged hm hfuel
    rw [he] at he'
    cases he'
    exact hlive
  onGather h _ hb hp _ := h.gathered hb hp

theorem Live.next (h : Live c τ k) (fuel : ℕ) (hfuel : weight c τ k + 1 < fuel) :
    ∃ more k', next c.toCodec fuel k = .returned (more, k') ∧ Live c τ k' ∧
      (more = true → hasMerged k' = true) := by
  rcases next_rule live_rule (A := []) fuel h hfuel with ⟨k', _, he, -, hne, hlive, -⟩ |
    ⟨k', he, -, hd, hlive, -⟩
  · exact ⟨true, k', he, hlive, fun _ => hasMerged_of_ne hne⟩
  · exact ⟨false, gather k', he, hlive.gathered hd.blocks hd.mergedValues, by simp⟩

theorem Reachable.live {k₀ : TsmBatchKeyIterator β α} (h₀ : Live c τ k₀) (h : Reachable c.toCodec k₀ k) :
    Live c τ k := by
  induction h with
  | start => exact h₀
  | @next k k' fuel more _ hnext ih =>
    obtain ⟨more', k'', he, hlive, -⟩ := ih.next (max fuel (weight c τ k + 2)) (by omega)
    rw [next_within (le_max_left _ _) _ hnext] at he
    cases he
    exact hlive

/-- Over readers whose blocks decode, `Next` returns from every state of a run, and when it returns
    true a block or values are there. -/
theorem next_terminates (c : LawfulCodec β α) {τ : Key → ℕ} {size : ℕ} (hsize : 0 < size) (fast : Bool)
    {readers : List (TSMReader β)} (hreaders : ∀ r ∈ readers, Decodable c.toCodec τ r)
    {k : TsmBatchKeyIterator β α}
    (hk : Reachable c.toCodec (newTSMBatchKeyIterator size fast readers) k) :
    ∃ N more k', (∀ fuel ≥ N, next c.toCodec fuel k = .returned (more, k')) ∧
      (more = true → hasMerged k' = true) := by
  have hlive := hk.live (live_new hsize fast hreaders)
  obtain ⟨more, k', he, -, hmore⟩ := hlive.next (weight c τ k + 2) (by omega)
  exact ⟨weight c τ k + 2, more, k', fun fuel hf => next_within hf _ he, hmore⟩

/-- A reader with one key and the given blocks. -/
def oneKey (entries : List (IndexedBlock (Values ℕ))) (h : entries ≠ []) : TSMReader (Values ℕ) :=
  { keys := [{ key := [1], typ := blockInteger, entries := entries, key_ne := cons_ne_nil _ _, entries_ne := h }]
    tombstoneRange := fun _ => [] }

/-- Two overlapping files, the newer one with a tombstone at 2. -/
def overlapping : List (TSMReader (Values ℕ)) :=
  [oneKey [⟨1, 3, [(1, 10), (2, 20), (3, 30)]⟩] (cons_ne_nil _ _),
    { oneKey [⟨2, 3, [(2, 21), (3, 31)]⟩] (cons_ne_nil _ _) with tombstoneRange := fun _ => [⟨2, 2⟩] }]

theorem overlapping_decodable : ∀ r ∈ overlapping, Decodable plain.toCodec (fun _ => blockInteger) r := by
  simp only [overlapping, mem_cons, not_mem_nil, or_false, forall_eq_or_imp, forall_eq]
  refine ⟨⟨by simp [oneKey], by simp [oneKey]; decide, ?_⟩,
    ⟨by simp [oneKey], by simp [oneKey]; decide, ?_⟩⟩
  all_goals
    simp only [oneKey, mem_singleton, forall_eq]
    exact ⟨_, rfl, by decide, rfl, rfl⟩

theorem next_terminates_overlapping :
    ∃ N more k', (∀ fuel ≥ N, next plain.toCodec fuel (newTSMBatchKeyIterator 2 false overlapping) =
      .returned (more, k')) ∧ (more = true → hasMerged k' = true) :=
  next_terminates plain (by decide) false overlapping_decodable .start

/-- A block whose timestamps can be counted but that does not decode. -/
def damaged : IndexedBlock (Values ℕ) := ⟨0, 0, [(maxInt64 + 1, 0)]⟩

/-- The iterator at `RETRY` after the decoding error, its source at `entries` of the key. -/
def stuck (key : Key) (typ : ℕ) (entries : List (IndexedBlock (Values ℕ))) : TsmBatchKeyIterator (Values ℕ) ℕ :=
  let r := oneKey [damaged, ⟨5, 5, [(5, 50)]⟩] (cons_ne_nil _ _)
  { size := 2, fast := false
    sources := [⟨{ r := r, key := [1], typ := blockInteger, entries := entries, rest := [] }, []⟩]
    key := key, typ := typ, blocks := r.blocks, mergedValues := [], merged := []
    err := some "timestamp out of range" }

theorem next_of_retry {c : Codec β α} (k k' : TsmBatchKeyIterator β α)
    (hpass : ∀ fuel, nextPass c fuel k = .returned (.inr k')) (h : ∀ fuel, next c fuel k' = .running) :
    ∀ fuel, next c fuel k = .running
  | 0 => rfl
  | fuel + 1 => by rw [next, hpass fuel]; exact h fuel

theorem next_stuck : ∀ fuel, next plain.toCodec fuel (stuck [] 0 []) = .running
  | 0 => rfl
  | fuel + 1 => by
    have h : nextPass plain.toCodec fuel (stuck [] 0 []) = .returned (.inr (stuck [] 0 [])) := rfl
    rw [next, h]
    exact next_stuck fuel

/-- A block that fails to decode keeps `Next` in the `RETRY` loop for ever. -/
theorem next_retries_forever : ¬ ∃ fuel r, next plain.toCodec fuel (newTSMBatchKeyIterator 2 false
    [oneKey [damaged, ⟨5, 5, [(5, 50)]⟩] (cons_ne_nil _ _)]) = .returned r := by
  rintro ⟨fuel, r, h⟩
  -- the first pass reads the blocks, the second one the end of the file, then nothing changes
  rw [next_of_retry _ (stuck [1] blockInteger [⟨5, 5, [(5, 50)]⟩]) (fun _ => rfl)
    (next_of_retry _ (stuck [] 0 []) (fun _ => rfl) next_stuck) fuel] at h
  cases h

end InfluxDB.Tsm.Compact
