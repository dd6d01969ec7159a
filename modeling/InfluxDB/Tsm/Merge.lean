import InfluxDB.Tsm.Combine

/-! `combine(false)`, `chunk` and `merge` of the key iterator.

    When `merge` does not deduplicate, the sorted blocks are apart and carry no tombstones, and taking
    any prefix of them as it is, or decoded, moves the frontier to its last timestamp. `merge_iter_spec`
    puts both ways of combining together: from any frontier, `merge` returns blocks that continue what
    was emitted before. -/

namespace InfluxDB.Tsm.Compact
open Lib List Option Block

variable {β α : Type} {c : LawfulCodec β α} {typ : ℕ}

/-! ### Blocks that need no deduplication -/

/-- What `merge` knows of the sorted blocks when it does not deduplicate. -/
structure Tidy (bs : List (Block β)) : Prop where
  clean : ∀ b ∈ bs, b.tombstones = [] ∧ b.partiallyRead = false
  apart : bs.Pairwise (fun x y => x.maxTime < y.minTime)

theorem Tidy.suffix {a bs : List (Block β)} (h : Tidy (a ++ bs)) : Tidy bs :=
  ⟨fun b hb => h.clean b (mem_append_right _ hb), (pairwise_append.mp h.apart).2.1⟩

theorem tidy_of_needsDedup : ∀ (bs : List (Block β)), (∀ b ∈ bs, b.minTime ≤ b.maxTime) →
    bs.IsChain (fun x y => x.minTime ≤ y.maxTime) → needsDedup bs = false → Tidy bs
  | [], _, _, _ => ⟨by simp, List.Pairwise.nil⟩
  | [b], _, _, h => by
    simp only [needsDedup, Bool.or_eq_false_iff, Bool.not_eq_false', List.isEmpty_iff] at h
    exact ⟨by simpa using h, pairwise_singleton _ _⟩
  | b :: b' :: bs, hmm, hch, h => by
    simp only [needsDedup, Bool.or_eq_false_iff, Bool.not_eq_false', List.isEmpty_iff,
      overlapsTimeRange, Bool.and_eq_false_iff, decide_eq_false_iff_not] at h
    obtain ⟨⟨⟨ht, hp⟩, ho⟩, hrest⟩ := h
    obtain ⟨hle, hch'⟩ := isChain_cons_cons.mp hch
    have ih := tidy_of_needsDedup (b' :: bs) (forall_mem_cons.mp hmm).2 hch' hrest
    have hbb' : b.maxTime < b'.minTime := by omega
    refine ⟨List.forall_mem_cons.mpr ⟨⟨ht, hp⟩, ih.clean⟩, List.pairwise_cons.mpr ⟨?_, ih.apart⟩⟩
    intro x hx
    rcases mem_cons.mp hx with rfl | hx
    · exact hbb'
    · have := (pairwise_cons.mp ih.apart).1 x hx
      have := hmm b' (mem_cons_of_mem _ mem_cons_self)
      omega

/-- The points of the unread blocks. -/
def unreadVals (c : LawfulCodec β α) (typ : ℕ) (bs : List (Block β)) : Values α :=
  (bs.filter (fun b => !b.read)).flatMap (vals c typ)

variable {b : Block β} (bs : List (Block β))

theorem unreadVals_cons_read (h : b.read = true) :
    unreadVals c typ (b :: bs) = unreadVals c typ bs := by simp [unreadVals, h]

theorem unreadVals_cons_unread (h : b.read = false) :
    unreadVals c typ (b :: bs) = vals c typ b ++ unreadVals c typ bs := by simp [unreadVals, h]

theorem surv_of_clean (h : b.tombstones = []) : surv c typ b = vals c typ b := by
  simp [surv, survivors, h]

namespace Phase
variable {S : ℤ → Option α} {F : ℤ} {E pend : Values α} {bs : List (Block β)}

/-- Taking the first, unread block as a whole. -/
theorem takeBlock (h : Phase c typ S F E pend (b :: bs)) (ht : Tidy (b :: bs))
    (hread : b.read = false) : Phase c typ S b.maxTime E (pend ++ vals c typ b) bs := by
  have hb := h.wf b mem_cons_self
  have hbr := h.readTo b mem_cons_self
  have hFm : F < b.maxTime := by
    by_contra hc
    rw [(hb.read_iff hbr).mpr (not_lt.mp hc)] at hread
    cases hread
  obtain ⟨htomb, hpart⟩ := ht.clean b mem_cons_self
  have hF : F < b.minTime := by
    rcases hb.untouched_or_read hbr hpart with hu | hr
    · exact hu.2.2
    · omega
  have hwf := (forall_mem_cons.mp h.wf).2
  have hapart := (pairwise_cons.mp ht.apart).1
  have hnew : ∀ p ∈ vals c typ b, F < p.1 := fun p hp => hF.trans_le (hb.min_le p hp)
  -- what is left starts after `b`
  have hrest : ∀ p ∈ content c typ bs, b.maxTime < p.1 := by
    intro p hp
    obtain ⟨x, hx, hpx⟩ := mem_content hp
    exact (hapart x hx).trans_le ((hwf x hx).min_le p hpx)
  have hafter : ∀ t, F < t → (latest (content c typ bs) t).or (latest (vals c typ b) t) = S t := by
    intro t ht'
    rw [← h.after t ht', content_cons, surv_of_clean htomb, latest_append]
  refine ⟨hwf, fun x hx => ?_, ?_, ?_, ?_, ?_, ?_⟩
  · have hxr := h.readTo x (mem_cons_of_mem _ hx)
    rcases (hwf x hx).untouched_or_read hxr (ht.clean x (mem_cons_of_mem _ hx)).2 with hu | hr
    · exact .inl ⟨hu.1, hu.2.1, hapart x hx⟩
    · exact hxr.mono_of_read (hwf x hx) hr hFm.le
  · rw [← append_assoc]
    exact ascending_append.mpr ⟨h.asc, hb.asc, fun p hp q hq => (h.le p hp).trans_lt (hnew q hq)⟩
  · rw [← append_assoc]
    intro p hp
    rcases mem_append.mp hp with hp | hp
    · exact (h.le p hp).trans hFm.le
    · exact hb.le_max p hp
  · intro t ht'
    rw [← append_assoc, latest_append]
    by_cases hFt : F < t
    · have hnone : latest (content c typ bs) t = none := (latest_eq_none_iff _ _).mpr fun p hp he =>
        absurd (hrest p hp) (not_lt.mpr (he ▸ ht'))
      rw [latest_eq_none_of_le h.le hFt, or_none, ← hafter t hFt, hnone, none_or]
    · have hnone : latest (vals c typ b) t = none := (latest_eq_none_iff _ _).mpr fun p hp he =>
        absurd (he ▸ hnew p hp) hFt
      rw [hnone, none_or, h.before t (not_lt.mp hFt)]
  · intro t ht'
    rw [← hafter t (hFm.trans ht'), latest_eq_none_of_le hb.le_max ht', or_none]
  · intro p hp
    rcases mem_append.mp hp with hp | hp
    · exact h.enc p hp
    · exact c.decode_encodable hb.decode p hp

/-- Taking blocks from the front. -/
theorem takeBlocks : ∀ (used : List (Block β)) {F : ℤ} {pend : Values α},
    Phase c typ S F E pend (used ++ bs) → Tidy (used ++ bs) →
    ∃ F', Phase c typ S F' E (pend ++ unreadVals c typ used) bs
  | [], F, pend, h, _ => ⟨F, by simpa [unreadVals] using h⟩
  | b :: used, F, pend, h, ht => by
    have ht' : Tidy (used ++ bs) := Tidy.suffix (a := [b]) ht
    cases hread : b.read with
    | true =>
      have h' : Phase c typ S F E pend (used ++ bs) := h.dropRead (a := [b]) (by simpa using hread)
      rw [unreadVals_cons_read _ hread]
      exact takeBlocks used h' ht'
    | false =>
      rw [unreadVals_cons_unread _ hread, ← append_assoc]
      exact takeBlocks used (h.takeBlock ht hread) ht'

end Phase

theorem merge_of_lt {a b : Values α} (ha : Ascending a) (hb : Ascending b)
    (h : ∀ p ∈ a, ∀ q ∈ b, p.1 < q.1) : a.merge b = a ++ b := by
  obtain ⟨hm, hl⟩ := merge_spec ha hb
  exact hm.ext (ascending_append.mpr ⟨ha, hb, h⟩) hl

theorem passFull_spec (size : ℕ) : ∀ (bs : List (Block β)), (∀ b ∈ bs, WfBlock c typ b) →
    ∃ pre rest, bs = pre ++ rest ∧ passFull c.toCodec size bs = .returned (pre.filter (fun b => !b.read), rest)
  | [], _ => ⟨[], [], rfl, rfl⟩
  | b :: bs, hwf => by
    obtain ⟨pre, rest, rfl, he⟩ := passFull_spec size bs (forall_mem_cons.mp hwf).2
    obtain ⟨n, hn⟩ := c.decode_blockCount (hwf b mem_cons_self).decode
    rw [passFull, hn, he]
    cases hread : b.read with
    | true => exact ⟨b :: pre, rest, rfl, by simp [hread]⟩
    | false =>
      by_cases hsz : n ≥ size
      · exact ⟨b :: pre, rest, rfl, by simp [hread, hsz, Outcome.map]⟩
      · exact ⟨[], b :: (pre ++ rest), rfl, by simp [hsz]⟩

theorem passThrough_spec (fast : Bool) (pre rest : List (Block β)) :
    ∃ pre' post, pre ++ rest = pre' ++ post ∧
      passThrough fast (pre.filter (fun b => !b.read)) rest = (pre'.filter (fun b => !b.read), post) := by
  cases fast with
  | true => exact ⟨pre ++ rest, [], by simp, by simp [passThrough]⟩
  | false =>
    match rest with
    | [] => exact ⟨pre, [], rfl, by simp [passThrough]⟩
    | [b] =>
      refine ⟨pre ++ [b], [], by simp, ?_⟩
      cases hread : b.read <;> simp [passThrough, hread]
    | b :: b' :: bs => exact ⟨pre, b :: b' :: bs, rfl, by simp [passThrough]⟩

/-- Blocks that are apart are decoded one after the other. -/
theorem decodeRest_spec (size : ℕ) : ∀ (bs : List (Block β)) (acc : Values α),
    (∀ b ∈ bs, WfBlock c typ b) → Tidy bs → Ascending acc →
    (∀ p ∈ acc, ∀ b ∈ bs, b.read = false → p.1 < b.minTime) →
    ∃ mid done rest, bs = mid ++ rest ∧ decodeRest c.toCodec typ size acc bs =
        .returned (none, done, rest, acc ++ unreadVals c typ mid) ∧
      (rest ≠ [] → size ≤ (acc ++ unreadVals c typ mid).length)
  | [], acc, _, _, _, _ => ⟨[], [], [], rfl, by simp [decodeRest, unreadVals], by simp⟩
  | b :: bs, acc, hwf, ht, ha, hlt => by
    have ht' : Tidy bs := Tidy.suffix (a := [b]) ht
    have hwf' := (forall_mem_cons.mp hwf).2
    have hb := hwf b mem_cons_self
    rw [decodeRest]
    split_ifs with hsz hread
    · obtain ⟨mid, done, rest, rfl, he, hr⟩ := decodeRest_spec size bs acc hwf' ht' ha
        fun p hp x hx => hlt p hp x (mem_cons_of_mem _ hx)
      refine ⟨b :: mid, b :: done, rest, rfl, ?_, ?_⟩
      · rw [he, unreadVals_cons_read _ hread]
        rfl
      · rwa [unreadVals_cons_read _ hread]
    · rw [Bool.not_eq_true] at hread
      have hacc : ∀ p ∈ acc, ∀ q ∈ vals c typ b, p.1 < q.1 := fun p hp q hq =>
        (hlt p hp b mem_cons_self hread).trans_le (hb.min_le q hq)
      have hmerge : acc.merge (excludeTombstones b.tombstones (vals c typ b)) = acc ++ vals c typ b := by
        rw [(ht.clean b mem_cons_self).1]
        exact merge_of_lt ha hb.asc hacc
      obtain ⟨mid, done, rest, rfl, he, hr⟩ := decodeRest_spec size bs (acc ++ vals c typ b) hwf' ht'
        (ascending_append.mpr ⟨ha, hb.asc, hacc⟩) (fun p hp x hx hxr => by
          rcases mem_append.mp hp with hp | hp
          · exact hlt p hp x (mem_cons_of_mem _ hx) hxr
          · exact (hb.le_max p hp).trans_lt ((pairwise_cons.mp ht.apart).1 x hx))
      rw [append_assoc, ← unreadVals_cons_unread _ hread] at he hr
      refine ⟨b :: mid, b.markRead b.minTime b.maxTime :: done, rest, rfl, ?_, hr⟩
      rw [hb.decode]
      simp only [hb.max, hmerge, he]
      rfl
    · exact ⟨[], [], b :: bs, rfl, by simp [unreadVals], fun _ => by simpa [unreadVals] using hsz⟩

/-! ### Chunks -/

variable {k : TsmBatchKeyIterator β α}

theorem encodedBlock_spec {v : Values α} (htyp : isBlockType k.typ = true)
    (hne : v ≠ []) (hasc : Ascending v) (henc : ∀ p ∈ v, c.encodable k.typ p) :
    ∃ cb, c.encode k.typ v = .ok cb ∧ (encodedBlock k v cb).key = k.key ∧
      vals c k.typ (encodedBlock k v cb) = v ∧ WfBlock c k.typ (encodedBlock k v cb) := by
  obtain ⟨cb, he, hd⟩ := c.encode_decode htyp hne hasc henc
  obtain ⟨lo, hlo⟩ := exists_minTime?_of_ne_nil hne
  obtain ⟨hi, hhi⟩ := exists_maxTime?_of_ne_nil hne
  have hv : vals c k.typ (encodedBlock k v cb) = v := by simp [vals, encodedBlock, hd]
  refine ⟨cb, he, rfl, hv, ⟨?_, ?_, ?_, ?_⟩⟩
  · rw [hv]; exact hd
  · rw [hv]; exact hasc
  · rw [hv]; simp [encodedBlock, hlo]
  · rw [hv]; simp [encodedBlock, hhi]

/-- A block that may be written for `key`. -/
def Good (c : LawfulCodec β α) (typ : ℕ) (key : Key) (b : Block β) : Prop := b.key = key ∧ WfBlock c typ b

/-- `chunk` moves a prefix of the merged values into at most one block. -/
theorem chunk_spec (dst : List (Block β)) (hsize : 0 < k.size)
    (htyp : isBlockType k.typ = true) (hasc : Ascending k.mergedValues)
    (henc : ∀ p ∈ k.mergedValues, c.encodable k.typ p) :
    ∃ new rest, chunk c.toCodec k dst = { k with merged := dst ++ new, mergedValues := rest } ∧
      k.mergedValues = new.flatMap (vals c k.typ) ++ rest ∧ (∀ b ∈ new, Good c k.typ k.key b) ∧
      (new = [] → k.mergedValues = []) ∧ new.length + rest.length ≤ k.mergedValues.length := by
  rw [chunk]
  split_ifs with hgt hpos
  · have hne : k.mergedValues.take k.size ≠ [] := by
      rw [ne_eq, take_eq_nil_iff, not_or]
      exact ⟨by omega, by rintro h; rw [h] at hgt; simp at hgt⟩
    obtain ⟨cb, he, hk, hv, hwf⟩ := encodedBlock_spec (k := k) htyp hne
      (hasc.sublist (take_sublist _ _)) (fun p hp => henc p (mem_of_mem_take hp))
    refine ⟨[encodedBlock k (k.mergedValues.take k.size) cb], k.mergedValues.drop k.size, ?_, ?_, ?_, ?_, ?_⟩
    · rw [he]
    · simp [hv]
    · simpa using ⟨hk, hwf⟩
    · simp
    · simp only [length_singleton, length_drop]
      omega
  · have hne : k.mergedValues ≠ [] := ne_nil_of_length_pos hpos
    obtain ⟨cb, he, hk, hv, hwf⟩ := encodedBlock_spec (k := k) htyp hne hasc henc
    refine ⟨[encodedBlock k k.mergedValues cb], [], ?_, ?_, ?_, ?_, ?_⟩
    · rw [he]
    · simp [hv]
    · simpa using ⟨hk, hwf⟩
    · simp
    · simp only [length_singleton, length_nil]
      omega
  · have hnil : k.mergedValues = [] := eq_nil_of_length_eq_zero (by omega)
    exact ⟨[], [], by rw [append_nil, ← hnil], by simp [hnil], by simp, fun _ => hnil, by simp⟩

/-! ### One call of merge -/

variable {F : ℤ}

theorem WfBlock.left_of_unread (h : WfBlock c typ b) (hr : ReadUpTo c typ F b)
    (hp : b.partiallyRead = false) (hread : b.read = false) :
    left c typ b = (vals c typ b).length ∧ 0 < (vals c typ b).length := by
  obtain ⟨p, hp', -⟩ := h.max_mem
  refine ⟨?_, length_pos_of_mem hp'⟩
  rcases h.untouched_or_read hr hp with hu | hm
  · rw [h.left_eq hr, filter_eq_self.mpr]
    exact fun q hq => decide_eq_true (hu.2.2.trans_le (h.min_le q hq))
  · rw [(h.read_iff hr).mpr hm] at hread
    cases hread

theorem unreadVals_length_le : ∀ (bs : List (Block β)), (∀ b ∈ bs, WfBlock c typ b) →
    (∀ b ∈ bs, ReadUpTo c typ F b) → (∀ b ∈ bs, b.partiallyRead = false) →
    (bs.filter (fun b => !b.read)).length ≤ (unreadVals c typ bs).length ∧
      (unreadVals c typ bs).length ≤ leftAll c typ bs
  | [], _, _, _ => by simp [unreadVals]
  | b :: bs, hwf, hrd, hp => by
    obtain ⟨ih1, ih2⟩ := unreadVals_length_le bs (forall_mem_cons.mp hwf).2
      (forall_mem_cons.mp hrd).2 (forall_mem_cons.mp hp).2
    have hcons : leftAll c typ (b :: bs) = left c typ b + leftAll c typ bs := by simp [leftAll]
    cases hread : b.read with
    | true =>
      rw [unreadVals_cons_read _ hread, hcons]
      exact ⟨by simpa [hread] using ih1, by omega⟩
    | false =>
      obtain ⟨hl, hpos⟩ := (hwf b mem_cons_self).left_of_unread (hrd b mem_cons_self)
        (hp b mem_cons_self) hread
      rw [unreadVals_cons_unread _ hread, hcons, length_append, filter_cons_of_pos (by simp [hread]), length_cons]
      omega

/-- What a call of `merge` has done when it returns: the block lists and values have moved on, the
    rest of the iterator is as before. -/
structure Merged (c : LawfulCodec β α) (k k' : TsmBatchKeyIterator β α) : Prop where
  frame : k' = { k with blocks := k'.blocks, mergedValues := k'.mergedValues, merged := k'.merged }
  good : ∀ b ∈ k'.merged, Good c k.typ k.key b
  keys : SameKeys k.blocks k'.blocks
  spent : k'.merged = [] → k'.blocks = [] ∧ k'.mergedValues = []
  less : leftAll c k.typ k'.blocks + k'.mergedValues.length + k'.merged.length ≤
    leftAll c k.typ k.blocks + k.mergedValues.length

variable {S : ℤ → Option α} {E : Values α}

theorem merged_chunk (k : TsmBatchKeyIterator β α) (dst bs : List (Block β)) (pend : Values α)
    (hsize : 0 < k.size) (htyp : isBlockType k.typ = true)
    (hdst : ∀ b ∈ dst, Good c k.typ k.key b) (hkeys : SameKeys k.blocks bs)
    (hph : Phase c k.typ S F (E ++ dst.flatMap (vals c k.typ)) pend bs) (hnil : dst = [] → pend = [] → bs = [])
    (hle : leftAll c k.typ bs + pend.length + dst.length ≤ leftAll c k.typ k.blocks + k.mergedValues.length) :
    ∃ k', chunk c.toCodec { k with blocks := bs, mergedValues := pend } dst = k' ∧ Merged c k k' ∧
      Phase c k.typ S F (E ++ k'.merged.flatMap (vals c k.typ)) k'.mergedValues k'.blocks := by
  obtain ⟨new, rest, he, hsplit, hgood, hnew, hlen⟩ := chunk_spec (c := c)
    (k := { k with blocks := bs, mergedValues := pend }) dst hsize htyp (ascending_append.mp hph.asc).2.1
    hph.enc
  refine ⟨_, he, ⟨rfl, ?_, hkeys, ?_, ?_⟩, ?_⟩
  · intro b hb
    rcases mem_append.mp hb with hb | hb
    · exact hdst b hb
    · exact hgood b hb
  · intro hm
    obtain ⟨hd, hn⟩ := append_eq_nil_iff.mp hm
    have hp := hnew hn
    refine ⟨hnil hd hp, ?_⟩
    rw [hp] at hsplit
    exact (append_eq_nil_iff.mp hsplit.symm).2
  · dsimp only at hlen ⊢
    rw [length_append]
    omega
  · dsimp only at hsplit ⊢
    rw [flatMap_append, ← append_assoc]
    exact (hsplit ▸ hph).emit

theorem combineFast_spec (hsize : 0 < k.size) (htyp : isBlockType k.typ = true) (hm : k.merged = [])
    (hpend : k.mergedValues = []) (hkey : ∀ b ∈ k.blocks, b.key = k.key)
    (h : Phase c k.typ S F E [] k.blocks) (ht : Tidy k.blocks) :
    ∃ k', combineFast c.toCodec k = .returned k' ∧ Merged c k k' ∧
      ∃ F', Phase c k.typ S F' (E ++ k'.merged.flatMap (vals c k.typ)) k'.mergedValues k'.blocks := by
  obtain ⟨pre₀, rest₀, hsplit₀, hfull⟩ := passFull_spec k.size k.blocks h.wf
  obtain ⟨pre, post, hsplit, hpass⟩ := passThrough_spec k.fast pre₀ rest₀
  rw [hsplit] at hsplit₀
  -- the blocks passed through move the frontier first, then the decoded ones
  have hph := hsplit₀ ▸ h
  have ht₁ := hsplit₀ ▸ ht
  obtain ⟨F₁, h₁⟩ := Phase.takeBlocks pre hph ht₁
  have h₂ := (append_nil _ ▸ h₁ : Phase c k.typ S F₁ E (unreadVals c k.typ pre ++ []) post).emit
  obtain ⟨mid, done, rest, rfl, hdec, hrest⟩ := decodeRest_spec k.size post k.mergedValues h₂.wf ht₁.suffix
    (by rw [hpend]; exact ascending_nil) (by simp [hpend])
  obtain ⟨F₂, h₃⟩ := Phase.takeBlocks mid h₂ ht₁.suffix
  rw [hpend, nil_append] at hdec hrest
  rw [nil_append] at h₃
  have hunread : ∀ (bs : List (Block β)), bs ⊆ k.blocks → _ := fun bs hbs =>
    unreadVals_length_le bs (fun b hb => h.wf b (hbs hb)) (fun b hb => h.readTo b (hbs hb))
      (fun b hb => (ht.clean b (hbs hb)).2)
  have hpre := hunread pre (by rw [hsplit₀]; exact subset_append_left _ _)
  have hmid := hunread mid (by rw [hsplit₀]; intro b hb; simp [hb])
  have hgood : ∀ b ∈ pre.filter (fun b => !b.read), Good c k.typ k.key b := by
    intro b hb
    have hb : b ∈ k.blocks := hsplit₀ ▸ mem_append_left _ (mem_filter.mp hb).1
    exact ⟨hkey b hb, h.wf b hb⟩
  have hkeys : SameKeys k.blocks rest := SameKeys.of_subset fun b hb => by simp [hsplit₀, hb]
  have hnil : unreadVals c k.typ mid = [] → rest = [] := by
    intro hp
    by_contra hr
    have := hrest hr
    rw [hp, length_nil] at this
    omega
  have hle : leftAll c k.typ rest + (unreadVals c k.typ mid).length +
      (pre.filter (fun b => !b.read)).length ≤ leftAll c k.typ k.blocks + k.mergedValues.length := by
    rw [hsplit₀, leftAll_append, leftAll_append]
    omega
  obtain ⟨k', he, hmerged, hph'⟩ := merged_chunk k _ rest _ hsize htyp hgood hkeys h₃ (fun _ => hnil) hle
  refine ⟨k', ?_, hmerged, F₂, hph'⟩
  rw [combineFast, hfull]
  simp only [Outcome.returned_bind, hpass, hpend, hdec, hm, nil_append]
  rw [← he, hm]

/-- `merge` returns, and the frontier has moved on. -/
theorem merge_iter_spec {fuel : ℕ}
    (hsize : 0 < k.size) (htyp : isBlockType k.typ = true) (hm : k.merged = [])
    (hkey : ∀ b ∈ k.blocks, b.key = k.key) (h : Phase c k.typ S F E k.mergedValues k.blocks)
    (hfuel : leftAll c k.typ k.blocks < fuel) :
    ∃ k', merge c.toCodec fuel k = .returned k' ∧ Merged c k k' ∧
      ∃ F', Phase c k.typ S F' (E ++ k'.merged.flatMap (vals c k.typ)) k'.mergedValues k'.blocks := by
  rw [merge, if_pos htyp, mergeTyped]
  by_cases hnone : k.blocks = [] ∧ k.merged = [] ∧ k.mergedValues = []
  · have hb := hnone.1
    have hp := hnone.2.2
    refine ⟨k, by rw [if_pos hnone], ⟨rfl, by simp [hm], SameKeys.of_subset (List.Subset.refl _),
      fun _ => ⟨hb, hp⟩, by simp [hm]⟩, F, by simpa [hm] using h⟩
  · rw [if_neg hnone]
    have hsort := h.sort hkey
    have hchain := (sort_spec hkey h.wf).1
    have hperm := insertionSort_perm less k.blocks
    have hleft : leftAll c k.typ (insertionSort less k.blocks) = leftAll c k.typ k.blocks := (hperm.map _).sum_nat
    have hsame : SameKeys k.blocks (insertionSort less k.blocks) := SameKeys.of_subset hperm.subset
    by_cases hdup : k.mergedValues ≠ [] ∨ needsDedup (insertionSort less k.blocks) = true
    · obtain ⟨F', pend, bs, he, hph, hkeys, hnil, hle⟩ := combineDedup_spec fuel
        { k with blocks := insertionSort less k.blocks } F hsize hsort hchain (hleft ▸ hfuel)
      rw [if_pos hdup, he]
      obtain ⟨k', he', hmerged, hph'⟩ := merged_chunk k [] bs pend (E := E) hsize htyp (by simp)
        (hsame.trans hkeys) (by simpa using hph) (fun _ => hnil) (by simpa [hleft] using hle)
      exact ⟨k', by rw [← he'], hmerged, F', hph'⟩
    · rw [not_or, not_not, Bool.not_eq_true] at hdup
      have htidy := tidy_of_needsDedup _ (fun b hb => (hsort.wf b hb).min_le_max) hchain hdup.2
      obtain ⟨k', he, hmerged, hph⟩ := combineFast_spec
        (k := { k with blocks := insertionSort less k.blocks }) hsize htyp hm hdup.1
        (fun b hb => hkey b (hperm.subset hb)) (hdup.1 ▸ hsort) htidy
      rw [if_neg (by rw [not_or, not_not, Bool.not_eq_true]; exact hdup), he]
      refine ⟨k', rfl, ⟨hmerged.frame, hmerged.good, hsame.trans hmerged.keys, hmerged.spent, ?_⟩, hph⟩
      exact hleft ▸ hmerged.less

end InfluxDB.Tsm.Compact
