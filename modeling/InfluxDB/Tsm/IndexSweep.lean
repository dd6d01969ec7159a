import InfluxDB.Tsm.IndexDelete

/-! What a delete call of `reader_index.go` does to the points an index shows.

    What a key still shows is followed through both halves of a call by `Sweeping`, and `Completed` sums
    the call up: exactly the points that it covers are gone. A call that reports no change made none. -/

namespace InfluxDB.Tsm
open Lib List Function IndirectIndex ReaderOffsets

/-! ### A call in progress -/

/-- A call on `d` that covers the points of `C` has reached `d'` with the keys of `M` marked: marked keys
    show no other point, unmarked ones hide what they hid and otherwise only points of `C`. -/
structure Sweeping (d : IndirectIndex) (C : Bytes → ℤ → Prop) (M : ℕ → Bool) (del : Bool)
    (d' : IndirectIndex) :
    Prop where
  same : d' = { d with ro := d.ro.withMarks M, tombstones := d'.tombstones, prefixTombstones := d'.prefixTombstones }
  del : del = false → ∀ o ∈ d.ro.offsets, M o = false
  removed : ∀ o ∈ d.ro.offsets, M o = true → ∀ t, InEntries d.b o t → d.Hides o t ∨ C (keyAt d.b o) t
  kept : ∀ o ∈ d.ro.offsets, M o = false → ∀ t, d.Hides o t → d'.Hides o t
  added : ∀ o ∈ d.ro.offsets, M o = false → ∀ t, d'.Hides o t → d.Hides o t ∨ C (keyAt d.b o) t

/-- What a call that covers `C` makes of `d`. -/
structure Completed (d : IndirectIndex) (C : Bytes → ℤ → Prop) (d' : IndirectIndex) : Prop where
  wf : d'.Wf
  same : d' = { d with ro := d'.ro, tombstones := d'.tombstones, prefixTombstones := d'.prefixTombstones }
  offsets : ∀ o ∈ d'.ro.offsets, o ∈ d.ro.offsets
  visible : ∀ k t, (∀ o ∈ d.ro.offsets, keyAt d.b o = k → InEntries d.b o t) →
    (d'.Visible k t ↔ d.Visible k t ∧ ¬ C k t)

theorem withMarks_eq_self {r : ReaderOffsets} {M : ℕ → Bool} (h : ∀ o ∈ r.offsets, M o = false) :
    r.withMarks M = r := by
  have : r.offsets.map (mark M) = r.offsets :=
    map_congr_left (g := id) (fun o ho => by rw [mark, h o ho]; rfl) |>.trans (map_id _)
  rw [withMarks, this]

namespace Sweeping
variable {d d' : IndirectIndex} {C : Bytes → ℤ → Prop} {M : ℕ → Bool} {del : Bool} {o : ℕ}

theorem start (d : IndirectIndex) (C : Bytes → ℤ → Prop) : Sweeping d C (fun _ => false) false d where
  same := by rw [withMarks_false]
  del _ _ _ := rfl
  removed _ _ h := by cases h
  kept _ _ _ _ h := h
  added _ _ _ _ h := .inl h

section

variable (h : Sweeping d C M del d') {T : ℕ → List TimeRange}
include h

theorem b_eq : d'.b = d.b := by rw [h.same]

theorem ro_eq : d'.ro = d.ro.withMarks M := by rw [h.same]

theorem hides_iff (t : ℤ) (ro : ReaderOffsets) :
    Hides { d' with ro := ro, tombstones := T } o t ↔
      Tombstoned (d'.prefixTombstones.search (keyAt d.b o) []) t ∨ Tombstoned (T o) t := by
  rw [← h.b_eq]
  rfl

/-- Marking a key all of whose points are hidden or covered; its own tombstones no longer matter. -/
theorem mark
    (hrem : ∀ t, InEntries d.b o t → d.Hides o t ∨ C (keyAt d.b o) t)
    (hT : ∀ x, x ≠ o → T x = d'.tombstones x) :
    Sweeping d C (update M o true) true
      { d' with ro := d.ro.withMarks (update M o true), tombstones := T } := by
  have hne : ∀ {x}, update M o true x = false → x ≠ o := by
    rintro x hx rfl
    rw [update_self] at hx
    cases hx
  have hM : ∀ {x}, update M o true x = false → M x = false := fun hx => by
    rwa [update_of_ne (hne hx)] at hx
  have hhides : ∀ {x}, x ≠ o → ∀ t, Hides
      { d' with ro := d.ro.withMarks (update M o true), tombstones := T } x t ↔ d'.Hides x t := by
    intro x hx t
    rw [h.hides_iff, hT x hx, Hides, h.b_eq]
  refine ⟨by rw [h.same], by simp, fun x hx hm => ?_, fun x hx hm t ht => ?_, fun x hx hm t ht => ?_⟩
  · rcases eq_or_ne x o with rfl | hxo
    · exact hrem
    · exact h.removed x hx (by rwa [update_of_ne hxo] at hm)
  · exact (hhides (hne hm) t).mpr (h.kept x hx (hM hm) t ht)
  · exact h.added x hx (hM hm) t ((hhides (hne hm) t).mp ht)

/-- Hiding more of the covered points. -/
theorem hide {d'' : IndirectIndex} {A : ℕ → ℤ → Prop}
    (hsame : d'' = { d' with tombstones := d''.tombstones, prefixTombstones := d''.prefixTombstones })
    (hhides : ∀ x t, d''.Hides x t ↔ d'.Hides x t ∨ A x t) (hA : ∀ x t, A x t → C (keyAt d.b x) t) :
    Sweeping d C M del d'' := by
  refine ⟨by rw [hsame, h.same], h.del, h.removed, fun x hx hm t ht => ?_, fun x hx hm t ht => ?_⟩
  · exact (hhides x t).mpr (.inl (h.kept x hx hm t ht))
  · exact ((hhides x t).mp ht).elim (h.added x hx hm t) fun ha => .inr (hA x t ha)

/-- Adding a range of covered points to the tombstones of a key. -/
theorem insert {minTime maxTime : ℤ}
    (hC : ∀ t, minTime ≤ t → t ≤ maxTime → C (keyAt d.b o) t) :
    Sweeping d C M del { d' with
      tombstones := update d'.tombstones o (insertTimeRange (d'.tombstones o) minTime maxTime) } := by
  have hins : ∀ t, Tombstoned (insertTimeRange (d'.tombstones o) minTime maxTime) t ↔
      (minTime ≤ t ∧ t ≤ maxTime) ∨ Tombstoned (d'.tombstones o) t := fun t => by
    rw [tombstoned_of_perm (insertTimeRange_perm _ _ _), tombstoned_cons]
    rfl
  refine h.hide (A := fun x t => x = o ∧ minTime ≤ t ∧ t ≤ maxTime) rfl (fun x t => ?_)
    fun x t ⟨hx, hlo, hhi⟩ => hx ▸ hC t hlo hhi
  rw [h.hides_iff, Hides, h.b_eq]
  rcases eq_or_ne x o with rfl | hxo
  · rw [update_self, hins]
    simp only [true_and]
    rw [or_comm (a := minTime ≤ t ∧ t ≤ maxTime), or_assoc]
  · rw [update_of_ne hxo]
    simp only [hxo, false_and, or_false]

/-- `Done` at the end, when every covered point of an unmarked key is hidden. -/
theorem completed (hd : d.Wf) {s : Sweep} (hs : s.it.del = del ∧ s.d = d')
    (hall : ∀ o ∈ d.ro.offsets, M o = false → ∀ t, InEntries d.b o t → C (keyAt d.b o) t → d'.Hides o t) :
    Completed d C s.done := by
  obtain ⟨hwf, hoff⟩ : (s.done.ro).Wf (keyAt d.b) ∧ s.done.ro.offsets = d.ro.offsets.filter (fun o => !M o) := by
    rw [Sweep.done, OffsetsIterator.done, hs.1, hs.2, h.ro_eq]
    cases hdel : del with
    | true => exact hd.ro.dropMarked M
    | false =>
      have hM := h.del hdel
      rw [withMarks_eq_self hM]
      exact ⟨hd.ro, (filter_eq_self.mpr fun o ho => by rw [hM o ho]; rfl).symm⟩
  have hsame : s.done = { d with
      ro := s.done.ro, tombstones := s.done.tombstones, prefixTombstones := s.done.prefixTombstones } := by
    rw [Sweep.done, hs.2, h.same]
  have hb : s.done.b = d.b := by rw [hsame]
  have hhides : ∀ o t, s.done.Hides o t ↔ d'.Hides o t := fun o t => by rw [Sweep.done, hs.2]; rfl
  have hmem : ∀ o, o ∈ s.done.ro.offsets ↔ o ∈ d.ro.offsets ∧ M o = false := fun o => by
    rw [hoff, mem_filter, Bool.not_eq_true']
  have hwf' : s.done.Wf := by
    refine ⟨hb ▸ hwf, fun o ho => ?_, fun o ho => ?_⟩
    · rw [hb]
      exact hd.record o ((hmem o).mp ho).1
    · rw [hb, show s.done.minTime = d.minTime from by rw [hsame], show s.done.maxTime = d.maxTime from by rw [hsame]]
      exact hd.bounds o ((hmem o).mp ho).1
  refine ⟨hwf', hsame, fun o ho => ((hmem o).mp ho).1, fun k t hent => ?_⟩
  rw [visible_iff hwf', visible_iff hd, hb]
  constructor
  · rintro ⟨o, ho, rfl, hno⟩
    obtain ⟨ho, hm⟩ := (hmem o).mp ho
    rw [hhides] at hno
    exact ⟨⟨o, ho, rfl, fun hc => hno (h.kept o ho hm t hc)⟩, fun hc => hno (hall o ho hm t (hent o ho rfl) hc)⟩
  · rintro ⟨⟨o, ho, rfl, hno⟩, hC⟩
    cases hm : M o with
    | true => exact absurd (h.removed o ho hm t (hent o ho rfl)) (not_or.mpr ⟨hno, hC⟩)
    | false =>
      refine ⟨o, (hmem o).mpr ⟨ho, hm⟩, rfl, fun hc => ?_⟩
      rw [hhides] at hc
      exact absurd (h.added o ho hm t hc) (not_or.mpr ⟨hno, hC⟩)

end

end Sweeping

/-! ### Delete -/

section Calls
variable {d : IndirectIndex} {C : Bytes → ℤ → Prop} {M : ℕ → Bool} {minTime maxTime : ℤ}

variable {s : Sweep}

/-- Pointing at a key finds it when it is in the index. -/
theorem Sweeping.advanceTo (h : Sweeping d C M s.it.del s.d) (hd : d.Wf) (key : Bytes) :
    ∃ found s', s.advanceTo key = (found, s') ∧ s'.it.del = s.it.del ∧ s' = { s with it := s'.it } ∧
      (found = true → d.ro.offsets[s'.it.i]? = some s'.offset ∧ keyAt d.b s'.offset = key) ∧
      (found = false → ∀ o ∈ d.ro.offsets, keyAt d.b o ≠ key) := by
  have hkeys : (d.ro.withMarks M).keys (keyAt d.b) = d.ro.keys (keyAt d.b) := keys_withMarks hd.ro.small
  obtain ⟨found, it, he, hdel, hyes, hno⟩ := advanceTo_spec (r := d.ro.withMarks M)
    (hkeys.symm ▸ hd.ro.table) (hkeys.symm ▸ hd.ro.sorted) s.it key
  rw [hkeys] at hyes hno
  refine ⟨found, { s with it := it }, ?_, hdel, rfl, fun hf => ?_, fun hf o ho hk => ?_⟩
  · rw [Sweep.advanceTo, h.b_eq, h.ro_eq, he]
  · obtain ⟨hoff, hkey⟩ := offset_of_getElem? hd (hyes hf)
    have hsoff : Sweep.offset { s with it := it } = it.offset d.ro := by
      rw [Sweep.offset, h.ro_eq, offset_withMarks hd.ro.small hoff]
    rw [hsoff]
    exact ⟨hoff, hkey⟩
  · exact hno hf ((mem_keys hd).mpr ⟨o, ho, hk⟩)

/-- `Sweep.delete` marks the key pointed at. -/
theorem Sweeping.delete (h : Sweeping d C M s.it.del s.d) (hd : d.Wf)
    (hi : d.ro.offsets[s.it.i]? = some s.offset)
    (hrem : ∀ t, InEntries d.b s.offset t → d.Hides s.offset t ∨ C (keyAt d.b s.offset) t) (key : Bytes)
    {T : ℕ → List TimeRange} (hT : ∀ x, x ≠ s.offset → T x = s.d.tombstones x) :
    (Sweep.delete { s with d := { s.d with tombstones := T } } key).it.del = true ∧
      Sweeping d C (update M s.offset true) true
        (Sweep.delete { s with d := { s.d with tombstones := T } } key).d := by
  have hdelete := delete_withMarks hd.ro (M := M) hi
  rw [Sweep.delete]
  rw [h.ro_eq, hdelete]
  exact ⟨rfl, h.mark hrem hT⟩

variable {keys : List Bytes}

/-- The loop of `Delete`: the keys met so far are marked, and the index changes only with a mark. -/
theorem foldl_deleteKey (hd : d.Wf) (hC : ∀ k ∈ keys, ∀ t, C k t) :
    ∀ {s : Sweep} {M : ℕ → Bool}, Sweeping d C M s.it.del s.d →
    ∃ M', Sweeping d C M' (keys.foldl Sweep.deleteKey s).it.del (keys.foldl Sweep.deleteKey s).d ∧
      (∀ o ∈ d.ro.offsets, M o = true ∨ keyAt d.b o ∈ keys → M' o = true) ∧
      ((keys.foldl Sweep.deleteKey s).it.del = false →
        s.it.del = false ∧ (keys.foldl Sweep.deleteKey s).d = s.d) := by
  induction keys with
  | nil => exact fun {s M} h => ⟨M, h, fun o _ ho => ho.resolve_right not_mem_nil, fun hdel => ⟨hdel, rfl⟩⟩
  | cons key keys ih =>
    intro s M h
    obtain ⟨found, s', he, hdel, hs', hyes, hno⟩ := h.advanceTo hd key
    have h' : Sweeping d C M s'.it.del s'.d := by rw [hdel, hs']; exact h
    have hC' : ∀ k ∈ keys, ∀ t, C k t := (forall_mem_cons.mp hC).2
    rw [foldl_cons, Sweep.deleteKey, he]
    cases found with
    | false =>
      obtain ⟨M', hM', hall, hsame⟩ := ih hC' h'
      refine ⟨M', hM', fun o ho hor => hall o ho (hor.imp_right fun hk => ?_), fun hno => ?_⟩
      · exact (mem_cons.mp hk).resolve_left (hno rfl o ho)
      · obtain ⟨hf, hsd⟩ := hsame hno
        exact ⟨hdel ▸ hf, hsd.trans (by rw [hs'])⟩
    | true =>
      obtain ⟨hi, hkey⟩ := hyes rfl
      obtain ⟨hdel', hmark⟩ := h'.delete hd hi
        (fun t _ => .inr (hkey ▸ hC key mem_cons_self t)) key
        (T := update s'.d.tombstones s'.offset []) (fun x hx => update_of_ne hx _ _)
      rw [← hdel'] at hmark
      obtain ⟨M', hM', hall, hsame⟩ := ih hC' hmark
      refine ⟨M', hM', fun o ho hor => hall o ho ?_, fun hno => absurd ((hsame hno).1.symm.trans hdel') (by simp)⟩
      rcases eq_or_ne o s'.offset with rfl | hne
      · exact .inl (update_self _ _ _)
      · rw [update_of_ne hne]
        refine hor.imp_right fun hk => (mem_cons.mp hk).resolve_left fun hk => hne ?_
        exact hd.keyAt_inj ho (mem_of_getElem? hi) (hk.trans hkey.symm)

variable {d' : IndirectIndex} {C' : Bytes → ℤ → Prop}

theorem Completed.congr (h : Completed d C d') (hd : d.Wf)
    (hC : ∀ o ∈ d.ro.offsets, ∀ t, InEntries d.b o t → (C (keyAt d.b o) t ↔ C' (keyAt d.b o) t)) :
    Completed d C' d' := by
  refine ⟨h.wf, h.same, h.offsets, fun k t hent => ?_⟩
  rw [h.visible k t hent]
  refine and_congr_right fun hv => not_congr ?_
  obtain ⟨o, ho, rfl, -⟩ := (visible_iff hd).mp hv
  exact hC o ho t (hent o ho rfl)

/-- A call that covers nothing of the index may leave it alone. -/
theorem Completed.refl (hd : d.Wf) (hC : ∀ o ∈ d.ro.offsets, ∀ t, InEntries d.b o t → ¬ C (keyAt d.b o) t) :
    Completed d C d := by
  refine ⟨hd, rfl, fun _ ho => ho, fun k t hent => (and_iff_left_of_imp fun hv => ?_).symm⟩
  obtain ⟨o, ho, rfl, -⟩ := (visible_iff hd).mp hv
  exact hC o ho t (hent o ho rfl)

/-- Two calls in turn cover what either covers. -/
theorem Completed.trans {d'' : IndirectIndex} (h : Completed d C d')
    (h' : Completed d' C' d'') : Completed d (fun k t => C k t ∨ C' k t) d'' := by
  have hb : d'.b = d.b := by rw [h.same]
  refine ⟨h'.wf, ?_, fun o ho => h.offsets o (h'.offsets o ho), fun k t hent => ?_⟩
  · conv_lhs => rw [h'.same, h.same]
  · rw [h'.visible k t fun o ho hk => hb ▸ hent o (h.offsets o ho) (hb ▸ hk), h.visible k t hent,
      not_or, and_assoc]

/-- Without deletes `Done` changes nothing. -/
theorem Sweep.done_of_not_del (h : s.it.del = false) : s.done = s.d := by
  rw [Sweep.done, OffsetsIterator.done, h]
  rfl

theorem delete_completed (hd : d.Wf) (keys : List Bytes) : Completed d (fun k _ => k ∈ keys) (d.delete keys).2 := by
  rw [delete]
  split_ifs with hnil
  · obtain rfl := eq_nil_of_length_eq_zero hnil
    exact Completed.refl hd (by simp)
  · obtain ⟨M, hsw, hall, -⟩ := foldl_deleteKey hd (C := fun k _ => k ∈ keys) (fun k hk _ => hk)
      (s := .start d) (Sweeping.start d _)
    have hdone := hsw.completed hd (s := keys.foldl Sweep.deleteKey (.start d)) ⟨rfl, rfl⟩
      fun o ho hm t _ hk => by rw [hall o ho (.inr hk)] at hm; cases hm
    dsimp only
    split_ifs with hdel
    · rwa [Sweep.done_of_not_del (by simpa using hdel)] at hdone
    · exact hdone

theorem delete_unchanged (hd : d.Wf) (h : (d.delete keys).1 = false) : (d.delete keys).2 = d := by
  obtain ⟨M, -, -, hsame⟩ := foldl_deleteKey hd (C := fun k _ => k ∈ keys) (fun k hk _ => hk)
    (s := .start d) (Sweeping.start d _)
  rw [delete] at h ⊢
  by_cases hnil : keys.length = 0
  · rw [if_pos hnil]
  rw [if_neg hnil] at h ⊢
  dsimp only at h ⊢
  cases hdel : (keys.foldl Sweep.deleteKey (.start d)).it.del with
  | false => exact (hsame hdel).2
  | true => simp [hdel] at h

/-! ### DeleteRange -/

/-- A pending tombstone is about a key of the index that the call covers. -/
structure Pends (d : IndirectIndex) (C : Bytes → ℤ → Prop) (minTime maxTime : ℤ)
    (p : PendingTombstone) : Prop where
  index : d.ro.offsets[p.index]? = some p.offset
  key : p.key = keyAt d.b p.offset
  entryOffset : p.entryOffset = entryOffset d.b p.offset
  covers : ∀ t, minTime ≤ t → t ≤ maxTime → C (keyAt d.b p.offset) t

/-- The scan has dealt with the keys at the offsets of `D`. -/
structure Scanning (d : IndirectIndex) (C : Bytes → ℤ → Prop) (minTime maxTime : ℤ)
    (perKey : Bool) (M : ℕ → Bool) (D : ℕ → Prop) (s : Sweep) : Prop where
  sweeping : Sweeping d C M s.it.del s.d
  same : s.d = { d with ro := s.d.ro }
  pending : ∀ p ∈ s.pending, Pends d C minTime maxTime p
  met : ∀ o ∈ d.ro.offsets, D o → M o = true ∨
    (if perKey then ∃ p ∈ s.pending, p.offset = o else s.mustTrack = true) ∨
    ∀ t, InEntries d.b o t → ¬ (minTime ≤ t ∧ t ≤ maxTime)

namespace Scanning
variable {perKey : Bool} {D : ℕ → Prop}

theorem start (d : IndirectIndex) (C : Bytes → ℤ → Prop) (it : OffsetsIterator) (hit : it.del = false) :
    Scanning d C minTime maxTime perKey (fun _ => false) (fun _ => False) { Sweep.start d with it := it } where
  sweeping := by rw [hit]; exact Sweeping.start d C
  same := rfl
  pending _ h := by cases h
  met _ _ h := h.elim

theorem mono {D' : ℕ → Prop} (h : Scanning d C minTime maxTime perKey M D s)
    (hD : ∀ o ∈ d.ro.offsets, D' o → D o) : Scanning d C minTime maxTime perKey M D' s :=
  ⟨h.sweeping, h.same, h.pending, fun o ho hm => h.met o ho (hD o ho hm)⟩

section

variable (h : Scanning d C minTime maxTime perKey M D s) (hd : d.Wf) (hi : d.ro.offsets[s.it.i]? = some s.offset)
include h hd hi

/-- Marking the key pointed at deals with it. -/
theorem delete (hrem : ∀ t, InEntries d.b s.offset t → d.Hides s.offset t ∨ C (keyAt d.b s.offset) t)
    (key : Bytes) :
    Scanning d C minTime maxTime perKey (update M s.offset true) (fun o => D o ∨ o = s.offset)
      (s.delete key) := by
  obtain ⟨hdel, hmark⟩ := h.sweeping.delete hd hi hrem key (T := s.d.tombstones) (fun _ _ => rfl)
  refine ⟨hdel ▸ hmark, ?_, h.pending, fun o ho hD => ?_⟩
  · show { s.d with ro := (s.delete key).d.ro } = _
    rw [h.same]
  · rcases eq_or_ne o s.offset with rfl | hne
    · exact .inl (update_self _ _ _)
    · rw [update_of_ne hne]
      exact h.met o ho (hD.resolve_right hne)

/-- The body of the scan deals with the key pointed at. -/
theorem rangeAt (hC : ∀ t, minTime ≤ t → t ≤ maxTime → C (keyAt d.b s.offset) t) :
    ∃ M', Scanning d C minTime maxTime perKey M' (fun o => D o ∨ o = s.offset)
      (s.rangeAt perKey minTime maxTime (keyAt d.b s.offset)) := by
  have ho := mem_of_getElem? hi
  have hverdict : s.d.verdict s.offset (keyAt d.b s.offset) minTime maxTime =
      d.verdict s.offset (keyAt d.b s.offset) minTime maxTime := by
    rw [h.same]
    rfl
  rw [Sweep.rangeAt, hverdict]
  cases hv : d.verdict s.offset (keyAt d.b s.offset) minTime maxTime with
  | keep =>
    refine ⟨M, h.sweeping, h.same, h.pending, fun o ho' hD => ?_⟩
    rcases hD with hD | rfl
    · exact h.met o ho' hD
    · exact .inr (.inr (verdict_keep hd ho hv))
  | remove =>
    refine ⟨_, h.delete hd hi (fun t ht => ?_) _⟩
    exact (verdict_remove hd ho hv t ht).imp_right fun hR => hC t hR.1 hR.2
  | track =>
    cases perKey with
    | false => exact ⟨M, h.sweeping, h.same, h.pending, fun o _ _ => .inr (.inl rfl)⟩
    | true =>
      refine ⟨M, h.sweeping, h.same, fun p hp => ?_, fun o ho' hD => ?_⟩
      · rcases mem_append.mp hp with hp | hp
        · exact h.pending p hp
        · rw [mem_singleton.mp hp]
          exact ⟨hi, rfl, by rw [h.sweeping.b_eq], hC⟩
      · rcases hD with hD | rfl
        · refine (h.met o ho' hD).imp_right fun hm => hm.imp_left ?_
          exact fun ⟨p, hp, hpo⟩ => ⟨p, mem_append_left _ hp, hpo⟩
        · exact .inr (.inl ⟨_, mem_append_right _ mem_cons_self, rfl⟩)

end

end Scanning

/-- The first loop of `DeleteRange` deals with all the keys named. -/
theorem foldl_rangeKey (hd : d.Wf) (hC : ∀ k ∈ keys, ∀ t, minTime ≤ t → t ≤ maxTime → C k t) :
    ∀ {s : Sweep} {M : ℕ → Bool} {D : ℕ → Prop}, Scanning d C minTime maxTime true M D s →
    ∃ M', Scanning d C minTime maxTime true M' (fun o => D o ∨ keyAt d.b o ∈ keys)
      (keys.foldl (Sweep.rangeKey minTime maxTime) s) := by
  induction keys with
  | nil => exact fun {s M D} h => ⟨M, h.mono fun o _ ho => ho.resolve_right not_mem_nil⟩
  | cons key keys ih =>
    intro s M D h
    obtain ⟨found, s', he, hdel, hs', hyes, hno⟩ := h.sweeping.advanceTo hd key
    have h' : Scanning d C minTime maxTime true M D s' := by
      rw [hs']
      exact ⟨hdel.symm ▸ h.sweeping, h.same, h.pending, h.met⟩
    have hC' : ∀ k ∈ keys, ∀ t, minTime ≤ t → t ≤ maxTime → C k t := (forall_mem_cons.mp hC).2
    rw [foldl_cons, Sweep.rangeKey, he]
    cases found with
    | false =>
      obtain ⟨M', hM'⟩ := ih hC' h'
      refine ⟨M', hM'.mono fun o ho hor => hor.imp_right fun hk => ?_⟩
      exact (mem_cons.mp hk).resolve_left (hno rfl o ho)
    | true =>
      obtain ⟨hi, rfl⟩ := hyes rfl
      obtain ⟨M₁, h₁⟩ := h'.rangeAt hd hi (hC _ mem_cons_self)
      obtain ⟨M', hM'⟩ := ih hC' h₁
      refine ⟨M', hM'.mono fun o ho hor => ?_⟩
      rcases hor with hD | hk
      · exact .inl (.inl hD)
      · rcases mem_cons.mp hk with hk | hk
        · exact .inl (.inr (hd.keyAt_inj ho (mem_of_getElem? hi) hk))
        · exact .inr hk

/-- The second loop has dealt with the keys at the offsets of `D`. -/
structure Settling (d : IndirectIndex) (C : Bytes → ℤ → Prop) (minTime maxTime : ℤ) (M : ℕ → Bool)
    (D : ℕ → Prop) (s : Sweep) : Prop where
  sweeping : Sweeping d C M s.it.del s.d
  met : ∀ o ∈ d.ro.offsets, D o → M o = true ∨ { min := minTime, max := maxTime } ∈ s.d.tombstones o

namespace Settling
variable {D : ℕ → Prop} {p : PendingTombstone}

section

variable (h : Settling d C minTime maxTime M D s)
include h

theorem insert (hp : Pends d C minTime maxTime p) :
    Settling d C minTime maxTime M (fun o => D o ∨ o = p.offset)
      (s.setTombstones p.offset (insertTimeRange (s.d.tombstones p.offset) minTime maxTime)) := by
  have hmem : ∀ r, r ∈ insertTimeRange (s.d.tombstones p.offset) minTime maxTime ↔
      r = { min := minTime, max := maxTime } ∨ r ∈ s.d.tombstones p.offset := fun r => by
    rw [(insertTimeRange_perm _ _ _).mem_iff, mem_cons]
  refine ⟨h.sweeping.insert hp.covers, fun o ho hD => ?_⟩
  rw [Sweep.tombstones_setTombstones]
  rcases eq_or_ne o p.offset with rfl | hne
  · exact .inr (by rw [update_self, hmem]; exact .inl rfl)
  · rw [update_of_ne hne]
    exact h.met o ho (hD.resolve_right hne)

/-- Dropping the key of a pending tombstone, when all its points are hidden or covered. -/
theorem drop (hd : d.Wf) (hp : Pends d C minTime maxTime p)
    (hrem : ∀ t, InEntries d.b p.offset t → d.Hides p.offset t ∨ C (keyAt d.b p.offset) t) :
    ∃ M', Settling d C minTime maxTime M' (fun o => D o ∨ o = p.offset) (s.dropPending p) := by
  let s₁ : Sweep := { s with it := s.it.setIndex s.d.ro p.index }
  have hoff : s₁.offset = p.offset := by
    rw [Sweep.offset, h.sweeping.ro_eq, offset_withMarks hd.ro.small]
    exact hp.index
  have h₁ : Sweeping d C M s₁.it.del s₁.d := h.sweeping
  obtain ⟨hdel, hmark⟩ := h₁.delete hd (by rw [hoff]; exact hp.index) (hoff ▸ hrem) p.key
    (T := update s.d.tombstones p.offset []) (fun x hx => update_of_ne (hoff ▸ hx) _ _)
  refine ⟨update M p.offset true, ?_⟩
  have hdrop : s.dropPending p =
      Sweep.delete { s₁ with d := { s₁.d with tombstones := update s.d.tombstones p.offset [] } } p.key := by
    rw [Sweep.dropPending]
    exact if_pos hoff
  rw [hdrop]
  rw [hoff] at hmark
  refine ⟨hdel ▸ hmark, fun o ho hD => ?_⟩
  rcases eq_or_ne o p.offset with rfl | hne
  · exact .inl (update_self _ _ _)
  · rw [update_of_ne hne]
    refine (h.met o ho (hD.resolve_right hne)).imp_right fun hm => ?_
    show _ ∈ update s.d.tombstones p.offset [] o
    rwa [update_of_ne hne]

/-- The body of the second loop deals with the key of the tombstone. -/
theorem settle (hd : d.Wf) (hp : Pends d C minTime maxTime p) :
    ∃ M', Settling d C minTime maxTime M' (fun o => D o ∨ o = p.offset) (s.settle minTime maxTime p) := by
  have ho := mem_of_getElem? hp.index
  obtain ⟨r, -, htimes, hread⟩ := hd.timesAt_eq ho
  rw [Sweep.settle, hp.entryOffset, h.sweeping.b_eq, hread]
  split_ifs with hcount
  · exact ⟨M, h.insert hp⟩
  · dsimp only
    split_ifs with hcov
    · refine h.drop hd hp fun t ht => ?_
      cases hM : M p.offset with
      | true => exact h.sweeping.removed _ ho hM t ht
      | false =>
        rw [InEntries, htimes] at ht
        rw [hp.key] at hcov
        rcases coversEntries_sound hcov ht with hh | hR
        · refine h.sweeping.added _ ho hM t ?_
          rwa [Hides, h.sweeping.b_eq]
        · exact .inr (hp.covers t hR.1 hR.2)
    · exact ⟨M, h.insert hp⟩

end

theorem foldl_settle (hd : d.Wf) : ∀ {ps : List PendingTombstone}, (∀ p ∈ ps, Pends d C minTime maxTime p) →
    ∀ {s : Sweep} {M : ℕ → Bool} {D : ℕ → Prop}, Settling d C minTime maxTime M D s →
    ∃ M', Settling d C minTime maxTime M' (fun o => D o ∨ ∃ p ∈ ps, p.offset = o)
      (ps.foldl (Sweep.settle minTime maxTime) s)
  | [], _, s, M, D, h => ⟨M, h.sweeping, fun o ho hD => h.met o ho (hD.resolve_right (by simp))⟩
  | p :: ps, hps, s, M, D, h => by
    obtain ⟨M₁, h₁⟩ := h.settle hd (hps p mem_cons_self)
    obtain ⟨M', h'⟩ := foldl_settle hd (forall_mem_cons.mp hps).2 h₁
    refine ⟨M', h'.sweeping, fun o ho hD => h'.met o ho ?_⟩
    rcases hD with hD | ⟨q, hq, rfl⟩
    · exact .inl (.inl hD)
    · rcases mem_cons.mp hq with rfl | hq
      · exact .inl (.inr rfl)
      · exact .inr ⟨q, hq, rfl⟩

end Settling

variable {D : ℕ → Prop}

/-- The scan and the second loop together complete the call, when the scan met every covered key. -/
theorem Scanning.completed (h : Scanning d C minTime maxTime true M D s) (hd : d.Wf)
    (hC : ∀ o ∈ d.ro.offsets, ∀ t, InEntries d.b o t → C (keyAt d.b o) t →
      D o ∧ minTime ≤ t ∧ t ≤ maxTime) :
    Completed d C (s.pending.foldl (Sweep.settle minTime maxTime) s).done := by
  obtain ⟨M', hset⟩ := Settling.foldl_settle hd h.pending (s := s) (M := M) (D := fun o => M o = true)
    ⟨h.sweeping, fun o _ hM => .inl hM⟩
  refine hset.sweeping.completed hd ⟨rfl, rfl⟩ fun o ho hM' t ht hc => ?_
  obtain ⟨hD, hlo, hhi⟩ := hC o ho t ht hc
  have hin : M' o = true ∨ _ := hset.met o ho (by
    rcases h.met o ho hD with hM | hp | hmiss
    · exact .inl hM
    · exact .inr hp
    · exact absurd ⟨hlo, hhi⟩ (hmiss t ht))
  rw [hM'] at hin
  exact .inr ⟨_, hin.resolve_left (by simp), hlo, hhi⟩

theorem deleteRange_completed (hd : d.Wf) (keys : List Bytes) (minTime maxTime : ℤ) :
    Completed d (fun k t => k ∈ keys ∧ minTime ≤ t ∧ t ≤ maxTime) (d.deleteRange keys minTime maxTime).2 := by
  rw [deleteRange]
  split_ifs with hwhole hout
  · refine (delete_completed hd keys).congr hd fun o ho t ht => ?_
    have := hd.bounds o ho t ht
    exact (and_iff_left (by omega)).symm
  · refine Completed.refl hd fun o ho t ht hc => ?_
    have := hd.bounds o ho t ht
    omega
  · obtain ⟨M, hscan⟩ := foldl_rangeKey hd (C := fun k t => k ∈ keys ∧ minTime ≤ t ∧ t ≤ maxTime)
      (fun k hk t hlo hhi => ⟨hk, hlo, hhi⟩)
      (s := .start d) (Scanning.start d _ iterator rfl)
    have hdone := hscan.completed hd fun o _ t _ hc => ⟨.inr hc.1, hc.2⟩
    dsimp only
    split_ifs with hno
    · rw [eq_nil_of_length_eq_zero hno.1, foldl_nil, Sweep.done_of_not_del (by simpa using hno.2)] at hdone
      exact hdone
    · exact hdone

/-- A scan that marked nothing changed nothing. -/
theorem Scanning.unchanged {perKey : Bool} (h : Scanning d C minTime maxTime perKey M D s)
    (hdel : s.it.del = false) : s.d = d := by
  rw [h.same, h.sweeping.ro_eq, withMarks_eq_self (h.sweeping.del hdel)]

theorem deleteRange_unchanged (hd : d.Wf)
    (h : (d.deleteRange keys minTime maxTime).1 = false) : (d.deleteRange keys minTime maxTime).2 = d := by
  rw [deleteRange] at h ⊢
  split_ifs at h ⊢ with hwhole hout
  · exact delete_unchanged hd h
  · rfl
  · obtain ⟨M, hscan⟩ := foldl_rangeKey hd (C := fun k t => k ∈ keys ∧ minTime ≤ t ∧ t ≤ maxTime)
      (fun k hk t hlo hhi => ⟨hk, hlo, hhi⟩)
      (s := .start d) (Scanning.start d _ iterator rfl)
    dsimp only at h ⊢
    split_ifs at h ⊢ with hno
    exact hscan.unchanged (by simpa using hno.2)

/-! ### DeletePrefix -/

variable {pred : Option (Bytes → Bool)} {isPartial : Bool} {pre : Bytes}

/-- One key of the prefix loop. -/
theorem Scanning.prefixKey
    (h : Scanning d C minTime maxTime pred.isSome M D s) (hd : d.Wf) (hi : d.ro.offsets[s.it.i]? = some s.offset)
    (hwhole : isPartial = false → minTime ≤ d.minTime ∧ maxTime ≥ d.maxTime)
    (hC : pred.all (fun m => m (keyAt d.b s.offset)) = true →
      ∀ t, minTime ≤ t → t ≤ maxTime → C (keyAt d.b s.offset) t) :
    ∃ M', Scanning d C minTime maxTime pred.isSome M'
      (fun o => D o ∨ o = s.offset ∧ pred.all (fun m => m (keyAt d.b o)) = true)
      (s.prefixKey isPartial pred minTime maxTime (keyAt d.b s.offset)) ∧
      (s.prefixKey isPartial pred minTime maxTime (keyAt d.b s.offset)).it.i = s.it.i ∧
      (s.prefixKey isPartial pred minTime maxTime (keyAt d.b s.offset)).it.first = s.it.first := by
  rw [Sweep.prefixKey]
  split_ifs with hpred hpart
  · refine ⟨M, h.mono fun o _ hD => hD.resolve_right ?_, rfl, rfl⟩
    rintro ⟨rfl, hall⟩
    cases pred with
    | none => simp at hpred
    | some m =>
      simp only [Option.any_some, Option.all_some, Bool.not_eq_true'] at hpred hall
      rw [hpred] at hall
      cases hall
  all_goals
    have hall : pred.all (fun m => m (keyAt d.b s.offset)) = true := by
      cases pred with
      | none => rfl
      | some m => simpa using hpred
  · have hw := hwhole (by simpa using hpart)
    refine ⟨_, (h.delete hd hi (fun t ht => .inr ?_) _).mono fun o _ hD => hD.imp_right (·.1), rfl, rfl⟩
    have := hd.bounds _ (mem_of_getElem? hi) t ht
    exact hC hall t (by omega) (by omega)
  · obtain ⟨M', hM'⟩ := h.rangeAt hd hi (hC hall)
    refine ⟨M', hM'.mono fun o _ hD => hD.imp_right (·.1), ?_⟩
    rw [Sweep.rangeAt]
    split
    · exact ⟨rfl, rfl⟩
    · exact ⟨rfl, rfl⟩
    · split_ifs <;> exact ⟨rfl, rfl⟩

/-- From `pre` on, the keys with the prefix come first. -/
theorem prefix_of_between : ∀ {pre k x : Bytes}, pre ≤ k → k < pre ++ x → pre <+: k
  | [], k, _, _, _ => nil_prefix
  | a :: pre, [], _, hle, _ => absurd hle (not_le.mpr (nil_lt_cons _ _))
  | a :: pre, c :: k, x, hle, hlt => by
    rw [cons_append, cons_lt_cons_iff] at hlt
    rcases eq_or_lt_of_le hle with heq | hle
    · exact heq ▸ prefix_refl _
    · rcases cons_lt_cons_iff.mp hle with hac | ⟨rfl, hle'⟩
      · rcases hlt with hca | ⟨rfl, -⟩
        · exact absurd hac (lt_asymm hca)
        · exact absurd hac (lt_irrefl _)
      · have hlt := (hlt.resolve_left (lt_irrefl _)).2
        exact cons_prefix_cons.mpr ⟨rfl, prefix_of_between hle'.le hlt⟩

/-- The prefix loop deals with the keys from the one pointed at on that have the prefix; they stand
    together, so the others are not reached. -/
theorem Scanning.prefixLoop (hd : d.Wf)
    (hwhole : isPartial = false → minTime ≤ d.minTime ∧ maxTime ≥ d.maxTime)
    (hC : ∀ k, pre <+: k → pred.all (fun m => m k) = true → ∀ t, minTime ≤ t → t ≤ maxTime → C k t)
    (fuel : ℕ) (h : Scanning d C minTime maxTime pred.isSome M D s)
    (hlt : s.it.i < d.ro.offsets.length) (hf : d.ro.offsets.length ≤ fuel + s.it.i) (hfirst : s.it.first = false)
    (hge : ∀ k ∈ (d.ro.keys (keyAt d.b)).drop s.it.i, pre ≤ k) :
    ∃ M', Scanning d C minTime maxTime pred.isSome M'
      (fun o => D o ∨ o ∈ d.ro.offsets.drop s.it.i ∧ pre <+: keyAt d.b o ∧
        pred.all (fun m => m (keyAt d.b o)) = true)
      (s.prefixLoop pre isPartial pred minTime maxTime fuel) := by
  induction fuel generalizing s M D with
  | zero => omega
  | succ fuel ih =>
    obtain ⟨o, hi⟩ : ∃ o, d.ro.offsets[s.it.i]? = some o := ⟨_, getElem?_eq_getElem hlt⟩
    have hoff : s.offset = o := by
      rw [Sweep.offset, h.sweeping.ro_eq, offset_withMarks hd.ro.small hi]
    subst hoff
    have hdrop : d.ro.offsets.drop s.it.i = s.offset :: d.ro.offsets.drop (s.it.i + 1) := by
      exact drop_of_getElem? hi
    have hkeys : (d.ro.keys (keyAt d.b)).drop s.it.i =
        keyAt d.b s.offset :: (d.ro.keys (keyAt d.b)).drop (s.it.i + 1) := by
      rw [keys_eq hd.ro.small, ← map_drop, hdrop, map_cons, map_drop]
    rw [Sweep.prefixLoop, h.sweeping.b_eq]
    by_cases hpre : pre <+: keyAt d.b s.offset
    · rw [if_pos (by simpa using hpre)]
      obtain ⟨M₁, h₁, hi₁, hfirst₁⟩ := h.prefixKey hd hi hwhole (hC _ hpre)
      generalize s.prefixKey isPartial pred minTime maxTime (keyAt d.b s.offset) = s₁ at h₁ hi₁ hfirst₁
      have hlen : s₁.d.ro.offsets.length = d.ro.offsets.length := by
        rw [h₁.sweeping.ro_eq, withMarks, length_map]
      obtain ⟨hmore, hi₂, hfirst₂⟩ := next_of_not_first (r := s₁.d.ro) (hfirst₁.trans hfirst)
        (by rw [hlen, hi₁]; exact hlt)
      rw [hlen, hi₁] at hmore
      have h₂ : Scanning d C minTime maxTime pred.isSome M₁ _ { s₁ with it := (s₁.it.next s₁.d.ro).2 } :=
        ⟨(next_del s₁.it s₁.d.ro).symm ▸ h₁.sweeping, h₁.same, h₁.pending, h₁.met⟩
      by_cases hnext : (s₁.it.next s₁.d.ro).1 = true
      · rw [if_pos hnext]
        have hlt₂ := hmore.mp hnext
        obtain ⟨M', h'⟩ := ih h₂ (by rw [hi₂, hi₁]; exact hlt₂)
          (by rw [hi₂, hi₁]; omega) hfirst₂ (fun k hk => hge k (by
            rw [hi₂, hi₁] at hk
            rw [hkeys]
            exact mem_cons_of_mem _ hk))
        refine ⟨M', h'.mono fun o _ hD => ?_⟩
        rw [hi₂, hi₁]
        rcases hD with hD | ⟨hmem, hpo, hall⟩
        · exact .inl (.inl hD)
        · rw [hdrop] at hmem
          rcases mem_cons.mp hmem with rfl | hmem
          · exact .inl (.inr ⟨rfl, hall⟩)
          · exact .inr ⟨hmem, hpo, hall⟩
      · rw [if_neg hnext]
        refine ⟨M₁, h₂.mono fun o _ hD => ?_⟩
        rcases hD with hD | ⟨hmem, -, hall⟩
        · exact .inl hD
        refine .inr ⟨?_, hall⟩
        rw [hdrop, drop_of_length_le (by have := mt hmore.mpr hnext; omega)] at hmem
        exact mem_singleton.mp hmem
    · -- all further keys are above this one
      rw [if_neg (by simpa using hpre)]
      refine ⟨M, h.mono fun o _ hD => hD.resolve_right ?_⟩
      rintro ⟨hmem, ⟨x, hx⟩, -⟩
      refine hpre (prefix_of_between (x := x) (hge _ (by rw [hkeys]; exact mem_cons_self)) ?_)
      rw [hdrop] at hmem
      rcases mem_cons.mp hmem with rfl | hmem
      · exact absurd ⟨x, hx⟩ hpre
      · have hs := hd.ro.sorted.sublist (drop_sublist s.it.i _)
        rw [hkeys] at hs
        rw [hx]
        refine (pairwise_cons.mp hs).1 _ ?_
        rw [keys_eq hd.ro.small, ← map_drop]
        exact mem_map_of_mem hmem

/-- The points that `DeletePrefix` covers. -/
def PrefixCovers (pre : Bytes) (minTime maxTime : ℤ) (pred : Option (Bytes → Bool)) (k : Bytes) (t : ℤ) : Prop :=
  pre <+: k ∧ pred.all (fun m => m k) = true ∧ minTime ≤ t ∧ t ≤ maxTime

/-- The scan of `DeletePrefix` deals with every key that has the prefix and matches. -/
theorem scanPrefix_spec (hd : d.Wf) (pre : Bytes) (minTime maxTime : ℤ) (pred : Option (Bytes → Bool)) :
    ∃ M, Scanning d (PrefixCovers pre minTime maxTime pred) minTime maxTime pred.isSome M
      (fun o => pre <+: keyAt d.b o ∧ pred.all (fun m => m (keyAt d.b o)) = true)
      (d.scanPrefix pre minTime maxTime pred) := by
  obtain ⟨exact, ok, it, hs, hfirst, hdel, hlb, hok, -⟩ := seek_spec hd.ro.table hd.ro.sorted iterator pre
  have hstart : Scanning d (PrefixCovers pre minTime maxTime pred) minTime maxTime pred.isSome (fun _ => false)
      (fun _ => False) { Sweep.start d with it := it } := Scanning.start d _ it hdel
  -- a key with the prefix is not before the position found
  have hmem : ∀ o ∈ d.ro.offsets, pre <+: keyAt d.b o → o ∈ d.ro.offsets.drop it.i := by
    intro o ho hpo
    rw [← take_append_drop it.i d.ro.offsets] at ho
    refine (mem_append.mp ho).resolve_left fun ho => ?_
    have hlt := hlb.2.1 (keyAt d.b o) (by
      rw [keys_eq hd.ro.small, ← map_take]
      exact mem_map_of_mem ho)
    exact hpo.le hlt
  rw [scanPrefix, hs]
  cases ok with
  | false =>
    refine ⟨_, hstart.mono fun o ho hD => ?_⟩
    have hnot := hmem o ho hD.1
    rw [drop_of_length_le (by simpa using hok)] at hnot
    cases hnot
  | true =>
    have hwhole : (!(decide (minTime ≤ d.minTime) && decide (maxTime ≥ d.maxTime))) = false →
        minTime ≤ d.minTime ∧ maxTime ≥ d.maxTime := fun hp => by simpa using hp
    obtain ⟨M, hM⟩ := Scanning.prefixLoop hd hwhole
      (fun k hk hp t hlo hhi => ⟨hk, hp, hlo, hhi⟩) d.ro.offsets.length hstart
      (hok.mp rfl) (by omega) hfirst hlb.2.2
    exact ⟨M, hM.mono fun o ho hD => .inr ⟨hmem o ho hD.1, hD.1, hD.2⟩⟩

theorem tombstoned_search_append {p : PrefixTree} {k : Bytes} {v : TimeRange} {t : ℤ} :
    Tombstoned ((p.append pre v).search k []) t ↔ Tombstoned (p.search k []) t ∨ pre <+: k ∧ v.Covers t := by
  simp only [Tombstoned, PrefixTree.mem_search_append _ pre]
  constructor
  · rintro ⟨r, hr | ⟨rfl, hk⟩, ht⟩
    · exact .inl ⟨r, hr, ht⟩
    · exact .inr ⟨hk, ht⟩
  · rintro (⟨r, hr, ht⟩ | ⟨hk, ht⟩)
    · exact ⟨r, .inl hr, ht⟩
    · exact ⟨v, .inr ⟨rfl, hk⟩, ht⟩

/-- Adding a range of covered points under a prefix. -/
theorem Sweeping.append {del : Bool} (h : Sweeping d C M del d') (pre : Bytes) (minTime maxTime : ℤ)
    (hC : ∀ k, pre <+: k → ∀ t, minTime ≤ t → t ≤ maxTime → C k t) :
    Sweeping d C M del { d' with
      prefixTombstones := d'.prefixTombstones.append pre { min := minTime, max := maxTime } } := by
  refine h.hide (A := fun x t => pre <+: keyAt d.b x ∧ minTime ≤ t ∧ t ≤ maxTime) rfl (fun x t => ?_)
    fun x t ⟨hpre, hlo, hhi⟩ => hC _ hpre t hlo hhi
  rw [Hides, Hides, tombstoned_search_append, h.b_eq, or_right_comm]
  rfl

theorem deletePrefix_completed (hd : d.Wf) (pre : Bytes) (minTime maxTime : ℤ) (pred : Option (Bytes → Bool)) :
    Completed d (PrefixCovers pre minTime maxTime pred) (d.deletePrefix pre minTime maxTime pred).2.2 := by
  rw [deletePrefix]
  by_cases hout : minTime > d.maxTime ∨ maxTime < d.minTime
  · rw [if_pos hout]
    refine Completed.refl hd fun o ho t ht hc => ?_
    have := hd.bounds o ho t ht
    have := hc.2.2
    omega
  rw [if_neg hout]
  obtain ⟨M, hscan⟩ := scanPrefix_spec hd pre minTime maxTime pred
  generalize d.scanPrefix pre minTime maxTime pred = s at hscan
  dsimp only
  cases pred with
  | some m =>
    have hdone := hscan.completed hd fun o _ t _ hc => ⟨⟨hc.1, hc.2.1⟩, hc.2.2⟩
    by_cases hno : !s.mustTrack ∧ s.pending.length = 0 ∧ !s.it.del
    · rw [if_pos hno]
      rwa [eq_nil_of_length_eq_zero hno.2.1, foldl_nil, Sweep.done_of_not_del (by simpa using hno.2.2)]
        at hdone
    · rw [if_neg hno]
      exact hdone
  | none =>
    have hmet : ∀ o ∈ d.ro.offsets, M o = false → ∀ t, InEntries d.b o t →
        PrefixCovers pre minTime maxTime none (keyAt d.b o) t → s.mustTrack = true := by
      intro o ho hM t ht hc
      rcases hscan.met o ho ⟨hc.1, hc.2.1⟩ with hm | hm | hm
      · rw [hM] at hm; cases hm
      · simpa using hm
      · exact absurd hc.2.2 (hm t ht)
    cases hmt : s.mustTrack with
    | false =>
      have hdone := hscan.sweeping.completed hd ⟨rfl, rfl⟩ fun o ho hM t ht hc => by
        rw [hmet o ho hM t ht hc] at hmt
        cases hmt
      by_cases hno : !false ∧ s.pending.length = 0 ∧ !s.it.del
      · rw [if_pos hno]
        rwa [Sweep.done_of_not_del (by simpa using hno.2.2)] at hdone
      · rw [if_neg hno]
        exact hdone
    | true =>
      rw [if_neg (by simp), if_pos rfl]
      have happ := hscan.sweeping.append pre minTime maxTime
        fun k hk t hlo hhi => ⟨hk, rfl, hlo, hhi⟩
      refine happ.completed hd ⟨rfl, rfl⟩ fun o ho hM t ht hc => .inl ?_
      refine tombstoned_search_append.mpr (.inr ⟨?_, hc.2.2⟩)
      have hb := hscan.sweeping.b_eq
      show pre <+: keyAt s.d.b o
      rw [hb]
      exact hc.1

theorem deletePrefix_unchanged (hd : d.Wf)
    (h : (d.deletePrefix pre minTime maxTime pred).1 = false) : (d.deletePrefix pre minTime maxTime pred).2.2 = d := by
  obtain ⟨M, hscan⟩ := scanPrefix_spec hd pre minTime maxTime pred
  rw [deletePrefix] at h ⊢
  by_cases hout : minTime > d.maxTime ∨ maxTime < d.minTime
  · rw [if_pos hout]
  rw [if_neg hout] at h ⊢
  generalize d.scanPrefix pre minTime maxTime pred = s at hscan h
  by_cases hno : !s.mustTrack ∧ s.pending.length = 0 ∧ !s.it.del
  · rw [if_pos hno]
    exact hscan.unchanged (by simpa using hno.2.2)
  · rw [if_neg hno] at h
    cases pred <;> cases h

end Calls

end InfluxDB.Tsm
