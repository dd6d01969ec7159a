import InfluxDB.Lib.Fallible
import InfluxDB.Tsm.Reader

/-! Deletes through a reader survive reopening the file.

    The live index is always the opened one with some of the flushed tombstones applied, and outside a batch
    with all of them; `Live` says so of every state of a run. Replaying the file applies all of them, in
    batches of equal bounds. The tombstones that the key filter drops cover no key of the file. -/

namespace InfluxDB.Tsm
open Lib List TombstoneLog IndirectIndex Tombstoner Replay Except

/-! ### Points -/

namespace IndirectIndex
variable {d : IndirectIndex} {k : Bytes} {t : ℤ}

/-- The key is contained, the time is inside one of its entries and in no range of `TombstoneRange`. -/
def Shows (d : IndirectIndex) (key : Bytes) (t : ℤ) : Prop :=
  d.Visible key t ∧ ∃ es, d.readEntries key = .ok es ∧ ∃ e ∈ es, e.contains t = true

/-- `ReadEntries` of a key of the index reads its record. -/
theorem Wf.readEntries (h : d.Wf) {o : ℕ} (ho : o ∈ d.ro.offsets) :
    ∃ r : KeyRecord, r.At d.b o ∧ r.Encodable ∧ d.readEntries (keyAt d.b o) = .ok r.entries := by
  obtain ⟨exact, ok, it, hs, -, -, hlb, -, hex⟩ :=
    seek_spec h.ro.table h.ro.sorted ReaderOffsets.iterator (keyAt d.b o)
  obtain rfl : exact = true := hex.mpr ((hlb.mem_iff h.ro.sorted).mp ((mem_keys h).mpr ⟨o, ho, rfl⟩))
  obtain ⟨hoff, hkey⟩ := offset_of_getElem? h (hex.mp rfl)
  have heq := h.keyAt_inj (mem_of_getElem? hoff) ho hkey
  obtain ⟨r, hat, he, -⟩ := h.record o ho
  refine ⟨r, hat, he, ?_⟩
  rw [IndirectIndex.readEntries, hs]
  show Tsm.readEntries (access d.b (entryOffset d.b (it.offset d.ro)) 0) = _
  rw [heq, hat.readEntries he]

theorem shows_iff (h : d.Wf) :
    d.Shows k t ↔ ∃ o ∈ d.ro.offsets, keyAt d.b o = k ∧ ¬ d.Hides o t ∧ InEntries d.b o t := by
  rw [Shows, visible_iff h]
  constructor
  · rintro ⟨⟨o, ho, rfl, hh⟩, es, hes, hin⟩
    obtain ⟨r, hat, he, hread⟩ := h.readEntries ho
    obtain rfl : r.entries = es := ok.inj (hread.symm.trans hes)
    exact ⟨o, ho, rfl, hh, (inEntries_iff hat he).mpr hin⟩
  · rintro ⟨o, ho, rfl, hh, hin⟩
    obtain ⟨r, hat, he, hread⟩ := h.readEntries ho
    exact ⟨⟨o, ho, rfl, hh⟩, r.entries, hread, (inEntries_iff hat he).mp hin⟩

theorem shows_iff_visible (h : d.Wf) (hent : ∀ o ∈ d.ro.offsets, keyAt d.b o = k → InEntries d.b o t) :
    d.Shows k t ↔ d.Visible k t := by
  rw [shows_iff h, visible_iff h]
  constructor
  · rintro ⟨o, ho, hk, hh, -⟩
    exact ⟨o, ho, hk, hh⟩
  · rintro ⟨o, ho, hk, hh⟩
    exact ⟨o, ho, hk, hh, hent o ho hk⟩

end IndirectIndex

/-- Exactly the points covered are gone. -/
theorem Completed.shows_iff {d d' : IndirectIndex} {C : Bytes → ℤ → Prop} (h : Completed d C d') (hd : d.Wf)
    (k : Bytes) (t : ℤ) : d'.Shows k t ↔ d.Shows k t ∧ ¬ C k t := by
  have hb : d'.b = d.b := by rw [h.same]
  by_cases hent : ∀ o ∈ d.ro.offsets, keyAt d.b o = k → InEntries d.b o t
  · have hent' : ∀ o ∈ d'.ro.offsets, keyAt d'.b o = k → InEntries d'.b o t :=
      fun o ho hk => hb ▸ hent o (h.offsets o ho) (hb ▸ hk)
    rw [shows_iff_visible h.wf hent', shows_iff_visible hd hent, h.visible k t hent]
  · -- the one offset of the key has no entry there
    push Not at hent
    obtain ⟨o, ho, hk, hno⟩ := hent
    rw [IndirectIndex.shows_iff h.wf, IndirectIndex.shows_iff hd]
    refine iff_of_false ?_ ?_
    · rintro ⟨o', ho', hk', -, hin⟩
      rw [hb] at hk' hin
      exact hno (hd.keyAt_inj (h.offsets o' ho') ho (hk'.trans hk.symm) ▸ hin)
    · rintro ⟨⟨o', ho', hk', -, hin⟩, -⟩
      exact hno (hd.keyAt_inj ho' ho (hk'.trans hk.symm) ▸ hin)

theorem IndirectIndex.Wf.isInt64 {d : IndirectIndex} (h : d.Wf) {o : ℕ} (ho : o ∈ d.ro.offsets) {t : ℤ}
    (ht : InEntries d.b o t) : minInt64 ≤ t ∧ t ≤ maxInt64 := by
  obtain ⟨r, hat, he, -⟩ := h.record o ho
  obtain ⟨e, hmem, hc⟩ := (inEntries_iff hat he).mp ht
  have hmin := (he.entries e hmem).minTime
  have hmax := (he.entries e hmem).maxTime
  simp only [IndexEntry.contains, Bool.and_eq_true, decide_eq_true_eq] at hc
  unfold IsInt64 at hmin hmax
  omega

/-! ### Replaying tombstones -/

section Replay
variable {π : Type} {c : PredicateCodec π} {d : IndirectIndex} {ts : Tombstone} {tss : List Tombstone} {s : Replay}
  {k : Bytes} {t : ℤ}

/-- The tombstone can be replayed. -/
def Tombstone.Decodes (c : PredicateCodec π) (ts : Tombstone) : Prop :=
  ts.isPrefix = true → ∃ pred, c.unmarshalPredicate ts.predicate = .ok pred

/-- The points that a tombstone deletes when it is replayed. -/
def Tombstone.Covers (c : PredicateCodec π) (ts : Tombstone) (k : Bytes) (t : ℤ) : Prop :=
  if ts.isPrefix then
    ∃ pred, c.unmarshalPredicate ts.predicate = .ok pred ∧
      PrefixCovers ts.key ts.min ts.max (pred.map c.isMatch) k t
  else k = ts.key ∧ ts.min ≤ t ∧ t ≤ ts.max

def CoveredBy (c : PredicateCodec π) (tss : List Tombstone) (k : Bytes) (t : ℤ) : Prop :=
  ∃ ts ∈ tss, ts.Covers c k t

theorem coveredBy_append {tss' : List Tombstone} :
    CoveredBy c (tss ++ tss') k t ↔ CoveredBy c tss k t ∨ CoveredBy c tss' k t := by
  simp only [CoveredBy, mem_append, or_and_right, exists_or]

theorem coveredBy_singleton : CoveredBy c [ts] k t ↔ ts.Covers c k t := by
  simp [CoveredBy]

theorem coveredBy_rangeTombstones {keys : List Bytes} {min max : ℤ} :
    CoveredBy c (rangeTombstones keys min max) k t ↔ k ∈ keys ∧ min ≤ t ∧ t ≤ max := by
  simp [CoveredBy, rangeTombstones, Tombstone.Covers]

/-- After the tombstones read, the index lacks what they cover but for the keys of the batch, which are to
    be deleted with the bounds of the last tombstone. -/
structure Replaying (c : PredicateCodec π) (d : IndirectIndex) (tss : List Tombstone) (s : Replay) : Prop where
  last : s.cur = s.prev
  deleted : ∃ F, Completed d F s.index ∧
    ∀ k t, CoveredBy c tss k t ↔ F k t ∨ k ∈ s.batch ∧ s.prev.min ≤ t ∧ t ≤ s.prev.max

theorem Replaying.start (hd : d.Wf) : Replaying c d [] (.start d) :=
  ⟨rfl, fun _ _ => False, Completed.refl hd (by simp), by simp [CoveredBy, Replay.start]⟩

theorem completed_deleteBatch {F : Bytes → ℤ → Prop} (h : Completed d F s.index) (ts : Tombstone) :
    Completed d (fun k t => F k t ∨ k ∈ s.batch ∧ ts.min ≤ t ∧ t ≤ ts.max) (s.deleteBatch ts).index :=
  h.trans (deleteRange_completed h.wf s.batch ts.min ts.max)

section

variable (h : Replaying c d tss s)
include h

/-- A tombstone for a key joins the batch, which first goes when its bounds are others. -/
theorem Replaying.step_key (hts : ts.isPrefix = false) :
    ∃ s', s.step c ts = .ok s' ∧ Replaying c d (tss ++ [ts]) s' := by
  obtain ⟨hlast, F, hF, hcov⟩ := h
  have hcovers : ∀ k t, CoveredBy c (tss ++ [ts]) k t ↔ CoveredBy c tss k t ∨ k = ts.key ∧
      ts.min ≤ t ∧ t ≤ ts.max :=
    fun k t => by rw [coveredBy_append, coveredBy_singleton, Tombstone.Covers, if_neg (by simp [hts])]
  rw [Replay.step, if_neg (by simp [hts])]
  dsimp only
  -- the batch is empty or has the bounds of the new tombstone
  obtain ⟨s₁, hs₁, hprev, F₁, hF₁, hcov₁, hbounds⟩ : ∃ s₁ : Replay,
      (if s.batch.length > 0 ∧ (s.prev.min ≠ ts.min ∨ s.prev.max ≠ ts.max)
        then deleteBatch { s with cur := ts } s.prev else { s with cur := ts }) = s₁ ∧ s₁.prev = s.prev ∧
      ∃ F₁, Completed d F₁ s₁.index ∧
        (∀ k t, CoveredBy c tss k t ↔ F₁ k t ∨ k ∈ s₁.batch ∧ ts.min ≤ t ∧ t ≤ ts.max) ∧
        (s₁.batch = [] ∨ s.prev.min = ts.min ∧ s.prev.max = ts.max) := by
    refine ⟨_, rfl, ?_⟩
    by_cases hflush : s.batch.length > 0 ∧ (s.prev.min ≠ ts.min ∨ s.prev.max ≠ ts.max)
    · rw [if_pos hflush]
      refine ⟨rfl, _, completed_deleteBatch (s := { s with cur := ts }) hF s.prev, fun k t => ?_, .inl rfl⟩
      simp [hcov, deleteBatch]
    · rw [if_neg hflush]
      rcases Nat.eq_zero_or_pos s.batch.length with hnil | hpos
      · have hnil := eq_nil_of_length_eq_zero hnil
        exact ⟨rfl, F, hF, fun k t => by simp [hcov, hnil], .inl hnil⟩
      · have hb : s.prev.min = ts.min ∧ s.prev.max = ts.max := by
          by_contra hne
          exact hflush ⟨hpos, by rwa [← not_and_or]⟩
        exact ⟨rfl, F, hF, fun k t => by rw [hcov, hb.1, hb.2], .inr hb⟩
  rw [hs₁, hprev]
  have hall : ∀ k t, CoveredBy c (tss ++ [ts]) k t ↔ F₁ k t ∨ k ∈ s₁.batch ++ [ts.key] ∧
      ts.min ≤ t ∧ t ≤ ts.max :=
    fun k t => by rw [hcovers, hcov₁, mem_append, mem_singleton, or_and_right, or_assoc]
  by_cases hfull : (s₁.batch ++ [ts.key]).length ≥ 4096
  · rw [if_pos hfull]
    have hb := hbounds.resolve_left fun hnil => by simp [hnil] at hfull
    refine ⟨_, rfl, ?_, _, completed_deleteBatch (s := { s₁ with batch := s₁.batch ++ [ts.key] }) hF₁ s.prev,
      fun k t => ?_⟩
    · subst hs₁
      split_ifs <;> rfl
    · rw [hall, hb.1, hb.2]
      simp [deleteBatch]
  · rw [if_neg hfull]
    refine ⟨_, rfl, ?_, F₁, hF₁, hall⟩
    subst hs₁
    split_ifs <;> rfl

theorem Replaying.step (hts : ts.Decodes c) : ∃ s', s.step c ts = .ok s' ∧ Replaying c d (tss ++ [ts]) s' := by
  cases hp : ts.isPrefix with
  | false => exact h.step_key hp
  | true =>
    obtain ⟨pred, hpred⟩ := hts hp
    obtain ⟨hlast, F, hF, hcov⟩ := h
    rw [Replay.step, if_pos hp, hpred]
    refine ⟨_, rfl, hlast, _, hF.trans (deletePrefix_completed hF.wf ts.key ts.min ts.max (pred.map c.isMatch)),
      fun k t => ?_⟩
    rw [coveredBy_append, coveredBy_singleton, hcov, Tombstone.Covers, if_pos hp, hpred, or_right_comm]
    simp

theorem Replaying.foldlM {tss' : List Tombstone} (hts : ∀ ts ∈ tss', ts.Decodes c) :
    ∃ s', tss'.foldlM (Replay.step c) s = .ok s' ∧ Replaying c d (tss ++ tss') s' := by
  induction tss' generalizing tss s with
  | nil => exact ⟨s, rfl, by rwa [append_nil]⟩
  | cons ts tss' ih =>
    obtain ⟨s₁, hs₁, h₁⟩ := h.step (hts ts mem_cons_self)
    obtain ⟨s', hs', h'⟩ := ih h₁ (forall_mem_cons.mp hts).2
    refine ⟨s', ?_, by rwa [append_assoc] at h'⟩
    rw [foldlM_cons, hs₁]
    exact hs'

theorem Replaying.finish (hd : d.Wf) : Completed d (CoveredBy c tss) s.finish := by
  obtain ⟨hlast, F, hF, hcov⟩ := h
  rw [Replay.finish]
  split_ifs with hpos
  · exact (completed_deleteBatch hF s.cur).congr hd fun o _ t _ => by rw [hcov, hlast]
  · have hnil : s.batch = [] := eq_nil_of_length_eq_zero (by omega)
    exact hF.congr hd fun o _ t _ => by simp [hcov, hnil]

end

end Replay

/-- `applyTombstones` deletes what the tombstones of its walk cover. -/
theorem applyTombstones_eq {π : Type} {c : PredicateCodec π} {g : Gzip} {r : TSMReader} {t' : Tombstoner}
    {tss : List Tombstone} (hr : r.index.Wf)
    (hwalk : ∀ s, r.tombstoner.walk (Replay.step c) g s = (tss.foldlM (Replay.step c) s).map (·, t'))
    (hts : ∀ ts ∈ tss, ts.Decodes c) :
    ∃ d', r.applyTombstones c g = .ok { index := d', tombstoner := t' } ∧
      Completed r.index (CoveredBy c tss) d' := by
  obtain ⟨s, hs, h⟩ := (Replaying.start (c := c) hr).foldlM hts
  refine ⟨s.finish, ?_, h.finish hr⟩
  rw [TSMReader.applyTombstones, hwalk, hs]
  rfl

/-- What is recorded for a predicate is read back as one that matches the same keys. -/
theorem PredicateCodec.Lawful.unmarshal_predData {π : Type} {c : PredicateCodec π} (hc : c.Lawful) {pred : Option π}
    {data : Bytes} (h : c.predData pred = .ok data) : data.length < 2 ^ 64 ∧
      ∃ pred', c.unmarshalPredicate data = .ok pred' ∧ pred'.map c.isMatch = pred.map c.isMatch := by
  cases pred with
  | none =>
    cases h
    exact ⟨by simp, none, rfl, rfl⟩
  | some p =>
    rw [predData, marshal] at h
    obtain ⟨b, hb, h⟩ := bind_eq_ok.mp h
    cases h
    obtain ⟨p', hdec, hmatch⟩ := hc.decode_encode p b hb
    have := hc.length_encode p b hb
    refine ⟨by rw [length_cons]; omega, some p', ?_, by rw [Option.map_some, Option.map_some, hmatch]⟩
    rw [unmarshalPredicate, if_neg (not_not.mpr rfl), hdec]
    rfl

/-! ### Recording tombstones -/

section Record
variable {g : Gzip} {ms₁ ms₂ : List (List Tombstone)} {l : TombstoneLog} {t t' : Tombstoner} {min max : ℤ}
  {keys : List Bytes}

theorem Tombstoner.write_ok {ts : Tombstone} (h : t.write ts = .ok t') :
    ts.key.length ≤ maxTombstoneKeyLen ∧ t'.passes = t.passes := by
  rw [write, writeTombstoneV4] at h
  by_cases hlen : ts.key.length > maxTombstoneKeyLen
  · rw [if_pos hlen] at h
    cases h
  · rw [if_neg hlen] at h
    cases h
    exact ⟨by omega, rfl⟩

/-- Keys that were written are not too long. -/
theorem keys_of_foldlM_write (h : keys.foldlM (fun (t : Tombstoner) k =>
      if t.passes k then t.write { key := k, isPrefix := false, min := min, max := max, predicate := [] }
      else .ok t) t = .ok t') : ∀ k ∈ keys.filter t.passes, k.length ≤ maxTombstoneKeyLen := by
  induction keys generalizing t with
  | nil => simp
  | cons k keys ih =>
    rw [foldlM_cons] at h
    cases hk : t.passes k with
    | false =>
      rw [hk, if_neg (by simp)] at h
      rw [filter_cons_of_neg (by simp [hk])]
      exact ih h
    | true =>
      rw [hk, if_pos rfl] at h
      obtain ⟨t₁, hw, h⟩ := bind_eq_ok.mp h
      obtain ⟨hlen, hp⟩ := write_ok hw
      rw [filter_cons_of_pos hk, forall_mem_cons]
      exact ⟨hlen, hp ▸ ih h⟩

/-- An `AddRange` that succeeds has added the tombstones of the keys that pass. -/
theorem Logged.addRange_ok (h : Logged g ms₁ ms₂ l t) (hmin : IsInt64 min)
    (hmax : IsInt64 max) (hok : t.addRange keys min max = .ok t') :
    Logged g ms₁ ms₂ { l with pending := l.pending ++ rangeTombstones (keys.filter t.passes) min max } t' ∧
      t'.filterFn = t.filterFn := by
  have hlen : ∀ k ∈ keys.filter t.passes, k.length ≤ maxTombstoneKeyLen := by
    have hfilter : keys.filter t.passes = (keys.dropWhile fun k => !t.passes k).filter t.passes :=
      filter_eq_filter_dropWhile t.passes keys
    rw [hfilter]
    rw [Tombstoner.addRange] at hok
    split_ifs at hok with hnil hpath
    · rw [eq_nil_of_length_eq_zero hnil]
      simp
    · exact absurd hpath h.path
    · obtain ⟨t₁, hprep, -, -, hf₁⟩ := h.prepareLatest
      rw [hprep] at hok
      have hp : t₁.passes = t.passes := by funext k; rw [passes, hf₁]; rfl
      have hlen := keys_of_foldlM_write (t := t₁) hok
      rwa [hp] at hlen
  obtain ⟨t₁, hok₁, h₁⟩ := h.addRange keys min max fun ts hts => by
    obtain ⟨k, hk, rfl⟩ := mem_map.mp hts
    exact ⟨hlen k hk, hmin, hmax, by simp⟩
  obtain rfl : t₁ = t' := ok.inj (hok₁.symm.trans hok)
  exact h₁

theorem Logged.addPrefixRange_ok (h : Logged g ms₁ ms₂ l t) {key predicate : Bytes} (hmin : IsInt64 min)
    (hmax : IsInt64 max) (hpred : predicate.length < 2 ^ 64) (hok : t.addPrefixRange key min max predicate = .ok t') :
    Logged g ms₁ ms₂ { l with pending := l.pending ++
        [{ key := key, isPrefix := true, min := min, max := max, predicate := predicate }] } t' ∧
      t'.filterFn = t.filterFn := by
  have hlen : key.length ≤ maxTombstoneKeyLen := by
    obtain ⟨t₁, hprep, -⟩ := h.prepareLatest
    rw [Tombstoner.addPrefixRange, if_neg h.path, hprep] at hok
    exact (write_ok hok).1
  obtain ⟨t₁, hok₁, h₁⟩ := h.addPrefixRange key predicate min max ⟨hlen, hmin, hmax, hpred⟩
  obtain rfl : t₁ = t' := ok.inj (hok₁.symm.trans hok)
  exact h₁

end Record

/-! ### The live reader -/

/-- Whether a batch is open after a call. -/
def ReaderCall.batchOpen {π : Type} (isOpen : Bool) : ReaderCall π → Bool
  | .batchDeleteRange .. => true
  | .commit => false
  | _ => isOpen

/-- The bounds are within their machine type. -/
def ReaderCall.Valid {π : Type} : ReaderCall π → Prop
  | .deleteRange _ minTime maxTime | .deletePrefix _ minTime maxTime _ | .batchDeleteRange _ minTime maxTime =>
    IsInt64 minTime ∧ IsInt64 maxTime
  | _ => True

/-- The index a file is opened with: all its keys pass its filter. -/
structure Base (d : IndirectIndex) : Prop where
  wf : d.Wf
  passes : ∀ o ∈ d.ro.offsets, d.maybeContainsKey (keyAt d.b o) = true

/-- The reader of a file with the index `d`: some of the flushed tombstones are applied, those walked among
    them, and all when no batch is open. -/
structure Live {π : Type} (c : PredicateCodec π) (g : Gzip) (d : IndirectIndex) (l : TombstoneLog) (isOpen : Bool)
    (r : TSMReader) : Prop where
  logged : ∃ ms₁ ms₂, Logged g ms₁ ms₂ l r.tombstoner
  filterFn : r.tombstoner.filterFn = some d.maybeContainsKey
  decodes : ∀ ts ∈ l.flushed ++ l.pending, ts.Decodes c
  applied : ∃ tss, Completed d (CoveredBy c tss) r.index ∧ tss ⊆ l.flushed ∧ l.walked ⊆ tss ∧
    (isOpen = false → l.pending = [] ∧ l.flushed ⊆ tss)

namespace Live
variable {π : Type} {c : PredicateCodec π} {g : Gzip} {d : IndirectIndex} {l : TombstoneLog} {isOpen : Bool}
  {r r' : TSMReader}

section

variable (h : Live c g d l isOpen r) {res : Bool × IndirectIndex} {C : Bytes → ℤ → Prop} {minTime maxTime : ℤ}
  {keys : List Bytes}
include h

theorem passes_eq : r.tombstoner.passes = d.maybeContainsKey := by
  funext k
  rw [passes, h.filterFn]
  rfl

theorem opened : Live c g d l true r := by
  obtain ⟨tss, hC, hsub, hwalked, -⟩ := h.applied
  exact ⟨h.logged, h.filterFn, h.decodes, tss, hC, hsub, hwalked, by simp⟩

/-- A change of the index is recorded by tombstones that cover the same points. -/
theorem record (hd : Base d)
    {add : Tombstoner → Except String Tombstoner} {new : List Tombstone}
    (hcall : Completed r.index C res.2) (hsame : res.1 = false → res.2 = r.index)
    (hadd : ∀ {ms₁ ms₂ t'}, Logged g ms₁ ms₂ l r.tombstoner → add r.tombstoner = .ok t' →
      Logged g ms₁ ms₂ { l with pending := l.pending ++ new } t' ∧ t'.filterFn = r.tombstoner.filterFn)
    (hnew : ∀ ts ∈ new, ts.Decodes c)
    (hC : ∀ o ∈ d.ro.offsets, ∀ t, InEntries d.b o t → (C (keyAt d.b o) t ↔ CoveredBy c new (keyAt d.b o) t))
    (hok : r.record g res add = .ok r') : ∃ l', Live c g d l' isOpen r' := by
  rw [TSMReader.record] at hok
  cases hres : res.1 with
  | false =>
    rw [hres, if_pos (by simp), hsame hres] at hok
    cases hok
    exact ⟨l, h⟩
  | true =>
    rw [hres, if_neg (by simp)] at hok
    obtain ⟨ms₁, ms₂, hlog⟩ := h.logged
    obtain ⟨t, ht, hok⟩ := bind_eq_ok.mp hok
    cases hok
    obtain ⟨hlog', hf⟩ := hadd hlog ht
    obtain ⟨ms, hflush, hf'⟩ := hlog'.flush
    obtain ⟨tss, hC₀, hsub, hwalked, hclosed⟩ := h.applied
    refine ⟨_, ⟨ms₁, ms, hflush⟩, hf'.trans (hf.trans h.filterFn), ?_, tss ++ new, ?_, ?_,
      ?_, fun hop => ⟨rfl, ?_⟩⟩
    · intro ts hts
      simp only [flushed, append_nil, mem_append] at hts
      rcases hts with hts | hts | hts | hts
      · exact h.decodes ts (by simp [flushed, hts])
      · exact h.decodes ts (by simp [flushed, hts])
      · exact h.decodes ts (by simp [hts])
      · exact hnew ts hts
    · refine (hC₀.trans hcall).congr hd.wf fun o ho t ht => ?_
      rw [coveredBy_append, hC o ho t ht]
    · refine append_subset.mpr ⟨fun ts hts => ?_, fun ts hts => by simp [flushed, hts]⟩
      have := hsub hts
      simp only [flushed, mem_append] at this ⊢
      exact this.imp_right .inl
    · exact fun ts hts => mem_append_left _ (hwalked hts)
    · obtain ⟨hpend, hall⟩ := hclosed hop
      intro ts hts
      rw [flushed, hpend, nil_append, ← append_assoc] at hts
      exact append_subset.mpr ⟨fun x hx => mem_append_left _ (hall hx), subset_append_right _ _⟩ hts

/-- A change over a list of keys. -/
theorem recordRange (hd : Base d)
    {min max : ℤ} (hmin : IsInt64 min) (hmax : IsInt64 max)
    (hcall : Completed r.index C res.2) (hsame : res.1 = false → res.2 = r.index)
    (hC : ∀ k t, IsInt64 t → (C k t ↔ k ∈ keys ∧ min ≤ t ∧ t ≤ max))
    (hok : r.record g res (·.addRange keys min max) = .ok r') : ∃ l', Live c g d l' isOpen r' := by
  refine h.record hd hcall hsame (fun hlog hadd => hlog.addRange_ok hmin hmax hadd) ?_ (fun o ho t ht => ?_) hok
  · intro ts hts
    obtain ⟨k, -, rfl⟩ := mem_map.mp hts
    rintro ⟨⟩
  · rw [hC _ t (hd.wf.isInt64 ho ht), coveredBy_rangeTombstones, mem_filter, h.passes_eq]
    simp [hd.passes o ho]

theorem deletePrefix (hc : c.Lawful) (hd : Base d) {pre : Bytes}
    {pred : Option π} (hmin : IsInt64 minTime) (hmax : IsInt64 maxTime) {dead : List Bytes}
    (hok : r.deletePrefix c g pre minTime maxTime pred = .ok (dead, r')) : ∃ l', Live c g d l' isOpen r' := by
  rw [TSMReader.deletePrefix] at hok
  obtain ⟨tss, hC₀, -⟩ := h.applied
  obtain ⟨data, hdata, hok⟩ := bind_eq_ok.mp hok
  obtain ⟨hlen, pred', hun, hmatch⟩ := hc.unmarshal_predData hdata
  obtain ⟨r₁, hrec, hok⟩ := bind_eq_ok.mp hok
  cases hok
  refine h.record hd (deletePrefix_completed hC₀.wf pre minTime maxTime (pred.map c.isMatch))
    (deletePrefix_unchanged hC₀.wf) (fun hlog hadd => hlog.addPrefixRange_ok hmin hmax hlen hadd)
    ?_ (fun o _ t _ => ?_) hrec
  · rw [forall_mem_singleton]
    exact fun _ => ⟨pred', hun⟩
  · rw [coveredBy_singleton, Tombstone.Covers, if_pos rfl, hun, ← hmatch]
    simp

theorem batchDeleteRange (hmin : IsInt64 minTime) (hmax : IsInt64 maxTime)
    (hok : r.batchDeleteRange keys minTime maxTime = .ok r') : ∃ l', Live c g d l' true r' := by
  have hskip : ok r = (ok r' : Except String TSMReader) → ∃ l', Live c g d l' true r' := by
    rintro ⟨⟩
    exact ⟨l, h.opened⟩
  rw [TSMReader.batchDeleteRange] at hok
  split_ifs at hok
  · exact hskip hok
  · exact hskip hok
  · exact hskip hok
  · obtain ⟨ms₁, ms₂, hlog⟩ := h.logged
    obtain ⟨t, ht, hok⟩ := bind_eq_ok.mp hok
    cases hok
    obtain ⟨hlog', hf⟩ := hlog.addRange_ok hmin hmax ht
    obtain ⟨tss, hC, hsub, hwalked, -⟩ := h.applied
    refine ⟨_, ⟨ms₁, ms₂, hlog'⟩, hf.trans h.filterFn, ?_, tss, hC, hsub, hwalked, by simp⟩
    intro ts hts
    rw [← append_assoc, mem_append] at hts
    rcases hts with hts | hts
    · exact h.decodes ts hts
    · obtain ⟨k, -, rfl⟩ := mem_map.mp hts
      rintro ⟨⟩

/-- `Commit` applies all that was flushed since the last walk. -/
theorem commit (hg : g.Lawful) (hd : Base d) (hok : r.commit c g = .ok r') : ∃ l', Live c g d l' false r' := by
  obtain ⟨ms₁, ms₂, hlog⟩ := h.logged
  obtain ⟨ms, hflush, hf⟩ := hlog.flush
  obtain ⟨t', hwalk, hlog', hf'⟩ := hflush.walk hg
  obtain ⟨tss, hC, hsub, hwalked, -⟩ := h.applied
  obtain ⟨d', hd', happ⟩ := applyTombstones_eq (r := { r with tombstoner := r.tombstoner.flush g }) hC.wf
    (hwalk (step c)) fun ts hts => h.decodes ts (by
      simp only [flushed, mem_append] at hts ⊢
      tauto)
  rw [TSMReader.commit, hd'] at hok
  cases hok
  refine ⟨_, ⟨_, _, hlog'⟩, hf'.trans (hf.trans h.filterFn), ?_, tss ++ (l.unread ++ l.pending),
    ?_, ?_, ?_, fun _ => ⟨rfl, ?_⟩⟩
  · intro ts hts
    refine h.decodes ts ?_
    simp only [flushed, mem_append, not_mem_nil, or_false] at hts ⊢
    tauto
  · exact (hC.trans happ).congr hd.wf fun o _ t _ => coveredBy_append.symm
  · intro ts hts
    have := @hsub ts
    simp only [flushed, mem_append, not_mem_nil, or_false] at hts this ⊢
    tauto
  · intro ts hts
    have := @hwalked ts
    simp only [mem_append] at hts ⊢
    tauto
  · intro ts hts
    have := @hwalked ts
    simp only [flushed, mem_append, not_mem_nil, or_false] at hts ⊢
    tauto

/-- Every call that succeeds keeps the reader live. -/
theorem call (hc : c.Lawful) (hg : g.Lawful) (hd : Base d) {call : ReaderCall π}
    (hvalid : call.Valid) (hok : r.call c g call = .ok r') : ∃ l', Live c g d l' (call.batchOpen isOpen) r' := by
  obtain ⟨tss, hC, -⟩ := h.applied
  cases call with
  | delete keys =>
    refine h.recordRange hd (by decide) (by decide) (delete_completed hC.wf keys) (delete_unchanged hC.wf)
      (fun k t ht => ?_) hok
    exact (and_iff_left ht).symm
  | deleteRange keys minTime maxTime =>
    exact h.recordRange hd hvalid.1 hvalid.2 (deleteRange_completed hC.wf keys minTime maxTime)
      (deleteRange_unchanged hC.wf) (fun _ _ _ => Iff.rfl) hok
  | deletePrefix pre minTime maxTime pred =>
    rw [TSMReader.call] at hok
    obtain ⟨res, hres, hok⟩ := bind_eq_ok.mp hok
    cases hok
    exact h.deletePrefix hc hd hvalid.1 hvalid.2 hres
  | batchDeleteRange keys minTime maxTime => exact h.batchDeleteRange hvalid.1 hvalid.2 hok
  | commit => exact h.commit hg hd hok

theorem run (hc : c.Lawful) (hg : g.Lawful) (hd : Base d) {calls : List (ReaderCall π)}
    (hvalid : ∀ call ∈ calls, call.Valid) (hok : r.run c g calls = .ok r') :
    ∃ l', Live c g d l' (calls.foldl ReaderCall.batchOpen isOpen) r' := by
  induction calls generalizing r l isOpen with
  | nil =>
    cases hok
    exact ⟨l, h⟩
  | cons call calls ih =>
    rw [forall_mem_cons] at hvalid
    rw [TSMReader.run, foldlM_cons] at hok
    obtain ⟨r₁, hr, hok⟩ := bind_eq_ok.mp hok
    obtain ⟨l₁, h₁⟩ := h.call hc hg hd hvalid.1 hr
    exact ih h₁ hvalid.2 hok

end

end Live

/-! ### Opening a file -/

/-- A TSM file: magic number, version, blocks, index, and the offset of the index. -/
def tsmFile (blocks : Bytes) (recs : List KeyRecord) : Bytes :=
  putUint 4 magicNumber ++ fileVersion :: blocks ++ (indexBytes recs ++ putUint 8 (5 + blocks.length))

section Open
variable {recs : List KeyRecord} {blocks : Bytes}

theorem initIndex_tsmFile (h : WellFormed recs) (hne : recs ≠ []) (hblocks : 5 + blocks.length < 2 ^ 64) :
    initIndex (tsmFile blocks recs) = .ok (indexOf recs) := by
  have hversion : verifyVersion (tsmFile blocks recs) = .ok () := by
    rw [verifyVersion, tsmFile, append_assoc, readFull_append _ _ (length_putUint 4 _)]
    dsimp only
    rw [getUint_putUint_of_lt (by decide), if_neg (not_not.mpr rfl), cons_append]
    rfl
  have hhead : (putUint 4 magicNumber ++ fileVersion :: blocks).length = 5 + blocks.length := by
    rw [length_append, length_putUint, length_cons]
    omega
  have hlen : (tsmFile blocks recs).length = 5 + blocks.length + (indexBytes recs).length + 8 := by
    rw [tsmFile, length_append, hhead, length_append, length_putUint]
    omega
  have hindex : (tsmFile blocks recs).drop (5 + blocks.length) = indexBytes recs ++ putUint 8 (5 + blocks.length) :=
    drop_left' hhead
  have hfooter : (tsmFile blocks recs).drop (5 + blocks.length + (indexBytes recs).length) =
      putUint 8 (5 + blocks.length) ++ [] := by
    rw [drop_add_length hindex, append_nil]
  have hpos := length_le_indexBytes recs
  have hrecs := length_pos_iff.mpr hne
  rw [initIndex, hversion]
  show (if (tsmFile blocks recs).length < 8 then _ else _) = _
  rw [if_neg (by omega), show (tsmFile blocks recs).length - 8 = 5 + blocks.length + (indexBytes recs).length by omega,
    getUint_slice hfooter (by omega), if_neg (by omega), Nat.add_sub_cancel_left, slice_of_drop hindex,
    unmarshalBinary_indexBytes hne h.encodable h.ends h.length]

/-- The keys of a file lie between its first and its last one. -/
theorem base_indexOf (h : WellFormed recs) : Base (indexOf recs) := by
  refine ⟨(opened_indexOf h).wf, fun o ho => ?_⟩
  rw [h.indexOf_ro.2] at ho
  obtain ⟨p, hp, rfl⟩ := mem_map.mp ho
  have hmem := mem_recs_of_mem_layout hp
  have hkey : keyAt (indexOf recs).b p.1 = p.2.key := keyAt_of_mem_layout h.encodable hp
  have hk : p.2.key ∈ recs.map (·.key) := mem_map_of_mem hmem
  have hsorted : (recs.map (·.key)).Pairwise (· ≤ ·) := h.sorted.imp le_of_lt
  have hmin : (indexOf recs).minKey ≤ p.2.key := (isLeast_headD hsorted (ne_nil_of_mem hk) []).2 hk
  have hmax : p.2.key ≤ (indexOf recs).maxKey := (isGreatest_getLastD hsorted (ne_nil_of_mem hk) []).2 hk
  rw [hkey, maybeContainsKey]
  rw [Bool.and_eq_true, decide_eq_true_eq, decide_eq_true_eq, bytesCompare_ne_lt, bytesCompare_ne_gt]
  exact ⟨hmin, hmax⟩

/-- Opening a file deletes what the tombstones next to it cover. -/
theorem newTSMReader_eq {π : Type} {c : PredicateCodec π} {g : Gzip} (hg : g.Lawful) (h : WellFormed recs)
    (hne : recs ≠ []) (hblocks : 5 + blocks.length < 2 ^ 64) (path : String) (disk : TombstoneDisk)
    {ms : List (List Tombstone)} (hms : ∀ m ∈ ms, ∀ ts ∈ m, ts.Valid)
    (hdec : ∀ ts ∈ ms.flatten, ts.Decodes c)
    (hfile : disk.file = if ms = [] then none else some (fileBytes g ms)) :
    ∃ r, newTSMReader c g (tsmFile blocks recs) path disk = .ok r ∧
      Completed (indexOf recs) (CoveredBy c ms.flatten) r.index ∧
      r.tombstoner = { newTombstoner path (some (indexOf recs).maybeContainsKey) disk with
        lastAppliedOffset := if ms = [] then 0 else (fileBytes g ms).length } := by
  obtain ⟨o, hwalk, ho⟩ := @walk_eq g [] ms
    (newTombstoner path (some (indexOf recs).maybeContainsKey) disk) hg hms hfile rfl
  rw [nil_append] at ho
  subst ho
  obtain ⟨d', hd', hC⟩ := applyTombstones_eq (r := ⟨indexOf recs, _⟩) (base_indexOf h).wf (hwalk (step c)) hdec
  refine ⟨⟨d', _⟩, ?_, hC, rfl⟩
  rw [newTSMReader, initIndex_tsmFile h hne hblocks]
  exact hd'

end Open

/-- After any run of deletes that succeeds and leaves no batch open, a fresh reader on the file and its
    tombstone file shows the same points as the live reader. -/
theorem deletes_survive_reopen {π : Type} {c : PredicateCodec π} (hc : c.Lawful) {g : Gzip} (hg : g.Lawful)
    {recs : List KeyRecord} (h : WellFormed recs) (hne : recs ≠ []) (blocks : Bytes)
    (hblocks : 5 + blocks.length < 2 ^ 64) (path : String) (hpath : path ≠ "") (ms : List (List Tombstone))
    (hms : ∀ m ∈ ms, ∀ ts ∈ m, ts.Valid ∧ ts.Decodes c) :
    ∃ r₀, newTSMReader c g (tsmFile blocks recs) path
        ⟨if ms = [] then none else some (fileBytes g ms), false⟩ = .ok r₀ ∧
      ∀ (calls : List (ReaderCall π)) (r : TSMReader), (∀ call ∈ calls, call.Valid) →
        calls.foldl ReaderCall.batchOpen false = false → r₀.run c g calls = .ok r →
        ∃ r', newTSMReader c g (tsmFile blocks recs) path r.tombstoner.disk = .ok r' ∧
          ∀ k t, r'.index.Shows k t ↔ r.index.Shows k t := by
  have hvalid : ∀ m ∈ ms, ∀ ts ∈ m, ts.Valid := fun m hm ts hts => (hms m hm ts hts).1
  have hdec : ∀ ts ∈ ms.flatten, ts.Decodes c := fun ts hts => by
    obtain ⟨m, hm, hts⟩ := mem_flatten.mp hts
    exact (hms m hm ts hts).2
  have hd := base_indexOf h
  obtain ⟨r₀, hr₀, hC₀, ht₀⟩ := newTSMReader_eq hg h hne hblocks path ⟨_, false⟩ hvalid hdec rfl
  refine ⟨r₀, hr₀, fun calls r hcalls hclosed hrun => ?_⟩
  have hlive : Live c g (indexOf recs) { walked := ms.flatten, unread := [], pending := [] } false r₀ := by
    refine ⟨⟨ms, [], ?_⟩, by rw [ht₀]; rfl, by simpa [flushed] using hdec, ms.flatten, hC₀, ?_, ?_, ?_⟩
    · rw [ht₀]
      refine ⟨hpath, rfl, rfl, by simpa using hvalid, ?_, rfl, by simp, .inl ⟨rfl, rfl, rfl⟩⟩
      rw [append_nil]
      rfl
    · simp [flushed]
    · simp
    · simp [flushed]
  obtain ⟨l, hl⟩ := hlive.run hc hg hd hcalls hrun
  obtain ⟨ms₁, ms₂, hlog⟩ := hl.logged
  obtain ⟨tss, hC, hsub, -, hall⟩ := hl.applied
  have hflushed : (ms₁ ++ ms₂).flatten = l.flushed := by
    rw [flatten_append, hlog.walked, hlog.unread, flushed]
  obtain ⟨r', hr', hC', -⟩ := newTSMReader_eq hg h hne hblocks path r.tombstoner.disk hlog.valid
    (fun ts hts => hl.decodes ts (mem_append_left _ (hflushed ▸ hts))) hlog.file
  refine ⟨r', hr', fun k t => ?_⟩
  rw [hC'.shows_iff hd.wf, hC.shows_iff hd.wf, hflushed]
  refine and_congr_right fun _ => not_congr ?_
  constructor
  · rintro ⟨ts, hts, hcov⟩
    exact ⟨ts, (hall hclosed).2 hts, hcov⟩
  · rintro ⟨ts, hts, hcov⟩
    exact ⟨ts, hsub hts, hcov⟩

/-- Predicates that match one key, stored as the key. -/
def keyPredicates : PredicateCodec Bytes where
  isMatch p k := decide (p = k)
  encode p := if p.length < 2 ^ 63 then .ok p else .error "predicate too large"
  decode := .ok

theorem lawful_keyPredicates : keyPredicates.Lawful := by
  have hencode : ∀ p b, keyPredicates.encode p = .ok b → b = p ∧ b.length < 2 ^ 63 := by
    intro p b h
    simp only [keyPredicates] at h
    split_ifs at h with hlen
    cases h
    exact ⟨rfl, hlen⟩
  refine ⟨fun p b h => ?_, fun p b h => (hencode p b h).2⟩
  obtain ⟨rfl, -⟩ := hencode p b h
  exact ⟨b, rfl, rfl⟩

/-- A range delete, a batch around a prefix delete with a predicate, and the reopened file. -/
theorem deletes_survive_reopen_twoEntries : ∃ r₀ r r',
    newTSMReader keyPredicates markedFraming (tsmFile [] twoEntries) "000001.tsm" ⟨none, false⟩ = .ok r₀ ∧
    r₀.run keyPredicates markedFraming [.deleteRange [[1]] 0 5, .batchDeleteRange [[0], [1]] 21 22,
      .deletePrefix [] 28 40 (some [1]), .commit] = .ok r ∧
    newTSMReader keyPredicates markedFraming (tsmFile [] twoEntries) "000001.tsm" r.tombstoner.disk = .ok r' ∧
    ∀ k t, r'.index.Shows k t ↔ r.index.Shows k t := by
  obtain ⟨r₀, hr₀, h⟩ := deletes_survive_reopen lawful_keyPredicates lawful_markedFraming wellFormed_twoEntries
    (cons_ne_nil _ _) [] (by decide) "000001.tsm" (by decide) [] (by simp)
  rw [if_pos rfl] at hr₀
  have hrun : ((newTSMReader keyPredicates markedFraming (tsmFile [] twoEntries) "000001.tsm" ⟨none, false⟩).bind
      fun r₀ => r₀.run keyPredicates markedFraming [.deleteRange [[1]] 0 5, .batchDeleteRange [[0], [1]] 21 22,
        .deletePrefix [] 28 40 (some [1]), .commit]).toBool = true := by decide +kernel
  rw [hr₀, Except.bind, Except.toBool.eq_def] at hrun
  split at hrun
  · next r hr =>
    obtain ⟨r', hr', hshows⟩ := h _ r (by simp [ReaderCall.Valid, IsInt64, minInt64, maxInt64]) rfl hr
    exact ⟨r₀, r, r', hr₀, hr, hr', hshows⟩
  · cases hrun

end InfluxDB.Tsm
