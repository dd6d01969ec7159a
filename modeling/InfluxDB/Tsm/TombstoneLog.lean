import Mathlib.Data.List.TakeWhile
import InfluxDB.Tsm.Tombstone

/-! The tombstone file as a log, and that `tombstone.go` implements it.

    The log knows which tombstones were walked, which were flushed since, and which are pending. `Logged`
    relates it to the bytes on disk: the walked tombstones fill the members up to the remembered offset,
    those flushed since the members after it. Every operation keeps the relation. -/

namespace InfluxDB.Tsm
open Lib List Tombstoner

/-! ### The log -/

/-- The tombstones that were walked, those flushed since the last walk, and those not yet flushed. -/
structure TombstoneLog where
  walked : List Tombstone
  unread : List Tombstone
  pending : List Tombstone

/-- A call of the `Tombstoner`. -/
inductive TombstoneOp where
  | addRange (keys : List Bytes) (min max : ℤ)
  | addPrefixRange (key : Bytes) (min max : ℤ) (predicate : Bytes)
  | flush
  | rollback
  | walk

/-- The tombstones of a range over keys. -/
def rangeTombstones (keys : List Bytes) (min max : ℤ) : List Tombstone :=
  keys.map fun k => { key := k, isPrefix := false, min := min, max := max, predicate := [] }

/-- The tombstones that a call adds, when the filter of the `Tombstoner` is `passes`. -/
def TombstoneOp.added (passes : Bytes → Bool) : TombstoneOp → List Tombstone
  | addRange keys min max => rangeTombstones (keys.filter passes) min max
  | addPrefixRange key min max predicate =>
    [{ key := key, isPrefix := true, min := min, max := max, predicate := predicate }]
  | _ => []

namespace TombstoneLog

def empty : TombstoneLog := { walked := [], unread := [], pending := [] }

/-- The log after a call, and what a walk delivers. -/
def step (passes : Bytes → Bool) (l : TombstoneLog) : TombstoneOp → TombstoneLog × Option (List Tombstone)
  | .flush => ({ l with unread := l.unread ++ l.pending, pending := [] }, none)
  | .rollback => ({ l with pending := [] }, none)
  | .walk => ({ l with walked := l.walked ++ l.unread, unread := [] }, some l.unread)
  | op => ({ l with pending := l.pending ++ op.added passes }, none)

/-- The log after a run, and what its walks deliver in turn. -/
def run (passes : Bytes → Bool) (l : TombstoneLog) : List TombstoneOp → TombstoneLog × List (List Tombstone)
  | [] => (l, [])
  | op :: ops =>
    let res := l.step passes op
    let rest := run passes res.1 ops
    (rest.1, res.2.toList ++ rest.2)

/-- All that was ever flushed. -/
def flushed (l : TombstoneLog) : List Tombstone := l.walked ++ l.unread

end TombstoneLog

/-- The calls of `fn` collected in a list. -/
def collect (l : List Tombstone) (ts : Tombstone) : Except String (List Tombstone) := .ok (l ++ [ts])

theorem foldlM_collect : ∀ (tss l : List Tombstone), tss.foldlM collect l = .ok (l ++ tss)
  | [], l => by rw [append_nil]; rfl
  | ts :: tss, l => by
    rw [foldlM_cons]
    exact (foldlM_collect tss (l ++ [ts])).trans (by rw [append_assoc]; rfl)

namespace Tombstoner

/-- A call, and what `fn` was called with in a walk. -/
def step (g : Gzip) (t : Tombstoner) : TombstoneOp → Except String (Tombstoner × Option (List Tombstone))
  | .addRange keys min max => (t.addRange keys min max).map (·, none)
  | .addPrefixRange key min max predicate => (t.addPrefixRange key min max predicate).map (·, none)
  | .flush => .ok (t.flush g, none)
  | .rollback => .ok (t.rollback, none)
  | .walk => (t.walk collect g []).map fun res => (res.2, some res.1)

/-- A run of calls, with what `fn` was called with in each walk. -/
def run (g : Gzip) (t : Tombstoner) : List TombstoneOp → Except String (Tombstoner × List (List Tombstone))
  | [] => .ok (t, [])
  | op :: ops => do
    let res ← t.step g op
    let rest ← run g res.1 ops
    return (rest.1, res.2.toList ++ rest.2)

end Tombstoner

/-! ### The log on disk -/

/-- The file with the given members. -/
def fileBytes (g : Gzip) (ms : List (List Tombstone)) : Bytes := putUint 4 v4header ++ ms.flatMap (memberBytes g)

/-- The members `ms₁` hold the walked tombstones, the members `ms₂` those flushed since. -/
structure Logged (g : Gzip) (ms₁ ms₂ : List (List Tombstone)) (l : TombstoneLog) (t : Tombstoner) : Prop where
  path : t.path ≠ ""
  walked : ms₁.flatten = l.walked
  unread : ms₂.flatten = l.unread
  valid : ∀ m ∈ ms₁ ++ ms₂, ∀ ts ∈ m, ts.Valid
  file : t.disk.file = if ms₁ ++ ms₂ = [] then none else some (fileBytes g (ms₁ ++ ms₂))
  offset : t.lastAppliedOffset = if ms₁ = [] then 0 else (fileBytes g ms₁).length
  pending_valid : ∀ ts ∈ l.pending, ts.Valid
  pending : t.pending = none ∧ t.disk.tmp = false ∧ l.pending = [] ∨
    t.pending = some ⟨fileBytes g (ms₁ ++ ms₂), l.pending.flatMap (·.bytes)⟩ ∧ t.disk.tmp = true

section Walk
variable {g : Gzip} {ms₁ ms₂ : List (List Tombstone)} {t : Tombstoner} (ms : List (List Tombstone))

theorem header_fileBytes : getUint ((fileBytes g ms).take 4) = v4header := by
  have h : (fileBytes g ms).take 4 = putUint 4 v4header := by
    rw [fileBytes, take_left' (length_putUint 4 _)]
  rw [h, getUint_putUint_of_lt (by decide)]

theorem length_fileBytes_pos : 4 ≤ (fileBytes g ms).length := by
  rw [fileBytes, length_append, length_putUint]
  omega

theorem fileBytes_append (ms₁ ms₂ : List (List Tombstone)) :
    fileBytes g (ms₁ ++ ms₂) = fileBytes g ms₁ ++ ms₂.flatMap (memberBytes g) := by
  rw [fileBytes, fileBytes, flatMap_append, append_assoc]

/-- `Walk` calls `fn` with the tombstones of the members after the remembered offset, and remembers the
    end of the file. -/
theorem Tombstoner.walk_eq (hg : g.Lawful) (hvalid : ∀ m ∈ ms₁ ++ ms₂, ∀ ts ∈ m, ts.Valid)
    (hfile : t.disk.file = if ms₁ ++ ms₂ = [] then none else some (fileBytes g (ms₁ ++ ms₂)))
    (hoff : t.lastAppliedOffset = if ms₁ = [] then 0 else (fileBytes g ms₁).length) :
    ∃ o, (∀ {σ : Type} (fn : σ → Tombstone → Except String σ) (s : σ),
        t.walk fn g s = (ms₂.flatten.foldlM fn s).map fun s => (s, { t with lastAppliedOffset := o })) ∧
      o = if ms₁ ++ ms₂ = [] then 0 else (fileBytes g (ms₁ ++ ms₂)).length := by
  refine ⟨_, fun fn s => ?_, rfl⟩
  rw [walk, hfile]
  by_cases hms : ms₁ ++ ms₂ = []
  · obtain ⟨rfl, rfl⟩ := append_eq_nil_iff.mp hms
    rw [if_pos hms, if_pos hms]
    show Except.ok (s, t) = Except.ok (s, _)
    rw [if_pos rfl] at hoff
    rw [← hoff]
  rw [if_neg hms, if_neg hms]
  have hpos := length_fileBytes_pos (g := g) (ms₁ ++ ms₂)
  have hpad : padTo 4 ((fileBytes g (ms₁ ++ ms₂)).take 4) = (fileBytes g (ms₁ ++ ms₂)).take 4 := by
    rw [padTo, take_take, length_take, Nat.min_self, Nat.min_eq_left hpos]
    simp
  dsimp only
  rw [if_neg (length_pos_iff.mp (by omega)), hpad, header_fileBytes, if_pos rfl, readTombstoneV4]
  -- what is read starts after the walked members
  have hinput : (fileBytes g (ms₁ ++ ms₂)).drop
      (if t.lastAppliedOffset ≠ 0 then t.lastAppliedOffset else headerSize) =
      ms₂.flatMap (memberBytes g) := by
    rw [hoff, fileBytes_append]
    rcases eq_or_ne ms₁ [] with rfl | hne
    · rw [if_pos rfl, if_neg (by simp), fileBytes, flatMap_nil, append_nil]
      exact drop_left' (length_putUint 4 _)
    · have := length_fileBytes_pos (g := g) ms₁
      rw [if_neg hne, if_pos (by omega), drop_left]
  rw [hinput]
  rcases eq_or_ne ms₂ [] with rfl | hne
  · rw [flatMap_nil, if_pos rfl, append_nil]
    rw [append_nil] at hms
    rw [if_neg hms] at hoff
    rw [← hoff]
    rfl
  · have hlen := length_le_flatMap_memberBytes hg ms₂
    have := length_pos_iff.mpr hne
    have hrest : ms₂.flatMap (memberBytes g) ≠ [] := length_pos_iff.mp (by omega)
    rw [if_neg hrest, readMembers_spec hg s (fun m hm => hvalid m (mem_append_right _ hm)) hne hlen]
    cases ms₂.flatten.foldlM fn s <;> rfl

end Walk

/-- The keys skipped at the front do not pass. -/
theorem filter_eq_filter_dropWhile (p : Bytes → Bool) (keys : List Bytes) :
    keys.filter p = (keys.dropWhile fun k => !p k).filter p := by
  conv_lhs => rw [← takeWhile_append_dropWhile (p := fun k => !p k) (l := keys)]
  rw [filter_append, filter_eq_nil_iff.mpr, nil_append]
  intro k hk
  simpa using mem_takeWhile_imp hk

namespace Logged
variable {g : Gzip} {ms₁ ms₂ : List (List Tombstone)} {l : TombstoneLog} {t : Tombstoner}

theorem new {path : String} (hpath : path ≠ "") (filterFn : Option (Bytes → Bool)) :
    Logged g [] [] .empty (newTombstoner path filterFn ⟨none, false⟩) :=
  ⟨hpath, rfl, rfl, by simp, rfl, rfl, by simp [TombstoneLog.empty], .inl ⟨rfl, rfl, rfl⟩⟩

/-- `prepareLatest` opens a member after those flushed. -/
theorem prepareLatest (h : Logged g ms₁ ms₂ l t) :
    ∃ t', t.prepareLatest = .ok t' ∧ Logged g ms₁ ms₂ l t' ∧ t'.pending.isSome ∧
      t'.filterFn = t.filterFn := by
  rw [Tombstoner.prepareLatest]
  rcases h.pending with ⟨hnone, htmp, hl⟩ | ⟨hsome, htmp⟩
  · rw [hnone]
    dsimp only
    rw [htmp, if_neg (by simp), h.file]
    by_cases hms : ms₁ ++ ms₂ = []
    · rw [if_pos hms]
      refine ⟨_, rfl, ⟨h.path, h.walked, h.unread, h.valid, (if_pos hms).symm, h.offset,
        h.pending_valid, .inr ⟨?_, rfl⟩⟩, rfl, rfl⟩
      rw [hl, hms]
      simp [fileBytes]
    · rw [if_neg hms]
      dsimp only
      rw [if_neg (by simp [fileBytes]), if_neg (not_not.mpr (header_fileBytes _))]
      refine ⟨_, rfl, ⟨h.path, h.walked, h.unread, h.valid, (if_neg hms).symm, h.offset, h.pending_valid,
        .inr ⟨?_, rfl⟩⟩, rfl, rfl⟩
      rw [hl]
      rfl
  · rw [hsome]
    exact ⟨t, rfl, h, by rw [hsome]; rfl, rfl⟩

/-- A tombstone is written to the open member. -/
theorem write (h : Logged g ms₁ ms₂ l t) (hopen : t.pending.isSome) {ts : Tombstone} (hts : ts.Valid) :
    ∃ t', t.write ts = .ok t' ∧ Logged g ms₁ ms₂ { l with pending := l.pending ++ [ts] } t' ∧
      t'.pending.isSome ∧ t'.filterFn = t.filterFn := by
  rw [Tombstoner.write, hts.write]
  rcases h.pending with ⟨hnone, -, -⟩ | ⟨hsome, htmp⟩
  · rw [hnone] at hopen
    cases hopen
  · refine ⟨_, rfl, ⟨h.path, h.walked, h.unread, h.valid, h.file, h.offset, ?_, .inr ⟨?_, htmp⟩⟩, ?_, rfl⟩
    · rw [forall_mem_append, forall_mem_singleton]
      exact ⟨h.pending_valid, hts⟩
    · rw [hsome]
      simp
    · rw [hsome]
      rfl

/-- The loop of `AddRange` writes the keys that pass. -/
theorem write_keys {min max : ℤ} : ∀ {keys : List Bytes} {l : TombstoneLog} {t : Tombstoner},
    Logged g ms₁ ms₂ l t → t.pending.isSome →
      (∀ ts ∈ rangeTombstones (keys.filter t.passes) min max, ts.Valid) →
    ∃ t', keys.foldlM (fun (t : Tombstoner) k =>
        if t.passes k then t.write { key := k, isPrefix := false, min := min, max := max, predicate := [] }
        else .ok t) t = .ok t' ∧
      Logged g ms₁ ms₂ { l with pending := l.pending ++ rangeTombstones (keys.filter t.passes) min max } t' ∧
      t'.filterFn = t.filterFn
  | [], l, t, h, _, _ => ⟨t, rfl, by simpa [rangeTombstones] using h, rfl⟩
  | k :: keys, l, t, h, hopen, hvalid => by
    rw [foldlM_cons]
    cases hk : t.passes k with
    | true =>
      rw [filter_cons_of_pos hk] at hvalid
      obtain ⟨t₁, hw, h₁, hopen₁, hf₁⟩ := h.write hopen (hvalid _ mem_cons_self)
      have hp : t₁.passes = t.passes := by funext k; rw [passes, hf₁]; rfl
      obtain ⟨t', hfold, h', hf⟩ := write_keys h₁ hopen₁ (hp ▸ (forall_mem_cons.mp hvalid).2)
      refine ⟨t', ?_, ?_, hf.trans hf₁⟩
      · rw [if_pos rfl, hw]
        exact hfold
      · rw [filter_cons_of_pos hk, ← hp]
        simpa [rangeTombstones] using h'
    | false =>
      rw [filter_cons_of_neg (by simp [hk])] at hvalid
      obtain ⟨t', hfold, h', hf⟩ := write_keys h hopen hvalid
      refine ⟨t', ?_, ?_, hf⟩
      · rw [if_neg (by simp)]
        exact hfold
      · rwa [filter_cons_of_neg (by simp [hk])]

section

variable (h : Logged g ms₁ ms₂ l t)
include h

theorem addRange (keys : List Bytes) (min max : ℤ)
    (hvalid : ∀ ts ∈ rangeTombstones (keys.filter t.passes) min max, ts.Valid) :
    ∃ t', t.addRange keys min max = .ok t' ∧
      Logged g ms₁ ms₂ { l with pending := l.pending ++ rangeTombstones (keys.filter t.passes) min max } t' ∧
      t'.filterFn = t.filterFn := by
  have hfilter := filter_eq_filter_dropWhile t.passes keys
  rw [hfilter] at hvalid
  rw [Tombstoner.addRange, hfilter]
  generalize keys.dropWhile (fun k => !t.passes k) = keys at hvalid
  split_ifs with hnil hpath
  · obtain rfl := eq_nil_of_length_eq_zero hnil
    exact ⟨t, rfl, by simpa [rangeTombstones] using h, rfl⟩
  · exact absurd hpath h.path
  · obtain ⟨t₁, hprep, h₁, hopen, hf₁⟩ := h.prepareLatest
    have hp : t₁.passes = t.passes := by funext k; rw [passes, hf₁]; rfl
    obtain ⟨t', hfold, h', hf⟩ := h₁.write_keys hopen (hp ▸ hvalid)
    refine ⟨t', ?_, hp ▸ h', hf.trans hf₁⟩
    rw [hprep]
    exact hfold

theorem addPrefixRange (key predicate : Bytes) (min max : ℤ)
    (hvalid : Tombstone.Valid { key := key, isPrefix := true, min := min, max := max, predicate := predicate }) :
    ∃ t', t.addPrefixRange key min max predicate = .ok t' ∧
      Logged g ms₁ ms₂ { l with pending := l.pending ++
        [{ key := key, isPrefix := true, min := min, max := max, predicate := predicate }] } t' ∧
      t'.filterFn = t.filterFn := by
  rw [Tombstoner.addPrefixRange, if_neg h.path]
  obtain ⟨t₁, hprep, h₁, hopen, hf₁⟩ := h.prepareLatest
  obtain ⟨t', hw, h', -, hf⟩ := h₁.write hopen hvalid
  refine ⟨t', ?_, h', hf.trans hf₁⟩
  rw [hprep]
  exact hw

theorem flush :
    ∃ ms, Logged g ms₁ ms { l with unread := l.unread ++ l.pending, pending := [] } (t.flush g) ∧
      (t.flush g).filterFn = t.filterFn := by
  rw [Tombstoner.flush]
  rcases h.pending with ⟨hnone, htmp, hl⟩ | ⟨hsome, htmp⟩
  · rw [hnone, hl, append_nil]
    exact ⟨ms₂, ⟨h.path, h.walked, h.unread, h.valid, h.file, h.offset, by simp,
      .inl ⟨hnone, htmp, rfl⟩⟩, rfl⟩
  · rw [hsome]
    have hms : ms₁ ++ (ms₂ ++ [l.pending]) = ms₁ ++ ms₂ ++ [l.pending] := (append_assoc ..).symm
    refine ⟨ms₂ ++ [l.pending],
      ⟨h.path, h.walked, ?_, ?_, ?_, h.offset, by simp, .inl ⟨rfl, rfl, rfl⟩⟩, rfl⟩
    · rw [flatten_append, h.unread, flatten_singleton]
    · rw [hms, forall_mem_append, forall_mem_singleton]
      exact ⟨h.valid, h.pending_valid⟩
    · rw [if_neg (by simp), hms]
      simp [fileBytes, memberBytes]

theorem rollback : Logged g ms₁ ms₂ { l with pending := [] } t.rollback ∧ t.rollback.filterFn = t.filterFn := by
  rw [Tombstoner.rollback]
  rcases h.pending with ⟨hnone, htmp, hl⟩ | ⟨hsome, htmp⟩
  · rw [hnone]
    exact ⟨⟨h.path, h.walked, h.unread, h.valid, h.file, h.offset, by simp, .inl ⟨hnone, htmp, rfl⟩⟩, rfl⟩
  · rw [hsome]
    exact ⟨⟨h.path, h.walked, h.unread, h.valid, h.file, h.offset, by simp, .inl ⟨rfl, rfl, rfl⟩⟩, rfl⟩

theorem walk (hg : g.Lawful) :
    ∃ t', (∀ {σ : Type} (fn : σ → Tombstone → Except String σ) (s : σ),
        t.walk fn g s = (l.unread.foldlM fn s).map (·, t')) ∧
      Logged g (ms₁ ++ ms₂) [] { l with walked := l.walked ++ l.unread, unread := [] } t' ∧
      t'.filterFn = t.filterFn := by
  obtain ⟨o, hwalk, ho⟩ := walk_eq hg h.valid h.file h.offset
  refine ⟨{ t with lastAppliedOffset := o }, fun fn s => h.unread ▸ hwalk fn s, ?_, rfl⟩
  refine ⟨h.path, by rw [flatten_append, h.walked, h.unread], rfl, ?_, ?_, ho, h.pending_valid, ?_⟩
  · rw [append_nil]
    exact h.valid
  · rw [append_nil]
    exact h.file
  · rw [append_nil]
    exact h.pending

end

end Logged

/-! ### Runs -/

/-- The keys of a call have at most 0xffffff bytes, and its numbers are within their machine types. -/
def TombstoneOp.Valid (op : TombstoneOp) : Prop := ∀ ts ∈ op.added (fun _ => true), ts.Valid

instance (op : TombstoneOp) : Decidable op.Valid := inferInstanceAs (Decidable (∀ ts ∈ _, Tombstone.Valid ts))

section Run
variable {g : Gzip} {ms₁ ms₂ : List (List Tombstone)} {l : TombstoneLog} {t : Tombstoner}

/-- Every call does to the file what it does to the log. -/
theorem Logged.step (h : Logged g ms₁ ms₂ l t) (hg : g.Lawful) {op : TombstoneOp} (hop : op.Valid) :
    ∃ ms₁' ms₂' t', t.step g op = .ok (t', (l.step t.passes op).2) ∧
      Logged g ms₁' ms₂' (l.step t.passes op).1 t' ∧ t'.filterFn = t.filterFn := by
  cases op with
  | addRange keys min max =>
    obtain ⟨t', he, h', hf⟩ := h.addRange keys min max fun ts hts => hop ts (by
      rw [TombstoneOp.added, filter_true]
      exact map_subset _ ((filter_subset_self _)) hts)
    exact ⟨ms₁, ms₂, t', by rw [Tombstoner.step, he]; rfl, h', hf⟩
  | addPrefixRange key min max predicate =>
    obtain ⟨t', he, h', hf⟩ := h.addPrefixRange _ _ _ _ (hop _ mem_cons_self)
    exact ⟨ms₁, ms₂, t', by rw [Tombstoner.step, he]; rfl, h', hf⟩
  | flush =>
    obtain ⟨ms, h', hf⟩ := h.flush
    exact ⟨ms₁, ms, _, rfl, h', hf⟩
  | rollback =>
    obtain ⟨h', hf⟩ := h.rollback
    exact ⟨ms₁, ms₂, _, rfl, h', hf⟩
  | walk =>
    obtain ⟨t', hwalk, h', hf⟩ := h.walk hg
    refine ⟨_, _, t', ?_, h', hf⟩
    rw [Tombstoner.step, hwalk, foldlM_collect]
    rfl

theorem Logged.run (hg : g.Lawful) : ∀ {ops : List TombstoneOp} {ms₁ ms₂ : List (List Tombstone)}
    {l : TombstoneLog} {t : Tombstoner}, Logged g ms₁ ms₂ l t → (∀ op ∈ ops, op.Valid) →
    ∃ ms₁' ms₂' t', t.run g ops = .ok (t', (l.run t.passes ops).2) ∧
      Logged g ms₁' ms₂' (l.run t.passes ops).1 t'
  | [], ms₁, ms₂, l, t, h, _ => ⟨ms₁, ms₂, t, rfl, h⟩
  | op :: ops, ms₁, ms₂, l, t, h, hops => by
    obtain ⟨_, _, t₁, he, h₁, hf⟩ := h.step hg (hops op mem_cons_self)
    have hp : t₁.passes = t.passes := by funext k; rw [passes, hf]; rfl
    obtain ⟨ms₁', ms₂', t', hrun, h'⟩ := run hg h₁ (forall_mem_cons.mp hops).2
    rw [hp] at hrun h'
    refine ⟨ms₁', ms₂', t', ?_, h'⟩
    rw [Tombstoner.run, he]
    show (t₁.run g ops >>= _) = _
    rw [hrun]
    rfl

end Run

/-- Every walk of a run delivers what was added and flushed since the walk before, in order; a fresh
    `Tombstoner` on the path walks all that was flushed. -/
theorem tombstone_protocol {g : Gzip} (hg : g.Lawful) {path : String} (hpath : path ≠ "")
    (filterFn : Option (Bytes → Bool)) {ops : List TombstoneOp} (hops : ∀ op ∈ ops, op.Valid) :
    ∃ t t', (newTombstoner path filterFn ⟨none, false⟩).run g ops =
        .ok (t, (TombstoneLog.empty.run (fun k => filterFn.all fun f => f k) ops).2) ∧
      (newTombstoner path filterFn t.disk).walk collect g [] =
        .ok ((TombstoneLog.empty.run (fun k => filterFn.all fun f => f k) ops).1.flushed, t') := by
  obtain ⟨ms₁, ms₂, t, hrun, h⟩ := (Logged.new hpath filterFn).run hg hops
  obtain ⟨o, hwalk, -⟩ := @walk_eq g [] (ms₁ ++ ms₂) (newTombstoner path filterFn t.disk) hg
    h.valid h.file rfl
  refine ⟨t, { newTombstoner path filterFn t.disk with lastAppliedOffset := o }, hrun, ?_⟩
  rw [hwalk, foldlM_collect, flatten_append, h.walked, h.unread]
  rfl

/-- A framing that marks every byte and the end. -/
def markedFraming : Gzip where
  frame p := p.flatMap (fun x => [1, x]) ++ [0]
  readMember := read
where
  read : Bytes → Except String (Bytes × Bytes)
    | 0 :: rest => .ok ([], rest)
    | _ :: x :: b => (read b).map fun res => (x :: res.1, res.2)
    | _ => .error "unexpected EOF"

theorem lawful_markedFraming : markedFraming.Lawful where
  frame_ne p := by simp [markedFraming]
  readMember_frame p rest := by
    show markedFraming.read (p.flatMap (fun x => [1, x]) ++ [0] ++ rest) = _
    induction p with
    | nil => rfl
    | cons x p ih =>
      show (markedFraming.read (p.flatMap (fun x => [1, x]) ++ [0] ++ rest)).map _ = _
      rw [ih]
      rfl

/-- A tombstone that is rolled back, one that is flushed and walked, and one flushed later. -/
theorem tombstone_protocol_markedFraming : ∃ t t', (newTombstoner "1.tsm" none ⟨none, false⟩).run markedFraming
    [.addRange [[1]] 0 9, .rollback, .addPrefixRange [2] 0 9 [7], .flush, .walk, .addRange [[3]] 5 6, .flush, .walk] =
      .ok (t, [[⟨[2], true, 0, 9, [7]⟩], [⟨[3], false, 5, 6, []⟩]]) ∧
    (newTombstoner "1.tsm" none t.disk).walk collect markedFraming [] =
      .ok ([⟨[2], true, 0, 9, [7]⟩, ⟨[3], false, 5, 6, []⟩], t') :=
  tombstone_protocol lawful_markedFraming (by decide) none (by decide)

end InfluxDB.Tsm
