import InfluxDB.Tsm.Merge

/-! The readers behind the key iterator: which blocks an iterator still has ahead, and what
    `gather` takes from them.

    A source is read as the list of the blocks it has not handed over, `Source.pending`. Filling the
    buffer cuts that list after the run of blocks of its first key; `gather` takes the buffers of the
    smallest key. -/

namespace InfluxDB.Tsm.Compact
open Lib List BlockIterator Source

variable {β α : Type} (it : BlockIterator β) {key : Key}

/-! ### Block iterators -/

/-- The block an iterator over `r` yields for an entry of a key. -/
def TSMReader.block (r : TSMReader β) (key : Key) (typ : ℕ) (e : IndexedBlock β) : Block β :=
  { key := key, minTime := e.minTime, maxTime := e.maxTime, typ := typ, b := e.b,
    tombstones := r.tombstoneRange key, readMin := maxInt64, readMax := minInt64 }

/-- The blocks of a key of the index. -/
def TSMReader.keyBlocks (r : TSMReader β) (ke : KeyEntry β) : List (Block β) :=
  ke.entries.map (r.block ke.key ke.typ)

/-- All blocks of a reader, in file order. -/
def TSMReader.blocks (r : TSMReader β) : List (Block β) := r.keys.flatMap r.keyBlocks

/-- The blocks that further calls of `Next` reach. -/
def BlockIterator.ahead (it : BlockIterator β) : List (Block β) :=
  it.entries.tail.map (it.r.block it.key it.typ) ++ it.rest.flatMap it.r.keyBlocks

theorem BlockIterator.next_spec :
    (it.ahead = [] ∧ it.next.1 = false ∧ it.next.2.ahead = [] ∧ it.next.2.entries = []) ∨
      ∃ e es, it.next.1 = true ∧ it.next.2.entries = e :: es ∧
        it.ahead = it.next.2.block e :: it.next.2.ahead := by
  rw [next]
  cases ht : it.entries.tail with
  | cons e es => exact .inr ⟨e, es, rfl, rfl, by simp [ahead, ht]; rfl⟩
  | nil =>
    cases hr : it.rest with
    | nil => exact .inl ⟨by simp [ahead, ht, hr], rfl, by simp [ahead], rfl⟩
    | cons ke rest =>
      obtain ⟨e, es, he⟩ := exists_cons_of_ne_nil ke.entries_ne
      refine .inr ⟨e, es, rfl, he, ?_⟩
      simp [ahead, ht, hr, he, TSMReader.keyBlocks]
      rfl

theorem BlockIterator.peekNext_eq : it.peekNext = (it.ahead.head?.map (·.key)).getD [] := by
  rw [peekNext, ahead]
  rcases it.entries with _ | ⟨e, _ | ⟨e', es⟩⟩
  case cons.cons => simp [TSMReader.block]
  -- No entry of the key is left behind the current one, so that the next key is the one ahead.
  all_goals
    cases it.rest with
    | nil => simp
    | cons ke rest =>
      obtain ⟨e, es, he⟩ := exists_cons_of_ne_nil ke.entries_ne
      simp [TSMReader.keyBlocks, he, TSMReader.block]

theorem BlockIterator.remaining_eq (h : it.entries ≠ []) : it.remaining = it.ahead.length + 1 := by
  obtain ⟨e, es, he⟩ := exists_cons_of_ne_nil h
  simp only [remaining, ahead, he, length_append, length_map,
    tail_cons, length_cons, length_flatMap, TSMReader.keyBlocks]
  omega

/-- The loop over the blocks of one key takes the run of that key off the front. -/
theorem BlockIterator.readRun_spec (hkey : key ≠ []) : ∀ (n : ℕ) (it : BlockIterator β)
    (acc : List (Block β)), it.ahead.length < n →
    ∃ it' taken, it.readRun key n acc = (it', acc ++ taken) ∧ it.ahead = taken ++ it'.ahead ∧
      (∀ b ∈ taken, b.key = key) ∧ ∀ b ∈ it'.ahead.head?, b.key ≠ key
  | 0, it, acc, h => absurd h (Nat.not_lt_zero _)
  | n + 1, it, acc, h => by
    rw [readRun, it.peekNext_eq]
    split_ifs with hpeek
    · rcases it.next_spec with ⟨hnil, -⟩ | ⟨e, es, -, he, hahead⟩
      · rw [hnil] at hpeek
        exact absurd hpeek.symm hkey
      · rw [hahead] at hpeek h
        obtain ⟨it', taken, hrun, hsplit, hk, hhead⟩ := readRun_spec hkey n it.next.2
          (acc ++ [it.next.2.block e]) (by simpa using h)
        refine ⟨it', it.next.2.block e :: taken, ?_, ?_, ?_, hhead⟩
        · dsimp only
          rw [he]
          simp only [hrun, append_assoc, singleton_append]
        · rw [hahead, hsplit, cons_append]
        · exact forall_mem_cons.mpr ⟨hpeek, hk⟩
    · refine ⟨it, [], by simp, by simp, by simp, fun b hb hbk => hpeek ?_⟩
      rw [Option.mem_def.mp hb]
      exact hbk

/-! ### Sources -/

/-- The blocks of a source that `gather` has not taken. -/
def Source.pending (s : Source β) : List (Block β) := s.buf ++ s.iter.ahead

/-- The buffer holds the run of one key. -/
structure Source.Run (s : Source β) : Prop where
  same : ∀ b ∈ s.buf, ∀ b' ∈ s.buf, b.key = b'.key
  maximal : ∀ b ∈ s.buf, ∀ b' ∈ s.iter.ahead.head?, b'.key ≠ b.key

variable {s : Source β}

theorem Source.fill_spec (hkey : ∀ b ∈ s.pending, b.key ≠ []) (h : s.Run) :
    s.fill.pending = s.pending ∧ s.fill.Run ∧ (s.fill.buf = [] → s.pending = []) := by
  rw [fill]
  cases hb : s.buf with
  | cons b bs => exact ⟨rfl, h, fun hnil => by simp [hb] at hnil⟩
  | nil =>
    have hpend : s.pending = s.iter.ahead := by simp [pending, hb]
    rw [hpend] at hkey ⊢
    rcases s.iter.next_spec with ⟨hnil, hf, hnil', -⟩ | ⟨e, es, ht, he, hahead⟩
    · rcases hnext : s.iter.next with ⟨ok, it⟩
      rw [hnext] at hf hnil'
      subst hf
      exact ⟨by simp [pending, hnil, hnil'], ⟨by simp, by simp⟩, fun _ => hnil⟩
    · rcases hnext : s.iter.next with ⟨ok, it⟩
      rw [hnext] at ht he hahead
      dsimp only at ht he hahead
      subst ht
      have hk : it.key ≠ [] := by
        have := hkey (it.block e) (by rw [hahead]; exact mem_cons_self)
        exact this
      obtain ⟨it', taken, hrun, hsplit, htk, hhead⟩ := readRun_spec hk it.remaining it
        [it.block e] (by rw [it.remaining_eq (by simp [he])]; omega)
      have hall : ∀ b ∈ it.block e :: taken, b.key = it.key := forall_mem_cons.mpr ⟨rfl, htk⟩
      simp only [he, hrun, pending, singleton_append]
      refine ⟨by rw [hahead, hsplit, cons_append], ⟨?_, ?_⟩, by simp⟩
      · exact fun b hb b' hb' => (hall b hb).trans (hall b' hb').symm
      · exact fun b hb b' hb' => (hall b hb).symm ▸ hhead b' hb'

theorem foldl_minKeyStep_spec : ∀ (ss : List (Source β)) (m : Key × ℕ),
    (∀ s ∈ ss, ∀ b ∈ s.buf, b.key ≠ []) →
    (ss.foldl minKeyStep m = m ∨ ∃ s ∈ ss, ∃ b ∈ s.buf.head?, ss.foldl minKeyStep m = (b.key, b.typ)) ∧
      (m.1 ≠ [] → (ss.foldl minKeyStep m).1 ≠ [] ∧ (ss.foldl minKeyStep m).1 ≤ m.1) ∧
      ∀ s ∈ ss, ∀ b ∈ s.buf.head?, (ss.foldl minKeyStep m).1 ≠ [] ∧ (ss.foldl minKeyStep m).1 ≤ b.key
  | [], m, _ => by simp
  | s :: ss, m, hkey => by
    obtain ⟨i1, i2, i3⟩ := foldl_minKeyStep_spec ss (minKeyStep m s)
      (forall_mem_cons.mp hkey).2
    have hs := hkey s mem_cons_self
    rw [foldl_cons]
    cases hb : s.buf with
    | nil =>
      have hm : minKeyStep m s = m := by simp [minKeyStep, hb]
      rw [hm] at i1 i2 i3 ⊢
      exact ⟨i1.imp_right exists_mem_cons_of_exists, i2, forall_mem_cons.mpr ⟨by simp [hb], i3⟩⟩
    | cons b bs =>
      have hbk : b.key ≠ [] := hs b (by rw [hb]; exact mem_cons_self)
      -- after the step the key is set, and not past `b`
      have hstep : (minKeyStep m s = m ∧ m.1 ≠ [] ∧ m.1 ≤ b.key) ∨ minKeyStep m s = (b.key, b.typ) ∧
          (m.1 ≠ [] → b.key ≤ m.1) := by
        simp only [minKeyStep, hb]
        split_ifs with hc
        · refine .inr ⟨rfl, fun hm => ?_⟩
          rcases hc with hc | hc
          · exact absurd hc hm
          · exact hc.le
        · rw [not_or, not_lt] at hc
          exact .inl ⟨rfl, hc⟩
      rcases hstep with ⟨hm, hne, hle⟩ | ⟨hm, hle⟩
      · rw [hm] at i1 i2 i3 ⊢
        refine ⟨i1.imp_right exists_mem_cons_of_exists, i2, forall_mem_cons.mpr ⟨?_, i3⟩⟩
        intro b' hb'
        obtain rfl : b = b' := by simpa [hb] using hb'
        exact ⟨(i2 hne).1, (i2 hne).2.trans hle⟩
      · rw [hm] at i1 i2 i3 ⊢
        refine ⟨.inr ?_, fun hmne => ⟨(i2 hbk).1, (i2 hbk).2.trans (hle hmne)⟩,
          forall_mem_cons.mpr ⟨?_, i3⟩⟩
        · rcases i1 with i1 | i1
          · exact ⟨s, mem_cons_self, b, by simp [hb], i1⟩
          · exact exists_mem_cons_of_exists i1
        · intro b' hb'
          obtain rfl : b = b' := by simpa [hb] using hb'
          exact i2 hbk

/-- `minKeyOf` is the first key of some buffer, and no buffer starts with a smaller one. -/
theorem minKeyOf_spec {ss : List (Source β)} (hkey : ∀ s ∈ ss, ∀ b ∈ s.buf, b.key ≠ []) :
    ((∀ s ∈ ss, s.buf = []) ∧ minKeyOf ss = ([], 0)) ∨
      ((∃ s ∈ ss, ∃ b ∈ s.buf.head?, minKeyOf ss = (b.key, b.typ)) ∧
        ∀ s ∈ ss, ∀ b ∈ s.buf.head?, (minKeyOf ss).1 ≤ b.key) := by
  obtain ⟨h1, -, h3⟩ := foldl_minKeyStep_spec ss ([], 0) hkey
  rw [← minKeyOf] at h1 h3
  by_cases hall : ∀ s ∈ ss, s.buf = []
  · refine .inl ⟨hall, ?_⟩
    rcases h1 with h1 | ⟨s, hs, b, hb, -⟩
    · exact h1
    · simp [hall s hs] at hb
  · refine .inr ⟨?_, fun s hs b hb => (h3 s hs b hb).2⟩
    rcases h1 with h1 | h1
    · obtain ⟨s, hs, hne⟩ := not_forall₂.mp hall
      obtain ⟨b, bs, hb⟩ := exists_cons_of_ne_nil hne
      exact absurd (congrArg Prod.fst h1) (h3 s hs b (by simp [hb])).1
    · exact h1

/-! ### gather -/

/-- The blocks of a filled source that `gather` moves when `key` is the smallest key. -/
def Source.taken (key : Key) (s : Source β) : List (Block β) := if s.holds key then s.buf else []

/-- The source after `gather`. -/
def Source.dropKey (key : Key) (s : Source β) : Source β := if s.holds key then { s with buf := [] } else s

theorem Source.pending_split (key : Key) (s : Source β) : s.pending = s.taken key ++ (s.dropKey key).pending := by
  rw [taken, dropKey]
  split_ifs <;> simp [pending]

theorem Source.Run.dropKey (h : s.Run) (key : Key) : (s.dropKey key).Run := by
  rw [Source.dropKey]
  split_ifs
  · exact ⟨by simp, by simp⟩
  · exact h

theorem Source.holds_iff : s.holds key = true ↔ ∃ b ∈ s.buf.head?, b.key = key := by
  rw [holds]
  cases s.buf <;> simp

theorem Source.taken_key (h : s.Run) : ∀ b ∈ s.taken key, b.key = key := by
  intro b hb
  rw [taken] at hb
  split_ifs at hb with hh
  · obtain ⟨b', hb', rfl⟩ := holds_iff.mp hh
    exact h.same b hb b' (mem_of_mem_head? hb')
  · cases hb

section Gather
variable (k : TsmBatchKeyIterator β α)

@[simp] theorem gather_size : (gather k).size = k.size := rfl
@[simp] theorem gather_mergedValues : (gather k).mergedValues = k.mergedValues := rfl
@[simp] theorem gather_merged : (gather k).merged = k.merged := rfl
@[simp] theorem gather_err : (gather k).err = k.err := rfl

theorem gather_key_typ : ((gather k).key, (gather k).typ) = minKeyOf (k.sources.map fill) := rfl

theorem gather_sources : (gather k).sources = k.sources.map fun s => s.fill.dropKey (gather k).key := map_map

theorem gather_blocks : (gather k).blocks = k.blocks ++ k.sources.flatMap fun s => s.fill.taken (gather k).key := by
  have htaken : ∀ (key : Key) (ss : List (Source β)),
      (ss.filter (·.holds key)).flatMap (·.buf) = ss.flatMap (taken key) := by
    intro key ss
    induction ss with
    | nil => rfl
    | cons s ss ih => cases h : s.holds key <;> simp [taken, h, ih]
  rw [gather]
  simp only [htaken, flatMap_map]

end Gather

end InfluxDB.Tsm.Compact
