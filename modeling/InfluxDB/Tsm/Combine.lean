import Mathlib.Data.List.Flatten
import Mathlib.Data.List.TakeWhile
import InfluxDB.Tsm.BatchKeyIterator

/-! What one call of `merge` does to the blocks of a key.

    The invariant is a frontier `F`: every point at or before `F` has been read out of every block
    and sits in the values already emitted or pending, every later point is still in the blocks. A
    window `[minTime, maxTime]` that `combine` computes is downward closed among the unread points
    (`foldl_adjustWindow_spec`), so reading it moves the frontier to `maxTime`. The sort only swaps
    blocks with disjoint time ranges, which is why the last block holding a timestamp stays the one of
    the last file. -/

namespace InfluxDB.Tsm.Compact
open Lib List Block

variable {β α : Type}

/-- A block codec that decodes what it encodes, on the points it can produce. -/
structure LawfulCodec (β α : Type) extends Codec β α where
  /-- Points of a type that the encoder accepts (one with a NaN float is not). -/
  encodable : ℕ → ℤ × α → Prop
  encodable_int64 : ∀ {typ p}, encodable typ p → IsInt64 p.1
  decode_encodable : ∀ {typ b v}, decode typ b = .ok v → ∀ p ∈ v, encodable typ p
  decode_blockCount : ∀ {typ b v}, decode typ b = .ok v → ∃ n, blockCount b = some n
  encode_decode : ∀ {typ v}, isBlockType typ = true → v ≠ [] → Ascending v →
    (∀ p ∈ v, encodable typ p) → ∃ b, encode typ v = .ok b ∧ decode typ b = .ok v

/-- Blocks that are their points. -/
def plain : LawfulCodec (Values ℕ) ℕ where
  decode _ b := if ∀ p ∈ b, IsInt64 p.1 then .ok b else .error "timestamp out of range"
  encode _ v := .ok v
  blockCount b := some b.length
  encodable _ p := IsInt64 p.1
  encodable_int64 h := h
  decode_encodable := by
    intro typ b v h
    split_ifs at h with hb
    cases h
    exact hb
  decode_blockCount _ := ⟨_, rfl⟩
  encode_decode _ _ _ h := ⟨_, rfl, if_pos h⟩

variable (c : LawfulCodec β α) (typ : ℕ)

/-- The decoded points of a block. -/
def vals (b : Block β) : Values α :=
  match c.decode typ b.b with
  | .ok v => v
  | .error _ => []

/-- The points of a block that its tombstones leave. -/
def surv (b : Block β) : Values α := survivors b.tombstones (vals c typ b)

/-- All surviving points of a list of blocks, in the order of the list. -/
def content (bs : List (Block β)) : Values α := bs.flatMap (surv c typ)

/-- A block whose bytes decode to the sorted points its index entry announces. -/
structure WfBlock (b : Block β) : Prop where
  decode : c.decode typ b.b = .ok (vals c typ b)
  asc : Ascending (vals c typ b)
  min : (vals c typ b).minTime? = some b.minTime
  max : (vals c typ b).maxTime? = some b.maxTime

/-- The read window of the block covers exactly its points at or before `F`. -/
def ReadUpTo (F : ℤ) (b : Block β) : Prop :=
  (b.readMin = maxInt64 ∧ b.readMax = minInt64 ∧ F < b.minTime) ∨
    (b.readMin = b.minTime ∧ b.readMax ≤ F ∧ (∃ p ∈ vals c typ b, p.1 = b.readMax) ∧
      ∀ p ∈ vals c typ b, p.1 ≤ F → p.1 ≤ b.readMax)

variable {c typ}

namespace WfBlock
variable {b : Block β} (h : WfBlock c typ b)
include h

theorem min_mem : ∃ p ∈ vals c typ b, p.1 = b.minTime := mem_of_minTime? h.min

theorem max_mem : ∃ p ∈ vals c typ b, p.1 = b.maxTime := mem_of_maxTime? h.max

theorem min_le : ∀ p ∈ vals c typ b, b.minTime ≤ p.1 := minTime?_le h.asc h.min

theorem le_max : ∀ p ∈ vals c typ b, p.1 ≤ b.maxTime := le_maxTime? h.asc h.max

theorem min_le_max : b.minTime ≤ b.maxTime := by
  obtain ⟨p, hp, he⟩ := h.max_mem
  exact he ▸ h.min_le p hp

theorem int64 : ∀ p ∈ vals c typ b, IsInt64 p.1 := fun p hp =>
  c.encodable_int64 (c.decode_encodable h.decode p hp)

theorem int64_min : IsInt64 b.minTime := by
  obtain ⟨p, hp, he⟩ := h.min_mem
  exact he ▸ h.int64 p hp

theorem surv_range : ∀ p ∈ surv c typ b, b.minTime ≤ p.1 ∧ p.1 ≤ b.maxTime := fun p hp =>
  have hp := (mem_filter.mp hp).1
  ⟨h.min_le p hp, h.le_max p hp⟩

section

variable {F : ℤ} (hr : ReadUpTo c typ F b)
include hr

/-- A point lies in the read window iff it is not past the frontier. -/
theorem mem_readWindow_iff {p : ℤ × α} (hp : p ∈ vals c typ b) :
    (b.readMin ≤ p.1 ∧ p.1 ≤ b.readMax) ↔ p.1 ≤ F := by
  have hmin := h.min_le p hp
  rcases hr with ⟨h1, h2, hF⟩ | ⟨h1, hle, _, hall⟩
  · rw [h1, h2]
    unfold minInt64 maxInt64
    omega
  · rw [h1]
    exact ⟨fun hw => hw.2.trans hle, fun hF => ⟨hmin, hall p hp hF⟩⟩

theorem read_iff : b.read = true ↔ b.maxTime ≤ F := by
  obtain ⟨p, hp, he⟩ := h.max_mem
  have hmm := h.min_le_max
  rw [Block.read, Bool.and_eq_true, decide_eq_true_eq, decide_eq_true_eq]
  rcases hr with ⟨h1, h2, hF⟩ | ⟨h1, hle, _, hall⟩
  · rw [h1, h2]
    unfold minInt64 maxInt64
    omega
  · refine ⟨fun hw => hw.2.trans hle, fun hF => ⟨h1.le, ?_⟩⟩
    exact he ▸ hall p hp (he.trans_le hF)

/-- A block that is not partially read is untouched or read to its end. -/
theorem untouched_or_read (hp : b.partiallyRead = false) :
    (b.readMin = maxInt64 ∧ b.readMax = minInt64 ∧ F < b.minTime) ∨ b.maxTime ≤ F := by
  rcases hr with hu | ⟨h1, hle, ⟨p, hp', he⟩, _⟩
  · exact .inl hu
  · right
    have hmin := h.min_le p hp'
    have hint := h.int64_min
    rw [partiallyRead] at hp
    split at hp
    · rename_i hinit
      unfold IsInt64 at hint
      unfold minInt64 maxInt64 at *
      omega
    · simp only [Bool.or_eq_false_iff, decide_eq_false_iff_not, ne_eq, not_not] at hp
      exact hp.2 ▸ hle

theorem exclude_read :
    (vals c typ b).exclude b.readMin b.readMax = (vals c typ b).filter (fun p => decide (F < p.1)) := by
  rw [exclude_eq_filter h.asc]
  refine filter_congr fun p hp => ?_
  rw [Bool.eq_iff_iff]
  have := h.mem_readWindow_iff hr hp
  simp only [Bool.not_eq_true', Bool.and_eq_false_iff, decide_eq_false_iff_not, decide_eq_true_eq]
  omega

end

end WfBlock

variable {b : Block β} {F : ℤ} {x y : Block β} {G : ℤ}

theorem ReadUpTo.mono_of_read (h : WfBlock c typ b)
    (hr : ReadUpTo c typ F b) (hread : b.maxTime ≤ F) (hFG : F ≤ G) : ReadUpTo c typ G b := by
  have hmm := h.min_le_max
  rcases hr with ⟨_, _, hF⟩ | ⟨h1, hle, hex, hall⟩
  · omega
  · exact .inr ⟨h1, hle.trans hFG, hex, fun p hp _ => hall p hp ((h.le_max p hp).trans hread)⟩

/-! ### Contents under sorting and reading -/

theorem content_append (a b : List (Block β)) :
    content c typ (a ++ b) = content c typ a ++ content c typ b := by simp [content]

theorem content_cons (b : Block β) (bs : List (Block β)) :
    content c typ (b :: bs) = surv c typ b ++ content c typ bs := rfl

/-- Blocks of one key: an inversion means that the ranges are apart. -/
theorem less_iff (hk : x.key = y.key) (hx : WfBlock c typ x) : less x y = true ↔ x.maxTime < y.minTime := by
  have := hx.min_le_max
  rw [less, if_pos hk, Bool.and_eq_true, decide_eq_true_eq, decide_eq_true_eq]
  omega

/-- Blocks that `less` orders hold no common timestamp, so they may be exchanged. -/
theorem latest_content_swap (hk : x.key = y.key) (hx : WfBlock c typ x)
    (hy : WfBlock c typ y) (hxy : less x y = true) (u w : List (Block β)) (t : ℤ) :
    latest (content c typ (u ++ x :: y :: w)) t = latest (content c typ (u ++ y :: x :: w)) t := by
  have hlt := (less_iff hk hx).mp hxy
  have hcomm : latest (surv c typ x ++ surv c typ y) t = latest (surv c typ y ++ surv c typ x) t := by
    refine latest_append_comm (fun p hp q hq => ?_) t
    have := hx.surv_range p hp
    have := hy.surv_range q hq
    omega
  simp only [content_append, content_cons]
  rw [← append_assoc (surv c typ x), ← append_assoc (surv c typ y), latest_append,
    latest_append (surv c typ x ++ _), hcomm, ← latest_append, ← latest_append]

theorem less_asymm (x y : Block β) (hxy : less x y = true) : less y x = false := by
  rw [less] at hxy ⊢
  split at hxy
  · rename_i hkey
    rw [if_pos hkey.symm]
    simp only [Bool.and_eq_true, decide_eq_true_eq, Bool.and_eq_false_iff, decide_eq_false_iff_not] at hxy ⊢
    omega
  · rename_i hkey
    rw [if_neg (Ne.symm hkey)]
    simp only [decide_eq_true_eq, decide_eq_false_iff_not] at hxy ⊢
    exact lt_asymm hxy

variable {bs : List (Block β)}

/-- The sort keeps the blocks, leaves neighbours in order and does not change who is last. -/
theorem sort_spec {key : Key} (hk : ∀ b ∈ bs, b.key = key)
    (hwf : ∀ b ∈ bs, WfBlock c typ b) :
    (insertionSort less bs).IsChain (fun x y => x.minTime ≤ y.maxTime) ∧
      ∀ t, latest (content c typ (insertionSort less bs)) t = latest (content c typ bs) t := by
  have hmem : ∀ b, b ∈ insertionSort less bs ↔ b ∈ bs := fun b =>
    (insertionSort_perm less bs).mem_iff
  refine ⟨?_, fun t => ?_⟩
  · refine List.IsChain.imp_of_mem_imp (fun x y hx hy hxy => ?_) (insertionSort_isChain less_asymm bs)
    rw [hmem] at hx hy
    by_contra hc
    have := (less_iff ((hk y hy).trans (hk x hx).symm) (hwf y hy)).mpr (not_le.mp hc)
    rw [this] at hxy
    cases hxy
  · -- the swaps exchange blocks of `bs`, so membership is carried along
    have hinv := insertionSort_invariant (fun l : List (Block β) =>
      (∀ b ∈ l, b ∈ bs) → latest (content c typ l) t = latest (content c typ bs) t)
      (fun u w x y (hxy : less x y = true) => ?_) bs
    · exact hinv.mpr (fun _ => rfl) fun b hb => (hmem b).mp hb
    · have hperm : (∀ b ∈ u ++ x :: y :: w, b ∈ bs) ↔ ∀ b ∈ u ++ y :: x :: w, b ∈ bs := by
        simp only [mem_append, mem_cons]
        exact forall_congr' fun b => by tauto
      rw [eq_iff_iff, hperm]
      refine forall_congr' fun hm => ?_
      have hx : x ∈ bs := hm x (by simp)
      have hy : y ∈ bs := hm y (by simp)
      rw [latest_content_swap ((hk x hx).trans (hk y hy).symm) (hwf x hx) (hwf y hy) hxy]

/-! ### The window -/

/-- Scanning the blocks leaves a window that starts no later than any unread block and ends with the
    last timestamp of one of them. Neighbours in sort order keep the next block in reach of it. -/
theorem foldl_adjustWindow_spec : ∀ (bs : List (Block β)) (w : ℤ × ℤ) (prev : ℤ),
    (∀ b ∈ bs, b.minTime ≤ b.maxTime) → (∀ b ∈ bs, b.read = true ↔ b.maxTime ≤ F) →
    bs.IsChain (fun x y => x.minTime ≤ y.maxTime) → (∀ b ∈ bs.head?, prev ≤ b.maxTime) →
    w.1 ≤ w.2 → w.1 ≤ max (F + 1) prev →
    (bs.foldl adjustWindow w).1 ≤ w.1 ∧
      ((bs.foldl adjustWindow w).2 = w.2 ∨ ∃ b ∈ bs, b.read = false ∧
        (bs.foldl adjustWindow w).2 = b.maxTime) ∧
      ∀ b ∈ bs, b.read = false → (bs.foldl adjustWindow w).1 ≤ b.minTime
  | [], w, prev, _, _, _, _, _, _ => by simp
  | b :: bs, w, prev, hmm, hrd, hch, hprev, hw, hw1 => by
    have hrb := hrd b mem_cons_self
    have hpb := hprev b rfl
    -- the window after `b`, with `b.minTime` in the role of `prev`
    have hstep : (adjustWindow w b).1 ≤ w.1 ∧
        ((adjustWindow w b).2 = w.2 ∨ b.read = false ∧ (adjustWindow w b).2 = b.maxTime) ∧
        (b.read = false → (adjustWindow w b).1 ≤ b.minTime) ∧
        (adjustWindow w b).1 ≤ (adjustWindow w b).2 ∧
        (adjustWindow w b).1 ≤ max (F + 1) b.minTime := by
      cases hread : b.read with
      | true =>
        have hF := hrb.mp hread
        have : adjustWindow w b = w := by simp [adjustWindow, hread]
        rw [this]
        refine ⟨le_rfl, .inl rfl, by simp, hw, ?_⟩
        omega
      | false =>
        have hF : F < b.maxTime := by
          by_contra hc
          rw [hrb.mpr (not_lt.mp hc)] at hread
          cases hread
        rw [adjustWindow]
        by_cases ho : b.overlapsTimeRange w.1 w.2 = true
        · rw [hread, ho]
          simp only [Bool.not_false, Bool.and_self, if_true, true_and]
          split_ifs <;> refine ⟨?_, ?_, fun _ => ?_, ?_, ?_⟩ <;> omega
        · rw [Bool.not_eq_true] at ho
          rw [ho]
          simp only [Bool.false_and, Bool.false_eq_true, if_false]
          simp only [overlapsTimeRange, Bool.and_eq_false_iff, decide_eq_false_iff_not] at ho
          refine ⟨le_refl _, by simp, fun _ => ?_, hw, ?_⟩ <;> omega
    obtain ⟨h1, h2, h3, h4, h5⟩ := hstep
    have hch' := isChain_cons.mp hch
    obtain ⟨i1, i2, i3⟩ := foldl_adjustWindow_spec bs (adjustWindow w b) b.minTime
      (forall_mem_cons.mp hmm).2 (forall_mem_cons.mp hrd).2
      hch'.2 hch'.1 h4 h5
    rw [foldl_cons]
    refine ⟨i1.trans h1, ?_, ?_⟩
    · rcases i2 with i2 | ⟨b', hb', hr', he⟩
      · rcases h2 with h2 | ⟨hr, he⟩
        · exact .inl (i2.trans h2)
        · exact .inr ⟨b, mem_cons_self, hr, i2.trans he⟩
      · exact .inr ⟨b', mem_cons_of_mem _ hb', hr', he⟩
    · intro b' hb' hr'
      rcases mem_cons.mp hb' with rfl | hb'
      · exact i1.trans (h3 hr')
      · exact i3 b' hb' hr'

/-- The points of a block in the half-open window `(F, mx]`. -/
def window (c : LawfulCodec β α) (typ : ℕ) (F mx : ℤ) (b : Block β) : Values α :=
  (vals c typ b).filter (fun p => decide (F < p.1) && decide (p.1 ≤ mx))

/-- The block after its points in `(F, mx]` have been read. -/
def readOn (c : LawfulCodec β α) (typ : ℕ) (F mx : ℤ) (b : Block β) : Block β :=
  match (window c typ F mx b).minTime?, (window c typ F mx b).maxTime? with
  | some lo, some hi => b.markRead lo hi
  | _, _ => b

section ReadOn
variable {mx : ℤ}

theorem mem_window {p : ℤ × α} : p ∈ window c typ F mx b ↔ p ∈ vals c typ b ∧ F < p.1 ∧ p.1 ≤ mx := by
  simp only [window, mem_filter, Bool.and_eq_true, decide_eq_true_eq]

theorem readOn_of_window_nil (h : window c typ F mx b = []) : readOn c typ F mx b = b := by
  simp [readOn, h]

/-- Reading changes the read window only. -/
theorem readOn_eq (c : LawfulCodec β α) (typ : ℕ) (F mx : ℤ) (b : Block β) :
    ∃ lo hi, readOn c typ F mx b = { b with readMin := lo, readMax := hi } := by
  rw [readOn]
  split
  · exact ⟨_, _, rfl⟩
  · exact ⟨_, _, rfl⟩

@[simp] theorem readOn_key : (readOn c typ F mx b).key = b.key := by
  obtain ⟨_, _, h⟩ := readOn_eq c typ F mx b; rw [h]

@[simp] theorem readOn_minTime : (readOn c typ F mx b).minTime = b.minTime := by
  obtain ⟨_, _, h⟩ := readOn_eq c typ F mx b; rw [h]

@[simp] theorem readOn_maxTime : (readOn c typ F mx b).maxTime = b.maxTime := by
  obtain ⟨_, _, h⟩ := readOn_eq c typ F mx b; rw [h]

@[simp] theorem readOn_tombstones : (readOn c typ F mx b).tombstones = b.tombstones := by
  obtain ⟨_, _, h⟩ := readOn_eq c typ F mx b; rw [h]

@[simp] theorem vals_readOn : vals c typ (readOn c typ F mx b) = vals c typ b := by
  obtain ⟨_, _, h⟩ := readOn_eq c typ F mx b; rw [h]; rfl

@[simp] theorem surv_readOn : surv c typ (readOn c typ F mx b) = surv c typ b := by
  obtain ⟨_, _, h⟩ := readOn_eq c typ F mx b; rw [h]; rfl

section

variable (h : WfBlock c typ b)
include h

theorem WfBlock.readOn : WfBlock c typ (readOn c typ F mx b) := by
  obtain ⟨_, _, he⟩ := readOn_eq c typ F mx b
  rw [he]
  exact ⟨h.decode, h.asc, h.min, h.max⟩

theorem WfBlock.asc_window : Ascending (window c typ F mx b) := h.asc.filter _

theorem WfBlock.window_eq_nil_of_read (hr : b.maxTime ≤ F) : window c typ F mx b = [] := by
  refine eq_nil_iff_forall_not_mem.mpr fun p hp => ?_
  obtain ⟨hp, hF, _⟩ := mem_window.mp hp
  exact absurd (h.le_max p hp) (not_le.mpr (hr.trans_lt hF))

theorem WfBlock.window_eq_nil_of_lt (hr : mx < b.minTime) : window c typ F mx b = [] := by
  refine eq_nil_iff_forall_not_mem.mpr fun p hp => ?_
  obtain ⟨hp, _, hmx⟩ := mem_window.mp hp
  exact absurd (h.min_le p hp) (not_le.mpr (hmx.trans_lt hr))

/-- Reading the window `(F, mx]` moves the frontier of the block to `mx`. -/
theorem WfBlock.readUpTo_readOn (hr : ReadUpTo c typ F b) (hF : F < mx) :
    ReadUpTo c typ mx (Compact.readOn c typ F mx b) := by
  by_cases hw : window c typ F mx b = []
  · rw [readOn_of_window_nil hw]
    have hnone : ∀ p ∈ vals c typ b, F < p.1 → mx < p.1 := by
      intro p hp hFp
      by_contra hc
      have hpw : p ∈ window c typ F mx b := mem_window.mpr ⟨hp, hFp, not_lt.mp hc⟩
      rw [hw] at hpw
      cases hpw
    rcases hr with ⟨h1, h2, hFb⟩ | ⟨h1, hle, hex, hall⟩
    · obtain ⟨p, hp, he⟩ := h.min_mem
      exact .inl ⟨h1, h2, he ▸ hnone p hp (he ▸ hFb)⟩
    · refine .inr ⟨h1, hle.trans hF.le, hex, fun p hp hpm => hall p hp ?_⟩
      by_contra hc
      exact absurd (hnone p hp (not_le.mp hc)) (not_lt.mpr hpm)
  · have hasc : Ascending (window c typ F mx b) := h.asc.filter _
    obtain ⟨lo, hlo⟩ := exists_minTime?_of_ne_nil hw
    obtain ⟨hi, hhi⟩ := exists_maxTime?_of_ne_nil hw
    obtain ⟨p, hp, rfl⟩ := mem_of_minTime? hlo
    obtain ⟨q, hq, rfl⟩ := mem_of_maxTime? hhi
    have hlow := minTime?_le hasc hlo
    have hhigh := le_maxTime? hasc hhi
    obtain ⟨hpv, hFp, hpm⟩ := mem_window.mp hp
    obtain ⟨hqv, hFq, hqm⟩ := mem_window.mp hq
    have hbmin := h.min_le p hpv
    have hqint := h.int64 q hqv
    have hpint := h.int64 p hpv
    unfold IsInt64 at hqint hpint
    have he : Compact.readOn c typ F mx b = b.markRead p.1 q.1 := by simp [Compact.readOn, hlo, hhi]
    have hmax : ∀ r ∈ vals c typ b, r.1 ≤ mx → r.1 ≤ q.1 := by
      intro r hr hrm
      by_cases hFr : F < r.1
      · exact hhigh r (mem_window.mpr ⟨hr, hFr, hrm⟩)
      · omega
    have hmark : (b.markRead p.1 q.1).readMin = b.minTime ∧ (b.markRead p.1 q.1).readMax = q.1 := by
      simp only [markRead]
      rcases hr with ⟨h1, h2, hFb⟩ | ⟨h1, hle, -, -⟩
      · -- an untouched block is read from its first point on
        obtain ⟨r, hrv, hrm⟩ := h.min_mem
        have hrp : p.1 ≤ b.minTime := hrm ▸ hlow r (mem_window.mpr ⟨hrv, by omega, by omega⟩)
        rw [h1, h2]
        constructor <;> split_ifs <;> omega
      · rw [h1]
        constructor <;> split_ifs <;> omega
    rw [he]
    refine .inr ⟨hmark.1, hmark.2.trans_le hqm, ⟨q, hqv, hmark.2.symm⟩, fun r hr hrm => ?_⟩
    exact hmark.2.symm ▸ hmax r hr hrm

end

end ReadOn

/-- Merge the surviving points of the window of every block, later blocks over earlier ones. -/
def mergeWindow (c : LawfulCodec β α) (typ : ℕ) (F mx : ℤ) (acc : Values α) (bs : List (Block β)) : Values α :=
  bs.foldl (fun acc b => acc.merge (survivors b.tombstones (window c typ F mx b))) acc

theorem merge_nil (a : Values α) : a.merge [] = a := by
  cases a with
  | nil => rfl
  | cons p a =>
    rw [Values.merge]
    split
    · simp_all
    · simp_all
    · rfl

/-- On well-formed blocks and a window that starts before every unread block, the loop of `combine`
    reads exactly the points between the frontier and the end of the window. -/
theorem readWindow_eq {mn mx : ℤ} (hF : F < mx) : ∀ (bs : List (Block β)) (acc : Values α),
    (∀ b ∈ bs, WfBlock c typ b) → (∀ b ∈ bs, ReadUpTo c typ F b) →
    (∀ b ∈ bs, b.read = false → mn ≤ b.minTime) →
    readWindow c.toCodec typ mn mx acc bs = .returned (none, bs.map (readOn c typ F mx), mergeWindow c typ F mx acc bs)
  | [], acc, _, _, _ => rfl
  | b :: bs, acc, hwf, hrd, hmn => by
    have hb := hwf b mem_cons_self
    have hr := hrd b mem_cons_self
    have ih := fun acc => readWindow_eq hF bs acc (forall_mem_cons.mp hwf).2
      (forall_mem_cons.mp hrd).2 (forall_mem_cons.mp hmn).2
    rw [readWindow]
    by_cases hskip : (!b.overlapsTimeRange mn mx || b.read) = true
    · have hw : window c typ F mx b = [] := by
        rcases Bool.or_eq_true _ _ ▸ hskip with ho | hread
        · cases hread : b.read with
          | true => exact hb.window_eq_nil_of_read ((hb.read_iff hr).mp hread)
          | false =>
            have := hmn b mem_cons_self hread
            have := hb.min_le_max
            refine hb.window_eq_nil_of_lt ?_
            simp only [overlapsTimeRange, Bool.not_eq_true', Bool.and_eq_false_iff, decide_eq_false_iff_not] at ho
            omega
        · exact hb.window_eq_nil_of_read ((hb.read_iff hr).mp hread)
      rw [if_pos hskip, ih]
      simp [Outcome.map, mergeWindow, readOn_of_window_nil hw, hw, survivors, merge_nil]
    · have hread : b.read = false := by simp_all
      have hv : (((vals c typ b).exclude b.readMin b.readMax).include mn mx) = window c typ F mx b := by
        rw [hb.exclude_read hr, include_eq_filter (hb.asc.filter _), filter_filter, window]
        refine filter_congr fun p hp => ?_
        have := hb.min_le p hp
        have := hmn b mem_cons_self hread
        rw [Bool.eq_iff_iff]
        simp only [Bool.and_eq_true, decide_eq_true_eq]
        omega
      rw [if_neg hskip, hb.decode]
      simp only [hb.max, ne_eq, not_true_eq_false, false_and, if_false, hv]
      rw [ih]
      change Outcome.returned (none, readOn c typ F mx b :: bs.map (readOn c typ F mx),
        mergeWindow c typ F mx (acc.merge (excludeTombstones (readOn c typ F mx b).tombstones
          (window c typ F mx b))) bs) = _
      rw [readOn_tombstones, excludeTombstones_eq_survivors _ hb.asc_window]
      rfl

/-! ### Progress -/

/-- Number of points of the block that are outside of its read window. -/
def left (c : LawfulCodec β α) (typ : ℕ) (b : Block β) : ℕ :=
  ((vals c typ b).filter (fun p => !(decide (b.readMin ≤ p.1) && decide (p.1 ≤ b.readMax)))).length

/-- Number of points that the blocks still hold. -/
def leftAll (c : LawfulCodec β α) (typ : ℕ) (bs : List (Block β)) : ℕ := (bs.map (left c typ)).sum

theorem WfBlock.left_eq (h : WfBlock c typ b) (hr : ReadUpTo c typ F b) :
    left c typ b = ((vals c typ b).filter (fun p => decide (F < p.1))).length := by
  rw [left, ← exclude_eq_filter h.asc, h.exclude_read hr]

variable {mx : ℤ}

/-- Reading a window takes its points out of the block. -/
theorem WfBlock.left_readOn (h : WfBlock c typ b) (hr : ReadUpTo c typ F b)
    (hF : F < mx) : left c typ (Compact.readOn c typ F mx b) + (window c typ F mx b).length = left c typ b := by
  rw [h.readOn.left_eq (h.readUpTo_readOn hr hF), h.left_eq hr, vals_readOn, window]
  have hsplit := (filter_append_perm (fun p : ℤ × α => decide (mx < p.1))
    ((vals c typ b).filter (fun p => decide (F < p.1)))).length_eq
  rw [length_append, filter_filter, filter_filter] at hsplit
  rw [← hsplit]
  congr 2
  all_goals
    refine filter_congr fun p _ => ?_
    rw [Bool.eq_iff_iff]
    simp only [Bool.and_eq_true, decide_eq_true_eq, Bool.not_eq_true', decide_eq_false_iff_not]
    omega

@[simp] theorem leftAll_nil : leftAll c typ ([] : List (Block β)) = 0 := rfl

theorem leftAll_append (a b : List (Block β)) :
    leftAll c typ (a ++ b) = leftAll c typ a + leftAll c typ b := by simp [leftAll]

theorem leftAll_readOn (hF : F < mx) : ∀ (bs : List (Block β)),
    (∀ b ∈ bs, WfBlock c typ b) → (∀ b ∈ bs, ReadUpTo c typ F b) →
    leftAll c typ (bs.map (readOn c typ F mx)) + (bs.flatMap (window c typ F mx)).length = leftAll c typ bs
  | [], _, _ => rfl
  | b :: bs, hwf, hrd => by
    have ih := leftAll_readOn hF bs (forall_mem_cons.mp hwf).2
      (forall_mem_cons.mp hrd).2
    have hb := (hwf b mem_cons_self).left_readOn (hrd b mem_cons_self) hF
    simp only [leftAll, map_cons, sum_cons, flatMap_cons, length_append] at ih ⊢
    omega

/-! ### The merged window -/

theorem mergeWindow_spec (F mx : ℤ) : ∀ (bs : List (Block β)) (acc : Values α),
    (∀ b ∈ bs, WfBlock c typ b) → Ascending acc →
    Ascending (mergeWindow c typ F mx acc bs) ∧ ∀ t, latest (mergeWindow c typ F mx acc bs) t =
      latest (acc ++ (content c typ bs).filter (fun p => decide (F < p.1) && decide (p.1 ≤ mx))) t
  | [], acc, _, ha => ⟨ha, fun t => by simp [mergeWindow, content]⟩
  | b :: bs, acc, hwf, ha => by
    have hb := hwf b mem_cons_self
    obtain ⟨hm, hl⟩ := merge_spec ha
      (ascending_survivors b.tombstones (hb.asc_window : Ascending (window c typ F mx b)))
    obtain ⟨ihm, ihl⟩ := mergeWindow_spec F mx bs _ (forall_mem_cons.mp hwf).2 hm
    refine ⟨ihm, fun t => ?_⟩
    have hcomm : survivors b.tombstones (window c typ F mx b) =
        (surv c typ b).filter (fun p => decide (F < p.1) && decide (p.1 ≤ mx)) := by
      rw [surv, survivors, survivors, window, filter_filter, filter_filter]
      exact filter_congr fun p _ => Bool.and_comm _ _
    calc latest (mergeWindow c typ F mx acc (b :: bs)) t
        = latest (mergeWindow c typ F mx
            (acc.merge (survivors b.tombstones (window c typ F mx b))) bs) t := rfl
      _ = latest ((acc ++ survivors b.tombstones (window c typ F mx b)) ++ (content c typ bs).filter
            (fun p => decide (F < p.1) && decide (p.1 ≤ mx))) t := by
          rw [ihl, latest_append, hl, ← latest_append]
      _ = _ := by rw [hcomm, content_cons, filter_append, append_assoc]

/-! ### The frontier -/

/-- `S` is what the key should hold in the end, `E` what has been emitted for it, `pend` the merged
    values not emitted yet and `bs` the blocks: up to `F` everything is in `E` and `pend`, after `F`
    everything is in `bs`. -/
structure Phase (c : LawfulCodec β α) (typ : ℕ) (S : ℤ → Option α) (F : ℤ) (E pend : Values α)
    (bs : List (Block β)) : Prop where
  wf : ∀ b ∈ bs, WfBlock c typ b
  readTo : ∀ b ∈ bs, ReadUpTo c typ F b
  asc : Ascending (E ++ pend)
  le : ∀ p ∈ E ++ pend, p.1 ≤ F
  before : ∀ t ≤ F, latest (E ++ pend) t = S t
  after : ∀ t, F < t → latest (content c typ bs) t = S t
  enc : ∀ p ∈ pend, c.encodable typ p

theorem latest_eq_none_of_le {s : Values α} {t : ℤ} (h : ∀ p ∈ s, p.1 ≤ F) (ht : F < t) : latest s t = none :=
  (latest_eq_none_iff s t).mpr fun p hp he => absurd (h p hp) (not_le.mpr (he ▸ ht))

theorem mem_content {p : ℤ × α} (h : p ∈ content c typ bs) : ∃ b ∈ bs, p ∈ vals c typ b := by
  obtain ⟨b, hb, hp⟩ := mem_flatMap.mp h
  exact ⟨b, hb, (mem_filter.mp hp).1⟩

theorem content_readOn (bs : List (Block β)) : content c typ (bs.map (readOn c typ F mx)) = content c typ bs := by
  simp [content, flatMap_map]

namespace Phase
variable {S : ℤ → Option α} {E pend : Values α}

/-- Reading a window that is downward closed moves the frontier to its end. -/
theorem readWindow (h : Phase c typ S F E pend bs) (hF : F < mx) :
    Phase c typ S mx E (mergeWindow c typ F mx pend bs) (bs.map (readOn c typ F mx)) := by
  obtain ⟨hE, hpend, hEp⟩ := ascending_append.mp h.asc
  obtain ⟨hasc, hl⟩ := mergeWindow_spec F mx bs pend h.wf hpend
  have hsub := hasc.subset_of_latest_eq hl
  have hnew : ∀ p ∈ (content c typ bs).filter (fun p => decide (F < p.1) && decide (p.1 ≤ mx)),
      F < p.1 ∧ p.1 ≤ mx := fun p hp => by
    simpa only [Bool.and_eq_true, decide_eq_true_eq] using (mem_filter.mp hp).2
  have hlatest : ∀ t, latest (E ++ mergeWindow c typ F mx pend bs) t =
      (if F < t ∧ t ≤ mx then latest (content c typ bs) t else none).or (latest (E ++ pend) t) := by
    intro t
    rw [latest_append, hl, ← latest_append, ← append_assoc, latest_append,
      latest_filter (fun t => decide (F < t) && decide (t ≤ mx))]
    simp only [Bool.and_eq_true, decide_eq_true_eq]
  refine ⟨?_, ?_, ?_, ?_, ?_, ?_, ?_⟩
  · simpa using fun b hb => (h.wf b hb).readOn
  · simpa using fun b hb => (h.wf b hb).readUpTo_readOn (h.readTo b hb) hF
  · refine ascending_append.mpr ⟨hE, hasc, fun p hp q hq => ?_⟩
    rcases mem_append.mp (hsub hq) with hq | hq
    · exact hEp p hp q hq
    · exact (h.le p (mem_append_left _ hp)).trans_lt (hnew q hq).1
  · intro p hp
    rcases mem_append.mp hp with hp | hp
    · exact (h.le p (mem_append_left _ hp)).trans hF.le
    · rcases mem_append.mp (hsub hp) with hp | hp
      · exact (h.le p (mem_append_right _ hp)).trans hF.le
      · exact (hnew p hp).2
  · intro t ht
    rw [hlatest]
    by_cases hFt : F < t
    · rw [if_pos ⟨hFt, ht⟩, h.after t hFt, latest_eq_none_of_le h.le hFt, Option.or_none]
    · rw [if_neg (fun hc => hFt hc.1), Option.none_or, h.before t (not_lt.mp hFt)]
  · intro t ht
    rw [content_readOn, h.after t (hF.trans ht)]
  · intro p hp
    rcases mem_append.mp (hsub hp) with hp | hp
    · exact h.enc p hp
    · obtain ⟨b, hb, hpb⟩ := mem_content (mem_filter.mp hp).1
      exact c.decode_encodable (h.wf b hb).decode p hpb

/-- Blocks that are read to the end can be dropped. -/
theorem dropRead {a : List (Block β)} (h : Phase c typ S F E pend (a ++ bs))
    (ha : ∀ b ∈ a, b.read = true) : Phase c typ S F E pend bs := by
  have hwf := fun b hb => h.wf b (mem_append_right a hb)
  refine ⟨hwf, fun b hb => h.readTo b (mem_append_right a hb), h.asc, h.le, h.before, ?_, h.enc⟩
  intro t ht
  rw [← h.after t ht, content_append, latest_append]
  have hnone : latest (content c typ a) t = none := by
    refine latest_eq_none_of_le (fun p hp => ?_) ht
    obtain ⟨b, hb, hpb⟩ := mem_content hp
    have hbw := h.wf b (mem_append_left _ hb)
    exact (hbw.le_max p hpb).trans ((hbw.read_iff (h.readTo b (mem_append_left _ hb))).mp (ha b hb))
  rw [hnone, Option.or_none]

/-- Pending values become emitted ones. -/
theorem emit {a : Values α} (h : Phase c typ S F E (a ++ pend) bs) : Phase c typ S F (E ++ a) pend bs := by
  have he := append_assoc E a pend
  exact ⟨h.wf, h.readTo, he ▸ h.asc, he ▸ h.le, he ▸ h.before, h.after,
    fun p hp => h.enc p (mem_append_right _ hp)⟩

theorem sort {key : Key} (h : Phase c typ S F E pend bs) (hk : ∀ b ∈ bs, b.key = key) :
    Phase c typ S F E pend (insertionSort less bs) := by
  have hmem : ∀ b, b ∈ insertionSort less bs ↔ b ∈ bs := fun b =>
    (insertionSort_perm less bs).mem_iff
  refine ⟨fun b hb => h.wf b ((hmem b).mp hb), fun b hb => h.readTo b ((hmem b).mp hb), h.asc, h.le,
    h.before, fun t ht => ?_, h.enc⟩
  rw [(sort_spec hk h.wf).2, h.after t ht]

/-- The window that `combine` computes is one that `readWindow` can read, and it holds a point. -/
theorem window_spec {first : Block β} {rest : List (Block β)}
    (h : Phase c typ S F E pend (first :: rest)) (hfirst : first.read = false)
    (hch : (first :: rest).IsChain (fun x y => x.minTime ≤ y.maxTime)) :
    let w := (first :: rest).foldl adjustWindow (first.minTime, first.maxTime)
    F < w.2 ∧ (∀ b ∈ first :: rest, b.read = false → w.1 ≤ b.minTime) ∧
      (first :: rest).flatMap (window c typ F w.2) ≠ [] := by
  intro w
  have hmm := fun b hb => (h.wf b hb).min_le_max
  have hrd := fun b hb => (h.wf b hb).read_iff (h.readTo b hb)
  obtain ⟨-, hmax, hmin⟩ := foldl_adjustWindow_spec (first :: rest) (first.minTime, first.maxTime)
    first.minTime hmm hrd hch
    (fun b hb => by obtain rfl := Option.some.inj hb; exact hmm _ mem_cons_self)
    (hmm first mem_cons_self) (le_max_right _ _)
  have hend : ∃ b ∈ first :: rest, b.read = false ∧ w.2 = b.maxTime := by
    rcases hmax with hmax | hex
    · exact ⟨first, mem_cons_self, hfirst, hmax⟩
    · exact hex
  obtain ⟨b, hb, hread, he⟩ := hend
  have hF : F < w.2 := by
    by_contra hc
    rw [(hrd b hb).mpr (he ▸ not_lt.mp hc)] at hread
    cases hread
  refine ⟨hF, hmin, fun hnil => ?_⟩
  obtain ⟨p, hp, hpm⟩ := (h.wf b hb).max_mem
  have hpw : p ∈ window c typ F w.2 b := mem_window.mpr ⟨hp, by omega, by omega⟩
  exact ne_nil_of_mem (mem_flatMap.mpr ⟨b, hb, hpw⟩) hnil

end Phase

/-- Blocks a combine step leaves: some of the given ones, apart from their read windows. -/
def SameKeys (bs bs' : List (Block β)) : Prop := ∀ b' ∈ bs', ∃ b ∈ bs, b'.key = b.key

theorem SameKeys.trans {a b d : List (Block β)} (h : SameKeys a b) (h' : SameKeys b d) : SameKeys a d := by
  intro x hx
  obtain ⟨y, hy, he⟩ := h' x hx
  obtain ⟨z, hz, he'⟩ := h y hy
  exact ⟨z, hz, he.trans he'⟩

theorem SameKeys.of_subset {a b : List (Block β)} (h : b ⊆ a) : SameKeys a b := fun x hx => ⟨x, h hx, rfl⟩

theorem mergeWindow_length_le {m : ℤ} {pend : Values α}
    (hwf : ∀ b ∈ bs, WfBlock c typ b) (hp : Ascending pend) :
    (mergeWindow c typ F m pend bs).length ≤ pend.length + (bs.flatMap (window c typ F m)).length := by
  obtain ⟨hasc, hl⟩ := mergeWindow_spec F m bs pend hwf hp
  have h1 := hasc.length_le_of_latest_eq hl
  have h2 : ((content c typ bs).filter (fun p => decide (F < p.1) && decide (p.1 ≤ m))).Sublist
      (bs.flatMap (window c typ F m)) := by
    rw [content, filter_flatMap]
    refine List.Sublist.flatMap_right _ fun b _ => ?_
    exact List.Sublist.filter _ filter_sublist
  have h3 := h2.length_le
  rw [length_append] at h1
  omega

/-- `combine(true)` ends, with a chunk of the values up to a new frontier. -/
theorem combineDedup_spec {S : ℤ → Option α} {E : Values α} : ∀ (fuel : ℕ) (k : TsmBatchKeyIterator β α)
    (F : ℤ), 0 < k.size → Phase c k.typ S F E k.mergedValues k.blocks →
    k.blocks.IsChain (fun x y => x.minTime ≤ y.maxTime) → leftAll c k.typ k.blocks < fuel →
    ∃ F' pend bs, combineDedup c.toCodec fuel k =
        .returned (chunk c.toCodec { k with blocks := bs, mergedValues := pend } []) ∧
      Phase c k.typ S F' E pend bs ∧ SameKeys k.blocks bs ∧ (pend = [] → bs = []) ∧
      leftAll c k.typ bs + pend.length ≤ leftAll c k.typ k.blocks + k.mergedValues.length
  | 0, k, F, _, _, _, hfuel => absurd hfuel (Nat.not_lt_zero _)
  | fuel + 1, k, F, hsize, h, hch, hfuel => by
    rw [combineDedup]
    split_ifs with hcond
    · have hsplit := takeWhile_append_dropWhile (p := (·.read)) (l := k.blocks)
      have hrest := (hsplit.symm ▸ h).dropRead (fun b hb => mem_takeWhile_imp hb)
      cases hd : k.blocks.dropWhile (·.read) with
      | nil =>
        rw [hd] at hrest
        exact ⟨F, k.mergedValues, [], rfl, hrest, by simp [SameKeys], fun _ => rfl, by simp [leftAll]⟩
      | cons first rest =>
        have hfirst : first.read = false := by
          have := head_dropWhile_not (fun b : Block β => b.read) (l := k.blocks) (by simp [hd])
          simpa [hd] using this
        have hsub : (first :: rest).IsSuffix k.blocks := hd ▸ dropWhile_suffix _
        rw [hd] at hrest
        have hch' := hch.suffix hsub
        obtain ⟨hF, hmin, hne'⟩ := hrest.window_spec hfirst hch'
        dsimp only
        rw [readWindow_eq hF _ _ hrest.wf hrest.readTo hmin]
        generalize (first :: rest).foldl adjustWindow (first.minTime, first.maxTime) = w at hF hne'
        have hleft := leftAll_readOn hF _ hrest.wf hrest.readTo
        have hlen := mergeWindow_length_le (F := F) (m := w.2) hrest.wf (ascending_append.mp h.asc).2.1
        have hpos := length_pos_of_ne_nil hne'
        have hsum : leftAll c k.typ (first :: rest) ≤ leftAll c k.typ k.blocks := by
          rw [← hsplit, hd, leftAll_append]
          omega
        have hch'' : ((first :: rest).map (readOn c k.typ F w.2)).IsChain
            (fun x y => x.minTime ≤ y.maxTime) := by
          rw [isChain_map]
          simpa using hch'
        obtain ⟨F', pend, bs, heq, hph, hkeys, hnil, hle⟩ := combineDedup_spec fuel
          { k with
            blocks := (first :: rest).map (readOn c k.typ F w.2)
            mergedValues := mergeWindow c k.typ F w.2 k.mergedValues (first :: rest) }
          w.2 hsize (hrest.readWindow hF) hch'' (by dsimp only; omega)
        refine ⟨F', pend, bs, heq, hph, ?_, hnil, ?_⟩
        · refine SameKeys.trans (SameKeys.trans (SameKeys.of_subset hsub.subset) ?_) hkeys
          intro b hb
          obtain ⟨b', hb', rfl⟩ := mem_map.mp hb
          exact ⟨b', hb', readOn_key⟩
        · dsimp only at hle
          omega
    · refine ⟨F, k.mergedValues, k.blocks, rfl, h, SameKeys.of_subset (List.Subset.refl _), fun hp => ?_, le_rfl⟩
      by_contra hb
      exact hcond ⟨by rw [hp]; exact hsize, hb⟩

end InfluxDB.Tsm.Compact
