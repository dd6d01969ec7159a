import InfluxDB.Tsm.ArrayAscending

/-!
    What the descending array cursor returns.  It takes the points that are left off the end of the
    merge of the cache and the blocks, one by one, and never copies a whole block, so a call always
    goes on where the last one stopped.
-/

namespace InfluxDB.Tsm

open Lib List ArrayAscendingCursor Nat

variable {α : Type*}

/-- The last point of a merge. -/
theorem mergeLoop_concat {a b : Values α} {t x : ℤ × α} (ha : Ascending (a ++ [t])) (hb : Ascending (b ++ [x])) :
    Values.mergeLoop (a ++ [t]) (b ++ [x]) =
      if x.1 = t.1 then a.mergeLoop b ++ [x]
      else if x.1 > t.1 then Values.mergeLoop (a ++ [t]) b ++ [x]
      else Values.mergeLoop a (b ++ [x]) ++ [t] := by
  obtain ⟨ha', -, hta⟩ := ascending_append.mp ha
  obtain ⟨hb', -, hxb⟩ := ascending_append.mp hb
  have hconcat : ∀ {l m : Values α} {p : ℤ × α}, Ascending l → Ascending m → (∀ q ∈ l, q.1 < p.1) →
      (∀ q ∈ m, q.1 < p.1) → Ascending (l.mergeLoop m ++ [p]) := fun hl hm hlp hmp =>
    ascending_append.mpr ⟨ascending_mergeLoop _ _ hl hm, pairwise_singleton _ _, fun q hq r hr => by
      rw [mem_singleton.mp hr]
      exact (mem_of_mem_mergeLoop _ _ hq).elim (hlp q) (hmp q)⟩
  refine (ascending_mergeLoop _ _ ha hb).ext ?_ fun s => ?_
  · split_ifs with heq hgt
    · exact hconcat ha' hb' (fun q hq => heq ▸ hta q hq t (mem_singleton_self t))
        fun q hq => hxb q hq x (mem_singleton_self x)
    · refine hconcat ha hb' (fun q hq => ?_) fun q hq => hxb q hq x (mem_singleton_self x)
      exact lt_of_le_of_lt (ha.le_concat hq) hgt
    · refine hconcat ha' hb (fun q hq => hta q hq t (mem_singleton_self t)) fun q hq => ?_
      refine lt_of_le_of_lt (hb.le_concat hq) ?_
      exact lt_of_le_of_ne (not_lt.mp hgt) heq
  · rw [latest_mergeLoop _ _ ha hb]
    split_ifs with heq hgt
    · rw [latest_append, latest_append, latest_append, latest_mergeLoop _ _ ha' hb', latest_cons, latest_cons, heq]
      by_cases hs : t.1 = s <;> simp [hs]
    · rw [latest_append b, latest_append _ [x], latest_mergeLoop _ _ ha hb', Option.or_assoc]
    · have hlt : x.1 < t.1 := lt_of_le_of_ne (not_lt.mp hgt) heq
      rw [latest_append a, latest_append _ [t], latest_mergeLoop _ _ ha' hb]
      by_cases hs : t.1 = s
      · have hnone : latest (b ++ [x]) s = none := (latest_eq_none_iff _ _).mpr fun q hq => by
          rw [← hs]
          exact (lt_of_le_of_lt (hb.le_concat hq) hlt).ne
        rw [hnone]
        simp [latest_cons, hs]
      · simp [latest_cons, hs]

namespace ArrayDescendingCursor

variable {c c' c'' : ArrayDescendingCursor α} {out out' : Values α} {values : Values α}

/-! ### What is left to return -/

def cacheLeft (c : ArrayDescendingCursor α) : Values α := c.cacheValues.take c.cachePos

def tsmLeft (c : ArrayDescendingCursor α) : Values α := c.keyCursor.tail.reverse.flatten ++ c.tsmValues.take c.tsmPos

/-- The points that the cursor has still to return, the next one last. -/
def left (c : ArrayDescendingCursor α) : Values α := c.tsmLeft.mergeLoop c.cacheLeft

/-- The buffered block is the current one of the key cursor, whose blocks are not empty and go back
in time. -/
structure Sound (c : ArrayDescendingCursor α) : Prop where
  current : c.tsmValues = c.keyCursor.headD []
  nonempty : ∀ b ∈ c.keyCursor, b ≠ []
  tsm : Ascending c.keyCursor.reverse.flatten
  cache : Ascending c.cacheValues
  tsmPos_le : c.tsmPos ≤ c.tsmValues.length
  cachePos_le : c.cachePos ≤ c.cacheValues.length

/-- Between two iterations the block has a point left, unless no block is. -/
structure Ready (c : ArrayDescendingCursor α) : Prop extends Sound c where
  tsmPos_pos : c.keyCursor ≠ [] → 0 < c.tsmPos

theorem Sound.flatten_eq (h : c.Sound) :
    c.keyCursor.reverse.flatten = c.keyCursor.tail.reverse.flatten ++ c.tsmValues := by
  rw [h.current]
  cases c.keyCursor <;> simp

theorem Sound.ascending_cacheLeft (h : c.Sound) : Ascending c.cacheLeft := h.cache.sublist (take_sublist _ _)

theorem Sound.ascending_tsmLeft (h : c.Sound) : Ascending c.tsmLeft := by
  refine h.tsm.sublist ?_
  rw [h.flatten_eq]
  exact List.Sublist.append (List.Sublist.refl _) (take_sublist _ _)

theorem Sound.ascending_left (h : c.Sound) : Ascending c.left :=
  ascending_mergeLoop _ _ h.ascending_tsmLeft h.ascending_cacheLeft

/-- The point at the position is the last one left. -/
theorem tsmLeft_concat {t : ℤ × α} (ht : c.tsmPoint = some t) :
    c.tsmLeft = tsmLeft { c with tsmPos := c.tsmPos - 1 } ++ [t] := by
  rw [tsmPoint] at ht
  split_ifs at ht with hpos
  have htake : c.tsmValues.take c.tsmPos = c.tsmValues.take (c.tsmPos - 1) ++ [t] := by
    conv_lhs => rw [← Nat.sub_add_cancel (Nat.pos_of_ne_zero hpos), take_add_one, ht]
    rfl
  rw [tsmLeft, htake, ← append_assoc]
  rfl

theorem cacheLeft_concat {x : ℤ × α} (hx : c.cachePoint = some x) :
    c.cacheLeft = cacheLeft { c with cachePos := c.cachePos - 1 } ++ [x] := by
  rw [cachePoint] at hx
  split_ifs at hx with hpos
  rw [cacheLeft, cacheLeft]
  conv_lhs => rw [← Nat.sub_add_cancel (Nat.pos_of_ne_zero hpos), take_add_one, hx]
  rfl

theorem Ready.tsmPoint_eq_none (h : c.Ready) (hnone : c.tsmPoint = none) : c.tsmLeft = [] := by
  have hpos : c.tsmPos = 0 := by
    by_contra hne
    rw [tsmPoint, if_neg hne, getElem?_eq_none_iff] at hnone
    have := h.tsmPos_le
    omega
  have hk : c.keyCursor = [] := by
    by_contra hne
    exact absurd (h.tsmPos_pos hne) (by omega)
  rw [tsmLeft, hpos, hk]
  rfl

theorem Sound.cachePoint_eq_none (h : c.Sound) (hnone : c.cachePoint = none) : c.cacheLeft = [] := by
  have hpos : c.cachePos = 0 := by
    by_contra hne
    rw [cachePoint, if_neg hne, getElem?_eq_none_iff] at hnone
    have := h.cachePos_le
    omega
  rw [cacheLeft, hpos, take_zero]

/-- The cursor goes on at the first of two states, returns the points, and is left in the second. -/
structure Took (c : ArrayDescendingCursor α) (out : Values α) (c' : ArrayDescendingCursor α) : Prop where
  ready : c'.Ready
  left : c.left = c'.left ++ out.reverse
  endTime : c'.endTime = c.endTime
  resLen : c'.resLen = c.resLen

theorem Took.refl (h : c.Ready) : Took c [] c := ⟨h, (append_nil _).symm, rfl, rfl⟩

theorem Took.trans (h : Took c out c') (h' : Took c' out' c'') : Took c (out ++ out') c'' :=
  ⟨h'.ready, by rw [h.left, h'.left, reverse_append, append_assoc], h'.endTime.trans h.endTime,
    h'.resLen.trans h.resLen⟩

theorem cacheLeft_refill (c : ArrayDescendingCursor α) : c.refill.cacheLeft = c.cacheLeft := by
  rw [refill]
  split_ifs <;> rfl

theorem Sound.refill (h : c.Sound) :
    c.refill.Ready ∧ c.refill.tsmLeft = c.tsmLeft ∧ c.refill.cacheLeft = c.cacheLeft ∧
      c.refill.endTime = c.endTime ∧ c.refill.resLen = c.resLen := by
  rw [ArrayDescendingCursor.refill]
  by_cases hpos : c.tsmPos = 0
  · rw [if_pos hpos]
    have hsub : c.keyCursor.tail.reverse.flatten.Sublist c.keyCursor.reverse.flatten := by
      rw [h.flatten_eq]
      exact sublist_append_left _ _
    have hsound : c.nextTSM.Sound :=
      ⟨rfl, fun b hb => h.nonempty b (mem_of_mem_tail hb), h.tsm.sublist hsub, h.cache, le_rfl, h.cachePos_le⟩
    refine ⟨⟨hsound, fun hk => ?_⟩, ?_, rfl, rfl, rfl⟩
    · have hk : c.keyCursor.tail ≠ [] := hk
      obtain ⟨b, rest, hb⟩ := exists_cons_of_ne_nil hk
      have hne : b ≠ [] := h.nonempty b (mem_of_mem_tail (hb ▸ mem_cons_self))
      simp only [nextTSM, hb, headD_cons]
      exact length_pos_of_ne_nil hne
    · rw [tsmLeft, tsmLeft, hpos, take_zero, append_nil]
      simp only [nextTSM, take_length]
      cases c.keyCursor.tail <;> simp
  · rw [if_neg hpos]
    exact ⟨⟨h, fun _ => pos_of_ne_zero hpos⟩, rfl, rfl, rfl, rfl⟩

/-! ### The loops -/

/-- Moving the positions back past the points that the merge of what is left ends with. -/
theorem Sound.took (h : c.Sound) (j k : ℕ)
    (hleft : c.left = Values.mergeLoop (tsmLeft { c with tsmPos := c.tsmPos - k })
      (cacheLeft { c with cachePos := c.cachePos - j }) ++ out.reverse) :
    Took c out { c with cachePos := c.cachePos - j, tsmPos := c.tsmPos - k }.refill := by
  have hsound : Sound { c with cachePos := c.cachePos - j, tsmPos := c.tsmPos - k } :=
    ⟨h.current, h.nonempty, h.tsm, h.cache, (sub_le _ _).trans h.tsmPos_le, (sub_le _ _).trans h.cachePos_le⟩
  obtain ⟨hready, htsm, hcache, hend, hlen⟩ := hsound.refill
  refine ⟨hready, ?_, hend, hlen⟩
  rw [hleft, left, htsm, hcache]
  rfl

/-- What one iteration of the merge loop does. -/
theorem Ready.mergePoint (h : c.Ready) :
    (c.mergePoint = none ∧ (c.tsmLeft = [] ∨ c.cacheLeft = [])) ∨
      ∃ p c', c.mergePoint = some (p, c') ∧ Took c [p] c' := by
  rw [ArrayDescendingCursor.mergePoint]
  cases ht : c.tsmPoint with
  | none => exact .inl ⟨rfl, .inl (h.tsmPoint_eq_none ht)⟩
  | some t =>
    cases hx : c.cachePoint with
    | none => exact .inl ⟨rfl, .inr (h.cachePoint_eq_none hx)⟩
    | some x =>
      have htsm := tsmLeft_concat ht
      have hcache := cacheLeft_concat hx
      have hleft := h.ascending_tsmLeft
      rw [htsm] at hleft
      have hmerge := mergeLoop_concat hleft (hcache ▸ h.ascending_cacheLeft)
      rw [← htsm, ← hcache, ← left] at hmerge
      dsimp only
      refine .inr ?_
      split_ifs at hmerge ⊢
      · exact ⟨x, _, rfl, h.took 1 1 hmerge⟩
      · exact ⟨x, _, rfl, h.took 1 0 hmerge⟩
      · exact ⟨t, _, rfl, h.took 0 1 hmerge⟩

/-- The blocks are read to the end once the cache is exhausted. -/
theorem Ready.readPoint (h : c.Ready) (hdone : c.tsmLeft = [] ∨ c.cacheLeft = []) :
    (c.readPoint = none ∧ c.tsmLeft = []) ∨
      ∃ p c', c.readPoint = some (p, c') ∧ Took c [p] c' ∧ (c'.tsmLeft = [] ∨ c'.cacheLeft = []) := by
  rw [ArrayDescendingCursor.readPoint]
  cases ht : c.tsmPoint with
  | none => exact .inl ⟨rfl, h.tsmPoint_eq_none ht⟩
  | some t =>
    have htsm := tsmLeft_concat ht
    have hcache : c.cacheLeft = [] := hdone.resolve_left (by rw [htsm]; simp)
    refine .inr ⟨t, _, rfl, h.took 0 1 ?_, .inr ?_⟩
    · rw [left, hcache, mergeLoop_nil, htsm]
      change _ = Values.mergeLoop _ c.cacheLeft ++ _
      rw [hcache, mergeLoop_nil]
      rfl
    · exact (cacheLeft_refill _).trans hcache

/-- The cache is read to the end once the blocks are exhausted. -/
theorem Ready.readCache (h : c.Ready) (hdone : c.tsmLeft = []) :
    (c.readCache = none ∧ c.cacheLeft = []) ∨ ∃ p c', c.readCache = some (p, c') ∧
      Took c [p] c' ∧ c'.tsmLeft = [] := by
  rw [ArrayDescendingCursor.readCache]
  cases hx : c.cachePoint with
  | none => exact .inl ⟨rfl, h.cachePoint_eq_none hx⟩
  | some x =>
    refine .inr ⟨x, _, rfl, ⟨⟨⟨h.current, h.nonempty, h.tsm, h.cache, h.tsmPos_le,
      (sub_le _ _).trans h.cachePos_le⟩, h.tsmPos_pos⟩, ?_, rfl, rfl⟩, hdone⟩
    rw [left, hdone, Values.mergeLoop, cacheLeft_concat hx, left]
    change _ = Values.mergeLoop c.tsmLeft _ ++ _
    rw [hdone, Values.mergeLoop]
    rfl

/-- A loop whose iterations each return the next point, under a condition that they keep. -/
theorem loop_spec {step : ArrayDescendingCursor α → Option ((ℤ × α) × ArrayDescendingCursor α)}
    {Q N : ArrayDescendingCursor α → Prop}
    (hstep : ∀ c, c.Ready → Q c → (step c = none ∧ N c) ∨ ∃ p c', step c = some (p, c') ∧
      Took c [p] c' ∧ Q c')
    (room : ℕ) : ∀ {c}, c.Ready → (0 < room → Q c) →
      Took c (loop step room c).1 (loop step room c).2 ∧
        ((loop step room c).1.length < room → Q (loop step room c).2 ∧ N (loop step room c).2) := by
  induction room with
  | zero =>
    intro c h _
    exact ⟨Took.refl h, nofun⟩
  | succ room ih =>
    intro c h hQ
    rw [loop]
    rcases hstep c h (hQ (succ_pos _)) with ⟨hnone, hN⟩ | ⟨p, c', hsome, htook, hQ'⟩
    · rw [hnone]
      exact ⟨Took.refl h, fun _ => ⟨hQ (succ_pos _), hN⟩⟩
    · rw [hsome]
      obtain ⟨htook', hstop⟩ := ih htook.ready fun _ => hQ'
      exact ⟨htook.trans htook', fun hlt => hstop (lt_of_succ_lt_succ hlt)⟩

/-- A call returns the next points, at least one if there is one. -/
theorem Ready.fill (h : c.Ready) (hlen : 0 < c.resLen) :
    Took c c.fill.1 c.fill.2 ∧ (c.left ≠ [] → c.fill.1 ≠ []) := by
  rw [ArrayDescendingCursor.fill]
  have hmerge : ∀ c : ArrayDescendingCursor α, c.Ready → True → _ := fun c hc _ => hc.mergePoint
  obtain ⟨htook₁, hstop₁⟩ := loop_spec (Q := fun _ => True) (N := fun c => c.tsmLeft = [] ∨ c.cacheLeft = [])
    (by simpa using hmerge) c.resLen h fun _ => trivial
  generalize loop ArrayDescendingCursor.mergePoint c.resLen c = r₁ at htook₁ hstop₁ ⊢
  obtain ⟨merged, c₁⟩ := r₁
  have hlen₁ : c₁.resLen = c.resLen := htook₁.resLen
  obtain ⟨htook₂, hstop₂⟩ :=
    loop_spec (Q := fun c => c.tsmLeft = [] ∨ c.cacheLeft = []) (N := fun c => c.tsmLeft = [])
    (fun c hc hQ => hc.readPoint hQ) (c₁.resLen - merged.length) htook₁.ready fun hroom =>
      (hstop₁ (by dsimp only; omega)).2
  dsimp only
  generalize loop ArrayDescendingCursor.readPoint (c₁.resLen - merged.length) c₁ = r₂ at htook₂ hstop₂ ⊢
  obtain ⟨read, c₂⟩ := r₂
  have hlen₂ : c₂.resLen = c₁.resLen := htook₂.resLen
  obtain ⟨htook₃, hstop₃⟩ := loop_spec (Q := fun c => c.tsmLeft = []) (N := fun c => c.cacheLeft = [])
    (fun c hc hQ => hc.readCache hQ) (c₂.resLen - merged.length - read.length) htook₂.ready fun hroom =>
      (hstop₂ (by dsimp only; omega)).2
  generalize loop ArrayDescendingCursor.readCache (c₂.resLen - merged.length - read.length) c₂ =
    r₃ at htook₃ hstop₃ ⊢
  obtain ⟨cached, c₃⟩ := r₃
  refine ⟨(htook₁.trans htook₂).trans htook₃, fun hne hnil => hne ?_⟩
  obtain ⟨⟨rfl, rfl⟩, rfl⟩ : (merged = [] ∧ read = []) ∧ cached = [] := by
    simpa only [append_eq_nil_iff] using hnil
  obtain ⟨htsm, hcache⟩ := hstop₃ (by simp only [length_nil]; omega)
  rw [((htook₁.trans htook₂).trans htook₃).left, left, htsm, hcache, Values.mergeLoop]
  rfl

/-! ### All calls -/

theorem drain_succ (c : ArrayDescendingCursor α) (fuel : ℕ) :
    c.drain (fuel + 1) = if c.next.1 = [] then some [] else (c.next.2.drain fuel).map (c.next.1 :: ·) := by
  rw [drain]
  rcases c.next with ⟨res, c'⟩
  cases res <;> rfl

theorem Took.next_eq (h : Took c c.fill.1 c.fill.2) (hc : c.Ready) :
    c.next = (c.fill.1.filter fun p => c.endTime < p.1, c.fill.2) := by
  have hasc := hc.ascending_left
  rw [h.left, ascending_append, Ascending, Ascending, pairwise_reverse] at hasc
  rw [next]
  refine Prod.ext ?_ rfl
  dsimp only
  rw [rdropWhile_eq_filter, h.endTime]
  · exact filter_congr fun p _ => by rw [← decide_not]; exact decide_eq_decide.mpr not_le
  · refine hasc.2.1.imp fun hlt hge => ?_
    simp only [decide_eq_true_eq] at hge ⊢
    omega

/-- The arrays up to the first empty one hold the points that are left after the end time. -/
theorem Ready.drain (h : c.Ready) (hlen : 0 < c.resLen) :
    ∃ fuel arrays, c.drain fuel = some arrays ∧
      arrays.flatten.reverse = c.left.filter fun p => c.endTime < p.1 := by
  -- Every call returns a point, so the induction is on the number of points left.
  induction hn : c.left.length using Nat.strong_induction_on generalizing c with
  | _ n ih =>
    obtain ⟨htook, hprogress⟩ := h.fill hlen
    have hnext := htook.next_eq h
    have hasc := h.ascending_left
    rw [htook.left, ascending_append] at hasc
    have hleft : (c.left.filter fun p => c.endTime < p.1) = (c.fill.2.left.filter fun p => c.fill.2.endTime < p.1) ++
        (c.fill.1.filter fun p => c.endTime < p.1).reverse := by
      rw [htook.endTime, ← filter_reverse, ← filter_append, ← htook.left]
    by_cases hnil : (c.fill.1.filter fun p => c.endTime < p.1) = []
    · -- All points of the array are at or before the end time, and the points left are before those.
      refine ⟨1, [], by rw [drain_succ, hnext, hnil]; rfl, ?_⟩
      rw [hleft, hnil, reverse_nil, append_nil, eq_comm]
      refine filter_eq_nil_iff.mpr fun p hp => ?_
      have hne : c.left ≠ [] := by
        rw [htook.left]
        exact append_ne_nil_of_left_ne_nil (ne_nil_of_mem hp) _
      obtain ⟨q, hq⟩ := exists_mem_of_ne_nil _ (hprogress hne)
      have hpq := hasc.2.2 p hp q (mem_reverse.mpr hq)
      have hqend := filter_eq_nil_iff.mp hnil q hq
      rw [htook.endTime]
      simp only [decide_eq_true_eq, not_lt] at hqend ⊢
      omega
    · have hdec : c.fill.2.left.length < n := by
        have hpos : 0 < c.fill.1.length := length_pos_of_ne_nil fun h => hnil (by rw [h]; rfl)
        have := congrArg length htook.left
        rw [length_append, length_reverse] at this
        omega
      obtain ⟨fuel, arrays, hdrain, hflat⟩ := ih _ hdec htook.ready (htook.resLen ▸ hlen) rfl
      refine ⟨fuel + 1, (c.fill.1.filter fun p => c.endTime < p.1) :: arrays, ?_, ?_⟩
      · rw [drain_succ, hnext, if_neg hnil, hdrain]
        rfl
      · rw [flatten_cons, reverse_append, hflat, hleft]

/-! ### The cursor of a query -/

/-- The blocks that the key cursor delivers to a descending cursor that starts at the seek time. -/
structure Delivers (seek : ℤ) (blocks : List (Values α)) : Prop where
  nonempty : ∀ b ∈ blocks, b ≠ []
  ascending : Ascending blocks.reverse.flatten
  upto_seek : ∀ p ∈ blocks.flatten, p.1 ≤ seek

/-- The calls of `Next`, up to the first empty array, return in falling time order exactly the points
from the seek time down to the end time, with the value of the cache where both have one. -/
def Merges (seek endTime : ℤ) (cache : Values α) (blocks : List (Values α)) : Prop :=
  ∃ fuel arrays, (reset seek endTime cache blocks).drain fuel = some arrays ∧ Ascending arrays.flatten.reverse ∧
    ∀ p, p ∈ arrays.flatten ↔ endTime < p.1 ∧ p.1 ≤ seek ∧ CacheOverTSM cache blocks p

theorem take_seekPos (h : Ascending values) (seek : ℤ) :
    values.take (seekPos values seek) = values.filter fun p => p.1 ≤ seek := by
  rw [← (drop_bumpMax h seek).2, seekPos, Values.bumpMax]
  cases hget : values[values.search seek]? with
  | none =>
    have hle := getElem?_eq_none_iff.mp hget
    simp [take_of_length_le hle]
  | some p => by_cases hp : p.1 = seek <;> simp [hp]

theorem seekPos_le (values : Values α) (seek : ℤ) : seekPos values seek ≤ values.length := by
  rw [seekPos]
  cases hget : values[values.search seek]? with
  | none => exact le_rfl
  | some p =>
    have hlt := (List.getElem?_eq_some_iff.mp hget).1
    dsimp only
    split_ifs <;> omega

theorem seekPos_of_le (h : Ascending values) {seek : ℤ} (hle : ∀ p ∈ values, p.1 ≤ seek) :
    seekPos values seek = values.length := by
  have htake := congrArg length (take_seekPos h seek)
  rw [filter_eq_self.mpr fun p hp => decide_eq_true (hle p hp), length_take] at htake
  have := seekPos_le values seek
  omega

section Reset

variable {seek endTime : ℤ} {cache : Values α} {blocks : List (Values α)}

theorem tsmPos_reset (hb : Delivers seek blocks) :
    (reset seek endTime cache blocks).tsmPos = (blocks.headD []).length := by
  cases blocks with
  | nil => rfl
  | cons b rest =>
    have hasc := hb.ascending
    rw [reverse_cons, flatten_append, ascending_append] at hasc
    exact seekPos_of_le (by simpa using hasc.2.1) fun p hp => hb.upto_seek p (mem_append_left _ hp)

theorem ready_reset (hcache : Ascending cache) (hb : Delivers seek blocks) :
    (reset seek endTime cache blocks).Ready := by
  have hpos : (reset seek endTime cache blocks).tsmPos = (blocks.headD []).length := tsmPos_reset hb
  refine ⟨⟨rfl, hb.nonempty, hb.ascending, hcache, hpos.le, seekPos_le _ _⟩, fun hne => ?_⟩
  rw [hpos]
  obtain ⟨b, rest, rfl⟩ := exists_cons_of_ne_nil hne
  exact length_pos_of_ne_nil (hb.nonempty b mem_cons_self)

theorem left_reset (hcache : Ascending cache) (hb : Delivers seek blocks) :
    (reset seek endTime cache blocks).left =
      Values.mergeLoop blocks.reverse.flatten (cache.filter fun p => p.1 ≤ seek) := by
  have hready : (reset seek endTime cache blocks).Ready := ready_reset hcache hb
  have htsm : (reset seek endTime cache blocks).tsmLeft = blocks.reverse.flatten := by
    rw [tsmLeft, tsmPos_reset hb]
    exact (congrArg _ (take_length ..)).trans hready.flatten_eq.symm
  rw [left, htsm, cacheLeft]
  exact congrArg _ (take_seekPos hcache seek)

/-- The descending cursor merges the cache and the blocks. -/
theorem merges_of_delivers (endTime : ℤ) (hcache : Ascending cache) (hb : Delivers seek blocks) :
    Merges seek endTime cache blocks := by
  have hready : (reset seek endTime cache blocks).Ready := ready_reset hcache hb
  obtain ⟨fuel, arrays, hdrain, hflat⟩ := hready.drain (succ_pos _)
  refine ⟨fuel, arrays, hdrain, hflat ▸ hready.ascending_left.filter _, fun p => ?_⟩
  have hle : ∀ p ∈ blocks.reverse.flatten, decide (p.1 ≤ seek) = true := fun p hp =>
    decide_eq_true (hb.upto_seek p (by simpa using hp))
  rw [← mem_reverse, hflat, mem_filter, left_reset hcache hb,
    mem_mergeLoop_filter (f := fun t => decide (t ≤ seek)) hcache hb.ascending hle,
    decide_eq_true_eq, decide_eq_true_eq, CacheOverTSM]
  have hmem : p ∈ blocks.reverse.flatten ↔ p ∈ blocks.flatten := by simp
  rw [hmem]
  change _ ↔ endTime < p.1 ∧ _
  tauto

end Reset

end ArrayDescendingCursor

/-! ### Both cursors -/

/-- The descending cursor merges the cache and the blocks on all inputs; the ascending one does so
except on those on which it returns a block again. -/
theorem arrayCursors_merge :
    (∀ (seek endTime : ℤ) (cache : Values α) (blocks : List (Values α)), Ascending cache →
      ArrayAscendingCursor.Delivers seek blocks →
        (ArrayAscendingCursor.Merges seek endTime cache blocks ↔
          ¬ ArrayAscendingCursor.Repeats maxPointsPerBlock (cache.filter fun p => seek ≤ p.1) blocks
            (ArrayAscendingCursor.mergedFrom seek cache blocks) endTime)) ∧
      ∀ (seek endTime : ℤ) (cache : Values α) (blocks : List (Values α)), Ascending cache →
        ArrayDescendingCursor.Delivers seek blocks → ArrayDescendingCursor.Merges seek endTime cache blocks := by
  constructor
  · intro seek endTime cache blocks hcache hb
    exact merges_iff_not_repeats hcache hb
  · intro seek endTime cache blocks hcache hb
    exact ArrayDescendingCursor.merges_of_delivers endTime hcache hb

/-- A query over two blocks and two cache values, one of them at a time of a block. -/
theorem arrayCursors_merge_smallBlocks :
    ArrayAscendingCursor.Merges 1 4 [(1, 10), (3, 30)] [[(1, 0), (2, 0)], [(4, 0)]] ∧
      ArrayDescendingCursor.Merges 4 1 [(1, 10), (3, 30)] [[(4, 0)], [(1, 0), (2, 0)]] := by
  refine ⟨(arrayCursors_merge.1 1 4 [(1, 10), (3, 30)] [[(1, 0), (2, 0)], [(4, 0)]] (by decide)
    ⟨by decide, by decide, by decide⟩).mpr ?_,
    arrayCursors_merge.2 4 1 [(1, 10), (3, 30)] [[(4, 0)], [(1, 0), (2, 0)]]
      (by decide) ⟨by decide, by decide, by decide⟩⟩
  rintro ⟨-, -, -, -, -, -, -, y, hy, -⟩
  simp [mergedFrom, Values.mergeLoop, upToCache, roundUp, maxPointsPerBlock] at hy

/-- A block of 1000 points. -/
def fullBlock : Values ℤ := (range 1000).map fun i : ℕ => ((i : ℤ) + 1, 1)

theorem delivers_fullBlock : Delivers 0 [fullBlock] := by
  have hflat : [fullBlock].flatten = fullBlock := by simp
  refine ⟨fun b hb => ?_, ?_, fun p hp => ?_⟩
  · rw [mem_singleton.mp hb]
    exact ne_nil_of_length_pos (by simp [fullBlock])
  · rw [hflat, fullBlock, Ascending, pairwise_map]
    exact pairwise_lt_range.imp fun h => by simpa using h
  · rw [hflat, fullBlock, mem_map] at hp
    obtain ⟨i, -, rfl⟩ := hp
    omega

theorem mergedFrom_fullBlock : mergedFrom 0 [(0, 0)] [fullBlock] = (0, 0) :: fullBlock := by
  obtain ⟨p, rest, hblock⟩ := exists_cons_of_length_pos (show 0 < fullBlock.length by simp [fullBlock])
  have hp : 0 < p.1 := by
    have hmem : p ∈ fullBlock := hblock ▸ mem_cons_self
    rw [fullBlock, mem_map] at hmem
    obtain ⟨i, -, rfl⟩ := hmem
    omega
  have hcache : ([(0, 0)] : Values ℤ).filter (fun p => (0 : ℤ) ≤ p.1) = [(0, 0)] := rfl
  rw [mergedFrom, hcache, flatten_singleton, hblock, Values.mergeLoop, if_neg (by simpa using hp.le),
    if_neg hp.ne', mergeLoop_nil]

/-- With one cache value before a block of 1000 points, the first call returns the value and 999
points of the block, and the second call returns the block again. -/
theorem not_merges_fullBlock :
    Ascending ([(0, 0)] : Values ℤ) ∧ Delivers 0 [fullBlock] ∧
      ¬ Merges 0 2000 [(0, 0)] [fullBlock] := by
  refine ⟨by decide, delivers_fullBlock, ?_⟩
  rw [merges_iff_not_repeats (by decide) delivers_fullBlock, not_not, mergedFrom_fullBlock]
  have hcache : ([(0, 0)] : Values ℤ).filter (fun p => (0 : ℤ) ≤ p.1) = [(0, 0)] := rfl
  have hm : upToCache [(0, 0)] ((0, 0) :: fullBlock) = 1 := by
    have hzero : fullBlock.countP (fun p => decide (p.1 ≤ 0)) = 0 := countP_eq_zero.mpr fun p hp => by
      rw [fullBlock, mem_map] at hp
      obtain ⟨i, -, rfl⟩ := hp
      simp only [decide_eq_true_eq]
      omega
    rw [upToCache_singleton, countP_cons_of_pos (by simp), hzero]
  have hget : ∀ i : ℕ, i < 1000 → fullBlock[i]? = some ((i : ℤ) + 1, 1) := fun i hi => by simp [fullBlock, hi]
  have hfirst : fullBlock[0]? = some (1, 1) := by simpa using hget 0 (by omega)
  have hlast : fullBlock[999]? = some (1000, 1) := by simpa using hget 999 (by omega)
  have hn : roundUp maxPointsPerBlock 1 = 1000 := rfl
  rw [Repeats, hcache, hm, hn]
  refine ⟨fullBlock, mem_singleton_self _, by simp [fullBlock, maxPointsPerBlock], (1, 1), ?_, (1, 1), ?_,
    (1000, 1), ?_, (0, 0), rfl, mem_of_getElem? hfirst, mem_of_getElem? hlast, by simp⟩
  · rw [head?_eq_getElem?, hfirst]
    rfl
  · rw [getElem?_cons_succ, hfirst]
    rfl
  · rw [getElem?_cons_succ, hlast]
    rfl

end InfluxDB.Tsm
