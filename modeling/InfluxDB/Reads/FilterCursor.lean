import InfluxDB.Tsm.ArrayCursor

/-!
    The filter cursor of a query: it reads arrays from another cursor and returns the points whose
    value meets a condition, at most `MaxPointsPerBlock` a call.  When a result fills up in the middle
    of an array, the rest of that array is parked for the next call.  The next call takes the parked
    array by reference and clears it before reading it, so the rest is lost, and the call returns an
    empty array.

    The underlying cursor is the list of the arrays that it still returns; behind them it returns
    empty arrays.
-/

namespace InfluxDB.Reads

open Tsm List Nat

variable {α : Type*}

/-- `{{type}}ArrayFilterCursor`. -/
structure ArrayFilterCursor (α : Type*) where
  cur : List (Values α)
  cond : α → Bool
  resLen : ℕ
  tmp : Values α

namespace ArrayFilterCursor

/-- A new cursor after `reset`. -/
def reset (cur : List (Values α)) (cond : α → Bool) : ArrayFilterCursor α :=
  { cur, cond, resLen := maxPointsPerBlock, tmp := [] }

/-- The pass over one array, with room for so many points: the points kept, and the rest of the array
if the result filled up. -/
def scan (cond : α → Bool) : ℕ → Values α → Values α × Option (Values α)
  | _, [] => ([], none)
  | room, p :: rest =>
    if cond p.2 then
      if room ≤ 1 then ([p], some rest)
      else (scan cond (room - 1) rest).map (p :: ·) id
    else scan cond room rest

/-- The loop over the arrays, from the array `a` on: the points kept, what is parked, and the arrays
that were not read. -/
def loop (cond : α → Bool) (room : ℕ) (a : Values α) (cur : List (Values α)) :
    Values α × Values α × List (Values α) :=
  if a.length > 0 then
    match scan cond room a, cur with
    | (kept, some rest), cur => (kept, rest, cur)
    | (kept, none), [] => (kept, [], [])
    | (kept, none), b :: cur => (loop cond (room - kept.length) b cur).map (kept ++ ·) id
  else ([], [], cur)

/-- `Next`. -/
def next (c : ArrayFilterCursor α) : Values α × ArrayFilterCursor α :=
  let (a, c) :=
    if c.tmp.length > 0 then
      -- The array points to `c.tmp`, which is cleared before it is read.
      let c := { c with tmp := [] }
      (c.tmp, c)
    else (c.cur.headD [], { c with cur := c.cur.tail })
  let (res, tmp, cur) := loop c.cond c.resLen a c.cur
  (res, { c with tmp, cur })

/-- The arrays of successive calls of `Next`, up to the first empty one. -/
def drain : ℕ → ArrayFilterCursor α → Option (List (Values α))
  | 0, _ => none
  | fuel + 1, c =>
    match c.next with
    | ([], _) => some []
    | (res, c) => (drain fuel c).map (res :: ·)

/-! ### One call -/

/-- The points that meet the condition. -/
def select (cond : α → Bool) (points : Values α) : Values α := points.filter fun p => cond p.2

/-- The result of `n` points is full with the point `p`: it stands in an array behind the points `x`
and before the points `rest`. -/
structure FullAt (n : ℕ) (cond : α → Bool) (arrays pre : List (Values α)) (x : Values α)
    (p : ℤ × α) (rest : Values α) (post : List (Values α)) : Prop where
  split : arrays = pre ++ (x ++ p :: rest) :: post
  meets : cond p.2 = true
  count : (select cond (pre.flatten ++ x)).length + 1 = n

variable {cond : α → Bool} {n room : ℕ} {q : ℤ × α}

theorem select_append (a b : Values α) : select cond (a ++ b) = select cond a ++ select cond b := filter_append ..

theorem select_cons_of_pos (hq : cond q.2 = true) (l : Values α) :
    select cond (q :: l) = q :: select cond l := filter_cons_of_pos hq

theorem select_cons_of_neg (hq : ¬ cond q.2 = true) (l : Values α) :
    select cond (q :: l) = select cond l := filter_cons_of_neg hq

theorem scan_spec (cond : α → Bool) (a : Values α) (hroom : 0 < room) :
    (scan cond room a = (select cond a, none) ∧ (select cond a).length < room) ∨
      ∃ x p rest, a = x ++ p :: rest ∧ cond p.2 = true ∧ (select cond x).length + 1 = room ∧
        scan cond room a = (select cond x ++ [p], some rest) := by
  induction a generalizing room with
  | nil => exact .inl ⟨rfl, hroom⟩
  | cons q a ih =>
    rw [scan]
    by_cases hq : cond q.2 = true
    · rw [if_pos hq]
      by_cases hone : room ≤ 1
      · rw [if_pos hone]
        exact .inr ⟨[], q, a, rfl, hq, show 1 = room by omega, rfl⟩
      · rw [if_neg hone]
        rcases ih (show 0 < room - 1 by omega) with ⟨hscan, hlt⟩ | ⟨x, p, rest, rfl, hp, hcount, hscan⟩
        · rw [hscan, select_cons_of_pos hq, length_cons]
          exact .inl ⟨rfl, by omega⟩
        · rw [hscan]
          refine .inr ⟨q :: x, p, rest, rfl, hp, ?_, ?_⟩ <;> rw [select_cons_of_pos hq]
          · rw [length_cons]
            omega
          · rfl
    · rw [if_neg hq]
      rcases ih hroom with ⟨hscan, hlt⟩ | ⟨x, p, rest, rfl, hp, hcount, hscan⟩
      · rw [select_cons_of_neg hq]
        exact .inl ⟨hscan, hlt⟩
      · refine .inr ⟨q :: x, p, rest, rfl, hp, ?_, ?_⟩ <;> rw [select_cons_of_neg hq]
        · exact hcount
        · exact hscan

variable {rest : Values α} (cur : List (Values α)) {a kept : Values α}

theorem loop_of_full (ha : a ≠ [])
    (hscan : scan cond room a = (kept, some rest)) : loop cond room a cur = (kept, rest, cur) := by
  rw [loop.eq_def, if_pos (length_pos_of_ne_nil ha), hscan]

theorem loop_of_scanned (ha : a ≠ [])
    (hscan : scan cond room a = (kept, none)) :
    loop cond room a cur = (loop cond (room - kept.length) (cur.headD []) cur.tail).map (kept ++ ·) id := by
  rw [loop.eq_def, if_pos (length_pos_of_ne_nil ha), hscan]
  cases cur with
  | nil => simp [loop.eq_def]
  | cons b cur => rfl

/-- The loop keeps all points that meet the condition, or it stops when the result is full. -/
theorem loop_spec (cond : α → Bool) {cur : List (Values α)} (hne : ∀ b ∈ cur, b ≠ []) (hroom : 0 < room) :
    (loop cond room (cur.headD []) cur.tail = (select cond cur.flatten, [], []) ∧
        (select cond cur.flatten).length < room) ∨
      ∃ pre x p rest post, FullAt room cond cur pre x p rest post ∧
        loop cond room (cur.headD []) cur.tail = (select cond (pre.flatten ++ x) ++ [p], rest, post) := by
  induction cur generalizing room with
  | nil => exact .inl ⟨by rw [loop.eq_def]; rfl, hroom⟩
  | cons a cur ih =>
    have ha : a ≠ [] := hne a mem_cons_self
    rw [headD_cons, tail_cons]
    rcases scan_spec cond a hroom with ⟨hscan, hlt⟩ | ⟨x, p, rest, rfl, hp, hcount, hscan⟩
    · rw [loop_of_scanned cur ha hscan]
      rcases ih (forall_mem_cons.mp hne).2 (show 0 < room - (select cond a).length by omega) with
        ⟨hloop, hlt'⟩ | ⟨pre, x, p, rest, post, hfull, hloop⟩
      · rw [hloop, flatten_cons, select_append, length_append]
        exact .inl ⟨rfl, by omega⟩
      · rw [hloop]
        have hcount := hfull.count
        refine .inr ⟨a :: pre, x, p, rest, post, ⟨?_, hfull.meets, ?_⟩, ?_⟩
        · rw [hfull.split]
          rfl
        · rw [flatten_cons, append_assoc, select_append, length_append]
          omega
        · rw [flatten_cons, append_assoc, select_append a, append_assoc]
          rfl
    · rw [loop_of_full cur ha hscan]
      exact .inr ⟨[], x, p, rest, cur, ⟨rfl, hp, hcount⟩, rfl⟩

theorem select_eq_nil (l : Values α) : select cond l = [] ↔ (l.any fun p => cond p.2) = false := by
  simp [select, filter_eq_nil_iff]

/-- The loop finds nothing if and only if no point before the first empty array meets the condition. -/
theorem loop_eq_nil (hroom : 0 < room) (cur : List (Values α)) :
    (loop cond room (cur.headD []) cur.tail).1 = [] ↔
      ((cur.takeWhile fun a => !a.isEmpty).flatten.any fun p => cond p.2) = false := by
  induction cur generalizing room with
  | nil => simp [loop.eq_def]
  | cons a cur ih =>
    rw [headD_cons, tail_cons]
    rcases eq_or_ne a [] with rfl | ha
    · simp [loop.eq_def]
    · rw [takeWhile_cons_of_pos (by simpa using ha), flatten_cons, any_append, Bool.or_eq_false_iff,
        ← select_eq_nil]
      rcases scan_spec cond a hroom with ⟨hscan, hlt⟩ | ⟨x, p, rest, rfl, hp, -, hscan⟩
      · rw [loop_of_scanned cur ha hscan, ← ih (show 0 < room - (select cond a).length by omega)]
        exact append_eq_nil_iff
      · rw [loop_of_full cur ha hscan, select_append, select_cons_of_pos hp]
        simp

theorem next_eq_nil {c : ArrayFilterCursor α} (htmp : c.tmp = []) (hroom : 0 < c.resLen) :
    c.next.1 = [] ↔ ((c.cur.takeWhile fun a => !a.isEmpty).flatten.any fun p => c.cond p.2) = false := by
  rw [← loop_eq_nil hroom, next, htmp]
  rfl

/-! ### All calls -/

variable {c : ArrayFilterCursor α} {cur : List (Values α)} {p : ℤ × α}

theorem drain_succ (c : ArrayFilterCursor α) (fuel : ℕ) :
    c.drain (fuel + 1) = if c.next.1 = [] then some [] else (c.next.2.drain fuel).map (c.next.1 :: ·) := by
  rw [drain]
  rcases c.next with ⟨res, c'⟩
  cases res <;> rfl

/-- A call that finds a parked array returns nothing. -/
theorem next_of_parked (h : c.tmp ≠ []) : c.next.1 = [] := by
  rw [next, if_pos (length_pos_of_ne_nil h)]
  dsimp only
  rw [loop.eq_def]
  rfl

theorem next_eq (n : ℕ) (cond : α → Bool) (cur : List (Values α)) :
    next ⟨cur, cond, n, []⟩ = ((loop cond n (cur.headD []) cur.tail).1,
      ⟨(loop cond n (cur.headD []) cur.tail).2.2, cond, n, (loop cond n (cur.headD []) cur.tail).2.1⟩) := rfl

/-- The arrays of the calls, up to the first empty one, hold the points that meet the condition. -/
def Filters (c : ArrayFilterCursor α) : Prop :=
  ∃ fuel arrays, c.drain fuel = some arrays ∧ arrays.flatten = select c.cond (c.tmp ++ c.cur.flatten)

/-- Points are lost: a result of `n` points is full in the middle of an array, and a point that meets
the condition follows. -/
def Loses (n : ℕ) (cond : α → Bool) (arrays : List (Values α)) : Prop :=
  ∃ pre x p rest post, arrays = pre ++ (x ++ p :: rest) :: post ∧ cond p.2 = true ∧
    n ∣ (select cond (pre.flatten ++ x)).length + 1 ∧ rest ≠ [] ∧
      ∃ q ∈ rest ++ post.flatten, cond q.2 = true

/-- The selected points in front of, at and behind a point that is kept. -/
theorem select_split (pre post : List (Values α)) (x rest : Values α) (hp : cond p.2 = true) :
    select cond (pre ++ (x ++ p :: rest) :: post).flatten =
      select cond (pre.flatten ++ x) ++ [p] ++ select cond (rest ++ post.flatten) := by
  simp [select_append, select_cons_of_pos hp]

variable {arrays post : List (Values α)} {pre : List (Values α)} {x : Values α}

theorem FullAt.select_eq (h : FullAt n cond arrays pre x p rest post) :
    select cond arrays.flatten = select cond (pre.flatten ++ x) ++ [p] ++ select cond (rest ++ post.flatten) := by
  rw [h.split, select_split pre post x rest h.meets]

/-- A loss needs more points than fit one result. -/
theorem Loses.lt_length (h : Loses n cond arrays) : n < (select cond arrays.flatten).length := by
  obtain ⟨pre, x, p, rest, post, rfl, hp, hdvd, -, q, hq, hcond⟩ := h
  have hle := le_of_dvd (succ_pos _) hdvd
  have hpos : 0 < (select cond (rest ++ post.flatten)).length := length_pos_of_mem (mem_filter.mpr ⟨hq, hcond⟩)
  rw [select_split pre post x rest hp, length_append, length_append, length_singleton]
  omega

/-- A result that is full at the end of an array loses nothing, so a loss is a loss further on. -/
theorem FullAt.loses_iff (h : FullAt n cond arrays pre x p [] post) : Loses n cond arrays ↔ Loses n cond post := by
  have hcount : (select cond (pre.flatten ++ (x ++ [p]))).length = n := by
    rw [← append_assoc, select_append, length_append, select_cons_of_pos h.meets]
    exact h.count
  have hshift : ∀ (mid : List (Values α)) (y : Values α),
      (select cond ((pre ++ (x ++ [p]) :: mid).flatten ++ y)).length + 1 =
        n + ((select cond (mid.flatten ++ y)).length + 1) := by
    intro mid y
    rw [← add_assoc, ← hcount, ← length_append, ← select_append]
    simp
  constructor
  · rintro ⟨pre', x', p', rest', post', hsplit, hp', hdvd, hrest', hlater⟩
    -- A loss in or before the array that filled the result would be at fewer than `n` points.
    have hearly : ∀ {l : Values α}, pre'.flatten ++ x' ++ p' :: l = pre.flatten ++ x → False := fun hl => by
      have hle := le_of_dvd (succ_pos _) hdvd
      have := h.count
      rw [← hl, select_append _ (p' :: _), select_cons_of_pos hp', length_append, length_cons] at this
      omega
    have hsame : pre' = pre → x' ++ p' :: rest' = x ++ [p] → False := fun hpre heq => by
      obtain ⟨l, q, rfl⟩ : ∃ l q, rest' = l ++ [q] := ⟨_, _, (dropLast_append_getLast hrest').symm⟩
      refine hearly (l := l) ?_
      rw [hpre, append_assoc, append_cancel_left_eq]
      have : (x' ++ p' :: l) ++ [q] = x ++ [p] := by rw [← heq]; simp
      exact (append_inj' this rfl).1
    rw [h.split] at hsplit
    rcases append_eq_append_iff.mp hsplit with ⟨mid, hpre, hmid⟩ | ⟨mid, hpre, hmid⟩
    · cases mid with
      | nil =>
        rw [nil_append, cons.injEq] at hmid
        exact (hsame (by simpa using hpre) hmid.1.symm).elim
      | cons y mid =>
        rw [cons_append, cons.injEq] at hmid
        rw [hpre, ← hmid.1, hshift, Nat.dvd_add_right (Nat.dvd_refl n)] at hdvd
        exact ⟨mid, x', p', rest', post', hmid.2, hp', hdvd, hrest', hlater⟩
    · cases mid with
      | nil =>
        rw [nil_append, cons.injEq] at hmid
        exact (hsame (by simpa using hpre.symm) hmid.1).elim
      | cons y mid =>
        rw [cons_append, cons.injEq] at hmid
        refine (hearly (l := rest' ++ (mid.flatten ++ x)) ?_).elim
        rw [hpre, ← hmid.1]
        simp
  · rintro ⟨pre', x', p', rest', post', rfl, hp', hdvd, hrest', hlater⟩
    refine ⟨pre ++ (x ++ [p]) :: pre', x', p', rest', post', ?_, hp', ?_, hrest', hlater⟩
    · rw [h.split]
      simp
    · rw [hshift]
      exact (Nat.dvd_add_right (Nat.dvd_refl n)).mpr hdvd

/-- What one call without a parked array does. -/
theorem next_spec (cond : α → Bool) (hne : ∀ b ∈ cur, b ≠ []) (hn : 0 < n) :
    (next ⟨cur, cond, n, []⟩ = (select cond cur.flatten, ⟨[], cond, n, []⟩) ∧
      (select cond cur.flatten).length < n) ∨
      ∃ pre x p rest post, FullAt n cond cur pre x p rest post ∧
        next ⟨cur, cond, n, []⟩ = (select cond (pre.flatten ++ x) ++ [p], ⟨post, cond, n, rest⟩) := by
  rw [next_eq]
  rcases loop_spec cond hne hn with ⟨hloop, hlt⟩ | ⟨pre, x, p, rest, post, hfull, hloop⟩
  · rw [hloop]
    exact .inl ⟨rfl, hlt⟩
  · rw [hloop]
    exact .inr ⟨pre, x, p, rest, post, hfull, rfl⟩

theorem filters_of_next_nil (h : c.next.1 = []) (hall : select c.cond (c.tmp ++ c.cur.flatten) = []) : c.Filters :=
  ⟨1, [], by rw [drain_succ, if_pos h], hall.symm⟩

/-- The points of a call and those of the calls behind it. -/
theorem filters_iff_of_next {out : Values α}
    (hnext : next ⟨cur, cond, n, []⟩ = (out, ⟨post, cond, n, rest⟩)) (hout : out ≠ []) :
    Filters ⟨cur, cond, n, []⟩ ↔
      ∃ fuel arrays, drain fuel ⟨post, cond, n, rest⟩ = some arrays ∧
        out ++ arrays.flatten = select cond cur.flatten := by
  constructor
  · rintro ⟨fuel, arrays, hdrain, hflat⟩
    cases fuel with
    | zero => cases hdrain
    | succ fuel =>
      rw [drain_succ, hnext, if_neg hout, Option.map_eq_some_iff] at hdrain
      obtain ⟨arrays', hdrain', rfl⟩ := hdrain
      exact ⟨fuel, arrays', hdrain', hflat⟩
  · rintro ⟨fuel, arrays, hdrain, hflat⟩
    exact ⟨fuel + 1, out :: arrays, by rw [drain_succ, hnext, if_neg hout, hdrain]; rfl, hflat⟩

/-- The calls return all points that meet the condition unless some are lost. -/
theorem filters_iff_not_loses (cond : α → Bool) (hne : ∀ b ∈ cur, b ≠ []) (hn : 0 < n) :
    Filters ⟨cur, cond, n, []⟩ ↔ ¬ Loses n cond cur := by
  -- A result that is full at the end of an array leaves shorter input behind.
  induction hlen : cur.length using Nat.strong_induction_on generalizing cur with
  | _ len ih =>
    rcases next_spec cond hne hn with ⟨hnext, hlt⟩ | ⟨pre, x, p, rest, post, hfull, hnext⟩
    · refine iff_of_true ?_ fun hloses => lt_asymm hlt hloses.lt_length
      by_cases hnil : select cond cur.flatten = []
      · exact filters_of_next_nil (by rw [hnext, hnil]) hnil
      · rw [filters_iff_of_next hnext hnil]
        refine ⟨1, [], ?_, append_nil _⟩
        rw [drain_succ, next_eq, loop.eq_def]
        rfl
    · have hout : select cond (pre.flatten ++ x) ++ [p] ≠ [] := append_ne_nil_of_right_ne_nil _ (cons_ne_nil _ _)
      rw [filters_iff_of_next hnext hout, hfull.select_eq]
      by_cases hrest : rest = []
      · subst hrest
        have hpost : post.length < len := by
          rw [← hlen, hfull.split, length_append, length_cons]
          omega
        have hne' : ∀ b ∈ post, b ≠ [] := fun b hb =>
          hne b (hfull.split ▸ mem_append_right _ (mem_cons_of_mem _ hb))
        rw [hfull.loses_iff, ← ih _ hpost hne' rfl, Filters]
        simp only [append_cancel_left_eq]
      · -- The parked rest of the array makes the next call return nothing.
        constructor
        · rintro ⟨fuel, arrays, hdrain, hflat⟩ hloses
          cases fuel with
          | zero => cases hdrain
          | succ fuel =>
            rw [drain_succ, if_pos (next_of_parked hrest), Option.some.injEq] at hdrain
            rw [← hdrain, append_cancel_left_eq] at hflat
            have hlt := hloses.lt_length
            rw [hfull.select_eq, ← hflat, flatten_nil, append_nil, length_append] at hlt
            exact absurd hfull.count hlt.ne'
        · intro hkeeps
          refine ⟨1, [], by rw [drain_succ, if_pos (next_of_parked hrest)], ?_⟩
          rw [append_cancel_left_eq, flatten_nil, eq_comm, select, filter_eq_nil_iff]
          intro q hq hcond
          exact hkeeps ⟨pre, x, p, rest, post, hfull.split, hfull.meets, hfull.count ▸ dvd_refl _,
            hrest, q, hq, hcond⟩

end ArrayFilterCursor

open ArrayFilterCursor

/-- The arrays of successive calls of `Next`, up to the first empty one, hold exactly the points that
meet the condition, in order, unless a result fills up in the middle of an array and a point that
meets the condition follows. -/
theorem filterCursor_filters (cond : α → Bool) (arrays : List (Values α)) (hne : ∀ a ∈ arrays, a ≠ []) :
    (∃ fuel out, (reset arrays cond).drain fuel = some out ∧
      out.flatten = arrays.flatten.filter fun p => cond p.2) ↔
      ¬ Loses maxPointsPerBlock cond arrays :=
  filters_iff_not_loses cond hne (succ_pos _)

/-- Two short arrays are filtered. -/
theorem filterCursor_filters_shortArrays :
    ∃ fuel out, (reset [[(1, 5), (2, 7)], [(3, 6)]] fun v : ℤ => decide (6 ≤ v)).drain fuel = some out ∧
      out.flatten = [(2, 7), (3, 6)] := by
  refine (filterCursor_filters (fun v : ℤ => decide (6 ≤ v)) [[(1, 5), (2, 7)], [(3, 6)]] (by decide)).mpr
    fun h => ?_
  exact absurd h.lt_length (by decide)

/-- An array of 1001 points. -/
def longArray : Values ℤ := (range 999).map (fun i : ℕ => ((i : ℤ), 1)) ++ (999, 1) :: [(1000, 1)]

/-- With the condition that always holds, the last of 1001 points is lost. -/
theorem not_filters_longArray :
    ¬ ∃ fuel out, (reset [longArray] fun _ => true).drain fuel = some out ∧ out.flatten = longArray := by
  have hselect : select (fun _ => true) longArray = longArray := filter_eq_self.mpr fun _ _ => rfl
  have hloses : Loses maxPointsPerBlock (fun _ => true) [longArray] := by
    refine ⟨[], (range 999).map (fun i : ℕ => ((i : ℤ), 1)), (999, 1), [(1000, 1)], [], rfl, rfl, ?_,
      cons_ne_nil _ _, (1000, 1), mem_cons_self, rfl⟩
    rw [select, filter_eq_self.mpr fun _ _ => rfl]
    simp [maxPointsPerBlock]
  rintro ⟨fuel, out, hdrain, hflat⟩
  refine (filters_iff_not_loses (fun _ => true) ?_ (succ_pos _)).mp ⟨fuel, out, hdrain, ?_⟩ hloses
  · intro b hb
    rw [mem_singleton.mp hb]
    exact append_ne_nil_of_right_ne_nil _ (cons_ne_nil _ _)
  · rw [hflat, ← hselect]
    simp [select]

end InfluxDB.Reads
