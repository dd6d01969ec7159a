import InfluxDB.Models.ScanText

/-!
    The scanners of fields, timestamps and lines stay within the buffer, and end.
-/

namespace InfluxDB.Models

open Lib Buffer

variable {buf : Bytes} {start i : ℕ} {c : Byte}

theorem get_range (h : i < buf.length) : Yields (get buf i) fun _ => True := by
  obtain ⟨c, hc, -⟩ := get_eq h
  exact ⟨c, hc, trivial⟩

theorem getBefore_range {k : ℕ} (hk : k ≤ i) (h : i - k < buf.length) :
    Yields (getBefore buf i k) fun _ => True := by
  rw [getBefore_eq hk]
  exact get_range h

theorem slice_range {j : ℕ} (hij : i ≤ j) (hj : j ≤ buf.length) : Yields (slice buf i j) fun _ => True :=
  ⟨_, slice_eq hij hj, trivial⟩

theorem testAt_range (test : Byte → Bool) : Yields (testAt buf i test) fun b => b = true → i < buf.length := by
  rw [testAt]
  split_ifs with h
  · exact (get_range h).bind fun c _ => .ok fun _ => h
  · exact .ok nofun

/-! ### Numbers and booleans -/

/-- A scan that starts at `start` ends there or behind it. -/
def InRange {α : Type} (buf : Bytes) (start : ℕ) (P : α → Prop) : Except (ParseError × ℕ) α → Prop
  | .error (_, j) => start ≤ j ∧ j ≤ buf.length
  | .ok a => P a

theorem isExponentSign_range (h0 : 1 ≤ i) (h : i < buf.length) : Yields (isExponentSign buf i c) fun _ => True := by
  rw [isExponentSign]
  split_ifs
  · exact (getBefore_range h0 (by omega)).bind fun p _ => .ok trivial
  · exact .ok trivial

/-- The end of a number: a number with a suffix has a byte in front of it. -/
def NumberEnd (buf : Bytes) (start : ℕ) (r : ℕ × NumberState) : Prop :=
  start ≤ r.1 ∧ r.1 ≤ buf.length ∧ ((r.2.isInt || r.2.isUnsigned) = true → start < r.1)

variable {fuel : ℕ} (parseFloat : ParseFloat) {s : NumberState}

theorem scanNumberLoop_range (h0 : 1 ≤ i) (h : NumberEnd buf start (i, s))
    (hfuel : buf.length - i < fuel) :
    Yields (scanNumberLoop buf start fuel i s) (InRange buf start (NumberEnd buf start)) := by
  induction fuel generalizing i s with
  | zero => omega
  | succ fuel ih =>
    obtain ⟨hsi, hi, hs⟩ := h
    simp only at hsi hi hs
    rw [scanNumberLoop]
    split_ifs with hge
    · exact .ok ⟨hsi, hi, hs⟩
    refine (get_range (by omega)).bind fun c _ => ?_
    -- every pass moves on by one byte; what it has seen matters only for the suffix
    have hnext : ∀ s', ((s'.isInt || s'.isUnsigned) = true → start < i + 1) →
        Yields (scanNumberLoop buf start fuel (i + 1) s') (InRange buf start (NumberEnd buf start)) :=
      fun s' hs' => ih (by omega) ⟨by show start ≤ i + 1; omega, by show i + 1 ≤ buf.length; omega,
        hs'⟩ (by omega)
    have herr : Yields (pure (.error (.invalidNumber, i)) : Checked _) (InRange buf start (NumberEnd buf start)) :=
      .ok ⟨hsi, hi⟩
    have hlt : ∀ s' : NumberState, (s'.isInt || s'.isUnsigned) = true → start < i + 1 := fun _ _ => by omega
    refine .ite (fun _ => .ok ⟨hsi, hi, hs⟩) fun _ => ?_
    refine .ite (fun _ => hnext _ (hlt _)) fun _ => .ite (fun _ => hnext _ (hlt _)) fun _ => ?_
    refine .ite (fun _ => herr) fun _ => .ite (fun _ => hnext _ (hlt _)) fun _ => ?_
    refine (isExponentSign_range h0 (by omega)).bind fun signed _ => .ite (fun _ => hnext _ (hlt _)) fun _ => ?_
    exact .ite (fun _ => herr) fun _ => .ite (fun _ => herr) fun _ => hnext _ (hlt _)

/-- Where a value ends that starts at `start`. -/
def EndsBehind (buf : Bytes) (start j : ℕ) : Prop := start ≤ j ∧ j ≤ buf.length

theorem checkNumber_range (h0 : 1 ≤ start) (hlt : start < buf.length)
    (h : NumberEnd buf start (i, s)) :
    Yields (checkNumber parseFloat buf start i s) (InRange buf start (EndsBehind buf start)) := by
  obtain ⟨hsi, hi, hs⟩ := h
  simp only at hsi hi hs
  have herr : ∀ err, Yields (pure (.error (err, i)) : Checked _) (InRange buf start (EndsBehind buf start)) :=
    fun err => .ok ⟨hsi, hi⟩
  have hok : Yields (pure (.ok i) : Checked _) (InRange buf start (EndsBehind buf start)) := .ok ⟨hsi, hi⟩
  have htext : (s.isInt || s.isUnsigned) = true → Yields (sliceBefore buf start i 1) fun _ => True := by
    intro hsuffix
    have := hs hsuffix
    rw [sliceBefore_eq (by omega)]
    exact slice_range (by omega) (by omega)
  rw [checkNumber]
  refine .ite (fun _ => herr _) fun _ => ?_
  refine (get_range hlt).bind fun first _ => ?_
  refine .ite (fun _ => herr _) fun _ => ?_
  refine .ite (fun hint => ?_) fun _ => .ite (fun hunsigned => ?_) fun _ => ?_
  · refine (getBefore_range (by omega) (by omega)).bind fun last _ => .ite (fun _ => herr _) fun _ => ?_
    exact (htext (by rw [hint]; rfl)).bind fun text _ => .ite (fun _ => herr _) fun _ => hok
  · refine (getBefore_range (by omega) (by omega)).bind fun last _ => .ite (fun _ => herr _) fun _ => ?_
    refine .ite (fun _ => herr _) fun _ => ?_
    exact (htext (by rw [hunsigned, Bool.or_true])).bind fun text _ => .ite (fun _ => herr _) fun _ => hok
  · exact (slice_range hsi hi).bind fun text _ => .ite (fun _ => herr _) fun _ => hok

theorem scanNumber_range (h0 : 1 ≤ i) (hlt : i < buf.length) :
    Yields (scanNumber parseFloat buf i) (InRange buf i (EndsBehind buf i)) := by
  rw [scanNumber]
  refine (testAt_range _).bind fun negative _ => ?_
  have hle : i ≤ (if negative = true then i + 1 else i) ∧
      (if negative = true then i + 1 else i) ≤ buf.length := by
    split_ifs <;> omega
  generalize (if negative = true then i + 1 else i) = j at hle
  dsimp only
  split_ifs with hend
  · exact .ok hle
  · have hstate : NumberEnd buf i (j, ⟨false, false, false, false⟩) :=
      ⟨hle.1, hle.2, nofun⟩
    refine (scanNumberLoop_range (by omega) hstate (by omega)).bind fun r hr => ?_
    cases r with
    | error err => exact .ok hr
    | ok r => exact checkNumber_range parseFloat h0 hlt hr

theorem scanBooleanLoop_range (hi : i ≤ buf.length) (hfuel : buf.length - i < fuel) :
    Yields (scanBooleanLoop buf fuel i) (EndsBehind buf i) := by
  induction fuel generalizing i with
  | zero => omega
  | succ fuel ih =>
    rw [scanBooleanLoop]
    split_ifs with hge
    · exact .ok ⟨le_rfl, hi⟩
    refine (get_range (by omega)).bind fun c _ => ?_
    split_ifs
    · exact .ok ⟨le_rfl, hi⟩
    · exact (ih (by omega) (by omega)).imp fun j hj => ⟨by have := hj.1; omega, hj.2⟩

theorem scanBoolean_range (hlt : i < buf.length) : Yields (scanBoolean buf i) (InRange buf i (EndsBehind buf i)) := by
  rw [scanBoolean]
  refine (testAt_range _).bind fun bad _ => ?_
  split_ifs
  · exact (slice_range le_rfl (le_of_lt hlt)).bind fun _ _ => .ok ⟨le_rfl, le_of_lt hlt⟩
  · refine (scanBooleanLoop_range (by omega) (by omega)).bind fun j hj => ?_
    have hrange : i ≤ j ∧ j ≤ buf.length := ⟨by have := hj.1; omega, hj.2⟩
    refine (slice_range hrange.1 hrange.2).bind fun text _ => ?_
    split_ifs
    · exact .ok hrange
    · refine (get_range hlt).bind fun first _ => ?_
      split_ifs
      all_goals exact .ok hrange

/-! ### Fields -/

theorem emptyKeyBehind_range (h2 : 2 ≤ i) (hi : i ≤ buf.length) :
    Yields (emptyKeyBehind buf i c) fun _ => True := by
  rw [emptyKeyBehind]
  refine (getBefore_range (by omega) (by omega)).bind fun p _ => ?_
  split_ifs
  · exact (getBefore_range (by omega) (by omega)).bind fun q _ => .ok trivial
  · exact .ok trivial

theorem scanFieldStart_range (h2 : 2 ≤ i) (hlt : i < buf.length) :
    Yields (scanFieldStart parseFloat buf i)
      (InRange buf i fun r => ∀ j, r = some j → i < j ∧ j ≤ buf.length) := by
  have herr : ∀ err, Yields (pure (.error (err, i)) : Checked _)
      (InRange buf i fun r : Option ℕ => ∀ j, r = some j → i < j ∧ j ≤ buf.length) :=
    fun err => .ok ⟨le_rfl, le_of_lt hlt⟩
  have hvalue : ∀ (scan : Checked (Except (ParseError × ℕ) ℕ))
      (k : _ → Checked (Except (ParseError × ℕ) (Option ℕ))),
      Yields scan (InRange buf (i + 1) (EndsBehind buf (i + 1))) → (∀ err, k (.error err) = pure (.error err)) →
      (∀ j, k (.ok j) = pure (.ok (some j))) →
      Yields (scan >>= k) (InRange buf i fun r => ∀ j, r = some j → i < j ∧ j ≤ buf.length) := by
    refine fun scan k hscan herr hok => hscan.bind fun r hr => ?_
    cases r with
    | error err =>
      rw [herr]
      exact .ok ⟨by have := hr.1; omega, hr.2⟩
    | ok j =>
      rw [hok]
      refine .ok fun j' hj => ?_
      cases hj
      exact ⟨hr.1, hr.2⟩
  rw [scanFieldStart]
  refine (emptyKeyBehind_range h2 (le_of_lt hlt)).bind fun missing _ => .ite (fun _ => herr _) fun _ => ?_
  refine (emptyKeyBehind_range h2 (le_of_lt hlt)).bind fun missing _ => .ite (fun _ => herr _) fun _ => ?_
  refine .ite (fun _ => herr _) fun hend => ?_
  refine (get_range (by omega)).bind fun n _ => .ite (fun _ => herr _) fun _ => ?_
  refine .ite (fun _ => hvalue _ _ (scanNumber_range parseFloat (by omega) (by omega)) (fun _ => rfl) fun _ => rfl)
    fun _ => ?_
  exact .ite (fun _ => hvalue _ _ (scanBoolean_range (by omega)) (fun _ => rfl) fun _ => rfl)
    fun _ => .ok nofun

theorem scanFieldsLoop_range {s : FieldsState} (h2 : 2 ≤ start) (hsi : start ≤ i)
    (hi : i ≤ buf.length) (hfuel : buf.length - i < fuel) :
    Yields (scanFieldsLoop parseFloat buf fuel i s)
      (InRange buf start fun r => start ≤ r.1 ∧ r.1 ≤ buf.length) := by
  induction fuel generalizing i s with
  | zero => omega
  | succ fuel ih =>
    rw [scanFieldsLoop]
    split_ifs with hge
    · exact .ok ⟨hsi, hi⟩
    refine (get_range (by omega)).bind fun c _ => ?_
    split_ifs with hback hquote hequals hcomma hspace
    · exact ih (by omega) (by omega) (by omega)
    · exact ih (by omega) (by omega) (by omega)
    · refine (scanFieldStart_range parseFloat (by omega) (by omega)).bind fun r hr => ?_
      match r with
      | .error (err, j) => exact .ok ⟨by have := hr.1; omega, hr.2⟩
      | .ok (some j) =>
        have hj := hr j rfl
        exact ih (by omega) hj.2 (by omega)
      | .ok none => exact ih (by omega) (by omega) (by omega)
    · exact ih (by omega) (by omega) (by omega)
    · exact .ok ⟨hsi, hi⟩
    · exact ih (by omega) (by omega) (by omega)

/-- The text of a section that a scanner returns, and where it ends. -/
def IsSection (buf : Bytes) (start : ℕ) : Except ParseError (ℕ × Bytes) → Prop
  | .error _ => True
  | .ok (j, text) => start ≤ j ∧ j ≤ buf.length ∧ text = (buf.drop start).take (j - start)

theorem scanFields_range (hstart : skipWhitespace buf i = .ok start) (h2 : 2 ≤ start)
    (hle : start ≤ buf.length) : Yields (scanFields parseFloat buf i) (IsSection buf start) := by
  rw [scanFields, hstart, ok_bind]
  refine (scanFieldsLoop_range parseFloat h2 le_rfl hle (by omega)).bind fun r hr => ?_
  match r with
  | .error (err, j) =>
    simp only []
    rw [fail_eq hr.1 hr.2]
    exact .ok trivial
  | .ok (j, s) =>
    simp only []
    split_ifs
    · rw [fail_eq hr.1 hr.2]
      exact .ok trivial
    · rw [fail_eq hr.1 hr.2]
      exact .ok trivial
    · rw [slice_eq hr.1 hr.2]
      exact .ok ⟨hr.1, hr.2, rfl⟩

/-! ### Timestamps -/

theorem scanTimeLoop_range (hsi : start ≤ i) (hi : i ≤ buf.length) (hfuel : buf.length - i < fuel) :
    Yields (scanTimeLoop buf start fuel i) (InRange buf start (EndsBehind buf start)) := by
  induction fuel generalizing i with
  | zero => omega
  | succ fuel ih =>
    rw [scanTimeLoop]
    split_ifs with hge
    · exact .ok ⟨hsi, hi⟩
    refine (get_range (by omega)).bind fun c _ => ?_
    split_ifs
    · exact .ok ⟨hsi, hi⟩
    · exact ih (by omega) (by omega) (by omega)
    · exact .ok ⟨hsi, hi⟩
    · exact ih (by omega) (by omega) (by omega)

theorem scanTime_range (hstart : skipWhitespace buf i = .ok start) (hle : start ≤ buf.length) :
    Yields (scanTime buf i) (IsSection buf start) := by
  rw [scanTime, hstart, ok_bind]
  refine (scanTimeLoop_range le_rfl hle (by omega)).bind fun r hr => ?_
  match r with
  | .error (err, j) =>
    simp only []
    rw [fail_eq hr.1 hr.2]
    exact .ok trivial
  | .ok j =>
    simp only []
    rw [slice_eq hr.1 hr.2]
    exact .ok ⟨hr.1, hr.2, rfl⟩

end InfluxDB.Models
