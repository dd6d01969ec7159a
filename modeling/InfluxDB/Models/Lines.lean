import InfluxDB.Models.Parser
import InfluxDB.Models.ScanText

/-!
    The lines of a text in line protocol.  A newline ends a line, unless it is escaped or within the quotes of a
    field value.  Lines of whitespace and comments hold no points.
-/

namespace InfluxDB.Models

open Lib Buffer List

/-! ### Cutting off a line -/

/-- What `scanLine` knows behind a byte that does not end the line. -/
def LineState.next (s : LineState) (c : Byte) : LineState := ((s.start c).count c).getD (s.start c)

def LineState.init : LineState := { quoted := false, fields := false, equals := 0, commas := 0 }

/-- The first line of a text, and the text from its end on; the flag says that the first byte is skipped. -/
def cutLine : Bool → LineState → Bytes → Bytes × Bytes
  | _, _, [] => ([], [])
  | true, s, c :: l => (c :: (cutLine false s l).1, (cutLine false s l).2)
  | false, s, c :: l =>
    if c = backslash ∧ 2 ≤ l.length then (c :: (cutLine true s l).1, (cutLine true s l).2)
    else if c = newline ∧ !s.quoted then ([], c :: l)
    else (c :: (cutLine false (s.next c) l).1, (cutLine false (s.next c) l).2)

theorem cutLine_append (skip : Bool) (s : LineState) (l : Bytes) :
    (cutLine skip s l).1 ++ (cutLine skip s l).2 = l := by
  induction l generalizing skip s with
  | nil => cases skip <;> rfl
  | cons c l ih =>
    cases skip with
    | true => rw [cutLine, cons_append, ih]
    | false =>
      rw [cutLine]
      split_ifs
      · rw [cons_append, ih]
      · rfl
      · rw [cons_append, ih]

variable {buf : Bytes} {i : ℕ} {s : LineState} {fuel : ℕ}

/-- One pass of `scanLine`. -/
theorem scanLineLoop_step {c : Byte} {l : Bytes} (h : buf.drop i = c :: l) :
    scanLineLoop buf (fuel + 1) i s =
      if c = backslash ∧ 2 ≤ l.length then scanLineLoop buf fuel (i + 2) s
      else if c = newline ∧ !s.quoted then .ok i
      else scanLineLoop buf fuel (i + 1) (s.next c) := by
  have hlt := lt_length_of_drop h
  have hlen := length_of_drop h (le_of_lt hlt)
  rw [length_cons] at hlen
  rw [scanLineLoop, if_neg (by omega), get_drop h, ok_bind]
  by_cases hback : c = backslash ∧ 2 ≤ l.length
  · rw [if_pos ⟨hback.1, by omega⟩, if_pos hback]
  rw [if_neg (fun h => hback ⟨h.1, by omega⟩), if_neg hback]
  have hquoted : (s.start c).quoted = s.quoted := by
    rw [LineState.start]
    split_ifs <;> rfl
  rw [LineState.next]
  cases hcount : (s.start c).count c with
  | some s' =>
    have hnl : c ≠ newline := by
      rintro rfl
      rw [LineState.count] at hcount
      split_ifs at hcount with _ h₁ h₂ h₃
      · exact absurd h₁.2 (by decide)
      · exact absurd h₂.2 (by decide)
      · exact absurd h₃.1 (by decide)
    show scanLineLoop buf fuel (i + 1) s' = _
    rw [if_neg fun h => hnl h.1]
    rfl
  | none =>
    simp only []
    rw [hquoted]
    rfl

theorem scanLineLoop_eq {rest : Bytes} (h : buf.drop i = rest) (hfuel : rest.length < fuel) :
    scanLineLoop buf fuel i s = .ok (i + (cutLine false s rest).1.length) := by
  induction hn : rest.length using Nat.strong_induction_on generalizing i fuel s rest with
  | _ n ih =>
    obtain ⟨fuel, rfl⟩ : ∃ n, fuel = n + 1 := ⟨fuel - 1, by omega⟩
    cases rest with
    | nil =>
      rw [scanLineLoop, if_pos (drop_eq_nil_iff.mp h)]
      rfl
    | cons c l =>
      rw [length_cons] at hn hfuel
      rw [scanLineLoop_step h, cutLine]
      split_ifs with hback hnl
      · -- the escaped byte is skipped with the backslash
        obtain ⟨d, l, rfl⟩ := exists_cons_of_length_pos (show 0 < l.length by omega)
        rw [length_cons] at hn hfuel
        rw [ih l.length (by omega) (drop_succ (drop_succ h)) (by omega) rfl, cutLine, length_cons, length_cons]
        congr 1
        omega
      · rfl
      · rw [ih l.length (by omega) (drop_succ h) (by omega) rfl, length_cons]
        congr 1
        omega

theorem scanLine_eq (hi : i ≤ buf.length) :
    scanLine buf i = .ok (i + (cutLine false .init (buf.drop i)).1.length, (cutLine false .init (buf.drop i)).1) := by
  have hloop := scanLineLoop_eq (i := i) (s := .init) rfl
    (show (buf.drop i).length < buf.length + 1 by rw [length_drop]; omega)
  rw [scanLine]
  show (scanLineLoop buf (buf.length + 1) i .init >>= _) = _
  rw [hloop, ok_bind, slice_drop (cutLine_append _ _ _).symm hi]
  rfl

/-! ### The lines of a text -/

/-- The lines of a text, by a bound on the length of the text. -/
def linesFrom : ℕ → Bytes → List Bytes
  | 0, _ => []
  | _ + 1, [] => []
  | n + 1, c :: l => (cutLine false .init (c :: l)).1 :: linesFrom n ((cutLine false .init (c :: l)).2.drop 1)

/-- A line without its newline and the whitespace in front, if it may hold points. -/
def strip (block : Bytes) : Option Bytes :=
  match block.dropWhile isWhitespace with
  | [] => none
  | c :: l =>
    if c = hash then none
    else if (c :: l).getLast? = some newline then some (c :: l).dropLast
    else some (c :: l)

/-- The lines of a text that may hold points. -/
def lineTexts (buf : Bytes) : List Bytes := (linesFrom buf.length buf).filterMap strip

theorem stripLine_eq (block : Bytes) : PointsParser.stripLine block = .ok (strip block) := by
  have hdrop : block.drop (0 + (block.takeWhile isWhitespace).length) = block.dropWhile isWhitespace :=
    drop_add (by rw [drop_zero, takeWhile_append_dropWhile])
  rw [PointsParser.stripLine, skipWhitespace_eq, drop_zero, ok_bind, strip]
  generalize 0 + (block.takeWhile isWhitespace).length = start at hdrop
  cases hrest : block.dropWhile isWhitespace with
  | nil =>
    rw [hrest, drop_eq_nil_iff] at hdrop
    split_ifs <;> rfl
  | cons c l =>
    rw [hrest] at hdrop
    have hlt := lt_length_of_drop hdrop
    have hlen := length_of_drop hdrop (le_of_lt hlt)
    rw [length_cons] at hlen
    obtain ⟨last, hlast, hlast'⟩ := get_eq (b := block) (i := block.length - 1) (by omega)
    have hgetLast : (c :: l).getLast? = some last := by
      rw [getLast?_eq_getElem?, ← hdrop, getElem?_drop, length_drop, ← hlast']
      congr 1
      omega
    rw [if_neg (by omega), if_neg (by omega), get_drop hdrop, ok_bind]
    simp only []
    by_cases hc : c = hash
    · rw [if_pos hc, if_pos hc]
      rfl
    rw [if_neg hc, if_neg hc, getBefore_eq (by omega), hlast, ok_bind, hgetLast]
    by_cases hnl : last = newline
    · have hslice : sliceBefore block 0 block.length 1 = .ok block.dropLast := by
        rw [sliceBefore_eq (by omega), slice_eq (by omega) (by omega), drop_zero, Nat.sub_zero, dropLast_eq_take]
      have hline : block.dropLast.drop start = (c :: l).dropLast := by
        rw [← hdrop, dropLast_eq_take, dropLast_eq_take, length_drop, drop_take]
        congr 1
        omega
      rw [if_pos hnl, if_pos (by rw [hnl]), hslice, ok_bind]
      show (sliceFrom block.dropLast start >>= _) = _
      rw [sliceFrom_eq (by rw [length_dropLast]; omega), hline]
      rfl
    · rw [if_neg hnl, if_neg (by simpa using hnl)]
      show (sliceFrom block start >>= _) = _
      rw [sliceFrom_eq (le_of_lt hlt), hdrop]
      rfl

end InfluxDB.Models
