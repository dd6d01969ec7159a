import InfluxDB.Lib.Escape
import Mathlib.Data.List.Infix

/-!
    The first occurrence of a text in another.
-/

namespace InfluxDB.Lib

open List Nat

variable {α : Type*} [DecidableEq α] {sep l : List α} {stop : α → Bool} {esc : α}

/-- The position of the first occurrence of a text. -/
def indexOf (sep : List α) : List α → Option ℕ
  | [] => if sep = [] then some 0 else none
  | a :: l => if sep.isPrefixOf (a :: l) then some 0 else (indexOf sep l).map (· + 1)

theorem indexOf_eq_none_iff : indexOf sep l = none ↔ ¬sep <:+: l := by
  induction l with
  | nil => simp [indexOf]
  | cons a l ih =>
    rw [indexOf, infix_cons_iff, not_or, ← ih]
    by_cases h : sep <+: a :: l
    · simp [h]
    · simp [h]

/-- An occurrence is first if none starts in front of it. -/
theorem indexOf_append (pre : List α) (h : ∀ i < pre.length, ¬sep <+: (pre ++ l).drop i) (hsep : sep <+: l) :
    indexOf sep (pre ++ l) = some pre.length := by
  induction pre with
  | nil =>
    cases l with
    | nil => simp [indexOf, prefix_nil.mp hsep]
    | cons a l => simp [indexOf, hsep]
  | cons a pre ih =>
    have hfirst : ¬sep <+: a :: (pre ++ l) := h 0 (succ_pos _)
    have hrest := ih fun i hi => h (i + 1) (succ_lt_succ hi)
    rw [cons_append, indexOf, if_neg (by simpa using hfirst), hrest]
    rfl

/-- The first occurrence is not behind another. -/
theorem indexOf_le {i : ℕ} (hi : i ≤ l.length) (h : sep <+: l.drop i) : ∃ j ≤ i, indexOf sep l = some j := by
  induction l generalizing i with
  | nil =>
    have hsep : sep = [] := by simpa using h
    exact ⟨0, zero_le _, by rw [indexOf, if_pos hsep]⟩
  | cons a l ih =>
    rw [indexOf]
    split_ifs with hpre
    · exact ⟨0, zero_le _, rfl⟩
    · cases i with
      | zero => exact absurd (List.isPrefixOf_iff_prefix.mpr h) hpre
      | succ i =>
        obtain ⟨j, hj, hidx⟩ := ih (le_of_succ_le_succ hi) h
        exact ⟨j + 1, succ_le_succ hj, by rw [hidx]; rfl⟩

omit [DecidableEq α] in
/-- A text without a symbol lies on one side of the symbol. -/
theorem infix_append_cons {a b : List α} {c : α} (hc : c ∉ sep) (h : sep <:+: a ++ c :: b) :
    sep <:+: a ∨ sep <:+: b := by
  obtain ⟨s, t, hst⟩ := h
  rw [append_assoc] at hst
  rcases append_eq_append_iff.mp hst with ⟨u, rfl, hu⟩ | ⟨u, rfl, hu⟩
  · -- The text starts in front of the symbol.
    rcases append_eq_append_iff.mp hu with ⟨v, rfl, -⟩ | ⟨v, rfl, hv⟩
    · exact .inl ⟨s, v, by rw [append_assoc]⟩
    · cases v with
      | nil => exact .inl ⟨s, [], by simp⟩
      | cons d v =>
        rw [cons_append] at hv
        obtain ⟨rfl, -⟩ := cons_eq_cons.mp hv
        exact absurd (mem_append_right u mem_cons_self) hc
  · cases u with
    | nil =>
      cases sep with
      | nil => exact .inl ⟨[], a, rfl⟩
      | cons d sep =>
        rw [nil_append, cons_append] at hu
        obtain ⟨rfl, -⟩ := cons_eq_cons.mp hu
        exact absurd mem_cons_self hc
    | cons d u =>
      rw [cons_append] at hu
      obtain ⟨-, rfl⟩ := cons_eq_cons.mp hu
      exact .inr ⟨u, t, by rw [append_assoc]⟩

omit [DecidableEq α] in
theorem prefix_of_prefix_escape (hesc : esc ∉ sep) (h : sep <+: escape esc stop l) : sep <+: l := by
  induction l generalizing sep with
  | nil => exact h
  | cons a l ih =>
    cases sep with
    | nil => exact nil_prefix
    | cons b sep =>
      obtain ⟨hb, hesc⟩ := not_or.mp (mem_cons.not.mp hesc)
      rw [escape_cons] at h
      by_cases ha : stop a = true
      · rw [if_pos ha, cons_append, cons_prefix_cons] at h
        exact absurd h.1.symm hb
      · rw [if_neg ha, cons_append, nil_append, cons_prefix_cons] at h
        exact cons_prefix_cons.mpr ⟨h.1, ih hesc h.2⟩

omit [DecidableEq α] in
theorem infix_of_infix_escape (hesc : esc ∉ sep) (h : sep <:+: escape esc stop l) : sep <:+: l := by
  induction l with
  | nil => exact h
  | cons a l ih =>
    have hpre : sep <+: escape esc stop (a :: l) → sep <:+: a :: l :=
      fun h => (prefix_of_prefix_escape hesc h).isInfix
    rw [escape_cons] at h hpre
    by_cases ha : stop a = true
    · rw [if_pos ha, cons_append, cons_append, nil_append] at h hpre
      rcases infix_cons_iff.mp h with h | h
      · exact hpre h
      · rcases infix_cons_iff.mp h with h | h
        · cases sep with
          | nil => exact nil_infix
          | cons b sep =>
            -- The stop is the first symbol of the text, so it stands here without the escape.
            obtain ⟨rfl, hrest⟩ := cons_prefix_cons.mp h
            have hrest := prefix_of_prefix_escape (fun hmem => hesc (mem_cons_of_mem _ hmem)) hrest
            exact (cons_prefix_cons.mpr ⟨rfl, hrest⟩).isInfix
        · exact infix_cons (ih h)
    · rw [if_neg ha, cons_append, nil_append] at h hpre
      rcases infix_cons_iff.mp h with h | h
      · exact hpre h
      · exact infix_cons (ih h)

end InfluxDB.Lib
