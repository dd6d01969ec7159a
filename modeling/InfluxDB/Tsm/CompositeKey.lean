import InfluxDB.Lib.Infix
import InfluxDB.Models.Key

/-!
    Composite keys: a series key and a field, joined by a separator.  A composite key is split at the
    first place where the separator occurs.
-/

namespace InfluxDB.Tsm

open Lib Models List

/-- `keyFieldSeparator`: `#!~#`. -/
def keyFieldSeparator : Bytes := [35, 33, 126, 35]

def seriesFieldKeyBytes (seriesKey field : Bytes) : Bytes := seriesKey ++ keyFieldSeparator ++ field

/-- `SeriesAndFieldFromCompositeKey`; no field is nil. -/
def seriesAndFieldFromCompositeKey (key : Bytes) : Bytes × Option Bytes :=
  match indexOf keyFieldSeparator key with
  | none => (key, none)
  | some sep => (key.take sep, some (key.drop (sep + keyFieldSeparator.length)))

/-- The separator does not occur in the key of a series if it does not occur in the name and in the tags. -/
theorem not_infix_series {name : Bytes} {tags : Tags} (hname : ¬keyFieldSeparator <:+: name)
    (htags : ∀ t ∈ tags, ¬keyFieldSeparator <:+: t.key ∧ ¬keyFieldSeparator <:+: t.value) :
    ¬keyFieldSeparator <:+: name ++ tags.flatMap Tag.text := by
  have htag : ∀ b, ¬keyFieldSeparator <:+: b → ¬keyFieldSeparator <:+: escapeTag b := by
    intro b hb h
    rw [escapeTag_eq] at h
    exact hb (infix_of_infix_escape (by decide) h)
  induction tags generalizing name with
  | nil => simpa using hname
  | cons t tags ih =>
    obtain ⟨⟨hkey, hvalue⟩, htags⟩ := forall_mem_cons.mp htags
    rw [flatMap_cons, Tag.text, cons_append]
    intro h
    rcases infix_append_cons (by decide) h with h | h
    · exact hname h
    · rw [append_assoc, cons_append] at h
      rcases infix_append_cons (by decide) h with h | h
      · exact htag _ hkey h
      · exact ih (htag _ hvalue) htags h

variable {key : Bytes} {field : Bytes}

theorem seriesAndField_of_not_infix (h : ¬keyFieldSeparator <:+: key) :
    seriesAndFieldFromCompositeKey key = (key, none) := by
  rw [seriesAndFieldFromCompositeKey, indexOf_eq_none_iff.mpr h]

/-- A series key that the separator behind it ends: the separator neither lies in it nor starts in it. -/
def Splits (key : Bytes) : Prop := ¬keyFieldSeparator <:+: key ∧ ¬[35, 33, 126] <:+ key

instance decidableSplits (key : Bytes) : Decidable (Splits key) := inferInstanceAs (Decidable (_ ∧ _))

/-- Where the separator starts in front of itself. -/
theorem not_splits_iff :
    ¬Splits key ↔ ∃ i < key.length, keyFieldSeparator <+: (key ++ (keyFieldSeparator ++ field)).drop i := by
  rw [Splits, not_and_or, not_not, not_not]
  constructor
  · rintro (⟨s, t, rfl⟩ | ⟨s, rfl⟩)
    · refine ⟨s.length, by simp [keyFieldSeparator], ?_⟩
      rw [append_assoc, append_assoc, drop_left]
      exact prefix_append _ _
    · refine ⟨s.length, by simp, ?_⟩
      rw [append_assoc, drop_left]
      exact prefix_append [35, 33, 126, 35] _
  · rintro ⟨i, hi, h⟩
    have hkey := take_append_drop i key
    rw [drop_append_of_le_length (le_of_lt hi)] at h
    have hne : key.drop i ≠ [] := by simpa using hi
    -- The part of the separator that lies in the key has one, two, three or all four bytes.
    rcases hd : key.drop i with _ | ⟨a, _ | ⟨b, _ | ⟨c, _ | ⟨d, l⟩⟩⟩⟩
    · exact absurd hd hne
    · rw [hd] at h
      simp [keyFieldSeparator] at h
    · rw [hd] at h
      simp [keyFieldSeparator] at h
    · rw [hd] at h
      have habc : [a, b, c] = [35, 33, 126] := by simpa [keyFieldSeparator, eq_comm] using h
      exact .inr ⟨key.take i, by rw [← habc, ← hd, hkey]⟩
    · rw [hd] at h
      have habcd : [a, b, c, d] = keyFieldSeparator := by simpa [keyFieldSeparator, eq_comm] using h
      refine .inl ⟨key.take i, l, ?_⟩
      rw [← habcd, append_assoc]
      simpa [hd] using hkey

theorem seriesAndField_of_splits (h : Splits key) :
    seriesAndFieldFromCompositeKey (seriesFieldKeyBytes key field) = (key, some field) := by
  have hfirst : ∀ i < key.length, ¬keyFieldSeparator <+: (key ++ (keyFieldSeparator ++ field)).drop i :=
    fun i hi hpre =>
    not_splits_iff.mpr ⟨i, hi, hpre⟩ h
  rw [seriesAndFieldFromCompositeKey, seriesFieldKeyBytes, append_assoc, indexOf_append key hfirst (prefix_append _ _)]
  dsimp only
  rw [take_left, drop_length_add_append, drop_left]

/-- A series key that is not split off as it was is cut short. -/
theorem length_series_lt (h : ¬Splits key) :
    (seriesAndFieldFromCompositeKey (seriesFieldKeyBytes key field)).1.length < key.length := by
  obtain ⟨i, hi, hpre⟩ := not_splits_iff.mp h
  obtain ⟨j, hj, hidx⟩ := indexOf_le (by rw [length_append]; omega) hpre
  rw [seriesAndFieldFromCompositeKey, seriesFieldKeyBytes, append_assoc, hidx]
  rw [length_take, length_append]
  omega

end InfluxDB.Tsm
