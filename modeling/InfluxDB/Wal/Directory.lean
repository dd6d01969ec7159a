import InfluxDB.Wal.Log

/-!
    The directory of the segment files.  As long as the ids have at most five digits, the names list the
    files by their ids, so that a new segment is listed last.
-/

namespace InfluxDB.Wal

open Lib List Nat

/-! ### Names -/

theorem length_decimal (w n : ℕ) : (decimal w n).length = w := by
  induction w with
  | zero => rfl
  | succ w ih => rw [decimal, length_cons, ih]

/-- The last digits of two numbers compare as the digits do. -/
theorem decimal_lt_decimal_iff (w n m : ℕ) : decimal w n < decimal w m ↔ n % 10 ^ w < m % 10 ^ w := by
  induction w with
  | zero => simp [decimal, mod_one]
  | succ w ih =>
    have hdigit : ∀ x : ℕ, (Fin.ofNat 256 (48 + x % 10) : Byte).val = 48 + x % 10 := by
      intro x
      rw [Fin.val_ofNat, mod_eq_of_lt (by omega)]
    rw [decimal, decimal, cons_lt_cons_iff, ih, Fin.lt_def, Fin.ext_iff, hdigit, hdigit, pow_succ, mod_mul, mod_mul]
    generalize n / 10 ^ w % 10 = a
    generalize m / 10 ^ w % 10 = b
    rcases lt_trichotomy a b with hab | rfl | hab
    · have : 10 ^ w * (a + 1) ≤ 10 ^ w * b := mul_le_mul_left _ hab
      rw [mul_add] at this
      omega
    · omega
    · have : 10 ^ w * (b + 1) ≤ 10 ^ w * a := mul_le_mul_left _ hab
      rw [mul_add] at this
      omega

theorem append_lt_append_iff {a b : Bytes} (h : a.length = b.length) (s : Bytes) : a ++ s < b ++ s ↔ a < b := by
  induction a generalizing b with
  | nil =>
    obtain rfl : b = [] := eq_nil_of_length_eq_zero h.symm
    simp
  | cons x a ih =>
    cases b with
    | nil => cases h
    | cons y b =>
      rw [cons_append, cons_append, cons_lt_cons_iff, cons_lt_cons_iff, ih (by simpa using h)]

/-- Names with ids of at most five digits are ordered by the ids. -/
theorem fileName_le_fileName_iff {a b : ℕ} (ha : a < 100000) (hb : b < 100000) :
    fileName a ≤ fileName b ↔ a ≤ b := by
  rw [← not_lt, ← not_lt, fileName, fileName, if_pos ha, if_pos hb, cons_lt_cons_iff,
    append_lt_append_iff (by rw [length_decimal, length_decimal]), decimal_lt_decimal_iff, mod_eq_of_lt (by omega),
    mod_eq_of_lt (by omega)]
  simp

/-! ### Listing -/

variable {disk : Disk} {id : ℕ}

/-- The ids of the files in ascending order. -/
def ids (disk : Disk) : List ℕ := disk.keys.insertionSort (· ≤ ·)

theorem mem_ids : id ∈ ids disk ↔ id ∈ disk := mem_insertionSort _

theorem pairwise_ids : (ids disk).Pairwise (· < ·) := by
  have hle : (ids disk).Pairwise (· ≤ ·) := pairwise_insertionSort _ _
  have hnodup : (ids disk).Nodup := (perm_insertionSort _ _).nodup_iff.mpr disk.nodupKeys
  exact (hle.and hnodup).imp fun h => lt_of_le_of_ne h.1 h.2

/-- The ids are the sorted list of what is on disk. -/
theorem ids_eq {l : List ℕ} (hl : l.Pairwise (· < ·)) (hmem : ∀ id, id ∈ l ↔ id ∈ disk) : ids disk = l := by
  refine pairwise_ids.eq_of_mem_iff hl fun id => ?_
  rw [mem_ids, hmem]

theorem segmentFileNames_eq (h : ∀ id ∈ disk, id < 100000) : segmentFileNames disk = ids disk := by
  have hmem : ∀ id, id ∈ segmentFileNames disk ↔ id ∈ disk := fun id => mem_insertionSort _
  have hnodup : (segmentFileNames disk).Nodup := (perm_insertionSort _ _).nodup_iff.mpr disk.nodupKeys
  have hle : (segmentFileNames disk).Pairwise fun a b => fileName a ≤ fileName b := pairwise_insertionSort _ _
  refine (ids_eq ?_ hmem).symm
  refine (hle.and hnodup).imp_of_mem fun {a b} ha hb hab => ?_
  exact lt_of_le_of_ne ((fileName_le_fileName_iff (h a ((hmem a).mp ha)) (h b ((hmem b).mp hb))).mp hab.1) hab.2

/-- A file that is written is listed where it was. -/
theorem ids_insert_of_mem (h : id ∈ disk) (c : Bytes) : ids (disk.insert id c) = ids disk := by
  refine ids_eq pairwise_ids fun x => ?_
  rw [mem_ids, AList.mem_insert]
  constructor
  · exact .inr
  · rintro (rfl | hx)
    · exact h
    · exact hx

/-- A file with a new largest id is listed last. -/
theorem ids_insert_of_lt (h : ∀ x ∈ disk, x < id) (c : Bytes) : ids (disk.insert id c) = ids disk ++ [id] := by
  refine ids_eq ?_ fun x => ?_
  · refine pairwise_append.mpr ⟨pairwise_ids, pairwise_singleton _ _, fun x hx y hy => ?_⟩
    obtain rfl := mem_singleton.mp hy
    exact h x (mem_ids.mp hx)
  · rw [mem_append, mem_singleton, mem_ids, AList.mem_insert, or_comm]

theorem ids_of_mem_iff {disk' : Disk} {p : ℕ → Bool} (h : ∀ id, id ∈ disk' ↔ id ∈ disk ∧ p id = true) :
    ids disk' = (ids disk).filter p := by
  refine ids_eq (pairwise_ids.filter p) fun id => ?_
  rw [mem_filter, mem_ids, h]

/-- The last file is the one with the largest id. -/
theorem le_of_getLast?_ids (h : (ids disk).getLast? = some id) : id ∈ disk ∧ ∀ x ∈ disk, x ≤ id := by
  obtain ⟨l, hl⟩ := getLast?_eq_some_iff.mp h
  refine ⟨mem_ids.mp (hl ▸ mem_append_right _ mem_cons_self), fun x hx => ?_⟩
  have hsorted : (l ++ [id]).Pairwise (· < ·) := hl ▸ pairwise_ids
  rcases mem_append.mp (hl ▸ mem_ids.mpr hx) with hx | hx
  · exact (pairwise_append.mp hsorted).2.2 x hx id mem_cons_self |>.le
  · exact (mem_singleton.mp hx).le

end InfluxDB.Wal
