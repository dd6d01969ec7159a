import InfluxDB.Models.Parser
import InfluxDB.Models.ScanText

/-!
    The fields of a line, and the points that are made of them.  `walkFields` cuts off the key of a field at the
    first equals sign that is not escaped, and its value at the first comma outside of quotes.
-/

namespace InfluxDB.Models

open Lib Buffer List

/-! ### Field values -/

/-- The value of a field, and the text behind it; the flags say whether the first byte is escaped, and whether
it stands within quotes.  A backslash escapes a quote or a backslash. -/
def cutValue : Bool → Bool → Bytes → Bytes × Bytes
  | _, _, [] => ([], [])
  | true, quoted, c :: l => (c :: (cutValue false quoted l).1, (cutValue false quoted l).2)
  | false, quoted, c :: l =>
    if c = backslash ∧ l.head?.any (among [quote, backslash]) then
      (c :: (cutValue true quoted l).1, (cutValue true quoted l).2)
    else if c = quote then (c :: (cutValue false (!quoted) l).1, (cutValue false (!quoted) l).2)
    else if c = comma ∧ quoted = false then ([], c :: l)
    else (c :: (cutValue false quoted l).1, (cutValue false quoted l).2)

theorem cutValue_append (e quoted : Bool) (l : Bytes) : (cutValue e quoted l).1 ++ (cutValue e quoted l).2 = l := by
  induction l generalizing e quoted with
  | nil => cases e <;> rfl
  | cons c l ih =>
    cases e with
    | true => rw [cutValue, cons_append, ih]
    | false =>
      rw [cutValue]
      split_ifs
      · rw [cons_append, ih]
      · rw [cons_append, ih]
      · rfl
      · rw [cons_append, ih]

variable {buf : Bytes} {i : ℕ}

theorem scanFieldValueLoop_eq {fuel : ℕ} {quoted : Bool} {rest : Bytes} (h : buf.drop i = rest)
    (hfuel : rest.length < fuel) :
    scanFieldValueLoop buf fuel i quoted = .ok (i + (cutValue false quoted rest).1.length) := by
  induction hn : rest.length using Nat.strong_induction_on generalizing i fuel quoted rest with
  | _ n ih =>
    obtain ⟨fuel, rfl⟩ : ∃ n, fuel = n + 1 := ⟨fuel - 1, by omega⟩
    cases rest with
    | nil =>
      rw [drop_eq_nil_iff] at h
      rw [scanFieldValueLoop, if_neg (by omega)]
      rfl
    | cons c l =>
      rw [length_cons] at hn hfuel
      have hlt := lt_length_of_drop h
      have hnext : ∀ quoted', scanFieldValueLoop buf fuel (i + 1) quoted' =
          .ok (i + (c :: (cutValue false quoted' l).1).length) := by
        intro quoted'
        rw [ih l.length (by omega) (drop_succ h) (by omega) rfl, length_cons]
        congr 1
        omega
      have hother : ¬ (c = backslash ∧ l.head?.any (among [quote, backslash]) = true) →
          (if c = quote then scanFieldValueLoop buf fuel (i + 1) !quoted
            else if c = comma ∧ quoted = false then pure i
            else scanFieldValueLoop buf fuel (i + 1) quoted) = .ok (i + (cutValue false quoted (c :: l)).1.length) := by
        intro hesc
        rw [cutValue, if_neg hesc]
        split_ifs
        · exact hnext _
        · rfl
        · exact hnext _
      rw [scanFieldValueLoop, if_pos hlt, get_drop h, ok_bind]
      by_cases hback : c = backslash ∧ i + 1 < buf.length
      · obtain ⟨d, l, rfl⟩ : ∃ d l', l = d :: l' := by
          cases l with
          | nil => exact absurd (length_of_drop h (le_of_lt hlt)) (by simp; omega)
          | cons d l => exact ⟨d, l, rfl⟩
        rw [if_pos hback, get_drop (drop_succ h), ok_bind]
        by_cases hd : d = quote ∨ d = backslash
        · rw [length_cons] at hn hfuel
          rw [if_pos hd, ih l.length (by omega) (drop_succ (drop_succ h)) (by omega) rfl, cutValue,
            if_pos ⟨hback.1, by simpa using hd⟩, cutValue, length_cons, length_cons]
          congr 1
          omega
        · have hquote : c ≠ quote := by rw [hback.1]; decide
          have hcomma : c ≠ comma := by rw [hback.1]; decide
          have := hother (fun h => hd (by simpa using h.2))
          rw [if_neg hquote, if_neg fun h => hcomma h.1] at this
          rw [if_neg hd, this]
      · rw [if_neg hback]
        refine hother fun h' => hback ⟨h'.1, ?_⟩
        cases l with
        | nil => exact absurd h'.2 (by simp)
        | cons d l => exact lt_length_of_drop (drop_succ h)

theorem scanFieldValue_eq (hi : i ≤ buf.length) :
    scanFieldValue buf i = .ok (i + (cutValue false false (buf.drop i)).1.length,
      (cutValue false false (buf.drop i)).1) := by
  rw [scanFieldValue, scanFieldValueLoop_eq rfl (by rw [length_drop]; omega), ok_bind,
    slice_drop (cutValue_append _ _ _).symm hi]
  rfl

/-! ### Series keys -/

/-- The key of a point: the bucket, the measurement and the tags of the line, and the field. -/
def v2Key (mm key field : Bytes) : Bytes :=
  mm ++ comma :: measurementTagKey :: equals :: (key ++ comma :: fieldKeyTagKey :: equals :: field)

theorem length_v2Key (mm key field : Bytes) :
    (v2Key mm key field).length = mm.length + 1 + 1 + 1 + key.length + 1 + 1 + 1 + field.length := by
  simp only [v2Key, length_append, length_cons]
  omega

namespace PointsParser

theorem replicate_succ_three (n : ℕ) : replicate (1 + 1 + 1 + n) (0 : Byte) = 0 :: 0 :: 0 :: replicate n 0 := by
  rw [show 1 + 1 + 1 + n = n + 1 + 1 + 1 by omega, replicate_succ, replicate_succ, replicate_succ]

theorem buildV2Key_eq (mm key field : Bytes) : buildV2Key mm key field = .ok (v2Key mm key field) := by
  have hzeros : replicate (mm.length + 1 + 1 + 1 + key.length + 1 + 1 + 1 + field.length) (0 : Byte) =
      replicate mm.length 0 ++ 0 :: 0 :: 0 :: (replicate key.length 0 ++
        0 :: 0 :: 0 :: (replicate field.length 0 ++ [])) := by
    rw [append_nil, ← replicate_succ_three, ← replicate_add, ← replicate_succ_three, ← replicate_add]
    congr 1
    omega
  rw [buildV2Key]
  dsimp only
  rw [hzeros, copy_zero (by simp), ok_bind, put_filled rfl, ok_bind, put_filled (by simp),
    ok_bind, put_filled (by simp), ok_bind, copy_filled (by simp) (by simp), ok_bind]
  rw [put_filled (by simp; omega), ok_bind, put_filled (by simp; omega), ok_bind, put_filled (by simp; omega), ok_bind,
    copy_filled (by simp; omega) (by simp), ok_bind]
  simp [v2Key]
  rfl

/-- What `addField` does: it checks the size of the key, and appends a point. -/
theorem addField_eq (pp : PointsParser) (time : ℤ) (key field fieldBuf : Bytes) :
    pp.addField time key field fieldBuf = .ok (
      if seriesKeySizeV2 key pp.orgBucket field > maxKeyLength then
        (some (.invalid (.maxKeyLengthExceeded (seriesKeySizeV2 key pp.orgBucket field))), pp)
      else
        match pp.checkAlloc 1 (v2Key pp.orgBucket key field).length with
        | (false, pp) => (some .limit, pp)
        | (true, pp') => pp'.append { time, key := v2Key pp.orgBucket key field, fields := fieldBuf }) := by
  rw [addField, newV2Key]
  dsimp only
  by_cases hsize : seriesKeySizeV2 key pp.orgBucket field > maxKeyLength
  · rw [if_pos hsize, if_pos hsize]
    rfl
  · rw [if_neg hsize, if_neg hsize, length_v2Key]
    cases pp.checkAlloc 1 (pp.orgBucket.length + 1 + 1 + 1 + key.length + 1 + 1 + 1 + field.length) with
    | mk fits pp' =>
      cases fits with
      | false => rfl
      | true =>
        simp only []
        rw [buildV2Key_eq]
        rfl

/-! ### Walking the fields -/

/-- The fields of a text as `walkFields` finds them, and the key at the end that has no value, if there is one. -/
def splitFields : ℕ → Bytes → List (Bytes × Bytes) × Option Bytes
  | 0, _ => ([], none)
  | n + 1, text =>
    if text = [] then ([], none)
    else
      let (k, r) := cutAt [equals] false text
      if r.length < 2 then ([], some k)
      else
        let (v, r) := cutValue false false (r.drop 1)
        (((k, v) :: (splitFields n (r.drop 1)).1), (splitFields n (r.drop 1)).2)

/-- Add points for fields up to the first that fails. -/
def addFields (time : ℤ) (key : Bytes) :
    List (Bytes × Bytes) → PointsParser → Checked (Option LineError × PointsParser)
  | [], pp => return (none, pp)
  | (k, v) :: rest, pp => do
    match ← pp.addField time key k (k ++ equals :: v) with
    | (some err, pp) => return (some err, pp)
    | (none, pp) => addFields time key rest pp

theorem walkFields_eq {time : ℤ} {key : Bytes} {fuel : ℕ} {pp : PointsParser} (hfuel : buf.length < fuel) :
    walkFields time key fuel buf pp = do
      match ← addFields time key (splitFields fuel buf).1 pp with
      | (some err, pp) => return (some err, pp)
      | (none, pp) => return ((splitFields fuel buf).2.map fun k => .invalid (.invalidValue k), pp) := by
  induction fuel generalizing buf pp with
  | zero => omega
  | succ fuel ih =>
    rw [walkFields, splitFields]
    by_cases hnil : buf = []
    · subst hnil
      rfl
    have hpos := length_pos_of_ne_nil hnil
    have happ : (cutAt [equals] false buf).1 ++ (cutAt [equals] false buf).2 = buf := upTo_append _ _
    have hbehind : (cutAt [equals] false buf).2 = [] ∨ ∃ r, (cutAt [equals] false buf).2 = equals :: r := by
      rcases @upTo_behind _ _ backslash (among [equals]) false buf with h | ⟨c, r, h, hc, -⟩
      · exact .inl h
      · exact .inr ⟨r, by rw [cutAt, h, mem_singleton.mp (among_iff.mp hc)]⟩
    rw [if_pos hpos, if_neg hnil, scanTo_eq (Nat.zero_le _), ok_bind, drop_zero, isEscaped, escapedAt_zero]
    generalize cutAt [equals] false buf = c at happ hbehind ⊢
    obtain ⟨k, r⟩ := c
    simp only [Nat.zero_add] at happ hbehind ⊢
    have hlen := congrArg length happ
    rw [length_append] at hlen
    by_cases hshort : r.length < 2
    · rw [if_pos (show k.length + 2 > buf.length by omega), if_pos hshort]
      rfl
    rw [if_neg (show ¬ k.length + 2 > buf.length by omega), if_neg hshort]
    obtain ⟨r, rfl⟩ : ∃ r', r = equals :: r' := by
      rcases hbehind with rfl | hr
      · exact absurd (Nat.zero_lt_succ 1) hshort
      · exact hr
    have happ' := cutValue_append false false r
    rw [sliceFrom_eq (by omega), ok_bind, ← happ, drop_append,
      drop_of_length_le (show k.length ≤ k.length + 1 by omega),
      nil_append, Nat.add_sub_cancel_left, drop_one, tail_cons, scanFieldValue_eq (Nat.zero_le _), ok_bind,
      drop_zero]
    generalize cutValue false false r = c at happ' ⊢
    obtain ⟨v, r₂⟩ := c
    simp only [Nat.zero_add] at happ' ⊢
    subst happ'
    have hslice : sliceBefore (k ++ equals :: (v ++ r₂)) 0
        (k ++ equals :: (v ++ r₂)).length r₂.length = .ok (k ++ equals :: v) := by
      have hdrop : (k ++ equals :: (v ++ r₂)).drop 0 = (k ++ equals :: v) ++ r₂ := by simp
      have hend : (k ++ equals :: (v ++ r₂)).length - r₂.length = 0 + (k ++ equals :: v).length := by
        simp only [length_append, length_cons]
        omega
      rw [sliceBefore_eq (by simp only [length_append, length_cons]; omega), hend, slice_drop hdrop (Nat.zero_le _)]
    obtain ⟨⟨err, pp'⟩, hadd⟩ : ∃ res, pp.addField time key k (k ++ equals :: v) = .ok res :=
      ⟨_, addField_eq _ _ _ _ _⟩
    rw [sliceFrom_eq (by rw [length_append]; omega), ok_bind, drop_left, hslice, ok_bind, addFields, hadd,
      ok_bind, ok_bind]
    cases err with
    | some err => rfl
    | none =>
      refine ih ?_
      rw [length_drop]
      rw [length_cons, length_append] at hlen
      omega

end PointsParser

end InfluxDB.Models
