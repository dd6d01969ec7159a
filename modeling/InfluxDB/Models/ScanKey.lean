import InfluxDB.Models.ScanText

/-!
    The key of a line: the measurement and the tags, up to the space in front of the fields.  The text of a
    line either starts with a key, or the scan of it ends in an error.  The starts of the tags are kept in an
    array with room for a hundred of them, which is doubled when a tag starts and it is full.  The end of the
    last tag is kept behind them, and there is no room for it when the number of tags fills the array.
-/

namespace InfluxDB.Models

open Lib Buffer
open List hiding insertionSort

/-! ### The array of tag starts -/

/-- The sizes of the array. -/
def IsCapacity (n : ℕ) : Prop := ∃ k, n = 100 * 2 ^ k

/-- An array that was doubled only when it was full: the length of it, and how much is used. -/
def Room (length used : ℕ) : Prop :=
  ∃ k, length = 100 * 2 ^ k ∧ used ≤ length ∧ (k = 0 ∨ 100 * 2 ^ (k - 1) < used)

theorem Room.indices : Room ([] ++ replicate 100 0 : List ℕ).length ([] : List ℕ).length :=
  ⟨0, rfl, Nat.zero_le _, .inl rfl⟩

variable {length used : ℕ}

theorem Room.full_iff (h : Room length used) : used = length ↔ IsCapacity used := by
  obtain ⟨k, rfl, hle, hk⟩ := h
  refine ⟨fun h => ⟨k, h⟩, ?_⟩
  rintro ⟨m, rfl⟩
  have hmk : m ≤ k := by
    have : 2 ^ m ≤ 2 ^ k := by omega
    exact (Nat.pow_le_pow_iff_right (by norm_num)).mp this
  rcases hk with rfl | hk
  · rw [Nat.le_zero.mp hmk]
  · have : 2 ^ (k - 1) < 2 ^ m := by omega
    have hlt := (Nat.pow_lt_pow_iff_right (by norm_num)).mp this
    rw [show m = k by omega]

theorem Room.step (h : Room length used) : Room (if used = length then length + length else length) (used + 1) := by
  obtain ⟨k, rfl, hle, hk⟩ := h
  split_ifs with heq
  · refine ⟨k + 1, by rw [pow_succ]; omega, ?_, .inr ?_⟩
    · have : 0 < 2 ^ k := by positivity
      omega
    · rw [Nat.add_sub_cancel]
      omega
  · exact ⟨k, rfl, by omega, hk.imp id fun h => by omega⟩

theorem growIndices_eq (indices : List ℕ) (n : ℕ) (h : n ≤ indices.length) :
    (growIndices indices n).length = if n = indices.length then indices.length + indices.length
      else indices.length := by
  rw [growIndices]
  split_ifs <;> simp <;> omega

/-- Recording a start: the starts so far stay, and there is room. -/
theorem put_growIndices {starts pad : List ℕ} (i : ℕ) (h : Room (starts ++ pad).length starts.length) :
    ∃ pad', put (growIndices (starts ++ pad) starts.length) starts.length i = .ok ((starts ++ [i]) ++ pad') ∧
      Room ((starts ++ [i]) ++ pad').length (starts ++ [i]).length := by
  have hroom := h.step
  obtain ⟨k, hlen, hle, -⟩ := h
  have hpos : 0 < 2 ^ k := by positivity
  have hlength := growIndices_eq (starts ++ pad) starts.length (by omega)
  obtain ⟨a, pad', hgrow⟩ : ∃ a pad', growIndices (starts ++ pad) starts.length = starts ++ a :: pad' := by
    have hpre : starts <+: growIndices (starts ++ pad) starts.length := by
      rw [growIndices]
      split_ifs
      · exact (prefix_append _ _).trans (prefix_append _ _)
      · exact prefix_append _ _
    obtain ⟨tail, htail⟩ := hpre
    cases tail with
    | nil =>
      rw [append_nil] at htail
      rw [← htail] at hlength
      split_ifs at hlength with heq <;> omega
    | cons a tail => exact ⟨a, tail, htail.symm⟩
  refine ⟨pad', by rw [hgrow, put_filled rfl], ?_⟩
  have hlen' : ((starts ++ [i]) ++ pad').length = (growIndices (starts ++ pad) starts.length).length := by
    rw [hgrow]
    simp
  have hused : (starts ++ [i]).length = starts.length + 1 := length_append
  rw [hlen', hlength, hused]
  exact hroom

/-! ### Scanning the tags -/

variable {buf r : Bytes} {i : ℕ} {d : Byte} {t : Bytes × Bytes} {tags ts : List (Bytes × Bytes)}
  {starts pad : List ℕ} {fuel : ℕ}

/-- Where tags start that stand from a position on. -/
def tagStarts : ℕ → List (Bytes × Bytes) → List ℕ
  | _, [] => []
  | i, t :: ts => i :: tagStarts (i + (tagText t).length + 1) ts

@[simp] theorem length_tagStarts (i : ℕ) (tags : List (Bytes × Bytes)) :
    (tagStarts i tags).length = tags.length := by
  induction tags generalizing i with
  | nil => rfl
  | cons t ts ih => rw [tagStarts, length_cons, ih, length_cons]

theorem length_tagsText_cons (t : Bytes × Bytes) (ts : List (Bytes × Bytes)) :
    (tagsText (t :: ts)).length = (tagText t).length + 1 + (tagsText ts).length := by
  rw [tagsText_cons, length_cons, length_append]
  omega

/-- One tag is scanned in two passes. -/
theorem scanTagsLoop_tag (fuel : ℕ) (h : buf.drop i = tagText t ++ d :: r) (ht : isTag t = true)
    (hd : d ∈ [comma, space]) (hroom : Room (starts ++ pad).length starts.length) :
    ∃ pad', Room ((starts ++ [i]) ++ pad').length (starts ++ [i]).length ∧
      scanTagsLoop buf (fuel + 2) .tagKey i starts.length (starts ++ pad) =
        scanTagsLoop buf fuel (if d = comma then .tagKey else .fields)
          (if d = comma then i + (tagText t).length + 1 else i + (tagText t).length) (starts ++ [i]).length
          ((starts ++ [i]) ++ pad') := by
  obtain ⟨hk, hv⟩ := isTag_iff.mp ht
  obtain ⟨pad', hput, hroom'⟩ := put_growIndices i hroom
  refine ⟨pad', hroom', ?_⟩
  have hkey : buf.drop i = t.1 ++ equals :: (t.2 ++ d :: r) := by rw [h, tagText, append_assoc, cons_append]
  have hvalue : buf.drop (i + t.1.length + 1) = t.2 ++ d :: r := by rw [← drop_succ (drop_add hkey)]
  have hpos : i + t.1.length + 1 + t.2.length = i + (tagText t).length := by
    rw [tagText, length_append, length_cons]
    omega
  have hused : (starts ++ [i]).length = starts.length + 1 := length_append
  rw [scanTagsLoop, hput, ok_bind, scanTagsKey_eq hkey hk, ok_bind]
  simp only []
  rw [scanTagsLoop, scanTagsValue_eq hvalue hv hd, ok_bind, hpos, hused]
  split_ifs <;> rfl

theorem scanTagsLoop_eq (h : buf.drop i = tagText t ++ (tagsText ts ++ space :: r))
    (ht : ∀ x ∈ t :: ts, isTag x = true) (hroom : Room (starts ++ pad).length starts.length)
    (hfuel : 2 * (ts.length + 1) < fuel) :
    ∃ pad', Room ((starts ++ tagStarts i (t :: ts)) ++ pad').length (starts ++ tagStarts i (t :: ts)).length ∧
      scanTagsLoop buf fuel .tagKey i starts.length (starts ++ pad) = do
        let indices ← put ((starts ++ tagStarts i (t :: ts)) ++ pad') (starts ++ tagStarts i (t :: ts)).length
          (i + (tagsText (t :: ts)).length)
        return .ok (i + (tagText t).length + (tagsText ts).length,
          (starts ++ tagStarts i (t :: ts)).length, indices) := by
  induction ts generalizing i t starts pad fuel with
  | nil =>
    obtain ⟨fuel, rfl⟩ : ∃ n, fuel = n + 3 := ⟨fuel - 3, by simp at hfuel; omega⟩
    obtain ⟨pad', hroom', hstep⟩ := scanTagsLoop_tag (fuel + 1) h (ht t mem_cons_self) (by simp) hroom
    refine ⟨pad', hroom', ?_⟩
    rw [hstep, if_neg (by decide), if_neg (by decide), scanTagsLoop, length_tagsText_cons]
    rfl
  | cons t' ts ih =>
    obtain ⟨fuel, rfl⟩ : ∃ n, fuel = n + 2 := ⟨fuel - 2, by omega⟩
    rw [tagsText_cons, cons_append, append_assoc] at h
    obtain ⟨pad₁, hroom₁, hstep⟩ := scanTagsLoop_tag fuel h (ht t mem_cons_self) (by simp) hroom
    obtain ⟨pad', hroom', hrest⟩ := ih (drop_succ (drop_add h)) (forall_mem_cons.mp ht).2 hroom₁
      (show 2 * (ts.length + 1) < fuel by rw [length_cons] at hfuel; omega)
    have hstarts : (starts ++ [i]) ++ tagStarts (i + (tagText t).length + 1) (t' :: ts) =
        starts ++ tagStarts i (t :: t' :: ts) :=
      append_assoc _ _ _
    rw [hstarts] at hroom' hrest
    have hend : i + (tagText t).length + 1 + (tagsText (t' :: ts)).length = i + (tagsText (t :: t' :: ts)).length := by
      rw [length_tagsText_cons t]
      omega
    have hpos : i + (tagText t).length + 1 + (tagText t').length + (tagsText ts).length =
        i + (tagText t).length + (tagsText (t' :: ts)).length := by
      rw [length_tagsText_cons]
      omega
    refine ⟨pad', hroom', ?_⟩
    rw [hstep, if_pos rfl, if_pos rfl, hrest, hend, hpos]

theorem length_le_tagsText (ht : ∀ x ∈ tags, isTag x = true) : 4 * tags.length ≤ (tagsText tags).length := by
  induction tags with
  | nil => rfl
  | cons t ts ih =>
    obtain ⟨hk, hv⟩ := isTag_iff.mp (ht t mem_cons_self)
    have hk := length_pos_of_ne_nil (ne_nil_of_isBlock (isTagKey_iff.mp hk).1)
    have hv := length_pos_of_ne_nil (ne_nil_of_isBlock (isTagValue_iff.mp hv).1)
    have ih := ih (forall_mem_cons.mp ht).2
    rw [length_tagsText_cons, tagText, length_append, length_cons, length_cons]
    omega

/-- The scan of tags is out of range if they fill the array, and finds them all otherwise. -/
theorem scanTags_eq (h : buf.drop i = tagText t ++ (tagsText ts ++ space :: r))
    (ht : ∀ x ∈ t :: ts, isTag x = true) :
    (IsCapacity (ts.length + 1) → scanTags buf i (replicate 100 0) = .error .outOfRange) ∧
      (¬ IsCapacity (ts.length + 1) → ∃ pad, scanTags buf i (replicate 100 0) =
        .ok (.ok (i + (tagText t).length + (tagsText ts).length, ts.length + 1,
          tagStarts i (t :: ts) ++ (i + (tagsText (t :: ts)).length) :: pad))) := by
  have hfuel : 2 * (ts.length + 1) < buf.length + 2 := by
    have hlen := length_of_drop h (by_contra fun hle => by rw [drop_eq_nil_of_le (by omega)] at h; simp [tagText] at h)
    have hle := length_le_tagsText (forall_mem_cons.mp ht).2
    simp only [length_append, length_cons] at hlen
    omega
  obtain ⟨pad, hroom, hloop⟩ := scanTagsLoop_eq h ht Room.indices hfuel
  have hused : (tagStarts i (t :: ts)).length = ts.length + 1 := by rw [length_tagStarts, length_cons]
  simp only [nil_append, length_nil, hused] at hroom hloop
  rw [scanTags, hloop, ← hroom.full_iff]
  constructor
  · intro hfull
    rw [put, if_neg (by omega)]
    rfl
  · intro hfull
    cases pad with
    | nil => exact absurd (by rw [append_nil, hused]) hfull
    | cons a pad =>
      refine ⟨pad, ?_⟩
      rw [put_filled hused.symm, append_assoc]
      rfl

/-- A scan of tags ends in an error, unless there are tags up to a space. -/
theorem scanTagsLoop_cases (hi : i ≤ buf.length) (hfuel : buf.length - i + 2 ≤ fuel)
    (hroom : Room (starts ++ pad).length starts.length) :
    (∃ err j, scanTagsLoop buf fuel .tagKey i starts.length (starts ++ pad) = .ok (.error (err, j)) ∧
      i ≤ j ∧ j ≤ buf.length) ∨
      ∃ t ts r, buf.drop i = tagText t ++ (tagsText ts ++ space :: r) ∧ ∀ x ∈ t :: ts, isTag x = true := by
  induction hn : buf.length - i using Nat.strong_induction_on generalizing i starts pad fuel with
  | _ n ih =>
    obtain ⟨fuel, rfl⟩ : ∃ n, fuel = n + 2 := ⟨fuel - 2, by omega⟩
    obtain ⟨pad', hput, hroom'⟩ := put_growIndices i hroom
    rcases scanTagsKey_cases hi with ⟨err, j, herr, hij, hj⟩ | ⟨k, r, hkey, hk⟩
    · exact .inl ⟨err, j, by rw [scanTagsLoop, hput, ok_bind, herr]; rfl, hij, hj⟩
    have hvalue := drop_succ (drop_add hkey)
    have hi' : i + k.length + 1 ≤ buf.length := lt_length_of_drop (drop_add hkey)
    rcases scanTagsValue_cases hi' with ⟨err, j, herr, hij, hj⟩ | ⟨v, d, r', htext, hv, hd⟩
    · refine .inl ⟨err, j, ?_, by omega, hj⟩
      rw [scanTagsLoop, hput, ok_bind, scanTagsKey_eq hkey hk, ok_bind]
      simp only []
      rw [scanTagsLoop, herr]
      rfl
    have ht : isTag (k, v) = true := isTag_iff.mpr ⟨hk, hv⟩
    have hr : r = v ++ d :: r' := hvalue.symm.trans htext
    have htag : buf.drop i = tagText (k, v) ++ d :: r' := by
      rw [hkey, hr, tagText, append_assoc, cons_append]
    by_cases hcomma : d = comma
    · subst hcomma
      obtain ⟨pad₁, hroom₁, htagstep⟩ := scanTagsLoop_tag fuel htag ht (by simp) hroom
      have hlt := lt_length_of_drop (drop_add htag)
      rcases ih (buf.length - (i + (tagText (k, v)).length + 1)) (by omega) hlt
        (show buf.length - (i + (tagText (k, v)).length + 1) + 2 ≤
          fuel by simp [tagText] at hlt ⊢; omega) hroom₁ rfl with
        ⟨err, j, herr, hij, hj⟩ | ⟨t, ts, r₁, hrest, hts⟩
      · exact .inl ⟨err, j, by rw [htagstep, if_pos rfl, if_pos rfl, herr], by omega, hj⟩
      · refine .inr ⟨(k, v), t :: ts, r₁, ?_, ?_⟩
        · rw [htag, tagsText_cons, cons_append, append_assoc, ← hrest, drop_succ (drop_add htag)]
        · intro x hx
          rcases mem_cons.mp hx with rfl | hx
          · exact ht
          · exact hts x hx
    · have hspace : d = space := by simpa [hcomma] using hd
      subst hspace
      refine .inr ⟨(k, v), [], r', htag, fun x hx => ?_⟩
      rw [mem_singleton.mp hx]
      exact ht

theorem scanTags_cases (hi : i ≤ buf.length) :
    (∃ err j, scanTags buf i (replicate 100 0) = .ok (.error (err, j)) ∧ i ≤ j ∧ j ≤ buf.length) ∨
      ∃ t ts r, buf.drop i = tagText t ++ (tagsText ts ++ space :: r) ∧ ∀ x ∈ t :: ts, isTag x = true :=
  scanTagsLoop_cases hi (by omega) Room.indices

/-! ### The order of the tags -/

/-- Tags stand in the buffer from the comma in front of them on, and their starts in the array. -/
structure TagsAt (buf : Bytes) (indices : List ℕ) (p j : ℕ) (tags : List (Bytes × Bytes))
    (r : Bytes) (pad : List ℕ) : Prop where
  text : buf.drop p = tagsText tags ++ space :: r
  starts : indices.drop j = tagStarts (p + 1) tags ++ (p + 1 + (tagsText tags).length) :: pad
  valid : ∀ x ∈ tags, isTag x = true

variable {indices : List ℕ} {p j : ℕ}

theorem tagsText_append_space (ts : List (Bytes × Bytes)) (r : Bytes) :
    ∃ d r', tagsText ts ++ space :: r = d :: r' ∧ d ∈ [comma, space] := by
  cases ts with
  | nil => exact ⟨space, r, rfl, by simp⟩
  | cons t ts => exact ⟨comma, _, rfl, by simp⟩

/-- A tag stands in the buffer where it is said to start. -/
def Placed (buf : Bytes) (x : (Bytes × Bytes) × ℕ) : Prop :=
  isTag x.1 = true ∧ ∃ d r, buf.drop x.2 = tagText x.1 ++ d :: r ∧ d ∈ [comma, space]

theorem Placed.sliceFrom {x : (Bytes × Bytes) × ℕ} (h : Placed buf x) :
    ∃ b, sliceFrom buf x.2 = .ok b ∧ scanTo b 0 equals = .ok (0 + x.1.1.length, x.1.1) := by
  obtain ⟨ht, d, r, hd, -⟩ := h
  have hle : x.2 ≤ buf.length := by
    by_contra hle
    rw [drop_eq_nil_of_le (by omega)] at hd
    simp [tagText] at hd
  refine ⟨_, sliceFrom_eq hle, scanTo_tagKey (r := x.1.2 ++ d :: r) ?_ (isTag_iff.mp ht).1⟩
  rw [drop_zero, hd, tagText, append_assoc, cons_append]

/-- What `checkSorted` finds, from the keys. -/
def compareNeighbours : List Bytes → Except ParseError Bool
  | a :: b :: l => if b < a then .ok false else if a = b then .error .duplicateTags else compareNeighbours (b :: l)
  | _ => .ok true

namespace TagsAt

section

variable (h : TagsAt buf indices p j (t :: ts) r pad)
include h

theorem tag : buf.drop (p + 1) = tagText t ++ (tagsText ts ++ space :: r) := by
  have htext := h.text
  rw [tagsText_cons, cons_append, append_assoc] at htext
  exact drop_succ htext

theorem tail : TagsAt buf indices (p + 1 + (tagText t).length) (j + 1) ts r pad where
  text := drop_add h.tag
  starts := by
    have hstarts := h.starts
    rw [tagStarts, cons_append, length_tagsText_cons] at hstarts
    rw [drop_succ hstarts]
    congr 2
    omega
  valid x hx := h.valid x (mem_cons_of_mem _ hx)

theorem tagKeyAt_eq : tagKeyAt buf indices j = .ok t.1 := by
  have hstarts := h.starts
  rw [tagStarts, cons_append] at hstarts
  obtain ⟨rest, hnext⟩ : ∃ rest, indices.drop (j + 1) = (p + 1 + (tagText t).length + 1) :: rest := by
    have hstarts := h.tail.starts
    cases ts with
    | nil | cons t' ts => exact ⟨_, hstarts⟩
  obtain ⟨hk, -⟩ := isTag_iff.mp (h.valid t mem_cons_self)
  have hslice : slice buf (p + 1) (p + 1 + (tagText t).length) = .ok (tagText t) :=
    slice_drop h.tag (lt_length_of_drop (h.text.trans (by rw [tagsText_cons]; rfl)))
  rw [tagKeyAt, get_drop hstarts, ok_bind, get_drop hnext, ok_bind, sliceBefore_eq (by omega),
    Nat.add_sub_cancel, hslice,
    ok_bind, scanTo_tagKey (show (tagText t).drop 0 = t.1 ++ equals :: t.2 from rfl) hk]
  rfl

end

theorem checkReserved_eq (h : TagsAt buf indices p j tags r pad) :
    checkReserved buf indices tags.length j =
      .ok ((tags.map (·.1)).find? fun k => decide (k ∈ reservedTagKeys)) := by
  induction tags generalizing p j with
  | nil => rfl
  | cons t ts ih =>
    rw [length_cons, checkReserved, h.tagKeyAt_eq, ok_bind, map_cons, find?_cons]
    by_cases hres : t.1 ∈ reservedTagKeys
    · rw [if_pos hres, decide_eq_true hres]
      rfl
    · rw [if_neg hres, decide_eq_false hres]
      exact ih h.tail

theorem checkSorted_eq (h : TagsAt buf indices p j (t :: ts) r pad) :
    checkSorted buf indices ts.length j = .ok (compareNeighbours ((t :: ts).map (·.1))) := by
  induction ts generalizing t p j with
  | nil => rfl
  | cons t' ts ih =>
    rw [length_cons, checkSorted, h.tagKeyAt_eq, ok_bind, h.tail.tagKeyAt_eq, ok_bind, map_cons, map_cons,
      compareNeighbours]
    split_ifs
    · rfl
    · rfl
    · exact ih h.tail

/-- The tags with their starts. -/
theorem placed (h : TagsAt buf indices p j tags r pad) : ∀ x ∈ tags.zip (tagStarts (p + 1) tags), Placed buf x := by
  induction tags generalizing p j with
  | nil => simp
  | cons t ts ih =>
    intro x hx
    rw [tagStarts, zip_cons_cons] at hx
    rcases mem_cons.mp hx with rfl | hx
    · obtain ⟨d, r', hd, hstop⟩ := tagsText_append_space ts r
      exact ⟨h.valid t mem_cons_self, d, r', by rw [h.tag, hd], hstop⟩
    · exact ih h.tail x hx

end TagsAt

/-! ### Sorting the tags -/

/-- Tags in the order of their keys as they are written. -/
def sortTags (tags : List (Bytes × Bytes)) : List (Bytes × Bytes) :=
  insertionSort (fun a b => decide (a.1 < b.1)) tags

variable {placed : List ((Bytes × Bytes) × ℕ)}

section

variable (h : ∀ x ∈ placed, Placed buf x)
include h

theorem mapM_scanTo :
    (placed.map (·.2)).mapM (fun i => do
      let r ← scanTo buf i equals
      return (r.2, i)) = (.ok (placed.map fun x => (x.1.1, x.2)) : Checked (List (Bytes × ℕ))) := by
  induction placed with
  | nil => rfl
  | cons x placed ih =>
    obtain ⟨ht, d, r', hd, -⟩ := h x mem_cons_self
    have hkey : buf.drop x.2 = x.1.1 ++ equals :: (x.1.2 ++ d :: r') := by rw [hd, tagText, append_assoc, cons_append]
    rw [map_cons, mapM_cons, scanTo_tagKey hkey (isTag_iff.mp ht).1, ih (forall_mem_cons.mp h).2]
    rfl

/-- The starts are sorted as the tags are. -/
theorem sortIndices_eq :
    sortIndices buf (placed.map (·.2)) =
      .ok ((insertionSort (fun a b => decide (a.1.1 < b.1.1)) placed).map (·.2)) := by
  rw [sortIndices, mapM_scanTo h, ok_bind, insertionSort_map, map_map]
  rfl

theorem copyTags_eq (w : Bytes) :
    copyTags buf (placed.map (·.2)) (w ++ replicate (tagsText (placed.map (·.1))).length 0) w.length =
      .ok (w ++ tagsText (placed.map (·.1))) := by
  induction placed generalizing w with
  | nil => rfl
  | cons x placed ih =>
    obtain ⟨ht, d, r', hd, hstop⟩ := h x mem_cons_self
    have hpad : replicate (tagsText ((x :: placed).map (·.1))).length (0 : Byte) =
        0 :: (replicate (tagText x.1).length 0 ++ replicate (tagsText (placed.map (·.1))).length 0) := by
      rw [map_cons, length_tagsText_cons, ← replicate_add, ← replicate_succ]
      congr 1
      omega
    have hlen : w.length + 1 = (w ++ [comma]).length := by rw [length_append, length_singleton]
    rw [map_cons, copyTags, hpad, put_filled rfl, ok_bind, scanToSpaceOr_tag hd ht hstop, ok_bind]
    simp only []
    rw [copy_filled hlen (by rw [length_replicate]), ok_bind]
    simp only []
    rw [hlen, ← length_append, ih (forall_mem_cons.mp h).2, map_cons, tagsText_cons]
    simp

theorem hasDuplicates_eq :
    hasDuplicates buf (placed.map (·.2)) = .ok (!decide (((placed.map (·.1)).map (·.1)).IsChain (· ≠ ·))) := by
  induction placed with
  | nil => rfl
  | cons x placed ih =>
    cases placed with
    | nil => rfl
    | cons y placed =>
      obtain ⟨b, hb, hleft⟩ := (h x mem_cons_self).sliceFrom
      obtain ⟨b', hb', hright⟩ := (h y (by simp)).sliceFrom
      rw [map_cons, map_cons, hasDuplicates, hb, ok_bind, hleft, ok_bind, hb', ok_bind, hright, ok_bind]
      simp only [map_cons, isChain_cons_cons] at ih ⊢
      by_cases heq : x.1.1 = y.1.1
      · rw [if_pos heq]
        simp [heq]
        rfl
      · rw [if_neg heq, ih (forall_mem_cons.mp h).2]
        simp [heq]

end

theorem tagsText_perm {a b : List (Bytes × Bytes)} (h : a.Perm b) : (tagsText a).length = (tagsText b).length :=
  (h.flatMap_right _).length_eq

theorem sortTags_perm (tags : List (Bytes × Bytes)) : (sortTags tags).Perm tags := insertionSort_perm _ _

theorem sortTags_isChain (tags : List (Bytes × Bytes)) : ((sortTags tags).map (·.1)).IsChain (· ≤ ·) := by
  have hchain : (sortTags tags).IsChain fun a b => decide (b.1 < a.1) = false :=
    insertionSort_isChain (fun x y h => by simpa using le_of_lt (of_decide_eq_true h)) tags
  rw [isChain_map]
  exact hchain.imp fun a b h => by simpa using h

variable {l : List Bytes}

/-- In a sorted list, equal elements are neighbours. -/
theorem isChain_ne_iff_nodup (h : l.IsChain (· ≤ ·)) : l.IsChain (· ≠ ·) ↔ l.Nodup := by
  refine ⟨fun hne => ?_, fun h => h.isChain⟩
  have hlt : l.IsChain (· < ·) := isChain_iff_getElem.mpr fun i hi =>
    lt_of_le_of_ne (isChain_iff_getElem.mp h i hi) (isChain_iff_getElem.mp hne i hi)
  exact hlt.pairwise.imp ne_of_lt

/-- The sorted tags are read from the buffer into the key, behind the measurement. -/
theorem copy_sorted (h : TagsAt buf indices p j tags r pad) (m : Bytes) :
    ∃ sorted, sortIndices buf (tagStarts (p + 1) tags) = .ok sorted ∧
      copyTags buf sorted (m ++ replicate (tagsText tags).length 0) m.length = .ok (m ++ tagsText (sortTags tags)) ∧
      hasDuplicates buf sorted = .ok (!decide ((tags.map (·.1)).Nodup)) := by
  obtain ⟨placed, hplaced⟩ : ∃ placed, placed = tags.zip (tagStarts (p + 1) tags) := ⟨_, rfl⟩
  have hfst : placed.map (·.1) = tags := by rw [hplaced]; exact map_fst_zip (by simp)
  have hsnd : placed.map (·.2) = tagStarts (p + 1) tags := by rw [hplaced]; exact map_snd_zip (by simp)
  have hall : ∀ x ∈ placed, Placed buf x := hplaced ▸ h.placed
  obtain ⟨sorted, hsorted⟩ : ∃ sorted, sorted =
      insertionSort (fun a b => decide (a.1.1 < b.1.1)) placed := ⟨_, rfl⟩
  have hperm : sorted.Perm placed := hsorted ▸ insertionSort_perm _ _
  have hsortedall : ∀ x ∈ sorted, Placed buf x := fun x hx => hall x (hperm.mem_iff.mp hx)
  have hsortedfst : sorted.map (·.1) = sortTags tags := by
    rw [hsorted, sortTags, ← hfst, insertionSort_map]
  have hlen : (tagsText tags).length = (tagsText (sorted.map (·.1))).length :=
    tagsText_perm (by rw [hsortedfst]; exact (sortTags_perm tags).symm)
  have hnodup : ((sortTags tags).map (·.1)).Nodup ↔ (tags.map (·.1)).Nodup := ((sortTags_perm tags).map _).nodup_iff
  refine ⟨sorted.map (·.2), ?_, ?_, ?_⟩
  · rw [← hsnd, sortIndices_eq hall, hsorted]
  · rw [hlen, copyTags_eq hsortedall, hsortedfst]
  · rw [hasDuplicates_eq hsortedall, hsortedfst]
    simp only [isChain_ne_iff_nodup (sortTags_isChain tags), hnodup]

theorem compareNeighbours_true (h : compareNeighbours l = .ok true) : l.IsChain (· < ·) := by
  induction l with
  | nil => exact isChain_nil
  | cons a l ih =>
    cases l with
    | nil => exact isChain_singleton a
    | cons b l =>
      rw [compareNeighbours] at h
      split_ifs at h with hlt heq
      · cases h
      · exact isChain_cons_cons.mpr ⟨lt_of_le_of_ne (not_lt.mp hlt) heq, ih h⟩

theorem compareNeighbours_error {err : ParseError} (h : compareNeighbours l = .error err) :
    err = .duplicateTags ∧ ¬ l.Nodup := by
  fun_induction compareNeighbours l with
  | case1 => cases h
  | case2 a l hlt =>
    cases h
    exact ⟨rfl, by simp⟩
  | case3 a b l hlt hne ih => exact ⟨(ih h).1, fun hnodup => (ih h).2 (nodup_cons.mp hnodup).2⟩
  | case4 => cases h

theorem sortTags_of_isChain (h : (tags.map (·.1)).IsChain (· < ·)) : sortTags tags = tags := by
  refine insertionSort_of_isChain ?_
  rw [isChain_map] at h
  exact h.imp fun a b hab => by simpa using le_of_lt hab

/-! ### Scanning the key -/

/-- A text that starts with a key: a measurement and tags, up to a space. -/
structure KeyText (text m : Bytes) (tags : List (Bytes × Bytes)) (r : Bytes) : Prop where
  eq : text = m ++ (tagsText tags ++ space :: r)
  measurement : isText [comma, space] m = true
  first : m.head? ≠ some comma
  tags : ∀ t ∈ tags, isTag t = true

/-- What is wrong with the tags of a key, or the key with its tags in order. -/
def checkTags (m : Bytes) (tags : List (Bytes × Bytes)) : Except ParseError Bytes :=
  match (tags.map (·.1)).find? fun k => decide (k ∈ reservedTagKeys) with
  | some k => .error (.reservedTagKey k)
  | none => if (tags.map (·.1)).Nodup then .ok (m ++ tagsText (sortTags tags)) else .error .duplicateTags

theorem checkTags_ok {m key : Bytes} (h : checkTags m tags = .ok key) : key = m ++ tagsText (sortTags tags) := by
  rw [checkTags] at h
  split at h
  · cases h
  · split_ifs at h
    exact (Except.ok.inj h).symm

theorem checkTags_nil (m : Bytes) : checkTags m [] = .ok m := congrArg Except.ok (append_nil m)

variable {m : Bytes} {start : ℕ}

theorem orderTags_nil (indices : List ℕ) (h : buf.drop start = m ++ space :: r) (hlt : start < buf.length) :
    orderTags buf start (start + m.length) 0 indices = .ok (.ok (start + m.length, m)) := by
  show (slice buf start (start + m.length) >>= fun key => pure (Except.ok (start + m.length, key))) = _
  rw [slice_drop h (le_of_lt hlt)]
  rfl

theorem orderTags_eq (hm : buf.drop start = m ++ (tagsText (t :: ts) ++ space :: r))
    (h : TagsAt buf indices (start + m.length) 0 (t :: ts) r pad) :
    orderTags buf start (start + m.length + (tagsText (t :: ts)).length) (t :: ts).length indices =
      .ok ((checkTags m (t :: ts)).map fun key => (start + m.length + (tagsText (t :: ts)).length, key)) := by
  have hlen := length_of_drop hm
    (by_contra fun hle => by rw [drop_eq_nil_of_le (by omega)] at hm; simp [tagsText_cons] at hm)
  have hle : start + m.length + (tagsText (t :: ts)).length ≤ buf.length := by
    simp only [length_append, length_cons] at hlen
    omega
  have hfail : ∀ err, fail buf start (start + m.length + (tagsText (t :: ts)).length) err =
      .ok (.error err : Except ParseError (ℕ × Bytes)) := fun err => fail_eq (by omega) hle
  have hslice : slice buf start (start + m.length + (tagsText (t :: ts)).length) = .ok (m ++ tagsText (t :: ts)) := by
    rw [Nat.add_assoc, ← length_append]
    exact slice_drop (by rw [hm, append_assoc]) (by omega)
  have hsorted : checkSorted buf indices ((t :: ts).length - 1) 0 = .ok (compareNeighbours ((t :: ts).map (·.1))) :=
    h.checkSorted_eq
  rw [orderTags, h.checkReserved_eq, ok_bind, checkTags]
  cases (map (·.1) (t :: ts)).find? fun k => decide (k ∈ reservedTagKeys) with
  | some k => exact hfail _
  | none =>
    simp only []
    rw [hsorted, ok_bind]
    cases hcmp : compareNeighbours ((t :: ts).map (·.1)) with
    | error err =>
      obtain ⟨rfl, hdup⟩ := compareNeighbours_error hcmp
      simp only []
      rw [hfail, if_neg hdup]
      rfl
    | ok sorted =>
      cases sorted with
      | true =>
        have hchain := compareNeighbours_true hcmp
        have hnodup : ((t :: ts).map (·.1)).Nodup := hchain.pairwise.imp ne_of_lt
        simp only []
        rw [if_neg (by simp), hslice, if_pos hnodup, sortTags_of_isChain hchain]
        rfl
      | false =>
        obtain ⟨starts, hsort, hcopy, hdup⟩ := copy_sorted h m
        have hindices : indices = tagStarts (start + m.length + 1) (t :: ts) ++ _ := h.starts
        have htake : indices.take (t :: ts).length = tagStarts (start + m.length + 1) (t :: ts) := by
          rw [hindices, ← length_tagStarts (start + m.length + 1) (t :: ts), take_left]
        have hmeasurement : sliceBefore buf start (start + m.length + 1) 1 = .ok m := by
          rw [sliceBefore_eq (by omega), Nat.add_sub_cancel]
          exact slice_drop hm (by omega)
        have hzeros : replicate (m ++ tagsText (t :: ts)).length (0 : Byte) =
            replicate m.length 0 ++ replicate (tagsText (t :: ts)).length 0 := by
          rw [length_append, replicate_add]
        simp only []
        rw [if_pos (by simp), get_drop h.starts, ok_bind, hmeasurement, ok_bind, htake,
          hsort, ok_bind, hslice, ok_bind, hzeros, copy_zero (by rw [length_replicate]), ok_bind]
        simp only []
        rw [hcopy, ok_bind, hdup, ok_bind]
        by_cases hnodup : ((t :: ts).map (·.1)).Nodup
        · rw [if_pos hnodup, decide_eq_true hnodup]
          rfl
        · rw [if_neg hnodup, decide_eq_false hnodup]
          rfl

section

variable (hstart : skipWhitespace buf i = .ok start)
include hstart

/-- A line that starts with a key, and whose tags do not fill the array. -/
theorem scanKey_eq (h : KeyText (buf.drop start) m tags r)
    (hcap : ¬ IsCapacity tags.length) :
    scanKey buf i = .ok ((checkTags m tags).map fun key => (start + m.length + (tagsText tags).length, key)) := by
  cases tags with
  | nil =>
    have hspace : buf.drop start = m ++ space :: r := h.eq
    have hlt : start < buf.length := by
      by_contra hle
      rw [drop_eq_nil_of_le (by omega)] at hspace
      simp at hspace
    rw [scanKey, hstart, ok_bind, scanMeasurement_eq hspace h.measurement h.first (by simp),
      ok_bind, if_neg (by decide), checkTags_nil]
    exact orderTags_nil (replicate 100 0) hspace hlt
  | cons t ts =>
    have hcomma : buf.drop start = m ++ comma :: (tagText t ++ (tagsText ts ++ space :: r)) := by
      rw [h.eq, tagsText_cons, cons_append, append_assoc]
    have hp := drop_add hcomma
    have htags := drop_succ hp
    obtain ⟨pad, hscan⟩ := (scanTags_eq htags h.tags).2 hcap
    have hat : TagsAt buf (tagStarts (start + m.length + 1) (t :: ts) ++
        (start + m.length + 1 + (tagsText (t :: ts)).length) :: pad)
        (start + m.length) 0 (t :: ts) r pad :=
      { text := by rw [drop_add h.eq], starts := rfl, valid := h.tags }
    have hpos : start + m.length + 1 + (tagText t).length + (tagsText ts).length =
        start + m.length + (tagsText (t :: ts)).length := by
      rw [length_tagsText_cons]
      omega
    rw [scanKey, hstart, ok_bind, scanMeasurement_eq hcomma h.measurement h.first (by simp), ok_bind, if_pos rfl]
    simp only []
    rw [if_pos trivial, hscan, ok_bind]
    simp only []
    rw [hpos]
    exact orderTags_eq h.eq hat

theorem scanKey_full (h : KeyText (buf.drop start) m tags r)
    (hcap : IsCapacity tags.length) : scanKey buf i = .error .outOfRange := by
  cases tags with
  | nil =>
    obtain ⟨k, hk⟩ := hcap
    have : 0 < 2 ^ k := by positivity
    rw [length_nil] at hk
    omega
  | cons t ts =>
    have hcomma : buf.drop start = m ++ comma :: (tagText t ++ (tagsText ts ++ space :: r)) := by
      rw [h.eq, tagsText_cons, cons_append, append_assoc]
    have htags := drop_succ (drop_add hcomma)
    rw [scanKey, hstart, ok_bind, scanMeasurement_eq hcomma h.measurement h.first (by simp), ok_bind, if_pos rfl]
    simp only []
    rw [if_pos trivial, (scanTags_eq htags h.tags).1 hcap]
    rfl

/-- The scan of a key ends in an error, unless the line starts with one. -/
theorem scanKey_cases (hle : start ≤ buf.length) :
    (∃ err, scanKey buf i = .ok (.error err)) ∨ ∃ m tags r, KeyText (buf.drop start) m tags r := by
  rcases scanMeasurement_cases hle with ⟨err, j, herr, hij, hj⟩ | ⟨m, d, r, hm, hblock, hfirst, hd⟩
  · left
    refine ⟨err, ?_⟩
    rw [scanKey, hstart, ok_bind, herr, ok_bind]
    exact fail_eq hij hj
  by_cases hcomma : d = comma
  · subst hcomma
    have hlt := lt_length_of_drop (drop_add hm)
    rcases scanTags_cases (show start + m.length + 1 ≤ buf.length from hlt) with
      ⟨err, j, herr, hij, hj⟩ | ⟨t, ts, r', htext, htags⟩
    · left
      refine ⟨err, ?_⟩
      rw [scanKey, hstart, ok_bind, scanMeasurement_eq hm hblock hfirst hd, ok_bind, if_pos rfl]
      simp only []
      rw [if_pos trivial, herr, ok_bind]
      exact fail_eq (by omega) hj
    · right
      refine ⟨m, t :: ts, r', ?_, hblock, hfirst, htags⟩
      rw [hm, ← drop_succ (drop_add hm), htext, tagsText_cons, cons_append, append_assoc]
  · have hspace : d = space := by simpa [hcomma] using hd
    subst hspace
    exact .inr ⟨m, [], r, hm, hblock, hfirst, by simp⟩

end

end InfluxDB.Models
