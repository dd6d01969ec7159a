import InfluxDB.Models.Fields
import InfluxDB.Models.Lines
import InfluxDB.Models.ScanKey
import InfluxDB.Models.ScanRange

/-!
    The parser on any text.  All accesses are in range and all loops end, but for lines whose tags fill the array
    of tag starts: a line with 100, 200, 400, ... tags is out of range.
-/

namespace InfluxDB.Models

open Lib Buffer List Nat

variable {buf m r : Bytes} {tags : List (Bytes × Bytes)} {i start : ℕ}

theorem skipWhitespace_range (hi : i ≤ buf.length) :
    ∃ start, skipWhitespace buf i = .ok start ∧ i ≤ start ∧ start ≤ buf.length := by
  refine ⟨_, skipWhitespace_eq buf i, by omega, ?_⟩
  have hle := List.Sublist.length_le (takeWhile_sublist isWhitespace (l := buf.drop i))
  rw [length_drop] at hle
  omega

/-- A space is skipped. -/
theorem skipWhitespace_space {l : Bytes} (h : buf.drop i = space :: l) :
    ∃ start, skipWhitespace buf i = .ok start ∧ i < start ∧ start ≤ buf.length := by
  obtain ⟨start, hstart, hle, hlen⟩ := skipWhitespace_range (le_of_lt (lt_length_of_drop h))
  refine ⟨start, hstart, ?_, hlen⟩
  rw [skipWhitespace_eq, h, takeWhile_cons, if_pos (by decide)] at hstart
  cases hstart
  simp

namespace PointsParser

/-! ### The measurement in the key -/

/-- The part of a key in which `parsePointsAppend` escapes equals signs: the measurement, without its last byte
if there are no tags. -/
def keyMeasurement (m : Bytes) (tags : List (Bytes × Bytes)) : Bytes := if tags = [] then m.dropLast else m

theorem slice_keyMeasurement (tags : List (Bytes × Bytes)) (hm : isText [comma, space] m = true)
    (hfirst : m.head? ≠ some comma) :
    ∃ state i, scanMeasurement (m ++ tagsText tags) 0 = .ok (state, i) ∧
      sliceBefore (m ++ tagsText tags) 0 i 1 = .ok (keyMeasurement m tags) := by
  obtain ⟨c, l, rfl⟩ := exists_cons_of_ne_nil (ne_nil_of_isBlock hm)
  cases tags with
  | nil =>
    have hscan := scanMeasurement_no_block (show (c :: l).drop 0 = c :: l from rfl) (fun hc => hfirst (by rw [hc]; rfl))
      (isBlock_cons.mp hm).1
    refine ⟨.error .missingFields, (c :: l).length, by rwa [tagsText, flatMap_nil, append_nil], ?_⟩
    rw [tagsText, flatMap_nil, append_nil, sliceBefore_eq (by simp), slice_eq (by omega) (by omega), keyMeasurement,
      if_pos rfl, dropLast_eq_take, drop_zero, Nat.sub_zero]
  | cons t ts =>
    have hscan := scanMeasurement_eq (show (c :: l ++ tagsText (t :: ts)).drop 0 =
      c :: l ++ comma :: (tagText t ++ tagsText ts) from rfl)
      hm hfirst (by simp)
    refine ⟨_, _, hscan, ?_⟩
    show sliceBefore _ 0 (0 + (c :: l).length + 1) 1 = _
    rw [sliceBefore_eq (by omega), Nat.add_sub_cancel, keyMeasurement, if_neg (by simp)]
    exact slice_drop (by rw [drop_zero]) (zero_le _)

theorem keyMeasurement_isPrefix (m : Bytes) (tags : List (Bytes × Bytes)) (r : Bytes) :
    keyMeasurement m tags <+: m ++ r := by
  rw [keyMeasurement]
  split_ifs
  · exact (List.dropLast_prefix m).trans (prefix_append _ _)
  · exact prefix_append _ _

/-- The key after the escape of equals signs. -/
def escapedKey (m : Bytes) (tags : List (Bytes × Bytes)) (key : Bytes) : Bytes :=
  escapeEquals (keyMeasurement m tags) ++ key.drop (keyMeasurement m tags).length

variable (pp : PointsParser) (time : ℤ)

theorem escapeMeasurementEquals_eq (hm : isText [comma, space] m = true) (hfirst : m.head? ≠ some comma) :
    pp.escapeMeasurementEquals (m ++ tagsText tags) = .ok (
      if equals ∈ keyMeasurement m tags then
        match pp.checkAlloc 1 (escapedKey m tags (m ++ tagsText tags)).length with
        | (false, pp) => (.error .limit, pp)
        | (true, pp) => (.ok (escapedKey m tags (m ++ tagsText tags)), pp)
      else (.ok (m ++ tagsText tags), pp)) := by
  obtain ⟨state, i, hscan, hslice⟩ := slice_keyMeasurement tags hm hfirst
  have hle := (keyMeasurement_isPrefix m tags (tagsText tags)).length_le
  have hlen : (escapedKey m tags (m ++ tagsText tags)).length =
      (escapeEquals (keyMeasurement m tags)).length +
        ((m ++ tagsText tags).length - (keyMeasurement m tags).length) := by
    rw [escapedKey, length_append, length_drop]
  rw [escapeMeasurementEquals, hscan, ok_bind]
  simp only []
  rw [hslice, ok_bind]
  by_cases heq : equals ∈ keyMeasurement m tags
  · rw [if_pos heq, if_pos heq, hlen]
    cases pp.checkAlloc 1 _ with
    | mk fits pp' =>
      cases fits with
      | false => rfl
      | true =>
        simp only []
        rw [replicate_add, copy_zero (by simp), ok_bind, sliceFrom_eq hle, ok_bind]
        simp only []
        have hcopy := copy_filled (l := escapeEquals (keyMeasurement m tags)) (r := []) rfl
          (show ((m ++ tagsText tags).drop (keyMeasurement m tags).length).length =
            (replicate ((m ++ tagsText tags).length - (keyMeasurement m tags).length) (0 : Byte)).length by simp)
        rw [append_nil, append_nil] at hcopy
        rw [hcopy]
        rfl
  · rw [if_neg heq, if_neg heq]
    rfl

/-! ### A line -/

theorem onlySpaces_range {fuel : ℕ} (hfuel : buf.length - i < fuel) :
    Yields (onlySpaces buf fuel i) fun _ => True := by
  induction fuel generalizing i with
  | zero => omega
  | succ fuel ih =>
    rw [onlySpaces]
    refine .ite (fun hlt => ?_) fun _ => .ok trivial
    exact (get_range hlt).bind fun c _ => .ite (fun _ => .ok trivial) fun _ => ih (by omega)

theorem lineTime_range (ts : Bytes) : Yields (pp.lineTime buf i ts) fun _ => True := by
  rw [lineTime]
  refine .ite (fun _ => .ok trivial) fun _ => ?_
  cases parseIntBytes ts with
  | none => exact .ok trivial
  | some n =>
    simp only []
    cases safeCalcTime n pp.options.precision with
    | none => exact .ok trivial
    | some t =>
      exact (onlySpaces_range (Nat.sub_lt_succ _ _)).bind fun b _ =>
        .ite (fun _ => .ok trivial) fun _ => .ok trivial

theorem addFields_range (key : Bytes) (fields : List (Bytes × Bytes)) (pp : PointsParser) :
    Yields (addFields time key fields pp) fun _ => True := by
  induction fields generalizing pp with
  | nil => exact .ok trivial
  | cons f fields ih =>
    obtain ⟨k, v⟩ := f
    obtain ⟨⟨err, pp'⟩, hadd⟩ : ∃ res, pp.addField time key k (k ++ equals :: v) = .ok res :=
      ⟨_, addField_eq _ _ _ _ _⟩
    rw [addFields, hadd, ok_bind]
    cases err with
    | some err => exact .ok trivial
    | none => exact ih pp'

theorem walkFields_range (key fields : Bytes) (pp : PointsParser) :
    Yields (walkFields time key (fields.length + 1) fields pp) fun _ => True := by
  rw [walkFields_eq (by omega)]
  refine (addFields_range time key _ pp).bind fun res _ => ?_
  obtain ⟨err, pp'⟩ := res
  cases err <;> exact .ok trivial

/-- A line whose tags do not fill the array is in range. -/
theorem parsePointsAppend_range (hstart : skipWhitespace buf 0 = .ok start) (hle : start ≤ buf.length)
    (hcap : ∀ m tags r, KeyText (buf.drop start) m tags r → ¬ IsCapacity tags.length) :
    Yields (pp.parsePointsAppend buf) fun _ => True := by
  rw [parsePointsAppend]
  rcases scanKey_cases hstart hle with ⟨err, herr⟩ | ⟨m, tags, r, htext⟩
  · rw [herr, ok_bind]
    exact .ok trivial
  rw [scanKey_eq hstart htext (hcap m tags r htext), ok_bind]
  cases hcheck : checkTags m tags with
  | error err => exact .ok trivial
  | ok key =>
    obtain rfl := checkTags_ok hcheck
    have hspace : buf.drop (start + m.length + (tagsText tags).length) = space :: r := by
      rw [drop_add (drop_add htext.eq)]
    obtain ⟨start₁, hstart₁, hlt, hle₁⟩ := skipWhitespace_space hspace
    have hm := length_pos_of_ne_nil (ne_nil_of_isBlock htext.measurement)
    refine .ite (fun _ => .ok trivial) fun _ => .ite (fun _ => .ok trivial) fun _ => ?_
    obtain ⟨⟨res, pp'⟩, hescape⟩ : ∃ res,
        pp.escapeMeasurementEquals (m ++ tagsText (sortTags tags)) = .ok res :=
      ⟨_, escapeMeasurementEquals_eq pp htext.measurement htext.first⟩
    rw [hescape, ok_bind]
    cases res with
    | error err => exact .ok trivial
    | ok key =>
      refine (scanFields_range pp'.parseFloat hstart₁ (by omega) hle₁).bind fun res hfields => ?_
      match res with
      | .error err => exact .ok trivial
      | .ok (pos, fields) =>
        obtain ⟨start₂, hstart₂, -, hle₂⟩ := skipWhitespace_range hfields.2.1
        refine .ite (fun _ => .ok trivial) fun _ => (scanTime_range hstart₂ hle₂).bind fun res _ => ?_
        match res with
        | .error err => exact .ok trivial
        | .ok (pos, ts) =>
          refine (lineTime_range pp' ts).bind fun res _ => ?_
          cases res with
          | error err => exact .ok trivial
          | ok time => exact walkFields_range time key fields pp'

theorem parsePointsAppend_full (hstart : skipWhitespace buf 0 = .ok start)
    (htext : KeyText (buf.drop start) m tags r) (hcap : IsCapacity tags.length) :
    pp.parsePointsAppend buf = .error .outOfRange := by
  rw [parsePointsAppend, scanKey_full hstart htext hcap]
  rfl

/-! ### A parser without limits -/

/-- No limit of the parser is exceeded, now or later. -/
structure Unlimited (pp : PointsParser) : Prop where
  maxBytes : pp.options.maxBytes ≤ 0
  maxValues : pp.options.maxValues ≤ 0
  state : pp.state = .ok

/-- The line may be wrong, but no limit was exceeded. -/
def NoLimit (res : Option LineError × PointsParser) : Prop := res.1 ≠ some .limit ∧ res.2.Unlimited

variable {pp : PointsParser}

section

variable (h : pp.Unlimited) (time : ℤ) (key : Bytes)
include h

theorem Unlimited.checkAlloc (n size : ℕ) : ∃ pp', pp.checkAlloc n size = (true, pp') ∧ pp'.Unlimited := by
  refine ⟨_, if_neg fun hlimit => ?_, ⟨h.maxBytes, h.maxValues, h.state⟩⟩
  have := h.maxBytes
  omega

theorem Unlimited.append (p : Point) : NoLimit (pp.append p) := by
  obtain ⟨pp', halloc, h'⟩ := h.checkAlloc 1 pointSize
  rw [PointsParser.append, if_neg (fun hlimit => by have := h.maxValues; omega), halloc]
  exact ⟨by simp, h'.maxBytes, h'.maxValues, h'.state⟩

theorem Unlimited.addField (key field fieldBuf : Bytes) : Returns (pp.addField time key field fieldBuf) NoLimit := by
  rw [addField_eq]
  refine .ok ?_
  split_ifs
  · exact ⟨by simp, h⟩
  · obtain ⟨pp', halloc, h'⟩ := h.checkAlloc 1 (v2Key pp.orgBucket key field).length
    rw [halloc]
    exact h'.append _

theorem Unlimited.addFields (fields : List (Bytes × Bytes)) : Returns (addFields time key fields pp) NoLimit := by
  induction fields generalizing pp with
  | nil => exact .ok ⟨by simp, h⟩
  | cons f fields ih =>
    obtain ⟨k, v⟩ := f
    refine .bind fun res hres => ?_
    have hno := h.addField time key k (k ++ equals :: v) res hres
    obtain ⟨err, pp'⟩ := res
    cases err with
    | some err => exact .ok hno
    | none => exact ih hno.2

theorem Unlimited.walkFields (key fields : Bytes) :
    Returns (walkFields time key (fields.length + 1) fields pp) NoLimit := by
  rw [walkFields_eq (by omega)]
  refine .bind fun res hres => ?_
  have hno := h.addFields time key _ res hres
  obtain ⟨err, pp'⟩ := res
  cases err with
  | some err => exact .ok hno
  | none =>
    refine .ok ⟨?_, hno.2⟩
    cases (splitFields (fields.length + 1) fields).2 <;> simp

theorem Unlimited.escapeMeasurementEquals :
    Returns (pp.escapeMeasurementEquals key) fun res => res.1 ≠ .error .limit ∧ res.2.Unlimited := by
  refine .bind fun res _ => .bind fun km _ => .ite (fun _ => ?_) fun _ => .ok ⟨by simp, h⟩
  obtain ⟨pp', halloc, h'⟩ := h.checkAlloc 1 ((escapeEquals km).length + (key.length - km.length))
  dsimp only
  rw [halloc]
  exact .bind fun _ _ => .bind fun _ _ => .bind fun _ _ => .ok ⟨by simp, h'⟩

theorem Unlimited.parsePointsAppend (buf : Bytes) : Returns (pp.parsePointsAppend buf) NoLimit := by
  have hinvalid : ∀ err {pp' : PointsParser}, pp'.Unlimited → NoLimit (some (.invalid err), pp') :=
    fun err _ h => ⟨by simp, h⟩
  refine .bind fun res _ => ?_
  match res with
  | .error err => exact .ok (hinvalid err h)
  | .ok (pos, key) =>
    refine .ite (fun _ => .ok (hinvalid _ h)) fun _ => .ite (fun _ => .ok (hinvalid _ h)) fun _ => ?_
    refine .bind fun res hres => ?_
    obtain ⟨hlimit, h'⟩ := h.escapeMeasurementEquals key res hres
    match res with
    | (.error .limit, pp') => exact absurd rfl hlimit
    | (.error (.invalid err), pp') => exact .ok (hinvalid err h')
    | (.ok key, pp') =>
      refine .bind fun res _ => ?_
      match res with
      | .error err => exact .ok (hinvalid err h')
      | .ok (pos, fields) =>
        refine .ite (fun _ => .ok (hinvalid _ h')) fun _ => .bind fun res _ => ?_
        match res with
        | .error err => exact .ok (hinvalid err h')
        | .ok (pos, ts) =>
          refine .bind fun res _ => ?_
          cases res with
          | error err => exact .ok (hinvalid err h')
          | ok time => exact h'.walkFields time key fields

end

/-! ### All lines -/

/-- The tags of a line do not fill the array. -/
def Fits (line : Bytes) : Prop := ∀ m tags r, KeyText line m tags r → ¬ IsCapacity tags.length

theorem skipWhitespace_strip {block line : Bytes} (h : strip block = some line) : skipWhitespace line 0 = .ok 0 := by
  have hline : line.takeWhile isWhitespace = [] := by
    rw [strip] at h
    cases hrest : block.dropWhile isWhitespace with
    | nil => rw [hrest] at h; cases h
    | cons c l =>
      have hc : isWhitespace c = false := by
        have := head?_dropWhile_not isWhitespace block
        rw [hrest] at this
        simpa using this
      rw [hrest] at h
      simp only [] at h
      split_ifs at h
      · cases h
        cases l with
        | nil => rfl
        | cons d l => rw [dropLast_cons_cons, takeWhile_cons, hc, if_neg Bool.false_ne_true]
      · cases h
        rw [takeWhile_cons, hc, if_neg Bool.false_ne_true]
  rw [skipWhitespace_eq, drop_zero, hline]
  rfl

section

variable {pos : ℕ} {c : Byte} {l : Bytes} (h : buf.drop pos = c :: l)
include h

/-- The next line of a text, as the loop reads it. -/
theorem next_line :
    scanLine buf pos = .ok (pos + (cutLine false .init (c :: l)).1.length, (cutLine false .init (c :: l)).1) ∧
      buf.drop (pos + (cutLine false .init (c :: l)).1.length + 1) = (cutLine false .init (c :: l)).2.drop 1 := by
  have happ := cutLine_append false .init (c :: l)
  refine ⟨by rw [scanLine_eq (le_of_lt (lt_length_of_drop h)), h], ?_⟩
  rw [← drop_drop, drop_add (h.trans happ.symm)]

theorem length_next_line : (buf.drop (pos + (cutLine false .init (c :: l)).1.length + 1)).length ≤ l.length := by
  have := congrArg length h
  rw [length_drop, length_cons] at this
  rw [length_drop]
  omega

end

section

variable {n fuel pos : ℕ} {failed : List (Bytes × ParseError)}

theorem parseLines_range (hn : (buf.drop pos).length ≤ n) (hfuel : n < fuel)
    (hfits : ∀ line ∈ (linesFrom n (buf.drop pos)).filterMap strip, Fits line) :
    Yields (parseLines buf fuel pos failed pp) fun _ => True := by
  induction n generalizing fuel pos failed pp with
  | zero =>
    obtain ⟨fuel, rfl⟩ : ∃ k, fuel = k + 1 := ⟨fuel - 1, by omega⟩
    have hpos := drop_eq_nil_iff.mp (length_eq_zero_iff.mp (le_zero.mp hn))
    rw [parseLines, if_neg (by omega)]
    exact .ok trivial
  | succ n ih =>
    obtain ⟨fuel, rfl⟩ : ∃ k, fuel = k + 1 := ⟨fuel - 1, by omega⟩
    rw [parseLines]
    refine .ite (fun hgo => ?_) fun _ => .ok trivial
    cases hrest : buf.drop pos with
    | nil =>
      have := drop_eq_nil_iff.mp hrest
      omega
    | cons c l =>
      obtain ⟨hline, hnext⟩ := next_line hrest
      have hlen := length_next_line hrest
      rw [hrest, length_cons] at hn
      rw [hrest, linesFrom, ← hnext, filterMap_cons] at hfits
      rw [hline, ok_bind]
      dsimp only
      rw [stripLine_eq, ok_bind]
      generalize (cutLine false .init (c :: l)).1 = block at *
      cases hstrip : strip block with
      | none =>
        rw [hstrip] at hfits
        exact ih (by omega) (by omega) hfits
      | some line =>
        rw [hstrip] at hfits
        have hrest := (forall_mem_cons.mp hfits).2
        refine (parsePointsAppend_range pp (skipWhitespace_strip hstrip) (zero_le _)
          (hfits line mem_cons_self)).bind fun res _ => ?_
        match res with
        | (none, pp') => exact ih (by omega) (by omega) hrest
        | (some .limit, pp') => exact .ok trivial
        | (some (.invalid err), pp') =>
          simp only []
          cases pp'.checkAlloc 1 line.length with
          | mk fits pp'' =>
            cases fits with
            | false => exact .ok trivial
            | true => exact ih (by omega) (by omega) hrest

/-- Without limits, the parser comes to every line. -/
theorem parseLines_full (hpp : pp.Unlimited) {line : Bytes}
    (hmem : line ∈ (linesFrom n (buf.drop pos)).filterMap strip) (hfull : ¬ Fits line) :
    Returns (parseLines buf fuel pos failed pp) fun _ => False := by
  induction n generalizing fuel pos failed pp with
  | zero => exact absurd hmem not_mem_nil
  | succ n ih =>
    cases fuel with
    | zero => exact nofun
    | succ fuel =>
      cases hrest : buf.drop pos with
      | nil => rw [hrest] at hmem; exact absurd hmem not_mem_nil
      | cons c l =>
        obtain ⟨hline, hnext⟩ := next_line hrest
        rw [hrest, linesFrom, ← hnext, filterMap_cons] at hmem
        rw [parseLines, if_pos ⟨lt_length_of_drop hrest, hpp.state⟩, hline, ok_bind]
        dsimp only
        rw [stripLine_eq, ok_bind]
        generalize (cutLine false .init (c :: l)).1 = block at *
        cases hstrip : strip block with
        | none =>
          rw [hstrip] at hmem
          exact ih hpp hmem
        | some line' =>
          rw [hstrip] at hmem
          rcases mem_cons.mp hmem with rfl | hmem
          · -- the tags of this line fill the array
            simp only [Fits, not_forall, not_not] at hfull
            obtain ⟨m, tags, r, htext, hcap⟩ := hfull
            dsimp only
            rw [parsePointsAppend_full pp (skipWhitespace_strip hstrip) htext hcap]
            exact nofun
          · refine .bind fun res hres => ?_
            obtain ⟨hlimit, hpp'⟩ := hpp.parsePointsAppend line' res hres
            match res with
            | (none, pp') => exact ih hpp' hmem
            | (some .limit, pp') => exact absurd rfl hlimit
            | (some (.invalid err), pp') =>
              obtain ⟨pp'', halloc, hpp''⟩ := Unlimited.checkAlloc hpp' 1 line'.length
              dsimp only
              rw [halloc]
              exact ih hpp'' hmem

end

/-- The options of `ParsePoints` set no limits. -/
def noLimits : ParserOptions := { maxLines := 0, maxBytes := 0, maxValues := 0, defaultTime := 0, precision := .ns }

/-- The parser stays in range and ends on a text, for all buckets and options, exactly if no line of the text has
100, 200, 400, ... tags. -/
theorem parsePoints_in_range_iff (parseFloat : ParseFloat) (buf : Bytes) :
    (∀ mm options, ∃ res, (newPointsParser parseFloat mm options).parsePoints buf = .ok res) ↔
      ∀ line ∈ lineTexts buf, ∀ m tags r, KeyText line m tags r → ¬ ∃ k, tags.length = 100 * 2 ^ k := by
  constructor
  · intro h line hline
    by_contra hfull
    obtain ⟨res, hres⟩ := h [] noLimits
    have hpp : (newPointsParser parseFloat [] noLimits).Unlimited := ⟨le_rfl, le_rfl, rfl⟩
    obtain ⟨pp', halloc, hpp'⟩ := hpp.checkAlloc (buf.count newline + 1) pointInterfaceSize
    rw [parsePoints, if_neg (fun h => absurd h.1 (lt_irrefl _)), halloc] at hres
    obtain ⟨res', hlines, -⟩ := bind_eq_ok.mp hres
    exact parseLines_full hpp' hline hfull res' hlines
  · intro h mm options
    have h : ∀ line ∈ (linesFrom buf.length (buf.drop 0)).filterMap strip, Fits line := h
    suffices hyields : Yields ((newPointsParser parseFloat mm options).parsePoints buf) fun _ => True by
      obtain ⟨res, hres, -⟩ := hyields
      exact ⟨res, hres⟩
    rw [parsePoints]
    refine .ite (fun _ => .ok trivial) fun _ => ?_
    cases (newPointsParser parseFloat mm options).checkAlloc (buf.count newline + 1) pointInterfaceSize with
    | mk fits pp' =>
      cases fits with
      | false => exact .ok trivial
      | true =>
        refine (parseLines_range (by rw [drop_zero]) (lt_succ_self _) h).bind fun res _ => ?_
        obtain ⟨failed, pp''⟩ := res
        dsimp only
        cases pp''.state with
        | bytesLimit | valueLimit => exact .ok trivial
        | ok => exact .ite (fun _ => .ok trivial) fun _ => .ok trivial

/-- A line with a hundred tags. -/
def hundredTags : Bytes := [109] ++ tagsText (replicate 100 ([116], [118])) ++ [32, 102, 61, 49]

theorem hundredTags_out_of_range :
    (newPointsParser (fun _ => none) [98] noLimits).parsePoints hundredTags = .error .outOfRange := by
  have hline : scanLine hundredTags 0 = .ok (hundredTags.length, hundredTags) := by
    rw [scanLine_eq (zero_le _)]
    decide +kernel
  have hstrip : strip hundredTags = some hundredTags := by decide +kernel
  have htext : KeyText (hundredTags.drop 0) [109] (replicate 100 ([116], [118])) [102, 61, 49] :=
    { eq := append_assoc _ _ _
      measurement := by decide
      first := by decide
      tags := fun t ht => by rw [eq_of_mem_replicate ht]; decide }
  have hpp : (newPointsParser (fun _ => none) [98] noLimits).Unlimited := ⟨le_rfl, le_rfl, rfl⟩
  obtain ⟨pp, halloc, hpp'⟩ := hpp.checkAlloc (hundredTags.count newline + 1) pointInterfaceSize
  rw [parsePoints, if_neg (fun h => absurd h.1 (lt_irrefl _)), halloc]
  dsimp only
  rw [parseLines, if_pos ⟨by decide +kernel, hpp'.state⟩, hline, ok_bind]
  dsimp only
  rw [stripLine_eq, hstrip, ok_bind]
  dsimp only
  rw [parsePointsAppend_full _ (skipWhitespace_strip hstrip) htext ⟨0, length_replicate⟩]
  rfl

end PointsParser

end InfluxDB.Models
