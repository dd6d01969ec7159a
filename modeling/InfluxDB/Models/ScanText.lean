import InfluxDB.Lib.Escape
import InfluxDB.Lib.Fallible
import InfluxDB.Models.ScanFields

/-!
    What the scanners find, said of the text from their position on: they cut it at the first delimiter that
    is not escaped.  A scanner that starts within the buffer stays within it, and ends.
-/

namespace InfluxDB.Models

open Lib Buffer List

/-- Whether a byte is one of the delimiters. -/
def among (stops : List Byte) (c : Byte) : Bool := decide (c ∈ stops)

/-- Cut a text at the first of the delimiters that is not escaped. -/
abbrev cutAt (stops : List Byte) (e : Bool) (l : Bytes) : Bytes × Bytes := upTo backslash (among stops) e l

/-- Whether the byte at a position is escaped. -/
abbrev isEscaped (buf : Bytes) (i : ℕ) : Bool := escapedAt backslash buf i

def isWhitespace (c : Byte) : Bool := decide (c = space ∨ c = tab ∨ c = 0)

variable {stops : List Byte} {c : Byte}

@[simp] theorem among_iff : among stops c = true ↔ c ∈ stops := decide_eq_true_iff

@[simp] theorem among_false_iff : among stops c = false ↔ c ∉ stops := decide_eq_false_iff_not

variable {buf : Bytes} {i : ℕ}

/-- What the scanners see when they look one byte back. -/
theorem getBefore_one (h0 : i ≠ 0) (hi : i ≤ buf.length) :
    ∃ p, getBefore buf i 1 = .ok p ∧ (isEscaped buf i = true ↔ p = backslash) := by
  obtain ⟨p, hp, hp'⟩ := get_eq (b := buf) (i := i - 1) (by omega)
  refine ⟨p, by rw [getBefore_eq (by omega), hp], ?_⟩
  simp [isEscaped, escapedAt, hp', h0]

theorem fail_eq {α : Type} {start : ℕ} {err : ParseError} (h : start ≤ i) (hi : i ≤ buf.length) :
    fail buf start i err = .ok (.error err : Except ParseError α) := by
  rw [fail, slice_eq h hi]
  rfl

/-! ### Blocks of bytes -/

theorem skipWhitespace_eq (buf : Bytes) (i : ℕ) :
    skipWhitespace buf i = .ok (i + ((buf.drop i).takeWhile isWhitespace).length) := by
  have hskip : ∀ n j d rest, i ≤ j → buf.drop j = d :: rest → isWhitespace d = true →
      skipWhitespaceLoop buf (n + 1) j = skipWhitespaceLoop buf n (j + 1) := by
    intro n j d rest _ hd hw
    rw [isWhitespace, decide_eq_true_eq] at hw
    rw [skipWhitespaceLoop, if_pos (lt_length_of_drop hd), get_drop hd, ok_bind, if_neg (by tauto)]
  obtain ⟨n, j, hj, hn, hend⟩ := loop_takeWhile hskip (Nat.sub_lt_succ _ _)
  rw [skipWhitespace, hn, ← hj, skipWhitespaceLoop]
  rcases hend with hnil | ⟨d, rest, hd, hw⟩
  · rw [drop_eq_nil_iff] at hnil
    exact if_neg (by omega)
  · rw [isWhitespace, decide_eq_false_iff_not] at hw
    rw [if_pos (lt_length_of_drop hd), get_drop hd, ok_bind, if_pos (by tauto)]
    rfl

theorem scanTo_eq {stop : Byte} (hi : i ≤ buf.length) :
    scanTo buf i stop = .ok (i + (cutAt [stop] (isEscaped buf i) (buf.drop i)).1.length,
      (cutAt [stop] (isEscaped buf i) (buf.drop i)).1) := by
  have hskip : ∀ n j d rest, i ≤ j → buf.drop j = d :: rest →
      (isEscaped buf j = true ∨ among [stop] d = false) →
      scanToLoop buf stop (n + 1) j = scanToLoop buf stop n (j + 1) := by
    intro n j d rest _ hd hcase
    have hlt := lt_length_of_drop hd
    rw [scanToLoop, if_neg (by omega), get_drop hd, ok_bind]
    by_cases hds : d = stop
    · have hesc : isEscaped buf j = true := by simpa [hds] using hcase
      have h0 : j ≠ 0 := by
        rintro rfl
        exact absurd hesc Bool.false_ne_true
      obtain ⟨p, hp, hp'⟩ := getBefore_one h0 (le_of_lt hlt)
      rw [if_pos hds, if_neg h0, hp, ok_bind, if_neg (not_not.mpr (hp'.mp hesc))]
    · rw [if_neg hds]
  obtain ⟨n, j, hj, hn, hend⟩ := loop_upTo hskip (Nat.sub_lt_succ _ _)
  have hstop : scanToLoop buf stop (n + 1) j = .ok j := by
    rw [scanToLoop]
    rcases hend with hnil | ⟨d, rest, hd, hds, hesc⟩
    · exact if_pos (drop_eq_nil_iff.mp hnil)
    · have hlt := lt_length_of_drop hd
      rw [among_iff, mem_singleton] at hds
      rw [if_neg (by omega), get_drop hd, ok_bind, if_pos hds]
      split_ifs with h0
      · rfl
      · obtain ⟨p, hp, hp'⟩ := getBefore_one h0 (le_of_lt hlt)
        rw [hp, ok_bind, if_pos (fun h => Bool.false_ne_true (hesc.symm.trans (hp'.mpr h)))]
        rfl
  rw [scanTo, hn, hstop, ok_bind, hj, slice_drop (upTo_append _ _).symm hi]
  rfl

/-! ### The sections of a key -/

/-- A text in which all delimiters but for the first byte are escaped, and that does not escape what follows. -/
abbrev isText (stops : List Byte) (l : Bytes) : Bool := isBlock backslash (among stops) l

variable {p d : Byte} {rest : Bytes} {n : ℕ}

/-- What a loop sees that has moved from a byte to the one behind it. -/
theorem look_behind (h : buf.drop i = p :: d :: rest) :
    i + 1 < buf.length ∧ getBefore buf (i + 1) 1 = .ok p ∧ get buf (i + 1) = .ok d :=
  ⟨lt_length_of_drop (drop_succ h), by rw [getBefore_eq (by omega), Nat.add_sub_cancel, get_drop h],
    get_drop (drop_succ h)⟩

theorem length_of_drop_singleton (h : buf.drop i = [p]) : i + 1 = buf.length := by
  have := length_of_drop h (le_of_lt (lt_length_of_drop h))
  rw [this, length_singleton]

theorem scanMeasurementLoop_skip (h : buf.drop i = p :: d :: rest)
    (hcase : p = backslash ∨ among [comma, space] d = false) :
    scanMeasurementLoop buf (n + 1) i = scanMeasurementLoop buf n (i + 1) := by
  obtain ⟨hlt, hp, hd⟩ := look_behind h
  rw [scanMeasurementLoop, if_neg (by omega), hp, ok_bind]
  split_ifs with hb
  · rfl
  · obtain ⟨hcomma, hspace⟩ : d ≠ comma ∧ d ≠ space := by simpa [hb] using hcase
    rw [hd, ok_bind, if_neg hcomma, if_neg hspace]

variable {d : Byte} {m k v r : Bytes}

theorem scanMeasurement_eq (h : buf.drop i = m ++ d :: r) (hm : isText [comma, space] m = true)
    (hfirst : m.head? ≠ some comma) (hd : d ∈ [comma, space]) :
    scanMeasurement buf i =
      .ok (if d = comma then (.ok .tagKey, i + m.length + 1) else (.ok .fields, i + m.length)) := by
  obtain ⟨c, l, rfl⟩ := exists_cons_of_ne_nil (ne_nil_of_isBlock hm)
  have hc : c ≠ comma := fun hc => hfirst (by rw [hc]; rfl)
  obtain ⟨n, j, p, hj, hn, hp, hb⟩ := loop_block (fun n j p d rest => scanMeasurementLoop_skip) h hm
    (Nat.sub_lt_succ _ _)
  obtain ⟨hjlt, hbefore, hget⟩ := look_behind hp
  rw [scanMeasurement, if_neg (by omega), get_drop h, ok_bind, if_neg hc, hn, scanMeasurementLoop, if_neg (by omega),
    hbefore, ok_bind, if_neg hb, hget, ok_bind, ← hj]
  split_ifs with hcomma hspace
  · rfl
  · rfl
  · exact absurd hd (by simp [hcomma, hspace])

/-- A measurement that nothing follows. -/
theorem scanMeasurement_no_block {l : Bytes} (h : buf.drop i = c :: l) (hc : c ≠ comma)
    (hl : plain backslash (among [comma, space]) (decide (c = backslash)) l = true) :
    scanMeasurement buf i = .ok (.error .missingFields, buf.length) := by
  have hlt := lt_length_of_drop h
  obtain ⟨n, j, p, -, hn, hp, -⟩ :=
    loop_plain (fun n j p d rest => scanMeasurementLoop_skip) (by rwa [append_nil]) hl
    (Nat.sub_lt_succ _ _)
  rw [scanMeasurement, if_neg (by omega), get_drop h, ok_bind, if_neg hc, hn, scanMeasurementLoop,
    if_pos (by rw [length_of_drop_singleton hp]), length_of_drop_singleton hp]
  rfl

theorem scanMeasurement_cases (hi : i ≤ buf.length) :
    (∃ err j, scanMeasurement buf i = .ok (.error err, j) ∧ i ≤ j ∧ j ≤ buf.length) ∨
      ∃ m d r, buf.drop i = m ++ d :: r ∧ isText [comma, space] m = true ∧ m.head? ≠ some comma ∧
        d ∈ [comma, space] := by
  cases htext : buf.drop i with
  | nil =>
    left
    exact ⟨_, i, by rw [scanMeasurement, if_pos (drop_eq_nil_iff.mp htext)]; rfl, le_rfl, hi⟩
  | cons c l =>
    have hlt := lt_length_of_drop htext
    by_cases hc : c = comma
    · left
      exact ⟨_, i, by rw [scanMeasurement, if_neg (by omega), get_drop htext, ok_bind, if_pos hc]; rfl, le_rfl, hi⟩
    · rcases block_cases backslash (among [comma, space]) c l with ⟨s, d, r, rfl, hblock, hd⟩ | hplain
      · exact .inr ⟨c :: s, d, r, rfl, hblock, by simpa using hc, among_iff.mp hd⟩
      · exact .inl ⟨_, _, scanMeasurement_no_block htext hc hplain, hi, le_rfl⟩

theorem scanTagsKeyLoop_skip (h : buf.drop i = p :: d :: rest)
    (hcase : p = backslash ∨ among [comma, space, equals] d = false) :
    scanTagsKeyLoop buf (n + 1) i = scanTagsKeyLoop buf n (i + 1) := by
  obtain ⟨hlt, hp, hd⟩ := look_behind h
  rw [scanTagsKeyLoop, if_neg (by omega), hd, ok_bind, hp, ok_bind]
  rcases hcase with rfl | hstop
  · rw [if_neg (by simp), if_neg (by simp)]
  · obtain ⟨hcomma, hspace, hequals⟩ : d ≠ comma ∧ d ≠ space ∧ d ≠ equals := by simpa using hstop
    rw [if_neg (by tauto), if_neg (by tauto)]

/-- A tag key is a text whose first byte is no delimiter either. -/
def isTagKey (k : Bytes) : Bool := isText [comma, space, equals] k && !k.head?.any (among [comma, space, equals])

/-- A tag value may start with an equals sign. -/
def isTagValue (v : Bytes) : Bool := isText [comma, space, equals] v && !v.head?.any (among [comma, space])

theorem scanTagsKey_eq (h : buf.drop i = k ++ equals :: r) (hk : isTagKey k = true) :
    scanTagsKey buf i = .ok (.ok (i + k.length + 1)) := by
  rw [isTagKey, Bool.and_eq_true] at hk
  obtain ⟨hk, hfirst⟩ := hk
  obtain ⟨c, l, rfl⟩ := exists_cons_of_ne_nil (ne_nil_of_isBlock hk)
  have hc : ¬ (c = space ∨ c = comma ∨ c = equals) := by
    simp at hfirst
    tauto
  obtain ⟨n, j, p, hj, hn, hp, hb⟩ := loop_block (fun n j p d rest => scanTagsKeyLoop_skip) h hk
    (Nat.sub_lt_succ _ _)
  obtain ⟨hjlt, hbefore, hget⟩ := look_behind hp
  rw [scanTagsKey, if_neg (by omega), get_drop h, ok_bind, if_neg hc, hn, scanTagsKeyLoop, if_neg (by omega),
    hget, ok_bind, hbefore, ok_bind, if_neg (fun h => absurd h.1 (by decide)), if_pos ⟨rfl, hb⟩, ← hj]
  rfl

theorem scanTagsKey_cases (hi : i ≤ buf.length) :
    (∃ err j, scanTagsKey buf i = .ok (.error (err, j)) ∧ i ≤ j ∧ j ≤ buf.length) ∨
      ∃ k r, buf.drop i = k ++ equals :: r ∧ isTagKey k = true := by
  cases htext : buf.drop i with
  | nil =>
    left
    exact ⟨_, i, by rw [scanTagsKey, if_pos (drop_eq_nil_iff.mp htext)]; rfl, le_rfl, hi⟩
  | cons c l =>
    have hlt := lt_length_of_drop htext
    by_cases hc : c = space ∨ c = comma ∨ c = equals
    · left
      exact ⟨_, i, by rw [scanTagsKey, if_neg (by omega), get_drop htext, ok_bind, if_pos hc]; rfl, le_rfl, hi⟩
    · have hstart : scanTagsKey buf i = scanTagsKeyLoop buf (buf.length + 1) i := by
        rw [scanTagsKey, if_neg (by omega), get_drop htext, ok_bind, if_neg hc]
      have hfuel : buf.length - i < buf.length + 1 := by omega
      rcases block_cases backslash (among [comma, space, equals]) c l with ⟨s, d, r, rfl, hblock, hd⟩ | hplain
      · by_cases hequals : d = equals
        · subst hequals
          refine .inr ⟨c :: s, r, rfl, ?_⟩
          rw [isTagKey, isText, hblock]
          simp
          tauto
        · left
          obtain ⟨n, j, p, hj, hn, hp, hb⟩ :=
            loop_block (fun n j p d rest => scanTagsKeyLoop_skip) htext hblock hfuel
          obtain ⟨hjlt, hbefore, hget⟩ := look_behind hp
          have hd' : d = space ∨ d = comma := by
            simp only [among_iff, mem_cons, not_mem_nil, or_false] at hd
            tauto
          refine ⟨.missingTagValue, j + 1, ?_, by omega, by omega⟩
          rw [hstart, hn, scanTagsKeyLoop, if_neg (by omega), hget, ok_bind, hbefore, ok_bind, if_pos ⟨hd', hb⟩]
          rfl
      · left
        obtain ⟨n, j, p, -, hn, hp, -⟩ :=
          loop_plain (fun n j p d rest => scanTagsKeyLoop_skip) (by rwa [append_nil]) hplain hfuel
        have hj := length_of_drop_singleton hp
        refine ⟨.missingTagValue, j + 1, ?_, by omega, by omega⟩
        rw [hstart, hn, scanTagsKeyLoop, if_pos (by omega)]
        rfl

theorem scanTagsValueLoop_skip (h : buf.drop i = p :: d :: rest)
    (hcase : p = backslash ∨ among [comma, space, equals] d = false) :
    scanTagsValueLoop buf (n + 1) i = scanTagsValueLoop buf n (i + 1) := by
  obtain ⟨hlt, hp, hd⟩ := look_behind h
  rw [scanTagsValueLoop, if_neg (by omega), hd, ok_bind, hp, ok_bind]
  rcases hcase with rfl | hstop
  · rw [if_neg (by simp), if_neg (by simp), if_neg (by simp)]
  · obtain ⟨hcomma, hspace, hequals⟩ : d ≠ comma ∧ d ≠ space ∧ d ≠ equals := by simpa using hstop
    rw [if_neg (by tauto), if_neg (by tauto), if_neg (by tauto)]

theorem scanTagsValue_eq (h : buf.drop i = v ++ d :: r) (hv : isTagValue v = true) (hd : d ∈ [comma, space]) :
    scanTagsValue buf i = .ok (.ok (if d = comma then (.tagKey, i + v.length + 1) else (.fields, i + v.length))) := by
  rw [isTagValue, Bool.and_eq_true] at hv
  obtain ⟨hv, hfirst⟩ := hv
  obtain ⟨c, l, rfl⟩ := exists_cons_of_ne_nil (ne_nil_of_isBlock hv)
  have hc : ¬ (c = comma ∨ c = space) := by
    simp at hfirst
    tauto
  have hequals : d ≠ equals := by
    rintro rfl
    exact absurd hd (by decide)
  obtain ⟨n, j, p, hj, hn, hp, hb⟩ := loop_block (fun n j p d rest => scanTagsValueLoop_skip) h hv
    (Nat.sub_lt_succ _ _)
  obtain ⟨hjlt, hbefore, hget⟩ := look_behind hp
  rw [scanTagsValue, if_neg (by omega), get_drop h, ok_bind, if_neg hc, hn, scanTagsValueLoop, if_neg (by omega),
    hget, ok_bind, hbefore, ok_bind, if_neg (by tauto), ← hj]
  by_cases hcomma : d = comma
  · rw [if_pos ⟨hcomma, hb⟩, if_pos hcomma]
    rfl
  · have hspace : d = space := by simpa [hcomma] using hd
    rw [if_neg (by tauto), if_pos ⟨hspace, hb⟩, if_neg hcomma]
    rfl

theorem scanTagsValue_cases (hi : i ≤ buf.length) :
    (∃ err j, scanTagsValue buf i = .ok (.error (err, j)) ∧ i ≤ j ∧ j ≤ buf.length) ∨
      ∃ v d r, buf.drop i = v ++ d :: r ∧ isTagValue v = true ∧ d ∈ [comma, space] := by
  cases htext : buf.drop i with
  | nil =>
    left
    exact ⟨_, i, by rw [scanTagsValue, if_pos (drop_eq_nil_iff.mp htext)]; rfl, le_rfl, hi⟩
  | cons c l =>
    have hlt := lt_length_of_drop htext
    by_cases hc : c = comma ∨ c = space
    · left
      exact ⟨_, i, by rw [scanTagsValue, if_neg (by omega), get_drop htext, ok_bind, if_pos hc]; rfl, le_rfl, hi⟩
    · have hstart : scanTagsValue buf i = scanTagsValueLoop buf (buf.length + 1) i := by
        rw [scanTagsValue, if_neg (by omega), get_drop htext, ok_bind, if_neg hc]
      have hfuel : buf.length - i < buf.length + 1 := by omega
      rcases block_cases backslash (among [comma, space, equals]) c l with ⟨s, d, r, rfl, hblock, hd⟩ | hplain
      · by_cases hequals : d = equals
        · left
          obtain ⟨n, j, p, hj, hn, hp, hb⟩ :=
            loop_block (fun n j p d rest => scanTagsValueLoop_skip) htext hblock hfuel
          obtain ⟨hjlt, hbefore, hget⟩ := look_behind hp
          refine ⟨.invalidTagFormat, j + 1, ?_, by omega, by omega⟩
          rw [hstart, hn, scanTagsValueLoop, if_neg (by omega), hget, ok_bind, hbefore,
            ok_bind, if_pos ⟨hequals, hb⟩]
          rfl
        · have hd' : d ∈ [comma, space] := by
            simp only [among_iff, mem_cons, not_mem_nil, or_false] at hd ⊢
            tauto
          refine .inr ⟨c :: s, d, r, rfl, ?_, hd'⟩
          rw [isTagValue, isText, hblock]
          simp
          tauto
      · left
        obtain ⟨n, j, p, -, hn, hp, -⟩ :=
          loop_plain (fun n j p d rest => scanTagsValueLoop_skip) (by rwa [append_nil]) hplain hfuel
        have hj := length_of_drop_singleton hp
        refine ⟨.missingFields, j + 1, ?_, by omega, by omega⟩
        rw [hstart, hn, scanTagsValueLoop, if_pos (by omega)]
        rfl

/-! ### Tags -/

/-- A tag as it is written. -/
def tagText (t : Bytes × Bytes) : Bytes := t.1 ++ equals :: t.2

def isTag (t : Bytes × Bytes) : Bool := isTagKey t.1 && isTagValue t.2

/-- The tags of a key as they are written. -/
def tagsText (tags : List (Bytes × Bytes)) : Bytes := tags.flatMap fun t => comma :: tagText t

theorem tagsText_cons (t : Bytes × Bytes) (ts : List (Bytes × Bytes)) :
    tagsText (t :: ts) = comma :: (tagText t ++ tagsText ts) := rfl

theorem isTagKey_iff : isTagKey k = true ↔
    isText [comma, space, equals] k = true ∧ ∀ c, k.head? = some c → c ∉ [comma, space, equals] := by
  rw [isTagKey, Bool.and_eq_true]
  cases k <;> simp

theorem isTagValue_iff : isTagValue v = true ↔
    isText [comma, space, equals] v = true ∧ ∀ c, v.head? = some c → c ∉ [comma, space] := by
  rw [isTagValue, Bool.and_eq_true]
  cases v <;> simp

variable {e : Bool}

theorem plain_of_isTagKey (hstops : stops ⊆ [comma, space, equals]) (hk : isTagKey k = true) :
    plain backslash (among stops) e k = true := by
  obtain ⟨hk, hfirst⟩ := isTagKey_iff.mp hk
  exact plain_of_isBlock (fun a ha => among_iff.mpr (hstops (among_iff.mp ha))) hk
    fun c hc => among_false_iff.mpr fun h => hfirst c hc (hstops h)

theorem plain_of_isTagValue (hstops : stops ⊆ [comma, space]) (hv : isTagValue v = true) :
    plain backslash (among stops) e v = true := by
  obtain ⟨hv, hfirst⟩ := isTagValue_iff.mp hv
  exact plain_of_isBlock (fun a ha => among_iff.mpr (mem_append_left [equals] (hstops (among_iff.mp ha)))) hv
    fun c hc => among_false_iff.mpr fun h => hfirst c hc (hstops h)

theorem endsEscaped_of_isTagKey (hk : isTagKey k = true) : endsEscaped backslash e k = false :=
  endsEscaped_of_isBlock (isTagKey_iff.mp hk).1

theorem endsEscaped_of_isTagValue (hv : isTagValue v = true) : endsEscaped backslash e v = false :=
  endsEscaped_of_isBlock (isTagValue_iff.mp hv).1

/-- The key of a tag is found whatever stands in front of it. -/
theorem scanTo_tagKey (h : buf.drop i = k ++ equals :: r) (hk : isTagKey k = true) :
    scanTo buf i equals = .ok (i + k.length, k) := by
  obtain ⟨c, l, rfl⟩ := exists_cons_of_ne_nil (ne_nil_of_isBlock (isTagKey_iff.mp hk).1)
  rw [scanTo_eq (le_of_lt (lt_length_of_drop h)), h, cutAt,
    upTo_of_plain (plain_of_isTagKey (by simp) hk) (endsEscaped_of_isTagKey hk) (among_iff.mpr (mem_singleton_self _))]

variable {t : Bytes × Bytes}

theorem isTag_iff : isTag t = true ↔ isTagKey t.1 = true ∧ isTagValue t.2 = true := by rw [isTag, Bool.and_eq_true]

theorem plain_tagText (ht : isTag t = true) : plain backslash (among [comma, space]) e (tagText t) = true := by
  obtain ⟨hk, hv⟩ := isTag_iff.mp ht
  have hequals : among [comma, space] equals = false := by decide
  rw [tagText, plain_append, plain_of_isTagKey (by simp) hk, plain, plain_of_isTagValue (by simp) hv, hequals]
  simp

theorem endsEscaped_tagText (ht : isTag t = true) : endsEscaped backslash e (tagText t) = false := by
  rw [tagText, endsEscaped_append, endsEscaped]
  exact endsEscaped_of_isTagValue (isTag_iff.mp ht).2

theorem isText_tagText (ht : isTag t = true) : isText [comma, space] (tagText t) = true := by
  have hplain := plain_tagText (e := false) ht
  have hend := endsEscaped_tagText (e := false) ht
  cases htext : tagText t with
  | nil => exact absurd htext (by simp [tagText])
  | cons c l =>
    rw [htext, plain, Bool.and_eq_true] at hplain
    rw [htext] at hend
    exact isBlock_cons.mpr ⟨hplain.2, hend⟩

theorem scanToSpaceOrLoop_skip (h : buf.drop i = p :: d :: rest)
    (hcase : p = backslash ∨ among [comma, space] d = false) :
    scanToSpaceOrLoop buf comma (n + 1) i = scanToSpaceOrLoop buf comma n (i + 1) := by
  obtain ⟨hlt, hp, hd⟩ := look_behind h
  rw [scanToSpaceOrLoop, hp, ok_bind]
  split_ifs with hb hge
  · rfl
  · omega
  · obtain ⟨hcomma, hspace⟩ : d ≠ comma ∧ d ≠ space := by simpa [hb] using hcase
    rw [hd, ok_bind, if_neg (by tauto)]

/-- A tag that a comma or a space follows is copied as it is. -/
theorem scanToSpaceOr_tag (h : buf.drop i = tagText t ++ d :: r) (ht : isTag t = true) (hd : d ∈ [comma, space]) :
    scanToSpaceOr buf i comma = .ok (i + (tagText t).length, tagText t) := by
  obtain ⟨n, j, p, hj, hn, hp, hb⟩ := loop_block (fun n j p d rest => scanToSpaceOrLoop_skip) h (isText_tagText ht)
    (Nat.sub_lt_succ _ _)
  obtain ⟨hjlt, hbefore, hget⟩ := look_behind hp
  have hloop : scanToSpaceOrLoop buf comma (buf.length + 1) i = .ok (i + (tagText t).length) := by
    rw [hn, scanToSpaceOrLoop, hbefore, ok_bind, if_neg hb, if_neg (by omega), hget, ok_bind,
      if_pos (by simpa using hd), hj]
    rfl
  have hslice := slice_drop h (by omega)
  cases htext : tagText t with
  | nil => exact absurd htext (by simp [tagText])
  | cons c l =>
    have hc : ¬ (c = comma ∨ c = space) := by
      have hplain := plain_tagText (e := false) ht
      rw [htext, plain, Bool.and_eq_true] at hplain
      simpa using hplain.1
    rw [htext] at h hloop hslice
    rw [scanToSpaceOr, get_drop h, ok_bind, if_neg hc, hloop, ok_bind]
    simp only [hslice, ok_bind]
    rfl

end InfluxDB.Models
