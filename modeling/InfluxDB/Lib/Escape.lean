import InfluxDB.Lib.Buffer

/-!
    Text with an escape symbol.  A symbol counts as escaped when the symbol in front of it is the escape
    symbol, whatever stands before that.  A text is cut at the first symbol of a set that is not escaped, and
    escape symbols in front of symbols of a set can be added to all of them or taken away.
-/

namespace InfluxDB.Lib

open List Bool Buffer

variable {α : Type*} [DecidableEq α]

/-! ### Cutting a text -/

/-- Whether the symbol at a position is escaped. -/
def escapedAt (esc : α) (l : List α) (i : ℕ) : Bool := decide (i ≠ 0) && decide (l[i - 1]? = some esc)

/-- Whether a symbol behind a text is escaped; `e` says so of the first symbol of the text. -/
def endsEscaped (esc : α) (e : Bool) : List α → Bool
  | [] => e
  | a :: l => endsEscaped esc (decide (a = esc)) l

/-- Whether all stops of a text are escaped; `e` says whether its first symbol is. -/
def plain (esc : α) (stop : α → Bool) : Bool → List α → Bool
  | _, [] => true
  | e, a :: l => (e || !stop a) && plain esc stop (decide (a = esc)) l

/-- The text in front of the first stop that is not escaped, and the text from there on. -/
def upTo (esc : α) (stop : α → Bool) : Bool → List α → List α × List α
  | _, [] => ([], [])
  | e, a :: l =>
    if !e && stop a then ([], a :: l)
    else (a :: (upTo esc stop (decide (a = esc)) l).1, (upTo esc stop (decide (a = esc)) l).2)

variable {esc a : α} {stop : α → Bool} {e : Bool} {l r : List α}

theorem upTo_append (e : Bool) (l : List α) : (upTo esc stop e l).1 ++ (upTo esc stop e l).2 = l := by
  induction l generalizing e with
  | nil => rfl
  | cons a l ih =>
    rw [upTo]
    split_ifs
    · rfl
    · rw [cons_append, ih]

theorem plain_upTo (e : Bool) (l : List α) : plain esc stop e (upTo esc stop e l).1 = true := by
  induction l generalizing e with
  | nil => rfl
  | cons a l ih =>
    rw [upTo]
    split_ifs with h
    · rfl
    · rw [plain, ih, Bool.and_true]
      cases e <;> simp_all

/-- A cut ends at a stop that is not escaped, or at the end of the text. -/
theorem upTo_behind (e : Bool) (l : List α) :
    (upTo esc stop e l).2 = [] ∨
      ∃ a r, (upTo esc stop e l).2 = a :: r ∧ stop a = true ∧
        endsEscaped esc e (upTo esc stop e l).1 = false := by
  induction l generalizing e with
  | nil => exact .inl rfl
  | cons a l ih =>
    rw [upTo]
    split_ifs with h
    · rw [and_eq_true, not_eq_true'] at h
      exact .inr ⟨a, l, rfl, h.2, h.1⟩
    · exact ih _

theorem upTo_append_of_plain (h : plain esc stop e l = true) (r : List α) :
    upTo esc stop e (l ++ r) = (l ++ (upTo esc stop (endsEscaped esc e l) r).1,
      (upTo esc stop (endsEscaped esc e l) r).2) := by
  induction l generalizing e with
  | nil => rfl
  | cons c l ih =>
    rw [plain, and_eq_true] at h
    have hc : (!e && stop c) = false := by
      cases e <;> simp_all
    rw [cons_append, upTo, hc, if_neg Bool.false_ne_true, ih h.2]
    rfl

theorem upTo_of_plain (h : plain esc stop e l = true) (hend : endsEscaped esc e l = false) (ha : stop a = true) :
    upTo esc stop e (l ++ a :: r) = (l, a :: r) := by
  rw [upTo_append_of_plain h, hend, upTo, ha]
  simp

theorem upTo_plain (h : plain esc stop e l = true) : upTo esc stop e l = (l, []) := by
  simpa [upTo] using upTo_append_of_plain h []

theorem plain_append : plain esc stop e (l ++ r) = (plain esc stop e l && plain esc stop (endsEscaped esc e l) r) := by
  induction l generalizing e with
  | nil => rfl
  | cons c l ih => rw [cons_append, plain, plain, ih, Bool.and_assoc, endsEscaped]

theorem endsEscaped_append : endsEscaped esc e (l ++ r) = endsEscaped esc (endsEscaped esc e l) r := by
  induction l generalizing e with
  | nil => rfl
  | cons c l ih => exact ih

theorem endsEscaped_eq (h : l ≠ []) : endsEscaped esc e l = decide (l.getLast? = some esc) := by
  induction l generalizing e with
  | nil => exact absurd rfl h
  | cons c l ih =>
    cases l with
    | nil => simp [endsEscaped]
    | cons d l =>
      rw [endsEscaped, ih (cons_ne_nil _ _), getLast?_cons_cons]

/-- A block: a text that is not empty and does not end in the escape symbol, with all stops escaped but for the
first symbol, which can be anything. -/
def isBlock (esc : α) (stop : α → Bool) : List α → Bool
  | [] => false
  | a :: l => plain esc stop (decide (a = esc)) l && !endsEscaped esc (decide (a = esc)) l

theorem isBlock_cons : isBlock esc stop (a :: l) = true ↔
    plain esc stop (decide (a = esc)) l = true ∧ endsEscaped esc (decide (a = esc)) l = false := by
  rw [isBlock, and_eq_true, not_eq_true']

theorem ne_nil_of_isBlock (h : isBlock esc stop l = true) : l ≠ [] := by
  rintro rfl
  cases h

theorem endsEscaped_of_isBlock (h : isBlock esc stop l = true) : endsEscaped esc e l = false := by
  cases l with
  | nil => cases h
  | cons a l => exact (isBlock_cons.mp h).2

/-- A text that is not empty is a block with a stop behind it, or has no stop. -/
theorem block_cases (esc : α) (stop : α → Bool) (a : α) (l : List α) :
    (∃ s d r, l = s ++ d :: r ∧ isBlock esc stop (a :: s) = true ∧ stop d = true) ∨
      plain esc stop (decide (a = esc)) l = true := by
  rcases @upTo_behind _ _ esc stop (decide (a = esc)) l with hnil | ⟨d, r, hr, hd, hend⟩
  · right
    have happ := @upTo_append _ _ esc stop (decide (a = esc)) l
    rw [hnil, append_nil] at happ
    rw [← happ]
    exact plain_upTo _ _
  · refine .inl ⟨(upTo esc stop (decide (a = esc)) l).1, d, r, ?_, isBlock_cons.mpr ⟨plain_upTo _ _, hend⟩, hd⟩
    rw [← hr, upTo_append]

variable {stop' : α → Bool}

/-- Fewer stops leave more texts without one. -/
theorem plain_mono (hstop : ∀ a, stop' a = true → stop a = true)
    (h : plain esc stop e l = true) : plain esc stop' e l = true := by
  induction l generalizing e with
  | nil => rfl
  | cons c l ih =>
    rw [plain, and_eq_true, or_eq_true, not_eq_true'] at h
    rw [plain, ih h.2, Bool.and_true, Bool.or_eq_true, Bool.not_eq_true']
    refine h.1.imp id fun hc => ?_
    by_contra hne
    rw [hstop c (by simpa using hne)] at hc
    cases hc

theorem plain_of_isBlock (hstop : ∀ a, stop' a = true → stop a = true) (h : isBlock esc stop l = true)
    (hfirst : ∀ a, l.head? = some a → stop' a = false) : plain esc stop' e l = true := by
  cases l with
  | nil => rfl
  | cons a l => rw [plain, hfirst a rfl, plain_mono hstop (isBlock_cons.mp h).1, Bool.not_false,
      Bool.or_true, Bool.and_self]

/-! ### Positions

A loop that moves on one position at a time, where the text does not let it stop, runs to the place where the
text is cut. -/

section Positions

variable {b : List α} {i : ℕ}

theorem escapedAt_succ (h : b.drop i = a :: l) : escapedAt esc b (i + 1) = decide (a = esc) := by
  have hget : b[i]? = some a := by rw [← head?_drop, h, head?_cons]
  simp [escapedAt, hget]

theorem escapedAt_zero : escapedAt esc b 0 = false := rfl

variable {ρ : Type*} {loop : ℕ → ℕ → ρ} {fuel : ℕ}

omit [DecidableEq α] in
theorem loop_takeWhile {p : α → Bool}
    (hskip : ∀ n j d rest, i ≤ j → b.drop j = d :: rest → p d = true → loop (n + 1) j = loop n (j + 1))
    (hfuel : b.length - i < fuel) :
    ∃ n j, j = i + ((b.drop i).takeWhile p).length ∧ loop fuel i = loop (n + 1) j ∧
      (b.drop j = [] ∨ ∃ d rest, b.drop j = d :: rest ∧ p d = false) := by
  obtain ⟨rest, hrest⟩ : ∃ rest, b.drop i = rest := ⟨_, rfl⟩
  have hlen : rest.length < fuel := by rwa [← hrest, length_drop]
  clear hfuel
  rw [hrest]
  induction rest generalizing i fuel with
  | nil => exact ⟨fuel - 1, i, rfl, by rw [Nat.sub_add_cancel (by omega)], .inl hrest⟩
  | cons d rest ih =>
    obtain ⟨fuel, rfl⟩ : ∃ n, fuel = n + 1 := ⟨fuel - 1, by omega⟩
    rw [takeWhile_cons]
    split_ifs with hd
    · obtain ⟨n, j, hj, hn, hend⟩ :=
        ih (fun n j d rest hj => hskip n j d rest (by omega)) (drop_succ hrest) (Nat.lt_of_succ_lt_succ hlen)
      refine ⟨n, j, by rw [hj, length_cons]; omega, ?_, hend⟩
      rw [hskip fuel i d rest (Nat.le_refl i) hrest hd, hn]
    · exact ⟨fuel, i, rfl, rfl, .inr ⟨d, rest, hrest, by simpa using hd⟩⟩

theorem loop_upTo (hskip : ∀ n j d rest, i ≤ j → b.drop j = d :: rest →
    (escapedAt esc b j = true ∨ stop d = false) →
      loop (n + 1) j = loop n (j + 1))
    (hfuel : b.length - i < fuel) :
    ∃ n j, j = i + (upTo esc stop (escapedAt esc b i) (b.drop i)).1.length ∧ loop fuel i = loop (n + 1) j ∧
      (b.drop j = [] ∨ ∃ d rest, b.drop j = d :: rest ∧ stop d = true ∧ escapedAt esc b j = false) := by
  obtain ⟨rest, hrest⟩ : ∃ rest, b.drop i = rest := ⟨_, rfl⟩
  have hlen : rest.length < fuel := by rwa [← hrest, length_drop]
  clear hfuel
  rw [hrest]
  induction rest generalizing i fuel with
  | nil => exact ⟨fuel - 1, i, rfl, by rw [Nat.sub_add_cancel (by omega)], .inl hrest⟩
  | cons d rest ih =>
    obtain ⟨fuel, rfl⟩ : ∃ n, fuel = n + 1 := ⟨fuel - 1, by omega⟩
    rw [upTo]
    split_ifs with hd
    · rw [and_eq_true, not_eq_true'] at hd
      exact ⟨fuel, i, rfl, rfl, .inr ⟨d, rest, hrest, hd.2, hd.1⟩⟩
    · have hcase : escapedAt esc b i = true ∨ stop d = false := by
        cases h : escapedAt esc b i <;> simp_all
      obtain ⟨n, j, hj, hn, hend⟩ :=
        ih (fun n j d rest hj => hskip n j d rest (by omega)) (drop_succ hrest) (Nat.lt_of_succ_lt_succ hlen)
      rw [escapedAt_succ hrest] at hj
      refine ⟨n, j, by rw [hj, length_cons]; omega, ?_, hend⟩
      rw [hskip fuel i d rest (Nat.le_refl i) hrest hcase, hn]

variable (hskip : ∀ n j p d rest, b.drop j = p :: d :: rest → (p = esc ∨ stop d = false) →
  loop (n + 1) j = loop n (j + 1))
include hskip

/-- The same for a loop that looks at the symbol behind its position: it runs to the last symbol of a text without
stops. -/
theorem loop_plain (h : b.drop i = a :: (l ++ r)) (hl : plain esc stop (decide (a = esc)) l = true)
    (hfuel : b.length - i < fuel) :
    ∃ n j p, j = i + l.length ∧ loop fuel i = loop (n + 1) j ∧ b.drop j = p :: r ∧
      endsEscaped esc (decide (a = esc)) l = decide (p = esc) := by
  induction l generalizing a i fuel with
  | nil => exact ⟨fuel - 1, i, a, rfl, by rw [Nat.sub_add_cancel (by omega)], h, rfl⟩
  | cons c l ih =>
    obtain ⟨fuel, rfl⟩ : ∃ n, fuel = n + 1 := ⟨fuel - 1, by omega⟩
    have hlt := lt_length_of_drop h
    rw [plain, and_eq_true, or_eq_true, not_eq_true', decide_eq_true_eq] at hl
    obtain ⟨n, j, p, hj, hn, hp⟩ := ih (drop_succ h) hl.2 (show b.length - (i + 1) < fuel by omega)
    refine ⟨n, j, p, by rw [hj, length_cons]; omega, ?_, hp⟩
    rw [hskip fuel i a c (l ++ r) h hl.1, hn]

theorem loop_block {d : α} (h : b.drop i = l ++ d :: r) (hl : isBlock esc stop l = true)
    (hfuel : b.length - i < fuel) :
    ∃ n j p, j + 1 = i + l.length ∧ loop fuel i = loop (n + 1) j ∧ b.drop j = p :: d :: r ∧ p ≠ esc := by
  cases l with
  | nil => cases hl
  | cons c l =>
    obtain ⟨hplain, hend⟩ := isBlock_cons.mp hl
    obtain ⟨n, j, p, hj, hn, hp, hesc⟩ := loop_plain hskip h hplain hfuel
    exact ⟨n, j, p, by rw [hj, length_cons]; omega, hn, hp, of_decide_eq_false (hesc.symm.trans hend)⟩

end Positions

/-! ### Replacing -/

/-- Replace the occurrences of a text, from left to right without overlap; `skip` symbols belong to one. -/
def replaceFrom (old new : List α) : ℕ → List α → List α
  | _, [] => []
  | 0, a :: l =>
    if old.isPrefixOf (a :: l) then new ++ replaceFrom old new (old.length - 1) l else a :: replaceFrom old new 0 l
  | skip + 1, _ :: l => replaceFrom old new skip l

/-- Replace all occurrences of a text that is not empty. -/
def replaceAll (old new l : List α) : List α := replaceFrom old new 0 l

theorem replaceAll_singleton (c : α) (new l : List α) :
    replaceAll [c] new l = l.flatMap fun a => if a = c then new else [a] := by
  induction l with
  | nil => rfl
  | cons a l ih =>
    rw [replaceAll] at ih ⊢
    rw [replaceFrom, flatMap_cons]
    by_cases ha : a = c
    · rw [if_pos ha, if_pos (by simp [ha])]
      exact congrArg (new ++ ·) ih
    · have hpre : ¬[c].isPrefixOf (a :: l) = true := by
        simpa using fun h : c = a => ha h.symm
      rw [if_neg ha, if_neg hpre, ih]
      rfl

/-! ### Escaping -/

/-- An escape symbol in front of every stop. -/
def escape (esc : α) (stop : α → Bool) (l : List α) : List α :=
  l.flatMap fun a => if stop a then [esc, a] else [a]

/-- Escape symbols in front of stops are taken away. -/
def unescape (esc : α) (stop : α → Bool) : List α → List α
  | [] => []
  | [a] => [a]
  | a :: b :: l => if a = esc ∧ stop b = true then unescape esc stop (b :: l) else a :: unescape esc stop (b :: l)

omit [DecidableEq α] in
theorem escape_cons : escape esc stop (a :: l) = (if stop a then [esc, a] else [a]) ++ escape esc stop l := flatMap_cons

omit [DecidableEq α] in
theorem escape_of_forall (h : ∀ a ∈ l, stop a = false) : escape esc stop l = l := by
  induction l with
  | nil => rfl
  | cons a l ih =>
    obtain ⟨ha, hl⟩ := forall_mem_cons.mp h
    rw [escape_cons, ha, ih hl]
    rfl

/-- Behind an escape symbol, an escaped text does not start with a stop. -/
theorem unescape_cons_escape (hesc : stop esc = false) (a : α) (l : List α) :
    unescape esc stop (a :: escape esc stop l) = a :: unescape esc stop (escape esc stop l) := by
  cases l with
  | nil => rfl
  | cons b l =>
    rw [escape_cons]
    by_cases hb : stop b = true
    · rw [if_pos hb, cons_append, unescape, if_neg]
      exact fun h => false_ne_true (hesc.symm.trans h.2)
    · rw [if_neg hb, cons_append, unescape, if_neg]
      exact fun h => hb h.2

theorem unescape_escape (hesc : stop esc = false) (l : List α) : unescape esc stop (escape esc stop l) = l := by
  induction l with
  | nil => rfl
  | cons a l ih =>
    rw [escape_cons]
    by_cases ha : stop a = true
    · rw [if_pos ha, cons_append, cons_append, nil_append, unescape, if_pos ⟨rfl, ha⟩,
        unescape_cons_escape hesc, ih]
    · rw [if_neg ha, cons_append, nil_append, unescape_cons_escape hesc, ih]

theorem unescape_append (h : esc ∉ l) (r : List α) : unescape esc stop (l ++ r) = l ++ unescape esc stop r := by
  induction l with
  | nil => rfl
  | cons a l ih =>
    obtain ⟨ha, hl⟩ := not_or.mp (mem_cons.not.mp h)
    rw [cons_append, cons_append, ← ih hl]
    cases l ++ r with
    | nil => rfl
    | cons b l => rw [unescape, if_neg fun hab => ha hab.1.symm]

theorem unescape_of_notMem (h : esc ∉ l) : unescape esc stop l = l := by
  simpa [unescape] using unescape_append h []

theorem plain_escape (hesc : stop esc = false) (hstop : ∀ a, stop' a = true → stop a = true) (e : Bool) :
    plain esc stop' e (escape esc stop l) = true := by
  have hesc' : stop' esc = false := eq_false_iff.mpr fun h => false_ne_true (hesc.symm.trans (hstop esc h))
  induction l generalizing e with
  | nil => rfl
  | cons a l ih =>
    rw [escape_cons]
    by_cases ha : stop a = true
    · rw [if_pos ha]
      simp [plain, hesc', ih]
    · have ha' : stop' a = false := eq_false_iff.mpr fun h => ha (hstop a h)
      rw [if_neg ha]
      simp [plain, ha', ih]

theorem endsEscaped_escape (h : l.getLast? ≠ some esc) : endsEscaped esc false (escape esc stop l) = false := by
  rcases eq_nil_or_concat l with rfl | ⟨l, a, rfl⟩
  · rfl
  · rw [concat_eq_append] at h ⊢
    have ha : a ≠ esc := fun ha => h (by rw [getLast?_concat, ha])
    rw [escape, flatMap_append, endsEscaped_append, flatMap_singleton]
    by_cases hs : stop a = true
    · rw [if_pos hs]
      simp [endsEscaped, ha]
    · rw [if_neg hs]
      simp [endsEscaped, ha]

end InfluxDB.Lib
