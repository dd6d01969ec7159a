import InfluxDB.Lib.Bytes
import InfluxDB.Tsm.TimeRange

/-! `reader_prefix_tree.go`: time ranges filed under key prefixes.

    A prefix is cut into pieces of eight bytes and then single bytes; `Search` follows every piece of
    the key that has a child. What matters is `count_search_appendAll`: after an `Append`, a search finds
    the new ranges exactly for the keys with that prefix. -/

namespace InfluxDB.Tsm
open Lib List Function

/-- `prefixTree`; a map without a key yields `none`. -/
inductive PrefixTree where
  | node (values : List TimeRange) (short : Byte → Option PrefixTree) (long : Bytes → Option PrefixTree)

namespace PrefixTree

def values : PrefixTree → List TimeRange
  | node vs _ _ => vs

def short : PrefixTree → Byte → Option PrefixTree
  | node _ s _ => s

def long : PrefixTree → Bytes → Option PrefixTree
  | node _ _ l => l

section
variable (vs : List TimeRange) (s : Byte → Option PrefixTree) (l : Bytes → Option PrefixTree)

@[simp] theorem values_node : (node vs s l).values = vs := rfl
@[simp] theorem short_node : (node vs s l).short = s := rfl
@[simp] theorem long_node : (node vs s l).long = l := rfl

end

/-- `newPrefixTree`. -/
def new : PrefixTree := node [] (fun _ => none) (fun _ => none)

def prefixTreeKeySize : ℕ := 8

/-- `Append`. -/
def appendAll (p : PrefixTree) (pre : Bytes) (values : List TimeRange) : PrefixTree :=
  if prefixTreeKeySize ≤ pre.length then
    let lookup := pre.take prefixTreeKeySize
    node p.values p.short (update p.long lookup
      (some (((p.long lookup).getD new).appendAll (pre.drop prefixTreeKeySize) values)))
  else
    match pre with
    | b :: rest => node p.values (update p.short b (some (((p.short b).getD new).appendAll rest values))) p.long
    | [] => node (p.values ++ values) p.short p.long
termination_by pre.length
decreasing_by
  · rw [length_drop]
    unfold prefixTreeKeySize at *
    omega
  · simp

/-- `Append` of one range. -/
def append (p : PrefixTree) (pre : Bytes) (value : TimeRange) : PrefixTree := p.appendAll pre [value]

/-- `Search`. -/
def search (p : PrefixTree) (key : Bytes) (buf : List TimeRange) : List TimeRange :=
  let buf := buf ++ p.values
  let buf :=
    match key with
    | b :: rest =>
      match p.short b with
      | some ch => ch.search rest buf
      | none => buf
    | [] => buf
  if prefixTreeKeySize ≤ key.length then
    match p.long (key.take prefixTreeKeySize) with
    | some ch => ch.search (key.drop prefixTreeKeySize) buf
    | none => buf
  else buf
termination_by key.length
decreasing_by
  · simp
  · rw [length_drop]
    unfold prefixTreeKeySize at *
    omega

/-- `Count`. -/
def count (p : PrefixTree) (key : Bytes) : ℕ :=
  let n := p.values.length
  let n :=
    match key with
    | b :: rest =>
      match p.short b with
      | some ch => n + ch.count rest
      | none => n
    | [] => n
  if prefixTreeKeySize ≤ key.length then
    match p.long (key.take prefixTreeKeySize) with
    | some ch => n + ch.count (key.drop prefixTreeKeySize)
    | none => n
  else n
termination_by key.length
decreasing_by
  · simp
  · rw [length_drop]
    unfold prefixTreeKeySize at *
    omega

/-- `checkOverlap`. -/
def checkOverlap (p : PrefixTree) (key : Bytes) (ts : ℤ) : Bool :=
  p.values.any (fun t => decide (t.min ≤ ts) && decide (ts ≤ t.max)) ||
    (match key with
      | b :: rest => match p.short b with
        | some ch => ch.checkOverlap rest ts
        | none => false
      | [] => false) ||
    if prefixTreeKeySize ≤ key.length then
      match p.long (key.take prefixTreeKeySize) with
      | some ch => ch.checkOverlap (key.drop prefixTreeKeySize) ts
      | none => false
    else false
termination_by key.length
decreasing_by
  · simp
  · rw [length_drop]
    unfold prefixTreeKeySize at *
    omega

/-- The ranges found below a child that need not exist. -/
def searchChild (ch : Option PrefixTree) (key : Bytes) : List TimeRange := (ch.getD new).search key []

theorem search_new : ∀ (key : Bytes) (buf : List TimeRange), new.search key buf = buf
  | [], buf => by rw [search]; simp [new, values, prefixTreeKeySize]
  | b :: key, buf => by rw [search]; simp [new, values, short, long]

/-- The part of a search below the next byte. -/
def searchShort (p : PrefixTree) (buf : List TimeRange) : Bytes → List TimeRange
  | b :: rest =>
    match p.short b with
    | some ch => ch.search rest buf
    | none => buf
  | [] => buf

/-- The part of a search below the next eight bytes. -/
def searchLong (p : PrefixTree) (buf : List TimeRange) (key : Bytes) : List TimeRange :=
  if prefixTreeKeySize ≤ key.length then
    match p.long (key.take prefixTreeKeySize) with
    | some ch => ch.search (key.drop prefixTreeKeySize) buf
    | none => buf
  else buf

theorem search_eq (p : PrefixTree) (key : Bytes) (buf : List TimeRange) :
    p.search key buf = p.searchLong (p.searchShort (buf ++ p.values) key) key := by
  rw [search.eq_def]
  cases key <;> rfl

variable {t : TimeRange}

/-- A search adds to the buffer the values of the node and what it finds below. -/
theorem search_parts (p : PrefixTree) (key : Bytes) (buf : List TimeRange) :
    p.search key buf = buf ++ (p.values ++ (p.searchShort [] key ++ p.searchLong [] key)) := by
  have hshort : ∀ buf, p.searchShort buf key = buf ++ p.searchShort [] key := by
    intro buf
    cases key with
    | nil => simp [searchShort]
    | cons b rest =>
      cases hs : p.short b with
      | none => simp [searchShort, hs]
      | some ch => simp [searchShort, hs, search_parts ch rest]
  have hlong : ∀ buf, p.searchLong buf key = buf ++ p.searchLong [] key := by
    intro buf
    rw [searchLong, searchLong]
    split_ifs with hlen
    · cases p.long (key.take prefixTreeKeySize) with
      | none => simp
      | some ch => simp [search_parts ch (key.drop prefixTreeKeySize)]
    · simp
  rw [search_eq, hlong, hshort]
  simp only [append_assoc]
termination_by key.length
decreasing_by
  · simp
  · rw [length_drop]
    unfold prefixTreeKeySize at *
    omega

/-- A search finds the values of the node and those below the next byte and the next eight bytes. -/
theorem search_nil (p : PrefixTree) (key : Bytes) : p.search key [] =
    p.values ++ (key.head?.elim [] (fun b => searchChild (p.short b) key.tail) ++
      if prefixTreeKeySize ≤ key.length then
        searchChild (p.long (key.take prefixTreeKeySize)) (key.drop prefixTreeKeySize) else []) := by
  have hchild : ∀ (ch : Option PrefixTree) (rest : Bytes),
      (match ch with | some ch => ch.search rest [] | none => []) = searchChild ch rest := by
    rintro (_ | ch) rest
    · exact (search_new rest []).symm
    · rfl
  rw [search_parts, nil_append, searchLong, hchild]
  cases key with
  | nil => rfl
  | cons b rest =>
    rw [searchShort, hchild]
    rfl

variable {key : Bytes}

theorem prefix_iff_take_drop {n : ℕ} {pre : Bytes} (hn : n ≤ pre.length) :
    pre <+: key ↔ n ≤ key.length ∧ key.take n = pre.take n ∧ pre.drop n <+: key.drop n := by
  constructor
  · intro h
    obtain ⟨s, rfl⟩ := h
    refine ⟨by rw [length_append]; omega, take_append_of_le_length hn, ?_⟩
    rw [drop_append_of_le_length hn]
    exact prefix_append _ _
  · rintro ⟨-, ht, hd⟩
    rw [← take_append_drop n pre, ← take_append_drop n key, ht]
    exact (prefix_append_right_inj _).mpr hd

/-- After an `Append` the keys with that prefix, and no others, find the new ranges as well. -/
theorem count_search_appendAll (p : PrefixTree) (pre : Bytes) (vs : List TimeRange) (key : Bytes) :
    ((p.appendAll pre vs).search key []).count t = (p.search key []).count t + if pre <+: key
      then vs.count t else 0 := by
  fun_induction appendAll p pre vs generalizing key with
  | case1 p pre hlen lookup ih =>
    simp only [search_nil _ key, values_node, short_node, long_node, count_append, prefix_iff_take_drop hlen]
    by_cases hk : key.take prefixTreeKeySize = lookup
    · by_cases hkey : prefixTreeKeySize ≤ key.length
      · simp only [hkey, if_true, hk, update_self, searchChild, Option.getD_some, ih, true_and, lookup]
        omega
      · simp [hkey]
    · simp [hk, lookup]
  | case2 p b rest hlen ih =>
    cases key with
    | nil => simp [search_nil]
    | cons b' rest' =>
    simp only [search_nil _ (b' :: rest'), values_node, short_node, long_node, count_append, cons_prefix_cons]
    by_cases hb : b' = b
    · subst hb
      simp [searchChild, ih]
      omega
    · simp [hb, Ne.symm hb]
  | case3 p hlen =>
    simp only [search_nil _ key, count_append, values_node, short_node, long_node, List.nil_prefix, if_true]
    omega

theorem mem_search_append {v : TimeRange} (p : PrefixTree) (pre key : Bytes) :
    t ∈ (p.append pre v).search key [] ↔ t ∈ p.search key [] ∨ t = v ∧ pre <+: key := by
  rw [append, ← List.count_pos_iff, count_search_appendAll, ← List.count_pos_iff]
  by_cases hpre : pre <+: key
  · by_cases ht : t = v <;> simp [hpre, ht]
  · simp [hpre]

/-- `Count` and `checkOverlap` go where a search goes. -/
theorem count_checkOverlap (p : PrefixTree) (key : Bytes) (ts : ℤ) : p.count key = (p.search key []).length ∧
    p.checkOverlap key ts = (p.search key []).any fun t => decide (t.min ≤ ts) && decide (ts ≤ t.max) := by
  have hchild : ∀ (ch : PrefixTree) (rest : Bytes), rest.length < key.length →
      ch.count rest = (ch.search rest []).length ∧ ch.checkOverlap rest ts = (ch.search rest []).any _ :=
    fun ch rest _ => count_checkOverlap ch rest ts
  rw [count.eq_def, checkOverlap.eq_def, search_nil]
  cases key with
  | nil => simp [prefixTreeKeySize]
  | cons b rest =>
    have hlong := fun ch => hchild ch ((b :: rest).drop prefixTreeKeySize)
      (by rw [length_drop, length_cons, prefixTreeKeySize]; omega)
    rcases hs : p.short b with _ | ch <;> rcases p.long ((b :: rest).take prefixTreeKeySize) with _ | ch'
    all_goals
      simp only [hs, head?_cons, Option.elim_some, tail_cons, searchChild, Option.getD_none, Option.getD_some,
        search_new, hchild _ rest (by simp), hlong]
      split_ifs <;> simp [Bool.or_assoc, Nat.add_assoc]
termination_by key.length

variable (calls : List (Bytes × List TimeRange))

/-- The appends of a list, one after the other. -/
def appends : PrefixTree := calls.foldl (fun p c => p.appendAll c.1 c.2) new

theorem count_search_foldl (p : PrefixTree) (key : Bytes) :
    ((calls.foldl (fun p c => p.appendAll c.1 c.2) p).search key []).count t =
      (p.search key [] ++ (calls.filter fun c => c.1 <+: key).flatMap (·.2)).count t := by
  induction calls generalizing p with
  | nil => simp
  | cons c calls ih =>
    rw [foldl_cons, ih, count_append, count_append, count_search_appendAll, filter_cons]
    split_ifs <;> simp_all [Nat.add_assoc]

/-- Whatever is appended, a search finds the ranges of all prefixes of the key, each as often as it was appended. -/
theorem search_appends (key : Bytes) :
    ((appends calls).search key []).Perm ((calls.filter fun c => c.1 <+: key).flatMap (·.2)) ∧
      (appends calls).count key = ((appends calls).search key []).length ∧
      ∀ ts, (appends calls).checkOverlap key ts = true ↔ Tombstoned ((appends calls).search key []) ts := by
  refine ⟨perm_iff_count.mpr fun t => ?_, (count_checkOverlap _ key 0).1, fun ts => ?_⟩
  · rw [appends, count_search_foldl, search_new, nil_append]
  · simp [(count_checkOverlap _ key ts).2, Tombstoned, TimeRange.Covers]

end PrefixTree

end InfluxDB.Tsm
