import InfluxDB.Lib.Bytes
import InfluxDB.Lib.Search

/-! `reader_offsets.go`: where the keys of an index are, and the two-level search for one.

    `readerOffsets` holds the offset of every key and, for runs of keys that share their first eight
    bytes, the prefix with the number of keys up to the end of the run. A key is deleted by setting bit
    31 of its offset; `Done` drops the marked offsets and lowers the counts. Counts past the last key
    go stale there, so the table is described from the front: `PrefixTable`. The buffer that keys are
    read from is passed as the function `keyAt` from offsets to keys. -/

namespace InfluxDB.Tsm
open Lib List Nat Function

/-- `bytes.Compare`. -/
def bytesCompare (a b : Bytes) : Ordering := if a < b then .lt else if a = b then .eq else .gt

theorem bytesCompare_ne_lt {a b : Bytes} : bytesCompare a b ≠ .lt ↔ b ≤ a := by
  rw [bytesCompare, ← not_lt]
  split_ifs <;> simp_all

theorem bytesCompare_ne_gt {a b : Bytes} : bytesCompare a b ≠ .gt ↔ a ≤ b := by
  rw [bytesCompare, le_iff_lt_or_eq]
  split_ifs <;> simp_all

def prefixSize : ℕ := 8

/-- `keyPrefix`: the first eight bytes, padded with zeros. -/
def keyPrefix (key : Bytes) : Bytes := padTo prefixSize key

/-- `comparePrefix`, as big-endian words. -/
def comparePrefix (a b : Bytes) : Ordering :=
  if getUint a = getUint b then .eq else if getUint a < getUint b then .lt else .gt

/-- `prefixEntry`. -/
structure PrefixEntry where
  pre : Bytes
  total : ℕ

/-- `readerOffsets`. -/
structure ReaderOffsets where
  offsets : List ℕ
  prefixes : List PrefixEntry
  entry : PrefixEntry

def ReaderOffsets.empty : ReaderOffsets :=
  { offsets := [], prefixes := [], entry := { pre := replicate prefixSize 0, total := 0 } }

/-- Bit 31 of a stored offset, the delete mark. -/
def marked (v : ℕ) : Bool := decide (2 ^ 31 ≤ v)

/-- A stored offset without its delete mark. -/
def unmark (v : ℕ) : ℕ := v % 2 ^ 31

namespace ReaderOffsets

variable (r : ReaderOffsets)

/-- `searchPrefix`: the prefix entry of the nth offset. -/
def searchPrefix (n : ℕ) : ℕ :=
  sortSearch r.prefixes.length (fun h => (r.prefixes[h]?.map (·.total)).any (n < ·))

/-- `AddKey`. -/
def addKey (offset : ℕ) (key : Bytes) : ReaderOffsets :=
  { offsets := r.offsets ++ [offset]
    prefixes := if r.entry.pre ≠ keyPrefix key ∧ r.entry.total ≠ 0 then r.prefixes ++ [r.entry] else r.prefixes
    entry := { pre := keyPrefix key, total := r.entry.total + 1 } }

/-- `Done`, when all keys are added. -/
def done : ReaderOffsets := { r with prefixes := r.prefixes ++ [r.entry] }

/-- The loop of the iterator's `Done` from index `i` on, after `psub` deleted offsets: the offsets
    kept and the remaining prefix entries with their new totals. -/
def dropLoop : List ℕ → ℕ → ℕ → List PrefixEntry → List ℕ × List PrefixEntry
  | [], _, _, ps => ([], ps)
  | v :: vs, i, psub, ps =>
    let reached := (ps.takeWhile (·.total ≤ i)).map fun e => { e with total := e.total - psub }
    let ps := ps.dropWhile (·.total ≤ i)
    if marked v then
      let res := dropLoop vs (i + 1) (psub + 1) ps
      (res.1, reached ++ res.2)
    else
      let res := dropLoop vs (i + 1) psub ps
      (v :: res.1, reached ++ res.2)

/-- The offsets after the iterator's `Done`. -/
def dropMarked : ReaderOffsets :=
  let res := dropLoop r.offsets 0 0 r.prefixes
  { r with offsets := res.1, prefixes := res.2 }

end ReaderOffsets

/-! ### The iterator -/

/-- `readerOffsetsIterator`; the cached key is recomputed. -/
structure OffsetsIterator where
  first : Bool
  del : Bool
  i : ℕ
  pi : ℕ

/-- `Iterator`. -/
def ReaderOffsets.iterator : OffsetsIterator := { first := true, del := false, i := 0, pi := 0 }

namespace OffsetsIterator

variable (it : OffsetsIterator) (r : ReaderOffsets)

/-- `Offset`. -/
def offset : ℕ := unmark (r.offsets.getD it.i 0)

/-- Advance `pi` past the prefix entries that end at or before index `i`. -/
def skipPrefixes (i pi : ℕ) : ℕ := pi + ((r.prefixes.drop pi).takeWhile (·.total ≤ i)).length

/-- `Next`. -/
def next : Bool × OffsetsIterator :=
  if it.i ≥ r.offsets.length then (false, it)
  else if it.first then (true, { it with first := false })
  else
    (decide (it.i + 1 < r.offsets.length), { it with i := it.i + 1, pi := skipPrefixes r (it.i + 1) it.pi })

/-- `Compare` of the key pointed at by index `h` and prefix `pi`. -/
def compareAt (keyAt : ℕ → Bytes) (h pi : ℕ) (key : Bytes) : Ordering :=
  match comparePrefix ((r.prefixes[pi]?.map (·.pre)).getD []) (keyPrefix key) with
  | .eq => bytesCompare (keyAt (unmark (r.offsets.getD h 0))) key
  | o => o

/-- The search loop of `Seek`: `inl` is an exact match. -/
def seekLoop (r : ReaderOffsets) (keyAt : ℕ → Bytes) (key : Bytes) :
    ℕ → ℕ → ℕ → ℕ → (ℕ × ℕ) ⊕ (ℕ × ℕ)
  | 0, i, _, pi => .inr (i, pi)
  | fuel + 1, i, j, pi =>
    if i < j then
      let h := (i + j) / 2
      let pi := r.searchPrefix h
      match compareAt r keyAt h pi key with
      | .lt => seekLoop r keyAt key fuel (h + 1) j pi
      | .gt => seekLoop r keyAt key fuel i h pi
      | .eq => .inl (h, pi)
    else .inr (i, pi)

/-- `Seek`: `exact`, `ok` and the iterator. -/
def seek (keyAt : ℕ → Bytes) (key : Bytes) : Bool × Bool × OffsetsIterator :=
  match seekLoop r keyAt key r.offsets.length 0 r.offsets.length 0 with
  | .inl (h, pi) => (true, true, { it with first := false, i := h, pi := pi })
  | .inr (i, pi) =>
    if i ≥ r.offsets.length then (false, false, { it with first := false, i := i, pi := pi })
    else
      let it := { it with first := false, i := i, pi := skipPrefixes r i pi }
      (decide (keyAt (it.offset r) = key), true, it)

/-- Point at `key`, by `Next` when the following key is the one and by `Seek` otherwise; the first
    lines of the loops of `Delete` and `DeleteRange`. -/
def advanceTo (keyAt : ℕ → Bytes) (key : Bytes) : Bool × OffsetsIterator :=
  let n := it.next r
  if n.1 = true ∧ keyAt (n.2.offset r) = key then (true, n.2)
  else
    let s := n.2.seek r keyAt key
    (s.1, s.2.2)

/-- `SetIndex`. -/
def setIndex (n : ℕ) : OffsetsIterator :=
  { it with i := n, pi := r.searchPrefix n }

/-- `Delete`: mark the offset pointed at. -/
def delete : OffsetsIterator × ReaderOffsets :=
  ({ it with del := true }, { r with offsets := r.offsets.set it.i (it.offset r + 2 ^ 31) })

/-- `Done`. -/
def done : OffsetsIterator × ReaderOffsets :=
  if it.del then ({ it with del := false }, r.dropMarked) else (it, r)

end OffsetsIterator

/-! ### The prefix table -/

/-- Where the prefixes differ, they decide the comparison of the keys. -/
theorem comparePrefix_ne_eq {a b : Bytes} (h : comparePrefix (keyPrefix a) (keyPrefix b) ≠ .eq) :
    comparePrefix (keyPrefix a) (keyPrefix b) = bytesCompare a b := by
  have hlen : (keyPrefix a).length = (keyPrefix b).length := by simp [keyPrefix]
  rw [comparePrefix] at h ⊢
  split_ifs at h ⊢ with heq hlt
  · exact absurd rfl h
  · have hab := lt_of_padTo_lt _ ((getUint_lt_getUint_iff hlen).mp hlt)
    rw [bytesCompare, if_pos hab]
  · have hgt := lt_of_le_of_ne (not_lt.mp hlt) (Ne.symm heq)
    have hba := lt_of_padTo_lt _ ((getUint_lt_getUint_iff hlen.symm).mp hgt)
    rw [bytesCompare, if_neg (lt_asymm hba), if_neg hba.ne']

/-- `PrefixTable n ks ps`: `ps` describes the keys `ks`, which come after `n` others. The total of an
    entry counts the keys up to its last one; once no key follows it may be too large. -/
inductive PrefixTable : ℕ → List Bytes → List PrefixEntry → Prop
  | nil (n : ℕ) : PrefixTable n [] []
  | cons {n : ℕ} {ks : List Bytes} {ps : List PrefixEntry} (g : List Bytes) (e : PrefixEntry) :
      (∀ k ∈ g, keyPrefix k = e.pre) → (e.total = n + g.length ∨ ks = [] ∧ n + g.length ≤ e.total) →
      PrefixTable (n + g.length) ks ps → PrefixTable n (g ++ ks) (e :: ps)

variable {n : ℕ} {ks : List Bytes} {ps : List PrefixEntry} {e : PrefixEntry} {k : Bytes}

theorem PrefixTable.le_total (h : PrefixTable n ks ps) : ∀ e ∈ ps, n ≤ e.total := by
  induction h with
  | nil n => simp
  | cons g e hg ht _ ih =>
    refine forall_mem_cons.mpr ⟨by omega, fun x hx => ?_⟩
    have := ih x hx
    omega

theorem PrefixTable.mono (h : PrefixTable n ks ps)
    {i : ℕ} (hi : i < n + ks.length) :
    ps.Pairwise (fun x y => decide (i < x.total) = true → decide (i < y.total) = true) := by
  induction h with
  | nil n => exact List.Pairwise.nil
  | @cons n ks ps g e hg ht htab ih =>
    rw [length_append] at hi
    refine pairwise_cons.mpr ⟨fun y hy hlt => ?_, ih (by omega)⟩
    have hy := htab.le_total y hy
    simp only [decide_eq_true_eq] at hlt ⊢
    rcases ht with ht | ⟨rfl, ht⟩
    · omega
    · simp only [length_nil] at hi
      omega

/-- The first entry that ends after index `i` has the prefix of the key at `i`. -/
theorem PrefixTable.find (h : PrefixTable n ks ps) :
    ∀ {i : ℕ} (hi : i < ks.length), ∃ e rest, ps.dropWhile (fun e => !decide (n + i < e.total)) = e :: rest ∧
      e.pre = keyPrefix ks[i] := by
  induction h with
  | nil n => exact nofun
  | @cons n ks ps g e hg ht _ ih =>
    intro i hi
    rw [length_append] at hi
    by_cases hig : i < g.length
    · refine ⟨e, ps, ?_, ?_⟩
      · rw [dropWhile_cons_of_neg]
        simp only [Bool.not_eq_true', decide_eq_false_iff_not, not_not]
        omega
      · rw [getElem_append_left hig, hg _ (getElem_mem hig)]
    · have hne : ks ≠ [] := by
        rintro rfl
        simp only [length_nil] at hi
        omega
      obtain ⟨e', rest, hd, hp⟩ := ih (i := i - g.length) (by omega)
      refine ⟨e', rest, ?_, ?_⟩
      · rw [dropWhile_cons_of_pos]
        · rw [← hd]
          congr 1
          funext x
          congr 3
          omega
        · simp only [Bool.not_eq_true', decide_eq_false_iff_not]
          have := ht.resolve_right fun hc => hne hc.1
          omega
      · rw [hp, getElem_append_right (by omega)]

theorem PrefixTable.eq_nil (h : PrefixTable n ks []) : ks = [] := by
  cases h
  rfl

theorem PrefixTable.of_no_keys : ∀ {ps : List PrefixEntry}, (∀ e ∈ ps, n ≤ e.total) → PrefixTable n [] ps
  | [], _ => .nil n
  | e :: ps, h => .cons [] e (by simp) (.inr ⟨rfl, h e mem_cons_self⟩)
      (PrefixTable.of_no_keys (forall_mem_cons.mp h).2)

/-- Entries that end at `n` have no keys of their own. -/
theorem PrefixTable.skip (hne : ks ≠ []) : ∀ {ps : List PrefixEntry}, PrefixTable n ks ps →
    (∀ e ∈ ps.takeWhile (·.total ≤ n), e.total = n) ∧ PrefixTable n ks (ps.dropWhile (·.total ≤ n)) := by
  intro ps
  induction ps with
  | nil => exact fun h => ⟨by simp, h⟩
  | cons e ps ih =>
    intro h
    by_cases hle : e.total ≤ n
    · rw [takeWhile_cons_of_pos (by simpa using hle), dropWhile_cons_of_pos (by simpa using hle)]
      cases h with
      | @cons _ ks _ g _ hg ht htab =>
        have hg : g = [] := eq_nil_of_length_eq_zero (by omega)
        subst hg
        have htot : e.total = n := by simpa using ht.resolve_right fun hc => hne (by simp [hc.1])
        obtain ⟨ih1, ih2⟩ := ih htab
        exact ⟨forall_mem_cons.mpr ⟨htot, ih1⟩, ih2⟩
    · rw [takeWhile_cons_of_neg (by simpa using hle), dropWhile_cons_of_neg (by simpa using hle)]
      exact ⟨by simp, h⟩

theorem PrefixTable.tail (h : PrefixTable n (k :: ks) (e :: ps)) (hlt : n < e.total) :
    keyPrefix k = e.pre ∧ PrefixTable (n + 1) ks (e :: ps) := by
  generalize hks : k :: ks = ks₀ at h
  cases h with
  | @cons _ ks' _ g _ hg ht htab =>
    cases g with
    | nil =>
      rw [nil_append] at hks
      subst hks
      simp only [length_nil, add_zero, reduceCtorEq, false_and, or_false] at ht
      omega
    | cons k' g =>
      rw [cons_append] at hks
      obtain ⟨rfl, rfl⟩ := cons.inj hks
      rw [length_cons] at ht htab
      refine ⟨hg k mem_cons_self, .cons g e (forall_mem_cons.mp hg).2 ?_ ?_⟩
      · exact ht.imp (fun ht => by omega) fun ht => ⟨ht.1, by omega⟩
      · rwa [add_assoc, add_comm 1]

theorem PrefixTable.cons_key
    (h : PrefixTable (n + 1) ks (e :: ps)) (hk : keyPrefix k = e.pre) : PrefixTable n (k :: ks) (e :: ps) := by
  cases h with
  | @cons _ ks _ g _ hg ht htab =>
    refine .cons (k :: g) e (forall_mem_cons.mpr ⟨hk, hg⟩) ?_ ?_
    · rw [length_cons]
      exact ht.imp (fun ht => by omega) fun ht => ⟨ht.1, by omega⟩
    · rwa [length_cons, add_comm g.length, ← add_assoc]

theorem PrefixTable.prepend (h : PrefixTable n ks ps) :
    ∀ {es : List PrefixEntry}, (∀ e ∈ es, e.total = n) → PrefixTable n ks (es ++ ps)
  | [], _ => h
  | e :: es, he => .cons [] e (by simp) (.inl (he e mem_cons_self))
      (h.prepend (forall_mem_cons.mp he).2)

namespace ReaderOffsets
variable {r : ReaderOffsets} {keyAt : ℕ → Bytes} {h : ℕ}

/-- The keys, in the order of the offsets. -/
def keys (r : ReaderOffsets) (keyAt : ℕ → Bytes) : List Bytes := r.offsets.map fun v => keyAt (unmark v)

@[simp] theorem length_keys : (r.keys keyAt).length = r.offsets.length := length_map _

theorem keyAt_of_getElem? (hk : (r.keys keyAt)[h]? = some k) : keyAt (unmark (r.offsets.getD h 0)) = k := by
  obtain ⟨v, hv, rfl⟩ := by simpa [keys] using hk
  rw [getD_eq_getElem?_getD, hv]
  rfl

theorem searchPrefix_spec (ht : PrefixTable 0 (r.keys keyAt) r.prefixes)
    (hk : (r.keys keyAt)[h]? = some k) :
    (r.prefixes[r.searchPrefix h]?.map (·.pre)).getD [] = keyPrefix k := by
  obtain ⟨hh, rfl⟩ := List.getElem?_eq_some_iff.mp hk
  obtain ⟨-, hdrop, -⟩ := sortSearch_split r.prefixes (fun e => decide (h < e.total))
    (fun i => (r.prefixes[i]?.map (·.total)).any (h < ·)) (fun i hi => by simp [hi]) (ht.mono (by omega))
  obtain ⟨e, rest, hd, hp⟩ := ht.find hh
  rw [zero_add] at hd
  rw [hd] at hdrop
  have hget : r.prefixes[r.searchPrefix h]? = some e := by
    rw [← head?_drop, searchPrefix, hdrop]
    rfl
  rw [hget]
  exact hp

end ReaderOffsets

/-! ### Seek -/

section Seek
variable {r : ReaderOffsets} {keyAt : ℕ → Bytes} {it : OffsetsIterator} {h : ℕ}

theorem compareAt_eq (ht : PrefixTable 0 (r.keys keyAt) r.prefixes)
    (hk : (r.keys keyAt)[h]? = some k) (key : Bytes) :
    OffsetsIterator.compareAt r keyAt h (r.searchPrefix h) key = bytesCompare k key := by
  rw [OffsetsIterator.compareAt, ReaderOffsets.searchPrefix_spec ht hk, ReaderOffsets.keyAt_of_getElem? hk]
  cases hc : comparePrefix (keyPrefix k) (keyPrefix key) with
  | eq => rfl
  | lt | gt => rw [← comparePrefix_ne_eq (by simp [hc]), hc]

/-- Index `i` separates the keys below `key` from the others. -/
def LowerBound (ks : List Bytes) (key : Bytes) (i : ℕ) : Prop :=
  i ≤ ks.length ∧ (∀ k ∈ ks.take i, k < key) ∧ ∀ k ∈ ks.drop i, key ≤ k

theorem sorted_around (hs : ks.Pairwise (· < ·))
    (hk : ks[h]? = some k) :
    (∀ x ∈ ks.take h, x < k) ∧ (∀ x ∈ ks.take (h + 1), x ≤ k) ∧ ∀ x ∈ ks.drop h, k ≤ x := by
  rw [← take_append_drop h ks, drop_of_getElem? hk] at hs
  obtain ⟨-, hright, hcross⟩ := pairwise_append.mp hs
  have hleft : ∀ x ∈ ks.take h, x < k := fun x hx => hcross x hx k mem_cons_self
  refine ⟨hleft, ?_, ?_⟩
  · rw [take_add_one, hk]
    intro x hx
    rcases mem_append.mp hx with hx | hx
    · exact (hleft x hx).le
    · exact (mem_singleton.mp hx).le
  · rw [drop_of_getElem? hk]
    exact forall_mem_cons.mpr ⟨le_rfl, fun x hx => ((pairwise_cons.mp hright).1 x hx).le⟩

section
variable {key : Bytes} {i : ℕ} (hlb : LowerBound ks key i) (hs : ks.Pairwise (· < ·))
include hlb hs

theorem LowerBound.least (hk : ks[i]? = some k) : key ≤ k ∧ ∀ x ∈ ks, key ≤ x → k ≤ x := by
  refine ⟨hlb.2.2 k ?_, fun x hx hle => ?_⟩
  · rw [drop_of_getElem? hk]
    exact mem_cons_self
  · rw [← take_append_drop i ks] at hx
    rcases mem_append.mp hx with hx | hx
    · exact absurd (hlb.2.1 x hx) (not_lt.mpr hle)
    · exact (sorted_around hs hk).2.2 x hx

theorem LowerBound.mem_iff : key ∈ ks ↔ ks[i]? = some key := by
  refine ⟨fun hm => ?_, fun hi => mem_of_getElem? hi⟩
  cases hk : ks[i]? with
  | none =>
    have htake := take_of_length_le (getElem?_eq_none_iff.mp hk)
    exact absurd (hlb.2.1 key (by rwa [htake])) (lt_irrefl _)
  | some k =>
    obtain ⟨hle, hmin⟩ := hlb.least hs hk
    rw [le_antisymm (hmin key hm le_rfl) hle]

end

theorem next_del (it : OffsetsIterator) (r : ReaderOffsets) : (it.next r).2.del = it.del := by
  rw [OffsetsIterator.next]
  split_ifs <;> rfl

/-- After the first key, `Next` goes on to the next offset. -/
theorem next_of_not_first (hf : it.first = false) (hlt : it.i < r.offsets.length) :
    ((it.next r).1 = true ↔ it.i + 1 < r.offsets.length) ∧ (it.next r).2.i = it.i + 1 ∧
      (it.next r).2.first = false := by
  rw [OffsetsIterator.next, if_neg (not_le.mpr hlt), hf]
  simp

theorem next_lt (h : (it.next r).1 = true) : (it.next r).2.i < r.offsets.length := by
  rw [OffsetsIterator.next] at h ⊢
  split_ifs at h ⊢ with h1 h2
  · exact not_le.mp h1
  · simpa using h

section
variable (ht : PrefixTable 0 (r.keys keyAt) r.prefixes) (hs : (r.keys keyAt).Pairwise (· < ·))
include ht hs

theorem seekLoop_spec (key : Bytes) : ∀ (fuel i j pi : ℕ), j - i ≤ fuel → i ≤ j → j ≤ r.offsets.length →
    (∀ k ∈ (r.keys keyAt).take i, k < key) → (∀ k ∈ (r.keys keyAt).drop j, key ≤ k) →
    (∃ h pi', OffsetsIterator.seekLoop r keyAt key fuel i j pi = .inl (h, pi') ∧
        LowerBound (r.keys keyAt) key h ∧ (r.keys keyAt)[h]? = some key) ∨
      ∃ i' pi', OffsetsIterator.seekLoop r keyAt key fuel i j pi = .inr (i', pi') ∧ LowerBound (r.keys keyAt) key i'
  | 0, i, j, pi, hf, hij, hj, hlo, hhi => by
    obtain rfl : i = j := by omega
    exact .inr ⟨i, pi, rfl, by simpa using hj, hlo, hhi⟩
  | fuel + 1, i, j, pi, hf, hij, hj, hlo, hhi => by
    rw [OffsetsIterator.seekLoop]
    split_ifs with hlt
    · have hh : (i + j) / 2 < (r.keys keyAt).length := by rw [ReaderOffsets.length_keys]; omega
      have hk := getElem?_eq_getElem hh
      generalize (r.keys keyAt)[(i + j) / 2] = k at hk
      dsimp only
      rw [compareAt_eq ht hk, bytesCompare]
      -- all keys before the midpoint are below its key, all from it on are not
      obtain ⟨hbelow, hupto, habove⟩ := sorted_around hs hk
      split_ifs with hkl hke
      · exact seekLoop_spec key fuel _ j _ (by omega) (by omega) hj
          (fun x hx => (hupto x hx).trans_lt hkl) hhi
      · exact .inl ⟨_, _, rfl, ⟨hh.le, hke ▸ hbelow, hke ▸ habove⟩, hke ▸ hk⟩
      · have hgt := lt_of_le_of_ne (not_lt.mp hkl) (Ne.symm hke)
        exact seekLoop_spec key fuel i _ _ (by omega) (by omega) (by omega) hlo
          (fun x hx => hgt.le.trans (habove x hx))
    · obtain rfl : i = j := by omega
      exact .inr ⟨i, pi, rfl, by simpa using hj, hlo, hhi⟩

/-- `Seek` finds the smallest key at or above the given one. -/
theorem seek_spec (it : OffsetsIterator) (key : Bytes) :
    ∃ exact ok it', it.seek r keyAt key = (exact, ok, it') ∧ it'.first = false ∧ it'.del = it.del ∧
      LowerBound (r.keys keyAt) key it'.i ∧ (ok = true ↔ it'.i < r.offsets.length) ∧
      (exact = true ↔ (r.keys keyAt)[it'.i]? = some key) := by
  rcases seekLoop_spec ht hs key r.offsets.length 0 r.offsets.length 0 (by omega) (by omega) le_rfl
    (by simp) (by rw [drop_of_length_le (by simp)]; simp) with ⟨h, pi, he, hlb, hk⟩ | ⟨i, pi, he, hlb⟩
  · have hh := (List.getElem?_eq_some_iff.mp hk).1
    rw [ReaderOffsets.length_keys] at hh
    refine ⟨true, true, { it with first := false, i := h, pi := pi }, ?_, rfl, rfl, hlb, by simpa using hh,
      by simpa using hk⟩
    rw [OffsetsIterator.seek, he]
  · rw [OffsetsIterator.seek, he]
    dsimp only
    split_ifs with hge
    · refine ⟨_, _, _, rfl, rfl, rfl, hlb, by simpa using hge, ?_⟩
      have : (r.keys keyAt)[i]? = none := getElem?_eq_none (by simpa using hge)
      simp [this]
    · have hlt : i < (r.keys keyAt).length := by simpa using hge
      have hk := getElem?_eq_getElem hlt
      refine ⟨_, _, _, rfl, rfl, rfl, hlb, by simpa using hge, ?_⟩
      rw [hk, decide_eq_true_eq, OffsetsIterator.offset]
      rw [ReaderOffsets.keyAt_of_getElem? hk, Option.some.injEq]

theorem advanceTo_spec (it : OffsetsIterator) (key : Bytes) :
    ∃ found it', it.advanceTo r keyAt key = (found, it') ∧ it'.del = it.del ∧
      (found = true → (r.keys keyAt)[it'.i]? = some key) ∧ (found = false → key ∉ r.keys keyAt) := by
  rw [OffsetsIterator.advanceTo]
  split_ifs with hn
  · have hlt : (it.next r).2.i < (r.keys keyAt).length := by simpa using next_lt hn.1
    have hk := getElem?_eq_getElem hlt
    refine ⟨true, _, rfl, next_del it r, fun _ => ?_, by simp⟩
    rw [hk, ← hn.2, OffsetsIterator.offset, ReaderOffsets.keyAt_of_getElem? hk]
  · obtain ⟨exact, ok, it', he, -, hdel, hlb, -, hex⟩ := seek_spec ht hs (it.next r).2 key
    rw [he]
    refine ⟨exact, it', rfl, hdel.trans (next_del it r), hex.mp, fun hf hm => ?_⟩
    rw [hex.mpr ((hlb.mem_iff hs).mp hm)] at hf
    cases hf

end

end Seek

/-! ### Marks -/

/-- An offset with a mark if `M` says so. -/
def mark (M : ℕ → Bool) (o : ℕ) : ℕ := if M o then o + 2 ^ 31 else o

variable {o : ℕ}

theorem unmark_of_lt (h : o < 2 ^ 31) : unmark o = o := mod_eq_of_lt h

variable {M : ℕ → Bool}

theorem unmark_mark (h : o < 2 ^ 31) : unmark (mark M o) = o := by
  rw [mark, unmark]
  split_ifs
  · rw [add_mod_right, mod_eq_of_lt h]
  · exact mod_eq_of_lt h

theorem marked_mark (h : o < 2 ^ 31) : marked (mark M o) = M o := by
  rw [mark, marked]
  cases M o
  · simpa using h
  · simp

namespace ReaderOffsets
variable {r : ReaderOffsets} {keyAt : ℕ → Bytes} {it : OffsetsIterator}

/-- The offsets while a call has marked those in `M`. -/
def withMarks (r : ReaderOffsets) (M : ℕ → Bool) : ReaderOffsets := { r with offsets := r.offsets.map (mark M) }

/-- Unmarked, distinct offsets of sorted keys with their prefix table. -/
structure Wf (r : ReaderOffsets) (keyAt : ℕ → Bytes) : Prop where
  small : ∀ o ∈ r.offsets, o < 2 ^ 31
  sorted : (r.keys keyAt).Pairwise (· < ·)
  table : PrefixTable 0 (r.keys keyAt) r.prefixes

theorem keys_withMarks (h : ∀ o ∈ r.offsets, o < 2 ^ 31) : (r.withMarks M).keys keyAt = r.keys keyAt := by
  simp only [keys, withMarks, map_map]
  refine map_congr_left fun o ho => ?_
  rw [comp_apply, unmark_mark (h o ho), unmark_of_lt (h o ho)]

theorem keys_eq (h : ∀ o ∈ r.offsets, o < 2 ^ 31) : r.keys keyAt = r.offsets.map keyAt :=
  map_congr_left fun o ho => by rw [unmark_of_lt (h o ho)]

theorem Wf.nodup (h : r.Wf keyAt) : r.offsets.Nodup := by
  have := h.sorted
  rw [keys_eq h.small] at this
  exact List.Nodup.of_map _ (this.imp fun hlt => hlt.ne)

theorem withMarks_false : r.withMarks (fun _ => false) = r := by
  have hmark : mark (fun _ => false) = id := rfl
  rw [withMarks, hmark, map_id]

theorem offset_withMarks (h : ∀ o ∈ r.offsets, o < 2 ^ 31)
    (ho : r.offsets[it.i]? = some o) : it.offset (r.withMarks M) = o := by
  rw [OffsetsIterator.offset, withMarks, getD_eq_getElem?_getD, getElem?_map, ho]
  exact unmark_mark (h o (mem_of_getElem? ho))

theorem Wf.offset_eq (h : r.Wf keyAt) (ho : r.offsets[it.i]? = some o) : it.offset r = o := by
  rw [← withMarks_false (r := r)]
  exact offset_withMarks h.small ho

/-- `Delete` adds the offset pointed at to the marks. -/
theorem delete_withMarks (h : r.Wf keyAt) (ho : r.offsets[it.i]? = some o) :
    it.delete (r.withMarks M) = ({ it with del := true }, r.withMarks (update M o true)) := by
  rw [OffsetsIterator.delete, offset_withMarks h.small ho]
  congr 1
  simp only [withMarks]
  congr 1
  obtain ⟨hi, rfl⟩ := List.getElem?_eq_some_iff.mp ho
  refine ext_getElem (by simp) fun n hn hn' => ?_
  have hn'' : n < r.offsets.length := by simpa using hn'
  rw [getElem_set, getElem_map, getElem_map]
  split_ifs with hin
  · subst hin
    simp [mark]
  · have hne : r.offsets[n] ≠ r.offsets[it.i] := fun hc => hin (h.nodup.getElem_inj_iff.mp hc).symm
    rw [mark, mark, update_of_ne hne]

/-- `Done` keeps the unmarked offsets, and the table with them. -/
theorem dropLoop_spec (M : ℕ → Bool) : ∀ (offs : List ℕ) (i psub : ℕ) (ps : List PrefixEntry),
    (∀ o ∈ offs, o < 2 ^ 31) → psub ≤ i → PrefixTable i (offs.map keyAt) ps →
    (dropLoop (offs.map (mark M)) i psub ps).1 = offs.filter (fun o => !M o) ∧
      (dropLoop (offs.map (mark M)) i psub ps).2.map (·.pre) = ps.map (·.pre) ∧
      PrefixTable (i - psub) ((offs.filter (fun o => !M o)).map keyAt) (dropLoop (offs.map (mark M)) i psub ps).2
  | [], i, psub, ps, _, hle, ht => by
    refine ⟨rfl, rfl, PrefixTable.of_no_keys fun e he => ?_⟩
    have := ht.le_total e he
    omega
  | o :: offs, i, psub, ps, hsmall, hle, ht => by
    have hsmall' := (forall_mem_cons.mp hsmall).2
    obtain ⟨hreached, hskip⟩ := ht.skip (by simp)
    obtain ⟨e, rest, hps⟩ : ∃ e rest, ps.dropWhile (·.total ≤ i) = e :: rest := by
      cases hd : ps.dropWhile (·.total ≤ i) with
      | nil => rw [hd] at hskip; cases hskip.eq_nil
      | cons e rest => exact ⟨e, rest, rfl⟩
    have hlt : i < e.total := by
      have := head_dropWhile_not (fun e : PrefixEntry => decide (e.total ≤ i)) (l := ps) (by simp [hps])
      simpa [hps] using this
    rw [hps, map_cons] at hskip
    obtain ⟨hpre, htail⟩ := hskip.tail hlt
    have hes : ∀ x ∈ (ps.takeWhile (·.total ≤ i)).map (fun e => { e with total := e.total - psub }),
        x.total = i - psub := by
      intro x hx
      obtain ⟨y, hy, rfl⟩ := mem_map.mp hx
      rw [hreached y hy]
    have hpres : ∀ ps', ps'.map (·.pre) = (e :: rest).map (·.pre) →
        ((ps.takeWhile (·.total ≤ i)).map (fun e => { e with total := e.total - psub }) ++ ps').map (·.pre) =
          ps.map (·.pre) := by
      intro ps' hps'
      rw [map_append, hps', ← hps, map_map]
      conv_rhs => rw [← takeWhile_append_dropWhile (p := fun e : PrefixEntry => decide (e.total ≤ i)) (l := ps)]
      rw [map_append]
      rfl
    rw [map_cons, dropLoop, marked_mark (hsmall o mem_cons_self), hps]
    cases hM : M o with
    | true =>
      obtain ⟨ih1, ih2, ih3⟩ := dropLoop_spec M offs (i + 1) (psub + 1) _ hsmall' (by omega) htail
      rw [filter_cons_of_neg (by simp [hM])]
      refine ⟨ih1, hpres _ ih2, PrefixTable.prepend ?_ hes⟩
      rwa [Nat.add_sub_add_right] at ih3
    | false =>
      obtain ⟨ih1, ih2, ih3⟩ := dropLoop_spec M offs (i + 1) psub _ hsmall' (by omega) htail
      rw [filter_cons_of_pos (by simp [hM]), map_cons]
      refine ⟨?_, hpres _ ih2, PrefixTable.prepend ?_ hes⟩
      · simp only [Bool.false_eq_true, if_false]
        rw [ih1, mark, hM]
        rfl
      · -- the key goes back to the first entry left, whose prefix is unchanged
        rw [Nat.sub_add_comm hle] at ih3
        generalize (dropLoop (offs.map (mark M)) (i + 1) psub (e :: rest)).2 = ps' at ih2 ih3
        cases ps' with
        | nil => simp at ih2
        | cons e' rest' =>
          have he' : e'.pre = e.pre := by simpa using (cons.inj ih2).1
          exact ih3.cons_key (hpre.trans he'.symm)

theorem Wf.dropMarked (h : r.Wf keyAt) (M : ℕ → Bool) :
    ((r.withMarks M).dropMarked).Wf keyAt ∧
      ((r.withMarks M).dropMarked).offsets = r.offsets.filter (fun o => !M o) := by
  have htab := h.table
  rw [keys_eq h.small] at htab
  obtain ⟨h1, -, h3⟩ := dropLoop_spec M r.offsets 0 0 r.prefixes h.small le_rfl htab
  have hoff : ((r.withMarks M).dropMarked).offsets = r.offsets.filter (fun o => !M o) := h1
  have hsmall : ∀ o ∈ ((r.withMarks M).dropMarked).offsets, o < 2 ^ 31 := by
    rw [hoff]
    exact fun o ho => h.small o (mem_of_mem_filter ho)
  refine ⟨⟨hsmall, ?_, ?_⟩, hoff⟩
  · have hs := h.sorted
    rw [keys_eq hsmall, hoff]
    rw [keys_eq h.small] at hs
    exact hs.sublist ((filter_sublist).map keyAt)
  · rw [keys_eq hsmall, hoff]
    exact h3

/-! ### Building the table -/

/-- `AddKey` of every offset and key in turn. -/
def addKeys (r : ReaderOffsets) (l : List (ℕ × Bytes)) : ReaderOffsets := l.foldl (fun r p => r.addKey p.1 p.2) r

/-- The entries that the keys `ks` make of the open entry `e`. -/
def tableFrom : PrefixEntry → List Bytes → List PrefixEntry
  | e, [] => [e]
  | e, k :: ks =>
    if e.pre ≠ keyPrefix k ∧ e.total ≠ 0 then e :: tableFrom { pre := keyPrefix k, total := e.total + 1 } ks
    else tableFrom { pre := keyPrefix k, total := e.total + 1 } ks

theorem addKeys_spec : ∀ (l : List (ℕ × Bytes)) (r : ReaderOffsets),
    (r.addKeys l).done.offsets = r.offsets ++ l.map (·.1) ∧
      (r.addKeys l).done.prefixes = r.prefixes ++ tableFrom r.entry (l.map (·.2))
  | [], r => by simp [addKeys, done, tableFrom]
  | p :: l, r => by
    obtain ⟨h1, h2⟩ := addKeys_spec l (r.addKey p.1 p.2)
    rw [addKeys, foldl_cons, ← addKeys, h1, h2]
    refine ⟨by simp [addKey], ?_⟩
    simp only [addKey, map_cons, tableFrom]
    split_ifs <;> simp

theorem prefixTable_tableFrom : ∀ (ks g : List Bytes) (n : ℕ) (e : PrefixEntry),
    (∀ k ∈ g, keyPrefix k = e.pre) → e.total = n + g.length → PrefixTable n (g ++ ks) (tableFrom e ks)
  | [], g, n, e, hg, ht => .cons g e hg (.inl ht) (.nil _)
  | k :: ks, g, n, e, hg, ht => by
    rw [tableFrom]
    split_ifs with hc
    · refine .cons g e hg (.inl ht) (prefixTable_tableFrom ks [k] _ _ (by simp) ?_)
      simp [ht]
    · have hg' : ∀ x ∈ g ++ [k], keyPrefix x = keyPrefix k := by
        intro x hx
        rcases mem_append.mp hx with hx | hx
        · -- an open entry of another prefix is still empty
          by_cases hp : e.pre = keyPrefix k
          · exact (hg x hx).trans hp
          · have hpos := length_pos_of_mem hx
            exact absurd ⟨hp, by omega⟩ hc
        · rw [mem_singleton.mp hx]
      have := prefixTable_tableFrom ks (g ++ [k]) n { pre := keyPrefix k, total := e.total + 1 } hg'
        (by simp [ht, add_assoc])
      rwa [append_assoc] at this

/-- The offsets of a sorted index, as they are built. -/
theorem wf_addKeys (keyAt : ℕ → Bytes) {l : List (ℕ × Bytes)} (hsmall : ∀ p ∈ l, p.1 < 2 ^ 31)
    (hkey : ∀ p ∈ l, keyAt p.1 = p.2) (hs : (l.map (·.2)).Pairwise (· < ·)) :
    (empty.addKeys l).done.Wf keyAt ∧ (empty.addKeys l).done.offsets = l.map (·.1) := by
  obtain ⟨hoff, hpre⟩ := addKeys_spec l empty
  rw [empty, nil_append, ← empty] at hoff hpre
  have hoff' : ∀ o ∈ (empty.addKeys l).done.offsets, o < 2 ^ 31 := by
    rw [hoff]
    simpa using fun o k hk => hsmall (o, k) hk
  have hkeys : (empty.addKeys l).done.keys keyAt = l.map (·.2) := by
    rw [keys_eq hoff', hoff, map_map]
    exact map_congr_left fun p hp => hkey p hp
  refine ⟨⟨hoff', hkeys ▸ hs, ?_⟩, hoff⟩
  rw [hkeys, hpre]
  exact prefixTable_tableFrom _ [] 0 _ (by simp) rfl

end ReaderOffsets

end InfluxDB.Tsm
