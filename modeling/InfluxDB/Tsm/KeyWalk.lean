import Mathlib.Data.List.Permutation
import Mathlib.Data.Prod.Lex
import InfluxDB.Lib.Bytes
import InfluxDB.Lib.Series

/-!
    `file_store_key_iterator.go`: the walk over the keys of all files.  One iterator a file stands in
    a heap, ordered by its current key; a call of `Next` returns the least key and moves the iterator
    it was read from on.  Whether a key that was returned before is skipped is decided by the number
    of iterators at the start of the call, so the last iterator may return such a key again.  Which of
    two iterators at the same key comes first is not promised by the heap, and decides whether it does.
-/

namespace InfluxDB.Tsm.KeyWalk

open Lib List

/-- The keys of a TSM file with the types of their blocks.  The writer takes an empty key for none. -/
structure TSMFile where
  keys : List (Bytes × Byte)
  ascending : Ascending keys
  nonempty : ∀ p ∈ keys, p.1 ≠ []

/-- `keyIterator`, with what its iterator has still to yield. -/
structure KeyIterator where
  key : Bytes
  typ : Byte
  rest : List (Bytes × Byte)

def KeyIterator.next (k : KeyIterator) : Bool × KeyIterator :=
  match k.rest with
  | [] => (false, k)
  | (key, typ) :: rest => (true, ⟨key, typ, rest⟩)

/-- `container/heap` on iterators ordered by key: what the package promises of its functions. -/
structure Heap where
  init : List KeyIterator → List KeyIterator
  fix : List KeyIterator → List KeyIterator
  pop : List KeyIterator → List KeyIterator
  Ordered : List KeyIterator → Prop
  init_perm : ∀ l, (init l).Perm l
  fix_perm : ∀ l, (fix l).Perm l
  pop_perm : ∀ k l, (pop (k :: l)).Perm l
  ordered_init : ∀ l, Ordered (init l)
  ordered_fix : ∀ k k' l, Ordered (k :: l) → Ordered (fix (k' :: l))
  ordered_pop : ∀ k l, Ordered (k :: l) → Ordered (pop (k :: l))
  ordered_short : ∀ l, l.length ≤ 1 → Ordered l
  head_le : ∀ k l, Ordered (k :: l) → ∀ k' ∈ l, k.key ≤ k'.key

structure MergeKeyIterator where
  itrs : List KeyIterator
  key : Bytes
  typ : Byte

variable (h : Heap)

/-- The iterators after the first of them has moved on. -/
def advance (k : KeyIterator) (others : List KeyIterator) : List KeyIterator :=
  if others.length > 0 then
    if k.next.1 then h.fix (k.next.2 :: others) else h.pop (k.next.2 :: others)
  else if k.next.1 then [k.next.2] else []

/-- The loop at `RETRY`. -/
def nextLoop (merging : Bool) : ℕ → MergeKeyIterator → Bool × MergeKeyIterator
  | 0, m => (false, m)
  | fuel + 1, m =>
    match m.itrs with
    | [] => (false, m)
    | k :: others =>
      if merging && m.key == k.key then nextLoop merging fuel { m with itrs := advance h k others }
      else (true, ⟨advance h k others, k.key, k.typ⟩)

/-- The number of keys that the iterators have still to return; each round of the loop takes one. -/
def size (itrs : List KeyIterator) : ℕ := (itrs.map fun k => k.rest.length + 1).sum

def next (m : MergeKeyIterator) : Bool × MergeKeyIterator := nextLoop h (m.itrs.length > 1) (size m.itrs) m

/-- What `Read` returns after each call of `Next` until that is false, if `fuel` calls are enough. -/
def walk : ℕ → MergeKeyIterator → Option (List (Bytes × Byte))
  | 0, _ => none
  | fuel + 1, m =>
    if (next h m).1 then (walk fuel (next h m).2).map (((next h m).2.key, (next h m).2.typ) :: ·) else some []

/-! ### One round -/

variable {h} {m : MergeKeyIterator} {k : KeyIterator} {others : List KeyIterator} {p : Bytes × Byte}

/-- What the iterator returns from here on. -/
def KeyIterator.pending (k : KeyIterator) : List (Bytes × Byte) := (k.key, k.typ) :: k.rest

/-- The iterators are ordered by their keys, and each of them is. -/
structure Sound (h : Heap) (itrs : List KeyIterator) : Prop where
  ordered : h.Ordered itrs
  ascending : ∀ k ∈ itrs, Ascending k.pending

def Pending (itrs : List KeyIterator) (p : Bytes × Byte) : Prop := ∃ k ∈ itrs, p ∈ k.pending

theorem le_of_pending (hk : Ascending k.pending) (hp : p ∈ k.pending) : k.key ≤ p.1 := by
  rcases mem_cons.mp hp with rfl | hp
  · exact le_rfl
  · exact ((ascending_cons.mp hk).1 p hp).le

/-- The iterators after a round, in some order. -/
theorem advance_perm : (advance h k others).Perm (if k.next.1 then k.next.2 :: others else others) := by
  unfold advance
  split_ifs with hlen hmore hmore
  · exact h.fix_perm _
  · exact h.pop_perm _ _
  · simp_all
  · simp_all

theorem KeyIterator.pending_eq (k : KeyIterator) :
    k.pending = (k.key, k.typ) :: if k.next.1 then k.next.2.pending else [] := by
  obtain ⟨key, typ, _ | ⟨p, rest⟩⟩ := k <;> simp [pending, next]

theorem Sound.advance (hs : Sound h (k :: others)) : Sound h (advance h k others) := by
  refine ⟨?_, fun k' hk' => ?_⟩
  · unfold KeyWalk.advance
    split_ifs with hlen hmore hmore
    · exact h.ordered_fix k _ _ hs.ordered
    · have hsame : k.next.2 = k := by
        obtain ⟨key, typ, _ | ⟨p, rest⟩⟩ := k <;> simp_all [KeyIterator.next]
      exact h.ordered_pop _ _ (hsame.symm ▸ hs.ordered)
    · exact h.ordered_short _ le_rfl
    · exact h.ordered_short _ zero_le_one
  · rw [advance_perm.mem_iff] at hk'
    have hk := hs.ascending k mem_cons_self
    rw [k.pending_eq] at hk
    split_ifs at hk' hk with hmore
    · rcases mem_cons.mp hk' with rfl | hk'
      · exact (ascending_cons.mp hk).2
      · exact hs.ascending k' (mem_cons_of_mem _ hk')
    · exact hs.ascending k' (mem_cons_of_mem _ hk')

theorem Sound.le_of_pending (hs : Sound h (k :: others)) (hp : Pending (k :: others) p) : k.key ≤ p.1 := by
  obtain ⟨k', hk', hp⟩ := hp
  have hle := KeyWalk.le_of_pending (hs.ascending k' hk') hp
  rcases mem_cons.mp hk' with rfl | hk'
  · exact hle
  · exact (h.head_le k others hs.ordered k' hk').trans hle

/-! ### One call -/

/-- The iterators are in order, and no key is before the last one returned. -/
structure MergeKeyIterator.Inv (h : Heap) (m : MergeKeyIterator) : Prop extends Sound h m.itrs where
  key_le : ∀ p, Pending m.itrs p → m.key ≤ p.1

/-- The one iterator left does not begin with the key returned last (at first: is not without keys). -/
def MergeKeyIterator.Fresh (m : MergeKeyIterator) : Prop := ∀ k, m.itrs = [k] → k.key ≠ m.key

/-- The state after some calls. -/
def after (h : Heap) (n : ℕ) (m : MergeKeyIterator) : MergeKeyIterator := (fun m => (next h m).2)^[n] m

variable {files : List TSMFile} {seek : Bytes} (f : TSMFile)

/-- The part of a list with the keys that are kept, if there is any. -/
def kept (keep : Bytes → Prop) [DecidablePred keep] (l : List (Bytes × Byte)) : List (List (Bytes × Byte)) :=
  if l.filter (fun p => keep p.1) = [] then [] else [l.filter fun p => keep p.1]

/-- What the lists have of the keys that are kept, without the lists that have none of them. -/
def keptOf (keep : Bytes → Prop) [DecidablePred keep] (ls : List (List (Bytes × Byte))) :
    List (List (Bytes × Byte)) :=
  ls.flatMap (kept keep)

section

variable {keep keep' : Bytes → Prop} [DecidablePred keep] [DecidablePred keep'] {l : List (Bytes × Byte)}
  {ls ls' : List (List (Bytes × Byte))}

theorem kept_cons_of_neg (h : ¬ keep p.1) : kept keep (p :: l) = kept keep l := by
  rw [kept, kept, filter_cons_of_neg (by simpa using h)]

theorem keptOf_perm (h : ls.Perm ls') : (keptOf keep ls).Perm (keptOf keep ls') := h.flatMap_right _

theorem keptOf_congr (h : ∀ x, keep x ↔ keep' x) : keptOf keep ls = keptOf keep' ls := by
  refine flatMap_congr fun l _ => ?_
  rw [kept, kept, filter_congr fun p _ => decide_eq_decide.mpr (h p.1)]

theorem keptOf_eq_self (h : ∀ l ∈ ls, l ≠ [] ∧ ∀ p ∈ l, keep p.1) : keptOf keep ls = ls := by
  refine (flatMap_congr fun l hl => ?_).trans (flatMap_singleton' ls)
  rw [kept, filter_eq_self.mpr fun p hp => decide_eq_true ((h l hl).2 p hp), if_neg (h l hl).1]

theorem keptOf_keptOf : keptOf keep' (keptOf keep ls) = keptOf (fun x => keep x ∧ keep' x) ls := by
  rw [keptOf, keptOf, flatMap_assoc]
  refine flatMap_congr fun l _ => ?_
  have hl : l.filter (fun p => keep p.1 ∧ keep' p.1) = (l.filter fun p => keep p.1).filter fun p => keep' p.1 := by
    rw [filter_filter]
    exact filter_congr fun p _ => by rw [Bool.decide_and, Bool.and_comm]
  rw [kept, kept, hl]
  by_cases hnil : l.filter (fun p => keep p.1) = []
  · rw [if_pos hnil, hnil]
    rfl
  · rw [if_neg hnil, flatMap_singleton, kept]

theorem mem_of_mem_keptOf (hl : l ∈ keptOf keep ls) (hp : p ∈ l) : (∃ l' ∈ ls, p ∈ l') ∧ keep p.1 := by
  obtain ⟨l', hl', hl⟩ := mem_flatMap.mp hl
  rw [kept] at hl
  split_ifs at hl
  · cases hl
  · obtain rfl := mem_singleton.mp hl
    exact ⟨⟨l', hl', (mem_filter.mp hp).1⟩, of_decide_eq_true (mem_filter.mp hp).2⟩

end

/-- The iterators have what the files have behind the key, each iterator of one file. -/
def Tracks (files : List TSMFile) (seek : Bytes) (itrs : List KeyIterator) (key : Bytes) : Prop :=
  (keptOf (key < ·) (itrs.map KeyIterator.pending)).Perm
    (keptOf (fun x => seek ≤ x ∧ key < x) (files.map TSMFile.keys))

/-- An iterator moves on from a key that is not behind the given one. -/
theorem Tracks.advance {key : Bytes} (ht : Tracks files seek (k :: others) key) (hle : ¬ key < k.key) :
    Tracks files seek (advance h k others) key := by
  refine ((keptOf_perm (advance_perm.map _)).trans (Perm.of_eq ?_)).trans ht
  have hk : kept (key < ·) k.pending = kept (key < ·) (if k.next.1 then k.next.2.pending else []) := by
    rw [k.pending_eq, kept_cons_of_neg hle]
  rw [map_cons, keptOf, keptOf, flatMap_cons, hk]
  split_ifs
  · rw [map_cons, flatMap_cons]
  · rfl

theorem Tracks.mono {itrs : List KeyIterator} {key key' : Bytes} (ht : Tracks files seek itrs key)
    (hle : key ≤ key') :
    Tracks files seek itrs key' := by
  have hkept : (keptOf (key' < ·) _).Perm _ := keptOf_perm ht
  rw [keptOf_keptOf, keptOf_keptOf] at hkept
  rwa [keptOf_congr fun x => and_iff_right_of_imp hle.trans_lt,
    keptOf_congr (show ∀ x, _ ↔ seek ≤ x ∧ key' < x from fun x => and_assoc.trans
      (and_congr_right fun _ => and_iff_right_of_imp hle.trans_lt))] at hkept

/-- The files have of the keys from the first iterator's on what all the iterators have. -/
theorem Tracks.perm {key : Bytes} (ht : Tracks files seek (k :: others) key)
    (hs : Sound h (k :: others)) (hlt : key < k.key) :
    seek ≤ k.key ∧ ((k :: others).map KeyIterator.pending).Perm
      (keptOf (k.key ≤ ·) (files.map TSMFile.keys)) := by
  have hkept : (keptOf (k.key ≤ ·) _).Perm _ := keptOf_perm ht
  rw [keptOf_keptOf, keptOf_keptOf, keptOf_congr fun x => and_iff_right_of_imp hlt.trans_le, keptOf_eq_self] at hkept
  · have hmem := hkept.subset (mem_map_of_mem mem_cons_self)
    have hseek : seek ≤ k.key := (mem_of_mem_keptOf hmem (p := (k.key, k.typ)) mem_cons_self).2.1.1
    refine ⟨hseek, hkept.trans (Perm.of_eq (keptOf_congr fun x => and_iff_right_of_imp fun hx => ?_))⟩
    exact ⟨hseek.trans hx, hlt.trans_le hx⟩
  · intro l hl
    obtain ⟨k', hk', rfl⟩ := mem_map.mp hl
    exact ⟨cons_ne_nil _ _, fun p hp => hs.le_of_pending ⟨k', hk', hp⟩⟩

/-- Only two of the files have a key from some key on, both have that one, and one has no other. -/
def Repeats (files : List TSMFile) (seek : Bytes) : Prop :=
  ∃ key ≥ seek, ∃ typ typ' rest, (keptOf (key ≤ ·) (files.map TSMFile.keys)).Perm
    [[(key, typ)], (key, typ') :: rest]

def oneKey (key : Byte) : TSMFile := ⟨[([key], 0)], pairwise_singleton _ _, by simp⟩

end InfluxDB.Tsm.KeyWalk
