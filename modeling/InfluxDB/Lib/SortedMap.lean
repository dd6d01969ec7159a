import InfluxDB.Lib.Series
import Mathlib.Algebra.Order.BigOperators.Group.List

/-!
    Maps as lists with strictly increasing keys, and the merge of several of them.

    The merge reads its inputs from the front: it finds the lowest key among the first entries, takes
    the entries with that key in the order of the inputs, and goes on.  What comes out is the map that
    holds, for every key of an input, the values of the inputs that have the key, in their order.
-/

namespace InfluxDB.Lib

open List

variable {κ α β : Type*} [LinearOrder κ]

/-- A map whose entries are in the order of their keys. -/
structure SortedMap (κ α : Type*) [LinearOrder κ] where
  entries : List (κ × α)
  ascending : Ascending entries

namespace SortedMap

instance decidableEqSortedMap [DecidableEq α] : DecidableEq (SortedMap κ α) := fun a b =>
  decidable_of_iff (a.entries = b.entries) ⟨fun h => by cases a; cases b; cases h; rfl, fun h => by rw [h]⟩

def empty : SortedMap κ α := ⟨[], ascending_nil⟩

def get (m : SortedMap κ α) (k : κ) : Option α := latest m.entries k

theorem ext {a b : SortedMap κ α} (h : ∀ k, a.get k = b.get k) : a = b := by
  obtain ⟨ea, ha⟩ := a
  obtain ⟨eb, hb⟩ := b
  obtain rfl : ea = eb := ha.ext hb h
  rfl

@[simp] theorem get_empty (k : κ) : (empty : SortedMap κ α).get k = none := rfl

variable {m : SortedMap κ α} {k : κ}

theorem get_eq_some_iff {v : α} : m.get k = some v ↔ (k, v) ∈ m.entries := m.ascending.latest_eq_some_iff

theorem get_eq_none_iff : m.get k = none ↔ k ∉ m.entries.map Prod.fst := by
  rw [get, latest_eq_none_iff, mem_map, not_exists]
  exact forall_congr' fun p => not_and.symm

/-- Set the value of a key. -/
def set (m : SortedMap κ α) (k : κ) (v : α) : SortedMap κ α where
  entries := m.entries.filter (fun p => p.1 < k) ++ (k, v) :: m.entries.filter fun p => k < p.1
  ascending := by
    refine ascending_append.mpr ⟨m.ascending.filter _, ascending_cons.mpr ⟨?_, m.ascending.filter _⟩, ?_⟩
    · intro q hq
      exact of_decide_eq_true (mem_filter.mp hq).2
    · intro p hp q hq
      have hpk : p.1 < k := of_decide_eq_true (mem_filter.mp hp).2
      rcases mem_cons.mp hq with rfl | hq
      · exact hpk
      · exact hpk.trans (of_decide_eq_true (mem_filter.mp hq).2)

theorem get_set (m : SortedMap κ α) (k k' : κ) (v : α) :
    (m.set k v).get k' = if k' = k then some v else m.get k' := by
  rw [get, set, latest_append, latest_cons, latest_filter (fun x => decide (k < x)),
    latest_filter fun x => decide (x < k), get]
  rcases lt_trichotomy k' k with h | rfl | h
  · simp [h, h.ne, h.ne', not_lt.mpr h.le]
  · simp
  · simp [h, h.ne, h.ne', not_lt.mpr h.le]

/-- Change or drop each value. -/
def filterMap (f : κ → α → Option β) (m : SortedMap κ α) : SortedMap κ β where
  entries := m.entries.filterMap fun p => (f p.1 p.2).map fun v => (p.1, v)
  ascending := by
    refine List.Pairwise.filterMap _ ?_ m.ascending
    intro p q hpq p' hp' q' hq'
    obtain ⟨v, -, rfl⟩ := Option.map_eq_some_iff.mp hp'
    obtain ⟨w, -, rfl⟩ := Option.map_eq_some_iff.mp hq'
    exact hpq

theorem get_filterMap (f : κ → α → Option β) (m : SortedMap κ α) (k : κ) :
    (m.filterMap f).get k = (m.get k).bind (f k) := by
  have hiff : ∀ w, (m.filterMap f).get k = some w ↔ (m.get k).bind (f k) = some w := by
    intro w
    rw [get_eq_some_iff, filterMap, mem_filterMap, Option.bind_eq_some_iff]
    constructor
    · rintro ⟨⟨k', v⟩, hp, hf⟩
      obtain ⟨w', hw', heq⟩ := Option.map_eq_some_iff.mp hf
      obtain ⟨rfl, rfl⟩ := Prod.ext_iff.mp heq
      exact ⟨v, get_eq_some_iff.mpr hp, hw'⟩
    · rintro ⟨v, hv, hf⟩
      exact ⟨(k, v), get_eq_some_iff.mp hv, by rw [hf]; rfl⟩
  exact Option.ext hiff

/-- Change each value. -/
def map (f : κ → α → β) (m : SortedMap κ α) : SortedMap κ β := m.filterMap fun k v => some (f k v)

theorem get_map (f : κ → α → β) (m : SortedMap κ α) (k : κ) : (m.map f).get k = (m.get k).map (f k) := by
  rw [map, get_filterMap]
  cases m.get k <;> rfl

/-! ### The merge -/

/-- The lowest of the first keys. -/
def lowest (bufs : List (List (κ × α))) : Option κ := (bufs.filterMap fun b => b.head?.map Prod.fst).min?

/-- The first value of an input if it has the key. -/
def headAt (k : κ) : List (κ × α) → Option α
  | [] => none
  | p :: _ => if p.1 = k then some p.2 else none

/-- An input behind the key. -/
def past (k : κ) : List (κ × α) → List (κ × α)
  | [] => []
  | p :: b => if p.1 = k then b else p :: b

def mergeLoop : ℕ → List (List (κ × α)) → List (κ × List α)
  | 0, _ => []
  | fuel + 1, bufs =>
    match lowest bufs with
    | none => []
    | some k => (k, bufs.filterMap (headAt k)) :: mergeLoop fuel (bufs.map (past k))

/-- As many turns as there are entries. -/
def mergeEntries (bufs : List (List (κ × α))) : List (κ × List α) := mergeLoop (bufs.map length).sum bufs

variable {bufs : List (List (κ × α))}

theorem lowest_eq_none (h : lowest bufs = none) : ∀ b ∈ bufs, b = [] := by
  intro b hb
  rw [lowest, min?_eq_none_iff] at h
  have := filterMap_eq_nil_iff.mp h b hb
  cases b with
  | nil => rfl
  | cons p b => cases this

theorem lowest_eq_some (hasc : ∀ b ∈ bufs, Ascending b) (h : lowest bufs = some k) :
    (∃ b ∈ bufs, headAt k b ≠ none) ∧ ∀ b ∈ bufs, ∀ p ∈ b, k ≤ p.1 := by
  rw [lowest, min?_eq_some_iff] at h
  obtain ⟨hmem, hle⟩ := h
  constructor
  · obtain ⟨b, hb, hhead⟩ := mem_filterMap.mp hmem
    refine ⟨b, hb, ?_⟩
    cases b with
    | nil => cases hhead
    | cons p b =>
      rw [headAt, if_pos (Option.some.inj hhead)]
      exact Option.some_ne_none _
  · intro b hb p hp
    cases b with
    | nil => cases hp
    | cons q b =>
      have hq : k ≤ q.1 := hle q.1 (mem_filterMap.mpr ⟨q :: b, hb, rfl⟩)
      rcases mem_cons.mp hp with rfl | hp
      · exact hq
      · exact hq.trans ((ascending_cons.mp (hasc _ hb)).1 p hp).le

variable {b : List (κ × α)} {k : κ} (maps : List (SortedMap κ α))

theorem latest_eq_headAt (hasc : Ascending b) (hle : ∀ p ∈ b, k ≤ p.1) : latest b k = headAt k b := by
  cases b with
  | nil => rfl
  | cons p b =>
    have hnone : latest b k = none := (latest_eq_none_iff b k).mpr fun q hq =>
      ((hle p mem_cons_self).trans_lt ((ascending_cons.mp hasc).1 q hq)).ne'
    rw [latest_cons, hnone, headAt]
    rfl

theorem past_sublist (k : κ) (b : List (κ × α)) : (past k b).Sublist b := by
  cases b with
  | nil => exact List.Sublist.refl _
  | cons p b =>
    rw [past]
    split_ifs
    · exact sublist_cons_self p b
    · exact List.Sublist.refl _

theorem lt_of_mem_past (hasc : Ascending b) (hle : ∀ p ∈ b, k ≤ p.1) : ∀ p ∈ past k b, k < p.1 := by
  cases b with
  | nil => nofun
  | cons p b =>
    have htail : ∀ q ∈ b, k < q.1 := fun q hq => (hle p mem_cons_self).trans_lt ((ascending_cons.mp hasc).1 q hq)
    intro q hq
    rw [past] at hq
    split_ifs at hq with hp
    · exact htail q hq
    · rcases mem_cons.mp hq with rfl | hq
      · exact lt_of_le_of_ne (hle _ mem_cons_self) (Ne.symm hp)
      · exact htail q hq

theorem latest_past {k' : κ} (hne : k' ≠ k) : latest (past k b) k' = latest b k' := by
  cases b with
  | nil => rfl
  | cons p b =>
    rw [past]
    split_ifs with hp
    · subst hp
      rw [latest_cons, if_neg hne.symm, Option.or_none]
    · rfl

theorem length_past_lt (h : headAt k b ≠ none) : (past k b).length < b.length := by
  cases b with
  | nil => exact absurd rfl h
  | cons p b =>
    by_cases hp : p.1 = k
    · rw [past, if_pos hp]
      exact Nat.lt_succ_self _
    · rw [headAt, if_neg hp] at h
      exact absurd rfl h

/-- A list that is not empty. -/
def someOf : List α → Option (List α)
  | [] => none
  | v :: vs => some (v :: vs)

theorem someOf_of_ne_nil {vs : List α} (h : vs ≠ []) : someOf vs = some vs := by
  cases vs with
  | nil => exact absurd rfl h
  | cons v vs => rfl

theorem someOf_map_head (vs : List α) (f : List α → β) (d : α → β) (h : ∀ v vs, f (v :: vs) = d v) :
    (someOf vs).map f = vs.head?.map d := by
  cases vs with
  | nil => rfl
  | cons v vs => exact congrArg some (h v vs)

/-- The values of a key in the inputs that have it. -/
def valuesAt (bufs : List (List (κ × α))) (k : κ) : Option (List α) := someOf (bufs.filterMap fun b => latest b k)

theorem valuesAt_of_nil (h : ∀ b ∈ bufs, b = []) (k : κ) : valuesAt bufs k = none := by
  have hnil : bufs.filterMap (fun b => latest b k) = [] := filterMap_eq_nil_iff.mpr fun b hb => by rw [h b hb]; rfl
  rw [valuesAt, hnil, someOf]

theorem valuesAt_past {k' : κ} (hne : k' ≠ k) : valuesAt (bufs.map (past k)) k' = valuesAt bufs k' := by
  have hmap : (bufs.map (past k)).filterMap (fun b => latest b k') = bufs.filterMap fun b => latest b k' := by
    rw [filterMap_map]
    exact filterMap_congr fun b _ => latest_past hne
  rw [valuesAt, hmap, valuesAt]

theorem mergeLoop_spec {fuel : ℕ} (hasc : ∀ b ∈ bufs, Ascending b)
    (hfuel : (bufs.map length).sum ≤ fuel) :
    Ascending (mergeLoop fuel bufs) ∧ (∀ p ∈ mergeLoop fuel bufs, ∃ b ∈ bufs, ∃ q ∈ b, q.1 = p.1) ∧
      ∀ k, latest (mergeLoop fuel bufs) k = valuesAt bufs k := by
  induction fuel generalizing bufs with
  | zero =>
    have hnil : ∀ b ∈ bufs, b = [] := fun b hb => by
      have hle := single_le_sum (fun _ _ => Nat.zero_le _) _ (mem_map_of_mem (f := length) hb)
      exact length_eq_zero_iff.mp (Nat.le_zero.mp (hle.trans hfuel))
    exact ⟨ascending_nil, nofun, fun k => (valuesAt_of_nil hnil k).symm⟩
  | succ fuel ih =>
    rw [mergeLoop]
    cases hlow : lowest bufs with
    | none => exact ⟨ascending_nil, nofun, fun k => (valuesAt_of_nil (lowest_eq_none hlow) k).symm⟩
    | some k =>
      obtain ⟨⟨b, hb, hhead⟩, hle⟩ := lowest_eq_some hasc hlow
      have hasc' : ∀ b ∈ bufs.map (past k), Ascending b := by
        intro b' hb'
        obtain ⟨b, hb, rfl⟩ := mem_map.mp hb'
        exact (hasc b hb).sublist (past_sublist k b)
      have hlt : ((bufs.map (past k)).map length).sum < (bufs.map length).sum := by
        rw [map_map]
        exact sum_lt_sum _ _ (fun b _ => (past_sublist k b).length_le) ⟨b, hb, length_past_lt hhead⟩
      obtain ⟨ihasc, ihmem, ihget⟩ := ih hasc' (by omega)
      have hgreater : ∀ p ∈ mergeLoop fuel (bufs.map (past k)), k < p.1 := by
        intro p hp
        obtain ⟨b', hb', q, hq, hqp⟩ := ihmem p hp
        obtain ⟨b, hb, rfl⟩ := mem_map.mp hb'
        exact hqp ▸ lt_of_mem_past (hasc b hb) (hle b hb) q hq
      have hvals : bufs.filterMap (headAt k) = bufs.filterMap fun b => latest b k :=
        filterMap_congr fun b hb => (latest_eq_headAt (hasc b hb) (hle b hb)).symm
      refine ⟨ascending_cons.mpr ⟨hgreater, ihasc⟩, ?_, fun k' => ?_⟩
      · intro p hp
        rcases mem_cons.mp hp with rfl | hp
        · cases b with
          | nil => exact absurd rfl hhead
          | cons q b =>
            refine ⟨q :: b, hb, q, mem_cons_self, ?_⟩
            by_contra hq
            rw [headAt, if_neg hq] at hhead
            exact hhead rfl
        · obtain ⟨b', hb', q, hq, hqp⟩ := ihmem p hp
          obtain ⟨b, hb, rfl⟩ := mem_map.mp hb'
          exact ⟨b, hb, q, (past_sublist k b).subset hq, hqp⟩
      · rw [latest_cons]
        by_cases hk : k' = k
        · subst hk
          have hnone : latest (mergeLoop fuel (bufs.map (past k'))) k' = none :=
            (latest_eq_none_iff _ _).mpr fun p hp => (hgreater p hp).ne'
          rw [hnone, if_pos rfl, Option.none_or, hvals, valuesAt, someOf_of_ne_nil]
          exact fun hnil => hhead (by
            rw [← latest_eq_headAt (hasc b hb) (hle b hb)]
            exact filterMap_eq_nil_iff.mp hnil b hb)
        · rw [if_neg (Ne.symm hk), Option.or_none, ihget, valuesAt_past hk]

theorem ascending_of_mem_entries {maps : List (SortedMap κ α)} : ∀ b ∈ maps.map entries, Ascending b := by
  intro b hb
  obtain ⟨m, -, rfl⟩ := mem_map.mp hb
  exact m.ascending

/-- The values of each key, in the order of the maps. -/
def merge (maps : List (SortedMap κ α)) : SortedMap κ (List α) :=
  ⟨mergeEntries (maps.map entries), (mergeLoop_spec ascending_of_mem_entries le_rfl).1⟩

theorem get_merge (k : κ) : (merge maps).get k = someOf (maps.filterMap fun m => m.get k) := by
  have hget := (mergeLoop_spec (@ascending_of_mem_entries κ α _ maps) le_rfl).2.2 k
  refine hget.trans ?_
  rw [valuesAt, filterMap_map]
  rfl

/-- Merged values that only look at the first map that has the key. -/
theorem get_merge_head (d : α → β) (dflt : β) (k : κ) :
    ((merge maps).map fun _ vs => (vs.head?.map d).getD dflt).get k = (maps.findSome? fun m => m.get k).map d := by
  rw [get_map, get_merge, ← head?_filterMap]
  exact someOf_map_head _ _ _ fun v vs => rfl

end SortedMap

end InfluxDB.Lib
