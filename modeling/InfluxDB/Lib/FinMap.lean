import Mathlib.Data.List.AList
import Mathlib.Algebra.Order.BigOperators.Group.List
import Mathlib.Algebra.Order.Ring.Nat

/-!
    Finite maps as association lists with distinct keys.  The order of the list stands for the order,
    which no program may rely on, in which a hash map is iterated.
-/

namespace InfluxDB.Lib

open List Option AList

/-- A finite map. -/
abbrev FinMap (κ β : Type*) := AList fun _ : κ => β

namespace FinMap

variable {κ β γ : Type*}

theorem nodupKeys_filterMap (f : κ → β → Option γ) {l : List (Sigma fun _ : κ => β)} (h : l.NodupKeys) :
    (l.filterMap fun s => (f s.1 s.2).map fun v => (⟨s.1, v⟩ : Sigma fun _ : κ => γ)).NodupKeys := by
  refine List.Nodup.sublist ?_ h
  induction l with
  | nil => exact List.Sublist.refl _
  | cons s l ih =>
    rw [nodupKeys_cons] at h
    rw [filterMap_cons]
    cases hf : f s.1 s.2 with
    | none => exact (ih h.2).cons _
    | some v => exact (ih h.2).cons_cons _

/-- Change or drop each value, by its key and itself. -/
def filterMap (f : κ → β → Option γ) (m : FinMap κ β) : FinMap κ γ :=
  ⟨m.entries.filterMap fun s => (f s.1 s.2).map fun v => ⟨s.1, v⟩, nodupKeys_filterMap f m.nodupKeys⟩

/-- The sum of a number for each key and value. -/
def sumBy (f : κ → β → ℕ) (m : FinMap κ β) : ℕ := (m.entries.map fun s => f s.1 s.2).sum

theorem sumBy_filterMap_add (f g : κ → β → ℕ) (h : κ → γ → ℕ) (F : κ → β → Option γ)
    (hF : ∀ k v, (F k v).elim 0 (h k) + g k v ≤ f k v) (m : FinMap κ β) :
    sumBy h (filterMap F m) + sumBy g m ≤ sumBy f m := by
  obtain ⟨l, hl⟩ := m
  simp only [sumBy, filterMap]
  clear hl
  induction l with
  | nil => exact le_rfl
  | cons s l ih =>
    have := hF s.1 s.2
    rw [filterMap_cons, map_cons, sum_cons, map_cons, sum_cons]
    cases hs : F s.1 s.2
    all_goals
      rw [hs] at this
      simp only [map_none, map_some, elim_none, elim_some, map_cons, sum_cons] at this ⊢
      omega

variable [DecidableEq κ]

/-- Set the value of a key, which then is the last one. -/
def set (m : FinMap κ β) (k : κ) (v : β) : FinMap κ β := ⟨m.entries.kerase k ++ [⟨k, v⟩], by
    rw [List.NodupKeys, List.keys, map_append, nodup_append]
    refine ⟨m.nodupKeys.kerase k, nodup_singleton _, ?_⟩
    rintro a ha b hb rfl
    obtain rfl := mem_singleton.mp hb
    exact notMem_keys_kerase _ m.nodupKeys ha⟩

theorem entries_set {m : FinMap κ β} {k : κ} (h : k ∉ m.keys) (v : β) :
    (m.set k v).entries = m.entries ++ [⟨k, v⟩] := by
  have hset : (m.set k v).entries = m.entries.kerase k ++ [⟨k, v⟩] := rfl
  rw [hset, kerase_of_notMem_keys h]

theorem lookup_filterMap (f : κ → β → Option γ) (m : FinMap κ β) (k : κ) :
    (filterMap f m).lookup k = (m.lookup k).bind (f k) := by
  refine Option.ext fun w => ?_
  rw [← mem_def, mem_lookup_iff, bind_eq_some_iff, filterMap, mem_filterMap]
  constructor
  · rintro ⟨⟨k', v⟩, hv, hf⟩
    obtain ⟨w, hw, heq⟩ := map_eq_some_iff.mp hf
    cases heq
    exact ⟨v, mem_lookup_iff.mpr hv, hw⟩
  · rintro ⟨v, hv, hf⟩
    exact ⟨⟨k, v⟩, mem_lookup_iff.mp hv, by rw [hf]; rfl⟩

theorem lookup_insert_eq (m : FinMap κ β) (k k' : κ) (v : β) :
    (m.insert k v).lookup k' = if k' = k then some v else m.lookup k' := by
  by_cases hk : k' = k
  · subst hk
    rw [lookup_insert, if_pos rfl]
  · rw [lookup_insert_ne hk, if_neg hk]

/-- The value of a key, and the entries of the other keys. -/
theorem perm_kerase (m : FinMap κ β) (k : κ) :
    m.entries.Perm (((m.lookup k).toList.map fun v => (⟨k, v⟩ : Sigma fun _ : κ => β)) ++
      m.entries.kerase k) := by
  obtain ⟨l, hl⟩ := m
  simp only [AList.lookup]
  induction l with
  | nil => exact .refl _
  | cons s l ih =>
    obtain ⟨k', v⟩ := s
    obtain ⟨-, htail⟩ := nodupKeys_cons.mp hl
    by_cases hk : k = k'
    · subst hk
      rw [kerase_cons_eq (show k = (⟨k, v⟩ : Sigma fun _ : κ => β).1 from rfl), dlookup_cons_eq]
      exact .refl _
    · rw [kerase_cons_ne hk, dlookup_cons_ne l (⟨k', v⟩ : Sigma fun _ : κ => β) hk]
      exact ((ih htail).cons _).trans perm_middle.symm

/-- The sum after a value was set, from the value that was there before. -/
theorem sumBy_insert (f : κ → β → ℕ) (m : FinMap κ β) (k : κ) (v : β) :
    sumBy f (m.insert k v) + (m.lookup k).elim 0 (f k) = sumBy f m + f k v := by
  have hsum := ((perm_kerase m k).map fun s => f s.1 s.2).sum_eq
  rw [map_append, sum_append] at hsum
  simp only [sumBy, AList.insert, List.kinsert, map_cons, sum_cons]
  cases hk : m.lookup k
  all_goals
    rw [hk] at hsum
    simp only [toList_none, toList_some, map_cons, map_nil, sum_cons, sum_nil, elim_none, elim_some] at hsum ⊢
    omega

theorem le_sumBy (f : κ → β → ℕ) {m : FinMap κ β} {k : κ} {v : β} (h : m.lookup k = some v) :
    f k v ≤ sumBy f m := by
  have hmem : (⟨k, v⟩ : Sigma fun _ : κ => β) ∈ m.entries := mem_lookup_iff.mp h
  exact single_le_sum (fun _ _ => Nat.zero_le _) _ (mem_map_of_mem hmem)

end FinMap

end InfluxDB.Lib
