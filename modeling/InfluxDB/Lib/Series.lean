import Mathlib.Data.List.Sort
import Mathlib.Data.List.Pairwise
import Mathlib.Tactic.Linarith

/-! Lists of keyed points read as maps, the last point of a key winning.

    A log of writes, a decoded block, a merged block and the contents of a cache entry are all lists
    of `(key, value)` pairs. What such a list means is the partial function `latest`: the value of
    the last pair that carries the key. Lists with strictly increasing keys (`Ascending`) are
    determined by that function, so an equation between `latest`s and sortedness is all that is
    needed to identify the result of a merge. -/

namespace InfluxDB.Lib

open List Option

variable {κ α : Type*} [LinearOrder κ]

/-- Keys strictly increase along the list. -/
def Ascending (s : List (κ × α)) : Prop := s.Pairwise (fun p q => p.1 < q.1)

instance (s : List (κ × α)) : Decidable (Ascending s) := inferInstanceAs (Decidable (s.Pairwise _))

/-- Last-write-wins reading of a list of points. -/
def latest : List (κ × α) → κ → Option α
  | [], _ => none
  | p :: s, t => (latest s t).or (if p.1 = t then some p.2 else none)

@[simp] theorem latest_nil (t : κ) : latest ([] : List (κ × α)) t = none := rfl

theorem latest_cons (p : κ × α) (s : List (κ × α)) (t : κ) :
    latest (p :: s) t = (latest s t).or (if p.1 = t then some p.2 else none) := rfl

/-- Later lists shadow earlier ones. -/
theorem latest_append : ∀ (a b : List (κ × α)) (t : κ), latest (a ++ b) t = (latest b t).or (latest a t)
  | [], b, t => by simp
  | p :: a, b, t => by
    rw [cons_append, latest_cons, latest_append a b t, latest_cons, Option.or_assoc]

theorem latest_eq_none_iff : ∀ (s : List (κ × α)) (t : κ), latest s t = none ↔ ∀ p ∈ s, p.1 ≠ t
  | [], t => by simp
  | p :: s, t => by
    rw [latest_cons, or_eq_none_iff, latest_eq_none_iff s t]
    by_cases h : p.1 = t <;> simp [h]

theorem mem_of_latest_eq_some : ∀ {s : List (κ × α)} {t : κ} {v : α}, latest s t = some v → (t, v) ∈ s
  | p :: s, t, v, h => by
    rw [latest_cons, or_eq_some_iff] at h
    rcases h with h | ⟨_, h⟩
    · exact mem_cons_of_mem _ (mem_of_latest_eq_some h)
    · by_cases hp : p.1 = t
      · rw [if_pos hp] at h
        obtain rfl := some.inj h
        subst hp
        exact mem_cons_self
      · rw [if_neg hp] at h; cases h

variable {s : List (κ × α)} {p : κ × α}

theorem exists_latest_of_mem (h : p ∈ s) : ∃ v, latest s p.1 = some v := by
  cases hl : latest s p.1 with
  | none => exact absurd rfl ((latest_eq_none_iff s p.1).mp hl p h)
  | some v => exact ⟨v, rfl⟩

/-- Filtering by key restricts the map. -/
theorem latest_filter (f : κ → Bool) : ∀ (s : List (κ × α)) (t : κ),
    latest (s.filter (fun p => f p.1)) t = if f t then latest s t else none
  | [], t => by simp
  | p :: s, t => by
    rw [filter_cons]
    by_cases hp : p.1 = t
    · subst hp
      by_cases hf : f p.1 = true <;> simp [hf, latest_cons, latest_filter f s]
    · by_cases hf : f p.1 = true <;> by_cases ht : f t = true <;>
        simp [hf, ht, hp, latest_cons, latest_filter f s]

/-! ### Strictly increasing lists -/

theorem ascending_nil : Ascending ([] : List (κ × α)) := List.Pairwise.nil

theorem ascending_cons : Ascending (p :: s) ↔ (∀ q ∈ s, p.1 < q.1) ∧ Ascending s := pairwise_cons

variable {a b : List (κ × α)}

theorem ascending_append : Ascending (a ++ b) ↔ Ascending a ∧ Ascending b ∧ ∀ p ∈ a, ∀ q ∈ b, p.1 < q.1 :=
  pairwise_append

theorem Ascending.filter (f : κ × α → Bool) (h : Ascending s) :
    Ascending (s.filter f) := List.Pairwise.sublist filter_sublist h

theorem Ascending.sublist (hs : a.Sublist b) (h : Ascending b) : Ascending a := List.Pairwise.sublist hs h

theorem Ascending.nodup (h : Ascending s) : s.Nodup :=
  List.Pairwise.imp (fun hlt heq => absurd (heq ▸ hlt) (lt_irrefl _)) h

theorem Ascending.nodup_keys (h : Ascending s) : (s.map Prod.fst).Nodup := by
  rw [Nodup, pairwise_map]
  exact h.imp fun hlt => hlt.ne

/-- In a strictly increasing list every point is the only one of its key. -/
theorem Ascending.latest_eq_some_iff (h : Ascending s) {t : κ} {v : α} : latest s t = some v ↔ (t, v) ∈ s := by
  refine ⟨mem_of_latest_eq_some, fun hm => ?_⟩
  obtain ⟨w, hw⟩ := exists_latest_of_mem hm
  obtain ⟨-, rfl⟩ := Prod.mk.inj (inj_on_of_nodup_map h.nodup_keys (mem_of_latest_eq_some hw) hm rfl)
  exact hw

/-- The sorted form of a map holds only points of any list that stands for it. -/
theorem Ascending.subset_of_latest_eq (ha : Ascending a)
    (h : ∀ t, latest a t = latest b t) : a ⊆ b := fun ⟨t, _⟩ hp =>
  mem_of_latest_eq_some ((h t).symm.trans (ha.latest_eq_some_iff.mpr hp))

theorem Ascending.length_le_of_latest_eq (ha : Ascending a) (h : ∀ t, latest a t = latest b t) :
    a.length ≤ b.length :=
  (subperm_of_subset ha.nodup (ha.subset_of_latest_eq h)).length_le

/-- A strictly increasing list is determined by its points. -/
theorem Ascending.ext_mem (ha : Ascending a) (hb : Ascending b) (h : ∀ p, p ∈ a ↔ p ∈ b) : a = b :=
  ((perm_ext_iff_of_nodup ha.nodup hb.nodup).mpr h).eq_of_pairwise
    (fun _ _ _ _ hpq hqp => absurd hqp (lt_asymm hpq)) ha hb

/-- A strictly increasing list is determined by the map it stands for. -/
theorem Ascending.ext (ha : Ascending a) (hb : Ascending b) (h : ∀ t, latest a t = latest b t) : a = b :=
  ha.ext_mem hb fun ⟨t, v⟩ => by rw [← ha.latest_eq_some_iff, ← hb.latest_eq_some_iff, h]

/-- Two parts of a strictly increasing list, all of the first before all of the second, join to one part. -/
theorem Ascending.filter_append_filter {f g : κ × α → Bool} (ha : Ascending a)
    (h : ∀ p ∈ a, ∀ q ∈ a, f p → g q → p.1 < q.1) :
    a.filter f ++ a.filter g = a.filter fun p => f p || g p := by
  refine (ascending_append.mpr ⟨ha.filter f, ha.filter g, ?_⟩).ext_mem (ha.filter _) fun p => ?_
  · intro p hp q hq
    obtain ⟨hp, hf⟩ := mem_filter.mp hp
    obtain ⟨hq, hg⟩ := mem_filter.mp hq
    exact h p hp q hq hf hg
  · simp only [mem_append, mem_filter, Bool.or_eq_true]
    tauto

theorem Ascending.le_getLast (h : Ascending s) (hne : s ≠ []) (hp : p ∈ s) : p.1 ≤ (s.getLast hne).1 := by
  have hle : s.Pairwise fun p q => p.1 ≤ q.1 := h.imp le_of_lt
  exact hle.rel_getLast_of_rel_getLast_getLast hp le_rfl

theorem Ascending.le_concat {q : κ × α} (h : Ascending (s ++ [p])) (hq : q ∈ s ++ [p]) : q.1 ≤ p.1 := by
  simpa using h.le_getLast (append_ne_nil_of_right_ne_nil _ (cons_ne_nil _ _)) hq

/-- Behind as many points as there are up to a key, the points are later. -/
theorem Ascending.lt_of_countP_le : ∀ {s : List (κ × α)}, Ascending s → ∀ {i : ℕ} {k : κ} {x : κ × α},
    s.countP (fun p => p.1 ≤ k) ≤ i → s[i]? = some x → k < x.1 := by
  intro s
  induction s with
  | nil => intro _ i k x _ hx; simp at hx
  | cons p s ih =>
    intro h i k x hcount hx
    obtain ⟨hp, hs⟩ := ascending_cons.mp h
    by_cases hle : p.1 ≤ k
    · rw [countP_cons_of_pos (by simpa using hle)] at hcount
      obtain ⟨j, rfl⟩ : ∃ j, i = j + 1 := ⟨i - 1, by omega⟩
      rw [getElem?_cons_succ] at hx
      exact ih hs (by omega) hx
    · rcases mem_cons.mp (mem_of_getElem? hx) with rfl | hmem
      · exact not_le.mp hle
      · exact (not_le.mp hle).trans (hp x hmem)

/-- Disjoint supports commute. -/
theorem latest_append_comm (h : ∀ p ∈ a, ∀ q ∈ b, p.1 ≠ q.1) (t : κ) :
    latest (a ++ b) t = latest (b ++ a) t := by
  rw [latest_append, latest_append]
  cases ha : latest a t with
  | none => simp
  | some v =>
    have hb : latest b t = none := (latest_eq_none_iff b t).mpr fun q hq =>
      (h _ (mem_of_latest_eq_some ha) q hq).symm
    simp [hb]

/-! ### Several lists read as one map -/

/-- The value that the last list to carry the key gives it, or the first such list if not `lastWins`. -/
def overlay (lastWins : Bool) : List (List (κ × α)) → κ → Option α
  | [], _ => none
  | b :: bs, t =>
    if lastWins then (overlay lastWins bs t).or (latest b t) else (latest b t).or (overlay lastWins bs t)

section Overlay
variable {w : Bool} {ι : Type*}

@[simp] theorem overlay_nil (t : κ) : overlay w ([] : List (List (κ × α))) t = none := rfl

theorem overlay_cons (b : List (κ × α)) (bs : List (List (κ × α))) (t : κ) :
    overlay w (b :: bs) t = if w then (overlay w bs t).or (latest b t) else (latest b t).or (overlay w bs t) := rfl

variable (bs : List (List (κ × α)))

@[simp] theorem overlay_nil_cons (t : κ) : overlay w ([] :: bs) t = overlay w bs t := by
  cases w <;> simp [overlay_cons]

theorem overlay_singleton (b : List (κ × α)) (t : κ) : overlay w [b] t = latest b t := by
  cases w <;> simp [overlay_cons]

/-- A list on top of itself adds nothing. -/
theorem overlay_self_cons (b : List (κ × α)) (bs : List (List (κ × α))) (t : κ) :
    overlay w (b :: b :: bs) t = overlay w (b :: bs) t := by
  cases w
  · simp [overlay_cons, ← Option.or_assoc]
  · simp [overlay_cons, Option.or_assoc]

/-- Two neighbours may be merged first. -/
theorem overlay_merge {c : List (κ × α)} {bs : List (List (κ × α))} {t : κ}
    (h : latest c t = overlay w [a, b] t) : overlay w (c :: bs) t = overlay w (a :: b :: bs) t := by
  cases w <;> simp [overlay_cons, h, Option.or_assoc]

theorem overlay_map_filter (f : κ → Bool) (bs : List (List (κ × α))) (t : κ) :
    overlay w (bs.map fun b => b.filter fun p => f p.1) t = if f t then overlay w bs t else none := by
  induction bs with
  | nil => simp
  | cons b bs ih =>
    rw [map_cons, overlay_cons, overlay_cons, ih, latest_filter]
    cases f t <;> simp

/-- Empty lists may be left out. -/
theorem overlay_map_sublist {g : ι → List (κ × α)} {s l : List ι} (hs : s.Sublist l) (hnodup : l.Nodup)
    (hempty : ∀ i ∈ l, i ∉ s → g i = []) (t : κ) : overlay w (s.map g) t = overlay w (l.map g) t := by
  induction hs with
  | slnil => rfl
  | cons a hs ih =>
    obtain ⟨ha, hnodup⟩ := nodup_cons.mp hnodup
    rw [map_cons, hempty a mem_cons_self fun h => ha (hs.subset h), overlay_nil_cons]
    exact ih hnodup (forall_mem_cons.mp hempty).2
  | cons_cons a hs ih =>
    obtain ⟨ha, hnodup⟩ := nodup_cons.mp hnodup
    rw [map_cons, map_cons, overlay_cons, overlay_cons, ih hnodup fun i hi hs' =>
      hempty i (mem_cons_of_mem a hi) fun h => (mem_cons.mp h).elim (fun h => ha (h ▸ hi)) hs']

theorem exists_of_overlay_ne_none {bs : List (List (κ × α))} {t : κ} (h : overlay w bs t ≠ none) :
    ∃ b ∈ bs, latest b t ≠ none := by
  contrapose! h
  induction bs with
  | nil => rfl
  | cons b bs ih =>
    obtain ⟨hb, hbs⟩ := forall_mem_cons.mp h
    rw [overlay_cons, hb, ih hbs]
    cases w <;> rfl

theorem overlay_true (t : κ) : overlay true bs t = latest bs.flatten t := by
  induction bs with
  | nil => rfl
  | cons b bs ih => rw [overlay_cons, if_pos rfl, ih, flatten_cons, latest_append]

theorem overlay_false (t : κ) : overlay false bs t = latest bs.reverse.flatten t := by
  induction bs with
  | nil => rfl
  | cons b bs ih =>
    rw [overlay_cons, if_neg (by simp), ih, reverse_cons, flatten_append, latest_append, flatten_singleton]

end Overlay

/-- The order of the lists matters only between lists that share a key. -/
theorem latest_flatMap_of_perm {ι : Type*} {R : ι → ι → Prop} [Std.Asymm R] {l l' : List ι} (hperm : l.Perm l')
    (g : ι → List (κ × α)) (t : κ)
    (hl : l.Pairwise fun a b => latest (g a) t ≠ none → latest (g b) t ≠ none → R a b)
    (hl' : l'.Pairwise fun a b => latest (g a) t ≠ none → latest (g b) t ≠ none → R a b) :
    latest (l.flatMap g) t = latest (l'.flatMap g) t := by
  have hholds : ∀ m : List ι, latest (m.flatMap g) t =
      latest ((m.filter fun i => (latest (g i) t).isSome).flatMap g) t := by
    intro m
    induction m with
    | nil => rfl
    | cons a m ih =>
      rw [flatMap_cons, latest_append, filter_cons, ih]
      cases ha : latest (g a) t with
      | none => simp
      | some v => simp [latest_append, ha]
  have hpair : ∀ {m : List ι}, (m.Pairwise fun a b => latest (g a) t ≠ none →
      latest (g b) t ≠ none → R a b) → (m.filter fun i => (latest (g i) t).isSome).Pairwise R := by
    intro m hm
    refine (hm.filter _).imp_of_mem fun {a b} ha hb h => h ?_ ?_
    · exact isSome_iff_ne_none.mp (mem_filter.mp ha).2
    · exact isSome_iff_ne_none.mp (mem_filter.mp hb).2
  have heq : (l.filter fun i => (latest (g i) t).isSome) = l'.filter fun i => (latest (g i) t).isSome :=
    (hperm.filter _).eq_of_pairwise (fun a b _ _ hab hba => absurd hba (Std.Asymm.asymm a b hab)) (hpair hl) (hpair hl')
  rw [hholds l, hholds l', heq]

end InfluxDB.Lib
