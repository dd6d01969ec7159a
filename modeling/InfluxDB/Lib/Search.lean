import InfluxDB.Lib.Series
import Mathlib.Data.List.Chain

/-! Binary search and insertion sort as Go's `sort` package runs them.

    `sortSearch n f` is `sort.Search`: the midpoint loop over `[0, n)`. `insertionSort less` is the
    insertion sort that `sort.Stable` performs on a short slice: each element is swapped to the left
    past the elements it is less than. `less` need not be an order at all, and what survives then is
    stated without one: the result is a permutation, no neighbours are inverted, and every swap
    exchanged a pair with `less x y`. -/

namespace InfluxDB.Lib

open List

/-! ### Binary search -/

/-- The loop of `sort.Search` over `[lo, hi)`; `fuel` bounds the number of halvings. -/
def searchLoop (f : ℕ → Bool) : ℕ → ℕ → ℕ → ℕ
  | 0, lo, _ => lo
  | fuel + 1, lo, hi =>
    if lo < hi then
      let h := (lo + hi) / 2
      if f h then searchLoop f fuel lo h else searchLoop f fuel (h + 1) hi
    else lo

/-- `sort.Search(n, f)`. -/
def sortSearch (n : ℕ) (f : ℕ → Bool) : ℕ := searchLoop f n 0 n

theorem drop_of_getElem? {α : Type*} {l : List α} {i : ℕ} {a : α} (h : l[i]? = some a) :
    l.drop i = a :: l.drop (i + 1) := by
  obtain ⟨hi, rfl⟩ := List.getElem?_eq_some_iff.mp h
  exact drop_eq_getElem_cons hi

variable {f : ℕ → Bool} {n : ℕ}

theorem searchLoop_spec
    (hf : ∀ i j, i ≤ j → j < n → f i = true → f j = true) : ∀ (fuel lo hi : ℕ),
    hi - lo ≤ fuel → lo ≤ hi → hi ≤ n → (∀ i < lo, f i = false) →
      (∀ i, hi ≤ i → i < n → f i = true) →
    (∀ i < searchLoop f fuel lo hi, f i = false) ∧
      (∀ i, searchLoop f fuel lo hi ≤ i → i < n → f i = true) ∧ searchLoop f fuel lo hi ≤ n
  | 0, lo, hi, hfuel, hle, hn, hlo, hhi => by
    obtain rfl : lo = hi := by omega
    exact ⟨hlo, hhi, hn⟩
  | fuel + 1, lo, hi, hfuel, hle, hn, hlo, hhi => by
    rw [searchLoop]
    by_cases hlt : lo < hi
    · rw [if_pos hlt]
      by_cases hm : f ((lo + hi) / 2) = true
      · simp only [hm, if_true]
        refine searchLoop_spec hf fuel lo _ (by omega) (by omega) (by omega) hlo ?_
        exact fun i hi' hin => hf _ i hi' hin hm
      · simp only [hm, Bool.false_eq_true, if_false]
        refine searchLoop_spec hf fuel _ hi (by omega) (by omega) hn ?_ hhi
        intro i hi'
        by_contra hc
        exact hm (hf i _ (by omega) (by omega) (by simpa using hc))
    · rw [if_neg hlt]
      obtain rfl : lo = hi := by omega
      exact ⟨hlo, hhi, hn⟩

/-- On a monotone test the search returns the first index that passes. -/
theorem sortSearch_spec (hf : ∀ i j, i ≤ j → j < n → f i = true → f j = true) :
    (∀ i < sortSearch n f, f i = false) ∧ (∀ i, sortSearch n f ≤ i → i < n → f i = true) ∧
      sortSearch n f ≤ n :=
  searchLoop_spec hf n 0 n (by omega) (by omega) le_rfl (by simp) (by omega)

/-- Splitting a list at the position a search over it returns. -/
theorem sortSearch_split {β : Type*} (l : List β) (g : β → Bool) (f : ℕ → Bool)
    (hfg : ∀ i (h : i < l.length), f i = g l[i]) (hmono : l.Pairwise (fun x y => g x = true → g y = true)) :
    l.take (sortSearch l.length f) = l.takeWhile (fun x => !g x) ∧
      l.drop (sortSearch l.length f) = l.dropWhile (fun x => !g x) ∧
      sortSearch l.length f ≤ l.length := by
  have hf : ∀ i j, i ≤ j → j < l.length → f i = true → f j = true := by
    intro i j hij hj hi
    rcases hij.eq_or_lt with rfl | hlt
    · exact hi
    · rw [hfg j hj]
      rw [hfg i (by omega)] at hi
      exact pairwise_iff_getElem.mp hmono i j (by omega) hj hlt hi
  obtain ⟨hlo, hhi, hle⟩ := sortSearch_spec hf
  set r := sortSearch l.length f with hr
  have htk : ∀ x ∈ l.take r, (!g x) = true := by
    intro x hx
    obtain ⟨i, hi, rfl⟩ := mem_take_iff_getElem.mp hx
    have := hlo i (by omega)
    rw [hfg i (by omega)] at this
    simp [this]
  have hdr : (l.drop r).dropWhile (fun x => !g x) = l.drop r ∧ (l.drop r).takeWhile (fun x => !g x) = [] := by
    by_cases hlt : r < l.length
    · have := hhi r le_rfl hlt
      rw [hfg r hlt] at this
      rw [drop_eq_getElem_cons hlt, dropWhile_cons, takeWhile_cons]
      simp [this]
    · rw [drop_of_length_le (by omega)]; simp
  have hsplit : l = l.take r ++ l.drop r := (take_append_drop r l).symm
  refine ⟨?_, ?_, hle⟩
  · conv_rhs => rw [hsplit]
    rw [takeWhile_append_of_pos htk, hdr.2, append_nil]
  · conv_rhs => rw [hsplit]
    rw [dropWhile_append_of_pos htk, hdr.1]

/-! ### Insertion sort -/

variable {β : Type*}

/-- Swap `x` to the left while it is less than its neighbour; `r` is the sorted part, last first. -/
def sink (less : β → β → Bool) (x : β) : List β → List β
  | [] => [x]
  | y :: r => if less x y then y :: sink less x r else x :: y :: r

/-- Go's `insertionSort(data, 0, n)`. -/
def insertionSort (less : β → β → Bool) (l : List β) : List β := (l.foldl (fun r x => sink less x r) []).reverse

variable {less : β → β → Bool} {γ : Type*} (f : β → γ)

/-- One insertion keeps the sorted part, last first, free of inverted neighbours. -/
theorem isChain_sink (hasymm : ∀ x y, less x y = true → less y x = false)
    (x : β) : ∀ {r : List β}, r.IsChain (fun x y => less x y = false) →
    (sink less x r).IsChain (fun x y => less x y = false)
  | [], _ => isChain_singleton x
  | y :: r, h => by
    rw [sink]
    split
    · rename_i hxy
      have ih := isChain_sink hasymm x (List.IsChain.of_cons h)
      -- the head of the tail is `x` itself or the old neighbour of `y`
      cases r with
      | nil => exact isChain_pair.mpr (hasymm x y hxy)
      | cons z r =>
        rw [sink] at ih ⊢
        split at ih
        · rename_i hz
          rw [if_pos hz]
          exact isChain_cons_cons.mpr ⟨(isChain_cons_cons.mp h).1, ih⟩
        · rename_i hz
          rw [if_neg hz]
          exact isChain_cons_cons.mpr ⟨hasymm x y hxy, ih⟩
    · rename_i hxy
      exact isChain_cons_cons.mpr ⟨by simpa using hxy, h⟩

theorem isChain_foldl_sink
    (hasymm : ∀ x y, less x y = true → less y x = false) : ∀ (l : List β) {r : List β},
    r.IsChain (fun x y => less x y = false) →
    (l.foldl (fun r x => sink less x r) r).IsChain (fun x y => less x y = false)
  | [], _, h => h
  | x :: l, _, h => isChain_foldl_sink hasymm l (isChain_sink hasymm x h)

/-- The sorted list has no inverted neighbours, for any asymmetric `less`. -/
theorem insertionSort_isChain (hasymm : ∀ x y, less x y = true → less y x = false) (l : List β) :
    (insertionSort less l).IsChain (fun x y => less y x = false) :=
  isChain_reverse.mpr (isChain_foldl_sink hasymm l (r := []) isChain_nil)

theorem sink_of_head {x : β} : ∀ {r : List β}, (∀ y ∈ r.head?, less x y = false) → sink less x r = x :: r
  | [], _ => rfl
  | y :: r, h => by rw [sink, if_neg]; simpa using h y rfl

theorem foldl_sink_of_isChain : ∀ (l r : List β),
    (r.reverse ++ l).IsChain (fun x y => less y x = false) →
    l.foldl (fun r x => sink less x r) r = l.reverse ++ r
  | [], _, _ => rfl
  | x :: l, r, h => by
    have hx : sink less x r = x :: r := by
      refine sink_of_head fun y hy => ?_
      rw [isChain_append] at h
      exact h.2.2 y (by simpa using hy) x rfl
    rw [foldl_cons, hx, foldl_sink_of_isChain l (x :: r) (by simpa using h)]
    simp

/-- A list without inverted neighbours is left as it is. -/
theorem insertionSort_of_isChain {l : List β}
    (h : l.IsChain (fun x y => less y x = false)) : insertionSort less l = l := by
  rw [insertionSort, foldl_sink_of_isChain l [] (by simpa using h)]
  simp

theorem sink_map {less : γ → γ → Bool} (x : β) (r : List β) :
    sink less (f x) (r.map f) = (sink (fun a b => less (f a) (f b)) x r).map f := by
  induction r with
  | nil => rfl
  | cons y r ih =>
    rw [map_cons, sink, sink, ih]
    split_ifs <;> rfl

/-- Sorting by what a function gives, before or after it is applied. -/
theorem insertionSort_map {less : γ → γ → Bool} (l : List β) :
    insertionSort less (l.map f) = (insertionSort (fun a b => less (f a) (f b)) l).map f := by
  have hfold : ∀ r : List β, (l.map f).foldl (fun r x => sink less x r) (r.map f) =
      (l.foldl (fun r x => sink (fun a b => less (f a) (f b)) x r) r).map f := by
    induction l with
    | nil => exact fun r => rfl
    | cons x l ih =>
      intro r
      rw [map_cons, foldl_cons, foldl_cons, sink_map, ih]
  rw [insertionSort, insertionSort, map_reverse]
  exact congrArg reverse (hfold [])

/-- Anything read off the list that no swap of a `less` pair changes, sorting does not change. -/
theorem insertionSort_invariant (F : List β → γ)
    (hswap : ∀ (a b : List β) (x y : β), less x y = true → F (a ++ y :: x :: b) = F (a ++ x :: y :: b))
    (l : List β) : F (insertionSort less l) = F l := by
  have hsink : ∀ (x : β) (r b : List β), F ((sink less x r).reverse ++ b) = F (r.reverse ++ x :: b) := by
    intro x r
    induction r with
    | nil => intro b; rfl
    | cons y r ih =>
      intro b
      rw [sink]
      split
      · rename_i h
        have := ih (y :: b)
        simp only [reverse_cons, append_assoc, singleton_append] at this ⊢
        rw [this, hswap _ _ _ _ h]
      · simp
  have hfold : ∀ (l r : List β), F (l.foldl (fun r x => sink less x r) r).reverse = F (r.reverse ++ l) := by
    intro l
    induction l with
    | nil => intro r; simp
    | cons x l ih => intro r; rw [foldl_cons, ih, hsink]
  exact hfold l []

theorem insertionSort_perm (less : β → β → Bool) (l : List β) : (insertionSort less l).Perm l := by
  have hinv : (insertionSort less l).Perm l = l.Perm l := insertionSort_invariant (fun s => s.Perm l)
    (fun a b x y _ => propext (((List.Perm.swap x y b).append_left a).congr_left l)) l
  exact hinv.mpr (List.Perm.refl l)

/-! ### The ends of a sorted list -/

section

variable {β : Type*} [Preorder β] {l : List β} (h : l.Pairwise (· ≤ ·)) (hne : l ≠ []) (d : β)
include h hne

theorem isLeast_headD : IsLeast { x | x ∈ l } (l.headD d) := by
  rw [headD_eq_head?_getD, head?_eq_some_head hne]
  exact ⟨head_mem hne, fun x hx => h.rel_head hx⟩

theorem isGreatest_getLastD : IsGreatest { x | x ∈ l } (l.getLastD d) := by
  rw [getLastD_eq_getLast?, getLast?_eq_some_getLast hne]
  exact ⟨getLast_mem hne, fun x hx => h.rel_getLast hx⟩

end

/-! ### Picking the least -/

/-- A loop that replaces its accumulator by smaller admissible values ends at or below all of them. -/
theorem foldl_pick {ι β : Type*} [LinearOrder β] (f : ι → β) (ok : ι → Bool) (l : List ι) (m : β) :
    let r := l.foldl (fun m i => if f i < m ∧ ok i then f i else m) m
    r ≤ m ∧ (∀ i ∈ l, ok i = true → r ≤ f i) ∧ (r = m ∨ ∃ i ∈ l, r = f i) := by
  induction l generalizing m with
  | nil => simp
  | cons i l ih =>
    obtain ⟨hle, hall, hor⟩ := ih (if f i < m ∧ ok i then f i else m)
    rw [foldl_cons]
    by_cases hi : f i < m ∧ ok i
    · rw [if_pos hi] at hle hall hor ⊢
      refine ⟨hle.trans hi.1.le, forall_mem_cons.mpr ⟨fun _ => hle, hall⟩, .inr ?_⟩
      rcases hor with hm | ⟨j, hj, hm⟩
      · exact ⟨i, mem_cons_self, hm⟩
      · exact ⟨j, mem_cons_of_mem i hj, hm⟩
    · rw [if_neg hi] at hle hall hor ⊢
      refine ⟨hle, forall_mem_cons.mpr ⟨fun hr => ?_, hall⟩, ?_⟩
      · rw [not_and_or] at hi
        exact hle.trans (not_lt.mp (hi.resolve_right (by simp [hr])))
      · exact hor.imp_right fun ⟨j, hj, hm⟩ => ⟨j, mem_cons_of_mem i hj, hm⟩

theorem foldl_pick_max {ι : Type*} [LinearOrder β] (f : ι → β) (ok : ι → Bool) (l : List ι) (m : β) :
    let r := l.foldl (fun m i => if f i > m ∧ ok i then f i else m) m
    m ≤ r ∧ (∀ i ∈ l, ok i = true → f i ≤ r) ∧ (r = m ∨ ∃ i ∈ l, r = f i) :=
  @foldl_pick ι βᵒᵈ _ f ok l m

theorem foldl_min {ι : Type*} [LinearOrder β] (f : ι → β) (l : List ι) (m : β) :
    let r := l.foldl (fun m i => min m (f i)) m
    r ≤ m ∧ (∀ i ∈ l, r ≤ f i) ∧ (r = m ∨ ∃ i ∈ l, r = f i) := by
  have hmin : (fun m i => min m (f i)) = fun m i => if f i < m ∧ true then f i else m := by
    funext m i
    rcases lt_or_ge (f i) m with h | h
    · simp [h, h.le]
    · simp [h, h.not_gt]
  simpa [hmin] using foldl_pick f (fun _ => true) l m

theorem foldl_max {ι : Type*} [LinearOrder β] (f : ι → β) (l : List ι) (m : β) :
    let r := l.foldl (fun m i => max m (f i)) m
    m ≤ r ∧ (∀ i ∈ l, f i ≤ r) ∧ (r = m ∨ ∃ i ∈ l, r = f i) :=
  @foldl_min βᵒᵈ ι _ f l m

/-! ### Strict weak orders -/

section WeakOrder

open List

variable {τ : Type*} {less : τ → τ → Prop} [IsStrictWeakOrder τ less]

theorem less_or_less {a b c : τ} (h : less a c) : less a b ∨ less b c := by
  by_contra hneg
  obtain ⟨hab, hbc⟩ := not_or.mp hneg
  have hba : ¬ less b a := fun hba => hbc (IsTrans.trans _ _ _ hba h)
  have hcb : ¬ less c b := fun hcb => hab (IsTrans.trans _ _ _ h hcb)
  exact (IsStrictWeakOrder.incomp_trans a b c ⟨hab, hba⟩ ⟨hbc, hcb⟩).1 h

/-- Of two sorted orders of the same elements, neither has a lesser element at some place. -/
theorem not_less_of_sorted {u u' v v' : List τ} {x y : τ} (hperm : (u ++ x :: v).Perm (u' ++ y :: v'))
    (hl : (u ++ x :: v).Pairwise fun a b => ¬ less b a) (hl' : (u' ++ y :: v').Pairwise fun a b => ¬ less b a)
    (hlen : u.length = u'.length) : ¬ less x y := by
  classical
  intro hlt
  obtain ⟨-, -, hu⟩ := pairwise_append.mp hl
  obtain ⟨-, hv', -⟩ := pairwise_append.mp hl'
  -- more elements are less than `y` in the first order than in the second
  have hmany : u.length + 1 ≤ (u ++ x :: v).countP (less · y) := by
    rw [countP_append, countP_cons_of_pos (by simpa using hlt), countP_eq_length.mpr]
    · omega
    · exact fun z hz => decide_eq_true ((less_or_less hlt).resolve_left (hu z hz x mem_cons_self))
  have hfew : (u' ++ y :: v').countP (less · y) ≤ u'.length := by
    have hnone : (y :: v').countP (less · y) = 0 := by
      refine countP_eq_zero.mpr ?_
      rintro z (_ | ⟨_, hz⟩)
      · simpa using Std.Irrefl.irrefl (r := less) y
      · simpa using rel_of_pairwise_cons hv' hz
    rw [countP_append, hnone]
    exact countP_le_length
  rw [hperm.countP_eq] at hmany
  omega

/-- All sorted orders of the same elements agree, up to elements that are not ordered. -/
theorem forall₂_of_sorted {l l' : List τ} (hperm : l.Perm l') (hl : l.Pairwise fun a b => ¬ less b a)
    (hl' : l'.Pairwise fun a b => ¬ less b a) : Forall₂ (fun a b => ¬ less a b ∧ ¬ less b a) l l' := by
  have hsplit : ∀ (l : List τ) (i : ℕ) (h : i < l.length), l.take i ++ l[i] :: l.drop (i + 1) = l :=
    fun l i h => by
    rw [getElem_cons_drop, take_append_drop]
  refine forall₂_iff_get.mpr ⟨hperm.length_eq, fun i h h' => ?_⟩
  rw [← hsplit l i h] at hperm hl
  rw [← hsplit l' i h'] at hperm hl'
  have hlen : (l.take i).length = (l'.take i).length := by
    rw [length_take, length_take]
    omega
  exact ⟨not_less_of_sorted hperm hl hl' hlen, not_less_of_sorted hperm.symm hl' hl hlen.symm⟩

end WeakOrder

end InfluxDB.Lib
