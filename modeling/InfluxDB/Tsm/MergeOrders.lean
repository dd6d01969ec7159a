import InfluxDB.Tsm.BatchKeyIterator
import InfluxDB.Tsm.KeyCursor

/-!
    The orders that blocks are sorted by.  `blocks.Less` puts one block of a key before another if it ends
    before the other begins; `ascLocations.Less` and `descLocations.Less` compare the paths of the files of
    overlapping blocks and the times of others.  Overlapping is not transitive, and neither is what the
    functions make of it.
-/

namespace InfluxDB.Tsm

open Lib List

/-- The function is a strict weak ordering of the set, so all ways to sort elements of the set agree, up to
elements that it does not order. -/
structure Orders {τ : Type*} (less : τ → τ → Bool) (S : Set τ) : Prop where
  weak : IsStrictWeakOrder S fun x y => less x y
  sorted : ∀ l l' : List S, l.Perm l' → (l.Pairwise fun x y : S => ¬ less y x) →
    (l'.Pairwise fun x y : S => ¬ less y x) → Forall₂ (fun x y : S => ¬ less x y ∧ ¬ less y x) l l'

theorem orders_iff {τ : Type*} {less : τ → τ → Bool} {S : Set τ} :
    Orders less S ↔ IsStrictWeakOrder S fun x y => (less x y : Prop) :=
  ⟨Orders.weak, fun h => ⟨h, fun _ _ hperm hl hl' => forall₂_of_sorted hperm hl hl'⟩⟩

/-! ### Blocks of a compaction -/

namespace Compact.Block

variable {β : Type} {x y z : Block β}

/-- The time ranges of the blocks overlap. -/
def Meets (x y : Block β) : Prop := x.minTime ≤ y.maxTime ∧ y.minTime ≤ x.maxTime

theorem not_less_iff (hx : x.minTime ≤ x.maxTime) (hy : y.minTime ≤ y.maxTime) :
    ¬ less x y ∧ ¬ less y x ↔ x.key = y.key ∧ Meets x y := by
  by_cases hkey : x.key = y.key
  · simp only [less, hkey, if_true, true_and, Bool.and_eq_true, decide_eq_true_eq, Meets]
    omega
  · simp only [less, hkey, Ne.symm hkey, if_false, false_and, decide_eq_true_eq, not_lt, iff_false]
    exact fun h => hkey (le_antisymm h.2 h.1)

theorem less_trans (hxy : less x y) (hyz : less y z) : less x z := by
  simp only [less] at hxy hyz ⊢
  split_ifs at hxy hyz with hxy' hyz' hyz'
  · rw [if_pos (hxy'.trans hyz')]
    simp only [Bool.and_eq_true, decide_eq_true_eq] at hxy hyz ⊢
    omega
  · rwa [hxy', if_neg hyz']
  · rwa [← hyz', if_neg hxy']
  · rw [decide_eq_true_eq] at hxy hyz
    have hlt := hxy.trans hyz
    rw [if_neg hlt.ne]
    exact decide_eq_true hlt

theorem orders_less_iff {S : Set (Block β)} (hS : ∀ x ∈ S, x.minTime ≤ x.maxTime) :
    Orders less S ↔ ∀ x ∈ S, ∀ y ∈ S, ∀ z ∈ S, x.key = y.key → y.key = z.key → Meets x y →
      Meets y z → Meets x z := by
  rw [orders_iff]
  constructor
  · intro h x hx y hy z hz hxy hyz hmxy hmyz
    exact ((not_less_iff (hS x hx) (hS z hz)).mp (h.incomp_trans ⟨x, hx⟩ ⟨y, hy⟩ ⟨z, hz⟩
      ((not_less_iff (hS x hx) (hS y hy)).mpr ⟨hxy, hmxy⟩)
        ((not_less_iff (hS y hy) (hS z hz)).mpr ⟨hyz, hmyz⟩))).2
  · intro h
    refine { irrefl := fun x => ?_, trans := fun x y z => less_trans, incomp_trans := fun x y z hxy hyz => ?_ }
    · simp [less]
    · obtain ⟨hxy, hmxy⟩ := (not_less_iff (hS x x.2) (hS y y.2)).mp hxy
      obtain ⟨hyz, hmyz⟩ := (not_less_iff (hS y y.2) (hS z z.2)).mp hyz
      exact (not_less_iff (hS x x.2) (hS z z.2)).mpr ⟨hxy.trans hyz, h x x.2 y y.2 z z.2 hxy hyz hmxy hmyz⟩

end Compact.Block

/-! ### Locations of a cursor -/

namespace Location

variable {α : Type*} {x y z : Location α} {time : IndexEntry → ℤ}

/-- The time ranges of the blocks overlap. -/
def Meets (x y : Location α) : Prop := x.entry.minTime ≤ y.entry.maxTime ∧ y.entry.minTime ≤ x.entry.maxTime

/-- What both orders say about two blocks. -/
def Before (x y : Location α) : Prop := Meets x y ∧ x.r.path < y.r.path ∨ x.entry.maxTime < y.entry.minTime

/-- Blocks of files that are disjoint within a file. -/
structure Apart (T : Set (Location α)) : Prop where
  range : ∀ x ∈ T, x.entry.minTime ≤ x.entry.maxTime
  file : ∀ x ∈ T, ∀ y ∈ T, x.r.path = y.r.path → Meets x y → x = y

theorem lessBy_iff (htime : time = (·.minTime) ∨ time = (·.maxTime))
    (hx : x.entry.minTime ≤ x.entry.maxTime) (hy : y.entry.minTime ≤ y.entry.maxTime) :
    lessBy time x y ↔ Before x y := by
  rw [lessBy, Before, IndexEntry.overlapsTimeRange, Meets]
  split_ifs with hmeets <;> simp only [Bool.and_eq_true, decide_eq_true_eq] at hmeets ⊢
  · rw [and_iff_right hmeets, or_iff_left (by omega)]
  · rw [or_iff_right fun h => hmeets h.1]
    rcases htime with rfl | rfl <;> dsimp only <;> omega

/-- Three blocks in a circle: the first meets the second and that the third, of files in this order, and the
third ends before the first begins. -/
def Circle (x y z : Location α) : Prop :=
  x.r.path < y.r.path ∧ y.r.path < z.r.path ∧ Meets x y ∧ Meets y z ∧ z.entry.maxTime < x.entry.minTime

theorem exists_circle (hx : x.entry.minTime ≤ x.entry.maxTime) (hy : y.entry.minTime ≤ y.entry.maxTime)
    (hz : z.entry.minTime ≤ z.entry.maxTime) (hxy : Before x y) (hyz : Before y z) (hzx : Before z x) :
    Circle x y z ∨ Circle y z x ∨ Circle z x y := by
  simp only [Circle, Before, Meets] at *
  rcases hxy with ⟨hmxy, hxy⟩ | hxy <;> rcases hyz with ⟨hmyz, hyz⟩ | hyz <;>
    rcases hzx with ⟨hmzx, hzx⟩ | hzx
  · exact absurd (hxy.trans hyz) hzx.asymm
  · exact .inl ⟨hxy, hyz, hmxy, hmyz, hzx⟩
  · exact .inr (.inr ⟨hzx, hxy, hmzx, hmxy, hyz⟩)
  · omega
  · exact .inr (.inl ⟨hyz, hzx, hmyz, hmzx, hxy⟩)
  all_goals omega

variable {T : Set (Location α)}

theorem Apart.before_or_before (h : Apart T) (hx : x ∈ T) (hy : y ∈ T) (hne : x ≠ y) :
    Before x y ∨ Before y x := by
  by_cases hmeets : Meets x y
  · rcases lt_trichotomy x.r.path y.r.path with hlt | heq | hlt
    · exact .inl (.inl ⟨hmeets, hlt⟩)
    · exact absurd (h.file x hx y hy heq hmeets) hne
    · exact .inr (.inl ⟨hmeets.symm, hlt⟩)
  · rw [Meets, not_and_or, not_le, not_le] at hmeets
    exact hmeets.symm.imp .inr .inr

theorem Apart.asymm (h : Apart T) (hx : x ∈ T) (hy : y ∈ T) (hxy : Before x y) : ¬ Before y x := by
  have := h.range x hx
  have := h.range y hy
  simp only [Before, Meets] at *
  rintro (⟨hmeets, hyx⟩ | hyx)
  · rcases hxy with ⟨-, hxy⟩ | hxy
    · exact hxy.asymm hyx
    · omega
  · omega

theorem Apart.orders_iff (h : Apart T) (htime : time = (·.minTime) ∨ time = (·.maxTime)) :
    Orders (lessBy time) T ↔ ¬ ∃ x ∈ T, ∃ y ∈ T, ∃ z ∈ T, Circle x y z := by
  have hiff : ∀ x y : T, (lessBy time (x : Location α) y = true ↔ Before (x : Location α) y) := fun x y =>
    lessBy_iff htime (h.range x x.2) (h.range y y.2)
  rw [Tsm.orders_iff]
  simp only [hiff]
  constructor
  · rintro hweak ⟨x, hx, y, hy, z, hz, hxy, hyz, hmxy, hmyz, hzx⟩
    have hxz : Before x z :=
      hweak.trans ⟨x, hx⟩ ⟨y, hy⟩ ⟨z, hz⟩ (.inl ⟨hmxy, hxy⟩) (.inl ⟨hmyz, hyz⟩)
    exact h.asymm hx hz hxz (.inr hzx)
  · intro hcircle
    have heq : ∀ x y : T, ¬ Before (x : Location α) y ∧ ¬ Before (y : Location α) x → x = y :=
      fun x y hxy => by
      by_contra hne
      exact (h.before_or_before x.2 y.2 fun heq => hne (Subtype.ext heq)).elim hxy.1 hxy.2
    refine { irrefl := fun x hx => h.asymm x.2 x.2 hx hx, trans := fun x y z hxy hyz => ?_, incomp_trans := ?_ }
    · by_contra hxz
      have hzx : Before (z : Location α) x := by
        by_contra hzx
        obtain rfl := heq x z ⟨hxz, hzx⟩
        exact h.asymm x.2 y.2 hxy hyz
      rcases exists_circle (h.range x x.2) (h.range y y.2) (h.range z z.2) hxy hyz hzx with hc | hc | hc
      · exact hcircle ⟨x, x.2, y, y.2, z, z.2, hc⟩
      · exact hcircle ⟨y, y.2, z, z.2, x, x.2, hc⟩
      · exact hcircle ⟨z, z.2, x, x.2, y, y.2, hc⟩
    · intro x y z hxy hyz
      obtain rfl := heq x y hxy
      exact hyz

end Location

/-- The blocks of some files, with the locations of a key in them. -/
structure FileBlocks (β : Type) (α : Type*) where
  blocks : Set (Compact.Block β)
  range : ∀ x ∈ blocks, x.minTime ≤ x.maxTime
  locations : Set (Location α)
  apart : Location.Apart locations

/-- The order of a compaction is a strict weak ordering exactly if overlapping is transitive on the blocks
of a key, and the orders of a cursor are exactly if no three blocks stand in a circle. -/
theorem merge_orders_iff {β : Type} {α : Type*} (F : FileBlocks β α) :
    (Orders Compact.Block.less F.blocks ↔ ∀ x ∈ F.blocks, ∀ y ∈ F.blocks, ∀ z ∈ F.blocks,
      x.key = y.key → y.key = z.key →
        x.Meets y → y.Meets z → x.Meets z) ∧
      (Orders Location.ascLess F.locations ↔
        ¬ ∃ x ∈ F.locations, ∃ y ∈ F.locations, ∃ z ∈ F.locations, Location.Circle x y z) ∧
      (Orders Location.descLess F.locations ↔
        ¬ ∃ x ∈ F.locations, ∃ y ∈ F.locations, ∃ z ∈ F.locations, Location.Circle x y z) :=
  ⟨Compact.Block.orders_less_iff F.range, F.apart.orders_iff (.inl rfl), F.apart.orders_iff (.inr rfl)⟩

/-- A block of one key. -/
def rangeBlock (min max : ℤ) : Compact.Block Unit := ⟨[], min, max, 0, (), [], 0, 0⟩

/-- A block of the file with a name of one byte. -/
def rangeLocation (path : Byte) (min max : ℤ) : Location Unit :=
  { r := ⟨[path], min, max, .ok [], [], fun _ => .ok []⟩, entry := ⟨min, max, 0, 0⟩,
    readMin := 0, readMax := 0 }

/-- A file has blocks with the times 0 to 1 and 5 to 6 and another file one with 0 to 10; and three files
have these blocks, the latest first. -/
def circleBlocks : FileBlocks Unit Unit where
  blocks := {rangeBlock 0 1, rangeBlock 5 6, rangeBlock 0 10}
  range := by rintro x (rfl | rfl | rfl) <;> decide
  locations := {rangeLocation 1 5 6, rangeLocation 2 0 10, rangeLocation 3 0 1}
  apart := by
    refine ⟨?_, ?_⟩
    · rintro x (rfl | rfl | rfl) <;> decide
    · rintro x (rfl | rfl | rfl) y (rfl | rfl | rfl) hpath
      all_goals first
        | exact fun _ => rfl
        | exact absurd hpath (by decide)

theorem merge_orders_circle :
    ¬ Orders Compact.Block.less circleBlocks.blocks ∧ ¬ Orders Location.ascLess circleBlocks.locations ∧
      ¬ Orders Location.descLess circleBlocks.locations := by
  refine ⟨fun h => ?_, fun h => ?_, fun h => ?_⟩
  · exact (h.weak.incomp_trans ⟨rangeBlock 0 1, .inl rfl⟩ ⟨rangeBlock 0 10, .inr (.inr rfl)⟩
      ⟨rangeBlock 5 6, .inr (.inl rfl)⟩ (by decide) (by decide)).1 (by decide)
  all_goals
    have hxz := h.weak.trans ⟨rangeLocation 1 5 6, .inl rfl⟩ ⟨rangeLocation 2 0 10, .inr (.inl rfl)⟩
      ⟨rangeLocation 3 0 1, .inr (.inr rfl)⟩ (by decide) (by decide)
    exact absurd hxz (by decide)

end InfluxDB.Tsm
