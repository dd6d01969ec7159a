import Mathlib.Data.Finset.Card
import Mathlib.Data.List.Range
import Mathlib.Data.Nat.Bitwise
import Mathlib.Tactic.Linarith

/-!
    Hash tables with Robin Hood hashing, and the search in a table that may be read from elsewhere.

    The slots of a table are numbered from zero up to a capacity, which is a power of two.  An element
    goes to the slot of its hash or one of those behind it; an element that is nearer to the slot of its
    hash than the one to be inserted gives way.  So on the way from the slot of its hash to an element
    there are only elements that are at least as far from theirs as the search has come (`Probed`), and a
    search may stop at the first one that is nearer.  The hash of a key is a parameter.
-/

namespace InfluxDB.Lib.RobinHood

open List Option Function Nat Prod

variable {κ ν ε : Type}

/-- `Dist`: how far a slot is behind that of a hash. -/
def dist (hash i capacity : ℕ) : ℕ := (i + capacity - (hash &&& (capacity - 1))) &&& (capacity - 1)

/-- The slots of a table. -/
abbrev Slots (κ ν : Type) := ℕ → Option (κ × ν)

section

variable [DecidableEq κ]

/-- The loop of `insert`; the result says whether the key was overwritten.  The key of an empty slot
is `nil`, so that key seems to be there.  In a full table the loop does not end. -/
def insertLoop (hash : κ → ℕ) (nil : κ) (capacity : ℕ) :
    ℕ → Slots κ ν → ℕ → ℕ → κ → ν → Option (Bool × Slots κ ν)
  | 0, _, _, _, _, _ => none
  | fuel + 1, slots, pos, d, key, val =>
    match slots pos with
    | none => some (decide (key = nil), update slots pos (some (key, val)))
    | some e =>
      if e.1 = key then some (true, update slots pos (some (key, val)))
      else
        let elemDist := dist (hash e.1) pos capacity
        if elemDist < d then
          insertLoop hash nil capacity fuel (update slots pos (some (key, val))) ((pos + 1) &&& (capacity - 1))
            (elemDist + 1) e.1 e.2
        else insertLoop hash nil capacity fuel slots ((pos + 1) &&& (capacity - 1)) (d + 1) key val

def insert (hash : κ → ℕ) (nil : κ) (capacity : ℕ) (slots : Slots κ ν) (key : κ) (val : ν) :
    Option (Bool × Slots κ ν) :=
  insertLoop hash nil capacity capacity slots (hash key &&& (capacity - 1)) 0 key val

/-- The loop of `pow2`, from a power of two on. -/
def pow2Loop : ℕ → ℕ → ℕ → ℕ
  | 0, i, _ => i
  | fuel + 1, i, v => if v ≤ i then i else pow2Loop fuel (i * 2) v

/-- The next power of two, at least 2. -/
def pow2 (v : ℕ) : ℕ := pow2Loop v 2 v

structure HashMap (κ ν : Type) where
  /-- The number of keys. -/
  n : ℕ
  capacity : ℕ
  loadFactor : ℕ
  slots : Slots κ ν

namespace HashMap

def new (capacity loadFactor : ℕ) : HashMap κ ν :=
  { n := 0, capacity := pow2 capacity, loadFactor := loadFactor, slots := fun _ => none }

def threshold (m : HashMap κ ν) : ℕ := m.capacity * m.loadFactor / 100

/-- The elements in the order of their slots. -/
def elems (m : HashMap κ ν) : List (κ × ν) := (range m.capacity).filterMap m.slots

/-- Insert elements one after the other. -/
def insertAll (hash : κ → ℕ) (nil : κ) (capacity : ℕ) : Slots κ ν → List (κ × ν) → Option (Slots κ ν)
  | slots, [] => some slots
  | slots, e :: es =>
    match insert hash nil capacity slots e.1 e.2 with
    | none => none
    | some (_, slots) => insertAll hash nil capacity slots es

/-- Increase the capacity and insert all elements again. -/
def grow (hash : κ → ℕ) (nil : κ) (m : HashMap κ ν) (sz : ℕ) : Option (HashMap κ ν) :=
  if pow2 sz ≤ m.capacity then some m
  else
    match insertAll hash nil (pow2 sz) (fun _ => none) m.elems with
    | none => none
    | some slots => some { m with capacity := pow2 sz, slots := slots }

/-- A key more is counted, and the map grows if it has run out of slots. -/
def makeRoom (hash : κ → ℕ) (nil : κ) (m : HashMap κ ν) : Option (HashMap κ ν) :=
  let m : HashMap κ ν := { m with n := m.n + 1 }
  if m.n > m.threshold then m.grow hash nil (m.capacity * 2) else some m

def put (hash : κ → ℕ) (nil : κ) (m : HashMap κ ν) (key : κ) (val : ν) : Option (HashMap κ ν) :=
  match m.makeRoom hash nil with
  | none => none
  | some m =>
    match insert hash nil m.capacity m.slots key val with
    | none => none
    | some (overwritten, slots) => some { m with n := if overwritten then m.n - 1 else m.n, slots := slots }

end HashMap

/-- The loop of a search in a table whose slots are read one after the other; reading may fail. -/
def searchLoop (hash : κ → ℕ) (capacity : ℕ) (read : ℕ → Option (Option (κ × ε))) (key : κ) :
    ℕ → ℕ → ℕ → Option (Option ε)
  -- The search has gone further than the capacity.
  | 0, _, _ => some none
  | fuel + 1, pos, d =>
    match read pos with
    | none => none
    | some none => some none
    | some (some e) =>
      if e.1 = key then some (some e.2)
      else if d > dist (hash e.1) pos capacity then some none
      else searchLoop hash capacity read key fuel ((pos + 1) % capacity) (d + 1)

def search (hash : κ → ℕ) (capacity : ℕ) (read : ℕ → Option (Option (κ × ε))) (key : κ) :
    Option (Option ε) :=
  searchLoop hash capacity read key (capacity + 1) (hash key % capacity) 0

end

/-! ### Distances -/

variable {hash : κ → ℕ} {capacity : ℕ} {slots : Slots κ ν} {key : κ} {val : ν}

/-- The capacity is a power of two. -/
def IsPow (capacity : ℕ) : Prop := ∃ e, capacity = 2 ^ e

section

variable (h : IsPow capacity) (x : ℕ)
include h

theorem IsPow.pos : 0 < capacity := by
  obtain ⟨e, rfl⟩ := h
  exact Nat.two_pow_pos e

theorem IsPow.and_mask : x &&& (capacity - 1) = x % capacity := by
  obtain ⟨e, rfl⟩ := h
  exact and_two_pow_sub_one_eq_mod x e

theorem IsPow.dist_lt (x i : ℕ) : dist x i capacity < capacity := by
  rw [dist, h.and_mask]
  exact mod_lt _ h.pos

/-- A slot is as far behind that of a hash as the distance says. -/
theorem IsPow.add_dist {i : ℕ} (hi : i < capacity) : (x + dist x i capacity) % capacity = i := by
  have hx := mod_lt x h.pos
  rw [dist, h.and_mask, h.and_mask, add_mod_mod, ← mod_add_mod,
    show x % capacity + (i + capacity - x % capacity) = i + capacity by omega, add_mod_right, mod_eq_of_lt hi]

theorem IsPow.dist_add {d : ℕ} (hd : d < capacity) : dist x ((x + d) % capacity) capacity = d := by
  have hx := mod_lt x h.pos
  rw [dist, h.and_mask, h.and_mask, ← mod_add_mod]
  rcases lt_or_ge (x % capacity + d) capacity with hlt | hge
  · rw [mod_eq_of_lt hlt, show x % capacity + d + capacity - x % capacity = d + capacity by omega, add_mod_right,
      mod_eq_of_lt hd]
  · rw [mod_eq_sub_mod hge, mod_eq_of_lt (show x % capacity + d - capacity < capacity by omega),
      show x % capacity + d - capacity + capacity - x % capacity = d by omega, mod_eq_of_lt hd]

end

theorem pow2Loop_spec (fuel : ℕ) {i v : ℕ} (hi : IsPow i) (hpos : v ≤ i + fuel) (hi0 : 0 < i) :
    IsPow (pow2Loop fuel i v) ∧ v ≤ pow2Loop fuel i v := by
  induction fuel generalizing i with
  | zero => exact ⟨hi, by rw [pow2Loop]; omega⟩
  | succ fuel ih =>
    rw [pow2Loop]
    split_ifs with hv
    · exact ⟨hi, hv⟩
    · obtain ⟨e, he⟩ := hi
      exact ih ⟨e + 1, by rw [he, pow_succ]⟩ (by omega) (by omega)

theorem isPow_pow2 (v : ℕ) : IsPow (pow2 v) := (pow2Loop_spec v ⟨1, rfl⟩ (by omega) (by omega)).1

theorem le_pow2 (v : ℕ) : v ≤ pow2 v := (pow2Loop_spec v ⟨1, rfl⟩ (by omega) (by omega)).2

/-! ### Tables -/

/-- The elements of a table. -/
def Has (capacity : ℕ) (slots : Slots κ ν) (key : κ) (val : ν) : Prop :=
  ∃ p < capacity, slots p = some (key, val)

/-- The first slots of the way of a key hold elements that are at least as far from the slots of their hashes. -/
def Way (hash : κ → ℕ) (capacity : ℕ) (slots : Slots κ ν) (key : κ) (d : ℕ) : Prop :=
  ∀ i < d, ∃ e, slots ((hash key + i) % capacity) = some e ∧
    i ≤ dist (hash e.1) ((hash key + i) % capacity) capacity

/-- Elements are found on the ways of their keys, and a key is in one slot only. -/
structure Probed (hash : κ → ℕ) (capacity : ℕ) (slots : Slots κ ν) : Prop where
  way : ∀ p < capacity, ∀ e, slots p = some e → Way hash capacity slots e.1 (dist (hash e.1) p capacity)
  unique : ∀ p < capacity, ∀ q < capacity, ∀ e e', slots p = some e → slots q = some e' → e.1 = e'.1 → p = q

theorem probed_empty : Probed hash capacity (fun _ => none : Slots κ ν) :=
  ⟨fun _ _ _ h => (some_ne_none _ h.symm).elim, fun _ _ _ _ _ _ h => (some_ne_none _ h.symm).elim⟩

theorem not_has_empty : ¬ Has capacity (fun _ => none : Slots κ ν) key val := by
  rintro ⟨p, -, h⟩
  exact some_ne_none _ h.symm

/-- A table with fewer keys than slots has an empty slot. -/
theorem Probed.exists_none (h : Probed hash capacity slots) {keys : List κ}
    (hkeys : ∀ p < capacity, ∀ e, slots p = some e → e.1 ∈ keys) (hlen : keys.length < capacity) (nil : κ) :
    ∃ p < capacity, slots p = none := by
  classical
  by_contra hfull
  push Not at hfull
  have hsome : ∀ p < capacity, ∃ e, slots p = some e := fun p hp => ne_none_iff_exists'.mp (hfull p hp)
  let keyAt : ℕ → κ := fun p => ((slots p).map fst).getD nil
  have hcard : (Finset.range capacity).card ≤ keys.toFinset.card := by
    refine Finset.card_le_card_of_injOn keyAt (fun p hp => ?_) fun p hp q hq heq => ?_
    · obtain ⟨e, he⟩ := hsome p (Finset.mem_range.mp hp)
      simpa [keyAt, he] using hkeys p (Finset.mem_range.mp hp) e he
    · obtain ⟨e, he⟩ := hsome p (Finset.mem_range.mp hp)
      obtain ⟨e', he'⟩ := hsome q (Finset.mem_range.mp hq)
      refine h.unique p (Finset.mem_range.mp hp) q (Finset.mem_range.mp hq) e e' he he' ?_
      simpa [keyAt, he, he'] using heq
  rw [Finset.card_range] at hcard
  exact absurd (hcard.trans keys.toFinset_card_le) (not_le.mpr hlen)

/-- A slot gets an element that is at least as far from the slot of its hash as the one that was there. -/
theorem Way.update {p d : ℕ} (hway : Way hash capacity slots key d) {new : κ × ν}
    (hnew : ∀ e, slots p = some e → dist (hash e.1) p capacity ≤ dist (hash new.1) p capacity) :
    Way hash capacity (update slots p (some new)) key d := by
  intro i hi
  obtain ⟨e, he, hle⟩ := hway i hi
  by_cases hp : (hash key + i) % capacity = p
  · refine ⟨new, by rw [hp, update_self], ?_⟩
    rw [hp] at he hle ⊢
    exact hle.trans (hnew e he)
  · exact ⟨e, by rw [update_of_ne hp, he], hle⟩

variable {d : ℕ} (nil : κ)

theorem update_eq_some {p q : ℕ} {new e : κ × ν} :
    update slots p (some new) q = some e ↔ q = p ∧ new = e ∨ q ≠ p ∧ slots q = some e := by
  by_cases hqp : q = p <;> simp [hqp]

/-- An element with a new key has come `d` slots behind that of its hash. -/
structure Inserting (hash : κ → ℕ) (capacity : ℕ) (slots : Slots κ ν) (new : κ × ν) (d : ℕ) : Prop where
  probed : Probed hash capacity slots
  lt : d < capacity
  way : Way hash capacity slots new.1 d
  fresh : ∀ p < capacity, ∀ e, slots p = some e → e.1 ≠ new.1

section
variable {new : κ × ν} (h : Inserting hash capacity slots new d) (hpow : IsPow capacity)
include h hpow

/-- An element is put into a slot on its way, where there is none or one that is nearer to its own. -/
theorem Inserting.probed_update (hnew : ∀ e, slots ((hash new.1 + d) % capacity) = some e →
      dist (hash e.1) ((hash new.1 + d) % capacity) capacity ≤ d) :
    Probed hash capacity (update slots ((hash new.1 + d) % capacity) (some new)) := by
  have hdist := hpow.dist_add (hash new.1) h.lt
  set p := (hash new.1 + d) % capacity with hp
  have hle : ∀ e, slots p = some e → dist (hash e.1) p capacity ≤ dist (hash new.1) p capacity := by
    rw [hdist]
    exact hnew
  constructor
  · intro q hq e he
    rcases update_eq_some.mp he with ⟨rfl, rfl⟩ | ⟨-, he⟩
    · rw [hdist]
      exact h.way.update hle
    · exact (h.probed.way q hq e he).update hle
  · intro q hq r hr e e' he he' heq
    rcases update_eq_some.mp he with ⟨rfl, rfl⟩ | ⟨-, he⟩
    · rcases update_eq_some.mp he' with ⟨rfl, -⟩ | ⟨-, he'⟩
      · rfl
      · exact absurd heq.symm (h.fresh r hr e' he')
    · rcases update_eq_some.mp he' with ⟨rfl, rfl⟩ | ⟨-, he'⟩
      · exact absurd heq (h.fresh q hq e he)
      · exact h.probed.unique q hq r hr e e' he he' heq

end

/-! ### Inserting -/

theorem Way.succ (hway : Way hash capacity slots key d) {e : κ × ν}
    (he : slots ((hash key + d) % capacity) = some e)
    (hle : d ≤ dist (hash e.1) ((hash key + d) % capacity) capacity) : Way hash capacity slots key (d + 1) := by
  intro i hi
  rcases Nat.lt_succ_iff_lt_or_eq.mp hi with hi | rfl
  · exact hway i hi
  · exact ⟨e, he, hle⟩

/-- A way ends before an empty slot. -/
theorem Way.lt (hway : Way hash capacity slots key d) (hpow : IsPow capacity) {g : ℕ}
    (hnone : slots ((hash key + g) % capacity) = none) : d < capacity := by
  by_contra hge
  obtain ⟨e, he, -⟩ := hway (g % capacity) ((mod_lt g hpow.pos).trans_le (not_lt.mp hge))
  rw [add_mod_mod, hnone] at he
  exact some_ne_none _ he.symm

theorem has_update {p : ℕ} (hp : p < capacity) {new : κ × ν} :
    Has capacity (update slots p (some new)) key val ↔
      (∃ q < capacity, q ≠ p ∧ slots q = some (key, val)) ∨ new = (key, val) := by
  constructor
  · rintro ⟨q, hq, heq⟩
    rcases update_eq_some.mp heq with ⟨-, heq⟩ | ⟨hqp, heq⟩
    · exact .inr heq
    · exact .inl ⟨q, hq, hqp, heq⟩
  · rintro (⟨q, hq, hqp, heq⟩ | rfl)
    · exact ⟨q, hq, by rw [update_of_ne hqp, heq]⟩
    · exact ⟨p, hp, update_self _ _ _⟩

/-- An element gives way to one that is further from the slot of its hash, and goes on behind it. -/
theorem Inserting.swap {new e : κ × ν} (h : Inserting hash capacity slots new d) (hpow : IsPow capacity) {pos : ℕ}
    (hat : (hash new.1 + d) % capacity = pos) (hslot : slots pos = some e) (hlt : dist (hash e.1) pos capacity < d) :
    Inserting hash capacity (update slots pos (some new)) e (dist (hash e.1) pos capacity + 1) := by
  have hpos : pos < capacity := hat ▸ mod_lt (hash new.1 + d) hpow.pos
  have hdist : dist (hash new.1) pos capacity = d := hat ▸ hpow.dist_add (hash new.1) h.lt
  have hle : ∀ e', slots pos = some e' → dist (hash e'.1) pos capacity ≤ d := by
    intro e' he'
    rw [hslot, some.injEq] at he'
    rw [← he']
    exact hlt.le
  refine ⟨hat ▸ h.probed_update hpow (hat ▸ hle), lt_of_le_of_lt hlt h.lt, ?_, ?_⟩
  · have hupdate : Way hash capacity (update slots pos (some new)) e.1 (dist (hash e.1) pos capacity) :=
      (h.probed.way _ hpos e hslot).update (by rwa [hdist])
    have hself : update slots pos (some new) ((hash e.1 + dist (hash e.1) pos capacity) % capacity) = some new := by
      rw [hpow.add_dist (hash e.1) hpos, update_self]
    refine hupdate.succ hself ?_
    rw [hpow.add_dist (hash e.1) hpos, hdist]
    exact hlt.le
  · intro q hq e' he' heq
    rcases update_eq_some.mp he' with ⟨-, rfl⟩ | ⟨hqp, he'⟩
    · exact h.fresh _ hpos e hslot heq.symm
    · exact hqp (h.probed.unique q hq _ hpos e' e he' hslot heq)

namespace HashMap

/-- The map holds elements with different keys. -/
structure Holds (hash : κ → ℕ) (m : HashMap κ ν) (es : List (κ × ν)) : Prop where
  pow : IsPow m.capacity
  probed : Probed hash m.capacity m.slots
  has : ∀ key val, Has m.capacity m.slots key val ↔ (key, val) ∈ es
  nodup : (es.map fst).Nodup

theorem holds_new (capacity loadFactor : ℕ) : Holds hash (new capacity loadFactor : HashMap κ ν) [] where
  pow := isPow_pow2 capacity
  probed := probed_empty
  has _ _ := iff_of_false not_has_empty not_mem_nil
  nodup := nodup_nil

variable {m : HashMap κ ν} {es : List (κ × ν)}

theorem Holds.mem_elems (h : Holds hash m es) {e : κ × ν} : e ∈ m.elems ↔ e ∈ es := by
  rw [elems, mem_filterMap, ← h.has]
  simp only [mem_range, Has]

theorem Holds.nodup_elems (h : Holds hash m es) : (m.elems.map fst).Nodup := by
  rw [Nodup, elems, pairwise_map, pairwise_filterMap]
  refine nodup_range.imp_of_mem fun {p q} hp hq hne e he e' he' heq => hne ?_
  exact h.probed.unique p (mem_range.mp hp) q (mem_range.mp hq) e e' he he' heq

theorem length_elems_le (m : HashMap κ ν) : m.elems.length ≤ m.capacity := by
  rw [elems]
  exact (length_filterMap_le _ _).trans (length_range).le

end HashMap

variable [DecidableEq κ]

/-- What inserting an element gives. -/
structure Inserted (hash : κ → ℕ) (nil : κ) (capacity : ℕ) (slots : Slots κ ν) (new : κ × ν)
    (r : Option (Bool × Slots κ ν)) : Prop where
  probed : ∃ overwritten slots', r = some (overwritten, slots') ∧ Probed hash capacity slots' ∧
    (∀ key val, Has capacity slots' key val ↔ Has capacity slots key val ∨ new = (key, val)) ∧
    (new.1 ≠ nil → (∀ p < capacity, ∀ e, slots p = some e → e.1 ≠ nil) → overwritten = false)

theorem insertLoop_spec (hpow : IsPow capacity) (fuel : ℕ) {new : κ × ν} (h : Inserting hash capacity slots new d)
    (hnone : ∃ g < fuel, slots ((hash new.1 + (d + g)) % capacity) = none) :
    Inserted hash nil capacity slots new
      (insertLoop hash nil capacity fuel slots ((hash new.1 + d) % capacity) d new.1 new.2) := by
  induction fuel generalizing slots d new with
  | zero => exact absurd hnone (by rintro ⟨g, hg, -⟩; exact not_lt_zero g hg)
  | succ fuel ih =>
    obtain ⟨g, hg, hnone⟩ := hnone
    have hpos := mod_lt (hash new.1 + d) hpow.pos
    rw [insertLoop]
    cases hslot : slots ((hash new.1 + d) % capacity) with
    | none =>
      refine ⟨_, _, rfl, h.probed_update hpow fun e he => ?_, fun key val => ?_, fun hne _ => decide_eq_false hne⟩
      · rw [hslot] at he
        exact absurd he.symm (some_ne_none _)
      · rw [has_update hpos]
        refine or_congr_left ⟨fun ⟨q, hq, _, heq⟩ => ⟨q, hq, heq⟩,
          fun ⟨q, hq, heq⟩ => ⟨q, hq, ?_, heq⟩⟩
        rintro rfl
        rw [hslot] at heq
        exact absurd heq.symm (some_ne_none _)
    | some e =>
      -- The empty slot is further behind.
      obtain ⟨g, rfl⟩ : ∃ g', g = g' + 1 := by
        refine exists_eq_succ_of_ne_zero ?_
        rintro rfl
        rw [add_zero, hslot] at hnone
        exact some_ne_none _ hnone
      dsimp only
      rw [if_neg (h.fresh _ hpos e hslot), hpow.and_mask, mod_add_mod]
      split_ifs with hlt
      · -- The element gives way, and is inserted behind.
        have hshift : ∀ k, (hash e.1 + (dist (hash e.1) ((hash new.1 + d) % capacity) capacity + k)) % capacity =
            (hash new.1 + (d + k)) % capacity := by
          intro k
          rw [← add_assoc, ← mod_add_mod, hpow.add_dist (hash e.1) hpos, mod_add_mod, add_assoc]
        have hnone' : update slots ((hash new.1 + d) % capacity) (some new)
            ((hash e.1 + (dist (hash e.1) ((hash new.1 + d) % capacity) capacity + 1 + g)) % capacity) = none := by
          rw [add_assoc _ 1 g, add_comm 1 g, hshift, update_of_ne, hnone]
          intro heq
          rw [heq, hslot] at hnone
          exact some_ne_none _ hnone
        rw [add_assoc, ← hshift 1]
        obtain ⟨overwritten, slots', hr, hprobed, hhas, how⟩ := (ih (h.swap hpow rfl hslot hlt)
          ⟨g, by omega, hnone'⟩).probed
        refine ⟨overwritten, slots', hr, hprobed, fun key val => ?_, fun hne hnil => how (hnil _ hpos e hslot) ?_⟩
        · rw [hhas, has_update hpos]
          constructor
          · rintro ((⟨q, hq, -, heq⟩ | heq) | rfl)
            · exact .inl ⟨q, hq, heq⟩
            · exact .inr heq
            · exact .inl ⟨_, hpos, hslot⟩
          · rintro (⟨q, hq, heq⟩ | heq)
            · by_cases hqp : q = (hash new.1 + d) % capacity
              · rw [hqp, hslot, Option.some.injEq] at heq
                exact .inr heq
              · exact .inl (.inl ⟨q, hq, hqp, heq⟩)
            · exact .inl (.inr heq)
        · intro q hq e' he'
          rcases update_eq_some.mp he' with ⟨-, rfl⟩ | ⟨-, he'⟩
          · exact hne
          · exact hnil q hq e' he'
      · have hsucc := h.way.succ hslot (not_lt.mp hlt)
        rw [add_assoc]
        exact ih ⟨h.probed, hsucc.lt hpow hnone, hsucc, h.fresh⟩
          ⟨g, by omega, by rwa [show d + 1 + g = d + (g + 1) by omega]⟩

theorem insert_spec (hpow : IsPow capacity) {new : κ × ν} (h : Probed hash capacity slots)
    (hfresh : ∀ p < capacity, ∀ e, slots p = some e → e.1 ≠ new.1) (hnone : ∃ p < capacity, slots p = none) :
    Inserted hash nil capacity slots new (insert hash nil capacity slots new.1 new.2) := by
  obtain ⟨p, hp, hnone⟩ := hnone
  have hloop := insertLoop_spec nil hpow capacity ⟨h, hpow.pos, nofun, hfresh⟩
    ⟨dist (hash new.1) p capacity, hpow.dist_lt _ _, by rw [zero_add, hpow.add_dist _ hp, hnone]⟩
  rwa [add_zero, ← hpow.and_mask] at hloop

namespace HashMap

variable {m : HashMap κ ν} {es : List (κ × ν)}

theorem Holds.insert (h : Holds hash m es) (nil : κ) {new : κ × ν}
    (hnew : new.1 ∉ es.map fst) (hlen : es.length < m.capacity) :
    ∃ overwritten slots, insert hash nil m.capacity m.slots new.1 new.2 = some (overwritten, slots) ∧
      Holds hash { m with slots := slots } (es ++ [new]) ∧
      (new.1 ≠ nil → nil ∉ es.map fst → overwritten = false) := by
  have hkeys : ∀ p < m.capacity, ∀ e, m.slots p = some e → e.1 ∈ es.map fst := fun p hp e he =>
    mem_map_of_mem ((h.has e.1 e.2).mp ⟨p, hp, he⟩)
  have hnone := h.probed.exists_none hkeys (by rwa [length_map]) new.1
  obtain ⟨overwritten, slots, hr, hprobed, hhas, how⟩ := (insert_spec nil h.pow h.probed
    (fun p hp e he heq => hnew (heq ▸ hkeys p hp e he)) hnone).probed
  refine ⟨overwritten, slots, hr, ⟨h.pow, hprobed, fun key val => ?_, ?_⟩,
    fun hne hnil => how hne fun p hp e he heq => ?_⟩
  · rw [hhas, h.has, mem_append, mem_singleton, eq_comm]
  · rw [map_append, map_singleton, nodup_append_comm]
    exact nodup_cons.mpr ⟨hnew, h.nodup⟩
  · exact hnil (heq ▸ hkeys p hp e he)

theorem Holds.insertAll {news : List (κ × ν)} (h : Holds hash m es) (nil : κ)
    (hnew : (es.map fst ++ news.map fst).Nodup) (hlen : es.length + news.length ≤ m.capacity) :
    ∃ slots, insertAll hash nil m.capacity m.slots news = some slots ∧
      Holds hash { m with slots := slots } (es ++ news) := by
  induction news generalizing m es with
  | nil => exact ⟨m.slots, rfl, by rwa [append_nil]⟩
  | cons new news ih =>
    rw [length_cons] at hlen
    have hmem : new.1 ∉ es.map fst := fun hmem => disjoint_of_nodup_append hnew hmem (by simp)
    obtain ⟨overwritten, slots, hr, hholds, -⟩ := h.insert nil hmem (by omega)
    obtain ⟨slots', hr', hholds'⟩ :=
      ih hholds (by simpa using hnew) (by rw [length_append]; dsimp only [length_singleton]; omega)
    refine ⟨slots', ?_, by simpa using hholds'⟩
    rw [insertAll, hr]
    exact hr'

section

variable (h : Holds hash m es)
include h

/-- The map has the same elements after it has grown. -/
theorem Holds.grow :
    ∃ m', m.grow hash nil (m.capacity * 2) = some m' ∧ Holds hash m' es ∧ m.capacity * 2 ≤ m'.capacity ∧
      m'.n = m.n ∧ m'.loadFactor = m.loadFactor := by
  have hpos := h.pow.pos
  have hle := le_pow2 (m.capacity * 2)
  have hnew : Holds hash ({ m with capacity := pow2 (m.capacity * 2), slots := fun _ => none } : HashMap κ ν) [] :=
    ⟨isPow_pow2 _, probed_empty, fun _ _ => iff_of_false not_has_empty not_mem_nil, nodup_nil⟩
  obtain ⟨slots, hr, hholds⟩ := hnew.insertAll nil (by simpa using h.nodup_elems)
    (by have := length_elems_le m; dsimp only [length_nil]; omega)
  refine ⟨{ m with capacity := pow2 (m.capacity * 2), slots := slots }, ?_, ?_, hle, rfl, rfl⟩
  · rw [HashMap.grow, if_neg (by omega), hr]
  · refine ⟨hholds.pow, hholds.probed, fun key val => ?_, h.nodup⟩
    rw [hholds.has, nil_append, h.mem_elems]

theorem Holds.makeRoom :
    ∃ m', m.makeRoom hash nil = some m' ∧ Holds hash m' es ∧ m.capacity ≤ m'.capacity ∧ m'.n = m.n + 1 ∧
      m'.loadFactor = m.loadFactor ∧
      (m.n = es.length → m.loadFactor < 100 → es.length < m.capacity → es.length + 1 < m'.capacity) := by
  have hcount : Holds hash { m with n := m.n + 1 } es := ⟨h.pow, h.probed, h.has, h.nodup⟩
  rw [HashMap.makeRoom]
  split_ifs with hgrow
  · obtain ⟨m', hm', hholds, hcap, hn, hlf⟩ := hcount.grow nil
    dsimp only at hcap
    exact ⟨m', hm', hholds, by omega, hn, hlf, fun _ _ _ => by omega⟩
  · refine ⟨_, rfl, hcount, le_rfl, rfl, rfl, fun hn hlf _ => ?_⟩
    rw [threshold, not_lt, le_div_iff_mul_le (by omega)] at hgrow
    nlinarith

/-- A key is added to a map that has an empty slot.  If no key is that of empty slots, the map has
an empty slot again. -/
theorem Holds.put (new : κ × ν)
    (hnew : new.1 ∉ es.map fst) (hlen : es.length < m.capacity) :
    ∃ m', m.put hash nil new.1 new.2 = some m' ∧ Holds hash m' (es ++ [new]) ∧ m.capacity ≤ m'.capacity ∧
      (m.n = es.length → m.loadFactor < 100 → new.1 ≠ nil → nil ∉ es.map fst →
        m'.n = es.length + 1 ∧ m'.loadFactor = m.loadFactor ∧ es.length + 1 < m'.capacity) := by
  obtain ⟨m₁, hm₁, hholds, hcap, hn, hlf, hroom⟩ := h.makeRoom nil
  obtain ⟨overwritten, slots, hr, hholds', how⟩ := hholds.insert nil hnew (by omega)
  refine ⟨{ m₁ with n := if overwritten then m₁.n - 1 else m₁.n, slots := slots }, ?_, ?_, hcap, ?_⟩
  · rw [HashMap.put, hm₁]
    dsimp only
    rw [hr]
  · exact ⟨hholds'.pow, hholds'.probed, hholds'.has, hholds'.nodup⟩
  · intro hcount hlf' hne hnil
    rw [how hne hnil]
    exact ⟨by simp [hn, hcount], hlf, hroom hcount hlf' hlen⟩

end

end HashMap

/-! ### Searching -/

section

variable {read : ℕ → Option (Option (κ × ε))} {represents : κ → ν → ε → Prop}

/-- A reader of the slots of a table. -/
structure ReadsSlots (capacity : ℕ) (slots : Slots κ ν) (read : ℕ → Option (Option (κ × ε)))
    (represents : κ → ν → ε → Prop) : Prop where
  present : ∀ p < capacity, ∀ key val, slots p = some (key, val) →
    ∃ e, read p = some (some (key, e)) ∧ represents key val e
  absent : ∀ p < capacity, slots p = none → read p = some none

theorem searchLoop_of_has (hpow : IsPow capacity) (hread : ReadsSlots capacity slots read represents)
    (hd : d < capacity) (hslot : slots ((hash key + d) % capacity) = some (key, val))
    (hway : Way hash capacity slots key d)
    (hother : ∀ i < d, ∀ e, slots ((hash key + i) % capacity) = some e → e.1 ≠ key)
    (fuel i : ℕ) (hi : i ≤ d) (hfuel : d - i < fuel) :
    ∃ e, searchLoop hash capacity read key fuel ((hash key + i) % capacity) i = some (some e) ∧
      represents key val e := by
  induction fuel generalizing i with
  | zero => exact absurd hfuel (not_lt_zero _)
  | succ fuel ih =>
    have hpos := mod_lt (hash key + i) hpow.pos
    rw [searchLoop]
    rcases lt_or_eq_of_le hi with hlt | rfl
    · obtain ⟨e', he', hle⟩ := hway i hlt
      obtain ⟨e, hr, -⟩ := hread.present _ hpos e'.1 e'.2 he'
      rw [hr]
      dsimp only
      rw [if_neg (hother i hlt e' he'), if_neg (not_lt.mpr hle), mod_add_mod, add_assoc]
      exact ih (i + 1) hlt (by omega)
    · obtain ⟨e, hr, hrep⟩ := hread.present _ hpos key val hslot
      rw [hr]
      dsimp only
      rw [if_pos rfl]
      exact ⟨e, rfl, hrep⟩

theorem Probed.search_of_has (h : Probed hash capacity slots) (hpow : IsPow capacity)
    (hread : ReadsSlots capacity slots read represents) (hhas : Has capacity slots key val) :
    ∃ e, search hash capacity read key = some (some e) ∧ represents key val e := by
  obtain ⟨p, hp, hslot⟩ := hhas
  have hadd := hpow.add_dist (hash key) hp
  have hdist := hpow.dist_lt (hash key) p
  have hloop := searchLoop_of_has hpow hread hdist (by rw [hadd, hslot]) (h.way p hp _ hslot) (fun i hi e he heq => ?_)
    (capacity + 1) 0 (zero_le _) (by omega)
  · rwa [add_zero] at hloop
  · have hpos := mod_lt (hash key + i) hpow.pos
    have hi' := hpow.dist_add (hash key) (hi.trans hdist)
    rw [h.unique _ hpos p hp e (key, val) he hslot heq] at hi'
    omega

section

variable (hpow : IsPow capacity) (hread : ReadsSlots capacity slots read represents)
  (hhas : ∀ val, ¬ Has capacity slots key val)
include hpow hread hhas

theorem searchLoop_of_not_has (fuel d : ℕ) {pos : ℕ} (hpos : pos < capacity) :
    searchLoop hash capacity read key fuel pos d = some none := by
  induction fuel generalizing pos d with
  | zero => rfl
  | succ fuel ih =>
    rw [searchLoop]
    cases hslot : slots pos with
    | none => rw [hread.absent pos hpos hslot]
    | some e =>
      obtain ⟨e', hr, -⟩ := hread.present pos hpos e.1 e.2 hslot
      rw [hr]
      dsimp only
      rw [if_neg]
      · split_ifs
        · rfl
        · exact ih (d + 1) (mod_lt _ hpow.pos)
      · rintro rfl
        exact hhas e.2 ⟨pos, hpos, hslot⟩

theorem search_of_not_has : search hash capacity read key = some none :=
  searchLoop_of_not_has hpow hread hhas _ _ (mod_lt _ hpow.pos)

end

end

end InfluxDB.Lib.RobinHood
