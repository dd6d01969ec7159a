import Mathlib.Data.List.Basic

/-!
    Buffers with checked accesses, as a language with bounds checks has them.  A computation ends in a fault
    when it reads, slices or writes outside of a buffer, or when a loop does not end within its fuel; a loop
    whose fuel is a bound on its passes has no fault of the second kind.

    What a loop does from a position on is said of the rest of the buffer, `b.drop i`, and shown by induction
    on it: where the rest is `a :: l`, the element at `i` is `a` and the rest from `i + 1` on is `l`.
-/

namespace InfluxDB.Lib

open List

inductive Fault where
  | outOfRange
  | outOfFuel
  deriving DecidableEq, Repr

abbrev Checked := Except Fault

variable {α : Type*}

namespace Buffer

variable (b : List α)

/-- `b[i]`. -/
def get (i : ℕ) : Checked α :=
  match b[i]? with
  | some a => .ok a
  | none => .error .outOfRange

/-- `b[i-k]`. -/
def getBefore (i k : ℕ) : Checked α := if i < k then .error .outOfRange else get b (i - k)

/-- `b[i:j]`. -/
def slice (i j : ℕ) : Checked (List α) :=
  if i ≤ j ∧ j ≤ b.length then .ok ((b.drop i).take (j - i)) else .error .outOfRange

/-- `b[i:j-k]`. -/
def sliceBefore (i j k : ℕ) : Checked (List α) := if j < k then .error .outOfRange else slice b i (j - k)

/-- `b[i:]`. -/
def sliceFrom (i : ℕ) : Checked (List α) := if i ≤ b.length then .ok (b.drop i) else .error .outOfRange

/-- `b[i] = a`. -/
def put (i : ℕ) (a : α) : Checked (List α) := if i < b.length then .ok (b.set i a) else .error .outOfRange

/-- `copy(b[i:], v)`: the buffer, and the number of elements copied. -/
def copy (i : ℕ) (v : List α) : Checked (List α × ℕ) :=
  if i ≤ b.length then
    let n := min v.length (b.length - i)
    .ok (b.take i ++ (v.take n ++ b.drop (i + n)), n)
  else .error .outOfRange

/-! ### Reading -/

variable {b l r : List α} {a : α} {i j k : ℕ} {v s : List α}

theorem lt_length_of_drop (h : b.drop i = a :: l) : i < b.length := by
  by_contra hle
  rw [drop_eq_nil_of_le (by omega)] at h
  cases h

theorem drop_succ (h : b.drop i = a :: l) : b.drop (i + 1) = l := by
  rw [← tail_drop, h, tail_cons]

theorem drop_add (h : b.drop i = l ++ r) : b.drop (i + l.length) = r := by
  rw [← drop_drop, h, drop_left]

theorem length_of_drop (h : b.drop i = l) (hi : i ≤ b.length) : b.length = i + l.length := by
  rw [← h, length_drop]
  omega

theorem get_drop (h : b.drop i = a :: l) : get b i = .ok a := by
  have hget : b[i]? = some a := by rw [← head?_drop, h, head?_cons]
  rw [get, hget]

theorem getBefore_eq (h : k ≤ i) : getBefore b i k = get b (i - k) := if_neg (by omega)

theorem get_eq (h : i < b.length) : ∃ a, get b i = .ok a ∧ b[i]? = some a :=
  ⟨b[i], by rw [get, getElem?_eq_getElem h], getElem?_eq_getElem h⟩

theorem slice_drop (h : b.drop i = l ++ r) (hi : i ≤ b.length) : slice b i (i + l.length) = .ok l := by
  have hlen := length_of_drop h hi
  rw [length_append] at hlen
  rw [slice, if_pos ⟨by omega, by omega⟩, h, Nat.add_sub_cancel_left, take_left]

theorem slice_eq (hij : i ≤ j) (hj : j ≤ b.length) : slice b i j = .ok ((b.drop i).take (j - i)) :=
  if_pos ⟨hij, hj⟩

theorem sliceBefore_eq (h : k ≤ j) : sliceBefore b i j k = slice b i (j - k) := if_neg (by omega)

theorem sliceFrom_eq (hi : i ≤ b.length) : sliceFrom b i = .ok (b.drop i) := if_pos hi

/-! ### Writing

A buffer is filled from the left: `l` is written, and then come elements that are still to be overwritten. -/

theorem put_filled {x : α} (hi : i = l.length) : put (l ++ a :: r) i x = .ok ((l ++ [x]) ++ r) := by
  subst hi
  rw [put, if_pos (by rw [length_append, length_cons]; omega), set_append_right _ _ (Nat.le_refl _), Nat.sub_self,
    set_cons_zero, append_assoc, singleton_append]

theorem copy_filled (hi : i = l.length) (h : v.length = s.length) :
    copy (l ++ (s ++ r)) i v = .ok ((l ++ v) ++ r, v.length) := by
  subst hi
  have hle : l.length ≤ (l ++ (s ++ r)).length := by rw [length_append]; omega
  have hn : min v.length ((l ++ (s ++ r)).length - l.length) = v.length := by
    rw [length_append, length_append]
    omega
  have hdrop : (l ++ (s ++ r)).drop (l.length + v.length) = r := by
    rw [← drop_drop, drop_left, h, drop_left]
  rw [copy, if_pos hle]
  simp only [hn, take_left, take_length, hdrop, append_assoc]

/-- The first copy into a buffer. -/
theorem copy_zero (h : v.length = s.length) : copy (s ++ r) 0 v = .ok (v ++ r, v.length) := copy_filled (l := []) rfl h

end Buffer

end InfluxDB.Lib
