import InfluxDB.Lib.Bytes

/-!
    Readers that take values off the front of a byte string, and numbers of variable length.

    `Reads short r enc a` says that `r` reads `a` off any bytes that start with `enc`, and stops with the
    error `short` on every part of `enc` that is cut off: a record that was written in part is never taken
    for another one.  Readers are put together by `bind`.
-/

namespace InfluxDB.Lib

open List Nat

/-- A reader: it fails, or returns a value and the bytes behind it. -/
abbrev Reader (ε α : Type) := StateT Bytes (Except ε) α

structure Reads {ε α : Type} (short : ε) (r : Reader ε α) (enc : Bytes) (a : α) : Prop where
  append : ∀ rest, r (enc ++ rest) = .ok (a, rest)
  take : ∀ k < enc.length, r (enc.take k) = .error short

namespace Reads

variable {ε α β : Type} {short : ε}

theorem pure (a : α) : Reads short (pure a : Reader ε α) [] a := ⟨fun _ => rfl, nofun⟩

theorem bind {r : Reader ε α} {s : α → Reader ε β} {enc enc' : Bytes} {a : α} {b : β}
    (hr : Reads short r enc a)
    (hs : Reads short (s a) enc' b) : Reads short (r >>= s) (enc ++ enc') b := by
  have hbind : ∀ data rest, r data = .ok (a, rest) → (r >>= s) data = s a rest := fun data rest h => by
    change Except.bind (r data) _ = _
    rw [h]
    rfl
  refine ⟨fun rest => ?_, fun k hk => ?_⟩
  · rw [append_assoc, hbind _ _ (hr.append _), hs.append]
  · by_cases hlt : k < enc.length
    · rw [take_append_of_le_length hlt.le]
      change Except.bind (r (enc.take k)) _ = _
      rw [hr.take k hlt]
      rfl
    · rw [length_append] at hk
      rw [take_append, take_of_length_le (not_lt.mp hlt), hbind _ _ (hr.append _), hs.take _ (by omega)]

end Reads

/-! ### Numbers of variable length -/

/-- The loop of `binary.PutUvarint`, for at most `k + 1` bytes. -/
def putUvarintLoop : ℕ → ℕ → Bytes
  | 0, x => [Fin.ofNat 256 x]
  | k + 1, x => if x < 128 then [Fin.ofNat 256 x] else Fin.ofNat 256 (x % 128 + 128) :: putUvarintLoop k (x / 128)

/-- `binary.PutUvarint`: a number of 64 bits has at most ten bytes. -/
def putUvarint (x : ℕ) : Bytes := putUvarintLoop 9 x

/-- What `binary.Uvarint` returns: a number and the count of its bytes, or that the bytes end too early or have too
many bits. -/
inductive Uvarint where
  | value (x n : ℕ)
  | short
  | overflow
  deriving DecidableEq

/-- The loop of `binary.Uvarint`. -/
def getUvarintLoop (i x : ℕ) : Bytes → Uvarint
  | [] => .short
  | b :: buf =>
    if b.val < 128 then
      if i > 9 ∨ i = 9 ∧ b.val > 1 then .overflow else .value (x + b.val * 128 ^ i) (i + 1)
    else getUvarintLoop (i + 1) (x + b.val % 128 * 128 ^ i) buf

def getUvarint (buf : Bytes) : Uvarint := getUvarintLoop 0 0 buf

/-- Numbers are read back, from the byte at position `i` on. -/
theorem getUvarintLoop_append {i k x : ℕ} (hik : i + k = 9) (hx : x * 128 ^ i < 2 ^ 64) (acc : ℕ) (rest : Bytes) :
    getUvarintLoop i acc (putUvarintLoop k x ++ rest) =
      .value (acc + x * 128 ^ i) (i + (putUvarintLoop k x).length) := by
  induction k generalizing i x acc with
  | zero =>
    obtain rfl : i = 9 := hik
    have hval : (Fin.ofNat 256 x : Byte).val = x := mod_eq_of_lt (by omega)
    rw [putUvarintLoop, singleton_append, getUvarintLoop, hval, if_pos (by omega), if_neg (by omega)]
    rfl
  | succ k ih =>
    rw [putUvarintLoop]
    by_cases hlt : x < 128
    · have hval : (Fin.ofNat 256 x : Byte).val = x := mod_eq_of_lt (by omega)
      rw [if_pos hlt, singleton_append, getUvarintLoop, hval, if_pos hlt, if_neg (by omega)]
      rfl
    · have hval : (Fin.ofNat 256 (x % 128 + 128) : Byte).val = x % 128 + 128 := mod_eq_of_lt (by omega)
      have hpow : 128 ^ (i + 1) = 128 * 128 ^ i := by rw [pow_succ]; ring
      have hsum : x % 128 * 128 ^ i + x / 128 * 128 ^ (i + 1) = x * 128 ^ i := by
        rw [hpow, ← mul_assoc, ← add_mul, mul_comm (x / 128), mod_add_div]
      rw [if_neg hlt, cons_append, getUvarintLoop, hval, if_neg (by omega), ih (by omega) (by omega),
        length_cons, show (x % 128 + 128) % 128 = x % 128 by omega, add_assoc, hsum]
      congr 1
      omega

theorem getUvarintLoop_take {i k x : ℕ} (acc : ℕ) {j : ℕ} (hj : j < (putUvarintLoop k x).length) :
    getUvarintLoop i acc ((putUvarintLoop k x).take j) = .short := by
  induction k generalizing i x acc j with
  | zero =>
    obtain rfl : j = 0 := by simpa [putUvarintLoop] using hj
    rfl
  | succ k ih =>
    cases j with
    | zero => rfl
    | succ j =>
      rw [putUvarintLoop] at hj ⊢
      split_ifs at hj ⊢ with hlt
      · simp at hj
      · have hval : (Fin.ofNat 256 (x % 128 + 128) : Byte).val = x % 128 + 128 := mod_eq_of_lt (by omega)
        rw [take_succ_cons, getUvarintLoop, hval, if_neg (by omega)]
        exact ih _ (by simpa using hj)

theorem getUvarint_append {x : ℕ} (hx : x < 2 ^ 64) (rest : Bytes) :
    getUvarint (putUvarint x ++ rest) = .value x (putUvarint x).length := by
  rw [getUvarint, putUvarint, getUvarintLoop_append rfl (by simpa using hx), pow_zero, mul_one, zero_add, zero_add]

theorem getUvarint_take {x j : ℕ} (hj : j < (putUvarint x).length) : getUvarint ((putUvarint x).take j) = .short :=
  getUvarintLoop_take 0 hj

end InfluxDB.Lib
