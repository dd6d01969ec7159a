import Mathlib.Data.List.Lex
import Mathlib.Order.Fin.Basic
import Mathlib.Tactic.Ring
import Mathlib.Tactic.Linarith

/-! Byte strings and big-endian machine words.

    Byte strings carry the lexicographic order, which is what `bytes.Compare` decides. `putUint w n`
    writes the low `w` bytes of `n`, most significant first, and `getUint` reads them back. Signed
    words go through two's complement. -/

namespace InfluxDB.Lib

open List Nat

abbrev Byte := Fin 256

abbrev Bytes := List Byte

instance neZeroByte : NeZero 256 := ⟨by decide⟩

instance lawfulBEqByte : LawfulBEq Byte := inferInstance

instance lawfulBEqBytes : LawfulBEq Bytes := inferInstance

/-- `binary.BigEndian.PutUint16/32/64`: the low `w` bytes of `n`. -/
def putUint : ℕ → ℕ → Bytes
  | 0, _ => []
  | w + 1, n => Fin.ofNat 256 (n / 256 ^ w) :: putUint w n

/-- `binary.BigEndian.Uint16/32/64` over all the bytes given. -/
def getUint (b : Bytes) : ℕ := b.foldl (fun acc x => acc * 256 + x.val) 0

@[simp] theorem length_putUint : ∀ (w n : ℕ), (putUint w n).length = w
  | 0, _ => rfl
  | w + 1, n => by rw [putUint, length_cons, length_putUint w n]

theorem foldl_putUint : ∀ (w n acc : ℕ),
    (putUint w n).foldl (fun acc x => acc * 256 + x.val) acc = acc * 256 ^ w + n % 256 ^ w
  | 0, n, acc => by simp [putUint, mod_one]
  | w + 1, n, acc => by
    rw [putUint, foldl_cons, foldl_putUint w n, Fin.val_ofNat, pow_succ, mod_mul]
    ring

/-- Reading back what was written gives the low `w` bytes. -/
theorem getUint_putUint (w n : ℕ) : getUint (putUint w n) = n % 256 ^ w := by
  rw [getUint, foldl_putUint]; simp

theorem getUint_putUint_of_lt {w n : ℕ} (h : n < 256 ^ w) : getUint (putUint w n) = n := by
  rw [getUint_putUint, mod_eq_of_lt h]

theorem foldl_getUint : ∀ (b : Bytes) (acc : ℕ),
    b.foldl (fun acc x => acc * 256 + x.val) acc = acc * 256 ^ b.length + getUint b
  | [], acc => by simp [getUint]
  | x :: b, acc => by
    rw [getUint, foldl_cons, foldl_cons, foldl_getUint b, foldl_getUint b (0 * 256 + x.val), length_cons, pow_succ]
    ring

theorem getUint_cons (x : Byte) (b : Bytes) : getUint (x :: b) = x.val * 256 ^ b.length + getUint b := by
  rw [getUint, foldl_cons, foldl_getUint, zero_mul, zero_add]

theorem getUint_lt : ∀ b : Bytes, getUint b < 256 ^ b.length
  | [] => by simp [getUint]
  | x :: b => by
    have hx := x.isLt
    have hb := getUint_lt b
    rw [getUint_cons, length_cons, pow_succ]
    nlinarith

/-- Big-endian words of one width compare as their bytes do. -/
theorem getUint_lt_getUint_iff : ∀ {a b : Bytes}, a.length = b.length → (getUint a < getUint b ↔ a < b)
  | [], [], _ => by simp
  | x :: a, y :: b, h => by
    have hlen : a.length = b.length := by simpa using h
    have ha := getUint_lt a
    have hb := getUint_lt b
    rw [getUint_cons, getUint_cons, cons_lt_cons_iff, ← getUint_lt_getUint_iff hlen, ← hlen]
    rw [← hlen] at hb
    rcases lt_trichotomy x y with hxy | rfl | hxy
    · have : x.val + 1 ≤ y.val := hxy
      have : (x.val + 1) * 256 ^ a.length ≤ y.val * 256 ^ a.length := mul_le_mul_right _ this
      constructor
      · exact fun _ => .inl hxy
      · intro _
        rw [add_mul] at this
        omega
    · simp
    · have : y.val + 1 ≤ x.val := hxy
      have : (y.val + 1) * 256 ^ a.length ≤ x.val * 256 ^ a.length := mul_le_mul_right _ this
      constructor
      · intro hlt
        rw [add_mul] at this
        omega
      · rintro (hlt | ⟨rfl, _⟩)
        · exact absurd hlt (lt_asymm hxy)
        · exact absurd hxy (lt_irrefl _)

/-- A byte string cut or padded with zeros to `n` bytes. -/
def padTo (n : ℕ) (b : Bytes) : Bytes := b.take n ++ replicate (n - b.length) 0

@[simp] theorem length_padTo (n : ℕ) (b : Bytes) : (padTo n b).length = n := by
  simp only [padTo, length_append, length_take, length_replicate]
  omega

/-- What differs in the first bytes differs the same way as a whole. -/
theorem lt_of_padTo_lt : ∀ (n : ℕ) {a b : Bytes}, padTo n a < padTo n b → a < b
  | 0, a, b, h => by simp [padTo] at h
  | n + 1, [], [], h => absurd h (lt_irrefl _)
  | n + 1, [], y :: b, _ => nil_lt_cons _ _
  | n + 1, x :: a, [], h => by
    have h : (x :: padTo n a) < 0 :: padTo n [] := by simpa [padTo, replicate_succ] using h
    rcases cons_lt_cons_iff.mp h with hx | ⟨_, hlt⟩
    · exact absurd hx (by simp)
    · exact absurd (lt_of_padTo_lt n hlt) (by simp)
  | n + 1, x :: a, y :: b, h => by
    have h : (x :: padTo n a) < y :: padTo n b := by simpa [padTo] using h
    rcases cons_lt_cons_iff.mp h with hx | ⟨rfl, hlt⟩
    · exact cons_lt_cons_iff.mpr (.inl hx)
    · exact cons_lt_cons_iff.mpr (.inr ⟨rfl, lt_of_padTo_lt n hlt⟩)

/-- Writing into a file at an offset; a gap behind the end is filled with zeros. -/
def writeAt (c : Bytes) (pos : ℕ) (d : Bytes) : Bytes :=
  if d = [] then c else padTo pos c ++ d ++ c.drop (pos + d.length)

theorem writeAt_of_le {c d : Bytes} {pos : ℕ} (h : c.length ≤ pos) (hd : d ≠ []) :
    writeAt c pos d = c ++ (replicate (pos - c.length) 0 ++ d) := by
  rw [writeAt, if_neg hd, padTo, take_of_length_le h, drop_eq_nil_of_le (by omega), append_nil, append_assoc]

theorem writeAt_length (c d : Bytes) : writeAt c c.length d = c ++ d := by
  by_cases hd : d = []
  · rw [hd, writeAt, if_pos rfl, append_nil]
  · rw [writeAt_of_le le_rfl hd, Nat.sub_self, replicate_zero, nil_append]

/-- Writing over what follows a position. -/
theorem writeAt_append (a b d : Bytes) : writeAt (a ++ b) a.length d = a ++ (d ++ b.drop d.length) := by
  by_cases hd : d = []
  · rw [hd, writeAt, if_pos rfl]
    rfl
  · rw [writeAt, if_neg hd, padTo, take_left, Nat.sub_eq_zero_of_le (by simp), replicate_zero, append_nil,
      ← drop_drop, drop_left, append_assoc]

/-- The first `n` bytes and the rest, if there are as many. -/
def cut (n : ℕ) (b : Bytes) : Option (Bytes × Bytes) := if b.length < n then none else some (b.take n, b.drop n)

theorem cut_append {n : ℕ} {a : Bytes} (h : a.length = n) (b : Bytes) : cut n (a ++ b) = some (a, b) := by
  subst h
  rw [cut, if_neg (by simp), take_left, drop_left]

/-- `uint64(x)` of a signed word. -/
def toUint64 (x : ℤ) : ℕ := (x % 2 ^ 64).toNat

/-- `int64(u)` of an unsigned word. -/
def toInt64 (u : ℕ) : ℤ := if u < 2 ^ 63 then u else (u : ℤ) - 2 ^ 64

theorem toUint64_lt (x : ℤ) : toUint64 x < 256 ^ 8 := by
  rw [toUint64]; omega

/-- Two's complement loses nothing on the range of `int64`. -/
theorem toInt64_toUint64 {x : ℤ} (h : -2 ^ 63 ≤ x ∧ x < 2 ^ 63) : toInt64 (toUint64 x) = x := by
  rw [toInt64, toUint64]
  split <;> omega

/-- A signed word of eight bytes. -/
def putInt64 (x : ℤ) : Bytes := putUint 8 (toUint64 x)

def getInt64 (b : Bytes) : ℤ := toInt64 (getUint b)

@[simp] theorem length_putInt64 (x : ℤ) : (putInt64 x).length = 8 := length_putUint 8 _

theorem getInt64_putInt64 {x : ℤ} (h : -2 ^ 63 ≤ x ∧ x < 2 ^ 63) : getInt64 (putInt64 x) = x := by
  rw [getInt64, putInt64, getUint_putUint_of_lt (toUint64_lt x), toInt64_toUint64 h]

end InfluxDB.Lib
