import InfluxDB.Tsm.TimeRange
import InfluxDB.Lib.Bytes

/-! `tombstone.go`: the file that records deletes next to a TSM file.

    The file is a header and a sequence of gzip members. The first tombstone after a flush copies the
    file to a temporary one and opens a new member there; `Flush` closes the member and renames, `Rollback`
    removes the copy. `Walk` remembers how far it has read. Gzip is taken as a framing of byte strings,
    `Gzip`; syncing, the file statistics and the observer are left out. -/

namespace InfluxDB.Tsm
open Lib List

/-! ### Records -/

/-- `Tombstone`; no predicate is the empty one. -/
structure Tombstone where
  key : Bytes
  isPrefix : Bool
  min : ℤ
  max : ℤ
  predicate : Bytes
  deriving DecidableEq, Repr

def maxTombstoneKeyLen : ℕ := 0x00ffffff

/-- `writeTombstoneV4`: the bytes of a tombstone. The two flags are bits 31 and 30 of the length word,
    which the key length leaves free. -/
def writeTombstoneV4 (ts : Tombstone) : Except String Bytes :=
  if ts.key.length > maxTombstoneKeyLen then
    .error ("key has length " ++ toString ts.key.length ++ ", maximum allowed key length " ++
      toString maxTombstoneKeyLen)
  else
    let l := ts.key.length + (if ts.isPrefix then 2 ^ 31 else 0) + (if ts.predicate.length > 0 then 2 ^ 30 else 0)
    .ok (putUint 4 l ++ (ts.key ++ (putInt64 ts.min ++ (putInt64 ts.max ++
      if ts.predicate.length > 0 then putUint 8 ts.predicate.length ++ ts.predicate else []))))

/-- `io.ReadFull` of `n` bytes, with the bytes left. -/
def readFull (n : ℕ) (b : Bytes) : Except String (Bytes × Bytes) :=
  if n ≤ b.length then .ok (b.take n, b.drop n) else .error (if b.isEmpty then "EOF" else "unexpected EOF")

/-- The predicate of a record, if the flag for it is set. -/
def readPredicate (hasPred : Bool) (b : Bytes) : Except String (Bytes × Bytes) :=
  if hasPred then do
    let n ← readFull 8 b
    readFull (getUint n.1) n.2
  else .ok ([], b)

/-- One record of a member, with the bytes left. -/
def readTombstone (b : Bytes) : Except String (Tombstone × Bytes) := do
  let word ← readFull 4 b
  let keyLen := getUint word.1
  let key ← readFull (keyLen % 2 ^ 24) word.2
  let min ← readFull 8 key.2
  let max ← readFull 8 min.2
  let predicate ← readPredicate (decide (keyLen / 2 ^ 30 % 2 = 1)) max.2
  return ({ key := key.1, isPrefix := decide (keyLen / 2 ^ 31 % 2 = 1), min := getInt64 min.1, max := getInt64 max.1
            predicate := predicate.1 }, predicate.2)

section Walk
variable {σ : Type} (fn : σ → Tombstone → Except String σ)

/-- The records of a member, given to `fn`; a record takes more than one byte, so the number of bytes is
    enough `fuel`. -/
def readTombstones : ℕ → Bytes → σ → Except String σ
  | 0, _, s => .ok s
  | fuel + 1, b, s =>
    if b.length < 4 then .ok s
    else do
      let res ← readTombstone b
      let s ← fn s res.1
      readTombstones fuel res.2 s

end Walk

/-! ### The file -/

/-- Gzip as a framing: what a closed writer leaves, and what a reader takes from the front. -/
structure Gzip where
  frame : Bytes → Bytes
  readMember : Bytes → Except String (Bytes × Bytes)

/-- A reader returns what was written, and a frame is never empty. -/
structure Gzip.Lawful (g : Gzip) : Prop where
  frame_ne : ∀ p, g.frame p ≠ []
  readMember_frame : ∀ p rest, g.readMember (g.frame p ++ rest) = .ok (p, rest)

def headerSize : ℕ := 4
def v4header : ℕ := 0x1504

/-- The tombstone file, if it exists, and whether the temporary one does. -/
structure TombstoneDisk where
  file : Option Bytes
  tmp : Bool

/-- The temporary file with a writer open: what precedes the member, and what was written to it. -/
structure PendingFile where
  base : Bytes
  payload : Bytes

/-- `Tombstoner`, with the files at its path. -/
structure Tombstoner where
  path : String
  filterFn : Option (Bytes → Bool)
  pending : Option PendingFile
  lastAppliedOffset : ℕ
  disk : TombstoneDisk

/-- `NewTombstoner`. -/
def newTombstoner (path : String) (filterFn : Option (Bytes → Bool)) (disk : TombstoneDisk) : Tombstoner :=
  { path := path, filterFn := filterFn, pending := none, lastAppliedOffset := 0, disk := disk }

namespace Tombstoner

variable (t : Tombstoner)

/-- `prepareLatest`. -/
def prepareLatest : Except String Tombstoner :=
  match t.pending with
  | some _ => .ok t
  | none =>
    if t.disk.tmp then .error "file exists"
    else
      match t.disk.file with
      | none => .ok { t with pending := some ⟨putUint 4 v4header, []⟩, disk := { t.disk with tmp := true } }
      | some b =>
        if b.length < 4 then .ok { t with pending := some ⟨[], []⟩, disk := { t.disk with tmp := true } }
        else if getUint (b.take 4) ≠ v4header then .error "incompatible v4 version"
        else .ok { t with pending := some ⟨b, []⟩, disk := { t.disk with tmp := true } }

/-- Write a tombstone to the open member. -/
def write (ts : Tombstone) : Except String Tombstoner := do
  let b ← writeTombstoneV4 ts
  return { t with pending := t.pending.map fun p => { p with payload := p.payload ++ b } }

/-- `AddPrefixRange`. -/
def addPrefixRange (key : Bytes) (min max : ℤ) (predicate : Bytes) : Except String Tombstoner :=
  if t.path = "" then .ok t
  else do
    let t ← t.prepareLatest
    t.write { key := key, isPrefix := true, min := min, max := max, predicate := predicate }

/-- Whether the filter lets a key pass. -/
def passes (k : Bytes) : Bool := t.filterFn.all fun f => f k

/-- `AddRange`. -/
def addRange (keys : List Bytes) (min max : ℤ) : Except String Tombstoner :=
  let keys := keys.dropWhile fun k => !t.passes k
  if keys.length = 0 then .ok t
  else if t.path = "" then .ok t
  else do
    let t ← t.prepareLatest
    keys.foldlM (fun t k =>
      if t.passes k then t.write { key := k, isPrefix := false, min := min, max := max, predicate := [] }
      else .ok t) t

/-- `Flush`. -/
def flush (g : Gzip) (t : Tombstoner) : Tombstoner :=
  match t.pending with
  | none => t
  | some p => { t with pending := none, disk := { file := some (p.base ++ g.frame p.payload), tmp := false } }

/-- `Rollback`. -/
def rollback : Tombstoner :=
  match t.pending with
  | none => t
  | some _ => { t with pending := none, disk := { t.disk with tmp := false } }

section Walk
variable {σ : Type} (fn : σ → Tombstone → Except String σ)

/-- The members from the front of the bytes on. A member takes at least one byte, so the number of bytes
    is enough `fuel`. -/
def readMembers (g : Gzip) : ℕ → Bytes → σ → Except String σ
  | 0, _, s => .ok s
  | fuel + 1, b, s => do
    let res ← g.readMember b
    let s ← readTombstones fn res.1.length res.1 s
    if res.2 = [] then .ok s else readMembers g fuel res.2 s

/-- `readTombstoneV4`. -/
def readTombstoneV4 (g : Gzip) (t : Tombstoner) (b : Bytes) (s : σ) : Except String (σ × Tombstoner) :=
  let input := b.drop (if t.lastAppliedOffset ≠ 0 then t.lastAppliedOffset else headerSize)
  if input = [] then .ok (s, t)
  else do
    let s ← readMembers fn g input.length input s
    return (s, { t with lastAppliedOffset := b.length })

/-- `Walk`: the state that the calls of `fn` leave. An error of `fn` ends the walk. -/
def walk (g : Gzip) (t : Tombstoner) (s : σ) : Except String (σ × Tombstoner) :=
  match t.disk.file with
  | none => .ok (s, t)
  | some b =>
    if b = [] then .error "unable to read header"
    else if getUint (padTo 4 (b.take 4)) = v4header then t.readTombstoneV4 fn g b s
    else .error "invalid tombstone file"

end Walk

end Tombstoner

/-! ### Reading back what was written -/

/-- A tombstone that can be recorded. -/
structure Tombstone.Valid (ts : Tombstone) : Prop where
  key : ts.key.length ≤ maxTombstoneKeyLen
  min : IsInt64 ts.min
  max : IsInt64 ts.max
  predicate : ts.predicate.length < 2 ^ 64

instance (ts : Tombstone) : Decidable ts.Valid :=
  decidable_of_iff
    (ts.key.length ≤ maxTombstoneKeyLen ∧ IsInt64 ts.min ∧ IsInt64 ts.max ∧ ts.predicate.length < 2 ^ 64)
    ⟨fun ⟨h1, h2, h3, h4⟩ => ⟨h1, h2, h3, h4⟩, fun h => ⟨h.key, h.min, h.max, h.predicate⟩⟩

/-- The bytes of a valid tombstone. -/
def Tombstone.bytes (ts : Tombstone) : Bytes :=
  putUint 4 (ts.key.length + (if ts.isPrefix then 2 ^ 31 else 0) + (if ts.predicate.length > 0 then 2 ^ 30 else 0)) ++
    (ts.key ++ (putInt64 ts.min ++ (putInt64 ts.max ++
      if ts.predicate.length > 0 then putUint 8 ts.predicate.length ++ ts.predicate else [])))

variable {ts : Tombstone}

theorem Tombstone.Valid.write (h : ts.Valid) : writeTombstoneV4 ts = .ok ts.bytes := by
  rw [writeTombstoneV4, if_neg (not_lt.mpr h.key)]
  rfl

theorem Tombstone.length_bytes (ts : Tombstone) : 4 ≤ ts.bytes.length := by
  simp [Tombstone.bytes]

theorem readFull_append (a b : Bytes) {n : ℕ} (h : a.length = n) : readFull n (a ++ b) = .ok (a, b) := by
  subst h
  rw [readFull, if_pos (by simp), take_left, drop_left]

theorem readPredicate_append {p : Bytes} (h : p.length < 2 ^ 64) (rest : Bytes) :
    readPredicate (decide (p.length > 0)) ((if p.length > 0 then putUint 8 p.length ++ p else []) ++ rest) =
      .ok (p, rest) := by
  rw [readPredicate]
  by_cases hp : p.length > 0
  · rw [if_pos hp, if_pos (decide_eq_true hp), append_assoc, readFull_append _ _ (length_putUint 8 _)]
    show readFull (getUint (putUint 8 p.length)) (p ++ rest) = _
    rw [getUint_putUint_of_lt (by omega), readFull_append _ _ rfl]
  · rw [if_neg hp, if_neg (by simpa using hp)]
    obtain rfl : p = [] := eq_nil_of_length_eq_zero (by omega)
    rfl

/-- A record is read back as it was written. -/
theorem readTombstone_bytes (h : ts.Valid) (rest : Bytes) : readTombstone (ts.bytes ++ rest) = .ok (ts, rest) := by
  have hkey := h.key
  rw [maxTombstoneKeyLen] at hkey
  -- the length word holds the length and the two flags
  generalize hw : ts.key.length + (if ts.isPrefix then 2 ^ 31 else 0) +
    (if ts.predicate.length > 0 then 2 ^ 30 else 0) = w
  have hlen : w % 2 ^ 24 = ts.key.length := by split_ifs at hw <;> omega
  have hword : w < 256 ^ 4 := by split_ifs at hw <;> omega
  have hpre : decide (w / 2 ^ 31 % 2 = 1) = ts.isPrefix := by
    cases hp : ts.isPrefix <;> rw [hp] at hw <;> simp only [Bool.false_eq_true, if_false, if_true] at hw <;>
      split_ifs at hw <;> simp only [decide_eq_true_eq, decide_eq_false_iff_not] <;> omega
  have hpred : decide (w / 2 ^ 30 % 2 = 1) = decide (ts.predicate.length > 0) := by
    rw [decide_eq_decide]
    split_ifs at hw <;> omega
  simp only [readTombstone, Tombstone.bytes, hw, append_assoc, readFull_append _ _ (length_putUint 4 w),
    getUint_putUint_of_lt hword, hlen, readFull_append ts.key _ rfl, readFull_append _ _ (length_putInt64 ts.min),
    readFull_append _ _ (length_putInt64 ts.max), hpred, readPredicate_append h.predicate, hpre, bind, Except.bind,
    pure, Except.pure]
  rw [getInt64_putInt64 (by have := h.min; unfold IsInt64 minInt64 maxInt64 at this; omega),
    getInt64_putInt64 (by have := h.max; unfold IsInt64 minInt64 maxInt64 at this; omega)]

section Walk
variable {σ : Type} {fn : σ → Tombstone → Except String σ} {g : Gzip}

/-- A member gives `fn` its tombstones in order. -/
theorem readTombstones_spec : ∀ {tss : List Tombstone} (fuel : ℕ) (s : σ), (∀ ts ∈ tss, ts.Valid) →
    tss.length ≤ fuel → readTombstones fn fuel (tss.flatMap (·.bytes)) s = tss.foldlM fn s
  | [], 0, s, _, _ => rfl
  | [], fuel + 1, s, _, _ => rfl
  | ts :: tss, fuel + 1, s, h, hf => by
    have ih := fun s => readTombstones_spec fuel s (forall_mem_cons.mp h).2 (by simpa using hf)
    have hlen := ts.length_bytes
    rw [flatMap_cons, readTombstones, if_neg (by rw [length_append]; omega),
      readTombstone_bytes (h ts mem_cons_self), foldlM_cons]
    show (fn s ts >>= fun s => readTombstones fn fuel (tss.flatMap (·.bytes)) s) = _
    simp only [ih]

/-- The bytes of a member. -/
def memberBytes (g : Gzip) (tss : List Tombstone) : Bytes := g.frame (tss.flatMap (·.bytes))

theorem length_le_flatMap_bytes : ∀ tss : List Tombstone, tss.length ≤ (tss.flatMap (·.bytes)).length
  | [] => le_rfl
  | ts :: tss => by
    have := length_le_flatMap_bytes tss
    have := ts.length_bytes
    rw [flatMap_cons, length_append, length_cons]
    omega

theorem length_le_flatMap_memberBytes (hg : g.Lawful) : ∀ ms : List (List Tombstone),
    ms.length ≤ (ms.flatMap (memberBytes g)).length
  | [] => le_rfl
  | m :: ms => by
    have := length_le_flatMap_memberBytes hg ms
    have := length_pos_iff.mpr (hg.frame_ne (m.flatMap (·.bytes)))
    rw [flatMap_cons, length_append, length_cons, memberBytes]
    omega

/-- A sequence of members gives `fn` the tombstones of all of them in order. -/
theorem readMembers_spec (hg : g.Lawful) : ∀ {ms : List (List Tombstone)} {fuel : ℕ} (s : σ),
    (∀ m ∈ ms, ∀ ts ∈ m, ts.Valid) → ms ≠ [] → ms.length ≤ fuel →
    Tombstoner.readMembers fn g fuel (ms.flatMap (memberBytes g)) s = ms.flatten.foldlM fn s
  | m :: ms, fuel + 1, s, h, _, hf => by
    have hm : readTombstones fn (m.flatMap (·.bytes)).length (m.flatMap (·.bytes)) s = m.foldlM fn s :=
      readTombstones_spec _ s (h m mem_cons_self) (length_le_flatMap_bytes m)
    rw [flatMap_cons, Tombstoner.readMembers, memberBytes, hg.readMember_frame, flatten_cons, foldlM_append]
    show (readTombstones fn _ (m.flatMap (·.bytes)) s >>= _) = _
    rw [hm]
    congr 1
    funext s
    rcases eq_or_ne ms [] with rfl | hne
    · rfl
    · have hpos := length_pos_iff.mpr hne
      have hlen := length_le_flatMap_memberBytes hg ms
      have hrest : ms.flatMap (memberBytes g) ≠ [] := length_pos_iff.mp (by omega)
      rw [if_neg hrest, readMembers_spec hg s (forall_mem_cons.mp h).2 hne (by simpa using hf)]

end Walk

end InfluxDB.Tsm
