import InfluxDB.Lib.Reader
import InfluxDB.Tsi.LogFile

/-!
    The bytes of a log file of the series index.  An entry is written with a checksum behind it.  Opening a
    file executes its entries up to the first one that is cut off or has a wrong checksum; the file is
    not cut there, and the next entries are written over what follows.
-/

namespace InfluxDB.Tsi

open Lib List

/-- What `UnmarshalBinary` and `open` stop at. -/
inductive LogError where
  | shortBuffer
  | checksumMismatch
  /-- A number that has too many bits. -/
  | uvarint
  /-- A length beyond the range of an int, for which a slice runs out of bounds. -/
  | panic
  deriving DecidableEq

namespace LogEntry

/-! ### The codec -/

/-- The checksum, `crc32.ChecksumIEEE`. -/
abbrev Checksum := Bytes → Fin (2 ^ 32)

/-- A length and as many bytes. -/
def putSized (b : Bytes) : Bytes := putUvarint b.length ++ b

/-- What an entry has in front of its checksum. -/
def appendFields (e : LogEntry) : Bytes :=
  [e.flag] ++ (putUvarint e.seriesID ++ (putSized e.name ++ (putSized e.key ++ (putSized e.value ++ []))))

variable (crc : Checksum)

def appendLogEntry (e : LogEntry) : Bytes := e.appendFields ++ putUint 4 (crc e.appendFields).val

def readFlag : Reader LogError Byte
  | [] => .error .shortBuffer
  | b :: data => .ok (b, data)

/-- `uvarint`. -/
def readUvarint : Reader LogError ℕ := fun data =>
  match getUvarint data with
  | .value x n => .ok (x, data.drop n)
  | .short => .error .shortBuffer
  | .overflow => .error .uvarint

def readSized : Reader LogError Bytes := fun data =>
  match getUvarint data with
  | .short => .error .shortBuffer
  | .overflow => .error .uvarint
  | .value sz n =>
    if 2 ^ 63 ≤ n + sz then .error .panic
    else if data.length < n + sz then .error .shortBuffer
    else .ok ((data.drop n).take sz, data.drop (n + sz))

/-- `UnmarshalBinary` up to the checksum; a series id has 32 bits. -/
def readFields : Reader LogError LogEntry := do
  let flag ← readFlag
  let seriesID ← readUvarint
  let name ← readSized
  let key ← readSized
  let value ← readSized
  pure { flag := flag, seriesID := seriesID % 2 ^ 32, name := name, key := key, value := value, cached := none }

/-- The entry and its size. -/
def unmarshalBinary (orig : Bytes) : Except LogError (LogEntry × ℕ) :=
  match readFields orig with
  | .error err => .error err
  | .ok (e, data) =>
    let chk := crc (orig.take (orig.length - data.length))
    if data.length < 4 then .error .shortBuffer
    else if chk.val ≠ getUint (data.take 4) then .error .checksumMismatch
    else .ok (e, orig.length - (data.drop 4).length)

/-- The entry as it is read back. -/
def stored (e : LogEntry) : LogEntry := { e with cached := none }

/-- An entry of a series id, whose bytes fit a slice. -/
structure Fits (crc : Checksum) (e : LogEntry) : Prop where
  seriesID : e.seriesID < 2 ^ 32
  length : (appendLogEntry crc e).length < 2 ^ 63

theorem reads_flag (b : Byte) : Reads .shortBuffer readFlag [b] b :=
  ⟨fun _ => rfl, fun k hk => by rw [Nat.lt_one_iff.mp hk]; rfl⟩

theorem reads_uvarint {x : ℕ} (hx : x < 2 ^ 64) : Reads .shortBuffer readUvarint (putUvarint x) x where
  append rest := by
    rw [readUvarint, getUvarint_append hx]
    dsimp only
    rw [drop_left]
  take k hk := by rw [readUvarint, getUvarint_take hk]

theorem reads_sized {b : Bytes} (hb : (putSized b).length < 2 ^ 63) : Reads .shortBuffer readSized (putSized b) b := by
  rw [putSized, length_append] at hb
  have hlen : b.length < 2 ^ 64 := by omega
  refine ⟨fun rest => ?_, fun k hk => ?_⟩
  · rw [putSized, append_assoc, readSized, getUvarint_append hlen]
    dsimp only
    rw [if_neg (by omega), if_neg (by simp only [length_append]; omega), ← drop_drop, drop_left, take_left, drop_left]
  · rw [putSized, length_append] at hk
    rw [readSized, putSized]
    by_cases hlt : k < (putUvarint b.length).length
    · rw [take_append_of_le_length hlt.le, getUvarint_take hlt]
    · rw [take_append, take_of_length_le (not_lt.mp hlt), getUvarint_append hlen]
      dsimp only
      rw [if_neg (by omega), if_pos (by simp only [length_append, length_take]; omega)]

theorem Fits.reads_fields {crc : Checksum} {e : LogEntry} (h : e.Fits crc) :
    Reads .shortBuffer readFields e.appendFields e.stored := by
  have hlen := h.length
  rw [appendLogEntry, appendFields] at hlen
  simp only [length_append] at hlen
  have hid := h.seriesID
  have hstored : e.stored =
      { flag := e.flag, seriesID := e.seriesID % 2 ^ 32, name := e.name, key := e.key,
        value := e.value, cached := none } := by
    rw [stored, Nat.mod_eq_of_lt hid]
  rw [hstored]
  exact (reads_flag e.flag).bind ((reads_uvarint (by omega)).bind ((reads_sized (by omega)).bind
    ((reads_sized (by omega)).bind ((reads_sized (by omega)).bind (Reads.pure _)))))

theorem length_appendLogEntry (e : LogEntry) :
    (appendLogEntry crc e).length = e.appendFields.length + 4 := by
  rw [appendLogEntry, length_append, length_putUint]

/-- An entry is read back. -/
theorem Fits.unmarshalBinary_append {crc : Checksum} {e : LogEntry} (h : e.Fits crc) (rest : Bytes) :
    unmarshalBinary crc (appendLogEntry crc e ++ rest) = .ok (e.stored, (appendLogEntry crc e).length) := by
  rw [unmarshalBinary, appendLogEntry, append_assoc, h.reads_fields.append]
  dsimp only
  have hcrc : (crc e.appendFields).val < 256 ^ 4 := lt_of_lt_of_le (crc e.appendFields).isLt (by norm_num)
  have htake : (e.appendFields ++ (putUint 4 (crc e.appendFields).val ++ rest)).take
      ((e.appendFields ++ (putUint 4 (crc e.appendFields).val ++ rest)).length -
        (putUint 4 (crc e.appendFields).val ++ rest).length) = e.appendFields := by
    rw [length_append, Nat.add_sub_cancel, take_left]
  rw [if_neg (by simp), htake, take_left' (length_putUint 4 _), getUint_putUint_of_lt hcrc, if_neg (by simp),
    drop_left' (length_putUint 4 _)]
  simp only [length_append, length_putUint]
  congr 2
  omega

/-- An entry that is cut off is not read. -/
theorem Fits.unmarshalBinary_take {crc : Checksum} {e : LogEntry} (h : e.Fits crc) {k : ℕ}
    (hk : k < (appendLogEntry crc e).length) :
    unmarshalBinary crc ((appendLogEntry crc e).take k) = .error .shortBuffer := by
  rw [length_appendLogEntry] at hk
  rw [unmarshalBinary, appendLogEntry]
  by_cases hlt : k < e.appendFields.length
  · rw [take_append_of_le_length hlt.le, h.reads_fields.take k hlt]
  · rw [take_append, take_of_length_le (not_lt.mp hlt), h.reads_fields.append]
    dsimp only
    rw [if_pos (by rw [length_take]; omega)]

/-! ### Bytes of any kind -/

/-- One of the next `k` lengths, as far as they are read, says more than an int holds. -/
def LongField : ℕ → Bytes → Prop
  | 0, _ => False
  | k + 1, data =>
    match getUvarint data with
    | .value sz n => 2 ^ 63 ≤ n + sz ∨ n + sz ≤ data.length ∧ LongField k (data.drop (n + sz))
    | _ => False

/-- Behind the flag and the series id. -/
def Overlong : Bytes → Prop
  | [] => False
  | _ :: data =>
    match getUvarint data with
    | .value _ n => LongField 3 (data.drop n)
    | _ => False

/-- There is an error, or an entry whose fields lie one behind the other in its bytes. -/
def DecodesSafely (b : Bytes) : Prop :=
  match unmarshalBinary crc b with
  | .error err => err ≠ .panic
  | .ok (e, size) => size ≤ b.length ∧ ∃ id name key value chk,
      b.take size = [e.flag] ++ id ++ (name ++ e.name) ++ (key ++ e.key) ++ (value ++ e.value) ++ chk

section

variable {α : Type} {s : Bytes → Reader LogError α} {data rest : Bytes}

theorem readSized_panic {k : ℕ} (hs : ∀ x rest, s x rest = .error .panic ↔ LongField k rest) :
    (readSized >>= s) data = .error .panic ↔ LongField (k + 1) data := by
  change Except.bind (readSized data) _ = _ ↔ _
  rw [readSized, LongField]
  cases getUvarint data with
  | short | overflow => simp [Except.bind]
  | value sz n =>
    dsimp only
    split_ifs with hlong hshort
    · exact iff_of_true rfl (.inl hlong)
    · exact iff_of_false nofun fun h => h.elim hlong fun h => hshort.not_ge h.1
    · exact (hs _ _).trans ⟨fun h => .inr ⟨not_lt.mp hshort, h⟩, fun h => (h.resolve_left hlong).2⟩

theorem readSized_ok {a : α} (h : (readSized >>= s) data = .ok (a, rest)) :
    ∃ u x mid, data = u ++ x ++ mid ∧ s x mid = .ok (a, rest) := by
  change Except.bind (readSized data) _ = _ at h
  rw [readSized] at h
  cases hsz : getUvarint data with
  | short | overflow => simp [hsz, Except.bind] at h
  | value sz n =>
    simp only [hsz] at h
    split_ifs at h
    · cases h
    · cases h
    · exact ⟨data.take n, _, _, by rw [append_assoc, ← drop_drop, take_append_drop, take_append_drop], h⟩

end

theorem readFields_panic {b : Bytes} : readFields b = .error .panic ↔ Overlong b := by
  cases b with
  | nil => exact iff_of_false nofun id
  | cons flag data =>
    change Except.bind (readUvarint data) _ = _ ↔ _
    rw [readUvarint, Overlong]
    cases getUvarint data with
    | short | overflow => simp [Except.bind]
    | value x n =>
      exact readSized_panic fun name _ => readSized_panic fun key _ =>
        readSized_panic fun value _ => iff_of_false nofun id

theorem readFields_ok {b rest : Bytes} {e : LogEntry} (h : readFields b = .ok (e, rest)) : ∃ id name key value,
    b = [e.flag] ++ id ++ (name ++ e.name) ++ (key ++ e.key) ++ (value ++ e.value) ++ rest := by
  cases b with
  | nil => cases h
  | cons flag data =>
    change Except.bind (readUvarint data) _ = _ at h
    rw [readUvarint] at h
    cases hid : getUvarint data with
    | short | overflow => simp [hid, Except.bind] at h
    | value x n =>
      rw [hid] at h
      obtain ⟨u₁, name, d₁, h₁, h⟩ := readSized_ok h
      obtain ⟨u₂, key, d₂, h₂, h⟩ := readSized_ok h
      obtain ⟨u₃, value, d₃, h₃, h⟩ := readSized_ok h
      cases h
      have hdata := (take_append_drop n data).symm
      rw [h₁, h₂, h₃] at hdata
      exact ⟨data.take n, u₁, u₂, u₃, by simpa using hdata⟩

/-- Any bytes are decoded safely, unless a length that is read exceeds the range of an int. -/
theorem decodesSafely_iff (b : Bytes) : DecodesSafely crc b ↔ ¬ Overlong b := by
  rw [← readFields_panic, DecodesSafely, unmarshalBinary]
  cases hfields : readFields b with
  | error err => simp
  | ok r =>
    obtain ⟨id, name, key, value, hb⟩ := readFields_ok hfields
    dsimp only
    split_ifs with hshort hcrc
    · simp
    · simp
    · have hlen : b.length - (r.2.drop 4).length ≤ b.length := Nat.sub_le _ _
      refine iff_of_true ⟨hlen, id, name, key, value, r.2.take 4, ?_⟩ nofun
      have htake : r.2.take 4 ++ r.2.drop 4 = r.2 := take_append_drop 4 r.2
      rw [← htake, ← append_assoc] at hb
      rw [hb, length_append, Nat.add_sub_cancel, take_left]

/-- The length of the name has all 64 bits: as an int it is negative, and the slice ends before it begins. -/
theorem not_decodesSafely_name : ¬ DecodesSafely (fun _ => 0) ([0, 0] ++ putUvarint (2 ^ 64 - 1)) := by
  intro h
  exact h (by decide)

end LogEntry

end InfluxDB.Tsi
