import InfluxDB.Lib.Fallible
import InfluxDB.Wal.Entry

/-!
    The bytes of an entry and that they are read back.  A write that is encoded has values of one type under
    each key, its bytes are those of its keys in turn, and each key is read off the front.
-/

namespace InfluxDB.Wal

open Lib Tsm List Option WriteWALEntry Nat

/-! ### The bytes of a write -/

namespace WriteWALEntry

def valueBytes : Value → Bytes
  | .float bits => putUint 8 bits.toNat
  | .integer v => putInt64 v
  | .unsigned v => putUint 8 v
  | .boolean b => [if b then 1 else 0]
  | .string s => putUint 4 s.length ++ s

def pointBytes (p : ℤ × Value) : Bytes := putInt64 p.1 ++ valueBytes p.2

def keyBytes (kv : Sigma fun _ : Bytes => Values Value) : Bytes :=
  (kv.2.head?.map fun p => entryType p.2.kind).toList ++ putUint 2 kv.1.length ++ kv.1 ++ putUint 4 kv.2.length ++
    kv.2.flatMap pointBytes

/-- The number or length of the value fits its field. -/
def ValueFits : Value → Prop
  | .float _ => True
  | .integer v => IsInt64 v
  | .unsigned v => v < 2 ^ 64
  | .boolean _ => True
  | .string s => s.length < 2 ^ 32

/-- The numbers and lengths of a key and its values fit their fields. -/
structure KeyFits (kv : Sigma fun _ : Bytes => Values Value) : Prop where
  key : kv.1.length < 2 ^ 16
  count : kv.2.length < 2 ^ 32
  values : ∀ p ∈ kv.2, IsInt64 p.1 ∧ ValueFits p.2

/-- There are values, all of one type. -/
def Uniform (v : Values Value) : Prop := ∃ p ∈ v.head?, ∀ q ∈ v, q.2.kind = p.2.kind

variable {cap : ℕ} {out : Bytes} {b : Bytes} {p : ℤ × Value}

theorem put_eq_ok (h : out.length + b.length ≤ cap) : put cap out b = .ok (out ++ b) := if_pos h

theorem copy_eq (h : out.length + b.length ≤ cap) : copy cap out b = out ++ b := by
  rw [copy, take_of_length_le (by omega)]

theorem encodeValue_eq_ok (h : out.length + (pointBytes p).length ≤ cap) :
    encodeValue cap p.2.kind out p = .ok (out ++ pointBytes p) := by
  obtain ⟨t, v⟩ := p
  have hlen : (pointBytes (t, v)).length = 8 + (valueBytes v).length := by
    rw [pointBytes, length_append, length_putInt64]
  have htime : put cap out (putInt64 t) = .ok (out ++ putInt64 t) := put_eq_ok (by rw [length_putInt64]; omega)
  have hvalue : (out ++ putInt64 t).length + (valueBytes v).length ≤ cap := by
    rw [length_append, length_putInt64]
    omega
  rw [encodeValue, htime, pointBytes, ← append_assoc]
  dsimp only [bind, Except.bind]
  rw [if_neg (by simp)]
  cases v with
  | float bits | integer v | unsigned v | boolean b => exact put_eq_ok hvalue
  | string s =>
    have hstring : (valueBytes (.string s)).length = (putUint 4 s.length).length + s.length := length_append
    dsimp only
    rw [put_eq_ok (by omega)]
    dsimp only
    rw [copy_eq (by rw [length_append]; omega), append_assoc]
    rfl

variable {v : Values Value} {kind : Value.Kind}

theorem encodeValues_eq_ok (hkind : ∀ q ∈ v, q.2.kind = kind)
    (h : out.length + (v.flatMap pointBytes).length ≤ cap) :
    v.foldlM (encodeValue cap kind) out = .ok (out ++ v.flatMap pointBytes) := by
  induction v generalizing out with
  | nil => simp [pure, Except.pure]
  | cons p v ih =>
    rw [flatMap_cons, length_append] at h
    have hp : encodeValue cap kind out p = .ok (out ++ pointBytes p) := by
      rw [← hkind p mem_cons_self]
      exact encodeValue_eq_ok (by omega)
    rw [foldlM_cons, hp, flatMap_cons, ← append_assoc]
    exact ih (forall_mem_cons.mp hkind).2 (by rw [length_append]; omega)

variable {kv : Sigma fun _ : Bytes => Values Value} {l : List (Sigma fun _ : Bytes => Values Value)}

theorem encodeKey_eq_ok (hu : Uniform kv.2)
    (h : out.length + (keyBytes kv).length ≤ cap) : encodeKey cap out kv = .ok (out ++ keyBytes kv) := by
  obtain ⟨k, v⟩ := kv
  obtain ⟨p, hp, hkind⟩ := hu
  cases v with
  | nil => cases hp
  | cons q v =>
    cases hp
    rw [keyBytes] at h ⊢
    simp only [head?_cons, map_some, toList_some, length_append, length_singleton, length_putUint] at h
    rw [encodeKey]
    dsimp only
    rw [put_eq_ok (by rw [length_singleton]; omega)]
    dsimp only [bind, Except.bind]
    rw [put_eq_ok (by simp only [length_append, length_singleton, length_putUint]; omega)]
    dsimp only
    rw [copy_eq (by simp only [length_append, length_singleton, length_putUint]; omega),
      put_eq_ok (by simp only [length_append, length_singleton, length_putUint]; omega)]
    dsimp only
    rw [encodeValues_eq_ok hkind (by simp only [length_append, length_singleton, length_putUint]; omega)]
    simp only [head?_cons, map_some, toList_some, append_assoc]

theorem encodeKeys_eq_ok (hu : ∀ kv ∈ l, Uniform kv.2) (h : out.length + (l.flatMap keyBytes).length ≤ cap) :
    l.foldlM (encodeKey cap) out = .ok (out ++ l.flatMap keyBytes) := by
  induction l generalizing out with
  | nil => simp [pure, Except.pure]
  | cons kv l ih =>
    rw [flatMap_cons, length_append] at h
    rw [foldlM_cons, encodeKey_eq_ok (hu kv mem_cons_self) (by omega), flatMap_cons, ← append_assoc]
    exact ih (forall_mem_cons.mp hu).2 (by rw [length_append]; omega)

/-! ### The size of a write -/

theorem length_flatMap_pointBytes {n : ℕ} (h : ∀ q ∈ v, (valueBytes q.2).length = n) :
    (v.flatMap pointBytes).length = 8 * v.length + n * v.length := by
  induction v with
  | nil => rfl
  | cons p v ih =>
    have hp := h p mem_cons_self
    rw [flatMap_cons, length_append, ih (forall_mem_cons.mp h).2, pointBytes,
      length_append, length_putInt64, hp, length_cons]
    ring

theorem foldlM_strings (hkind : ∀ q ∈ v, q.2.kind = .string) (n : ℕ) :
    v.foldlM (fun n vv => match vv.2 with
        | .string s => some (n + (4 + s.length))
        | _ => none) (8 * v.length + n) = some ((v.flatMap pointBytes).length + n) := by
  induction v generalizing n with
  | nil => rfl
  | cons p v ih =>
    obtain ⟨t, x⟩ := p
    have hx : x.kind = .string := hkind (t, x) mem_cons_self
    cases x with
    | string s =>
      have hstart : 8 * ((t, Value.string s) :: v).length + n + (4 + s.length) =
          8 * v.length + (n + 12 + s.length) := by
        rw [length_cons]
        omega
      rw [foldlM_cons]
      dsimp only [bind_eq_bind, bind_some]
      rw [hstart, ih (forall_mem_cons.mp hkind).2, flatMap_cons, length_append, pointBytes,
        length_append, length_putInt64, valueBytes, length_append, length_putUint]
      congr 1
      omega
    | _ => cases hx

theorem valuesSize_eq (hu : Uniform v) : valuesSize v = some (v.flatMap pointBytes).length := by
  obtain ⟨p, hp, hkind⟩ := hu
  cases v with
  | nil => cases hp
  | cons q v =>
    obtain rfl : q = p := some.inj hp
    rw [valuesSize]
    have hfixed : ∀ n, (∀ x : Value, x.kind = q.2.kind → (valueBytes x).length = n) →
        ((q :: v).flatMap pointBytes).length = 8 * (q :: v).length + n * (q :: v).length := fun n hn =>
      length_flatMap_pointBytes fun q' hq' => hn q'.2 (hkind q' hq')
    cases hq : q.2.kind with
    | float | unsigned =>
      rw [hfixed 8 fun x hx => by rw [hq] at hx; cases x <;> cases hx; exact length_putUint _ _]
    | integer =>
      rw [hfixed 8 fun x hx => by rw [hq] at hx; cases x <;> cases hx; exact length_putInt64 _]
    | boolean =>
      rw [hfixed 1 fun x hx => by rw [hq] at hx; cases x <;> cases hx; rfl, one_mul]
    | string => exact foldlM_strings (fun q' hq' => (hkind q' hq').trans hq) 0

theorem length_keyBytes (hu : Uniform kv.2) :
    (keyBytes kv).length = 7 + kv.1.length + (kv.2.flatMap pointBytes).length := by
  obtain ⟨p, hp, -⟩ := hu
  rw [keyBytes, mem_def.mp hp]
  simp only [map_some, toList_some, length_append, length_singleton, length_putUint]
  omega

variable {values : FinMap Bytes (Values Value)}

theorem marshalSize_eq (hu : ∀ kv ∈ values.entries, Uniform kv.2) :
    marshalSize values = (values.entries.flatMap keyBytes).length := by
  have hfold : ∀ (l : List (Sigma fun _ : Bytes => Values Value)) (n : ℕ), (∀ kv ∈ l, Uniform kv.2) →
      l.foldlM (fun n kv => (valuesSize kv.2).map fun size => n + kv.1.length + size) (7 * l.length + n) =
        some ((l.flatMap keyBytes).length + n) := by
    intro l
    induction l with
    | nil => exact fun n _ => rfl
    | cons kv l ih =>
      intro n hl
      have hkv := hl kv mem_cons_self
      rw [foldlM_cons, valuesSize_eq hkv, map_some, bind_eq_bind, bind_some]
      have hstart : 7 * (kv :: l).length + n + kv.1.length + (kv.2.flatMap pointBytes).length =
          7 * l.length + (n + (keyBytes kv).length) := by
        rw [length_keyBytes hkv, length_cons]
        omega
      rw [hstart, ih _ (forall_mem_cons.mp hl).2, flatMap_cons, length_append]
      congr 1
      omega
  have := hfold values.entries 0 hu
  rw [add_zero, add_zero] at this
  rw [marshalSize, this, getD_some]

theorem encode_eq_ok (hu : ∀ kv ∈ values.entries, Uniform kv.2) :
    encode values = .ok (values.entries.flatMap keyBytes) :=
  encodeKeys_eq_ok hu (by rw [marshalSize_eq hu, length_nil, zero_add])

/-- A write that is encoded has values of one type under each key. -/
theorem uniform_of_encode (h : encode values = .ok b) : ∀ kv ∈ values.entries, Uniform kv.2 := by
  intro kv hkv
  obtain ⟨out, out', hok⟩ := exists_step_of_foldlM h kv hkv
  rw [encodeKey] at hok
  cases hv : kv.2 with
  | nil =>
    rw [hv] at hok
    cases hok
  | cons p v =>
    rw [hv] at hok
    obtain ⟨_, -, hok⟩ := bind_eq_ok.mp hok
    obtain ⟨_, -, hok⟩ := bind_eq_ok.mp hok
    obtain ⟨_, -, hok⟩ := bind_eq_ok.mp hok
    refine ⟨p, rfl, fun q hq => ?_⟩
    obtain ⟨out, out', hq⟩ := exists_step_of_foldlM hok q hq
    obtain ⟨_, -, hq⟩ := bind_eq_ok.mp hq
    by_contra hne
    rw [if_pos hne] at hq
    cases hq

/-! ### Reading a write back -/

theorem getInt64_putInt64_of {x : ℤ} (h : IsInt64 x) : getInt64 (putInt64 x) = x := by
  unfold IsInt64 minInt64 maxInt64 at h
  exact getInt64_putInt64 (by omega)

theorem length_le_length_flatMap {α : Type*} {f : α → Bytes} {l : List α} (h : ∀ a ∈ l, 0 < (f a).length) :
    l.length ≤ (l.flatMap f).length := by
  induction l with
  | nil => exact le_rfl
  | cons a l ih =>
    have ha := h a mem_cons_self
    have hl := ih (forall_mem_cons.mp h).2
    rw [flatMap_cons, length_append, length_cons]
    omega

theorem readFixed_append {width : ℕ} {read : Bytes → Value}
    (h : ∀ p ∈ v, IsInt64 p.1 ∧ (valueBytes p.2).length = width ∧ read (valueBytes p.2) = p.2) (rest : Bytes) :
    readFixed width read v.length (v.flatMap pointBytes ++ rest) = (v, rest) := by
  induction v with
  | nil => rfl
  | cons p v ih =>
    obtain ⟨htime, hlen, hread⟩ := h p mem_cons_self
    have hsplit : (p :: v).flatMap pointBytes ++ rest =
        putInt64 p.1 ++ (valueBytes p.2 ++ (v.flatMap pointBytes ++ rest)) := by
      simp only [flatMap_cons, pointBytes, append_assoc]
    have hskip : (putInt64 p.1 ++ (valueBytes p.2 ++ (v.flatMap pointBytes ++ rest))).drop (8 + width) =
        v.flatMap pointBytes ++ rest := by
      rw [← drop_drop, drop_left' (length_putInt64 _), drop_left' hlen]
    rw [length_cons, readFixed, hsplit, hskip, ih (forall_mem_cons.mp h).2]
    rw [take_left' (length_putInt64 _), drop_left' (length_putInt64 _), take_left' hlen, hread,
      getInt64_putInt64_of htime]

theorem readStrings_append (h : ∀ p ∈ v, IsInt64 p.1 ∧ p.2.kind = .string ∧ ValueFits p.2) (rest : Bytes) :
    readStrings v.length (v.flatMap pointBytes ++ rest) = .ok (v, rest) := by
  induction v with
  | nil => rfl
  | cons p v ih =>
    obtain ⟨t, x⟩ := p
    obtain ⟨htime, hkind, hfits⟩ := h (t, x) mem_cons_self
    cases x with
    | string s =>
      have hfits : s.length < 2 ^ 32 := hfits
      have hsplit : ((t, Value.string s) :: v).flatMap pointBytes ++ rest =
          putInt64 t ++ (putUint 4 s.length ++ (s ++ (v.flatMap pointBytes ++ rest))) := by
        simp only [flatMap_cons, pointBytes, valueBytes, append_assoc]
      have hdrop8 : (putInt64 t ++ (putUint 4 s.length ++ (s ++ (v.flatMap pointBytes ++ rest)))).drop 8 =
          putUint 4 s.length ++ (s ++ (v.flatMap pointBytes ++ rest)) := drop_left' (length_putInt64 _)
      have hdrop12 : (putInt64 t ++ (putUint 4 s.length ++ (s ++ (v.flatMap pointBytes ++ rest)))).drop 12 =
          s ++ (v.flatMap pointBytes ++ rest) := by
        rw [show 12 = 8 + 4 from rfl, ← drop_drop, hdrop8, drop_left' (length_putUint _ _)]
      rw [length_cons, readStrings, hsplit, hdrop8, hdrop12, take_left' (length_putUint _ _),
        take_left' (length_putInt64 _), getUint_putUint_of_lt (by omega), getInt64_putInt64_of htime]
      have hlen : ¬ (putInt64 t ++ (putUint 4 s.length ++ (s ++ (v.flatMap pointBytes ++ rest)))).length < 12 := by
        simp only [length_append, length_putInt64, length_putUint]
        omega
      rw [if_neg hlen, if_neg (by simp only [length_append]; omega), if_neg (by simp), take_left' rfl,
        drop_left' rfl, ih (forall_mem_cons.mp h).2]
      rfl
    | _ => cases hkind

theorem readValues_append (hkind : ∀ p ∈ v, p.2.kind = kind)
    (h : ∀ p ∈ v, IsInt64 p.1 ∧ ValueFits p.2) (rest : Bytes) :
    readValues (entryType kind) v.length (v.flatMap pointBytes ++ rest) = .ok (v, rest) := by
  have hfixed : ∀ (width : ℕ) (read : Bytes → Value),
      (∀ x : Value, x.kind = kind → ValueFits x → (valueBytes x).length = width ∧ read (valueBytes x) = x) →
      (if (v.flatMap pointBytes ++ rest).length < (8 + width) * v.length then Except.error DecodeError.corrupt
        else .ok (readFixed width read v.length (v.flatMap pointBytes ++ rest))) = .ok (v, rest) := by
    intro width read hread
    have hwidth : ∀ p ∈ v, (valueBytes p.2).length = width ∧ read (valueBytes p.2) = p.2 := fun p hp =>
      hread p.2 (hkind p hp) (h p hp).2
    have hlen := length_flatMap_pointBytes fun p hp => (hwidth p hp).1
    rw [if_neg (by rw [length_append, hlen, add_mul]; omega),
      readFixed_append fun p hp => ⟨(h p hp).1, hwidth p hp⟩]
  rw [readValues]
  cases kind with
  | float =>
    refine hfixed 8 _ fun x hx hfits => ?_
    cases x <;> cases hx
    rename_i bits
    refine ⟨length_putUint _ _, congrArg Value.float ?_⟩
    rw [valueBytes, getUint_putUint_of_lt bits.isLt, BitVec.ofNat_toNat, BitVec.setWidth_eq]
  | integer =>
    refine hfixed 8 _ fun x hx hfits => ?_
    cases x <;> cases hx
    exact ⟨length_putInt64 _, congrArg Value.integer (getInt64_putInt64_of hfits)⟩
  | unsigned =>
    refine hfixed 8 _ fun x hx hfits => ?_
    cases x <;> cases hx
    exact ⟨length_putUint _ _, congrArg Value.unsigned (getUint_putUint_of_lt hfits)⟩
  | boolean =>
    refine hfixed 1 _ fun x hx hfits => ?_
    cases x <;> cases hx
    rename_i b
    cases b <;> exact ⟨rfl, rfl⟩
  | string => exact readStrings_append (fun p hp => ⟨(h p hp).1, hkind p hp, (h p hp).2⟩) rest

theorem readKey_append {total : ℕ} (hp : kv.2.head? = some p)
    (hkind : ∀ q ∈ kv.2, q.2.kind = p.2.kind) (hfits : KeyFits kv) (htotal : kv.2.length ≤ total) (rest : Bytes) :
    readKey total (entryType p.2.kind)
      (putUint 2 kv.1.length ++ kv.1 ++ putUint 4 kv.2.length ++ kv.2.flatMap pointBytes ++ rest) =
        .ok (kv.1, kv.2, rest) := by
  have hpos : kv.2.length ≠ 0 := by
    intro hzero
    rw [eq_nil_of_length_eq_zero hzero] at hp
    cases hp
  have hkey := hfits.key
  have hcount := hfits.count
  simp only [readKey, append_assoc]
  rw [cut_append (length_putUint _ _)]
  dsimp only
  rw [getUint_putUint_of_lt (by omega), cut_append rfl]
  dsimp only
  rw [cut_append (length_putUint _ _)]
  dsimp only
  rw [getUint_putUint_of_lt (by omega), if_neg (by omega), readValues_append hkind hfits.values]
  rfl

theorem unmarshalLoop_append {total fuel : ℕ} (hu : ∀ kv ∈ l, Uniform kv.2) (hfits : ∀ kv ∈ l, KeyFits kv)
    (htotal : (l.flatMap keyBytes).length ≤ total) (hfuel : l.length ≤ fuel)
    (hl : (values.entries ++ l).NodupKeys) :
    unmarshalLoop total fuel (l.flatMap keyBytes) values = .ok ⟨values.entries ++ l, hl⟩ := by
  induction l generalizing fuel values with
  | nil =>
    rw [flatMap_nil, unmarshalLoop]
    congr 1
    exact AList.ext (append_nil _).symm
  | cons kv l ih =>
    have hkv := length_keyBytes (hu kv mem_cons_self)
    obtain ⟨p, hp, hkind⟩ := hu kv mem_cons_self
    rw [flatMap_cons, length_append] at htotal
    have hcount : kv.2.length ≤ (kv.2.flatMap pointBytes).length := length_le_length_flatMap fun q _ => by
      rw [pointBytes, length_append, length_putInt64]
      omega
    cases fuel with
    | zero => exact absurd hfuel (by simp)
    | succ fuel =>
      have hbytes : (kv :: l).flatMap keyBytes = entryType p.2.kind ::
          (putUint 2 kv.1.length ++ kv.1 ++ putUint 4 kv.2.length ++ kv.2.flatMap pointBytes ++
            l.flatMap keyBytes) := by
        rw [flatMap_cons, keyBytes, hp]
        simp only [map_some, toList_some, append_assoc, cons_append, nil_append]
      have hfresh : kv.1 ∉ values.keys := by
        rw [NodupKeys, keys, map_append, map_cons, nodup_append] at hl
        exact fun hmem => hl.2.2 kv.1 hmem kv.1 mem_cons_self rfl
      have hset := FinMap.entries_set hfresh kv.2
      have hl' : ((values.set kv.1 kv.2).entries ++ l).NodupKeys := by
        rw [hset, append_assoc]
        exact hl
      rw [hbytes, unmarshalLoop, readKey_append hp hkind (hfits kv mem_cons_self) (by omega)]
      dsimp only [bind, Except.bind]
      rw [ih (forall_mem_cons.mp hu).2 (forall_mem_cons.mp hfits).2
        (by omega) (by simpa using hfuel) hl']
      congr 1
      apply AList.ext
      dsimp only
      rw [hset, append_assoc]
      rfl

/-- What is encoded is read back. -/
theorem unmarshalBinary_encode (hb : encode values = .ok b)
    (hfits : ∀ kv ∈ values.entries, KeyFits kv) : unmarshalBinary b = .ok values := by
  have hu := uniform_of_encode hb
  rw [encode_eq_ok hu] at hb
  cases hb
  have hfuel : values.entries.length ≤ (values.entries.flatMap keyBytes).length :=
    length_le_length_flatMap fun kv hkv => by
      rw [length_keyBytes (hu kv hkv)]
      omega
  have hnodup : ((∅ : FinMap Bytes (Values Value)).entries ++ values.entries).NodupKeys := values.nodupKeys
  exact unmarshalLoop_append hu hfits le_rfl hfuel hnodup

end WriteWALEntry

/-! ### Entries -/

theorem hexValue_hexDigit {n : ℕ} (h : n < 16) : hexValue (hexDigit n) = some n := by
  have hdigits : ∀ d : Fin 16, hexValue (hexDigit d) = some d.val := by decide
  exact hdigits ⟨n, h⟩

theorem parseHex_hexEncode (b : Bytes) (n : ℕ) :
    (hexEncode b).foldlM (fun n c => (hexValue c).map fun d => n * 16 + d) n =
      some (b.foldl (fun acc x => acc * 256 + x.val) n) := by
  induction b generalizing n with
  | nil => rfl
  | cons x b ih =>
    have hstep : (n * 16 + x.val / 16) * 16 + x.val % 16 = n * 256 + x.val := by omega
    rw [hexEncode, flatMap_cons, cons_append, cons_append, nil_append, foldlM_cons,
      hexValue_hexDigit (by omega), map_some, bind_eq_bind, bind_some, foldlM_cons,
      hexValue_hexDigit (by omega), map_some, bind_eq_bind, bind_some, hstep, foldl_cons]
    exact ih _

theorem decodeID_encodeID {i : ℕ} {b : Bytes} (hi : i < 2 ^ 64) (hb : encodeID i = .ok b) :
    b.length = 16 ∧ decodeID b = .ok i := by
  rw [encodeID] at hb
  split_ifs at hb with hzero
  cases hb
  have hparse : parseHex (hexEncode (putUint 8 i)) = some i := by
    rw [parseHex, parseHex_hexEncode]
    exact congrArg some (getUint_putUint_of_lt (by omega))
  refine ⟨by simp [hexEncode, length_flatMap], ?_⟩
  rw [decodeID, hparse]
  exact if_neg hzero

namespace WALEntry

/-- The numbers and lengths of the entry fit their fields. -/
def Fits : WALEntry → Prop
  | .write values => ∀ kv ∈ values.entries, KeyFits kv
  | .deleteBucketRange orgID bucketID min max _ => orgID < 2 ^ 64 ∧ bucketID < 2 ^ 64 ∧ IsInt64 min ∧ IsInt64 max

/-- An entry that is encoded is read back. -/
theorem unmarshalBinary_encode {e : WALEntry} {b : Bytes} (hb : e.encode = .ok b) (hfits : e.Fits) :
    unmarshalBinary e.type b = .ok e := by
  cases e with
  | write values =>
    rw [unmarshalBinary, type, if_pos rfl, WriteWALEntry.unmarshalBinary_encode hb hfits]
    rfl
  | deleteBucketRange orgID bucketID min max predicate =>
    obtain ⟨horg, hbucket, hmin, hmax⟩ := hfits
    obtain ⟨org, horgID, hb⟩ := bind_eq_ok.mp hb
    obtain ⟨bucket, hbucketID, hb⟩ := bind_eq_ok.mp hb
    cases hb
    obtain ⟨horgLen, horgDecode⟩ := decodeID_encodeID horg horgID
    obtain ⟨hbucketLen, hbucketDecode⟩ := decodeID_encodeID hbucket hbucketID
    simp only [append_assoc]
    generalize hdata : org ++ (bucket ++ (putInt64 min ++ (putInt64 max ++ predicate))) = data
    have horg : data.take 16 = org := by rw [← hdata, take_left' horgLen]
    have h16 : data.drop 16 = bucket ++ (putInt64 min ++ (putInt64 max ++ predicate)) := by
      rw [← hdata, drop_left' horgLen]
    have h32 : data.drop 32 = putInt64 min ++ (putInt64 max ++ predicate) := by
      rw [show 32 = 16 + 16 from rfl, ← drop_drop, h16, drop_left' hbucketLen]
    have h40 : data.drop 40 = putInt64 max ++ predicate := by
      rw [show 40 = 32 + 8 from rfl, ← drop_drop, h32, drop_left' (length_putInt64 _)]
    have h48 : data.drop 48 = predicate := by
      rw [show 48 = 40 + 8 from rfl, ← drop_drop, h40, drop_left' (length_putInt64 _)]
    have hlen : ¬ data.length < 2 * 16 + 16 := by
      rw [← hdata]
      simp only [length_append, horgLen, hbucketLen, length_putInt64]
      omega
    rw [unmarshalBinary, type, if_neg (by decide), if_pos rfl, if_neg hlen, horg, h16,
      take_left' hbucketLen, h32, h40, h48, horgDecode, hbucketDecode,
      take_left' (length_putInt64 _), take_left' (length_putInt64 _),
      getInt64_putInt64_of hmin, getInt64_putInt64_of hmax]
    rfl

end WALEntry

end InfluxDB.Wal
