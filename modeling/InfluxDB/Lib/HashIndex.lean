import InfluxDB.Lib.Reader
import InfluxDB.Lib.RobinHood

/-!
    Elements that are written one after the other, and found again by an iteration or by a hash index.

    A hash index holds the capacity of a hash table and for every slot the offset of an element, or zero.
    A parser takes an element off the front of bytes, or stops.  `Parses r enc P` says that on bytes that
    start with `enc` it takes just these and what it returns satisfies `P`.
-/

namespace InfluxDB.Lib

open RobinHood List

/-! ### Parsers -/

abbrev Parser (α : Type) := StateT Bytes Option α

/-- The parser takes the bytes `enc`, whatever follows. -/
def Parses {α : Type} (r : Parser α) (enc : Bytes) (P : α → Prop) : Prop :=
  ∀ rest, ∃ a, r (enc ++ rest) = some (a, rest) ∧ P a

namespace Parses

variable {α β : Type} {enc enc' : Bytes} {P : α → Prop} {Q : β → Prop} {r : Parser α}
  {s : α → Parser β} {a : α}

theorem pure (h : P a) : Parses (Pure.pure a) [] P := fun _ => ⟨a, rfl, h⟩

theorem bind (hr : Parses r enc P) (hs : ∀ a, P a → Parses (s a) enc' Q) : Parses (r >>= s) (enc ++ enc') Q := by
  intro rest
  obtain ⟨a, ha, hP⟩ := hr (enc' ++ rest)
  obtain ⟨b, hb, hQ⟩ := hs a hP rest
  refine ⟨b, ?_, hQ⟩
  rw [append_assoc]
  change Option.bind (r (enc ++ (enc' ++ rest))) _ = _
  rw [ha]
  exact hb

/-- What stands in front is read back, and the rest is read with it. -/
theorem bind_eq (hr : Parses r enc (· = a)) (hs : Parses (s a) enc' Q) : Parses (r >>= s) (enc ++ enc') Q := by
  refine hr.bind ?_
  rintro _ rfl
  exact hs

theorem map {f : α → β} (hr : Parses r enc P) (hf : ∀ a, P a → Q (f a)) :
    Parses (r >>= fun a => Pure.pure (f a)) enc Q := by
  have hbind := hr.bind fun a ha => pure (hf a ha)
  rwa [append_nil] at hbind

end Parses

/-- The next bytes. -/
def parseBytes (n : ℕ) : Parser Bytes := fun data => cut n data

/-- A number of as many bytes. -/
def parseUint (w : ℕ) : Parser ℕ := fun data => (cut w data).map fun r => (getUint r.1, r.2)

def parseByte : Parser Byte
  | [] => none
  | b :: data => some (b, data)

def parseUvarint : Parser ℕ := fun data =>
  match getUvarint data with
  | .value x n => some (x, data.drop n)
  | _ => none

theorem parses_bytes (b : Bytes) : Parses (parseBytes b.length) b (· = b) :=
  fun rest => ⟨b, cut_append rfl rest, rfl⟩

theorem parses_uint {w x : ℕ} (h : x < 256 ^ w) : Parses (parseUint w) (putUint w x) (· = x) := fun rest =>
  ⟨x, by rw [parseUint, cut_append (length_putUint w x), Option.map_some, getUint_putUint_of_lt h], rfl⟩

theorem parses_byte (b : Byte) : Parses parseByte [b] (· = b) := fun _ => ⟨b, rfl, rfl⟩

theorem parses_uvarint {x : ℕ} (h : x < 2 ^ 64) : Parses parseUvarint (putUvarint x) (· = x) := fun rest =>
  ⟨x, by rw [parseUvarint, getUvarint_append h]; dsimp only; rw [drop_left], rfl⟩

/-- A part of bytes. -/
def cutAt (data : Bytes) (offset size : ℕ) : Option Bytes :=
  if data.length < offset + size then none else some ((data.drop offset).take size)

/-- A part of other bytes; nothing is taken. -/
def parseCutAt (data : Bytes) (offset size : ℕ) : Parser Bytes :=
  fun rest => (cutAt data offset size).map fun b => (b, rest)

theorem cutAt_append (a b d : Bytes) : cutAt (a ++ (b ++ d)) a.length b.length = some b := by
  rw [cutAt, if_neg (by simp only [length_append]; omega), drop_left, take_left]

/-- Sections that follow one another are cut one after the other. -/
theorem cutAt_of_drop {data b d : Bytes} {n : ℕ} (hn : n ≤ data.length) (h : data.drop n = b ++ d) :
    cutAt data n b.length = some b ∧ n + b.length ≤ data.length ∧ data.drop (n + b.length) = d := by
  have hlen := congrArg length h
  rw [length_drop, length_append] at hlen
  refine ⟨?_, by omega, by rw [← drop_drop, h, drop_left]⟩
  rw [cutAt, if_neg (by omega), h, take_left]

theorem Parses.cutAt {β : Type} {data b enc : Bytes} {offset size : ℕ} {s : Bytes → Parser β} {Q : β → Prop}
    (hslice : cutAt data offset size = some b) (hs : Parses (s b) enc Q) :
    Parses (parseCutAt data offset size >>= s) enc Q := by
  intro rest
  obtain ⟨a, ha, hQ⟩ := hs rest
  refine ⟨a, ?_, hQ⟩
  change Option.bind (parseCutAt data offset size (enc ++ rest)) _ = _
  rw [parseCutAt, hslice]
  exact ha

/-- The elements of a section, until its end; an element takes at least a byte. -/
def parseAllLoop {α : Type} (r : Parser α) : ℕ → Bytes → Option (List α)
  | _, [] => some []
  | 0, _ :: _ => none
  | fuel + 1, data =>
    match r data with
    | none => none
    | some (a, data) => (parseAllLoop r fuel data).map (a :: ·)

def parseAll {α : Type} (r : Parser α) (data : Bytes) : Option (List α) := parseAllLoop r data.length data

/-! ### Elements one after the other -/

section

variable {α β : Type}

/-- Elements with their offsets. -/
def layout (enc : α → Bytes) : ℕ → List α → List (α × ℕ)
  | _, [] => []
  | n, x :: xs => (x, n) :: layout enc (n + (enc x).length) xs

variable {enc : α → Bytes} {xs : List α} {n : ℕ} {e : α × ℕ}

theorem map_fst_layout (enc : α → Bytes) : ∀ (n : ℕ) (xs : List α), (layout enc n xs).map Prod.fst = xs
  | _, [] => rfl
  | n, x :: xs => by rw [layout, map_cons, map_fst_layout]

theorem layout_bounds (h : e ∈ layout enc n xs) :
    n ≤ e.2 ∧ e.2 + (enc e.1).length ≤ n + (xs.flatMap enc).length := by
  induction xs generalizing n with
  | nil => exact absurd h not_mem_nil
  | cons x xs ih =>
    rw [flatMap_cons, length_append]
    rcases mem_cons.mp h with rfl | h
    · exact ⟨le_rfl, by dsimp only; omega⟩
    · have := ih h
      omega

/-- An element is found at its offset. -/
theorem drop_layout {pre : Bytes} (h : e ∈ layout enc pre.length xs) (post : Bytes) :
    ∃ rest, (pre ++ xs.flatMap enc ++ post).drop e.2 = enc e.1 ++ rest := by
  induction xs generalizing pre with
  | nil => exact absurd h not_mem_nil
  | cons x xs ih =>
    rcases mem_cons.mp h with rfl | h
    · exact ⟨xs.flatMap enc ++ post, by rw [flatMap_cons, append_assoc, append_assoc, drop_left]⟩
    · rw [← length_append] at h
      obtain ⟨rest, hrest⟩ := ih h
      exact ⟨rest, by rw [flatMap_cons, ← append_assoc pre, hrest]⟩

section

variable {r : Parser β} {P : α → β → Prop} (hparse : ∀ x ∈ xs, Parses r (enc x) (P x))
  (hne : ∀ x ∈ xs, enc x ≠ [])
include hparse hne

theorem parseAllLoop_flatMap (fuel : ℕ) (hfuel : (xs.flatMap enc).length ≤ fuel) :
    ∃ ys, parseAllLoop r fuel (xs.flatMap enc) = some ys ∧ Forall₂ P xs ys := by
  induction xs generalizing fuel with
  | nil => exact ⟨[], by rw [flatMap_nil, parseAllLoop], .nil⟩
  | cons x xs ih =>
    obtain ⟨hx, hparse⟩ := forall_mem_cons.mp hparse
    obtain ⟨hnil, hne⟩ := forall_mem_cons.mp hne
    rw [flatMap_cons] at hfuel ⊢
    obtain ⟨b, bs, hb⟩ := exists_cons_of_ne_nil hnil
    rw [length_append, hb, length_cons] at hfuel
    obtain ⟨fuel, rfl⟩ := Nat.exists_eq_add_of_lt (show 0 < fuel by omega)
    obtain ⟨y, hy, hP⟩ := hx (xs.flatMap enc)
    obtain ⟨ys, hys, hall⟩ := ih hparse hne (0 + fuel) (by omega)
    refine ⟨y :: ys, ?_, .cons hP hall⟩
    rw [hb, cons_append] at hy ⊢
    rw [parseAllLoop.eq_3 _ _ _ (cons_ne_nil _ _), hy]
    dsimp only
    rw [hys, Option.map_some]

/-- Elements are found again in their order. -/
theorem parseAll_flatMap : ∃ ys, parseAll r (xs.flatMap enc) = some ys ∧ Forall₂ P xs ys :=
  parseAllLoop_flatMap hparse hne _ le_rfl

end

variable {R : α → β → Prop} {xs : List α} {ys : List β} {γ : Type}

theorem exists_of_forall₂ (h : Forall₂ R xs ys) {y : β} (hy : y ∈ ys) : ∃ x ∈ xs, R x y := by
  induction h with
  | nil => exact absurd hy not_mem_nil
  | cons hxy _ ih =>
    rcases mem_cons.mp hy with rfl | hy
    · exact ⟨_, mem_cons_self, hxy⟩
    · obtain ⟨x, hx, hR⟩ := ih hy
      exact ⟨x, mem_cons_of_mem _ hx, hR⟩

theorem forall₂_trans {S : β → γ → Prop} {T : α → γ → Prop}
    {zs : List γ} (hxy : Forall₂ R xs ys) (hyz : Forall₂ S ys zs) (h : ∀ x y z, R x y → S y z → T x z) :
    Forall₂ T xs zs := by
  induction hxy generalizing zs with
  | nil =>
    cases hyz
    exact .nil
  | cons hR _ ih =>
    cases hyz with
    | cons hS hyz => exact .cons (h _ _ _ hR hS) (ih hyz)

theorem map_eq_map_of_forall₂ {f : α → γ} {g : β → γ}
    (h : Forall₂ (fun x y => f x = g y) xs ys) : xs.map f = ys.map g := by
  induction h with
  | nil => rfl
  | cons hxy _ ih => rw [map_cons, map_cons, hxy, ih]

/-- Words of one width. -/
theorem drop_flatMap_of_length {w : ℕ} (h : ∀ x, (enc x).length = w) :
    ∀ (i : ℕ) (xs : List α), (xs.flatMap enc).drop (i * w) = (xs.drop i).flatMap enc
  | 0, xs => by rw [Nat.zero_mul, drop_zero, drop_zero]
  | i + 1, [] => by rw [flatMap_nil, drop_nil, drop_nil, flatMap_nil]
  | i + 1, x :: xs => by
    rw [flatMap_cons, Nat.succ_mul, Nat.add_comm, ← drop_drop, ← h x, drop_left, h x, drop_succ_cons,
      drop_flatMap_of_length h i xs]

end

/-! ### Hash indexes -/

/-- `rhh.HashKey`, of the sum of a key; it is never zero, which stands for an empty slot.  The
lowest of all numbers has no opposite, but counts as a multiple of every capacity. -/
def hashKey (sum64 : Bytes → Fin (2 ^ 64)) (key : Bytes) : ℕ :=
  if (sum64 key).val = 0 then 1 else if (sum64 key).val < 2 ^ 63 then (sum64 key).val else 2 ^ 64 - (sum64 key).val

/-- The capacity and the offsets of the slots. -/
def putHashIndex (m : HashMap Bytes ℕ) : Bytes :=
  putUint 8 m.capacity ++ (range m.capacity).flatMap fun i => putUint 8 (((m.slots i).map Prod.snd).getD 0)

theorem length_putHashIndex (m : HashMap Bytes ℕ) : (putHashIndex m).length = 8 + m.capacity * 8 := by
  rw [putHashIndex, length_append, length_putUint, length_flatMap]
  simp

/-- The offset of a slot. -/
def hashIndexOffset (hashData : Bytes) (pos : ℕ) : Option ℕ :=
  (parseUint 8 (hashData.drop (8 + pos * 8))).map Prod.fst

/-- The element of a slot, from the one at an offset. -/
def hashIndexElem {ε : Type} (hashData : Bytes) (elemAt : ℕ → Option (Bytes × ε)) (pos : ℕ) :
    Option (Option (Bytes × ε)) :=
  match hashIndexOffset hashData pos with
  | none => none
  | some offset => if offset = 0 then some none else (elemAt offset).map some

/-- The element at an offset, with its key. -/
def elemAt {ε : Type} (parse : Parser ε) (keyOf : ε → Bytes) (block : Bytes) (offset : ℕ) :
    Option (Bytes × ε) :=
  (parse (block.drop offset)).map fun r => (keyOf r.1, r.1)

/-- Find an element by the hash of its key. -/
def elemByHash {ε : Type} (hash : Bytes → ℕ) (hashData : Bytes) (elemAt : ℕ → Option (Bytes × ε))
    (key : Bytes) :
    Option (Option ε) :=
  match parseUint 8 hashData with
  | none => none
  | some (capacity, _) =>
    -- A division by zero.
    if capacity = 0 then none
    else search hash capacity (hashIndexElem hashData elemAt) key

variable {m : HashMap Bytes ℕ}

theorem hashIndexOffset_putHashIndex {pos : ℕ} (hpos : pos < m.capacity)
    (hoff : ((m.slots pos).map Prod.snd).getD 0 < 2 ^ 64) :
    hashIndexOffset (putHashIndex m) pos = some (((m.slots pos).map Prod.snd).getD 0) := by
  have hdrop : (putHashIndex m).drop (8 + pos * 8) = putUint 8 (((m.slots pos).map Prod.snd).getD 0) ++
      ((range m.capacity).drop (pos + 1)).flatMap fun i => putUint 8 (((m.slots i).map Prod.snd).getD 0) := by
    have hword : ∀ i, (putUint 8 (((m.slots i).map Prod.snd).getD 0)).length = 8 := fun i => length_putUint 8 _
    rw [putHashIndex, ← drop_drop, drop_left' (length_putUint 8 _), drop_flatMap_of_length hword,
      drop_eq_getElem_cons (by rwa [length_range]), flatMap_cons, getElem_range]
  obtain ⟨x, hx, rfl⟩ := parses_uint (w := 8) hoff _
  rw [hashIndexOffset, hdrop, hx, Option.map_some]

theorem parseUint_putHashIndex (hcap : m.capacity < 2 ^ 64) :
    ∃ rest, parseUint 8 (putHashIndex m) = some (m.capacity, rest) := by
  obtain ⟨x, hx, rfl⟩ := parses_uint (w := 8) hcap _
  exact ⟨_, hx⟩

section

variable {ε : Type} {hash : Bytes → ℕ} {m : HashMap Bytes ℕ} {es : List (Bytes × ℕ)}
  {elemAt : ℕ → Option (Bytes × ε)} {P : Bytes → ℕ → ε → Prop}

/-- The elements of a hash index are found, and no others. -/
theorem elemByHash_of_holds (h : HashMap.Holds hash m es) (hcap : m.capacity < 2 ^ 64)
    (hoff : ∀ e ∈ es, 0 < e.2 ∧ e.2 < 2 ^ 64)
    (helem : ∀ e ∈ es, ∃ x, elemAt e.2 = some (e.1, x) ∧ P e.1 e.2 x) :
    (∀ e ∈ es, ∃ x, elemByHash hash (putHashIndex m) elemAt e.1 = some (some x) ∧ P e.1 e.2 x) ∧
      ∀ key, key ∉ es.map Prod.fst → elemByHash hash (putHashIndex m) elemAt key = some none := by
  obtain ⟨rest, hparse⟩ := parseUint_putHashIndex hcap
  have hmem : ∀ p < m.capacity, ∀ e, m.slots p = some e → e ∈ es :=
    fun p hp e he => (h.has e.1 e.2).mp ⟨p, hp, he⟩
  have hread : ReadsSlots m.capacity m.slots (hashIndexElem (putHashIndex m) elemAt) P := by
    refine ⟨fun p hp key val hslot => ?_, fun p hp hslot => ?_⟩
    · obtain ⟨hpos, hlt⟩ := hoff _ (hmem p hp _ hslot)
      obtain ⟨x, hx, hP⟩ := helem _ (hmem p hp _ hslot)
      refine ⟨x, ?_, hP⟩
      rw [hashIndexElem, hashIndexOffset_putHashIndex hp (by rw [hslot]; exact hlt), hslot]
      dsimp only [Option.map_some, Option.getD_some] at hpos hx ⊢
      rw [if_neg hpos.ne', hx, Option.map_some]
    · rw [hashIndexElem, hashIndexOffset_putHashIndex hp (by rw [hslot]; exact Nat.two_pow_pos 64), hslot]
      rfl
  have hsearch : ∀ key, elemByHash hash (putHashIndex m) elemAt key =
      search hash m.capacity (hashIndexElem (putHashIndex m) elemAt) key := by
    intro key
    rw [elemByHash, hparse]
    dsimp only
    rw [if_neg h.pow.pos.ne']
  refine ⟨fun e he => ?_, fun key hkey => ?_⟩
  · rw [hsearch]
    exact h.probed.search_of_has h.pow hread ((h.has e.1 e.2).mpr he)
  · rw [hsearch]
    exact search_of_not_has h.pow hread fun val hhas => hkey (mem_map_of_mem ((h.has key val).mp hhas))

end

/-- Elements that are written one after the other are found by the hashes of their keys. -/
theorem elemByHash_layout {α ε : Type} {hash : Bytes → ℕ} {es : List (Bytes × ℕ)} {enc : α → Bytes}
    {name : α → Bytes} {xs : List α} (pre post : Bytes) {block : Bytes} {parse : Parser ε}
    {keyOf : ε → Bytes} {P : α → ε → Prop}
    (hholds : HashMap.Holds hash m es) (hes : es.Perm ((layout enc pre.length xs).map fun e => (name e.1, e.2)))
    (hblock : block = pre ++ xs.flatMap enc ++ post) (hpos : 0 < pre.length) (hlen : block.length < 2 ^ 64)
    (hcap : m.capacity < 2 ^ 64) (hparse : ∀ x ∈ xs, Parses parse (enc x) fun e => keyOf e = name x ∧ P x e) :
    (∀ x ∈ xs, ∃ e, elemByHash hash (putHashIndex m) (elemAt parse keyOf block) (name x) =
      some (some e) ∧ P x e) ∧
      ∀ key, key ∉ xs.map name → elemByHash hash (putHashIndex m) (elemAt parse keyOf block) key = some none := by
  have hmem : ∀ e, e ∈ es ↔ ∃ x off, (x, off) ∈ layout enc pre.length xs ∧ (name x, off) = e := by
    intro e
    rw [hes.mem_iff, mem_map]
    simp only [Prod.exists]
  have hkeys : (es.map Prod.fst).Perm (xs.map name) := by
    have hmap := hes.map Prod.fst
    rw [map_map] at hmap
    have hname : (layout enc pre.length xs).map (name ∘ Prod.fst) = xs.map name := by
      rw [← map_map, map_fst_layout]
    exact hname ▸ hmap
  have hnodup : (xs.map name).Nodup := hkeys.nodup_iff.mp hholds.nodup
  have hsub : ∀ x off, (x, off) ∈ layout enc pre.length xs → x ∈ xs := by
    intro x off h
    have hfst := mem_map_of_mem (f := Prod.fst) h
    rwa [map_fst_layout] at hfst
  have hoff : ∀ e ∈ es, 0 < e.2 ∧ e.2 < 2 ^ 64 := by
    intro e he
    obtain ⟨x, off, hl, rfl⟩ := (hmem e).mp he
    have hbounds := layout_bounds hl
    rw [hblock, length_append, length_append] at hlen
    omega
  have helem : ∀ e ∈ es, ∃ y, elemAt parse keyOf block e.2 = some (e.1, y) ∧
      ∀ x ∈ xs, name x = e.1 → P x y := by
    intro e he
    obtain ⟨x, off, hl, rfl⟩ := (hmem e).mp he
    have hx := hsub x off hl
    obtain ⟨rest, hrest⟩ := drop_layout hl post
    obtain ⟨y, hy, hkey, hP⟩ := hparse x hx rest
    refine ⟨y, ?_, fun x' hx' heq => ?_⟩
    · rw [elemAt, hblock, hrest, hy, Option.map_some, hkey]
    · rwa [inj_on_of_nodup_map hnodup hx' hx heq]
  obtain ⟨hfound, hnone⟩ :=
    elemByHash_of_holds (P := fun key _ e => ∀ x ∈ xs, name x = key → P x e) hholds hcap hoff helem
  refine ⟨fun x hx => ?_, fun key hkey => hnone key fun h => hkey (hkeys.mem_iff.mp h)⟩
  obtain ⟨e, he, heq⟩ := mem_map.mp (hkeys.mem_iff.mpr (mem_map_of_mem hx))
  obtain ⟨y, hy, hP⟩ := hfound e he
  exact ⟨y, heq ▸ hy, hP x hx heq.symm⟩

end InfluxDB.Lib
