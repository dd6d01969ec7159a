import InfluxDB.Models.PointFields
import InfluxDB.Tsm.CompositeKey

/-!
    Points and values.  A write turns the points of a collection into values by composite key, which go to the
    write-ahead log; the replay of the log turns the values into points again.

    A point whose value has another type than the first value of its composite key is dropped.  The points that
    are kept are moved to the front of the collection while it is read.
-/

namespace InfluxDB.Tsm

open Lib Models List Buffer Nat Except

/-- Why a point was dropped: its series key, and the type that its value has and should have. -/
structure Conflict where
  key : Bytes
  found : Value.Kind
  expected : Value.Kind
  deriving DecidableEq

/-- `SeriesCollection`, with the columns that are read here. -/
structure SeriesCollection where
  points : List Point
  keys : List Bytes
  dropped : ℕ
  droppedKeys : List Bytes
  reason : Option Conflict
  deriving DecidableEq

namespace SeriesCollection

/-- `NewSeriesCollection`. -/
def new (points : List Point) : SeriesCollection :=
  { points, keys := points.map Point.key, dropped := 0, droppedKeys := [], reason := none }

/-- `x[dst] = x[src]`, where both are in range. -/
def copyAt {α : Type} (l : List α) (dst src : ℕ) : List α :=
  match l[src]? with
  | some a => l.set dst a
  | none => l

/-- `Copy`. -/
def copy (c : SeriesCollection) (dst src : ℕ) : SeriesCollection :=
  if dst = src then c else { c with points := copyAt c.points dst src, keys := copyAt c.keys dst src }

/-- `Truncate`. -/
def truncate (c : SeriesCollection) (length : ℕ) : SeriesCollection :=
  { c with points := c.points.take length, keys := c.keys.take length }

end SeriesCollection

open SeriesCollection

/-! ### The conversions -/

/-- Where `CollectionToValues` stands: the values, the collection, and the number of points that are kept. -/
structure Conversion where
  values : FinMap Bytes (Values Value)
  collection : SeriesCollection
  kept : ℕ

/-- One field of the point at an index: append its value, or drop the point. -/
def Conversion.add (s : Conversion) (key : Bytes) (index : ℕ) (t : ℤ) (field : Bytes) (v : Value) : Conversion :=
  let composite := seriesFieldKeyBytes key field
  let vs := (s.values.lookup composite).getD []
  match vs.head? with
  | some first =>
    if valueType first.2 ≠ valueType v then
      { s with collection := { s.collection with
          reason := s.collection.reason.or (some ⟨key, v.kind, first.2.kind⟩)
          dropped := s.collection.dropped + 1
          droppedKeys := s.collection.droppedKeys ++ [key] } }
    else ⟨s.values.insert composite (vs ++ [(t, v)]), s.collection.copy s.kept index, s.kept + 1⟩
  | none => ⟨s.values.insert composite (vs ++ [(t, v)]), s.collection.copy s.kept index, s.kept + 1⟩

/-- The fields of a point from a position in their text on. -/
def Conversion.addFields (parseFloat : ParseFloat) (key : Bytes) (index : ℕ) (p : Point) :
    ℕ → ℕ → Conversion → Checked (Except FieldError Conversion)
  | 0, _, _ => .error .outOfFuel
  | fuel + 1, start, s => do
    match ← nextField p.fields start with
    | none => return .ok s
    | some (f, next) =>
      match ← f.value parseFloat with
      | .error err => return .error err
      | .ok v => addFields parseFloat key index p fuel next (s.add key index p.time f.key v)

/-- The points from an index on; `n` are left. -/
def Conversion.addPoints (parseFloat : ParseFloat) :
    ℕ → ℕ → Conversion → Checked (Except FieldError Conversion)
  | 0, _, s => return .ok s
  | n + 1, index, s => do
    let key ← Buffer.get s.collection.keys index
    let p ← Buffer.get s.collection.points index
    match ← s.addFields parseFloat key index p (p.fields.length + 1) 0 with
    | .error err => return .error err
    | .ok s => addPoints parseFloat n (index + 1) s

/-- `CollectionToValues`: the values, and the collection with the points that are kept. -/
def collectionToValues (parseFloat : ParseFloat) (c : SeriesCollection) :
    Checked (Except FieldError (FinMap Bytes (Values Value) × SeriesCollection)) := do
  match ← Conversion.addPoints parseFloat c.points.length 0 ⟨∅, c, 0⟩ with
  | .error err => return .error err
  | .ok s => return .ok (s.values, s.collection.truncate s.kept)

/-- `ValuesToPoints`, for the entries of a map in the order in which they are visited. -/
def valuesToPoints (floats : FloatText) (values : List (Sigma fun _ : Bytes => Values Value)) : List Point :=
  values.flatMap fun kv =>
    let (series, field) := seriesAndFieldFromCompositeKey kv.1
    kv.2.map fun tv => newPointFromSeries floats series (field.getD []) tv.2 tv.1

/-! ### Points with one field -/

/-- What a point with one field says. -/
structure Reading where
  key : Bytes
  field : Bytes
  value : Value
  time : ℤ
  deriving DecidableEq

/-- Read a point that has one field. -/
def reading (parseFloat : ParseFloat) (p : Point) : Option Reading :=
  match nextField p.fields 0 with
  | .ok (some (f, next)) =>
    match f.value parseFloat with
    | .ok (.ok v) => if p.fields.length ≤ next then some ⟨p.key, f.key, v, p.time⟩ else none
    | _ => none
  | _ => none

namespace Reading

def composite (r : Reading) : Bytes := seriesFieldKeyBytes r.key r.field

/-- The first point with the composite key has a value of another type. -/
def Conflicts (before : List Reading) (r : Reading) : Prop :=
  ∃ first ∈ before.find? fun r' => decide (r'.composite = r.composite), valueType first.value ≠ valueType r.value

instance decidableConflicts (before : List Reading) (r : Reading) : Decidable (Conflicts before r) :=
  inferInstanceAs (Decidable (∃ first ∈ _, _))

/-- The points that are kept, behind others that are. -/
def kept : List Reading → List Reading → List Reading
  | _, [] => []
  | before, r :: rs => if Conflicts before r then kept before rs else r :: kept (before ++ [r]) rs

/-- The value of a point, by composite key. -/
def entry (r : Reading) : Bytes × ℤ × Value := (r.composite, r.time, r.value)

end Reading

/-- A point with one field, whether or not its value can be read. -/
def HasOneField (p : Point) : Prop :=
  ∃ f next, nextField p.fields 0 = .ok (some (f, next)) ∧ p.fields.length ≤ next

section

variable {parseFloat : ParseFloat} {p : Point} {r : Reading}

theorem reading_eq_some_iff :
    reading parseFloat p = some r ↔
      ∃ f next, nextField p.fields 0 = .ok (some (f, next)) ∧ p.fields.length ≤ next ∧
        f.value parseFloat = .ok (.ok r.value) ∧
        r.key = p.key ∧ r.field = f.key ∧ r.time = p.time := by
  obtain ⟨key, field, value, time⟩ := r
  rw [reading]
  constructor
  · intro h
    split at h
    · rename_i f next hnext
      split at h
      · rename_i v hv
        split_ifs at h with hlen
        obtain ⟨rfl, rfl, rfl, rfl⟩ := Reading.mk.inj (Option.some.inj h)
        exact ⟨f, next, hnext, hlen, hv, rfl, rfl, rfl⟩
      · cases h
    · cases h
  · rintro ⟨f, next, hnext, hlen, hv, hkey, hfield, htime⟩
    simp only at hv hkey hfield htime
    rw [hnext]
    dsimp only
    rw [hv]
    dsimp only
    rw [if_pos hlen, hkey, hfield, htime]

theorem nextField_behind {fields : Bytes} {start : ℕ} (h : fields.length ≤ start) :
    nextField fields start = .ok none := by
  rw [nextField, if_pos h]
  rfl

theorem length_pos_of_nextField {fields : Bytes} {f : Field} {next : ℕ}
    (h : nextField fields 0 = .ok (some (f, next))) :
    0 < fields.length := by
  by_contra hle
  rw [nextField_behind (by omega)] at h
  cases h

/-- A point with one field adds one value. -/
theorem Conversion.addFields_eq {s : Conversion} {key : Bytes} {index : ℕ} (h : reading parseFloat p = some r) :
    s.addFields parseFloat key index p (p.fields.length + 1) 0 =
      .ok (.ok (s.add key index r.time r.field r.value)) := by
  obtain ⟨f, next, hnext, hlen, hv, -, hfield, htime⟩ := reading_eq_some_iff.mp h
  have hpos := length_pos_of_nextField hnext
  obtain ⟨n, hn⟩ : ∃ n, p.fields.length = n + 1 := ⟨p.fields.length - 1, by omega⟩
  rw [addFields, hnext, ok_bind]
  dsimp only
  rw [hv, ok_bind]
  dsimp only
  rw [hn, addFields, nextField_behind hlen, ok_bind, hfield, htime]
  rfl

theorem Conversion.reading_of_addFields {s s' : Conversion} {key : Bytes} {index : ℕ} (hone : HasOneField p)
    (h : s.addFields parseFloat key index p (p.fields.length + 1) 0 = .ok (.ok s')) :
    ∃ r, reading parseFloat p = some r := by
  obtain ⟨f, next, hnext, hlen⟩ := hone
  rw [addFields, hnext, ok_bind] at h
  dsimp only at h
  cases hv : f.value parseFloat with
  | error e =>
    rw [hv] at h
    cases h
  | ok res =>
    cases res with
    | error e =>
      rw [hv] at h
      cases h
    | ok v => exact ⟨⟨p.key, f.key, v, p.time⟩,
        reading_eq_some_iff.mpr ⟨f, next, hnext, hlen, hv, rfl, rfl, rfl⟩⟩

end

/-! ### The run of the conversion -/

section

variable {α β : Type}

theorem map_copyAt (f : α → β) (l : List α) (dst src : ℕ) :
    (copyAt l dst src).map f = copyAt (l.map f) dst src := by
  rw [copyAt, copyAt, getElem?_map]
  cases l[src]? with
  | none => rfl
  | some a => exact map_set

/-- An element is moved to the end of those that are kept. -/
theorem copyAt_eq {l front rest : List α} {a : α} {dst src : ℕ} (hfront : l.take dst = front)
    (hrest : l.drop src = a :: rest) (hle : dst ≤ src) :
    (copyAt l dst src).take (dst + 1) = front ++ [a] ∧ (copyAt l dst src).drop (src + 1) = rest := by
  have hget : l[src]? = some a := by rw [← head?_drop, hrest, head?_cons]
  have hlt := lt_length_of_drop hrest
  have hcopy : copyAt l dst src = l.set dst a := by rw [copyAt, hget]
  rw [hcopy]
  refine ⟨?_, ?_⟩
  · rw [take_add_one, getElem?_set_self (by omega), take_set_of_le (le_refl _), hfront]
    rfl
  · rw [drop_set_of_lt (by omega), drop_succ hrest]

end

theorem SeriesCollection.copy_eq (c : SeriesCollection) (dst src : ℕ) :
    c.copy dst src = { c with points := copyAt c.points dst src, keys := copyAt c.keys dst src } := by
  -- The copy of an element to its own place.
  have hself : ∀ {α : Type} (l : List α), copyAt l src src = l := by
    intro α l
    rw [copyAt]
    cases hl : l[src]? with
    | none => rfl
    | some a =>
      obtain ⟨hlt, rfl⟩ := List.getElem?_eq_some_iff.mp hl
      exact set_getElem_self hlt
  rw [copy]
  split_ifs with hsame
  · rw [hsame, hself, hself]
  · rfl

/-- The values of a map one by one. -/
def flatten (values : List (Sigma fun _ : Bytes => Values Value)) : List (Bytes × ℤ × Value) :=
  values.flatMap fun kv => kv.2.map fun tv => (kv.1, tv)

/-- What the conversion has reached: `done` points are read, `rest` are left, and the points that were kept say `ks`. -/
structure Converted (parseFloat : ParseFloat) (done : ℕ) (rest : List Point) (ks : List Reading)
    (s : Conversion) : Prop where
  keys : s.collection.keys = s.collection.points.map Point.key
  rest : s.collection.points.drop done = rest
  kept : (s.collection.points.take s.kept).map (reading parseFloat) = ks.map some
  kept_le : s.kept ≤ done
  kept_eq : s.kept = ks.length
  values : ∀ K, (s.values.lookup K).getD [] =
    (ks.filter fun r => decide (r.composite = K)).map fun r => (r.time, r.value)
  flat : (flatten s.values.entries).Perm (ks.map Reading.entry)

theorem perm_flatten_insert (m : FinMap Bytes (Values Value)) (K : Bytes) (tv : ℤ × Value) :
    (flatten (m.insert K ((m.lookup K).getD [] ++ [tv])).entries).Perm (flatten m.entries ++ [(K, tv)]) := by
  have hold : (flatten m.entries).Perm
      ((((m.lookup K).getD []).map fun tv => (K, tv)) ++ flatten (m.entries.kerase K)) := by
    have hm : (flatten m.entries).Perm _ := (FinMap.perm_kerase m K).flatMap_right _
    rw [flatMap_append] at hm
    cases hK : m.lookup K with
    | none =>
      rw [hK] at hm
      exact hm
    | some vs =>
      rw [hK, Option.toList_some, map_singleton, flatMap_singleton] at hm
      exact hm
  have hnew : flatten (m.insert K ((m.lookup K).getD [] ++ [tv])).entries =
      (((m.lookup K).getD []).map fun tv => (K, tv)) ++ ([(K, tv)] ++ flatten (m.entries.kerase K)) := by
    rw [AList.entries_insert, flatten, flatMap_cons, map_append, map_singleton, append_assoc]
    rfl
  rw [hnew]
  refine .trans ?_ (hold.append_right _).symm
  rw [append_assoc]
  exact perm_append_comm.append_left _

variable {parseFloat : ParseFloat} {done : ℕ} {p : Point} {rest : List Point} {ks : List Reading}
  {s : Conversion} {r : Reading}

section

variable (h : Converted parseFloat done (p :: rest) ks s) (hr : reading parseFloat p = some r)
include h hr

/-- The value of a point that is kept is appended, and the point is moved. -/
theorem Converted.keep :
    Converted parseFloat (done + 1) rest (ks ++ [r])
      ⟨s.values.insert r.composite ((s.values.lookup r.composite).getD [] ++ [(r.time, r.value)]),
        s.collection.copy s.kept done, s.kept + 1⟩ := by
  obtain ⟨hfront, hrest⟩ := copyAt_eq (l := s.collection.points) rfl h.rest h.kept_le
  refine ⟨?_, ?_, ?_, succ_le_succ h.kept_le, ?_, ?_, ?_⟩
  · rw [copy_eq, map_copyAt, h.keys]
  · rw [copy_eq]
    exact hrest
  · rw [copy_eq, hfront, map_append, h.kept, map_append, map_singleton, hr]
    rfl
  · rw [h.kept_eq, length_append, length_singleton]
  · intro K
    rw [FinMap.lookup_insert_eq, filter_append, map_append, ← h.values K]
    by_cases hK : K = r.composite
    · rw [if_pos hK, hK]
      simp
    · rw [if_neg hK]
      simp [Ne.symm hK]
  · rw [map_append]
    exact (perm_flatten_insert _ _ _).trans (h.flat.append_right _)

omit hr in
/-- One point: it is dropped, or its value is appended and it is moved. -/
theorem Converted.add_cases :
    (Reading.Conflicts ks r ∧ ∃ reason, s.add r.key done r.time r.field r.value =
      { s with collection := { s.collection with
          reason, dropped := s.collection.dropped + 1, droppedKeys := s.collection.droppedKeys ++ [r.key] } }) ∨
    ¬Reading.Conflicts ks r ∧ s.add r.key done r.time r.field r.value =
      ⟨s.values.insert r.composite ((s.values.lookup r.composite).getD [] ++ [(r.time, r.value)]),
        s.collection.copy s.kept done, s.kept + 1⟩ := by
  have hfirst : ((s.values.lookup r.composite).getD []).head? =
      (ks.find? fun r' => decide (r'.composite = r.composite)).map fun r' => (r'.time, r'.value) := by
    rw [h.values, head?_map, head?_filter]
  rw [Conversion.add]
  rw [← Reading.composite, hfirst]
  cases hfind : ks.find? fun r' => decide (r'.composite = r.composite) with
  | none => exact .inr ⟨by simp [Reading.Conflicts, hfind], rfl⟩
  | some first =>
    simp only [Option.map_some]
    by_cases htype : valueType first.value ≠ valueType r.value
    · rw [if_pos htype]
      exact .inl ⟨⟨first, hfind, htype⟩, _, rfl⟩
    · rw [if_neg htype]
      refine .inr ⟨?_, rfl⟩
      rintro ⟨first', hfirst', htype'⟩
      rw [hfind, Option.mem_some_iff] at hfirst'
      exact htype (hfirst' ▸ htype')

theorem Converted.add :
    Converted parseFloat (done + 1) rest (if Reading.Conflicts ks r then ks else ks ++ [r])
      (s.add r.key done r.time r.field r.value) := by
  obtain ⟨hconflict, reason, hadd⟩ | ⟨hconflict, hadd⟩ := h.add_cases
  · rw [if_pos hconflict, hadd]
    exact ⟨h.keys, drop_succ h.rest, h.kept, le_succ_of_le h.kept_le, h.kept_eq, h.values, h.flat⟩
  · rw [if_neg hconflict, hadd]
    exact h.keep hr

omit hr in
theorem Converted.get_key : get s.collection.keys done = .ok p.key := by
  refine get_drop (l := rest.map Point.key) ?_
  rw [h.keys, ← map_drop, h.rest, map_cons]

theorem Converted.addPoints_succ (n : ℕ) :
    Conversion.addPoints parseFloat (n + 1) done s =
      Conversion.addPoints parseFloat n (done + 1) (s.add r.key done r.time r.field r.value) := by
  have hkey : r.key = p.key := by
    obtain ⟨f, next, -, -, -, hkey, -⟩ := reading_eq_some_iff.mp hr
    exact hkey
  rw [Conversion.addPoints, h.get_key, ok_bind, get_drop h.rest, ok_bind, Conversion.addFields_eq hr, ok_bind, hkey]

end

/-- The run over the points that are left. -/
theorem Converted.addPoints (h : Converted parseFloat done rest ks s)
    (hone : ∀ p ∈ rest, HasOneField p) {s' : Conversion}
    (hs : Conversion.addPoints parseFloat rest.length done s = .ok (.ok s')) :
    Converted parseFloat (done + rest.length) [] (ks ++ Reading.kept ks (rest.filterMap (reading parseFloat))) s' := by
  induction rest generalizing done ks s with
  | nil =>
    obtain rfl : s = s' := ok.inj (ok.inj hs)
    simpa [Reading.kept] using h
  | cons p rest ih =>
    obtain ⟨hp, hone⟩ := forall_mem_cons.mp hone
    obtain ⟨r, hr⟩ : ∃ r, reading parseFloat p = some r := by
      rw [length_cons, Conversion.addPoints, h.get_key, ok_bind, get_drop h.rest, ok_bind] at hs
      obtain ⟨res, hres, hs⟩ := bind_eq_ok.mp hs
      cases res with
      | error e => cases hs
      | ok s₁ => exact Conversion.reading_of_addFields hp hres
    rw [length_cons, h.addPoints_succ hr] at hs
    have hend := ih (h.add hr) hone hs
    rw [filterMap_cons_some hr, length_cons, Reading.kept, add_comm rest.length, ← add_assoc]
    split_ifs at hend ⊢
    · exact hend
    · rw [append_assoc, singleton_append] at hend
      exact hend

/-! ### One type for each composite key -/

/-- The first point with the composite key of a point has a value of the same type. -/
def Reading.Agrees (rs : List Reading) (r : Reading) : Prop :=
  ∀ first ∈ rs.find? (·.composite = r.composite), first.value.kind = r.value.kind

instance decidableAgrees (rs : List Reading) (r : Reading) : Decidable (r.Agrees rs) :=
  inferInstanceAs (Decidable (∀ first ∈ _, _))

/-- The first point of a composite key is never dropped: the points that are kept show the same first type. -/
theorem find?_filter_agrees (seen left : List Reading) (K : Bytes) :
    (seen.filter (·.Agrees (seen ++ left))).find? (·.composite = K) = seen.find? (·.composite = K) := by
  rw [find?_filter]
  cases hfind : seen.find? (·.composite = K) with
  | none =>
    rw [find?_eq_none] at hfind ⊢
    intro r hr hboth
    exact hfind r hr (by simp_all)
  | some first =>
    obtain ⟨hK, before, behind, hseen, hbefore⟩ := find?_eq_some_iff_append.mp hfind
    have hagrees : first.Agrees (seen ++ left) := by
      intro first' hfirst'
      rw [decide_eq_true_eq] at hK
      rw [hK, find?_append, hfind, Option.some_or, Option.mem_some_iff] at hfirst'
      rw [hfirst']
    refine find?_eq_some_iff_append.mpr ⟨by simp_all, before, behind, hseen, fun r hr => ?_⟩
    have := hbefore r hr
    simp_all

theorem conflicts_iff (seen left : List Reading) (r : Reading) :
    Reading.Conflicts (seen.filter (·.Agrees (seen ++ r :: left))) r ↔ ¬ r.Agrees (seen ++ r :: left) := by
  rw [Reading.Conflicts, Reading.Agrees, find?_filter_agrees, find?_append]
  cases seen.find? (·.composite = r.composite) with
  | none => simp
  | some first => simp [valueType_eq_iff]

/-- Whether a point agrees. -/
def agreeing (parseFloat : ParseFloat) (rs : List Reading) (p : Point) : Bool :=
  (reading parseFloat p).any (·.Agrees rs)

/-- The run over the points that are left, when each of them can be read. -/
theorem Converted.run {rs seen left : List Reading} (h : Converted parseFloat done rest (seen.filter (·.Agrees rs)) s)
    (hleft : rest.map (reading parseFloat) = left.map some) (hrs : rs = seen ++ left) :
    ∃ s', Conversion.addPoints parseFloat rest.length done s = .ok (.ok s') ∧
      Converted parseFloat (done + rest.length) [] (rs.filter (·.Agrees rs)) s' ∧
      s'.collection.points.take s'.kept = s.collection.points.take s.kept ++ rest.filter (agreeing parseFloat rs) ∧
      s'.collection.dropped = s.collection.dropped + (left.filter (¬ ·.Agrees rs)).length ∧
      s'.collection.droppedKeys = s.collection.droppedKeys ++ (left.filter (¬ ·.Agrees rs)).map Reading.key := by
  induction rest generalizing done seen left s with
  | nil =>
    obtain rfl : left = [] := by simpa using hleft.symm
    obtain rfl : rs = seen := by simpa using hrs
    exact ⟨s, rfl, h, by simp⟩
  | cons p rest ih =>
    obtain ⟨r, left, rfl⟩ := exists_cons_of_ne_nil fun hnil : left = [] => by simp [hnil] at hleft
    rw [map_cons, map_cons, List.cons.injEq] at hleft
    obtain ⟨hr, hleft⟩ := hleft
    have hiff := conflicts_iff seen left r
    rw [← hrs] at hiff
    have hadd : Converted parseFloat (done + 1) rest ((seen ++ [r]).filter (·.Agrees rs))
        (s.add r.key done r.time r.field r.value) := by
      by_cases hagrees : r.Agrees rs <;> simpa [hiff, hagrees] using h.add hr
    obtain ⟨s', hrun, hend, hpoints, hdropped, hkeys⟩ := ih hadd hleft (by simpa using hrs)
    rw [length_cons, h.addPoints_succ hr]
    refine ⟨s', hrun, by simpa [add_assoc, add_comm 1] using hend, ?_⟩
    rw [hpoints, hdropped, hkeys]
    obtain ⟨hconflict, reason, hs⟩ | ⟨hconflict, hs⟩ := h.add_cases (r := r)
    · simp [hs, agreeing, hr, hiff.mp hconflict, add_assoc, add_comm 1]
    · have hmoved := (copyAt_eq (l := s.collection.points) rfl h.rest h.kept_le).1
      simp [hs, agreeing, hr, not_not.mp (mt hiff.mpr hconflict), copy_eq, hmoved]

/-- All values of a composite key have the type of its first point and stand in the order of the points.  The
collection keeps the points with these values, and counts all others. -/
theorem collectionToValues_agrees (parseFloat : ParseFloat) {c : SeriesCollection} {rs : List Reading}
    (hkeys : c.keys = c.points.map Point.key) (hrs : c.points.map (reading parseFloat) = rs.map some) :
    ∃ values c', collectionToValues parseFloat c = .ok (.ok (values, c')) ∧
      (∀ K, (values.lookup K).getD [] =
        (rs.filter fun r => r.composite = K ∧ r.Agrees rs).map fun r => (r.time, r.value)) ∧
      c'.points = c.points.filter (agreeing parseFloat rs) ∧ c'.keys = c'.points.map Point.key ∧
      c'.dropped = c.dropped + (rs.filter (¬ ·.Agrees rs)).length ∧
      c'.droppedKeys = c.droppedKeys ++ (rs.filter (¬ ·.Agrees rs)).map Reading.key := by
  have hstart : Converted parseFloat 0 c.points (([] : List Reading).filter (·.Agrees rs)) ⟨∅, c, 0⟩ :=
    ⟨hkeys, rfl, rfl, le_refl _, rfl, fun K => by simp, by simp [flatten]⟩
  obtain ⟨s', hrun, hend, hpoints, hdropped, hdroppedKeys⟩ := hstart.run hrs rfl
  refine ⟨s'.values, s'.collection.truncate s'.kept, by rw [collectionToValues, hrun]; rfl,
    fun K => ?_, hpoints, ?_, hdropped, hdroppedKeys⟩
  · rw [hend.values, filter_filter]
    simp
  · rw [SeriesCollection.truncate, hend.keys, map_take]

/-- Two types in one field. -/
def mixedPoints : List Point := [⟨7, ascii "cpu", ascii "load=true"⟩, ⟨8, ascii "cpu", ascii "load=1i"⟩]

theorem collectionToValues_mixedPoints :
    ∃ values c', collectionToValues (fun _ => none) (.new mixedPoints) = .ok (.ok (values, c')) ∧
      c'.points = mixedPoints.take 1 ∧ c'.dropped = 1 ∧ c'.droppedKeys = [ascii "cpu"] := by
  have hrs : (SeriesCollection.new mixedPoints).points.map (reading fun _ => none) =
      [⟨ascii "cpu", ascii "load", .boolean true, 7⟩,
        ⟨ascii "cpu", ascii "load", .integer 1, 8⟩].map some := by decide
  obtain ⟨values, c', h, -, hpoints, -, hdropped, hkeys⟩ := collectionToValues_agrees (fun _ => none) rfl hrs
  exact ⟨values, c', h, hpoints.trans (by decide), hdropped.trans (by decide), hkeys.trans (by decide)⟩

/-! ### Points from values -/

/-- The point for one value. -/
def rebuild (floats : FloatText) (e : Bytes × ℤ × Value) : Point :=
  newPointFromSeries floats (seriesAndFieldFromCompositeKey e.1).1
    ((seriesAndFieldFromCompositeKey e.1).2.getD []) e.2.2 e.2.1

theorem valuesToPoints_eq (floats : FloatText) (values : List (Sigma fun _ : Bytes => Values Value)) :
    valuesToPoints floats values = (flatten values).map (rebuild floats) := by
  rw [valuesToPoints, flatten, map_flatMap]
  refine flatMap_congr fun kv _ => ?_
  rw [map_map]
  rfl

variable {floats : FloatText}

theorem reading_newPointFromSeries {key field : Bytes} {v : Value} {t : ℤ}
    (hfield : field.getLast? ≠ some backslash)
    (hv : FitsField v) :
    reading floats.parse (newPointFromSeries floats key field v t) = some ⟨key, field, v, t⟩ := by
  obtain ⟨f, hnext, rfl, hvalue⟩ :=
    nextField_appendField rfl rfl (append_nil (drop 0 (appendField floats [] field v))).symm hfield hv
  exact reading_eq_some_iff.mpr ⟨f, _, hnext, by rw [zero_add]; exact le_succ _, hvalue, rfl, rfl, rfl⟩

/-- The length of the series key of a point that can be read. -/
def readKeyLength (r : Option Reading) : ℕ := (r.map fun r => r.key.length).getD 0

theorem readKeyLength_rebuild_le (e : Bytes × ℤ × Value) :
    readKeyLength (reading floats.parse (rebuild floats e)) ≤ (seriesAndFieldFromCompositeKey e.1).1.length := by
  cases h : reading floats.parse (rebuild floats e) with
  | none => exact zero_le _
  | some r' =>
    obtain ⟨-, -, -, -, -, hkey, -⟩ := reading_eq_some_iff.mp h
    rw [readKeyLength, Option.map_some, Option.getD_some, hkey]
    rfl

/-- The points that the replay builds are the points that were kept exactly if each of their series keys is split
off its composite key again. -/
theorem perm_rebuild_iff (hks : ∀ r ∈ ks, r.field.getLast? ≠ some backslash ∧ FitsField r.value) :
    (ks.map fun r => reading floats.parse (rebuild floats r.entry)).Perm (ks.map some) ↔
      ∀ r ∈ ks, Splits r.key := by
  have hsplit : ∀ r ∈ ks, Splits r.key → reading floats.parse (rebuild floats r.entry) = some r := by
    intro r hr h
    rw [rebuild, Reading.entry, Reading.composite, seriesAndField_of_splits h]
    exact reading_newPointFromSeries (hks r hr).1 (hks r hr).2
  constructor
  · intro hperm r hr
    by_contra hns
    have hle : ∀ r ∈ ks, readKeyLength (reading floats.parse (rebuild floats r.entry)) ≤
        readKeyLength (some r) := by
      intro r hr
      by_cases h : Splits r.key
      · rw [hsplit r hr h]
      · exact (readKeyLength_rebuild_le _).trans (le_of_lt (length_series_lt h))
    have hlt : readKeyLength (reading floats.parse (rebuild floats r.entry)) < readKeyLength (some r) :=
      (readKeyLength_rebuild_le _).trans_lt (length_series_lt hns)
    have hsum := sum_lt_sum _ _ hle ⟨r, hr, hlt⟩
    have heq := (hperm.map readKeyLength).sum_eq
    rw [map_map, map_map] at heq
    exact absurd heq (Nat.ne_of_lt hsum)
  · intro h
    rw [map_congr_left fun r hr => hsplit r hr (h r hr)]

theorem mem_kept {before rs : List Reading} (h : r ∈ Reading.kept before rs) : r ∈ rs := by
  induction rs generalizing before with
  | nil => cases h
  | cons r' rs ih =>
    rw [Reading.kept] at h
    split_ifs at h
    · exact mem_cons_of_mem _ (ih h)
    · rcases mem_cons.mp h with rfl | h
      · exact mem_cons_self
      · exact mem_cons_of_mem _ (ih h)

/-- What the conversion of a collection returns: the values of the points that are kept, and these points. -/
theorem collectionToValues_spec {points : List Point} {values : FinMap Bytes (Values Value)} {c : SeriesCollection}
    (hone : ∀ p ∈ points, HasOneField p) (h : collectionToValues parseFloat (.new points) = .ok (.ok (values, c))) :
    (flatten values.entries).Perm ((Reading.kept [] (points.filterMap (reading parseFloat))).map Reading.entry) ∧
      c.points.map (reading parseFloat) = (Reading.kept [] (points.filterMap (reading parseFloat))).map some := by
  obtain ⟨res, hres, h⟩ := bind_eq_ok.mp h
  cases res with
  | error e => cases h
  | ok s =>
    obtain ⟨rfl, rfl⟩ := Prod.mk.inj (ok.inj (ok.inj h))
    have hstart : Converted parseFloat 0 points [] ⟨∅, .new points, 0⟩ :=
      ⟨rfl, rfl, rfl, le_refl _, rfl, fun K => by simp, by simp [flatten]⟩
    have hend := hstart.addPoints hone hres
    exact ⟨hend.flat, hend.kept⟩

/-! ### A point of the write path -/

/-- A point of the write path: the tags of its key are its measurement and its field. -/
def writtenPoint (field : Bytes) : Point where
  time := 7
  key := makeKey (ascii "0123456789abcdef") [⟨[measurementTagKey], ascii "cpu"⟩, ⟨[fieldKeyTagKey], field⟩]
  fields := Escape.string field ++ ascii "=true"

/-- The values of such a point. -/
def writtenValues (field : Bytes) : FinMap Bytes (Values Value) :=
  AList.singleton (seriesFieldKeyBytes (writtenPoint field).key field) [(7, .boolean true)]

/-- The replay of the log builds the points that were kept, up to their order, exactly if the separator neither lies
in their series keys nor starts in them. -/
theorem valuesToPoints_collectionToValues_iff (floats : FloatText) {points : List Point}
    {values : FinMap Bytes (Values Value)}
    {c : SeriesCollection} {order : List (Sigma fun _ : Bytes => Values Value)}
    (hone : ∀ p ∈ points, HasOneField p)
    (hfinite : ∀ p ∈ points, ∀ r ∈ reading floats.parse p, ∀ bits, r.value = .float bits →
      isFinite bits = true)
    (h : collectionToValues floats.parse (.new points) = .ok (.ok (values, c))) (horder : order.Perm values.entries) :
    ((valuesToPoints floats order).map (reading floats.parse)).Perm (c.points.map (reading floats.parse)) ↔
      ∀ r ∈ Reading.kept [] (points.filterMap (reading floats.parse)), Splits r.key := by
  obtain ⟨hflat, hpoints⟩ := collectionToValues_spec hone h
  have hks : ∀ r ∈ Reading.kept [] (points.filterMap (reading floats.parse)),
      r.field.getLast? ≠ some backslash ∧ FitsField r.value := by
    intro r hr
    obtain ⟨p, hp, hr⟩ := mem_filterMap.mp (mem_kept hr)
    obtain ⟨f, next, hnext, -, hvalue, -, hfield, -⟩ := reading_eq_some_iff.mp hr
    exact ⟨hfield ▸ getLast?_of_nextField hnext, f.fitsField_of_value hvalue (hfinite p hp r hr)⟩
  have hperm : ((valuesToPoints floats order).map (reading floats.parse)).Perm
      ((Reading.kept [] (points.filterMap (reading floats.parse))).map fun r =>
        reading floats.parse (rebuild floats r.entry)) := by
    have := ((horder.flatMap_right _).trans hflat).map (reading floats.parse ∘ rebuild floats)
    rw [map_map] at this
    rw [valuesToPoints_eq, map_map]
    exact this
  rw [hpoints, ← perm_rebuild_iff hks]
  exact ⟨hperm.symm.trans, hperm.trans⟩

/-- Three points, of which the second has another type for the field of the first. -/
def writtenPoints : List Point :=
  [writtenPoint (ascii "load"), { writtenPoint (ascii "load") with fields := ascii "load=1i" },
    writtenPoint (ascii "idle")]

/-- The second point is dropped; the others are built again. -/
theorem valuesToPoints_load :
    ∃ values c, collectionToValues bitsText.parse (.new writtenPoints) = .ok (.ok (values, c)) ∧
      c.points = [writtenPoint (ascii "load"), writtenPoint (ascii "idle")] ∧
      ((valuesToPoints bitsText values.entries).map (reading bitsText.parse)).Perm
        (c.points.map (reading bitsText.parse)) := by
  have hone : ∀ p ∈ writtenPoints, HasOneField p := by
    rw [writtenPoints, forall_mem_cons, forall_mem_cons, forall_mem_singleton]
    exact ⟨⟨⟨ascii "load", .boolean, ascii "true"⟩, 10, rfl, by decide⟩,
      ⟨⟨ascii "load", .integer, ascii "1"⟩, 8, rfl, by decide⟩,
      ⟨⟨ascii "idle", .boolean, ascii "true"⟩, 10, rfl, by decide⟩⟩
  have hfinite : ∀ p ∈ writtenPoints, ∀ r ∈ reading bitsText.parse p, ∀ bits, r.value = .float bits →
      isFinite bits = true := by
    rw [writtenPoints, forall_mem_cons, forall_mem_cons, forall_mem_singleton]
    refine ⟨?_, ?_, ?_⟩
    all_goals rintro r ⟨⟩ bits ⟨⟩
  exact ⟨_, _, rfl, rfl, (valuesToPoints_collectionToValues_iff bitsText hone hfinite rfl (.refl _)).mpr
    (by decide +kernel)⟩

/-- A field that ends like the separator starts: the series key of its point ends with the field. -/
theorem not_valuesToPoints_hash :
    collectionToValues bitsText.parse (.new [writtenPoint (ascii "f#!~")]) =
        .ok (.ok (writtenValues (ascii "f#!~"), .new [writtenPoint (ascii "f#!~")])) ∧
      ¬((valuesToPoints bitsText (writtenValues (ascii "f#!~")).entries).map (reading bitsText.parse)).Perm
        ([writtenPoint (ascii "f#!~")].map (reading bitsText.parse)) :=
  ⟨rfl, by decide +kernel⟩

end InfluxDB.Tsm
