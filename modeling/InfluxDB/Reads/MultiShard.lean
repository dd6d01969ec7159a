import InfluxDB.Models.Key
import InfluxDB.Reads.FilterCursor
import InfluxDB.Tsm.Cache

/-!
    The multi-shard cursors of a query.  One object reads the series rows one after another.  For each
    type of values it keeps one cursor, which is reset for every row and switches from shard to shard,
    and that cursor keeps one filter, which is made for the first row that has a value condition.
    A reset gives the filter a new cursor to read, but never a new condition, and a row without a
    condition leaves it in place for the switch to the next shard.

    The cursor of a shard is the list of the arrays that it returns; behind them it returns empty
    arrays.
-/

namespace InfluxDB.Reads

open Lib Models Tsm List Option Function

structure CursorRequest where
  name : Bytes
  tags : Tags
  field : Bytes
  ascending : Bool
  startTime : ℤ
  endTime : ℤ

/-- A typed cursor of a shard. -/
structure Cursor where
  kind : Value.Kind
  arrays : List (Values Value)

/-- The cursor of a shard for a request, or nil. -/
abbrev CursorIterator := CursorRequest → Option Cursor

structure SeriesRow where
  sortKey : Bytes
  name : Bytes
  seriesTags : Tags
  tags : Tags
  field : Bytes
  query : List CursorIterator
  valueCond : Option (Value → Bool)

/-- The request for a row: the range and direction of a request with the series of the row. -/
def SeriesRow.request (row : SeriesRow) (req : CursorRequest) : CursorRequest :=
  { req with name := row.name, tags := row.seriesTags, field := row.field }

/-- The loop over the shards: the first cursor that is not nil, and the shards behind it. -/
def firstCursor (req : CursorRequest) : List CursorIterator → Option Cursor × List CursorIterator
  | [] => (none, [])
  | itr :: itrs =>
    match itr req with
    | some cur => (some cur, itrs)
    | none => firstCursor req itrs

/-- The cursor that a multi-shard cursor reads: that of a shard, or its own filter. -/
inductive Source where
  | shard (arrays : List (Values Value))
  | filter

/-- `{{name}}MultiShardArrayCursor`. -/
structure MultiShardArrayCursor where
  cur : Source
  itrs : List CursorIterator
  limit : ℤ
  count : ℤ
  /-- "expected {{name}} cursor" -/
  err : Option Value.Kind
  filter : Option (ArrayFilterCursor Value)

namespace MultiShardArrayCursor

def reset (c : MultiShardArrayCursor) (cur : List (Values Value)) (itrs : List CursorIterator)
    (cond : Option (Value → Bool)) : MultiShardArrayCursor :=
  let c :=
    match cond with
    | some cond =>
      let filter :=
        match c.filter with
        | none => ArrayFilterCursor.reset cur cond
        | some f => { f with cur, tmp := [] }
      { c with filter := some filter, cur := .filter }
    | none => { c with cur := .shard cur }
  { c with itrs, err := none, count := 0 }

/-- `Next` of the cursor that is read. -/
def nextArray (c : MultiShardArrayCursor) : Values Value × MultiShardArrayCursor :=
  match c.cur, c.filter with
  | .filter, some f => (f.next.1, { c with filter := some f.next.2 })
  -- The filter is read only once it is there.
  | .filter, none => ([], c)
  | .shard arrays, _ => (arrays.headD [], { c with cur := .shard arrays.tail })

def nextArrayCursor (kind : Value.Kind) (req : CursorRequest) (c : MultiShardArrayCursor) :
    Bool × MultiShardArrayCursor :=
  if c.itrs = [] then (false, c)
  else
    match firstCursor req c.itrs with
    | (some cur, itrs) =>
      if cur.kind = kind then
        match c.filter with
        | some f => (true, { c with itrs, cur := .filter, filter := some { f with cur := cur.arrays, tmp := [] } })
        | none => (true, { c with itrs, cur := .shard cur.arrays })
      else (false, { c with itrs := [], cur := .shard [], err := some kind })
    | (none, itrs) => (false, { c with itrs, cur := .shard [] })

/-- The count of the points returned, and the cut at the limit. -/
def countPoints (c : MultiShardArrayCursor) (a : Values Value) : Values Value × MultiShardArrayCursor :=
  let count := c.count + a.length
  if count > c.limit then
    let diff := count - c.limit
    (a.take (a.length - diff).toNat, { c with count := count - diff })
  else (a, { c with count })

def nextLoop (kind : Value.Kind) (req : CursorRequest) :
    ℕ → MultiShardArrayCursor → Values Value × MultiShardArrayCursor
  | 0, c => ([], c)
  | fuel + 1, c =>
    let (a, c) := c.nextArray
    if a.length = 0 then
      match c.nextArrayCursor kind req with
      | (true, c) => nextLoop kind req fuel c
      | (false, c) => c.countPoints a
    else c.countPoints a

/-- Each turn of the loop but the last takes a shard. -/
def next (kind : Value.Kind) (req : CursorRequest) (c : MultiShardArrayCursor) :
    Values Value × MultiShardArrayCursor :=
  nextLoop kind req (c.itrs.length + 1) c

/-- So many calls of `Next`. -/
def nexts (kind : Value.Kind) (req : CursorRequest) :
    ℕ → MultiShardArrayCursor → List (Values Value) × MultiShardArrayCursor
  | 0, c => ([], c)
  | n + 1, c =>
    let (a, c) := c.next kind req
    (nexts kind req n c).map (a :: ·) id

end MultiShardArrayCursor

structure MultiShardArrayCursors where
  limit : ℤ
  req : CursorRequest
  cursors : Value.Kind → MultiShardArrayCursor

/-- What a caller gets for a row. -/
structure RowRead where
  kind : Value.Kind
  arrays : List (Values Value)
  err : Option Value.Kind
  deriving DecidableEq

def newMultiShardArrayCursors (start stop : ℤ) (asc : Bool) (limit : ℤ) : MultiShardArrayCursors :=
  let limit := if limit < 0 then 1 else limit
  { limit
    req := { name := [], tags := [], field := [], ascending := asc, startTime := start, endTime := stop }
    cursors := fun _ => { cur := .shard [], itrs := [], limit, count := 0, err := none, filter := none } }

namespace MultiShardArrayCursors

def createCursor (m : MultiShardArrayCursors) (row : SeriesRow) : Option Value.Kind × MultiShardArrayCursors :=
  let m := { m with req := row.request m.req }
  match firstCursor m.req row.query with
  | (none, _) => (none, m)
  | (some cur, itrs) =>
    let c := (m.cursors cur.kind).reset cur.arrays itrs row.valueCond
    (some cur.kind, { m with cursors := update m.cursors cur.kind c })

/-- Create the cursor of a row and call `Next` so many times. -/
def readRow (m : MultiShardArrayCursors) (row : SeriesRow) (n : ℕ) : Option RowRead × MultiShardArrayCursors :=
  match m.createCursor row with
  | (none, m) => (none, m)
  | (some kind, m) =>
    let (arrays, c) := (m.cursors kind).nexts kind m.req n
    (some { kind, arrays, err := c.err }, { m with cursors := update m.cursors kind c })

/-- Read rows one after another, each with its number of calls. -/
def readRows : MultiShardArrayCursors → List (SeriesRow × ℕ) → List (Option RowRead)
  | _, [] => []
  | m, (row, n) :: rows =>
    let (r, m) := m.readRow row n
    r :: readRows m rows

end MultiShardArrayCursors

/-! ### What a row leaves behind -/

namespace MultiShardArrayCursor

variable {kind : Value.Kind} {req : CursorRequest}

/-- What no call changes: the limit, and the condition and room of the filter. -/
def settings (c : MultiShardArrayCursor) : ℤ × Option ((Value → Bool) × ℕ) :=
  (c.limit, c.filter.map fun f => (f.cond, f.resLen))

section

variable (c : MultiShardArrayCursor)
include c

theorem settings_nextArray : c.nextArray.2.settings = c.settings := by
  obtain ⟨cur, itrs, limit, count, err, filter⟩ := c
  cases cur with
  | shard arrays => rfl
  | filter =>
    cases filter with
    | none => rfl
    | some f =>
      have hnext : f.next.2.cond = f.cond ∧ f.next.2.resLen = f.resLen := by
        unfold ArrayFilterCursor.next
        split_ifs <;> exact ⟨rfl, rfl⟩
      simp only [nextArray, settings, map_some, hnext]

theorem settings_nextArrayCursor : (c.nextArrayCursor kind req).2.settings = c.settings := by
  obtain ⟨cur, itrs, limit, count, err, filter⟩ := c
  rw [nextArrayCursor]
  split_ifs with hitrs
  · rfl
  · rcases firstCursor req itrs with ⟨cur', itrs'⟩
    cases cur' with
    | none => rfl
    | some cur' =>
      by_cases hkind : cur'.kind = kind
      · cases filter <;> simp only [hkind, if_true, settings, map_none, map_some]
      · simp only [hkind, if_false, settings]

theorem settings_countPoints (a : Values Value) : (c.countPoints a).2.settings = c.settings := by
  rw [countPoints]
  split_ifs <;> rfl

omit c in
theorem settings_nextLoop (fuel : ℕ) (c : MultiShardArrayCursor) :
    (nextLoop kind req fuel c).2.settings = c.settings := by
  induction fuel generalizing c with
  | zero => rfl
  | succ fuel ih =>
    rw [nextLoop, ← settings_nextArray c]
    rcases c.nextArray with ⟨a, c'⟩
    dsimp only
    split_ifs
    · rw [← @settings_nextArrayCursor kind req c']
      rcases c'.nextArrayCursor kind req with ⟨_ | _, c''⟩
      · exact settings_countPoints c'' a
      · exact ih c''
    · exact settings_countPoints c' a

omit c in
theorem settings_nexts (n : ℕ) (c : MultiShardArrayCursor) : (nexts kind req n c).2.settings = c.settings := by
  induction n generalizing c with
  | zero => rfl
  | succ n ih =>
    have hnexts : (nexts kind req (n + 1) c).2 = (nexts kind req n (c.next kind req).2).2 := rfl
    rw [hnexts, ih, next, settings_nextLoop]

theorem settings_reset (cur : List (Values Value)) (itrs : List CursorIterator)
    (cond : Option (Value → Bool)) :
    (c.reset cur itrs cond).settings = (c.limit, c.settings.2.or (cond.map fun cond => (cond, maxPointsPerBlock))) := by
  obtain ⟨_, _, limit, _, _, filter⟩ := c
  cases cond <;> cases filter <;> rfl

end

/-- A reset forgets the cursor's past, unless its filter has another condition than the row. -/
theorem reset_eq_reset {c c₀ : MultiShardArrayCursor} (cur : List (Values Value)) (itrs : List CursorIterator)
    {cond : Option (Value → Bool)} (hlimit : c.limit = c₀.limit) (hnew : c₀.filter = none)
    (h : ∀ f, c.filter = some f → cond = some f.cond ∧ f.resLen = maxPointsPerBlock) :
    c.reset cur itrs cond = c₀.reset cur itrs cond := by
  obtain ⟨_, _, limit, _, _, filter⟩ := c
  obtain ⟨_, _, limit₀, _, _, filter₀⟩ := c₀
  obtain rfl : limit = limit₀ := hlimit
  obtain rfl : filter₀ = none := hnew
  cases filter with
  | none => cases cond <;> rfl
  | some f =>
    obtain ⟨rfl, hres⟩ := h f rfl
    obtain ⟨cur', cond, resLen, tmp⟩ := f
    obtain rfl : resLen = maxPointsPerBlock := hres
    rfl

end MultiShardArrayCursor

namespace MultiShardArrayCursors

variable (req : CursorRequest)

/-- The type of the cursor for a row, if any of its shards has one. -/
def rowKind (row : SeriesRow) : Option Value.Kind :=
  (firstCursor (row.request req) row.query).1.map Cursor.kind

/-- The condition of the first of the rows with this type of cursor that has one. -/
def firstCond (rows : List SeriesRow) (kind : Value.Kind) : Option (Value → Bool) :=
  rows.findSome? fun row => if rowKind req row = some kind then row.valueCond else none

/-- No earlier row with this row's type of cursor has a condition, or this row has the same condition as the first. -/
def Undisturbed (seen : List SeriesRow) (row : SeriesRow) : Prop :=
  ∀ kind, rowKind req row = some kind → ∀ cond, firstCond req seen kind = some cond → row.valueCond = some cond

/-- The object `m` made by `m₀` from reading the rows `seen`. -/
structure HasRead (m₀ : MultiShardArrayCursors) (seen : List SeriesRow) (m : MultiShardArrayCursors) : Prop where
  request : ∀ row : SeriesRow, row.request m.req = row.request m₀.req
  settings : ∀ kind, (m.cursors kind).settings =
    ((m₀.cursors kind).limit, (firstCond m₀.req seen kind).map fun cond => (cond, maxPointsPerBlock))

variable {m m₀ : MultiShardArrayCursors} {seen : List SeriesRow} {row : SeriesRow}

theorem HasRead.new (hnew : ∀ kind, (m₀.cursors kind).filter = none) : HasRead m₀ [] m₀ where
  request _ := rfl
  settings kind := by rw [MultiShardArrayCursor.settings, hnew kind]; rfl

theorem firstCond_concat (seen : List SeriesRow) (row : SeriesRow) (kind : Value.Kind) :
    firstCond req (seen ++ [row]) kind =
      (firstCond req seen kind).or (if rowKind req row = some kind then row.valueCond else none) := by
  rw [firstCond, findSome?_append, findSome?_singleton]
  rfl

theorem HasRead.limit_eq (h : HasRead m₀ seen m) (kind : Value.Kind) :
    (m.cursors kind).limit = (m₀.cursors kind).limit := congrArg Prod.fst (h.settings kind)

theorem HasRead.readRow (h : HasRead m₀ seen m) (n : ℕ) : HasRead m₀ (seen ++ [row]) (m.readRow row n).2 := by
  have hreq := h.request row
  rw [MultiShardArrayCursors.readRow, createCursor, hreq]
  cases hfirst : firstCursor (row.request m₀.req) row.query with
  | mk cur itrs =>
    cases cur with
    | none =>
      refine ⟨fun r => rfl, fun kind => ?_⟩
      rw [firstCond_concat, rowKind, hfirst, if_neg nofun, or_none]
      exact h.settings kind
    | some cur =>
      refine ⟨fun r => rfl, fun kind => ?_⟩
      rw [firstCond_concat, rowKind, hfirst]
      by_cases hkind : kind = cur.kind
      · subst hkind
        dsimp only
        rw [update_self, update_self, MultiShardArrayCursor.settings_nexts,
          MultiShardArrayCursor.settings_reset, h.settings,
          if_pos (show Option.map Cursor.kind (some cur) = some cur.kind from rfl), map_or, h.limit_eq]
      · dsimp only
        rw [update_of_ne hkind, update_of_ne hkind,
          if_neg (show ¬ Option.map Cursor.kind (some cur) = some kind from fun he => hkind (Option.some.inj he).symm),
          or_none]
        exact h.settings kind

/-- A row that is not disturbed by the rows before it is read as by the object before it read any. -/
theorem HasRead.readRow_eq (h : HasRead m₀ seen m) (hnew : ∀ kind, (m₀.cursors kind).filter = none)
    (hrow : Undisturbed m₀.req seen row) (n : ℕ) : (m.readRow row n).1 = (m₀.readRow row n).1 := by
  have hreq := h.request row
  rw [MultiShardArrayCursors.readRow, MultiShardArrayCursors.readRow, createCursor, createCursor, hreq]
  cases hfirst : firstCursor (row.request m₀.req) row.query with
  | mk cur itrs =>
    cases cur with
    | none => rfl
    | some cur =>
      have hreset := MultiShardArrayCursor.reset_eq_reset cur.arrays itrs (h.limit_eq cur.kind) (hnew cur.kind)
        fun f hf => by
          have hcond : (m.cursors cur.kind).settings.2 = some (f.cond, f.resLen) := by
            rw [MultiShardArrayCursor.settings, hf]
            rfl
          rw [h.settings, map_eq_some_iff] at hcond
          obtain ⟨cond, hfirstCond, heq⟩ := hcond
          obtain ⟨rfl, hres⟩ := Prod.ext_iff.mp heq
          exact ⟨hrow cur.kind (by rw [rowKind, hfirst]; rfl) _ hfirstCond, hres.symm⟩
      dsimp only
      rw [update_self, update_self, hreset]

theorem HasRead.readRows_eq (hnew : ∀ kind, (m₀.cursors kind).filter = none) {rows : List (SeriesRow × ℕ)}
    (h : HasRead m₀ seen m)
    (hrows : ∀ pre row n post, rows = pre ++ (row, n) :: post →
      Undisturbed m₀.req (seen ++ pre.map Prod.fst) row) :
    m.readRows rows = rows.map fun r => (m₀.readRow r.1 r.2).1 := by
  induction rows generalizing m seen with
  | nil => rfl
  | cons r rows ih =>
    obtain ⟨row, n⟩ := r
    have hfirst : Undisturbed m₀.req seen row := by
      simpa using hrows [] row n rows rfl
    have hrest := ih (h.readRow n) fun pre row' n' post hsplit => by
      simpa using hrows ((row, n) :: pre) row' n' post (by rw [hsplit]; rfl)
    rw [readRows, map_cons, ← h.readRow_eq hnew hfirst n, ← hrest]

end MultiShardArrayCursors

open MultiShardArrayCursors

/-- Rows read through one object are read as by a fresh object each, if for every row no earlier row with the same
type of cursor has a condition, or the row has the condition of the first of them. -/
theorem multiShard_rows_independent (start stop : ℤ) (asc : Bool) (limit : ℤ) (rows : List (SeriesRow × ℕ))
    (h : ∀ pre row n post, rows = pre ++ (row, n) :: post →
      Undisturbed (newMultiShardArrayCursors start stop asc limit).req (pre.map Prod.fst) row) :
    (newMultiShardArrayCursors start stop asc limit).readRows rows =
      rows.map fun r => ((newMultiShardArrayCursors start stop asc limit).readRow r.1 r.2).1 :=
  (HasRead.new fun _ => rfl).readRows_eq (fun _ => rfl) h

/-- A row with two integer points in its only shard. -/
def integerRow (cond : Option (Value → Bool)) : SeriesRow where
  sortKey := []
  name := []
  seriesTags := []
  tags := []
  field := []
  query := [fun _ => some ⟨.integer, [[(1, .integer 5), (2, .integer 7)]]⟩]
  valueCond := cond

/-- Two rows with the same condition, behind a row without one. -/
theorem multiShard_rows_independent_sameCond :
    (newMultiShardArrayCursors 0 9 true 100).readRows
        [(integerRow none, 2), (integerRow (some (· == .integer 7)), 1), (integerRow (some (· == .integer 7)), 1)] =
      [some ⟨.integer, [[(1, .integer 5), (2, .integer 7)], []], none⟩,
        some ⟨.integer, [[(2, .integer 7)]], none⟩,
        some ⟨.integer, [[(2, .integer 7)]], none⟩] := by
  rw [multiShard_rows_independent]
  · decide +kernel
  · intro pre row n post hsplit kind hkind cond hcond
    rcases pre with _ | ⟨r₁, _ | ⟨r₂, _ | ⟨r₃, pre⟩⟩⟩ <;>
      simp only [nil_append, cons_append, cons.injEq, Prod.mk.injEq, nil_eq,
        append_eq_nil_iff, reduceCtorEq, and_false] at hsplit
    · cases hcond
    · obtain ⟨rfl, ⟨rfl, rfl⟩, rfl⟩ := hsplit
      obtain rfl : Value.Kind.integer = kind := some.inj hkind
      cases hcond
    · obtain ⟨rfl, rfl, ⟨rfl, rfl⟩, rfl⟩ := hsplit
      obtain rfl : Value.Kind.integer = kind := some.inj hkind
      exact hcond

/-- With another condition each, the second row is filtered with the condition of the first. -/
theorem multiShard_rows_not_independent :
    ¬ (newMultiShardArrayCursors 0 9 true 100).readRows
        [(integerRow (some (· == .integer 5)), 1), (integerRow (some (· == .integer 7)), 1)] =
      [(integerRow (some (· == .integer 5)), 1), (integerRow (some (· == .integer 7)), 1)].map fun r =>
        ((newMultiShardArrayCursors 0 9 true 100).readRow r.1 r.2).1 := by
  decide +kernel

/-! ### Whether a row has points -/

/-- A point that the cursor returns before its first empty array meets the condition, if there is one. -/
def Cursor.selects (cond : Option (Value → Bool)) (cur : Cursor) : Bool :=
  (cur.arrays.takeWhile fun a => !a.isEmpty).flatten.any fun p => cond.all fun c => c p.2

/-- The cursors of the shards of a row. -/
def SeriesRow.cursors (req : CursorRequest) (row : SeriesRow) : List Cursor :=
  row.query.filterMap fun itr => itr (row.request req)

/-- The first shard has a point that meets one condition, or a shard behind it with the same type of values one
that meets another. -/
def SeriesRow.selects (req : CursorRequest) (first later : Option (Value → Bool)) (row : SeriesRow) : Bool :=
  match row.cursors req with
  | [] => false
  | cur :: rest => cur.selects first || (rest.takeWhile fun c => c.kind = cur.kind).any (·.selects later)

namespace MultiShardArrayCursor

variable {kind : Value.Kind} {req : CursorRequest} {c : MultiShardArrayCursor}

/-- The condition of the filter. -/
def cond (c : MultiShardArrayCursor) : Option (Value → Bool) := c.settings.2.map Prod.fst

/-- There is room for a point. -/
structure Open (c : MultiShardArrayCursor) : Prop where
  count : c.count < c.settings.1
  room : ∀ f ∈ c.settings.2, 0 < f.2

theorem Open.of_eq {c' : MultiShardArrayCursor} (h : c.Open) (hset : c'.settings = c.settings)
    (hcount : c'.count = c.count) : c'.Open :=
  ⟨by rw [hset, hcount]; exact h.count, by rw [hset]; exact h.room⟩

/-- The cursors of the shards that are still to be read. -/
def pending (kind : Value.Kind) (req : CursorRequest) (c : MultiShardArrayCursor) : List Cursor :=
  (c.itrs.filterMap fun itr => itr req).takeWhile fun cur => cur.kind = kind

theorem firstCursor_cases (req : CursorRequest) (itrs : List CursorIterator) :
    (firstCursor req itrs).1 = none ∧ (itrs.filterMap fun itr => itr req) = [] ∨
      ∃ cur rest, firstCursor req itrs = (some cur, rest) ∧ rest.length < itrs.length ∧
        (itrs.filterMap fun itr => itr req) = cur :: rest.filterMap fun itr => itr req := by
  induction itrs with
  | nil => exact .inl ⟨rfl, rfl⟩
  | cons itr itrs ih =>
    cases hitr : itr req with
    | some cur =>
      refine .inr ⟨cur, itrs, by rw [firstCursor, hitr], Nat.lt_succ_self _, ?_⟩
      exact filterMap_cons_some (f := fun itr : CursorIterator => itr req) hitr
    | none =>
      have hfirst : firstCursor req (itr :: itrs) = firstCursor req itrs := by rw [firstCursor, hitr]
      rw [hfirst, filterMap_cons_none (f := fun itr : CursorIterator => itr req) hitr]
      exact ih.imp_right fun ⟨cur, rest, h, hlt, hmap⟩ => ⟨cur, rest, h, Nat.lt_succ_of_lt hlt, hmap⟩

theorem countPoints_eq_nil (hopen : c.Open) (a : Values Value) : (c.countPoints a).1 = [] ↔ a = [] := by
  have hcount : c.count < c.limit := hopen.count
  rw [countPoints]
  dsimp only
  split_ifs with hlimit
  · rw [take_eq_nil_iff, or_iff_right (by omega)]
  · rfl

theorem selects_none (cur : Cursor) : cur.selects none = false ↔ cur.arrays.headD [] = [] := by
  rw [Cursor.selects]
  rcases cur.arrays with _ | ⟨_ | ⟨p, a⟩, arrays⟩ <;> simp

theorem nextArray_frame (c : MultiShardArrayCursor) :
    c.nextArray.2.itrs = c.itrs ∧ c.nextArray.2.count = c.count := by
  obtain ⟨cur, itrs, limit, count, err, filter⟩ := c
  cases cur <;> cases filter <;> exact ⟨rfl, rfl⟩

/-- The switch to the next shard fails if no cursor is left; else the next one is read with the filter's condition. -/
theorem nextArrayCursor_cases (hopen : c.Open) :
    (c.nextArrayCursor kind req).1 = false ∧ c.pending kind req = [] ∧
        (c.nextArrayCursor kind req).2.count = c.count ∨
      ∃ cur c', c.nextArrayCursor kind req = (true, c') ∧ c.pending kind req = cur :: c'.pending kind req ∧
        c'.itrs.length < c.itrs.length ∧ c'.count = c.count ∧
        (c'.nextArray.1 = [] ↔ cur.selects c.cond = false) := by
  obtain ⟨cur, itrs, limit, count, err, filter⟩ := c
  rw [nextArrayCursor]
  dsimp only [pending]
  split_ifs with hitrs
  · exact .inl ⟨rfl, by rw [hitrs]; rfl, rfl⟩
  · rcases firstCursor_cases req itrs with ⟨hnone, hnil⟩ | ⟨next, rest, hfirst, hlt, hmap⟩
    · left
      rw [hnil]
      generalize firstCursor req itrs = first at hnone ⊢
      obtain ⟨_ | next, rest⟩ := first
      · exact ⟨rfl, rfl, rfl⟩
      · cases hnone
    · rw [hfirst, hmap]
      dsimp only
      by_cases hkind : next.kind = kind
      · right
        rw [if_pos hkind, takeWhile_cons, if_pos (decide_eq_true hkind)]
        cases filter with
        | none => exact ⟨next, _, rfl, rfl, hlt, rfl, (selects_none next).symm⟩
        | some f =>
          have hroom : 0 < f.resLen := hopen.room (f.cond, f.resLen) rfl
          have hread := ArrayFilterCursor.next_eq_nil (c := { f with cur := next.arrays, tmp := [] }) rfl hroom
          exact ⟨next, _, rfl, rfl, hlt, rfl, hread⟩
      · left
        rw [if_neg hkind, takeWhile_cons, if_neg (mt of_decide_eq_true hkind)]
        exact ⟨rfl, rfl, rfl⟩

theorem nextLoop_eq_nil {fuel : ℕ} (hopen : c.Open) (hfuel : c.itrs.length < fuel) :
    (nextLoop kind req fuel c).1 = [] ↔
      c.nextArray.1 = [] ∧ ((c.pending kind req).any fun cur => cur.selects c.cond) = false := by
  induction fuel generalizing c with
  | zero => exact absurd hfuel (Nat.not_lt_zero _)
  | succ fuel ih =>
    have hset := settings_nextArray c
    obtain ⟨hitrs, hcount⟩ := nextArray_frame c
    have hpending : c.nextArray.2.pending kind req = c.pending kind req := by rw [pending, hitrs]; rfl
    have hcond : c.nextArray.2.cond = c.cond := by rw [cond, hset]; rfl
    have hopen' : c.nextArray.2.Open := hopen.of_eq hset hcount
    rw [nextLoop]
    dsimp only
    rw [← hpending, ← hcond]
    rw [← hitrs] at hfuel
    rcases eq_or_ne c.nextArray.1 [] with ha | ha
    · rw [if_pos (by rw [ha]; rfl), and_iff_right ha]
      generalize c.nextArray.2 = c₁ at hopen' hfuel ⊢
      have hsetting := @settings_nextArrayCursor kind req c₁
      rcases @nextArrayCursor_cases kind req c₁ hopen' with
        ⟨hfalse, hnil, hcount'⟩ | ⟨cur, c', hnext, hcons, hlt, hcount', hread⟩
      · generalize c₁.nextArrayCursor kind req = r at hfalse hcount' hsetting ⊢
        obtain ⟨b, c'⟩ := r
        obtain rfl : b = false := hfalse
        dsimp only at hsetting hcount' ⊢
        rw [ha, countPoints_eq_nil (hopen'.of_eq hsetting hcount'), hnil]
        simp
      · rw [hnext] at hsetting ⊢
        dsimp only at hsetting ⊢
        have hcond' : c'.cond = c₁.cond := by rw [cond, hsetting]; rfl
        rw [ih (hopen'.of_eq hsetting hcount') (by omega), hcons, any_cons, Bool.or_eq_false_iff, hread, hcond']
    · rw [if_neg (fun h => ha (length_eq_zero_iff.mp h)), countPoints_eq_nil hopen']
      exact iff_of_false ha fun h => ha h.1

end MultiShardArrayCursor

/-- Whether a row has points, if an earlier row's condition stays in the filter: its condition takes the place of the
row's, and it holds for the shards behind the first one also if the row has none. -/
def SeriesRow.hasPoints (req : CursorRequest) (stale : Option (Value → Bool)) (row : SeriesRow) : Bool :=
  row.selects req (row.valueCond.bind fun cond => stale.or (some cond)) (stale.or row.valueCond)

namespace MultiShardArrayCursor

variable {c : MultiShardArrayCursor} {stale : Option (Value → Bool)} {n : ℕ}

theorem nextArray_reset (hset : c.settings.2 = stale.map fun cond => (cond, maxPointsPerBlock)) (cur : Cursor)
    (itrs : List CursorIterator) (cond : Option (Value → Bool)) :
    (c.reset cur.arrays itrs cond).nextArray.1 = [] ↔
      cur.selects (cond.bind fun cond => stale.or (some cond)) = false := by
  obtain ⟨_, _, limit, _, _, filter⟩ := c
  cases cond with
  | none => exact (selects_none cur).symm
  | some cond =>
    cases stale with
    | none =>
      obtain rfl : filter = none := map_eq_none_iff.mp hset
      exact ArrayFilterCursor.next_eq_nil (c := .reset cur.arrays cond) rfl (show 0 < maxPointsPerBlock by decide)
    | some stale =>
      obtain ⟨f, rfl, hf⟩ := map_eq_some_iff.mp hset
      obtain ⟨rfl, hres⟩ := Prod.ext_iff.mp hf
      have hroom : 0 < f.resLen := lt_of_lt_of_eq (show 0 < maxPointsPerBlock by decide) hres.symm
      exact ArrayFilterCursor.next_eq_nil (c := { f with cur := cur.arrays, tmp := [] }) rfl hroom

theorem reset_frame (c : MultiShardArrayCursor) (cur : List (Values Value)) (itrs : List CursorIterator)
    (cond : Option (Value → Bool)) : (c.reset cur itrs cond).itrs = itrs ∧ (c.reset cur itrs cond).count = 0 := by
  cases cond <;> exact ⟨rfl, rfl⟩

end MultiShardArrayCursor

namespace MultiShardArrayCursors

/-- The condition that earlier rows leave in the filter for a row. -/
def staleCond (req : CursorRequest) (seen : List SeriesRow) (row : SeriesRow) : Option (Value → Bool) :=
  (rowKind req row).bind (firstCond req seen)

variable {m m₀ : MultiShardArrayCursors} {seen : List SeriesRow}

/-- A row read behind others returns no points at the first call exactly if none of its points meets what is left in
the filter. -/
theorem HasRead.readRow_one (h : HasRead m₀ seen m) (hlimit : ∀ kind, 0 < (m₀.cursors kind).limit)
    (row : SeriesRow) :
    (m.readRow row 1).1 = none ∧ row.hasPoints m₀.req (staleCond m₀.req seen row) = false ∨
      ∃ r a, (m.readRow row 1).1 = some r ∧ r.arrays = [a] ∧
        (a = [] ↔ row.hasPoints m₀.req (staleCond m₀.req seen row) = false) := by
  have hreq := h.request row
  rw [MultiShardArrayCursors.readRow, createCursor, hreq, staleCond, rowKind, SeriesRow.hasPoints, SeriesRow.selects,
    SeriesRow.cursors]
  rcases MultiShardArrayCursor.firstCursor_cases (row.request m₀.req) row.query with
    ⟨hnone, hnil⟩ | ⟨cur, rest, hfirst, -, hmap⟩
  · left
    rw [hnil]
    generalize firstCursor (row.request m₀.req) row.query = first at hnone ⊢
    obtain ⟨_ | cur, rest⟩ := first
    · exact ⟨rfl, rfl⟩
    · cases hnone
  · right
    rw [hfirst, hmap]
    dsimp only
    rw [update_self, map_some, bind_some]
    have hset := h.settings cur.kind
    generalize firstCond m₀.req seen cur.kind = stale at hset ⊢
    have hread := MultiShardArrayCursor.nextArray_reset (congrArg Prod.snd hset) cur rest row.valueCond
    have hreset := MultiShardArrayCursor.settings_reset (m.cursors cur.kind) cur.arrays rest row.valueCond
    have hcond : ((m.cursors cur.kind).reset cur.arrays rest row.valueCond).cond = stale.or row.valueCond := by
      rw [MultiShardArrayCursor.cond, hreset, hset]
      cases stale <;> cases row.valueCond <;> rfl
    obtain ⟨hitrs, hcount⟩ := (m.cursors cur.kind).reset_frame cur.arrays rest row.valueCond
    have hopen : ((m.cursors cur.kind).reset cur.arrays rest row.valueCond).Open := by
      rw [hset, ← map_or] at hreset
      refine ⟨?_, ?_⟩
      · rw [hcount, hreset, h.limit_eq]
        exact hlimit cur.kind
      · rw [hreset]
        intro f hf
        obtain ⟨cond, -, rfl⟩ := map_eq_some_iff.mp hf
        exact (by decide : 0 < maxPointsPerBlock)
    have hpending : ((m.cursors cur.kind).reset cur.arrays rest row.valueCond).pending cur.kind (row.request m₀.req) =
        (rest.filterMap fun itr => itr (row.request m₀.req)).takeWhile fun c => c.kind = cur.kind := by
      rw [MultiShardArrayCursor.pending, hitrs]
    refine ⟨_, _, rfl, rfl, ?_⟩
    rw [Bool.or_eq_false_iff, ← hread, ← hpending, ← hcond]
    exact MultiShardArrayCursor.nextLoop_eq_nil hopen (Nat.lt_succ_self _)

end MultiShardArrayCursors

end InfluxDB.Reads
