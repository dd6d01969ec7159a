import InfluxDB.Reads.MultiShard

/-!
    The grouped result set of a query.  The rows that have points are sorted by a key that joins their
    values for the group keys, each followed by a comma, with a marker in place of a missing value;
    a group is a run of rows with equal keys.  The join is not injective: a value may hold a comma or
    be the marker itself.  Whether a row has points is asked of the cursors that all rows share, whose
    filter keeps the first condition that it was given.
-/

namespace InfluxDB.Reads

open Lib Models Tsm List Bool Option

/-! ### Merged tag keys -/

/-- The merge loop of `KeyMerger.MergeKeys`. -/
def mergeKeysLoop : List Bytes → List Bytes → List Bytes
  | [], b => b
  | a, [] => a
  | x :: a, y :: b =>
    if x < y then x :: mergeKeysLoop a (y :: b)
    else if y < x then y :: mergeKeysLoop (x :: a) b
    else x :: mergeKeysLoop a b
termination_by a b => a.length + b.length

/-- How far two lists agree. -/
def commonLength : List Bytes → List Bytes → ℕ
  | x :: a, y :: b => if x = y then commonLength a b + 1 else 0
  | _, _ => 0

/-- `KeyMerger.MergeKeys`, as what `Get` returns behind it. -/
def mergeKeys (keys new : List Bytes) : List Bytes :=
  let n := commonLength keys new
  if n = new.length then keys
  else
    -- The pointers are backed up by one.
    keys.take (n - 1) ++ mergeKeysLoop (keys.drop (n - 1)) (new.drop (n - 1))

variable (keys : List Bytes)

/-- `KeyMerger.MergeTagKeys`. -/
def mergeTagKeys (tags : Tags) : List Bytes := mergeKeys keys (tags.map Tag.key)

/-! ### The result set -/

/-- `NilSortHi`: nil sorts highest. -/
def nilSortHi : Bytes := [255]

/-- `sort.Slice` by the sort keys, which need not keep the order of equal rows. -/
structure RowSort where
  sort : List SeriesRow → List SeriesRow
  perm : ∀ rows, (sort rows).Perm rows
  sorted : ∀ rows, (sort rows).Pairwise fun a b => ¬ b.sortKey < a.sortKey

/-- A sort by insertion, which keeps it. -/
def RowSort.insertion : RowSort where
  sort := List.insertionSort fun a b => ¬ b.sortKey < a.sortKey
  perm := perm_insertionSort _
  sorted rows :=
    have : Std.Total fun a b : SeriesRow => ¬ b.sortKey < a.sortKey :=
      ⟨fun a b => (le_total a.sortKey b.sortKey).imp not_lt.mpr not_lt.mpr⟩
    have : IsTrans SeriesRow fun a b => ¬ b.sortKey < a.sortKey :=
      ⟨fun _ _ _ hab hbc => not_lt.mpr ((not_lt.mp hab).trans (not_lt.mp hbc))⟩
    pairwise_insertionSort _ rows

structure GroupByCursor where
  rows : List SeriesRow
  keys : List Bytes
  vals : List Bytes

structure GroupResultSet where
  mb : MultiShardArrayCursors
  i : ℕ
  rows : List SeriesRow
  keys : List Bytes
  rgc : GroupByCursor
  eof : Bool

/-- `seriesHasPoints`. -/
def seriesHasPoints (mb : MultiShardArrayCursors) (row : SeriesRow) : Bool × MultiShardArrayCursors :=
  match mb.readRow row 1 with
  | (none, mb) => (false, mb)
  | (some r, mb) => (r.arrays.any fun a => decide (0 < a.length), mb)

/-- The rows of a series cursor that have points, or all of them with the hint `HintSchemaAllTime`. -/
def rowsWithPoints (allTime : Bool) :
    MultiShardArrayCursors → List SeriesRow → List SeriesRow × MultiShardArrayCursors
  | mb, [] => ([], mb)
  | mb, row :: rows =>
    let (ok, mb) := if allTime then (true, mb) else seriesHasPoints mb row
    if ok then (rowsWithPoints allTime mb rows).map (row :: ·) id else rowsWithPoints allTime mb rows

/-- The sort key of a row. -/
def sortKey (nilSort : Bytes) (tags : Tags) : Bytes :=
  keys.flatMap fun k =>
    let v := tags.get k
    (if v.length = 0 then nilSort else v) ++ [44]

def withSortKey (nilSort : Bytes) (row : SeriesRow) : SeriesRow :=
  { row with sortKey := sortKey keys nilSort row.tags }

/-- `groupBySort`. -/
def groupBySort (srt : RowSort) (keys : List Bytes) (nilSort : Bytes) (allTime : Bool) (mb : MultiShardArrayCursors)
    (rows : List SeriesRow) : List SeriesRow × MultiShardArrayCursors :=
  (rowsWithPoints allTime mb rows).map (fun rows => srt.sort (rows.map (withSortKey keys nilSort))) id

/-- `NewGroupResultSet` for `GroupBy`, with the rows of the series cursor. -/
def newGroupResultSet (srt : RowSort) (groupKeys : List Bytes) (nilSort : Bytes) (allTime : Bool) (start stop : ℤ)
    (rows : List SeriesRow) : Option GroupResultSet :=
  let mb := newMultiShardArrayCursors start stop true maxInt64
  let (rows, mb) := groupBySort srt groupKeys nilSort allTime mb rows
  if rows.length = 0 then none
  else some { mb, i := 0, rows, keys := groupKeys, rgc := { rows := [], keys := [], vals := [] }, eof := false }

namespace GroupResultSet

/-- `groupByNextGroup`. -/
def groupByNextGroup (g : GroupResultSet) : Option GroupByCursor × GroupResultSet :=
  match g.rows.drop g.i with
  -- There is a row left whenever the end is not marked.
  | [] => (none, g)
  | row :: rest =>
    let run := (row :: rest).takeWhile fun r => row.sortKey == r.sortKey
    let j := g.i + run.length
    let rgc :=
      { rows := run
        keys := run.foldl (fun keys r => mergeTagKeys keys r.tags) []
        vals := g.keys.map row.tags.get }
    (some rgc, { g with rgc, i := j, eof := g.eof || j == g.rows.length })

/-- `Next`. -/
def next (g : GroupResultSet) : Option GroupByCursor × GroupResultSet :=
  if g.eof then (none, g) else g.groupByNextGroup

/-- The groups of successive calls of `Next`, up to the first nil. -/
def walk : ℕ → GroupResultSet → Option (List GroupByCursor)
  | 0, _ => none
  | fuel + 1, g =>
    match g.next with
    | (none, _) => some []
    | (some rgc, g) => (walk fuel g).map (rgc :: ·)

end GroupResultSet

/-- Walk a result set, which is nil if no row has points. -/
def walkGroups (fuel : ℕ) : Option GroupResultSet → Option (List GroupByCursor)
  | none => some []
  | some g => g.walk fuel

/-! ### Runs of equal keys -/

/-- Two rows have the same values for the group keys; a missing value is like a missing value. -/
def SameValues (a b : SeriesRow) : Prop := ∀ k ∈ keys, a.tags.get k = b.tags.get k

/-- The groups hold each row once, rows share a group if and only if they have the same values, and a group carries
its values. -/
structure GroupedBy (keys : List Bytes) (rows : List SeriesRow) (groups : List GroupByCursor) : Prop where
  perm : (groups.flatMap GroupByCursor.rows).Perm rows
  together : ∀ g ∈ groups, ∀ a ∈ g.rows, ∀ b ∈ g.rows, SameValues keys a b
  apart : groups.Pairwise fun g h => ∀ a ∈ g.rows, ∀ b ∈ h.rows, ¬ SameValues keys a b
  vals : ∀ g ∈ groups, ∀ a ∈ g.rows, g.vals = keys.map a.tags.get

/-- The groups are the runs of equal sort keys of the rows. -/
structure RunsOf (keys : List Bytes) (rows : List SeriesRow) (groups : List GroupByCursor) : Prop where
  flat : groups.flatMap GroupByCursor.rows = rows
  together : ∀ g ∈ groups, ∀ a ∈ g.rows, ∀ b ∈ g.rows, a.sortKey = b.sortKey
  apart : groups.Pairwise fun g h => ∀ a ∈ g.rows, ∀ b ∈ h.rows, a.sortKey < b.sortKey
  vals : ∀ g ∈ groups, ∃ first ∈ g.rows, g.vals = keys.map first.tags.get

namespace GroupResultSet

variable {g : GroupResultSet} {rest : List SeriesRow} {row : SeriesRow} {fuel : ℕ}

/-- The end is marked if and only if no row is left. -/
def Marked (g : GroupResultSet) : Prop := g.eof = true ↔ g.rows.drop g.i = []

theorem next_of_nil (hm : Marked g) (h : g.rows.drop g.i = []) : g.next = (none, g) := by
  rw [next, if_pos (hm.mpr h)]

theorem next_of_cons (hm : Marked g) (h : g.rows.drop g.i = row :: rest) :
    ∃ rgc g', g.next = (some rgc, g') ∧ Marked g' ∧ g'.keys = g.keys ∧
      rgc.rows = row :: rest.takeWhile (fun r => row.sortKey == r.sortKey) ∧ rgc.vals = g.keys.map row.tags.get ∧
      g'.rows.drop g'.i = rest.dropWhile fun r => row.sortKey == r.sortKey := by
  have heof : g.eof = false := by
    rw [← not_eq_true]
    exact fun heof => cons_ne_nil _ _ (h ▸ hm.mp heof)
  have htake : (row :: rest).takeWhile (fun r => row.sortKey == r.sortKey) =
      row :: rest.takeWhile fun r => row.sortKey == r.sortKey := takeWhile_cons_of_pos (beq_self_eq_true _)
  rw [next, if_neg (by rw [heof]; exact false_ne_true), groupByNextGroup, h]
  dsimp only
  rw [htake]
  have hsplit : rest = rest.takeWhile (fun r => row.sortKey == r.sortKey) ++
      rest.dropWhile fun r => row.sortKey == r.sortKey := takeWhile_append_dropWhile.symm
  generalize rest.takeWhile (fun r => row.sortKey == r.sortKey) = run at hsplit ⊢
  generalize rest.dropWhile (fun r => row.sortKey == r.sortKey) = rem at hsplit ⊢
  have hdrop : g.rows.drop (g.i + (row :: run).length) = rem := by
    rw [← drop_drop, h, hsplit, length_cons, drop_succ_cons, drop_left]
  have hle : g.i + (row :: run).length ≤ g.rows.length := by
    have hlen := congrArg length h
    rw [length_drop, hsplit, length_cons, length_append] at hlen
    rw [length_cons]
    omega
  refine ⟨_, _, rfl, ?_, rfl, rfl, rfl, hdrop⟩
  rw [Marked, heof, Bool.false_or, beq_iff_eq, drop_eq_nil_iff]
  exact ⟨fun he => he.ge, fun hge => le_antisymm hle hge⟩

/-- Behind the run of a row in sorted rows come greater keys only. -/
theorem lt_of_mem_dropWhile (hrow : ∀ b ∈ rest, ¬ b.sortKey < row.sortKey)
    (hsort : rest.Pairwise fun a b => ¬ b.sortKey < a.sortKey) :
    ∀ b ∈ rest.dropWhile (fun r => row.sortKey == r.sortKey), row.sortKey < b.sortKey := by
  induction rest with
  | nil => nofun
  | cons c rest ih =>
    rw [pairwise_cons] at hsort
    by_cases hc : row.sortKey = c.sortKey
    · rw [dropWhile_cons, if_pos (beq_iff_eq.mpr hc)]
      exact ih (forall_mem_cons.mp hrow).2 hsort.2
    · rw [dropWhile_cons, if_neg fun h => hc (beq_iff_eq.mp h)]
      have hlt : row.sortKey < c.sortKey := lt_of_le_of_ne (not_lt.mp (hrow c mem_cons_self)) hc
      intro b hb
      rcases mem_cons.mp hb with rfl | hb
      · exact hlt
      · exact lt_of_lt_of_le hlt (not_lt.mp (hsort.1 b hb))

/-- The groups of a walk are the runs of the rows that are left. -/
theorem runsOf_walk {groups : List GroupByCursor} (hm : Marked g)
    (hsort : (g.rows.drop g.i).Pairwise fun a b => ¬ b.sortKey < a.sortKey) (h : g.walk fuel = some groups) :
    RunsOf g.keys (g.rows.drop g.i) groups := by
  induction fuel generalizing g groups with
  | zero => cases h
  | succ fuel ih =>
    rw [walk] at h
    cases hrows : g.rows.drop g.i with
    | nil =>
      rw [next_of_nil hm hrows] at h
      obtain rfl := some.inj h
      exact ⟨rfl, nofun, List.Pairwise.nil, nofun⟩
    | cons row rest =>
      obtain ⟨rgc, g', hnext, hm', hkeys, hrgc, hvals, hrest⟩ := next_of_cons hm hrows
      rw [hnext] at h
      obtain ⟨groups', hwalk, rfl⟩ := map_eq_some_iff.mp h
      rw [hrows, pairwise_cons] at hsort
      have hrestSorted := hsort.2.sublist (dropWhile_sublist fun r => row.sortKey == r.sortKey)
      have hruns := ih hm' (by rw [hrest]; exact hrestSorted) hwalk
      rw [hrest, hkeys] at hruns
      have hsame : ∀ a ∈ rgc.rows, a.sortKey = row.sortKey := by
        intro a ha
        rw [hrgc] at ha
        rcases mem_cons.mp ha with rfl | ha
        · rfl
        · have hbeq := mem_takeWhile_imp (p := fun r : SeriesRow => row.sortKey == r.sortKey) ha
          exact (beq_iff_eq.mp hbeq).symm
      have hless : ∀ b ∈ rest.dropWhile (fun r => row.sortKey == r.sortKey), row.sortKey < b.sortKey :=
        lt_of_mem_dropWhile hsort.1 hsort.2
      refine ⟨?_, ?_, ?_, ?_⟩
      · rw [flatMap_cons, hruns.flat, hrgc, cons_append, takeWhile_append_dropWhile]
      · intro gr hgr a ha b hb
        rcases mem_cons.mp hgr with rfl | hgr
        · rw [hsame a ha, hsame b hb]
        · exact hruns.together gr hgr a ha b hb
      · refine pairwise_cons.mpr ⟨fun gr hgr a ha b hb => ?_, hruns.apart⟩
        rw [hsame a ha]
        refine hless b ?_
        rw [← hruns.flat]
        exact mem_flatMap.mpr ⟨gr, hgr, hb⟩
      · intro gr hgr
        rcases mem_cons.mp hgr with rfl | hgr
        · exact ⟨row, by rw [hrgc]; exact mem_cons_self, hvals⟩
        · exact hruns.vals gr hgr

theorem exists_walk (hm : Marked g) (h : (g.rows.drop g.i).length < fuel) : ∃ groups, g.walk fuel = some groups := by
  induction fuel generalizing g with
  | zero => exact absurd h (Nat.not_lt_zero _)
  | succ fuel ih =>
    rw [walk]
    cases hrows : g.rows.drop g.i with
    | nil => exact ⟨[], by rw [next_of_nil hm hrows]⟩
    | cons row rest =>
      obtain ⟨rgc, g', hnext, hm', -, -, -, hrest⟩ := next_of_cons hm hrows
      rw [hrows, length_cons] at h
      have hle : (rest.dropWhile fun r => row.sortKey == r.sortKey).length ≤ rest.length :=
        (dropWhile_sublist _).length_le
      obtain ⟨groups, hwalk⟩ := ih hm' (by rw [hrest]; omega)
      exact ⟨rgc :: groups, by rw [hnext]; simp only [hwalk, map_some]⟩

end GroupResultSet

/-! ### Groups by values -/

/-- The rows that the result set groups. -/
def pointRows (allTime : Bool) (start stop : ℤ) (rows : List SeriesRow) : List SeriesRow :=
  (rowsWithPoints allTime (newMultiShardArrayCursors start stop true maxInt64) rows).1

/-- Rows with the same sort key have the same values. -/
def Distinguished (nilSort : Bytes) (rows : List SeriesRow) : Prop :=
  ∀ a ∈ rows, ∀ b ∈ rows, sortKey keys nilSort a.tags = sortKey keys nilSort b.tags → SameValues keys a b

variable {keys : List Bytes} {nilSort : Bytes} {rows sorted : List SeriesRow} {groups : List GroupByCursor}
  {a b : SeriesRow}

theorem sortKey_eq_of_sameValues (h : SameValues keys a b) :
    sortKey keys nilSort a.tags = sortKey keys nilSort b.tags := by
  rw [sortKey, sortKey]
  exact flatMap_congr fun k hk => by rw [h k hk]

/-- Rows with the same sort key are in the same run. -/
theorem RunsOf.eq_of_sortKey_eq (h : RunsOf keys sorted groups) {g g' : GroupByCursor}
    (hg : g ∈ groups) (hg' : g' ∈ groups)
    (ha : a ∈ g.rows) (hb : b ∈ g'.rows) (hkey : a.sortKey = b.sortKey) : g = g' := by
  by_contra hne
  let Differ (g g' : GroupByCursor) : Prop := ∀ a ∈ g.rows, ∀ b ∈ g'.rows, a.sortKey ≠ b.sortKey
  have : Std.Symm Differ := ⟨fun _ _ h a ha b hb he => h b hb a ha he.symm⟩
  have hdiffer : groups.Pairwise Differ := h.apart.imp fun hlt a ha b hb => (hlt a ha b hb).ne
  exact hdiffer.forall hg hg' hne a ha b hb hkey

/-- The runs of the sorted rows are the groups by values if and only if the sort keys tell the values apart. -/
theorem RunsOf.groupedBy_iff (h : RunsOf keys sorted groups)
    (hperm : sorted.Perm (rows.map (withSortKey keys nilSort))) :
    GroupedBy keys (rows.map (withSortKey keys nilSort)) groups ↔ Distinguished keys nilSort rows := by
  have hmem : ∀ {g : GroupByCursor} {a : SeriesRow}, g ∈ groups → a ∈ g.rows →
      ∃ r ∈ rows, withSortKey keys nilSort r = a := fun hg ha =>
    mem_map.mp (hperm.subset (h.flat ▸ mem_flatMap.mpr ⟨_, hg, ha⟩))
  constructor
  · intro hgroups a ha b hb hkey
    obtain ⟨g, hg, hga⟩ := mem_flatMap.mp (hgroups.perm.mem_iff.mpr (mem_map_of_mem ha))
    obtain ⟨g', hg', hgb⟩ := mem_flatMap.mp (hgroups.perm.mem_iff.mpr (mem_map_of_mem hb))
    obtain rfl := h.eq_of_sortKey_eq hg hg' hga hgb hkey
    exact hgroups.together g hg (withSortKey keys nilSort a) hga (withSortKey keys nilSort b) hgb
  · intro hdist
    have htogether : ∀ g ∈ groups, ∀ a ∈ g.rows, ∀ b ∈ g.rows, SameValues keys a b := by
      intro g hg a ha b hb
      obtain ⟨a, har, rfl⟩ := hmem hg ha
      obtain ⟨b, hbr, rfl⟩ := hmem hg hb
      exact hdist a har b hbr (h.together g hg _ ha _ hb)
    refine ⟨h.flat ▸ hperm, htogether, ?_, ?_⟩
    · refine h.apart.imp_of_mem fun hg hg' hlt a ha b hb hsame => ?_
      have hab := hlt a ha b hb
      obtain ⟨a, -, rfl⟩ := hmem hg ha
      obtain ⟨b, -, rfl⟩ := hmem hg' hb
      exact hab.ne (sortKey_eq_of_sameValues hsame)
    · intro g hg a ha
      obtain ⟨first, hfirst, hvals⟩ := h.vals g hg
      rw [hvals]
      exact map_congr_left (htogether g hg _ hfirst _ ha)

/-- The rows with points, sorted. -/
def sortedRows (srt : RowSort) (keys : List Bytes) (nilSort : Bytes) (allTime : Bool) (start stop : ℤ)
    (rows : List SeriesRow) : List SeriesRow :=
  srt.sort ((pointRows allTime start stop rows).map (withSortKey keys nilSort))

variable {srt : RowSort} {allTime : Bool} {start stop : ℤ} {fuel : ℕ}

/-- A new result set is before the first of the sorted rows, or it is nil and there are none. -/
theorem newGroupResultSet_cases :
    (newGroupResultSet srt keys nilSort allTime start stop rows = none ∧
        sortedRows srt keys nilSort allTime start stop rows = []) ∨
      ∃ g, newGroupResultSet srt keys nilSort allTime start stop rows = some g ∧ g.Marked ∧ g.keys = keys ∧
        g.rows.drop g.i = sortedRows srt keys nilSort allTime start stop rows := by
  rw [newGroupResultSet, groupBySort]
  dsimp only [Prod.map]
  rw [← pointRows, ← sortedRows]
  generalize sortedRows srt keys nilSort allTime start stop rows = sorted
  split_ifs with hlen
  · exact .inl ⟨rfl, length_eq_zero_iff.mp hlen⟩
  · refine .inr ⟨_, rfl, iff_of_false false_ne_true fun hnil => hlen ?_, rfl, rfl⟩
    exact length_eq_zero_iff.mpr hnil

theorem runsOf_walkGroups
    (h : walkGroups fuel (newGroupResultSet srt keys nilSort allTime start stop rows) = some groups) :
    RunsOf keys (sortedRows srt keys nilSort allTime start stop rows) groups := by
  rcases @newGroupResultSet_cases keys nilSort rows srt allTime start stop with ⟨hnew, hnil⟩ |
    ⟨g, hnew, hm, rfl, hrows⟩
  · rw [hnew] at h
    obtain rfl := some.inj h
    rw [hnil]
    exact ⟨rfl, nofun, List.Pairwise.nil, nofun⟩
  · rw [hnew] at h
    rw [← hrows]
    refine GroupResultSet.runsOf_walk hm ?_ h
    rw [hrows]
    exact srt.sorted _

theorem exists_walkGroups :
    ∃ fuel groups, walkGroups fuel (newGroupResultSet srt keys nilSort allTime start stop rows) = some groups := by
  rcases @newGroupResultSet_cases keys nilSort rows srt allTime start stop with ⟨hnew, -⟩ | ⟨g, hnew, hm, -, -⟩
  · exact ⟨0, [], by rw [hnew]; rfl⟩
  · rw [hnew]
    exact ⟨_, GroupResultSet.exists_walk hm (Nat.lt_succ_self _)⟩

/-! ### Rows with data -/

variable {m m₀ : MultiShardArrayCursors} {seen : List SeriesRow} {row : SeriesRow} {req : CursorRequest}

open MultiShardArrayCursors

/-- Whatever condition the rows before it leave in the filter, each row has points if and only if it has points by its
own condition. -/
def Unaffected (req : CursorRequest) (seen rows : List SeriesRow) : Prop :=
  ∀ pre row post, rows = pre ++ row :: post →
    row.hasPoints req (staleCond req (seen ++ pre) row) = row.hasPoints req none

theorem unaffected_nil : Unaffected req seen [] := fun _ _ _ hsplit =>
  absurd hsplit.symm (append_ne_nil_of_right_ne_nil _ (cons_ne_nil _ _))

theorem unaffected_cons :
    Unaffected req seen (row :: rows) ↔
      row.hasPoints req (staleCond req seen row) = row.hasPoints req none ∧ Unaffected req (seen ++ [row]) rows := by
  constructor
  · intro h
    refine ⟨by simpa using h [] row rows rfl, fun pre r post hsplit => ?_⟩
    simpa using h (row :: pre) r post (by rw [hsplit]; rfl)
  · rintro ⟨hrow, hrows⟩ pre r post hsplit
    cases pre with
    | nil =>
      obtain ⟨rfl, -⟩ := cons.inj hsplit
      simpa using hrow
    | cons r' pre =>
      obtain ⟨rfl, hrest⟩ := cons.inj hsplit
      simpa using hrows pre r post hrest

section

variable (hlimit : ∀ kind, 0 < (m₀.cursors kind).limit)
include hlimit

theorem seriesHasPoints_eq (h : HasRead m₀ seen m) (row : SeriesRow) :
    (seriesHasPoints m row).1 = row.hasPoints m₀.req (staleCond m₀.req seen row) := by
  have hone := h.readRow_one hlimit row
  rw [seriesHasPoints]
  generalize m.readRow row 1 = read at hone ⊢
  obtain ⟨r, m'⟩ := read
  rcases hone with ⟨rfl, hpoints⟩ | ⟨r, a, rfl, ha, hpoints⟩
  · exact hpoints.symm
  · dsimp only
    rw [ha, any_cons, any_nil, Bool.or_false]
    cases hrow : row.hasPoints m₀.req (staleCond m₀.req seen row) with
    | false => rw [hpoints.mpr hrow]; rfl
    | true =>
      have hne : a ≠ [] := fun hnil => Bool.false_ne_true ((hpoints.mp hnil).symm.trans hrow)
      exact decide_eq_true (length_pos_of_ne_nil hne)

omit hlimit in
theorem seriesHasPoints_hasRead (h : HasRead m₀ seen m) (row : SeriesRow) :
    HasRead m₀ (seen ++ [row]) (seriesHasPoints m row).2 := by
  have hread : HasRead m₀ (seen ++ [row]) (m.readRow row 1).2 := h.readRow 1
  rw [seriesHasPoints]
  generalize m.readRow row 1 = read at hread ⊢
  obtain ⟨_ | r, m'⟩ := read <;> exact hread

omit hlimit in
theorem rowsWithPoints_cons (m : MultiShardArrayCursors) (row : SeriesRow) (rows : List SeriesRow) :
    (rowsWithPoints false m (row :: rows)).1 =
      if (seriesHasPoints m row).1 then row :: (rowsWithPoints false (seriesHasPoints m row).2 rows).1
      else (rowsWithPoints false (seriesHasPoints m row).2 rows).1 := by
  rw [rowsWithPoints]
  rcases seriesHasPoints m row with ⟨_ | _, m'⟩ <;> rfl

theorem rowsWithPoints_of_unaffected (h : HasRead m₀ seen m) (hrows : Unaffected m₀.req seen rows) :
    (rowsWithPoints false m rows).1 = rows.filter (·.hasPoints m₀.req none) := by
  induction rows generalizing m seen with
  | nil => rfl
  | cons row rows ih =>
    obtain ⟨hrow, hrows⟩ := unaffected_cons.mp hrows
    rw [rowsWithPoints_cons, seriesHasPoints_eq hlimit h, hrow, filter_cons,
      ih (seriesHasPoints_hasRead h row) hrows]

/-- If all rows that the code takes have points by their own condition, they are not more than the rows that have, and
if they are as many, then no row was affected. -/
theorem unaffected_of_length (h : HasRead m₀ seen m)
    (hown : ∀ r ∈ (rowsWithPoints false m rows).1, r.hasPoints m₀.req none = true) :
    (rowsWithPoints false m rows).1.length ≤ (rows.filter (·.hasPoints m₀.req none)).length ∧
      ((rowsWithPoints false m rows).1.length = (rows.filter (·.hasPoints m₀.req none)).length →
        Unaffected m₀.req seen rows) := by
  induction rows generalizing m seen with
  | nil => exact ⟨le_rfl, fun _ => unaffected_nil⟩
  | cons row rows ih =>
    rw [rowsWithPoints_cons, seriesHasPoints_eq hlimit h] at hown ⊢
    rw [unaffected_cons, filter_cons]
    have hnext := seriesHasPoints_hasRead h row
    cases hstale : row.hasPoints m₀.req (staleCond m₀.req seen row) with
    | true =>
      rw [if_pos hstale, forall_mem_cons] at hown
      obtain ⟨hle, heq⟩ := ih hnext hown.2
      rw [if_pos rfl, if_pos hown.1, length_cons, length_cons]
      exact ⟨by omega, fun hlen => ⟨hown.1.symm, heq (by omega)⟩⟩
    | false =>
      rw [if_neg (by rw [hstale]; exact false_ne_true)] at hown
      obtain ⟨hle, heq⟩ := ih hnext hown
      rw [if_neg Bool.false_ne_true]
      cases hrow : row.hasPoints m₀.req none with
      | true =>
        rw [if_pos rfl, length_cons]
        exact ⟨by omega, fun hlen => by omega⟩
      | false =>
        rw [if_neg Bool.false_ne_true]
        exact ⟨hle, fun hlen => ⟨rfl, heq hlen⟩⟩

end

/-- The request of the result set. -/
def rangeRequest (start stop : ℤ) : CursorRequest :=
  { name := [], tags := [], field := [], ascending := true, startTime := start, endTime := stop }

/-- The rows that have points by their own condition, or all rows with the hint. -/
def dataRows (allTime : Bool) (start stop : ℤ) (rows : List SeriesRow) : List SeriesRow :=
  rows.filter fun row => allTime || row.hasPoints (rangeRequest start stop) none

theorem rowsWithPoints_allTime (m : MultiShardArrayCursors) (rows : List SeriesRow) :
    (rowsWithPoints true m rows).1 = rows := by
  induction rows with
  | nil => rfl
  | cons row rows ih => exact congrArg (row :: ·) ih

/-- The rows that are grouped are those with data if and only if no row is affected by another's condition. -/
theorem pointRows_perm_iff :
    ((pointRows allTime start stop rows).map (withSortKey keys nilSort)).Perm
        ((dataRows allTime start stop rows).map (withSortKey keys nilSort)) ↔
      (allTime = false → Unaffected (rangeRequest start stop) [] rows) := by
  have hnew : HasRead (newMultiShardArrayCursors start stop true maxInt64) []
      (newMultiShardArrayCursors start stop true maxInt64) := .new fun _ => rfl
  have hlimit : ∀ kind, 0 < ((newMultiShardArrayCursors start stop true maxInt64).cursors kind).limit := fun _ =>
    show 0 < maxInt64 by decide
  cases allTime with
  | true =>
    have hall : dataRows true start stop rows = rows := filter_eq_self.mpr fun _ _ => rfl
    rw [pointRows, rowsWithPoints_allTime, hall]
    exact iff_of_true (Perm.refl _) nofun
  | false =>
    rw [pointRows, forall_prop_of_true rfl]
    constructor
    · intro hperm
      refine (unaffected_of_length hlimit hnew fun r hr => ?_).2 ?_
      · -- whether a row has points does not depend on its sort key
        obtain ⟨r', hr', heq⟩ := mem_map.mp (hperm.subset (mem_map_of_mem hr))
        have hpoints : (withSortKey keys nilSort r').hasPoints (rangeRequest start stop) none = true :=
          (mem_filter.mp hr').2
        rw [heq] at hpoints
        exact hpoints
      · have hlen := hperm.length_eq
        rw [length_map, length_map] at hlen
        exact hlen
    · intro hrows
      rw [rowsWithPoints_of_unaffected hlimit hnew hrows]
      exact Perm.refl _

/-- Walking the result set ends, and it yields the groups by values of the rows with data if and only if no row is
affected by the condition of an earlier one and no two rows with data have the same sort key and other values. -/
theorem groupBy_groups_iff (srt : RowSort) (keys : List Bytes) (nilSort : Bytes) (allTime : Bool) (start stop : ℤ)
    (rows : List SeriesRow) :
    (∃ fuel groups, walkGroups fuel (newGroupResultSet srt keys nilSort allTime start stop rows) = some groups ∧
        GroupedBy keys ((dataRows allTime start stop rows).map (withSortKey keys nilSort)) groups) ↔
      (allTime = false → Unaffected (rangeRequest start stop) [] rows) ∧
        Distinguished keys nilSort (dataRows allTime start stop rows) := by
  rw [← @pointRows_perm_iff keys nilSort]
  constructor
  · rintro ⟨fuel, groups, hwalk, hgroups⟩
    have hruns := runsOf_walkGroups hwalk
    have hperm := (srt.perm _).symm.trans (hruns.flat ▸ hgroups.perm)
    exact ⟨hperm, (hruns.groupedBy_iff ((srt.perm _).trans hperm)).mp hgroups⟩
  · rintro ⟨hperm, hdist⟩
    obtain ⟨fuel, groups, hwalk⟩ := @exists_walkGroups keys nilSort rows srt allTime start stop
    exact ⟨fuel, groups, hwalk, ((runsOf_walkGroups hwalk).groupedBy_iff ((srt.perm _).trans hperm)).mpr hdist⟩

/-- A row with values for the tags "a" and "b", a condition and one point. -/
def tagRow (a b : Bytes) (cond : Option (Value → Bool)) (v : ℤ) : SeriesRow :=
  { integerRow cond with
    tags := [⟨[97], a⟩, ⟨[98], b⟩]
    query := [fun _ => some ⟨.integer, [[(1, .integer v)]]⟩] }

/-- Four rows with one condition, the last of which has no point that meets it, and some without a value for "b". -/
def sameCondRows : List SeriesRow :=
  [tagRow [121] [122] (some (· == .integer 5)) 5, tagRow [120] [] (some (· == .integer 5)) 5,
    tagRow [121] [122] (some (· == .integer 5)) 5, tagRow [120] [] (some (· == .integer 5)) 7]

/-- Grouped by "a" and "b" and sorted by insertion, the first three rows are in the groups of their values. -/
theorem groupBy_groups_sameCond :
    ∃ fuel groups,
      walkGroups fuel (newGroupResultSet .insertion [[97], [98]] nilSortHi false 0 9 sameCondRows) = some groups ∧
        GroupedBy [[97], [98]] ((sameCondRows.take 3).map (withSortKey [[97], [98]] nilSortHi)) groups := by
  refine (groupBy_groups_iff .insertion [[97], [98]] nilSortHi false 0 9 sameCondRows).mpr ⟨fun _ => ?_, ?_⟩
  · rw [sameCondRows]
    iterate 4 rw [unaffected_cons]
    exact ⟨rfl, rfl, rfl, rfl, unaffected_nil⟩
  · have htags : ∀ r ∈ dataRows false 0 9 sameCondRows,
        r.tags = [⟨[97], [121]⟩, ⟨[98], [122]⟩] ∨ r.tags = [⟨[97], [120]⟩, ⟨[98], []⟩] := by decide
    intro a ha b hb
    rw [SameValues]
    rcases htags a ha with ha | ha <;> rcases htags b hb with hb | hb <;> rw [ha, hb] <;> decide

/-- Grouped by "a" and "b", however the rows are sorted: the values "x,y" and "z" share a group with "x" and "y,z"; and
a row whose point 7 is the one it asks for is in no group behind a row that asks for 5. -/
theorem not_groupBy_commas :
    (¬ ∃ srt fuel groups,
      walkGroups fuel (newGroupResultSet srt [[97], [98]] nilSortHi false 0 9
        [tagRow [120, 44, 121] [122] none 5, tagRow [120] [121, 44, 122] none 5]) = some groups ∧
      GroupedBy [[97], [98]] ([tagRow [120, 44, 121] [122] none 5, tagRow [120] [121, 44, 122] none 5].map
        (withSortKey [[97], [98]] nilSortHi)) groups) ∧
    ¬ ∃ srt fuel groups,
      walkGroups fuel (newGroupResultSet srt [[97], [98]] nilSortHi false 0 9
        [tagRow [120] [122] (some (· == .integer 5)) 5,
          tagRow [121] [122] (some (· == .integer 7)) 7]) = some groups ∧
      GroupedBy [[97], [98]] ([tagRow [120] [122] (some (· == .integer 5)) 5,
        tagRow [121] [122] (some (· == .integer 7)) 7].map (withSortKey [[97], [98]] nilSortHi)) groups := by
  constructor
  · have hpoints : pointRows false 0 9 [tagRow [120, 44, 121] [122] none 5, tagRow [120] [121, 44, 122] none 5] =
        [tagRow [120, 44, 121] [122] none 5, tagRow [120] [121, 44, 122] none 5] := rfl
    rintro ⟨srt, fuel, groups, hwalk, hgroups⟩
    have hdist := ((runsOf_walkGroups hwalk).groupedBy_iff (srt.perm _)).mp hgroups
    have hsame := hdist _ (hpoints ▸ mem_cons_self) _ (hpoints ▸ mem_cons_of_mem _ mem_cons_self) (by decide)
      [97] (by decide)
    exact absurd hsame (by decide)
  · rintro ⟨srt, fuel, groups, hwalk, hgroups⟩
    have hlen := hgroups.perm.length_eq
    rw [(runsOf_walkGroups hwalk).flat, sortedRows, (srt.perm _).length_eq, length_map, length_map] at hlen
    exact absurd hlen (by decide +kernel)

end InfluxDB.Reads
