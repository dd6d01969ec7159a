import InfluxDB.Tsm.CacheWrites

/-!
    The types of the values in a cache entry.  The tag of an entry tells the types apart, but it is
    zero both for unsigned values and for an entry without values, and a tag of zero is not checked.
    So the values of an entry have one type as long as no write adds values of another type to an entry
    with that tag.
-/

namespace InfluxDB.Tsm

open Lib List

namespace CacheRing

/-- The values are not all of the type of the entry, or of one type where it has no values. -/
def Conflicts (e : Option Entry) (values : Values Value) : Prop :=
  ∃ v ∈ values, ∃ w ∈ (e.map Entry.values).getD [] ++ values, v.2.kind ≠ w.2.kind

/-- The values of the entry have one type. -/
def Homogeneous (e : Entry) : Prop := ∀ v ∈ e.values, ∀ w ∈ e.values, v.2.kind = w.2.kind

/-- The tag is the type of the values. -/
structure Tagged (e : Entry) : Prop where
  tag : ∀ v ∈ e.values, valueType v.2 = e.vtype
  empty : e.values = [] → e.vtype = 0

theorem Tagged.homogeneous {e : Entry} (h : Tagged e) : Homogeneous e := fun v hv w hw =>
  (valueType_eq_iff _ _).mp ((h.tag v hv).trans (h.tag w hw).symm)

variable {values : Values Value} {e : Option Entry}

theorem any_ne_iff {n : ℕ} :
    (values.any fun w => n ≠ valueType w.2) = true ↔ ¬ ∀ w ∈ values, valueType w.2 = n := by
  simp only [any_eq_true, decide_eq_true_eq, not_forall, ne_comm, exists_prop]

/-- Values of one type that are the first ones get their tag. -/
theorem tagged_of_not_conflicts {v : ℤ × Value}
    (h : ¬ Conflicts none (v :: values)) : Tagged { values := v :: values, vtype := valueType v.2 } := by
  refine ⟨fun w hw => (valueType_eq_iff _ _).mpr ?_, nofun⟩
  by_contra hne
  exact h ⟨w, hw, v, mem_cons_self, hne⟩

/-- Without a conflict the values are written, and the tag stays right. -/
theorem writeEntry_of_not_conflicts (he : ∀ e' ∈ e, Tagged e')
    (h : ¬ Conflicts e values) : ∃ e', writeEntry e values = .ok e' ∧ Tagged e' := by
  cases values with
  | nil =>
    cases e with
    | none => exact ⟨_, rfl, nofun, fun _ => rfl⟩
    | some e => exact ⟨e, rfl, he e rfl⟩
  | cons v values =>
    cases e with
    | none =>
      have htag := tagged_of_not_conflicts h
      rw [writeEntry, Entry.newEntryValues, if_neg fun hany => any_ne_iff.mp hany htag.tag]
      exact ⟨_, rfl, htag⟩
    | some e =>
      rw [writeEntry, Entry.add]
      have hsame : ∀ w ∈ e.values, ∀ u ∈ v :: values, valueType u.2 = e.vtype := fun w hw u hu => by
        rw [← (he e rfl).tag w hw, valueType_eq_iff]
        by_contra hne
        exact h ⟨u, hu, w, mem_append_left _ hw, hne⟩
      by_cases hnil : e.values = []
      · have hnone : ¬ Conflicts none (v :: values) := by
          rintro ⟨u, hu, w, hw, hne⟩
          exact h ⟨u, hu, w, mem_append_right _ hw, hne⟩
        rw [if_neg fun hc => hc.1 ((he e rfl).empty hnil), if_pos (by rw [hnil]; rfl)]
        exact ⟨_, rfl, tagged_of_not_conflicts hnone⟩
      · obtain ⟨w, hw⟩ := exists_mem_of_ne_nil _ hnil
        rw [if_neg fun hc => any_ne_iff.mp hc.2 (hsame w hw), if_neg fun h₀ => hnil (eq_nil_of_length_eq_zero h₀)]
        refine ⟨_, rfl, fun u hu => ?_, fun hnil' => absurd hnil' (by simp)⟩
        rcases mem_append.mp hu with hu | hu
        · exact (he e rfl).tag u hu
        · exact hsame w hw u hu

/-- A conflict is found unless the tag of the entry is zero. -/
theorem writeEntry_of_conflicts (he : ∀ e' ∈ e, Tagged e')
    (h : Conflicts e values) (htag : ∀ e' ∈ e, e'.vtype ≠ 0) :
    writeEntry e values = .error .fieldTypeConflict := by
  obtain ⟨u, hu, w, hw, hne⟩ := h
  cases values with
  | nil => cases hu
  | cons v values =>
    cases e with
    | none =>
      rw [writeEntry, Entry.newEntryValues, if_pos]
      refine any_ne_iff.mpr fun hall => hne ?_
      rw [← valueType_eq_iff, hall u hu, hall w hw]
    | some e =>
      rw [writeEntry, Entry.add, if_pos]
      refine ⟨htag e rfl, any_ne_iff.mpr fun hall => hne ?_⟩
      rw [← valueType_eq_iff, hall u hu]
      rcases mem_append.mp hw with hw | hw
      · exact ((he e rfl).tag w hw).symm
      · exact (hall w hw).symm

/-- Nothing is checked against a tag of zero. -/
theorem writeEntry_of_untagged {e : Entry} (values : Values Value) (h : e.vtype = 0) :
    ∃ e', writeEntry (some e) values = .ok e' ∧ e'.values = e.values ++ values := by
  rcases writeEntry_cases (some e) values with herr | hok
  · cases values with
    | nil => cases herr
    | cons v values =>
      rw [writeEntry, Entry.add, if_neg fun hc => hc.1 h] at herr
      split_ifs at herr
  · exact hok

end CacheRing

/-! ### Runs of writes -/

/-- A call of `Write` or `WriteMulti`. -/
inductive WriteCall where
  | write (key : Bytes) (values : Values Value)
  | writeMulti (values : FinMap Bytes (Values Value))

namespace WriteCall

open CacheRing

/-- The values of the call by key. -/
def batch : WriteCall → FinMap Bytes (Values Value)
  | .write key values => AList.singleton key values
  | .writeMulti values => values

variable (c : Cache)

/-- The error that the call returns, if it does, and the cache it leaves. -/
def call : WriteCall → Option CacheError × Cache
  | .write key values => c.write key values
  | .writeMulti values => c.writeMulti values

/-- The cache after a run of calls. -/
def run (calls : List WriteCall) : Cache := calls.foldl (fun c w => (w.call c).2) c

/-- After the call the values of each entry have one type, and a key whose values are not of the type
of its entry was left as it was, under a type conflict. -/
def KeepsTypes (w : WriteCall) : Prop :=
  (∀ k e, (w.call c).2.store.lookup k = some e → Homogeneous e) ∧
    ∀ k values, w.batch.lookup k = some values → Conflicts (c.store.lookup k) values →
      (w.call c).1 = some .fieldTypeConflict ∧ (w.call c).2.store.lookup k = c.store.lookup k

/-- A key whose values are not of the type of its entry has no entry or one with a tag, and the call
is within the size limit. -/
def Checked (w : WriteCall) : Prop :=
  ∀ k values, w.batch.lookup k = some values → Conflicts (c.store.lookup k) values →
    ¬ c.overLimit (FinMap.sumBy (fun _ v => Values.size v) w.batch) = true ∧
      ∀ e ∈ c.store.lookup k, e.vtype ≠ 0

theorem call_eq (w : WriteCall) : w.call c = c.writeMulti w.batch := by
  cases w with
  | write key values => exact c.write_eq_writeMulti key values
  | writeMulti values => rfl

variable {c : Cache} {w : WriteCall}

theorem written_tagged {e : Option Entry} {values : Values Value} (he : ∀ e' ∈ e, Tagged e')
    (hchecked : Conflicts e values → ∀ e' ∈ e, e'.vtype ≠ 0) : ∀ e' ∈ written e values, Tagged e' := by
  by_cases hc : Conflicts e values
  · rw [written, writeEntry_of_conflicts he hc (hchecked hc)]
    exact he
  · obtain ⟨e', hok, htagged⟩ := writeEntry_of_not_conflicts he hc
    rw [written, hok]
    rintro e'' ⟨⟩
    exact htagged

section

variable (h : Checked c w) (hc : ∀ k, ∀ e ∈ c.store.lookup k, Tagged e)
include h hc

/-- Checked calls keep the tags right. -/
theorem Checked.tagged : ∀ k, ∀ e ∈ (w.call c).2.store.lookup k, Tagged e := by
  rw [call_eq]
  by_cases hlimit : c.overLimit (FinMap.sumBy (fun _ v => Values.size v) w.batch) = true
  · rw [(Cache.writeMulti_overLimit hlimit).1]
    exact hc
  · intro k
    rw [(Cache.writeMulti_spec hlimit).1.lookup k]
    cases hk : w.batch.lookup k with
    | none => exact hc k
    | some values => exact written_tagged (hc k) fun hconflicts => (h k values hk hconflicts).2

theorem Checked.keepsTypes : KeepsTypes c w := by
  refine ⟨fun k e he => (h.tagged hc k e he).homogeneous, fun k values hk hconflicts => ?_⟩
  obtain ⟨hlimit, htag⟩ := h k values hk hconflicts
  have herr := writeEntry_of_conflicts (hc k) hconflicts htag
  obtain ⟨hwrote, hfails⟩ := Cache.writeMulti_spec hlimit
  rw [call_eq]
  refine ⟨hfails ⟨k, values, hk, herr⟩, ?_⟩
  rw [hwrote.lookup k, hk, Option.elim_some, written, herr]

end

/-- A call that is not checked breaks the types. -/
theorem KeepsTypes.checked (h : KeepsTypes c w) : Checked c w := by
  intro k values hk hconflicts
  obtain ⟨hhomogeneous, hconflict⟩ := h
  rw [call_eq] at hhomogeneous hconflict
  have hlimit : ¬ c.overLimit (FinMap.sumBy (fun _ v => Values.size v) w.batch) = true := by
    intro hlimit
    obtain ⟨-, size, limit, herr⟩ := Cache.writeMulti_overLimit hlimit
    rw [(hconflict k values hk hconflicts).1] at herr
    cases herr
  refine ⟨hlimit, fun e he htag => ?_⟩
  -- The values are added to the entry whose tag is zero, which then has values of two types.
  obtain ⟨e', hok, hvalues⟩ := writeEntry_of_untagged values htag
  have hlookup : (c.writeMulti w.batch).2.store.lookup k = some e' := by
    rw [(Cache.writeMulti_spec hlimit).1.lookup k, hk, Option.elim_some, written, Option.mem_def.mp he, hok]
  obtain ⟨v, hv, u, hu, hne⟩ := hconflicts
  rw [Option.mem_def.mp he, Option.map_some, Option.getD_some, ← hvalues] at hu
  exact hne (hhomogeneous k e' hlookup v (hvalues ▸ mem_append_right _ hv) u hu)

theorem run_append (a b : List WriteCall) : run c (a ++ b) = run (run c a) b := foldl_append

/-- In a run of checked calls the tags are right. -/
theorem tagged_run {calls : List WriteCall} (h : ∀ pre w post, calls = pre ++ w :: post → Checked (run c pre) w)
    (hc : ∀ k, ∀ e ∈ c.store.lookup k, Tagged e) : ∀ k, ∀ e ∈ (run c calls).store.lookup k, Tagged e := by
  induction calls using reverseRecOn with
  | nil => exact hc
  | append_singleton calls w ih =>
    rw [run_append]
    refine (h calls w [] rfl).tagged (ih fun pre w' post hsplit => h pre w' (post ++ [w]) ?_)
    rw [hsplit, append_assoc]
    rfl

/-- In a run of writes from an empty cache, every entry has values of one type at all times and every
write of another type is refused, exactly if every call is checked. -/
theorem run_keepsTypes_iff (maxSize : ℕ) (calls : List WriteCall) :
    (∀ pre w post, calls = pre ++ w :: post → KeepsTypes (run (newCache maxSize) pre) w) ↔
      ∀ pre w post, calls = pre ++ w :: post → Checked (run (newCache maxSize) pre) w := by
  constructor
  · intro h pre w post hsplit
    exact (h pre w post hsplit).checked
  · intro h pre w post hsplit
    refine (h pre w post hsplit).keepsTypes (tagged_run (fun pre' w' post' hsplit' => ?_) ?_)
    · exact h pre' w' (post' ++ w :: post) (by rw [hsplit, hsplit']; simp)
    · intro k e he
      cases he

/-- A float is added to an entry of unsigned values. -/
theorem not_keepsTypes_unsigned :
    ∃ e, (run (newCache 0) [.write [1] [(1, .unsigned 7)], .write [1] [(2, .float 0)]]).store.lookup [1] = some e ∧
      ¬ Homogeneous e :=
  ⟨⟨[(1, .unsigned 7), (2, .float 0)], 0⟩, rfl, fun h =>
    absurd (h (1, .unsigned 7) (by simp) (2, .float 0) (by simp)) (by decide)⟩

end WriteCall

end InfluxDB.Tsm
