import InfluxDB.Tsm.Predicate

/-!
    A matcher answers with the value of its tree on the tags of the key.

    A response of the tree to some of the tags stays when more tags are known, unless it was that more
    are needed.  So a cached response of the current generation is the response of the node, and a
    definite response to the first tags is the one to all of them.
-/

namespace InfluxDB.Tsm

open Lib Models List Option ComparisonData PredicateCache

/-! ### Trees and their values -/

/-- The right side of a comparison with a tag. -/
inductive Operand where
  | literal (v : Bytes)
  | regex (pattern : Bytes)
  | tag (key : Bytes)

/-- A tree of comparisons whose left side is a tag. -/
inductive Tree where
  | and (left right : Tree)
  | or (left right : Tree)
  | comparison (key : Bytes) (comp : Comparison) (right : Operand)

def tagNode (key : Bytes) : Node := .mk .tagRef [] (.tagRef key)

def Operand.toNode : Operand → Node
  | literal v => .mk .literal [] (.string v)
  | regex pattern => .mk .literal [] (.regex pattern)
  | tag key => tagNode key

def Tree.toNode : Tree → Node
  | and left right => .mk .logicalExpression [left.toNode, right.toNode] (.logical .and)
  | or left right => .mk .logicalExpression [left.toNode, right.toNode] (.logical .or)
  | comparison key comp right => .mk .comparisonExpression [tagNode key, right.toNode] (.comparison comp)

section

variable (compile : Bytes → Option (Bytes → Bool)) (tags : Bytes → Option Bytes)

/-- A comparison, if both sides are there. -/
def Operand.eval (comp : Comparison) (left : Bytes) : Operand → Option Bool
  | literal v => some (predicateEval comp left v none)
  | regex pattern => some (predicateEval comp left [] (compile pattern))
  | tag key => (tags key).map fun right => predicateEval comp left right none

/-- The value of a tree on tags: a comparison on a missing tag is false. -/
def Tree.value : Tree → Bool
  | and left right => left.value && right.value
  | or left right => left.value || right.value
  | comparison key comp right => ((tags key).bind fun left => right.eval compile tags comp left).getD false

/-- The response of two sides of which one has to hold. -/
def PredicateResponse.or : PredicateResponse → PredicateResponse → PredicateResponse
  | .true, _ => .true
  | _, .true => .true
  | .false, .false => .false
  | _, _ => .needMore

/-- The response of a tree to some of the tags. -/
def Tree.response : Tree → PredicateResponse
  | and left right =>
    match left.response with
    | .true => right.response
    | resp => resp
  | or left right => left.response.or right.response
  | comparison key comp right =>
    match (tags key).bind fun left => right.eval compile tags comp left with
    | none => .needMore
    | some true => .true
    | some false => .false

end

variable {compile : Bytes → Option (Bytes → Bool)} {tags tags' : Bytes → Option Bytes}

theorem Tree.value_eq (t : Tree) : t.value compile tags = decide (t.response compile tags = .true) := by
  induction t with
  | and left right hl hr =>
    rw [value, response, hl, hr]
    cases left.response compile tags <;> simp
  | or left right hl hr =>
    rw [value, response, hl, hr]
    cases left.response compile tags <;> cases right.response compile tags <;> rfl
  | comparison key comp right =>
    rw [value, response]
    rcases (tags key).bind fun left => right.eval compile tags comp left with _ | _ | _
    · rfl
    · rfl
    · rfl

/-- More tags are known. -/
def Extends (tags tags' : Bytes → Option Bytes) : Prop := ∀ key v, tags key = some v → tags' key = some v

theorem PredicateResponse.or_eq_of_definite {a b a' b' : PredicateResponse} (ha : a ≠ .needMore → a' = a)
    (hb : b ≠ .needMore → b' = b) (h : a.or b ≠ .needMore) : a'.or b' = a.or b := by
  cases a with
  | true =>
    rw [ha (by decide)]
    rfl
  | false =>
    rw [ha (by decide)]
    cases b with
    | needMore => exact absurd rfl h
    | true | false => rw [hb (by decide)]
  | needMore =>
    cases b with
    | needMore | false => exact absurd rfl h
    | true =>
      rw [hb (by decide)]
      cases a' <;> rfl

theorem Tree.response_of_extends (h : Extends tags tags') {t : Tree} (ht : t.response compile tags ≠ .needMore) :
    t.response compile tags' = t.response compile tags := by
  induction t with
  | and left right hl hr =>
    rw [response] at ht
    rw [response, response]
    cases hresp : left.response compile tags with
    | needMore => exact absurd (by rw [hresp]) ht
    | true =>
      rw [hresp] at ht hl
      rw [hl (by decide)]
      exact hr ht
    | false =>
      rw [hresp] at hl
      rw [hl (by decide)]
  | or left right hl hr => exact PredicateResponse.or_eq_of_definite hl hr ht
  | comparison key comp right =>
    rw [response] at ht
    rw [response, response]
    have hbind : (tags key).bind (fun left => right.eval compile tags comp left) ≠ none := by
      intro hnone
      exact ht (by rw [hnone])
    obtain ⟨b, hb⟩ := ne_none_iff_exists'.mp hbind
    obtain ⟨left, hleft, heval⟩ := bind_eq_some_iff.mp hb
    have heval' : right.eval compile tags' comp left = some b := by
      cases right with
      | literal v | regex pattern => exact heval
      | tag key' =>
        obtain ⟨v, hv, rfl⟩ := map_eq_some_iff.mp heval
        rw [Operand.eval, h key' v hv, map_some]
    rw [hb, h key left hleft, bind_some, heval']

/-- Without tags, more are needed. -/
theorem Tree.response_none (t : Tree) : t.response compile (fun _ => none) = .needMore := by
  induction t with
  | and left right hl _ => rw [response, hl]
  | or left right hl hr =>
    rw [response, hl, hr]
    rfl
  | comparison key comp right => rfl

/-- The tags that a tree looks at. -/
def Operand.keys : Operand → List Bytes
  | literal _ => []
  | regex _ => []
  | tag key => [key]

def Tree.keys : Tree → List Bytes
  | and left right => left.keys ++ right.keys
  | or left right => left.keys ++ right.keys
  | comparison key _ right => key :: right.keys

theorem Tree.response_congr {t : Tree} (h : ∀ key ∈ t.keys, tags key = tags' key) :
    t.response compile tags = t.response compile tags' := by
  induction t with
  | and left right hl hr | or left right hl hr =>
    rw [response, response, hl fun key hk => h key (mem_append_left _ hk),
      hr fun key hk => h key (mem_append_right _ hk)]
  | comparison key comp right =>
    have heval : ∀ left, right.eval compile tags comp left = right.eval compile tags' comp left := by
      intro left
      cases right with
      | literal v => rfl
      | regex pattern => rfl
      | tag key' => rw [Operand.eval, Operand.eval, h key' (mem_cons_of_mem _ mem_cons_self)]
    rw [response, response, h key mem_cons_self, funext heval]

/-! ### The state -/

namespace PredicateState

/-- The tags that are known. -/
def lookup (s : PredicateState) (key : Bytes) : Option Bytes := (s.locs.idxOf? key).bind fun i => s.values[i]?.join

/-- Every place has a value or nil. -/
def Wf (s : PredicateState) : Prop := s.values.length = s.locs.length

theorem lookup_reset (s : PredicateState) : s.reset.lookup = fun _ => none := by
  funext key
  rw [lookup, reset]
  cases s.locs.idxOf? key with
  | none => rfl
  | some i =>
    rw [bind_some, getElem?_map]
    cases s.values[i]? <;> rfl

theorem set_of_notMem {s : PredicateState} {key : Bytes} (h : key ∉ s.locs) (value : Bytes) :
    s.set key value = (false, s) := by
  rw [set, idxOf?_eq_none_iff.mpr h]

/-- What a set tag changes. -/
theorem set_of_mem {s : PredicateState} (hs : s.Wf) {key : Bytes} (h : key ∈ s.locs) (value : Bytes) :
    ∃ s', s.set key value = (true, s') ∧ s'.gen = s.gen ∧ s'.locs = s.locs ∧ s'.Wf ∧
      ∀ k, s'.lookup k = if k = key then some value else s.lookup k := by
  obtain ⟨i, hi⟩ := ne_none_iff_exists'.mp (idxOf?_eq_none_iff.not.mpr (not_not.mpr h))
  have hfound : ∀ {k : Bytes} {j : ℕ}, s.locs.idxOf? k = some j → s.locs[j]? = some k := by
    intro k j hj
    obtain ⟨hlt, hget, -⟩ := findIdx?_eq_some_iff_getElem.mp hj
    rw [getElem?_eq_getElem hlt]
    exact congrArg some (beq_iff_eq.mp hget)
  have hlt : i < s.values.length := by
    rw [hs]
    exact (List.getElem?_eq_some_iff.mp (hfound hi)).1
  refine ⟨{ s with values := s.values.set i (some value) }, by rw [set, hi], rfl, rfl, ?_, fun k => ?_⟩
  · rw [Wf, length_set]
    exact hs
  · rw [lookup, lookup]
    by_cases hk : k = key
    · rw [if_pos hk, hk]
      rw [hi, bind_some, getElem?_set_self hlt]
      rfl
    · rw [if_neg hk]
      cases hj : s.locs.idxOf? k with
      | none => rfl
      | some j =>
        have hne : i ≠ j := by
          rintro rfl
          exact hk (some.inj ((hfound hj).symm.trans (hfound hi)))
        rw [bind_some, bind_some, getElem?_set_ne hne]

end PredicateState

/-! ### Nodes -/

theorem PredicateNode.clone_eq (n : PredicateNode) : n.clone = n := by
  induction n with
  | and cache l r hl hr | or cache l r hl hr => rw [clone, hl, hr]
  | comparison cache d => rfl

/-- A cache is not ahead of the state, and a response of this generation is the one of the tree. -/
def PredicateCache.Valid (compile : Bytes → Option (Bytes → Bool)) (s : PredicateState)
    (t : Tree) (cache : PredicateCache) :
    Prop :=
  cache.gen ≤ s.gen ∧ (cache.gen = s.gen → cache.resp ≠ .needMore ∧ cache.resp = t.response compile s.lookup)

/-- The right side of a comparison, as it was built. -/
def Operand.Built (compile : Bytes → Option (Bytes → Bool)) (locs : List Bytes)
    (d : ComparisonData) : Operand → Prop
  | literal v => d.rightLiteral = some v ∧ d.rightReg = none
  | regex pattern => ∃ reg, compile pattern = some reg ∧ d.rightLiteral = none ∧ d.rightReg = some reg
  | tag key => d.rightLiteral = none ∧ d.rightReg = none ∧ locs.idxOf? key = some d.rightIndex

/-- A node was built for a tree, and its caches are valid. -/
inductive Good (compile : Bytes → Option (Bytes → Bool)) (s : PredicateState) : Tree → PredicateNode → Prop
  | and {l r : Tree} {ln rn : PredicateNode} {cache : PredicateCache} (hl : Good compile s l ln)
      (hr : Good compile s r rn)
      (hcache : cache.Valid compile s (.and l r)) : Good compile s (.and l r) (.and cache ln rn)
  | or {l r : Tree} {ln rn : PredicateNode} {cache : PredicateCache} (hl : Good compile s l ln)
      (hr : Good compile s r rn)
      (hcache : cache.Valid compile s (.or l r)) : Good compile s (.or l r) (.or cache ln rn)
  | comparison {key : Bytes} {right : Operand} {cache : PredicateCache} {d : ComparisonData}
      (hleft : d.leftLiteral = none) (hindex : s.locs.idxOf? key = some d.leftIndex)
      (hright : right.Built compile s.locs d)
      (hcache : cache.Valid compile s (.comparison key d.comp right)) :
      Good compile s (.comparison key d.comp right) (.comparison cache d)

variable {s s' : PredicateState} {t : Tree} {n : PredicateNode}

theorem PredicateCache.Valid.store {resp : PredicateResponse} (hresp : t.response compile s.lookup = resp)
    (hne : resp ≠ .needMore) : (store s resp).Valid compile s t := ⟨le_rfl, fun _ => ⟨hne, hresp.symm⟩⟩

section

variable (h : Good compile s t n)
include h

/-- A node for another state with the same places. -/
theorem Good.mono (hlocs : s'.locs = s.locs)
    (hvalid : ∀ t cache, Valid compile s t cache → Valid compile s' t cache) :
    Good compile s' t n := by
  induction h with
  | and _ _ hcache hl hr => exact .and hl hr (hvalid _ _ hcache)
  | or _ _ hcache hl hr => exact .or hl hr (hvalid _ _ hcache)
  | comparison hleft hindex hright hcache =>
    exact .comparison hleft (hlocs ▸ hindex) (hlocs ▸ hright) (hvalid _ _ hcache)

/-- A new generation makes all caches stale. -/
theorem Good.reset (hgen : s.gen + 1 < 2 ^ 64) : Good compile s.reset t n := by
  refine h.mono rfl fun t cache hvalid => ?_
  have hreset : s.reset.gen = s.gen + 1 := Nat.mod_eq_of_lt hgen
  have hle := hvalid.1
  refine ⟨by omega, fun heq => ?_⟩
  omega

theorem Good.extend (hgen : s'.gen = s.gen) (hlocs : s'.locs = s.locs)
    (hext : Extends s.lookup s'.lookup) : Good compile s' t n := by
  refine h.mono hlocs fun t cache hvalid => ⟨hgen ▸ hvalid.1, fun heq => ?_⟩
  obtain ⟨hne, hresp⟩ := hvalid.2 (hgen ▸ heq)
  exact ⟨hne, by rw [hresp, Tree.response_of_extends hext (hresp ▸ hne)]⟩

theorem Good.keys_subset : ∀ key ∈ t.keys, key ∈ s.locs := by
  have hmem : ∀ {key : Bytes} {i : ℕ}, s.locs.idxOf? key = some i → key ∈ s.locs := by
    intro key i hi
    by_contra hnot
    rw [idxOf?_eq_none_iff.mpr hnot] at hi
    cases hi
  induction h with
  | and _ _ _ hl hr | or _ _ _ hl hr =>
    intro key hk
    exact (mem_append.mp hk).elim (hl key) (hr key)
  | @comparison key right cache d hleft hindex hright hcache =>
    intro key' hk
    rcases mem_cons.mp hk with rfl | hk
    · exact hmem hindex
    · cases right with
      | literal v | regex pattern => exact absurd hk not_mem_nil
      | tag key'' =>
        rw [mem_singleton.mp hk]
        exact hmem hright.2.2

end

theorem ComparisonData.response_eq {key : Bytes} {right : Operand} {d : ComparisonData} (hleft : d.leftLiteral = none)
    (hindex : s.locs.idxOf? key = some d.leftIndex) (hright : right.Built compile s.locs d) :
    d.response s = (Tree.comparison key d.comp right).response compile s.lookup := by
  have hl : d.left s = s.lookup key := by rw [left, hleft, none_or, PredicateState.lookup, hindex, bind_some]
  rw [response, hl, Tree.response]
  cases hkey : s.lookup key with
  | none => rfl
  | some left =>
    rw [bind_some]
    cases right with
    | literal v =>
      obtain ⟨hlit, hreg⟩ := hright
      rw [right, hlit, some_or, hreg, Operand.eval]
      dsimp only
      cases predicateEval d.comp left v none <;> rfl
    | regex pattern =>
      obtain ⟨reg, hcompile, hlit, hreg⟩ := hright
      rw [right, hlit, none_or, hreg, Operand.eval, hcompile]
      dsimp only [isSome_some]
      rw [if_pos rfl]
      dsimp only
      cases predicateEval d.comp left [] (some reg) <;> rfl
    | tag key' =>
      obtain ⟨hlit, hreg, hidx⟩ := hright
      have hr : d.right s = s.lookup key' := by
        rw [right, hlit, none_or, hreg, PredicateState.lookup, hidx]
        rfl
      rw [hr, hreg, Operand.eval]
      cases s.lookup key' with
      | none => rfl
      | some r =>
        rw [map_some]
        dsimp only
        cases predicateEval d.comp left r none <;> rfl

theorem PredicateCache.cached_eq_some {cache : PredicateCache} {resp : PredicateResponse}
    (hvalid : cache.Valid compile s t)
    (h : cache.cached s = some resp) : resp = t.response compile s.lookup := by
  rw [cached] at h
  split_ifs at h with hgen
  rw [← some.inj h, (hvalid.2 hgen).2]

theorem Tree.response_and (compile : Bytes → Option (Bytes → Bool)) (tags : Bytes → Option Bytes)
    (l r : Tree) : (Tree.and l r).response compile tags =
    if l.response compile tags = .true then r.response compile tags else l.response compile tags := by
  rw [response]
  cases l.response compile tags <;> rfl

/-- `Update` responds for the tree, and keeps the caches valid. -/
theorem Good.update (h : Good compile s t n) :
    (n.update s).1 = t.response compile s.lookup ∧ Good compile s t (n.update s).2 := by
  induction h with
  | @and l r ln rn cache hl hr hcache ihl ihr =>
    rw [PredicateNode.update]
    rcases hul : ln.update s with ⟨left, ln'⟩
    rcases hur : rn.update s with ⟨right, rn'⟩
    rw [hul] at ihl
    rw [hur] at ihr
    obtain ⟨rfl, hl'⟩ := ihl
    obtain ⟨rfl, hr'⟩ := ihr
    have hresp := Tree.response_and compile s.lookup l r
    cases hc : cache.cached s with
    | some resp => exact ⟨cached_eq_some hcache hc, .and hl hr hcache⟩
    | none =>
      cases hleft : l.response compile s.lookup with
      | needMore =>
        rw [hleft, if_neg (by decide)] at hresp
        exact ⟨hresp.symm, .and hl' hr hcache⟩
      | false =>
        rw [hleft, if_neg (by decide)] at hresp
        exact ⟨hresp.symm, .and hl' hr (.store hresp (by decide))⟩
      | true =>
        rw [hleft, if_pos rfl] at hresp
        cases hright : r.response compile s.lookup with
        | needMore | true => exact ⟨(hresp.trans hright).symm, .and hl' hr' hcache⟩
        | false => exact ⟨(hresp.trans hright).symm, .and hl' hr' (.store (hresp.trans hright) (by decide))⟩
  | @or l r ln rn cache hl hr hcache ihl ihr =>
    rw [PredicateNode.update]
    rcases hul : ln.update s with ⟨left, ln'⟩
    rcases hur : rn.update s with ⟨right, rn'⟩
    rw [hul] at ihl
    rw [hur] at ihr
    obtain ⟨rfl, hl'⟩ := ihl
    obtain ⟨rfl, hr'⟩ := ihr
    have hresp : (Tree.or l r).response compile s.lookup =
        (l.response compile s.lookup).or (r.response compile s.lookup) := rfl
    cases hc : cache.cached s with
    | some resp => exact ⟨cached_eq_some hcache hc, .or hl hr hcache⟩
    | none =>
      cases hleft : l.response compile s.lookup with
      | true =>
        rw [hleft] at hresp
        exact ⟨hresp.symm, .or hl' hr (.store hresp (by decide))⟩
      | needMore =>
        cases hright : r.response compile s.lookup with
        | needMore | false =>
          rw [hleft, hright] at hresp
          exact ⟨hresp.symm, .or hl' hr' hcache⟩
        | true =>
          rw [hleft, hright] at hresp
          exact ⟨hresp.symm, .or hl' hr' (.store hresp (by decide))⟩
      | false =>
        cases hright : r.response compile s.lookup with
        | needMore =>
          rw [hleft, hright] at hresp
          exact ⟨hresp.symm, .or hl' hr' hcache⟩
        | true | false =>
          rw [hleft, hright] at hresp
          exact ⟨hresp.symm, .or hl' hr' (.store hresp (by decide))⟩
  | @comparison key right cache d hleft hindex hright hcache =>
    have hresp := response_eq hleft hindex hright
    rw [PredicateNode.update]
    cases hc : cache.cached s with
    | some resp => exact ⟨cached_eq_some hcache hc, .comparison hleft hindex hright hcache⟩
    | none =>
      cases hd : d.response s with
      | needMore => exact ⟨hd.symm.trans hresp, .comparison hleft hindex hright hcache⟩
      | true | false =>
        exact ⟨hd.symm.trans hresp, .comparison hleft hindex hright (.store (hresp.symm.trans hd) (by decide))⟩

end InfluxDB.Tsm
