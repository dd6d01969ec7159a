import InfluxDB.Tsm.PredicateMatch
import Mathlib.Data.List.TakeWhile

/-!
    Matchers over whole runs: keys are asked of a matcher and of clones of it, in any order, and every
    answer is the value of the tree on the tags of the key.
-/

namespace InfluxDB.Tsm

open Lib Models List PredicateState

variable {compile : Bytes → Option (Bytes → Bool)} {s : PredicateState} {t : Tree} {n : PredicateNode}

/-! ### Building -/

theorem PredicateCache.Valid.new (h : 0 < s.gen) (t : Tree) : PredicateCache.new.Valid compile s t :=
  ⟨Nat.zero_le _, fun heq => absurd heq h.ne⟩

/-- What was built for a right side. -/
theorem buildRight_eq_ok {o : Operand} {lit : Option Bytes} {reg : Option (Bytes → Bool)} {idx : ℕ}
    (h : buildRight compile s o.toNode = .ok (lit, reg, idx)) {d : ComparisonData} (hlit : d.rightLiteral = lit)
    (hreg : d.rightReg = reg) (hidx : d.rightIndex = idx) : o.Built compile s.locs d := by
  cases o with
  | literal v =>
    cases h
    exact ⟨hlit, hreg⟩
  | regex pattern =>
    rw [buildRight] at h
    dsimp only [Operand.toNode, Node.nodeType, Node.value] at h
    cases hc : compile pattern with
    | none =>
      rw [hc] at h
      cases h
    | some r =>
      rw [hc] at h
      cases h
      exact ⟨r, hc, hlit, hreg⟩
  | tag key =>
    rw [buildRight] at h
    dsimp only [Operand.toNode, tagNode, Node.nodeType, Node.value, NodeValue.getTagRefValue] at h
    cases hi : s.locs.idxOf? key with
    | none =>
      rw [hi] at h
      cases h
    | some i =>
      rw [hi] at h
      cases h
      exact ⟨hlit, hreg, hi.trans (congrArg some hidx.symm)⟩

theorem buildLogical_eq_ok {a b : Node} {v : NodeValue}
    (h : buildPredicateNode compile s (.mk .logicalExpression [a, b] v) = .ok n) :
    ∃ l r, buildPredicateNode compile s a = .ok l ∧ buildPredicateNode compile s b = .ok r ∧
      (v.getLogical = .and → n = .and .new l r) ∧ (v.getLogical = .or → n = .or .new l r) := by
  rw [buildPredicateNode] at h
  split at h
  · cases h
  · rename_i l hl
    split at h
    · cases h
    · rename_i r hr
      refine ⟨l, r, hl, hr, fun hv => ?_, fun hv => ?_⟩
      · rw [hv] at h
        exact (Except.ok.inj h).symm
      · rw [hv] at h
        exact (Except.ok.inj h).symm

theorem buildPredicateNode_good (hgen : 0 < s.gen)
    (h : buildPredicateNode compile s t.toNode = .ok n) : Good compile s t n := by
  induction t generalizing n with
  | and l r hl hr =>
    obtain ⟨ln, rn, hleft, hright, hand, -⟩ := buildLogical_eq_ok h
    rw [hand rfl]
    exact .and (hl hleft) (hr hright) (.new hgen _)
  | or l r hl hr =>
    obtain ⟨ln, rn, hleft, hright, -, hor⟩ := buildLogical_eq_ok h
    rw [hor rfl]
    exact .or (hl hleft) (hr hright) (.new hgen _)
  | comparison key comp right =>
    rw [Tree.toNode, buildPredicateNode, buildComparison, buildLeft] at h
    dsimp only [tagNode, Node.nodeType, Node.value, NodeValue.getTagRefValue] at h
    cases hi : s.locs.idxOf? key with
    | none =>
      rw [hi] at h
      cases h
    | some i =>
      rw [hi] at h
      rcases hr : buildRight compile s right.toNode with e | ⟨lit, reg, idx⟩
      · rw [hr] at h
        cases h
      · rw [hr] at h
        dsimp only at h
        split_ifs at h
        cases h
        have hbuilt : right.Built compile s.locs
            { comp := comp, rightReg := reg, leftLiteral := none, rightLiteral := lit
              leftIndex := i, rightIndex := idx } :=
          buildRight_eq_ok hr rfl rfl rfl
        exact .comparison rfl hi hbuilt (.new hgen _)

/-! ### A run over the tags of a key -/

/-- The value of a tag. -/
def Tags.lookup (tags : Tags) (key : Bytes) : Option Bytes := (tags.find? fun t => t.key = key).map Tag.value

namespace PredicateMatcher

/-- The state of a matcher that was built for a tree, with the calls so far. -/
structure Sound (compile : Bytes → Option (Bytes → Bool)) (t : Tree) (calls : ℕ)
    (p : PredicateMatcher) : Prop where
  good : Good compile p.state t p.root
  wf : p.state.Wf
  gen : p.state.gen ≤ calls + 1

/-- What the pieces of a key give to a matcher. -/
def feed : List (Option (Bytes × Bytes)) → PredicateMatcher → Bool × PredicateMatcher
  | [], p => (false, p)
  | none :: items, p => feed items p
  | some (tag, value) :: items, p =>
    match p.state.set tag value with
    | (false, _) => feed items p
    | (true, state) =>
      match p.root.update state with
      | (.true, root) => (true, { state := state, root := root })
      | (.false, root) => (false, { state := state, root := root })
      | (.needMore, root) => feed items { state := state, root := root }

/-- A key is popped into pieces. -/
inductive Pops (popTag : Bytes → Option (Bytes × Bytes) × Bytes) : Bytes → List (Option (Bytes × Bytes)) → Prop
  | nil : Pops popTag [] []
  | cons {key rest : Bytes} {item : Option (Bytes × Bytes)} {items : List (Option (Bytes × Bytes))} (hne : key ≠ [])
      (hpop : popTag key = (item, rest)) (hlen : rest.length < key.length) (hrest : Pops popTag rest items) :
      Pops popTag key (item :: items)

theorem matchLoop_eq_feed {popTag : Bytes → Option (Bytes × Bytes) × Bytes} {key : Bytes}
    {items : List (Option (Bytes × Bytes))}
    (h : Pops popTag key items) {fuel : ℕ} (hfuel : key.length ≤ fuel) (p : PredicateMatcher) :
    matchLoop popTag fuel key p = feed items p := by
  induction h generalizing fuel p with
  | nil => rw [matchLoop, feed]
  | @cons key rest item items hne hpop hlen _ ih =>
    obtain ⟨b, key, rfl⟩ := exists_cons_of_ne_nil hne
    obtain ⟨fuel, rfl⟩ : ∃ f, fuel = f + 1 := ⟨fuel - 1, by simp only [length_cons] at hfuel; omega⟩
    have hih : ∀ p, matchLoop popTag fuel rest p = feed items p := ih (by omega)
    rw [matchLoop, hpop]
    cases item with
    | none => exact hih p
    | some tv =>
      obtain ⟨tag, value⟩ := tv
      rw [feed]
      dsimp only
      rcases p.state.set tag value with ⟨_ | _, state⟩
      · exact hih p
      · dsimp only
        rcases p.root.update state with ⟨_ | _ | _, root⟩
        · exact hih _
        · rfl
        · rfl

/-- More tags on top of the ones that are known. -/
def merged (known : Bytes → Option Bytes) (tags : Tags) (key : Bytes) : Option Bytes :=
  (known key).or (Tags.lookup tags key)

theorem extends_merged (known : Bytes → Option Bytes) (tags : Tags) : Extends known (merged known tags) := by
  intro key v hv
  rw [merged, hv, Option.some_or]

variable {tags : Tags} {p : PredicateMatcher} {calls : ℕ}

/-- Tags that are fed one after the other give the response to all of them. -/
theorem feed_tags (hnodup : (tags.map Tag.key).Nodup) (h : p.Sound compile t calls)
    (hneed : t.response compile p.state.lookup = .needMore) (hnew : ∀ tag ∈ tags, p.state.lookup tag.key = none) :
    (feed (tags.map fun tag => some (tag.key, tag.value)) p).1 =
        decide (t.response compile (merged p.state.lookup tags) = .true) ∧
      (feed (tags.map fun tag => some (tag.key, tag.value)) p).2.Sound compile t calls := by
  induction tags generalizing p with
  | nil =>
    have hnil : merged p.state.lookup [] = p.state.lookup := by
      funext key
      exact Option.or_none
    rw [hnil, hneed]
    exact ⟨rfl, h⟩
  | cons tag tags ih =>
    obtain ⟨htag, hnodup⟩ := nodup_cons.mp hnodup
    obtain ⟨hnone, hnew⟩ := forall_mem_cons.mp hnew
    have hlookup : ∀ key, Tags.lookup (tag :: tags) key = if tag.key = key then some tag.value
        else Tags.lookup tags key := by
      intro key
      rw [Tags.lookup, find?_cons]
      by_cases hk : tag.key = key
      · simp [hk]
      · simp [hk, Tags.lookup]
    rw [map_cons, feed]
    by_cases hloc : tag.key ∈ p.state.locs
    · obtain ⟨state, hset, hgen, hlocs, hwf, hget⟩ := set_of_mem h.wf hloc tag.value
      have hext : Extends p.state.lookup state.lookup := by
        intro key v hv
        rw [hget, if_neg]
        · exact hv
        · rintro rfl
          rw [hnone] at hv
          cases hv
      have hmerged : merged state.lookup tags = merged p.state.lookup (tag :: tags) := by
        funext key
        rw [merged, merged, hget, hlookup]
        by_cases hk : key = tag.key
        · rw [if_pos hk, if_pos hk.symm, hk, hnone, Option.some_or, Option.none_or]
        · rw [if_neg hk, if_neg fun heq => hk heq.symm]
      obtain ⟨hresp, hgood⟩ := (h.good.extend hgen hlocs hext).update
      rw [hset]
      dsimp only
      rcases hupdate : p.root.update state with ⟨resp, root⟩
      rw [hupdate] at hresp hgood
      dsimp only at hresp hgood
      have hsound : Sound compile t calls { state := state, root := root } := ⟨hgood, hwf, hgen ▸ h.gen⟩
      have hstays : resp ≠ .needMore → t.response compile (merged p.state.lookup (tag :: tags)) = resp := by
        intro hne
        rw [← hmerged, Tree.response_of_extends (extends_merged _ _) (hresp ▸ hne), hresp]
      cases resp with
      | true | false =>
        rw [hstays (by decide)]
        exact ⟨rfl, hsound⟩
      | needMore =>
        have hnew' : ∀ tag' ∈ tags, state.lookup tag'.key = none := by
          intro tag' htag'
          rw [hget, if_neg, hnew tag' htag']
          intro heq
          exact htag (heq ▸ mem_map_of_mem htag')
        rw [← hmerged]
        exact ih hnodup hsound hresp.symm hnew'
    · -- The tree does not look at this tag.
      have hcongr : t.response compile (merged p.state.lookup (tag :: tags)) =
          t.response compile (merged p.state.lookup tags) := by
        refine Tree.response_congr fun key hk => ?_
        have hne : tag.key ≠ key := fun heq => hloc (heq ▸ h.good.keys_subset key hk)
        rw [merged, merged, hlookup, if_neg hne]
      rw [set_of_notMem hloc, hcongr]
      exact ih hnodup h hneed hnew

/-! ### Popping the tags of a key -/

variable {popTag : Bytes → Option (Bytes × Bytes) × Bytes}

/-- A piece is popped, whether or not another one follows. -/
def Piece (popTag : Bytes → Option (Bytes × Bytes) × Bytes) (p : Bytes) (item : Option (Bytes × Bytes)) : Prop :=
  (∀ rest, popTag (p ++ comma :: rest) = (item, rest)) ∧ popTag p = (item, [])

/-- What stands between the commas. -/
def pairText (t : Tag) : Bytes := escapeTag t.key ++ equals :: escapeTag t.value

theorem pops_pieces {p : Bytes} {item : Option (Bytes × Bytes)} (hp : Piece popTag p item)
    (htags : ∀ t ∈ tags, Piece popTag (pairText t) (some (t.key, t.value)))
    (hne : p ++ tags.flatMap Tag.text ≠ []) :
    Pops popTag (p ++ tags.flatMap Tag.text) (item :: tags.map fun t => some (t.key, t.value)) := by
  induction tags generalizing p item with
  | nil =>
    rw [flatMap_nil, append_nil] at hne ⊢
    exact .cons hne hp.2 (length_pos_of_ne_nil hne) .nil
  | cons t tags ih =>
    obtain ⟨ht, htags⟩ := forall_mem_cons.mp htags
    have htext : p ++ (t :: tags).flatMap Tag.text = p ++ comma :: (pairText t ++ tags.flatMap Tag.text) := by
      rw [flatMap_cons, Tag.text, cons_append, pairText]
    have hpair : pairText t ++ tags.flatMap Tag.text ≠ [] :=
      append_ne_nil_of_left_ne_nil (append_ne_nil_of_right_ne_nil _ (cons_ne_nil _ _)) _
    rw [htext] at hne ⊢
    refine .cons hne (hp.1 _) ?_ (ih ht htags hpair)
    simp only [length_append, length_cons]
    omega

variable {c : Byte} {a : Bytes}

theorem cutAt_append (h : c ∉ a) (b : Bytes) : cutAt c (a ++ c :: b) = (a, b) := by
  have hall : ∀ x ∈ a, decide (x ≠ c) = true := fun x hx => decide_eq_true fun heq => h (heq ▸ hx)
  rw [cutAt, takeWhile_append_of_pos hall, dropWhile_append_of_pos hall]
  simp

theorem cutAt_of_notMem (h : c ∉ a) : cutAt c a = (a, []) := by
  have hall : ∀ x ∈ a, decide (x ≠ c) = true := fun x hx => decide_eq_true fun heq => h (heq ▸ hx)
  rw [cutAt, takeWhile_eq_self_iff.mpr hall, dropWhile_eq_nil_iff.mpr hall, drop_nil]

variable {name : Bytes} {b : Bytes}

theorem piece_name (hcomma : comma ∉ name) (heq : equals ∉ name) : Piece predicatePopTag name none := by
  refine ⟨fun rest => ?_, ?_⟩
  · rw [predicatePopTag, cutAt_append hcomma, if_neg heq]
  · rw [predicatePopTag, cutAt_of_notMem hcomma, if_neg heq]

theorem piece_pair {t : Tag} (hkey : ∀ b ∈ t.key, tagStop b = false)
    (hvalue : ∀ b ∈ t.value, tagStop b = false) :
    Piece predicatePopTag (pairText t) (some (t.key, t.value)) := by
  have hnot : ∀ {b : Bytes}, (∀ x ∈ b, tagStop x = false) → comma ∉ b ∧ equals ∉ b := fun h =>
    ⟨fun hmem => Bool.noConfusion (h comma hmem), fun hmem => Bool.noConfusion (h equals hmem)⟩
  have htext : pairText t = t.key ++ equals :: t.value := by
    rw [pairText, escapeTag_of_forall hkey, escapeTag_of_forall hvalue]
  have hcomma : comma ∉ pairText t := by
    rw [htext, mem_append, mem_cons]
    rintro (h | h | h)
    · exact (hnot hkey).1 h
    · exact absurd h (by decide)
    · exact (hnot hvalue).1 h
  have hmem : equals ∈ pairText t := mem_append_right _ mem_cons_self
  have hcut : cutAt equals (pairText t) = (t.key, t.value) := by rw [htext, cutAt_append (hnot hkey).2]
  refine ⟨fun rest => ?_, ?_⟩
  · rw [predicatePopTag, cutAt_append hcomma, if_pos hmem, hcut]
  · rw [predicatePopTag, cutAt_of_notMem hcomma, if_pos hmem, hcut]

theorem endsEscaped_of_notMem (h : backslash ∉ b) : endsEscaped backslash false b = false := by
  induction b with
  | nil => rfl
  | cons a b ih =>
    obtain ⟨ha, hb⟩ := not_or.mp (mem_cons.not.mp h)
    rw [endsEscaped, decide_eq_false fun heq => ha heq.symm]
    exact ih hb

theorem plain_of_notMem (h : c ∉ b) (e : Bool) : plain backslash (· = c) e b = true := by
  induction b generalizing e with
  | nil => rfl
  | cons a b ih =>
    obtain ⟨ha, hb⟩ := not_or.mp (mem_cons.not.mp h)
    rw [plain, ih hb, Bool.and_true, decide_eq_false fun heq => ha heq.symm]
    cases e <;> rfl

theorem cutAtUnescaped_append (hplain : plain backslash (· = c) false a = true)
    (hend : endsEscaped backslash false a = false) (b : Bytes) : cutAtUnescaped c (a ++ c :: b) = some (a, b) := by
  rw [cutAtUnescaped, upTo_of_plain hplain hend (decide_eq_true rfl)]

theorem cutAtUnescaped_plain (hplain : plain backslash (· = c) false a = true) : cutAtUnescaped c a = none := by
  rw [cutAtUnescaped, upTo_plain hplain]

theorem pieceEscape_name (hcomma : comma ∉ name) (heq : equals ∉ name) (hback : backslash ∉ name) :
    Piece predicatePopTagEscape name none := by
  have hnone := cutAtUnescaped_plain (plain_of_notMem heq false)
  refine ⟨fun rest => ?_, ?_⟩
  · rw [predicatePopTagEscape, cutAtUnescaped_append (plain_of_notMem hcomma false) (endsEscaped_of_notMem hback)]
    dsimp only [Option.getD_some]
    rw [hnone, Option.map_none]
  · rw [predicatePopTagEscape, cutAtUnescaped_plain (plain_of_notMem hcomma false)]
    dsimp only [Option.getD_none]
    rw [hnone, Option.map_none]

theorem pieceEscape_pair {t : Tag} (hkey : t.key.getLast? ≠ some backslash)
    (hvalue : t.value.getLast? ≠ some backslash) :
    Piece predicatePopTagEscape (pairText t) (some (t.key, t.value)) := by
  have hplain : ∀ (c : Byte), tagStop c = true →
      ∀ (b : Bytes) (e : Bool), plain backslash (· = c) e (escapeTag b) = true := by
    intro c hc b e
    rw [escapeTag_eq]
    exact plain_escape rfl (fun a ha => of_decide_eq_true ha ▸ hc) e
  have hend : ∀ b : Bytes, b.getLast? ≠ some backslash → endsEscaped backslash false (escapeTag b) = false := by
    intro b hb
    rw [escapeTag_eq]
    exact endsEscaped_escape hb
  have hcomma : plain backslash (· = comma) false (pairText t) = true := by
    rw [pairText, plain_append, hplain comma rfl, Bool.true_and, plain, hplain comma rfl, hend _ hkey]
    rfl
  have hlast : endsEscaped backslash false (pairText t) = false := by
    rw [pairText, endsEscaped_append, endsEscaped, decide_eq_false (by decide), hend _ hvalue]
  have hpair : cutAtUnescaped equals (pairText t) = some (escapeTag t.key, escapeTag t.value) :=
    cutAtUnescaped_append (hplain equals rfl _ _) (hend _ hkey) _
  have hunescape : ∀ b, unescape backslash tagStop (escapeTag b) = b := by
    intro b
    rw [escapeTag_eq, unescape_escape rfl]
  refine ⟨fun rest => ?_, ?_⟩
  · rw [predicatePopTagEscape, cutAtUnescaped_append hcomma hlast]
    dsimp only [Option.getD_some]
    rw [hpair, Option.map_some, hunescape, hunescape]
  · rw [predicatePopTagEscape, cutAtUnescaped_plain hcomma]
    dsimp only [Option.getD_none]
    rw [hpair, Option.map_some, hunescape, hunescape]

/-! ### One call -/

/-- A series whose key can be taken apart again. -/
@[mk_iff]
structure Separable (name : Bytes) (tags : Tags) : Prop where
  noComma : comma ∉ name
  noSpace : space ∉ name
  noBackslash : backslash ∉ name
  noEquals : equals ∉ name
  nodup : (tags.map Tag.key).Nodup
  last : ∀ t ∈ tags, t.key.getLast? ≠ some backslash ∧ t.value.getLast? ≠ some backslash
  separator : ∀ t ∈ tags, ¬keyFieldSeparator <:+: t.key ∧ ¬keyFieldSeparator <:+: t.value

instance decidableSeparable (name : Bytes) (tags : Tags) : Decidable (Separable name tags) :=
  decidable_of_iff _ (separable_iff name tags).symm

theorem backslash_mem_escapeTag {a : Byte} (ha : a ∈ b) (hstop : tagStop a = true) : backslash ∈ escapeTag b := by
  rw [escapeTag_eq, escape, mem_flatMap]
  exact ⟨a, ha, by rw [if_pos hstop]; exact mem_cons_self⟩

/-- The pieces of a series key. -/
theorem pops_series (h : Separable name tags) (hne : name ++ tags.flatMap Tag.text ≠ []) :
    Pops (if backslash ∈ name ++ tags.flatMap Tag.text then predicatePopTagEscape else predicatePopTag)
      (name ++ tags.flatMap Tag.text) (none :: tags.map fun t => some (t.key, t.value)) := by
  by_cases hback : backslash ∈ name ++ tags.flatMap Tag.text
  · rw [if_pos hback]
    exact pops_pieces (pieceEscape_name h.noComma h.noEquals h.noBackslash)
      (fun t ht => pieceEscape_pair (h.last t ht).1 (h.last t ht).2) hne
  · rw [if_neg hback]
    have hfree : ∀ t ∈ tags, ∀ b ∈ t.text, b ≠ backslash := by
      rintro t ht b hb rfl
      exact hback (mem_append_right _ (mem_flatMap.mpr ⟨t, ht, hb⟩))
    refine pops_pieces (piece_name h.noComma h.noEquals) (fun t ht => piece_pair (fun b hb => ?_) fun b hb => ?_) hne
    · refine Bool.eq_false_iff.mpr fun hstop => ?_
      exact hfree t ht _ (mem_cons_of_mem _ (mem_append_left _ (backslash_mem_escapeTag hb hstop))) rfl
    · refine Bool.eq_false_iff.mpr fun hstop => ?_
      have hmem := mem_cons_of_mem equals (backslash_mem_escapeTag hb hstop)
      exact hfree t ht _ (mem_cons_of_mem _ (mem_append_right _ hmem)) rfl

theorem Separable.stored (h : Separable name tags) : Separable name tags.stored where
  noComma := h.noComma
  noSpace := h.noSpace
  noBackslash := h.noBackslash
  noEquals := h.noEquals
  nodup := h.nodup.sublist (filter_sublist.map _)
  last := fun t ht => h.last t (mem_of_mem_filter ht)
  separator := fun t ht => h.separator t (mem_of_mem_filter ht)

/-- A call answers with the value of the tree on the tags of the key. -/
theorem Sound.matchesKey (h : p.Sound compile t calls) (hcalls : calls + 2 < 2 ^ 64)
    (hsep : Separable name tags) (hname : ¬keyFieldSeparator <:+: name) :
    (p.matchesKey (makeKey name tags)).1 = t.value compile (Tags.lookup tags.stored) ∧
      (p.matchesKey (makeKey name tags)).2.Sound compile t (calls + 1) := by
  have hgen := h.gen
  have hreset : Sound compile t (calls + 1) { p with state := p.state.reset } := by
    refine ⟨h.good.reset (by omega), ?_, ?_⟩
    · rw [Wf, reset, length_map]
      exact h.wf
    · rw [reset, Nat.mod_eq_of_lt (by omega)]
      dsimp only
      omega
  have hlookup := lookup_reset p.state
  have hmerged : merged p.state.reset.lookup tags.stored = Tags.lookup tags.stored := by
    funext key
    rw [merged, hlookup, Option.none_or]
  have hneed : t.response compile p.state.reset.lookup = .needMore := by rw [hlookup, Tree.response_none]
  obtain ⟨hanswer, hsound⟩ := feed_tags hsep.stored.nodup hreset hneed fun tag _ => by rw [hlookup]
  rw [hmerged, ← Tree.value_eq] at hanswer
  have hkey := makeKey_eq hsep.noComma hsep.noSpace hsep.noBackslash tags
  have hseries : seriesAndFieldFromCompositeKey (makeKey name tags) = (makeKey name tags, none) := by
    refine seriesAndField_of_not_infix ?_
    rw [hkey]
    exact not_infix_series hname hsep.stored.separator
  rw [PredicateMatcher.matchesKey, hseries, hkey]
  by_cases hne : name ++ tags.stored.flatMap Tag.text = []
  · have hnil : tags.stored = [] := by
      have htext := (append_eq_nil_iff.mp hne).2
      cases hs : tags.stored with
      | nil => rfl
      | cons t ts =>
        rw [hs, flatMap_cons, Tag.text, cons_append] at htext
        cases htext
    rw [hnil] at hanswer hsound hne ⊢
    rw [hne]
    exact ⟨hanswer, hsound⟩
  · rw [matchLoop_eq_feed (pops_series hsep.stored hne) le_rfl]
    exact ⟨hanswer, hsound⟩

theorem sound_new {m : PredicateMatcher} (h : newProtobufPredicate compile t.toNode = .ok m) : m.Sound compile t 0 := by
  rw [newProtobufPredicate] at h
  cases hb : buildPredicateNode compile (.new (locsOf (tagRefs t.toNode))) t.toNode with
  | error e =>
    rw [hb] at h
    cases h
  | ok root =>
    rw [hb] at h
    cases h
    exact ⟨buildPredicateNode_good Nat.one_pos hb, length_replicate, le_rfl⟩

theorem clone_eq (p : PredicateMatcher) : p.clone = p := by
  rw [clone, PredicateNode.clone_eq]
  rfl

/-! ### Runs -/

/-- A call on one of the matchers: the key of a series, or a clone that joins the others. -/
inductive Call where
  | ask (i : ℕ) (name : Bytes) (tags : Tags)
  | clone (i : ℕ)

/-- The matchers behind a call, and the answer if there is one. -/
def step (ms : List PredicateMatcher) : Call → List PredicateMatcher × Option Bool
  | .ask i name tags =>
    match ms[i]? with
    | none => (ms, none)
    | some m => (ms.set i (m.matchesKey (makeKey name tags)).2, some (m.matchesKey (makeKey name tags)).1)
  | .clone i =>
    match ms[i]? with
    | none => (ms, none)
    | some m => (ms ++ [m.clone], none)

/-- The answers to calls. -/
def run : List PredicateMatcher → List Call → List (Call × Option Bool)
  | _, [] => []
  | ms, call :: calls => (call, (step ms call).2) :: run (step ms call).1 calls

/-- The key of the call can be taken apart again. -/
def Call.Separable : Call → Prop
  | .ask _ name tags => PredicateMatcher.Separable name tags ∧ ¬keyFieldSeparator <:+: name
  | .clone _ => True

/-- The answer that the tree gives. -/
def Call.Answered (compile : Bytes → Option (Bytes → Bool)) (t : Tree) : Call × Option Bool → Prop
  | (.ask _ _ tags, some answer) => answer = t.value compile (Tags.lookup tags.stored)
  | _ => True

section

variable {ms : List PredicateMatcher} {n : ℕ} (h : ∀ m ∈ ms, m.Sound compile t n)
include h

theorem step_sound (hn : n + 2 < 2 ^ 64) {call : Call}
    (hcall : call.Separable) :
    Call.Answered compile t (call, (step ms call).2) ∧ ∀ m ∈ (step ms call).1, m.Sound compile t (n + 1) := by
  have hmono : ∀ m ∈ ms, m.Sound compile t (n + 1) :=
    fun m hm => ⟨(h m hm).good, (h m hm).wf, (h m hm).gen.trans (by omega)⟩
  cases call with
  | ask i name tags =>
    rw [step]
    cases hi : ms[i]? with
    | none => exact ⟨trivial, hmono⟩
    | some m =>
      obtain ⟨hanswer, hsound⟩ := (h m (mem_of_getElem? hi)).matchesKey hn hcall.1 hcall.2
      refine ⟨hanswer, fun m' hm' => ?_⟩
      rcases mem_or_eq_of_mem_set hm' with hm' | rfl
      · exact hmono m' hm'
      · exact hsound
  | clone i =>
    rw [step]
    cases hi : ms[i]? with
    | none => exact ⟨trivial, hmono⟩
    | some m =>
      refine ⟨trivial, fun m' hm' => ?_⟩
      dsimp only at hm'
      rw [clone_eq] at hm'
      rcases mem_append.mp hm' with hm' | hm'
      · exact hmono m' hm'
      · rw [mem_singleton.mp hm']
        exact hmono m (mem_of_getElem? hi)

theorem run_answered {calls : List Call}
    (hn : n + calls.length + 1 < 2 ^ 64) (hcalls : ∀ call ∈ calls, call.Separable) :
    ∀ answer ∈ run ms calls, Call.Answered compile t answer := by
  induction calls generalizing ms n with
  | nil => exact forall_mem_nil _
  | cons call calls ih =>
    rw [length_cons] at hn
    obtain ⟨hcall, hcalls⟩ := forall_mem_cons.mp hcalls
    obtain ⟨hanswer, hsound⟩ := step_sound h (by omega) hcall
    exact forall_mem_cons.mpr ⟨hanswer, ih hsound (by omega) hcalls⟩

end

/-- Whatever keys were tested before, and whichever clone is asked, a matcher answers with the value
of its tree on the tags of the key. -/
theorem matches_iff_value (compile : Bytes → Option (Bytes → Bool)) (t : Tree) {m : PredicateMatcher}
    (hm : newProtobufPredicate compile t.toNode = .ok m) (calls : List Call) (hlen : calls.length + 1 < 2 ^ 64)
    (hcalls : ∀ call ∈ calls, call.Separable) : ∀ answer ∈ run [m] calls, Call.Answered compile t answer :=
  run_answered (forall_mem_singleton.mpr (sound_new hm)) (by omega) hcalls

/-- `host = "a"`. -/
def hostTree : Tree := .comparison [104] .equal (.literal [97])

/-- A matcher and a clone of it are asked for three series, of which one has an escaped tag. -/
def hostCalls : List Call :=
  [.ask 0 [99] [⟨[104], [97]⟩], .clone 0, .ask 1 [99] [⟨[103], [44]⟩, ⟨[104], [97]⟩],
    .ask 0 [99] [⟨[104], [98]⟩]]

theorem separable_hostCalls : ∀ call ∈ hostCalls, call.Separable := by
  have hsep : ∀ tags ∈ [[⟨[104], [97]⟩], [⟨[103], [44]⟩, ⟨[104], [97]⟩], [⟨[104], [98]⟩]],
      Separable [99] tags ∧ ¬keyFieldSeparator <:+: [99] := by decide +kernel
  refine forall_mem_cons.mpr ⟨hsep _ (by simp), forall_mem_cons.mpr ⟨trivial, ?_⟩⟩
  exact forall_mem_cons.mpr ⟨hsep _ (by simp), forall_mem_singleton.mpr (hsep _ (by simp))⟩

theorem matches_hostCalls : ∃ m, newProtobufPredicate (fun _ => none) hostTree.toNode = .ok m ∧
    (run [m] hostCalls).map Prod.snd = [some true, none, some true, some false] ∧
    ∀ answer ∈ run [m] hostCalls, Call.Answered (fun _ => none) hostTree answer := by
  refine ⟨_, rfl, ?_, matches_iff_value _ hostTree rfl hostCalls (by decide) separable_hostCalls⟩
  decide +kernel

/-- A name with the field separator cuts the key in front of the tags. -/
theorem not_matches_iff_value : ∃ m, newProtobufPredicate (fun _ => none) hostTree.toNode = .ok m ∧
    Separable keyFieldSeparator [⟨[104], [97]⟩] ∧
      (m.matchesKey (makeKey keyFieldSeparator [⟨[104], [97]⟩])).1 = false ∧
    hostTree.value (fun _ => none) (Tags.lookup (Tags.stored [⟨[104], [97]⟩])) = true :=
  ⟨_, rfl, by decide +kernel, by decide +kernel, by decide +kernel⟩

end PredicateMatcher

end InfluxDB.Tsm
