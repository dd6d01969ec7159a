import InfluxDB.Tsm.CompositeKey

/-!
    Predicates on series keys.  A predicate is a protobuf tree of comparisons; a matcher walks over
    the tags of a key and stops as soon as the tree has a definite value.

    A tree node keeps a definite response together with the generation of the state it was found in.
    Every key starts a new generation.  Regular expressions are a parameter: a pattern is compiled to
    the test whether it occurs in a text.
-/

namespace InfluxDB.Tsm

open Lib Models

/-! ### The protobuf tree -/

/-- `Node_Type`. -/
inductive NodeType where
  | logicalExpression
  | comparisonExpression
  | parenExpression
  | tagRef
  | literal
  | fieldRef
  deriving DecidableEq

/-- `Node_Comparison`. -/
inductive Comparison where
  | equal
  | notEqual
  | startsWith
  | regex
  | notRegex
  | less
  | lessEqual
  | greater
  | greaterEqual
  deriving DecidableEq

/-- `Node_Logical`. -/
inductive Logical where
  | and
  | or
  | unknown
  deriving DecidableEq

/-- The value of a node; numbers and booleans are not looked at. -/
inductive NodeValue where
  | none
  | string (v : Bytes)
  | regex (v : Bytes)
  | tagRef (v : Bytes)
  | fieldRef (v : Bytes)
  | logical (v : Logical)
  | comparison (v : Comparison)
  | other
  deriving DecidableEq

namespace NodeValue

/-- `GetTagRefValue`, which is empty for other values. -/
def getTagRefValue : NodeValue → Bytes
  | .tagRef v => v
  | _ => []

/-- `GetComparison`, which is the first one for other values. -/
def getComparison : NodeValue → Comparison
  | .comparison c => c
  | _ => .equal

/-- `GetLogical`, which is the first one for other values. -/
def getLogical : NodeValue → Logical
  | .logical l => l
  | _ => .and

end NodeValue

inductive Node where
  | mk (nodeType : NodeType) (children : List Node) (value : NodeValue)

namespace Node

def nodeType : Node → NodeType
  | mk t _ _ => t

def value : Node → NodeValue
  | mk _ _ v => v

end Node

/-! ### The state -/

inductive PredicateResponse where
  | needMore
  | true
  | false
  deriving DecidableEq

/-- The tags that a predicate looks at, each with its place among the values. -/
structure PredicateState where
  gen : ℕ
  locs : List Bytes
  values : List (Option Bytes)

namespace PredicateState

def new (locs : List Bytes) : PredicateState := { gen := 1, locs := locs, values := List.replicate locs.length none }

def clone (p : PredicateState) : PredicateState := { gen := p.gen, locs := p.locs, values := p.values }

/-- The generation is a number of 64 bits. -/
def reset (p : PredicateState) : PredicateState :=
  { p with gen := (p.gen + 1) % 2 ^ 64, values := p.values.map fun _ => none }

def set (p : PredicateState) (key value : Bytes) : Bool × PredicateState :=
  match p.locs.idxOf? key with
  | none => (false, p)
  | some i => (true, { p with values := p.values.set i (some value) })

end PredicateState

structure PredicateCache where
  gen : ℕ
  resp : PredicateResponse

namespace PredicateCache

def new : PredicateCache := { gen := 0, resp := .needMore }

def cached (p : PredicateCache) (s : PredicateState) : Option PredicateResponse :=
  if p.gen = s.gen then some p.resp else none

def store (s : PredicateState) (resp : PredicateResponse) : PredicateCache := { gen := s.gen, resp := resp }

end PredicateCache

/-! ### Tree nodes -/

/-- A comparison; a literal that is not there is nil. -/
structure ComparisonData where
  comp : Comparison
  rightReg : Option (Bytes → Bool)
  leftLiteral : Option Bytes
  rightLiteral : Option Bytes
  leftIndex : ℕ
  rightIndex : ℕ

inductive PredicateNode where
  | and (cache : PredicateCache) (left right : PredicateNode)
  | or (cache : PredicateCache) (left right : PredicateNode)
  | comparison (cache : PredicateCache) (data : ComparisonData)

def predicateEval (comp : Comparison) (left right : Bytes) (rightReg : Option (Bytes → Bool)) : Bool :=
  match comp with
  | .equal => left = right
  | .notEqual => left ≠ right
  | .startsWith => right.isPrefixOf left
  | .less => left < right
  | .lessEqual => left ≤ right
  | .greater => left > right
  | .greaterEqual => left ≥ right
  | .regex => (rightReg.map fun r => r left).getD false
  | .notRegex => (rightReg.map fun r => !r left).getD false

namespace ComparisonData

def left (d : ComparisonData) (s : PredicateState) : Option Bytes := d.leftLiteral.or (s.values[d.leftIndex]?.join)

/-- The right side; it is not looked at if there is a regular expression. -/
def right (d : ComparisonData) (s : PredicateState) : Option Bytes :=
  d.rightLiteral.or (if d.rightReg.isSome then some [] else s.values[d.rightIndex]?.join)

/-- The response, if both sides are there. -/
def response (d : ComparisonData) (s : PredicateState) : PredicateResponse :=
  match d.left s, d.right s with
  | some left, some right => if predicateEval d.comp left right d.rightReg then .true else .false
  | _, _ => .needMore

end ComparisonData

namespace PredicateNode

def clone : PredicateNode → PredicateNode
  | and cache left right => and { gen := cache.gen, resp := cache.resp } left.clone right.clone
  | or cache left right => or { gen := cache.gen, resp := cache.resp } left.clone right.clone
  | comparison cache d =>
    comparison { gen := cache.gen, resp := cache.resp }
      { comp := d.comp, rightReg := d.rightReg, leftLiteral := d.leftLiteral, rightLiteral := d.rightLiteral
        leftIndex := d.leftIndex, rightIndex := d.rightIndex }

/-- `Update`: the response, and the node with its caches. -/
def update (s : PredicateState) : PredicateNode → PredicateResponse × PredicateNode
  | and cache left right =>
    match cache.cached s with
    | some resp => (resp, and cache left right)
    | none =>
      match left.update s with
      | (.false, left) => (.false, and (.store s .false) left right)
      | (.needMore, left) => (.needMore, and cache left right)
      | (.true, left) =>
        match right.update s with
        | (.false, right) => (.false, and (.store s .false) left right)
        | (resp, right) => (resp, and cache left right)
  | or cache left right =>
    match cache.cached s with
    | some resp => (resp, or cache left right)
    | none =>
      match left.update s with
      | (.true, left) => (.true, or (.store s .true) left right)
      | (resp, left) =>
        match right.update s with
        | (.true, right) => (.true, or (.store s .true) left right)
        | (.false, right) =>
          if resp = .false then (.false, or (.store s .false) left right) else (.needMore, or cache left right)
        | (.needMore, right) => (.needMore, or cache left right)
  | comparison cache d =>
    match cache.cached s with
    | some resp => (resp, comparison cache d)
    | none =>
      match d.response s with
      | .needMore => (.needMore, comparison cache d)
      | resp => (resp, comparison (.store s resp) d)

end PredicateNode

/-! ### Building -/

inductive PredicateError where
  | invalidNumberOfChildren (n : ℕ)
  | invalidTagRef (key : Bytes)
  | invalidLeftLiteral (v : NodeValue)
  | invalidLeftNode (t : NodeType)
  | invalidRegex (pattern : Bytes)
  | invalidRightLiteral (v : NodeValue)
  | invalidRightNode (t : NodeType)
  | comparisonInvolvingRegex
  | comparisonNotAgainstRegex
  | unknownLogicalType (l : Logical)
  | unsupportedPredicateType (t : NodeType)

/-- The tag of a node, if it is a reference to one. -/
def tagRefOf (t : NodeType) (v : NodeValue) : List Bytes :=
  match t, v with
  | .tagRef, .tagRef key => [key]
  | _, _ => []

mutual

/-- The tags that a tree refers to, in the order of `walkPredicateNodes`. -/
def tagRefs : Node → List Bytes
  | .mk t children v => tagRefOf t v ++ tagRefsList children

def tagRefsList : List Node → List Bytes
  | [] => []
  | n :: ns => tagRefs n ++ tagRefsList ns

end

/-- A key gets the next place when it is met for the first time. -/
def locsOf (keys : List Bytes) : List Bytes :=
  keys.foldl (fun locs key => if key ∈ locs then locs else locs ++ [key]) []

section

variable (compile : Bytes → Option (Bytes → Bool))

/-- The left side of a comparison. -/
def buildLeft (s : PredicateState) (left : Node) : Except PredicateError (Option Bytes × ℕ) :=
  match left.nodeType with
  | .tagRef =>
    match s.locs.idxOf? left.value.getTagRefValue with
    | none => .error (.invalidTagRef left.value.getTagRefValue)
    | some idx => .ok (none, idx)
  | .literal =>
    match left.value with
    | .string v => .ok (some v, 0)
    | v => .error (.invalidLeftLiteral v)
  | t => .error (.invalidLeftNode t)

/-- The right side of a comparison: a literal, a regular expression or the place of a tag. -/
def buildRight (s : PredicateState) (right : Node) :
    Except PredicateError (Option Bytes × Option (Bytes → Bool) × ℕ) :=
  match right.nodeType with
  | .tagRef =>
    match s.locs.idxOf? right.value.getTagRefValue with
    | none => .error (.invalidTagRef right.value.getTagRefValue)
    | some idx => .ok (none, none, idx)
  | .literal =>
    match right.value with
    | .string v => .ok (some v, none, 0)
    | .regex pattern =>
      match compile pattern with
      | none => .error (.invalidRegex pattern)
      | some reg => .ok (none, some reg, 0)
    | v => .error (.invalidRightLiteral v)
  | t => .error (.invalidRightNode t)

def buildComparison (s : PredicateState) (left right : Node) (comp : Comparison) :
    Except PredicateError PredicateNode :=
  match buildLeft s left with
  | .error e => .error e
  | .ok (leftLiteral, leftIndex) =>
    match buildRight compile s right with
    | .error e => .error e
    | .ok (rightLiteral, rightReg, rightIndex) =>
      let isRegex := comp = .regex ∨ comp = .notRegex
      if rightReg.isNone ∧ isRegex then .error .comparisonInvolvingRegex
      else if rightReg.isSome ∧ ¬isRegex then .error .comparisonNotAgainstRegex
      else
        .ok (.comparison .new { comp := comp, rightReg := rightReg, leftLiteral := leftLiteral
                                rightLiteral := rightLiteral, leftIndex := leftIndex, rightIndex := rightIndex })

def buildPredicateNode (s : PredicateState) : Node → Except PredicateError PredicateNode
  | .mk .comparisonExpression [left, right] v => buildComparison compile s left right v.getComparison
  | .mk .comparisonExpression children _ => .error (.invalidNumberOfChildren children.length)
  | .mk .logicalExpression [left, right] v =>
    match buildPredicateNode s left with
    | .error e => .error e
    | .ok left =>
      match buildPredicateNode s right with
      | .error e => .error e
      | .ok right =>
        match v.getLogical with
        | .and => .ok (.and .new left right)
        | .or => .ok (.or .new left right)
        | l => .error (.unknownLogicalType l)
  | .mk .logicalExpression children _ => .error (.invalidNumberOfChildren children.length)
  | .mk t _ _ => .error (.unsupportedPredicateType t)

structure PredicateMatcher where
  state : PredicateState
  root : PredicateNode

/-- `NewProtobufPredicate`. -/
def newProtobufPredicate (root : Node) : Except PredicateError PredicateMatcher :=
  let state := PredicateState.new (locsOf (tagRefs root))
  match buildPredicateNode compile state root with
  | .error e => .error e
  | .ok root => .ok { state := state, root := root }

end

/-! ### Popping tags -/

/-- The part in front of the first byte and the part behind it; the second is empty if the byte is not there. -/
def cutAt (c : Byte) (series : Bytes) : Bytes × Bytes :=
  (series.takeWhile (· ≠ c), (series.dropWhile (· ≠ c)).drop 1)

/-- `predicatePopTag`, for keys without escapes.  A piece without an equals sign gives no tag. -/
def predicatePopTag (series : Bytes) : Option (Bytes × Bytes) × Bytes :=
  let pair := (cutAt comma series).1
  (if equals ∈ pair then some (cutAt equals pair) else none, (cutAt comma series).2)

/-- The part in front of the first byte that is not escaped and the part behind it. -/
def cutAtUnescaped (c : Byte) (series : Bytes) : Option (Bytes × Bytes) :=
  match upTo backslash (· = c) false series with
  | (_, []) => none
  | (front, _ :: rest) => some (front, rest)

/-- `predicatePopTagEscape`. -/
def predicatePopTagEscape (series : Bytes) : Option (Bytes × Bytes) × Bytes :=
  let cut := (cutAtUnescaped comma series).getD (series, [])
  ((cutAtUnescaped equals cut.1).map fun p => (unescape backslash tagStop p.1, unescape backslash tagStop p.2), cut.2)

/-! ### Matching -/

namespace PredicateMatcher

def clone (p : PredicateMatcher) : PredicateMatcher := { state := p.state.clone, root := p.root.clone }

/-- The loop over the tags of a key; a pass takes a byte or more. -/
def matchLoop (popTag : Bytes → Option (Bytes × Bytes) × Bytes) :
    ℕ → Bytes → PredicateMatcher → Bool × PredicateMatcher
  | _, [], p => (false, p)
  | 0, _ :: _, p => (false, p)
  | fuel + 1, b :: key, p =>
    match popTag (b :: key) with
    | (none, rest) => matchLoop popTag fuel rest p
    | (some (tag, value), rest) =>
      match p.state.set tag value with
      | (false, _) => matchLoop popTag fuel rest p
      | (true, state) =>
        match p.root.update state with
        | (.true, root) => (true, { state := state, root := root })
        | (.false, root) => (false, { state := state, root := root })
        | (.needMore, root) => matchLoop popTag fuel rest { state := state, root := root }

/-- `Matches`: the answer, and the matcher behind the call. -/
def matchesKey (p : PredicateMatcher) (key : Bytes) : Bool × PredicateMatcher :=
  let series := (seriesAndFieldFromCompositeKey key).1
  matchLoop (if backslash ∈ series then predicatePopTagEscape else predicatePopTag) series.length series
    { p with state := p.state.reset }

end PredicateMatcher

end InfluxDB.Tsm
