import Mathlib.Algebra.Order.BigOperators.Group.Finset
import InfluxDB.Lib.Trace

/-!
    `query/control/memory.go`: the memory that queries take from the pool of their controller.  A
    request reads the pool, decides how much to give, and takes it with a compare-and-swap, while other
    queries do the same.  Of the amounts it chooses from, "everything that is left" is the one that is
    not held against the quota of the query.
-/

namespace InfluxDB.Control

open Lib Function

/-- Arithmetic on `int64`. -/
def int64 (x : ℤ) : ℤ := Int.bmod x (2 ^ 64)

theorem int64_of_lt {x : ℤ} (hle : 0 ≤ x) (hlt : x < 2 ^ 63) : int64 x = x :=
  Int.bmod_eq_of_le (by omega) (by omega)

/-! ### The configuration -/

structure Config where
  concurrencyQuota : ℤ
  initialMemoryBytesQuotaPerQuery : ℤ
  memoryBytesQuotaPerQuery : ℤ
  maxMemoryBytes : ℤ
  queueSize : ℤ
  quota_lt : memoryBytesQuotaPerQuery < 2 ^ 63
  max_lt : maxMemoryBytes < 2 ^ 63

def Config.minMemory (c : Config) : ℤ := int64 (c.concurrencyQuota * c.initialMemoryBytesQuotaPerQuery)

def Config.validate (c : Config) (isComplete : Bool) : Except String Unit :=
  if c.concurrencyQuota ≤ 0 then .error "ConcurrencyQuota must be positive"
  else if c.memoryBytesQuotaPerQuery ≤ 0 then .error "MemoryBytesQuotaPerQuery must be positive"
  else if c.initialMemoryBytesQuotaPerQuery < 0 ∨ isComplete ∧ c.initialMemoryBytesQuotaPerQuery = 0 then
    .error "InitialMemoryBytesQuotaPerQuery must be positive"
  else if c.maxMemoryBytes < 0 then .error "MaxMemoryBytes must be positive"
  else if c.maxMemoryBytes ≠ 0 ∧ c.maxMemoryBytes < c.minMemory then
    .error <|
      s!"MaxMemoryBytes must be greater than or equal to the ConcurrencyQuota * InitialMemoryBytesQuotaPerQuery: " ++
      s!"{c.maxMemoryBytes} < {c.minMemory} ({c.concurrencyQuota} * {c.initialMemoryBytesQuotaPerQuery})"
  else if c.queueSize ≤ 0 then .error "QueueSize must be positive"
  else .ok ()

def Config.complete (c : Config) : Except String Config :=
  let config := if c.initialMemoryBytesQuotaPerQuery = 0 then
    { c with initialMemoryBytesQuotaPerQuery := c.memoryBytesQuotaPerQuery } else c
  match config.validate true with
  | .error e => .error e
  | .ok () => .ok config

/-! ### Requests -/

/-- Where a query is in `RequestMemory`: outside, before the load, or between load and swap. -/
inductive Phase where
  | idle
  | retry (want : ℕ)
  | loaded (want : ℕ) (unused : ℤ)
  deriving DecidableEq

/-- `queryMemoryManager`. -/
structure QueryMemory where
  limit : ℤ
  given : ℤ
  phase : Phase
  deriving DecidableEq

/-- The pool, the queries, and for every granted request what was wanted and what was given. -/
structure State (ι : Type*) where
  unused : ℤ
  queries : ι → QueryMemory
  grants : List (ℕ × ℤ)

/-- A step of one query. -/
inductive Step (ι : Type*) where
  | request (i : ι) (want : ℕ)
  | load (i : ι)
  | swap (i : ι)
  | release (i : ι)

variable {ι : Type*} [DecidableEq ι] (c : Config)

def Config.unlimited : Prop := ¬ c.maxMemoryBytes > 0

instance decidableUnlimited : Decidable c.unlimited := inferInstanceAs (Decidable (¬ _))

/-- `New`, and `createAllocator` for every query. -/
def Config.start : State ι where
  unused := if c.unlimited then 0 else int64 (c.maxMemoryBytes - c.minMemory)
  queries _ := ⟨c.initialMemoryBytesQuotaPerQuery, 0, .idle⟩
  grants := []

def giveMemory (limit : ℤ) (want : ℕ) (unused : ℤ) : ℤ :=
  if limit > want ∧ limit < unused ∧ int64 (limit * 2) ≤ c.memoryBytesQuotaPerQuery then limit
  else if limit > want ∧ limit < unused ∧ int64 (c.memoryBytesQuotaPerQuery - limit) > want then
    int64 (c.memoryBytesQuotaPerQuery - limit)
  else if unused > want ∧ unused < limit then unused
  else want

namespace State

variable (s : State ι)

def set (i : ι) (q : QueryMemory) : State ι := { s with queries := update s.queries i q }

/-- The static check of `RequestMemory`. -/
def request (i : ι) (want : ℕ) : State ι :=
  if int64 ((s.queries i).limit + want) > c.memoryBytesQuotaPerQuery then s
  else s.set i { s.queries i with phase := .retry want }

def load (i : ι) (want : ℕ) : State ι :=
  if c.unlimited then s.set i { s.queries i with phase := .loaded want (2 ^ 63 - 1) }
  else if s.unused < want then s.set i { s.queries i with phase := .idle }
  else s.set i { s.queries i with phase := .loaded want s.unused }

/-- The compare-and-swap, which fails if the pool is no longer what it was. -/
def swap (i : ι) (want : ℕ) (unused : ℤ) : State ι :=
  if ¬ c.unlimited ∧ s.unused ≠ unused then s.set i { s.queries i with phase := .retry want }
  else
    let given := giveMemory c (s.queries i).limit want unused
    { s.set i ⟨int64 ((s.queries i).limit + given), int64 ((s.queries i).given + given), .idle⟩ with
      unused := if c.unlimited then s.unused else int64 (unused - given)
      grants := (want, given) :: s.grants }

def release (i : ι) : State ι :=
  { s.set i ⟨c.initialMemoryBytesQuotaPerQuery, 0, .idle⟩ with
    unused := if c.unlimited then s.unused else int64 (s.unused + (s.queries i).given) }

/-- A step that the query is not ready for does nothing. -/
def step : Step ι → State ι
  | .request i want => if (s.queries i).phase = .idle then s.request c i want else s
  | .load i =>
    match (s.queries i).phase with
    | .retry want => s.load c i want
    | _ => s
  | .swap i =>
    match (s.queries i).phase with
    | .loaded want unused => s.swap c i want unused
    | _ => s
  | .release i => if (s.queries i).phase = .idle then s.release c i else s

def run (steps : List (Step ι)) : State ι := steps.foldl (step c) s

end State

/-! ### What is given -/

variable {c} {s : State ι} {i : ι} {limit unused : ℤ} {want : ℕ}

/-- No sum overflows, and everything that is left is not given if that exceeds the quota. -/
structure Modest (c : Config) (limit : ℤ) (want : ℕ) (unused : ℤ) : Prop where
  sum_lt : limit + want < 2 ^ 63
  double_lt : want < limit → limit < unused → limit * 2 < 2 ^ 63
  rest_le : want < unused → unused < limit → limit + unused ≤ c.memoryBytesQuotaPerQuery

theorem Modest.giveMemory (h : Modest c limit want unused) (hpos : 0 < limit) (hwant : want ≤ unused)
    (hquota : limit + want ≤ c.memoryBytesQuotaPerQuery) :
    want ≤ giveMemory c limit want unused ∧ giveMemory c limit want unused ≤ unused ∧
      limit + giveMemory c limit want unused ≤ c.memoryBytesQuotaPerQuery := by
  have hlt := c.quota_lt
  have hmax : int64 (c.memoryBytesQuotaPerQuery - limit) = c.memoryBytesQuotaPerQuery - limit :=
    int64_of_lt (by omega) (by omega)
  unfold Control.giveMemory
  rw [hmax]
  split_ifs with hdouble hrest hall
  · rw [int64_of_lt (by omega) (h.double_lt hdouble.1 hdouble.2.1)] at hdouble
    omega
  · have : ¬ limit * 2 ≤ c.memoryBytesQuotaPerQuery := fun hle => hdouble
      ⟨hrest.1, hrest.2.1, by rwa [int64_of_lt (by omega) (by omega)]⟩
    omega
  · have := h.rest_le hall.1 hall.2
    omega
  · omega

/-! ### Runs -/

/-- A request in flight has passed the static check, and has seen enough memory (or no bound on it). -/
def Phase.Checked (c : Config) (limit : ℤ) : Phase → Prop
  | .idle => True
  | .retry want => int64 (limit + want) ≤ c.memoryBytesQuotaPerQuery
  | .loaded want unused => int64 (limit + want) ≤ c.memoryBytesQuotaPerQuery ∧
      (want ≤ unused ∨ unused = 2 ^ 63 - 1)

structure QueryMemory.Sound (c : Config) (q : QueryMemory) : Prop where
  limit_eq : q.limit = c.initialMemoryBytesQuotaPerQuery + q.given
  given_nonneg : 0 ≤ q.given
  limit_le : q.limit ≤ c.memoryBytesQuotaPerQuery
  checked : q.phase.Checked c q.limit

/-- What is left and what is given out add up to the pool. -/
structure State.Sound [Fintype ι] (c : Config) (pool : ℤ) (s : State ι) : Prop where
  queries : ∀ i, (s.queries i).Sound c
  total : if c.unlimited then s.unused = pool else 0 ≤ s.unused ∧ s.unused + ∑ i, (s.queries i).given = pool
  grants : ∀ g ∈ s.grants, (g.1 : ℤ) ≤ g.2

/-- The compare-and-swap that succeeds is of a modest request. -/
def Allowed (c : Config) (s : State ι) : Step ι → Prop
  | .swap i => ∀ want unused, (s.queries i).phase = .loaded want unused → c.unlimited ∨ s.unused = unused →
      Modest c (s.queries i).limit want unused
  | _ => True

def AllAllowed (c : Config) (s : State ι) : List (Step ι) → Prop
  | [] => True
  | l :: steps => Allowed c s l ∧ AllAllowed c (s.step c l) steps

variable [Fintype ι] {pool : ℤ} {q : QueryMemory}

omit [DecidableEq ι] in
theorem State.Sound.given_le (h : s.Sound c pool) (i : ι) : (s.queries i).given ≤ ∑ j, (s.queries j).given :=
  Finset.single_le_sum (f := fun j => (s.queries j).given) (fun j _ => (h.queries j).given_nonneg) (Finset.mem_univ i)

section

variable (h : s.Sound c pool)
include h

/-- Changing one query and moving the difference of what it was given between it and the pool. -/
theorem State.Sound.set (hq : q.Sound c) {grants : List (ℕ × ℤ)}
    (hunused : if c.unlimited then unused = s.unused else 0 ≤ unused ∧
      unused + q.given = s.unused + (s.queries i).given)
    (hgrants : ∀ g ∈ grants, (g.1 : ℤ) ≤ g.2) :
    State.Sound c pool { s.set i q with unused := unused, grants := grants } := by
  refine ⟨?_, ?_, hgrants⟩
  · rw [State.set, forall_update_iff _ fun _ q => QueryMemory.Sound c q]
    exact ⟨hq, fun j _ => h.queries j⟩
  · have htotal := h.total
    split_ifs at hunused htotal ⊢
    · exact hunused.trans htotal
    · refine ⟨hunused.1, ?_⟩
      have := sum_update_add QueryMemory.given s.queries i q
      simp only [State.set]
      omega

/-- Only the phase of a query changes. -/
theorem State.Sound.setPhase {phase : Phase} (hphase : phase.Checked c (s.queries i).limit) :
    (s.set i { s.queries i with phase := phase }).Sound c pool := by
  have hq := h.queries i
  refine h.set (q := { s.queries i with phase := phase })
    ⟨hq.limit_eq, hq.given_nonneg, hq.limit_le, hphase⟩ ?_ h.grants
  have := h.total
  split_ifs at this ⊢
  · rfl
  · exact ⟨this.1, rfl⟩

theorem State.Sound.swap (hpool : pool < 2 ^ 63) (hinit : 0 < c.initialMemoryBytesQuotaPerQuery)
    (hphase : (s.queries i).phase = .loaded want unused)
    (hmodest : c.unlimited ∨ s.unused = unused → Modest c (s.queries i).limit want unused) :
    (s.swap c i want unused).Sound c pool := by
  have hq := h.queries i
  obtain ⟨hchecked, hwant⟩ : Phase.Checked c _ (.loaded want unused) := hphase ▸ hq.checked
  unfold State.swap
  by_cases hfail : ¬ c.unlimited ∧ s.unused ≠ unused
  · rw [if_pos hfail]
    exact h.setPhase hchecked
  · rw [if_neg hfail]
    have hm := hmodest (by tauto)
    obtain ⟨heq, hnonneg, hle, -⟩ := hq
    have hquota := c.quota_lt
    have hsum := hm.sum_lt
    rw [int64_of_lt (by omega) hsum] at hchecked
    obtain ⟨hmore, hless, hlimit⟩ := hm.giveMemory (by omega) (by omega) hchecked
    dsimp only
    generalize giveMemory c (s.queries i).limit want unused = g at hmore hless hlimit ⊢
    have hnew : int64 ((s.queries i).limit + g) = (s.queries i).limit + g := int64_of_lt (by omega) (by omega)
    have hgiven : int64 ((s.queries i).given + g) = (s.queries i).given + g := int64_of_lt (by omega) (by omega)
    rw [hnew, hgiven]
    refine h.set (q := ⟨_, _, .idle⟩) ⟨by dsimp only; omega, by dsimp only; omega, hlimit, trivial⟩ ?_
      (List.forall_mem_cons.mpr ⟨hmore, h.grants⟩)
    have htotal := h.total
    have hsum := h.given_le i
    split_ifs at htotal ⊢ with hun
    · rfl
    · have : s.unused = unused := by tauto
      rw [int64_of_lt (by omega) (by omega)]
      dsimp only
      omega

theorem State.Sound.release (hpool : pool < 2 ^ 63)
    (hinit : 0 ≤ c.initialMemoryBytesQuotaPerQuery ∧
      c.initialMemoryBytesQuotaPerQuery ≤ c.memoryBytesQuotaPerQuery) :
    (s.release c i).Sound c pool := by
  refine h.set (q := ⟨c.initialMemoryBytesQuotaPerQuery, 0, .idle⟩)
    ⟨by simp, le_rfl, hinit.2, trivial⟩ ?_ h.grants
  have htotal := h.total
  have hsum := h.given_le i
  have hnonneg := (h.queries i).given_nonneg
  split_ifs at htotal ⊢
  · rfl
  · rw [int64_of_lt (by omega) (by omega)]
    simp only
    omega

theorem State.Sound.step (hpool : pool < 2 ^ 63)
    (hinit : 0 < c.initialMemoryBytesQuotaPerQuery ∧ c.initialMemoryBytesQuotaPerQuery ≤ c.memoryBytesQuotaPerQuery)
    {l : Step ι} (hl : Allowed c s l) : (s.step c l).Sound c pool := by
  cases l with
  | request i want =>
    simp only [State.step, State.request]
    split_ifs with hidle hover
    · exact h
    · exact h.setPhase (not_lt.mp hover)
    · exact h
  | load i =>
    simp only [State.step]
    split
    next want hphase =>
      have hchecked : Phase.Checked c _ (.retry want) := hphase ▸ (h.queries i).checked
      unfold load
      split_ifs with hun hless
      · exact h.setPhase ⟨hchecked, .inr rfl⟩
      · exact h.setPhase trivial
      · exact h.setPhase ⟨hchecked, .inl (not_lt.mp hless)⟩
    next => exact h
  | swap i =>
    simp only [State.step]
    split
    next want unused hphase => exact h.swap hpool hinit.1 hphase (hl want unused hphase)
    next => exact h
  | release i =>
    simp only [State.step]
    split_ifs
    · exact h.release hpool ⟨hinit.1.le, hinit.2⟩
    · exact h

end

theorem State.Sound.run (hpool : pool < 2 ^ 63)
    (hinit : 0 < c.initialMemoryBytesQuotaPerQuery ∧ c.initialMemoryBytesQuotaPerQuery ≤ c.memoryBytesQuotaPerQuery)
    {steps : List (Step ι)} (h : s.Sound c pool) (hsteps : AllAllowed c s steps) : (s.run c steps).Sound c pool := by
  induction steps generalizing s with
  | nil => exact h
  | cons l steps ih => exact ih (h.step hpool hinit hsteps.1) hsteps.2

variable {config : Config}

theorem Config.complete_eq_ok (h : config.complete = .ok c) :
    0 < c.concurrencyQuota ∧ 0 < c.initialMemoryBytesQuotaPerQuery ∧
      (c.maxMemoryBytes ≠ 0 → c.minMemory ≤ c.maxMemoryBytes) := by
  unfold Config.complete Config.validate at h
  generalize (if config.initialMemoryBytesQuotaPerQuery = 0 then _ else config : Config) = c' at h
  dsimp only at h
  split at h
  · cases h
  next hok =>
    split_ifs at hok
    simp_all
    omega

omit [DecidableEq ι] [Fintype ι] in
/-- Without overflow, the pool at the start is what the initial quotas leave of the maximum. -/
theorem Config.start_unused (h : config.complete = .ok c)
    (hmin : ¬ c.unlimited → c.concurrencyQuota * c.initialMemoryBytesQuotaPerQuery < 2 ^ 63) :
    (c.start : State ι).unused < 2 ^ 63 ∧ (¬ c.unlimited → 0 ≤ (c.start : State ι).unused) := by
  obtain ⟨hcq, hinit, hmax⟩ := Config.complete_eq_ok h
  have hlt := c.max_lt
  have hpos : 0 ≤ c.concurrencyQuota * c.initialMemoryBytesQuotaPerQuery := (Int.mul_pos hcq hinit).le
  simp only [Config.start, Config.minMemory] at hmax ⊢
  split_ifs with hun
  · exact ⟨by decide, absurd hun⟩
  · rw [int64_of_lt hpos (hmin hun)] at hmax ⊢
    unfold Config.unlimited at hun
    rw [int64_of_lt (by omega) (by omega)]
    omega

/-- In every run whose successful swaps are of modest requests, with an initial quota within the quota
and no overflow in the size of the pool, the pool and the quotas hold. -/
theorem memory_quota_run {config : Config} (hc : config.complete = .ok c)
    (hinit : c.initialMemoryBytesQuotaPerQuery ≤ c.memoryBytesQuotaPerQuery)
    (hmin : ¬ c.unlimited → c.concurrencyQuota * c.initialMemoryBytesQuotaPerQuery < 2 ^ 63)
    (steps : List (Step ι)) (hsteps : AllAllowed c c.start steps) :
    let start : State ι := c.start
    let s := start.run c steps
    (¬ c.unlimited → 0 ≤ s.unused ∧ s.unused + ∑ i, (s.queries i).given = start.unused) ∧
      (∀ i, (s.queries i).limit ≤ c.memoryBytesQuotaPerQuery) ∧ (∀ g ∈ s.grants, (g.1 : ℤ) ≤ g.2) ∧
      ((∀ i, (s.queries i).given = 0) → s.unused = start.unused) := by
  obtain ⟨-, hpos, -⟩ := Config.complete_eq_ok hc
  obtain ⟨hpool, hnonneg⟩ : (c.start : State ι).unused < 2 ^ 63 ∧ _ := Config.start_unused hc hmin
  have hstart : (c.start : State ι).Sound c (c.start : State ι).unused := by
    refine ⟨fun _ => ⟨by simp [Config.start], le_rfl, hinit, trivial⟩, ?_, by simp [Config.start]⟩
    split_ifs with hun
    · rfl
    · exact ⟨hnonneg hun, by simp [Config.start]⟩
  have hrun := hstart.run hpool ⟨hpos, hinit⟩ hsteps
  have htotal := hrun.total
  refine ⟨fun hun => ?_, fun i => (hrun.queries i).limit_le, hrun.grants, fun hzero => ?_⟩
  · rwa [if_neg hun] at htotal
  · split_ifs at htotal
    · exact htotal
    · simpa [hzero] using htotal.2

/-- A request for 5 bytes that is granted 10. -/
theorem memory_quota_run_one_query :
    let c : Config := ⟨1, 10, 100, 100, 1, by decide, by decide⟩
    let s := (c.start : State (Fin 1)).run c [.request 0 5, .load 0, .swap 0]
    ∀ i, (s.queries i).limit ≤ 100 := by
  intro c s
  have hc : c.complete = .ok c := rfl
  refine (memory_quota_run hc (by decide) (by decide) [.request 0 5, .load 0, .swap 0] ⟨trivial,
    trivial, ?_, trivial⟩).2.1
  intro want unused hphase _
  have hloaded : Phase.loaded 5 90 = .loaded want unused := hphase
  cases hloaded
  exact ⟨by decide, by decide, by decide⟩

/-- A request for 10 bytes is given all of the 50 that are left, above the quota of 100. -/
theorem everything_left_exceeds_quota :
    let c : Config := ⟨1, 80, 100, 130, 1, by decide, by decide⟩
    c.validate true = .ok () ∧
      (((c.start : State (Fin 1)).run c [.request 0 10, .load 0, .swap 0]).queries 0).limit = 130 := by
  exact ⟨rfl, by decide⟩

end InfluxDB.Control
