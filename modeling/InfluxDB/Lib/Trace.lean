import Mathlib.Algebra.BigOperators.Fin
import Mathlib.Data.Nat.Find
import Mathlib.Order.Basic

/-!
    Infinite runs of a system that takes one labelled step after the other, and what happens in them in the
    end; and totals over the parts of a system.
-/

namespace InfluxDB.Lib

variable {σ ℓ : Type*}

/-- The states of a run. -/
def trace (step : σ → ℓ → σ) (start : σ) (labels : ℕ → ℓ) : ℕ → σ
  | 0 => start
  | n + 1 => step (trace step start labels n) (labels n)

/-- What holds at the start and is kept by every step holds throughout. -/
theorem trace_invariant {step : σ → ℓ → σ} {start : σ} {labels : ℕ → ℓ} {P : σ → Prop}
    (hstart : P start)
    (hstep : ∀ s l, P s → P (step s l)) (n : ℕ) : P (trace step start labels n) := by
  induction n with
  | zero => exact hstart
  | succ n ih => exact hstep _ _ ih

variable {P Q : ℕ → Prop}

/-- What is kept until something happens still holds when that happens. -/
theorem exists_until {n : ℕ} (hP : P n) (hkeep : ∀ m ≥ n, P m → ¬Q m → P (m + 1)) (hQ : ∃ m ≥ n, Q m) :
    ∃ m ≥ n, Q m ∧ P m := by
  classical
  obtain ⟨k, hk, hmin⟩ : ∃ k, (n ≤ k ∧ Q k) ∧ ∀ m < k, ¬(n ≤ m ∧ Q m) :=
    ⟨Nat.find hQ, Nat.find_spec hQ, fun m hm => Nat.find_min hQ hm⟩
  have hPk : ∀ d, n + d ≤ k → P (n + d) := by
    intro d
    induction d with
    | zero => exact fun _ => hP
    | succ d ih =>
      intro hle
      exact hkeep (n + d) (Nat.le_add_right n d) (ih (by omega))
        fun hq => hmin (n + d) (by omega) ⟨Nat.le_add_right n d, hq⟩
  refine ⟨k, hk.1, hk.2, ?_⟩
  have := hPk (k - n) (by omega)
  rwa [Nat.add_sub_cancel' hk.1] at this

/-- Where a measure goes down as long as something does not happen, it happens. -/
theorem exists_of_measure (μ : ℕ → ℕ) (h : ∀ n, P n → ∃ m ≥ n, Q m ∨ P m ∧ μ m < μ n)
    (n : ℕ) (hP : P n) :
    ∃ m ≥ n, Q m := by
  induction hμ : μ n using Nat.strong_induction_on generalizing n with
  | _ k ih =>
    obtain ⟨m, hm, hQ | ⟨hPm, hlt⟩⟩ := h n hP
    · exact ⟨m, hm, hQ⟩
    · obtain ⟨m', hm', hQ⟩ := ih (μ m) (hμ ▸ hlt) m hPm rfl
      exact ⟨m', hm.trans hm', hQ⟩

/-- A total over the parts of a system, of which a step changes one. -/
theorem sum_update_add {ι α M : Type*} [Fintype ι] [DecidableEq ι] [AddCommMonoid M] (g : α → M) (f : ι → α)
    (i : ι) (v : α) :
    ∑ j, g (Function.update f i v j) + g (f i) = ∑ j, g (f j) + g v := by
  have hrest : ∑ j ∈ Finset.univ.erase i, g (Function.update f i v j) = ∑ j ∈ Finset.univ.erase i, g (f j) :=
    Finset.sum_congr rfl fun j hj => by rw [Function.update_of_ne (Finset.ne_of_mem_erase hj)]
  rw [← Finset.add_sum_erase _ _ (Finset.mem_univ i),
    ← Finset.add_sum_erase _ (fun j => g (f j)) (Finset.mem_univ i),
    hrest, Function.update_self, add_comm (g v), add_comm (g (f i)), add_right_comm]

end InfluxDB.Lib
