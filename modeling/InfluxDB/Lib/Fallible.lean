import Mathlib.Data.List.Basic

/-!
    Computations that may fail: what a sequence of steps says about each of them when it succeeds.
-/

namespace InfluxDB.Lib

universe u

variable {ε σ : Type*}

variable {α β : Type u}

variable {x : Except ε α} {f : α → Except ε β} {b : β}

@[simp] theorem ok_bind (a : α) (f : α → Except ε β) : (Except.ok a >>= f) = f a := rfl

@[simp] theorem error_bind (e : ε) (f : α → Except ε β) : (Except.error e >>= f) = .error e := rfl

theorem bind_eq_ok : x.bind f = .ok b ↔ ∃ a, x = .ok a ∧ f a = .ok b := by
  cases x with
  | error e | ok a => simp [Except.bind]

/-- A computation succeeds with a result that has a property. -/
def Yields (x : Except ε α) (P : α → Prop) : Prop := ∃ a, x = .ok a ∧ P a

variable {P : α → Prop} {x : Except ε α} {y : Except ε α} {Q : β → Prop} {l : List α} {c : Prop} {a : α}

theorem Yields.ok (h : P a) : Yields (.ok a : Except ε α) P := ⟨a, rfl, h⟩

theorem Yields.imp {Q : α → Prop} (h : Yields x P) (hPQ : ∀ a, P a → Q a) : Yields x Q := by
  obtain ⟨a, ha, hP⟩ := h
  exact ⟨a, ha, hPQ a hP⟩

theorem Yields.bind (h : Yields x P) (hf : ∀ a, P a → Yields (f a) Q) : Yields (x >>= f) Q := by
  obtain ⟨a, rfl, hP⟩ := h
  exact hf a hP

theorem Yields.ite [Decidable c] (hx : c → Yields x P) (hy : ¬ c → Yields y P) :
    Yields (if c then x else y) P := by
  split_ifs with h
  · exact hx h
  · exact hy h

/-- If a computation succeeds, its result has a property. -/
def Returns (x : Except ε α) (P : α → Prop) : Prop := ∀ a, x = .ok a → P a

theorem Returns.ok (h : P a) : Returns (.ok a : Except ε α) P := fun _ ha => Except.ok.inj ha ▸ h

theorem Returns.bind (hf : ∀ a, x = .ok a → Returns (f a) Q) : Returns (x >>= f) Q := by
  intro b hb
  obtain ⟨a, ha, hfa⟩ := bind_eq_ok.mp hb
  exact hf a ha b hfa

theorem Returns.ite [Decidable c] (hx : c → Returns x P) (hy : ¬ c → Returns y P) :
    Returns (if c then x else y) P := by
  split_ifs with h
  · exact hx h
  · exact hy h

theorem forM_eq_ok {f : α → Except ε PUnit} : forM l f = .ok () ↔ ∀ a ∈ l, f a = .ok () := by
  induction l with
  | nil => simp [pure, Except.pure]
  | cons a l ih => cases h : f a <;> simp [h, ih]

/-- Each step of a fold that succeeds has succeeded. -/
theorem exists_step_of_foldlM {f : σ → α → Except ε σ} {s s' : σ} (h : l.foldlM f s = .ok s') :
    ∀ a ∈ l, ∃ t t', f t a = .ok t' := by
  induction l generalizing s with
  | nil => exact nofun
  | cons x l ih =>
    obtain ⟨t, hx, hrest⟩ := bind_eq_ok.mp (List.foldlM_cons.symm.trans h)
    intro a ha
    rcases List.mem_cons.mp ha with rfl | ha
    · exact ⟨s, t, hx⟩
    · exact ih hrest a ha

end InfluxDB.Lib
