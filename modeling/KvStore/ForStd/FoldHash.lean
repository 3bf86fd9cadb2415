import Mathlib.Logic.Function.Basic
import Mathlib.Data.List.Basic

/-!
# Hashes that take in one symbol after another

If each step of a hash is injective in the state and in the symbol, then inputs of one
length that differ in one place have different hashes (`StepInjective.foldl_set_ne`).
-/

variable {σ α : Type*}

/-- A step is injective in the state, and in the symbol that it takes in. -/
structure StepInjective (step : σ → α → σ) : Prop where
  state : ∀ symbol, Function.Injective fun state => step state symbol
  symbol : ∀ state, Function.Injective (step state)

namespace StepInjective

variable {step : σ → α → σ}

/-- Different states stay different. -/
theorem foldl_injective (h : StepInjective step) (symbols : List α) :
    Function.Injective fun state => symbols.foldl step state := by
  induction symbols with
  | nil => exact fun _ _ => id
  | cons symbol symbols ih =>
    intro state state' heq
    exact h.state symbol (ih heq)

/-- A symbol that is replaced by another changes the hash. -/
theorem foldl_set_ne (h : StepInjective step) {symbols : List α} {i : Nat}
    (hi : i < symbols.length) {symbol : α} (hne : symbol ≠ symbols[i]) (state : σ) :
    (symbols.set i symbol).foldl step state ≠ symbols.foldl step state := by
  induction symbols generalizing i state with
  | nil => cases hi
  | cons first symbols ih =>
    cases i with
    | zero =>
      intro heq
      have hstates : step state symbol = step state first := h.foldl_injective symbols heq
      exact hne (h.symbol state hstates)
    | succ i => exact ih (Nat.lt_of_succ_lt_succ hi) hne (step state first)

end StepInjective
