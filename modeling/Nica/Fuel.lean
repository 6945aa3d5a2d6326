import Mathlib.Order.Filter.AtTopBot.Basic
import Mathlib.Tactic.Common

/-! # Computations with fuel

A loop of a C program need not end, so a program is modelled as a function of an amount of fuel
that every iteration uses up; a run that needs more than it has gives an error.  `Returns f a`
says that with enough fuel the outcome is `a`.  An outcome is unique (`Returns.unique`), outcomes
compose along the monadic bind (`Returns.bind`), and a loop that spends one unit on an iteration has
the outcome of its unfolding (`Returns.succ`).  `Fails f e` says that with enough fuel the outcome
is the error `e`.

A loop is `Steady` when a run that ends is not changed by more fuel; then one run that ends already
shows what the loop returns (`Steady.returns`). -/

namespace Fueled

variable {ε α β : Type}

/-- With enough fuel, `f` ends with the result `a`. -/
def Returns (f : ℕ → Except ε α) (a : α) : Prop := ∀ᶠ n in Filter.atTop, f n = .ok a

theorem returns_iff {f : ℕ → Except ε α} {a : α} :
    Returns f a ↔ ∃ N, ∀ n, N ≤ n → f n = .ok a := Filter.eventually_atTop

theorem Returns.exists {f : ℕ → Except ε α} {a : α} (hf : Returns f a) : ∃ n, f n = .ok a :=
  Filter.Eventually.exists hf

/-- The result does not depend on the amount of fuel. -/
theorem Returns.unique {f : ℕ → Except ε α} {a b : α} (ha : Returns f a) (hb : Returns f b) :
    a = b := by
  obtain ⟨n, h₁, h₂⟩ := (Filter.Eventually.and ha hb).exists
  exact Except.ok.inj (h₁.symm.trans h₂)

theorem Returns.pure (a : α) : Returns (fun _ => (.ok a : Except ε α)) a :=
  Filter.Eventually.of_forall fun _ => rfl

theorem Returns.bind {f : ℕ → Except ε α} {g : α → ℕ → Except ε β} {a : α} {b : β}
    (hf : Returns f a) (hg : Returns (g a) b) : Returns (fun n => f n >>= fun x => g x n) b := by
  filter_upwards [hf, hg] with n h₁ h₂
  rw [h₁]
  exact h₂

theorem Returns.congr {f g : ℕ → Except ε α} {a : α} (hf : Returns f a) (h : ∀ n, g n = f n) :
    Returns g a := by
  filter_upwards [hf] with n hn
  rw [h, hn]

/-- One iteration of a loop spends one unit of fuel. -/
theorem Returns.succ {f g : ℕ → Except ε α} {a : α} (hf : Returns f a)
    (h : ∀ n, g (n + 1) = f n) : Returns g a := by
  obtain ⟨N, hN⟩ := returns_iff.mp hf
  refine returns_iff.mpr ⟨N + 1, fun n hn => ?_⟩
  obtain ⟨m, rfl⟩ : ∃ m, n = m + 1 := ⟨n - 1, by omega⟩
  rw [h, hN m (by omega)]

/-- With enough fuel, `f` ends with the error `e`. -/
def Fails (f : ℕ → Except ε α) (e : ε) : Prop := ∀ᶠ n in Filter.atTop, f n = .error e

theorem Fails.not_returns {f : ℕ → Except ε α} {e : ε} {a : α} (h : Fails f e) :
    ¬ Returns f a := by
  intro hr
  obtain ⟨n, h₁, h₂⟩ := (Filter.Eventually.and h hr).exists
  cases h₁.symm.trans h₂

theorem Fails.bind {f : ℕ → Except ε α} {e : ε} (h : Fails f e) (g : α → ℕ → Except ε β) :
    Fails (fun n => f n >>= fun x => g x n) e := by
  filter_upwards [h] with n hn
  rw [hn]
  rfl

/-- A sequence fails as its second part does. -/
theorem Returns.bind_fails {f : ℕ → Except ε α} {g : α → ℕ → Except ε β} {a : α} {e : ε}
    (hf : Returns f a) (hg : Fails (g a) e) : Fails (fun n => f n >>= fun x => g x n) e := by
  filter_upwards [hf, hg] with n h₁ h₂
  rw [h₁]
  exact h₂

theorem ok_bind (a : α) (f : α → Except ε β) : (Except.ok a >>= f) = f a := rfl

/-- A sequence has a result only through a result of its first part. -/
theorem ok_of_bind {x : Except ε α} {f : α → Except ε β} {b : β} (h : x >>= f = .ok b) :
    ∃ a, x = .ok a ∧ f a = .ok b := by
  cases x with
  | error e => cases h
  | ok a => exact ⟨a, rfl, h⟩

theorem ok_of_toOption {x : Except ε α} {a : α} (h : x.toOption = some a) : x = .ok a := by
  cases x with
  | error e => cases h
  | ok b => exact congrArg _ (Option.some.inj h)

/-! ### More fuel -/

/-- A result of `x` is also the result of `y`. -/
def Below (x y : Except ε α) : Prop := ∀ a, x = .ok a → y = .ok a

@[refl] theorem Below.refl (x : Except ε α) : Below x x := fun _ h => h

theorem Below.error (e : ε) (y : Except ε α) : Below (.error e) y := fun _ h => by cases h

theorem Below.bind {x y : Except ε α} {f g : α → Except ε β} (hx : Below x y)
    (hf : ∀ a, Below (f a) (g a)) : Below (x >>= f) (y >>= g) := by
  intro b hb
  cases x with
  | error e => cases hb
  | ok a =>
      rw [hx a rfl]
      exact hf a b hb

/-- One more unit of fuel keeps every result. -/
def Steady (f : ℕ → Except ε α) : Prop := ∀ n, Below (f n) (f (n + 1))

theorem Steady.const (x : Except ε α) : Steady fun _ => x := fun _ => .refl x

theorem Steady.bind {f : ℕ → Except ε α} {g : α → ℕ → Except ε β} (hf : Steady f)
    (hg : ∀ a, Steady (g a)) : Steady fun n => f n >>= fun a => g a n :=
  fun n => (hf n).bind fun a => hg a n

theorem Steady.returns {f : ℕ → Except ε α} (hf : Steady f) {n : ℕ} {a : α} (h : f n = .ok a) :
    Returns f a := by
  refine returns_iff.mpr ⟨n, fun m hm => ?_⟩
  induction m, hm using Nat.le_induction with
  | base => exact h
  | succ m _ ih => exact hf m a ih

end Fueled
