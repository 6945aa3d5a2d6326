import Mathlib.Data.List.Nodup
import Mathlib.Data.List.Perm.Basic
import Mathlib.Tactic.Common

/-! # Dictionaries

A dictionary is a list of pairs, no two with equal keys under a Boolean comparison (`Distinct`).
`store` replaces the pair of an equal key, `erase` deletes it and `find` looks it up.  Which keys
may be used is a predicate `D`, on which the comparison is an equivalence. -/

namespace Dictionary

variable {K V : Type} (compare : K → K → Bool)

def erase (key : K) (d : List (K × V)) : List (K × V) := d.filter fun p => !compare p.1 key

def store (key : K) (value : V) (d : List (K × V)) : List (K × V) :=
  (key, value) :: erase compare key d

def find (key : K) (d : List (K × V)) : Option V :=
  (d.find? fun p => compare p.1 key).map Prod.snd

/-- Pairs with equal keys are the same pair, and none stands twice. -/
structure Distinct (D : K → Prop) (d : List (K × V)) : Prop where
  nodup : d.Nodup
  keys : ∀ p ∈ d, D p.1
  eq_of_compare : ∀ p ∈ d, ∀ q ∈ d, compare p.1 q.1 = true → p = q

section lemmas
variable {compare} {D : K → Prop} {key : K} {value : V} {d : List (K × V)} {p : K × V}

theorem mem_erase : p ∈ erase compare key d ↔ p ∈ d ∧ compare p.1 key = false := by
  simp [erase]

theorem mem_store : p ∈ store compare key value d ↔
    p = (key, value) ∨ (p ∈ d ∧ compare p.1 key = false) := by
  rw [store, List.mem_cons, mem_erase]

theorem Distinct.nil : Distinct compare D ([] : List (K × V)) :=
  ⟨List.nodup_nil, by simp, by simp⟩

theorem Distinct.erase (h : Distinct compare D d) (key : K) :
    Distinct compare D (erase compare key d) where
  nodup := h.nodup.filter _
  keys p hp := h.keys p (mem_erase.mp hp).1
  eq_of_compare p hp q hq := h.eq_of_compare p (mem_erase.mp hp).1 q (mem_erase.mp hq).1

/-- Storing keeps the keys apart when the new key equals itself and comparison with it is
symmetric. -/
theorem Distinct.store (h : Distinct compare D d) (hk : D key) (hrefl : compare key key = true)
    (hsymm : ∀ k, D k → compare key k = compare k key) (value : V) :
    Distinct compare D (store compare key value d) where
  nodup := by
    apply List.nodup_cons.mpr
    refine ⟨?_, (h.erase key).nodup⟩
    intro hmem
    have hne := (mem_erase.mp hmem).2
    rw [hrefl] at hne
    cases hne
  keys p hp := by
    cases mem_store.mp hp with
    | inl heq =>
        rw [heq]
        exact hk
    | inr hold => exact h.keys p hold.1
  eq_of_compare p hp q hq hpq := by
    cases mem_store.mp hp with
    | inl heq =>
        cases mem_store.mp hq with
        | inl heq' => rw [heq, heq']
        | inr hold =>
            rw [heq, hsymm q.1 (h.keys q hold.1), hold.2] at hpq
            cases hpq
    | inr hold =>
        cases mem_store.mp hq with
        | inl heq =>
            rw [heq, hold.2] at hpq
            cases hpq
        | inr hold' => exact h.eq_of_compare p hold.1 q hold'.1 hpq

/-- A lookup finds the value of the pair with an equal key. -/
theorem find_eq_some (huniq : ∀ q ∈ d, compare q.1 key = true → q = p) (hp : p ∈ d)
    (hc : compare p.1 key = true) : find compare key d = some p.2 := by
  unfold find
  cases hf : d.find? fun q => compare q.1 key with
  | none =>
      have hno := List.find?_eq_none.mp hf p hp
      exact absurd hc hno
  | some q =>
      have heq := List.find?_some hf
      have hq := huniq q (List.mem_of_find?_eq_some hf) heq
      rw [hq]
      rfl

theorem find_eq_none : find compare key d = none ↔ ∀ p ∈ d, compare p.1 key = false := by
  unfold find
  rw [Option.map_eq_none_iff, List.find?_eq_none]
  simp

end lemmas
end Dictionary
