import Mathlib.Data.List.ReduceOption
import Mathlib.Data.List.Pairwise
import Mathlib.Tactic.Common

/-! # Association rows with holes

A row is a list of places; a place holds a key/value pair or is a hole.  This is what a chain of
a hash table looks like when a removal only blanks the place it empties.  Keys are compared by a
Boolean relation `eqv`, which is symmetric and transitive on the keys in use (`PerOn`); a key need
not be equal to itself.

`put` overwrites the pair with an equal key, or else fills the last hole, or else adds a place at
the end; `erase` makes a hole of the pair with an equal key.  Over the pairs of a row in which no
two keys are equal (`Uniq`) they are the update and the deletion of a finite map
(`mem_pairs_put`, `mem_pairs_erase`).  A row is dense when it is the single hole or has none;
`put` keeps it so (`Dense.put`).  A key is unhidden when no hole stands before it. -/

namespace Rows

variable {K V : Type}

/-- A list of places, each a key/value pair or a hole. -/
abbrev Row (K V : Type) := List (Option (K × V))

/-- `eqv` is a partial equivalence on the keys in `D`. -/
structure PerOn (D : K → Prop) (eqv : K → K → Bool) : Prop where
  symm : ∀ a b, D a → D b → eqv a b = true → eqv b a = true
  trans : ∀ a b c, D a → D b → D c → eqv a b = true → eqv b c = true → eqv a c = true

/-- The pairs of a row, in order. -/
def pairs (r : Row K V) : List (K × V) := r.reduceOption

@[simp] theorem pairs_nil : pairs ([] : Row K V) = [] := rfl

@[simp] theorem pairs_hole (r : Row K V) : pairs (none :: r) = pairs r :=
  List.reduceOption_cons_of_none r

@[simp] theorem pairs_pair (p : K × V) (r : Row K V) : pairs (some p :: r) = p :: pairs r :=
  List.reduceOption_cons_of_some p r

@[simp] theorem pairs_append (r s : Row K V) : pairs (r ++ s) = pairs r ++ pairs s :=
  List.reduceOption_append r s

theorem mem_pairs {r : Row K V} {p : K × V} : p ∈ pairs r ↔ some p ∈ r :=
  List.reduceOption_mem_iff

/-- A row without holes is its list of pairs. -/
theorem eq_map_pairs {r : Row K V} (h : none ∉ r) : r = (pairs r).map some := by
  induction r with
  | nil => rfl
  | cons x r ih =>
      rw [List.mem_cons, not_or] at h
      cases x with
      | none => exact absurd rfl h.1
      | some p => rw [pairs_pair, List.map_cons, ← ih h.2]

section operations
variable (eqv : K → K → Bool)

/-- Some pair of the row has a key equal to `k`. -/
def has (r : Row K V) (k : K) : Bool := (pairs r).any fun p => eqv p.1 k

/-- Overwrite the first pair with a key equal to `k`. -/
def replace (k : K) (v : V) : Row K V → Row K V
  | [] => []
  | none :: r => none :: replace k v r
  | some p :: r => if eqv p.1 k then some (k, v) :: r else some p :: replace k v r

/-- Make a hole of the first pair with a key equal to `k`. -/
def erase (k : K) : Row K V → Row K V
  | [] => []
  | none :: r => none :: erase k r
  | some p :: r => if eqv p.1 k then none :: r else some p :: erase k r

/-- Whether the row has a hole. -/
def holed (r : Row K V) : Bool := r.any Option.isNone

/-- Put `p` in the last hole. -/
def fillLast (p : K × V) : Row K V → Row K V
  | [] => []
  | x :: r => if holed r then x :: fillLast p r else x.elim (some p :: r) fun q => some q :: r

/-- Store `v` under `k`. -/
def put (r : Row K V) (k : K) (v : V) : Row K V :=
  if has eqv r k then replace eqv k v r
  else if holed r then fillLast (k, v) r
  else r ++ [some (k, v)]

end operations

variable {eqv : K → K → Bool}

theorem holed_iff {r : Row K V} : holed r = true ↔ none ∈ r := by
  simp [holed]

theorem has_iff {r : Row K V} {k : K} : has eqv r k = true ↔ ∃ p ∈ pairs r, eqv p.1 k = true := by
  simp [has]

theorem has_eq_false {r : Row K V} {k : K} :
    has eqv r k = false ↔ ∀ p ∈ pairs r, eqv p.1 k = false := by
  simp [has]

@[simp] theorem has_hole (r : Row K V) (k : K) : has eqv (none :: r) k = has eqv r k := by
  simp [has]

@[simp] theorem has_pair (p : K × V) (r : Row K V) (k : K) :
    has eqv (some p :: r) k = (eqv p.1 k || has eqv r k) := by
  simp [has]

@[simp] theorem has_append (r s : Row K V) (k : K) :
    has eqv (r ++ s) k = (has eqv r k || has eqv s k) := by
  simp [has]

/-! ### Where an operation acts -/

/-- The first pair with an equal key. -/
theorem exists_first {r : Row K V} {k : K} (h : has eqv r k = true) :
    ∃ r₁ p r₂, r = r₁ ++ some p :: r₂ ∧ has eqv r₁ k = false ∧ eqv p.1 k = true := by
  induction r with
  | nil => simp [has] at h
  | cons x r ih =>
      cases x with
      | none =>
          obtain ⟨r₁, p, r₂, rfl, h₁, hp⟩ := ih (by simpa using h)
          exact ⟨none :: r₁, p, r₂, rfl, by simpa using h₁, hp⟩
      | some q =>
          by_cases hq : eqv q.1 k = true
          · exact ⟨[], q, r, rfl, rfl, hq⟩
          · obtain ⟨r₁, p, r₂, rfl, h₁, hp⟩ := ih (by simpa [hq] using h)
            exact ⟨some q :: r₁, p, r₂, rfl, by simp [hq, h₁], hp⟩

/-- The last hole. -/
theorem exists_last_hole {r : Row K V} (h : none ∈ r) :
    ∃ r₁ r₂, r = r₁ ++ none :: r₂ ∧ none ∉ r₂ := by
  obtain ⟨s, t, hst, hs⟩ := List.eq_append_cons_of_mem (List.mem_reverse.mpr h)
  refine ⟨t.reverse, s.reverse, ?_, fun hm => hs (List.mem_reverse.mp hm)⟩
  rw [← List.reverse_reverse r, hst]
  simp

theorem replace_eq {r₁ r₂ : Row K V} {p : K × V} {k : K} (v : V) (h₁ : has eqv r₁ k = false)
    (hp : eqv p.1 k = true) :
    replace eqv k v (r₁ ++ some p :: r₂) = r₁ ++ some (k, v) :: r₂ := by
  induction r₁ with
  | nil => simp [replace, hp]
  | cons x r₁ ih =>
      cases x with
      | none => simpa [replace] using ih (by simpa using h₁)
      | some q =>
          have hq : eqv q.1 k = false ∧ has eqv r₁ k = false := by simpa using h₁
          simpa [replace, hq.1] using ih hq.2

theorem erase_eq {r₁ r₂ : Row K V} {p : K × V} {k : K} (h₁ : has eqv r₁ k = false)
    (hp : eqv p.1 k = true) : erase eqv k (r₁ ++ some p :: r₂) = r₁ ++ none :: r₂ := by
  induction r₁ with
  | nil => simp [erase, hp]
  | cons x r₁ ih =>
      cases x with
      | none => simpa [erase] using ih (by simpa using h₁)
      | some q =>
          have hq : eqv q.1 k = false ∧ has eqv r₁ k = false := by simpa using h₁
          simpa [erase, hq.1] using ih hq.2

theorem fillLast_eq {r₁ r₂ : Row K V} (p : K × V) (h₂ : none ∉ r₂) :
    fillLast p (r₁ ++ none :: r₂) = r₁ ++ some p :: r₂ := by
  have hb : holed r₂ = false := by rw [← Bool.not_eq_true, holed_iff]; exact h₂
  induction r₁ with
  | nil => simp [fillLast, hb]
  | cons x r₁ ih =>
      have hc : holed (r₁ ++ none :: r₂) = true := holed_iff.mpr (by simp)
      simp [fillLast, hc, ih]

/-- The three ways in which `put` acts, with the place it writes. -/
theorem put_cases (eqv : K → K → Bool) (r : Row K V) (k : K) (v : V) :
    (∃ r₁ p r₂, r = r₁ ++ some p :: r₂ ∧ has eqv r₁ k = false ∧ eqv p.1 k = true ∧
      put eqv r k v = r₁ ++ some (k, v) :: r₂) ∨
    (has eqv r k = false ∧ ∃ r₁ r₂, r = r₁ ++ none :: r₂ ∧ none ∉ r₂ ∧
      put eqv r k v = r₁ ++ some (k, v) :: r₂) ∨
    (has eqv r k = false ∧ none ∉ r ∧ put eqv r k v = r ++ [some (k, v)]) := by
  cases hh : has eqv r k with
  | true =>
      obtain ⟨r₁, p, r₂, rfl, h₁, hp⟩ := exists_first hh
      exact .inl ⟨r₁, p, r₂, rfl, h₁, hp, by rw [put, if_pos hh, replace_eq v h₁ hp]⟩
  | false =>
      by_cases hn : none ∈ r
      · obtain ⟨r₁, r₂, rfl, h₂⟩ := exists_last_hole hn
        refine .inr (.inl ⟨rfl, r₁, r₂, rfl, h₂, ?_⟩)
        rw [put, hh, if_neg (by simp), if_pos (holed_iff.mpr hn), fillLast_eq _ h₂]
      · refine .inr (.inr ⟨rfl, hn, ?_⟩)
        rw [put, hh, if_neg (by simp), if_neg (by rwa [holed_iff])]

/-- The two ways in which `erase` acts. -/
theorem erase_cases (eqv : K → K → Bool) (r : Row K V) (k : K) :
    (∃ r₁ p r₂, r = r₁ ++ some p :: r₂ ∧ has eqv r₁ k = false ∧ eqv p.1 k = true ∧
      erase eqv k r = r₁ ++ none :: r₂) ∨ (has eqv r k = false ∧ erase eqv k r = r) := by
  cases hh : has eqv r k with
  | true =>
      obtain ⟨r₁, p, r₂, rfl, h₁, hp⟩ := exists_first hh
      exact .inl ⟨r₁, p, r₂, rfl, h₁, hp, erase_eq h₁ hp⟩
  | false =>
      refine .inr ⟨rfl, ?_⟩
      induction r with
      | nil => rfl
      | cons x r ih =>
          cases x with
          | none => simpa [erase] using ih (by simpa using hh)
          | some q =>
              have hq : eqv q.1 k = false ∧ has eqv r k = false := by simpa using hh
              simpa [erase, hq.1] using ih hq.2

/-! ### The finite map of a row -/

/-- No two pairs have equal keys. -/
def Uniq (eqv : K → K → Bool) (l : List (K × V)) : Prop :=
  l.Pairwise fun p q => eqv p.1 q.1 = false

section laws
variable {D : K → Prop} (he : PerOn D eqv) {r : Row K V} {k : K} {v : V}
include he

/-- Around the pair with a key equal to `k`, no other key is equal to `k`. -/
theorem Uniq.others {l₁ l₂ : List (K × V)} {p : K × V} (hu : Uniq eqv (l₁ ++ p :: l₂))
    (hD : ∀ q ∈ l₁ ++ p :: l₂, D q.1) (hk : D k) (hp : eqv p.1 k = true) :
    ∀ q ∈ l₁ ++ l₂, eqv q.1 k = false := by
  obtain ⟨-, h₂, h₁₂⟩ := List.pairwise_append.mp hu
  have hDp : D p.1 := hD p (by simp)
  intro q hq
  rw [← Bool.not_eq_true]
  intro hqk
  have hDq : D q.1 := hD q (by simp only [List.mem_append, List.mem_cons] at hq ⊢; tauto)
  have hqp : eqv q.1 p.1 = true :=
    he.trans _ _ _ hDq hk hDp hqk (he.symm _ _ hDp hk hp)
  rcases List.mem_append.mp hq with hq | hq
  · rw [h₁₂ q hq p List.mem_cons_self] at hqp; cases hqp
  · have := he.symm _ _ hDq hDp hqp
    rw [(List.pairwise_cons.mp h₂).1 q hq] at this; cases this

theorem mem_pairs_put (hu : Uniq eqv (pairs r)) (hD : ∀ p ∈ pairs r, D p.1) (hk : D k)
    (q : K × V) : q ∈ pairs (put eqv r k v) ↔ q = (k, v) ∨ (q ∈ pairs r ∧ eqv q.1 k = false) := by
  rcases put_cases eqv r k v with
    ⟨r₁, p, r₂, rfl, h₁, hp, e⟩ | ⟨hh, r₁, r₂, rfl, -, e⟩ | ⟨hh, -, e⟩
  · rw [pairs_append, pairs_pair] at hu hD
    have ho := hu.others he hD hk hp
    have hne : eqv p.1 k ≠ false := by simp [hp]
    simp only [e, pairs_append, pairs_pair, List.mem_append, List.mem_cons] at ho ⊢
    constructor
    · rintro (hq | hq | hq)
      · exact .inr ⟨.inl hq, ho q (.inl hq)⟩
      · exact .inl hq
      · exact .inr ⟨.inr (.inr hq), ho q (.inr hq)⟩
    · rintro (hq | ⟨hq | rfl | hq, hk'⟩)
      · exact .inr (.inl hq)
      · exact .inl hq
      · exact absurd hk' hne
      · exact .inr (.inr hq)
  · rw [has_eq_false] at hh
    simp only [e, pairs_append, pairs_pair, pairs_hole, List.mem_append, List.mem_cons] at hh ⊢
    have := hh q
    tauto
  · rw [has_eq_false] at hh
    simp only [e, pairs_append, pairs_pair, pairs_nil, List.mem_append, List.mem_singleton]
    have := hh q
    tauto

theorem keys_put (hu : Uniq eqv (pairs r)) (hD : ∀ p ∈ pairs r, D p.1) (hk : D k) :
    ∀ p ∈ pairs (put eqv r k v), D p.1 := by
  intro p hp
  rcases (mem_pairs_put he hu hD hk p).mp hp with rfl | ⟨hp, -⟩
  · exact hk
  · exact hD p hp

theorem Uniq.put (hu : Uniq eqv (pairs r)) (hD : ∀ p ∈ pairs r, D p.1) (hk : D k) :
    Uniq eqv (pairs (put eqv r k v)) := by
  -- a pair with key `k` may stand anywhere among pairs whose keys are not equal to `k`
  have insert : ∀ l₁ l₂ : List (K × V), Uniq eqv (l₁ ++ l₂) → (∀ q ∈ l₁ ++ l₂, D q.1) →
      (∀ q ∈ l₁ ++ l₂, eqv q.1 k = false) → Uniq eqv (l₁ ++ (k, v) :: l₂) := by
    intro l₁ l₂ hl hDl hn
    obtain ⟨h₁, h₂, h₁₂⟩ := List.pairwise_append.mp hl
    refine List.pairwise_append.mpr ⟨h₁, List.pairwise_cons.mpr ⟨fun q hq => ?_, h₂⟩, ?_⟩
    · have hq' : q ∈ l₁ ++ l₂ := List.mem_append_right _ hq
      rw [← Bool.not_eq_true]
      intro hkq
      have := he.symm _ _ hk (hDl q hq') hkq
      rw [hn q hq'] at this; cases this
    · intro p hp q hq
      rcases List.mem_cons.mp hq with rfl | hq
      · exact hn p (List.mem_append_left _ hp)
      · exact h₁₂ p hp q hq
  rcases put_cases eqv r k v with
    ⟨r₁, p, r₂, rfl, h₁, hp, e⟩ | ⟨hh, r₁, r₂, rfl, -, e⟩ | ⟨hh, -, e⟩
  · rw [pairs_append, pairs_pair] at hu hD
    rw [e, pairs_append, pairs_pair]
    refine insert _ _ (hu.sublist ?_) (fun q hq => hD q ?_) (hu.others he hD hk hp)
    · exact List.Sublist.append_left (List.sublist_cons_self _ _) _
    · simp only [List.mem_append, List.mem_cons] at hq ⊢; tauto
  · rw [pairs_append, pairs_hole] at hu hD
    rw [e, pairs_append, pairs_pair]
    exact insert _ _ hu hD (by simpa [has_eq_false, or_imp, forall_and] using hh)
  · have := insert (pairs r) [] (by simpa using hu) (by simpa using hD)
      (by simpa [has_eq_false] using hh)
    simpa [e] using this

theorem mem_pairs_erase (hu : Uniq eqv (pairs r)) (hD : ∀ p ∈ pairs r, D p.1) (hk : D k)
    (q : K × V) : q ∈ pairs (erase eqv k r) ↔ q ∈ pairs r ∧ eqv q.1 k = false := by
  rcases erase_cases eqv r k with ⟨r₁, p, r₂, rfl, h₁, hp, e⟩ | ⟨hh, e⟩
  · rw [pairs_append, pairs_pair] at hu hD
    have ho := hu.others he hD hk hp
    have hne : eqv p.1 k ≠ false := by simp [hp]
    simp only [e, pairs_append, pairs_pair, pairs_hole, List.mem_append, List.mem_cons] at ho ⊢
    constructor
    · rintro (hq | hq)
      · exact ⟨.inl hq, ho q (.inl hq)⟩
      · exact ⟨.inr (.inr hq), ho q (.inr hq)⟩
    · rintro ⟨hq | rfl | hq, hk'⟩
      · exact .inl hq
      · exact absurd hk' hne
      · exact .inr hq
  · rw [has_eq_false] at hh
    rw [e]
    exact ⟨fun hq => ⟨hq, hh q hq⟩, fun hq => hq.1⟩

/-- Only one pair has a key equal to `k`. -/
theorem Uniq.eq_of_mem {l : List (K × V)} (hu : Uniq eqv l) (hD : ∀ q ∈ l, D q.1) (hk : D k)
    {p q : K × V} (hp : p ∈ l) (hq : q ∈ l) (hpk : eqv p.1 k = true) (hqk : eqv q.1 k = true) :
    p = q := by
  obtain ⟨l₁, l₂, rfl⟩ := List.append_of_mem hq
  by_contra hne
  have hmem : p ∈ l₁ ++ l₂ := by
    simp only [List.mem_append, List.mem_cons] at hp ⊢
    tauto
  rw [hu.others he hD hk hqk p hmem] at hpk
  cases hpk

/-- `put` puts the new pair in the place of the one with an equal key. -/
theorem pairs_put_replace (hu : Uniq eqv (pairs r)) (hD : ∀ p ∈ pairs r, D p.1) (hk : D k) (v : V)
    {p : K × V} (hp : p ∈ pairs r) (hpk : eqv p.1 k = true) :
    ∃ rest, (pairs r).Perm (p :: rest) ∧ (pairs (put eqv r k v)).Perm ((k, v) :: rest) := by
  have hh : has eqv r k = true := has_iff.mpr ⟨p, hp, hpk⟩
  rcases put_cases eqv r k v with ⟨r₁, q, r₂, rfl, -, hq, e⟩ | ⟨hno, -⟩ | ⟨hno, -⟩
  · obtain rfl := hu.eq_of_mem he hD hk hp (by simp) hpk hq
    rw [e, pairs_append, pairs_append, pairs_pair, pairs_pair]
    exact ⟨pairs r₁ ++ pairs r₂, List.perm_middle, List.perm_middle⟩
  · rw [hh] at hno
    cases hno
  · rw [hh] at hno
    cases hno

/-- `erase` takes out the pair with an equal key. -/
theorem pairs_erase_perm (hu : Uniq eqv (pairs r)) (hD : ∀ p ∈ pairs r, D p.1) (hk : D k)
    {p : K × V} (hp : p ∈ pairs r) (hpk : eqv p.1 k = true) :
    (pairs r).Perm (p :: pairs (erase eqv k r)) := by
  rcases erase_cases eqv r k with ⟨r₁, q, r₂, rfl, -, hq, e⟩ | ⟨hno, -⟩
  · obtain rfl := hu.eq_of_mem he hD hk hp (by simp) hpk hq
    rw [e, pairs_append, pairs_append, pairs_pair, pairs_hole]
    exact List.perm_middle
  · rw [has_iff.mpr ⟨p, hp, hpk⟩] at hno
    cases hno

end laws

theorem pairs_erase_sublist (r : Row K V) (k : K) :
    (pairs (erase eqv k r)).Sublist (pairs r) := by
  rcases erase_cases eqv r k with ⟨r₁, p, r₂, rfl, -, -, e⟩ | ⟨-, e⟩
  · rw [e, pairs_append, pairs_hole, pairs_append, pairs_pair]
    exact List.Sublist.append_left (List.sublist_cons_self _ _) _
  · rw [e]

theorem length_pairs_put (eqv : K → K → Bool) (r : Row K V) (k : K) (v : V) :
    (pairs (put eqv r k v)).length = (pairs r).length + if has eqv r k then 0 else 1 := by
  rcases put_cases eqv r k v with
    ⟨r₁, p, r₂, rfl, h₁, hp, e⟩ | ⟨hh, r₁, r₂, rfl, -, e⟩ | ⟨hh, -, e⟩
  · simp [e, hp]
  · simp only [e, hh, pairs_append, pairs_pair, pairs_hole, List.length_append, List.length_cons]
    simp
    omega
  · simp [e, hh]

theorem length_pairs_erase (eqv : K → K → Bool) (r : Row K V) (k : K) :
    (pairs r).length = (pairs (erase eqv k r)).length + if has eqv r k then 1 else 0 := by
  rcases erase_cases eqv r k with ⟨r₁, p, r₂, rfl, h₁, hp, e⟩ | ⟨hh, e⟩
  · simp [e, hp]
    omega
  · simp [e, hh]

/-- Without an equal key, `put` adds one pair. -/
theorem pairs_put_perm {r : Row K V} {k : K} (v : V) (hh : has eqv r k = false) :
    (pairs (put eqv r k v)).Perm ((k, v) :: pairs r) := by
  rcases put_cases eqv r k v with
    ⟨r₁, p, r₂, rfl, -, hp, -⟩ | ⟨-, r₁, r₂, rfl, -, e⟩ | ⟨-, -, e⟩
  · simp [hp] at hh
  · simp [e]
  · simp [e]

/-! ### Holes before a key -/

/-- Behind a hole there is no key equal to `k`. -/
def Unhidden (eqv : K → K → Bool) (r : Row K V) (k : K) : Prop :=
  ∀ r₁ r₂, r = r₁ ++ none :: r₂ → has eqv r₂ k = false

/-- Two places of a list: one is before the other, or they are the same. -/
theorem split_split {α : Type} {l₁ l₂ m₁ m₂ : List α} {x y : α} (h : l₁ ++ x :: l₂ = m₁ ++ y :: m₂) :
    (∃ t, l₁ = m₁ ++ y :: t ∧ m₂ = t ++ x :: l₂) ∨ (l₁ = m₁ ∧ x = y ∧ l₂ = m₂) ∨
      ∃ t, m₁ = l₁ ++ x :: t ∧ l₂ = t ++ y :: m₂ := by
  rcases List.append_eq_append_iff.mp h with ⟨t, rfl, ht⟩ | ⟨t, rfl, ht⟩
  · cases t with
    | nil => exact .inr (.inl ⟨by simp, List.cons.inj ht⟩)
    | cons z t => obtain ⟨rfl, rfl⟩ := List.cons.inj ht; exact .inr (.inr ⟨t, rfl, rfl⟩)
  · cases t with
    | nil =>
        obtain ⟨rfl, rfl⟩ := List.cons.inj ht
        exact .inr (.inl ⟨by simp, rfl, rfl⟩)
    | cons z t => obtain ⟨rfl, rfl⟩ := List.cons.inj ht; exact .inl ⟨t, rfl, rfl⟩

namespace Unhidden

variable {r : Row K V} {k k' : K}

/-- No hole stands before the first pair with an equal key. -/
theorem none_notMem {r₁ r₂ : Row K V} {p : K × V} (h : Unhidden eqv (r₁ ++ some p :: r₂) k)
    (hp : eqv p.1 k = true) : none ∉ r₁ := by
  intro hn
  obtain ⟨s, t, rfl⟩ := List.append_of_mem hn
  have := h s (t ++ some p :: r₂) (by simp)
  simp [hp] at this

/-- Storing another key, a key that is there, or a key in a row of at most one hole. -/
theorem put {D : K → Prop} (he : PerOn D eqv) (h : Unhidden eqv r k) (hD : ∀ p ∈ pairs r, D p.1)
    (hk : D k) (hk' : D k') (v : V)
    (hc : eqv k' k = true → has eqv r k' = true ∨ ∀ s t, r = s ++ none :: t → none ∉ t) :
    Unhidden eqv (put eqv r k' v) k := by
  intro s₁ s₂ hs
  rcases put_cases eqv r k' v with
    ⟨r₁, p, r₂, rfl, -, hp, e⟩ | ⟨hh, r₁, r₂, rfl, hn, e⟩ | ⟨-, hn, e⟩
  · rw [e] at hs
    rcases split_split hs with ⟨t, rfl, rfl⟩ | ⟨-, hx, -⟩ | ⟨t, rfl, rfl⟩
    · have hold := h s₁ (t ++ some p :: r₂) (by simp)
      simp only [has_append, has_pair, Bool.or_eq_false_iff] at hold ⊢
      refine ⟨hold.1, ?_, hold.2.2⟩
      rw [← Bool.not_eq_true]
      intro hkk
      rw [he.trans _ _ _ (hD p (by simp)) hk' hk hp hkk] at hold
      cases hold.2.1
    · cases hx
    · exact h (r₁ ++ some p :: t) s₂ (by simp)
  · rw [e] at hs
    rcases split_split hs with ⟨t, rfl, rfl⟩ | ⟨-, hx, -⟩ | ⟨t, rfl, rfl⟩
    · have hold := h s₁ (t ++ none :: r₂) (by simp)
      simp only [has_append, has_hole, has_pair, Bool.or_eq_false_iff] at hold ⊢
      refine ⟨hold.1, ?_, hold.2⟩
      rw [← Bool.not_eq_true]
      intro hkk
      rcases hc hkk with hc | hc
      · rw [hc] at hh
        cases hh
      · -- the hole that is filled stands behind another one
        exact hc s₁ (t ++ none :: r₂) (by simp) (by simp)
    · cases hx
    · exact absurd (by simp) hn
  · have hmem : none ∈ Rows.put eqv r k' v := by rw [hs]; simp
    rw [e] at hmem
    exact absurd hmem (by simpa using hn)

/-- Erasing a key behind which there is no key equal to `k`. -/
theorem erase (h : Unhidden eqv r k)
    (hc : ∀ r₁ p r₂, r = r₁ ++ some p :: r₂ → eqv p.1 k' = true → has eqv r₂ k = false) :
    Unhidden eqv (erase eqv k' r) k := by
  intro s₁ s₂ hs
  rcases erase_cases eqv r k' with ⟨r₁, p, r₂, rfl, -, hp, e⟩ | ⟨-, e⟩
  · rw [e] at hs
    rcases split_split hs with ⟨t, rfl, rfl⟩ | ⟨-, -, rfl⟩ | ⟨t, rfl, rfl⟩
    · have hold := h s₁ (t ++ some p :: r₂) (by simp)
      simp only [has_append, has_hole, has_pair, Bool.or_eq_false_iff] at hold ⊢
      exact ⟨hold.1, hold.2.2⟩
    · exact hc r₁ p r₂ rfl hp
    · exact h (r₁ ++ some p :: t) s₂ (by simp)
  · rw [e] at hs
    exact h s₁ s₂ hs

end Unhidden

/-! ### Dense rows -/

/-- The row is a single hole, or has no hole. -/
def Dense (r : Row K V) : Prop := r = [none] ∨ none ∉ r

theorem Dense.put {r : Row K V} (h : Dense r) (eqv : K → K → Bool) (k : K) (v : V) :
    none ∉ put eqv r k v := by
  rcases put_cases eqv r k v with
    ⟨r₁, p, r₂, rfl, -, -, e⟩ | ⟨-, r₁, r₂, rfl, h₂, e⟩ | ⟨-, hn, e⟩
  · rcases h with h | h
    · have := congrArg pairs h; simp at this
    · simpa [e] using h
  · rcases h with h | h
    · cases r₁ with
      | nil => rw [e]; simpa using h₂
      | cons x r₁ => simp at h
    · simp at h
  · simpa [e] using hn

theorem Dense.unhidden {r : Row K V} (h : Dense r) (k : K) : Unhidden eqv r k := by
  rintro r₁ r₂ rfl
  rcases h with h | h
  · cases r₁ with
    | nil => rw [(List.cons.inj h).2]; rfl
    | cons x r₁ => simp at h
  · simp at h

/-- A new pair is the last pair of a dense row. -/
theorem Dense.pairs_put {r : Row K V} (h : Dense r) {eqv : K → K → Bool} {k : K} (v : V)
    (hh : has eqv r k = false) : pairs (Rows.put eqv r k v) = pairs r ++ [(k, v)] := by
  rcases put_cases eqv r k v with
    ⟨r₁, p, r₂, rfl, -, hp, -⟩ | ⟨-, r₁, r₂, rfl, h₂, e⟩ | ⟨-, hn, e⟩
  · simp [hp] at hh
  · rcases h with h | h
    · cases r₁ with
      | nil => rw [e]; simp only [List.nil_append, List.cons.injEq, true_and] at h ⊢; simp [h]
      | cons x r₁ => simp at h
    · simp at h
  · simp [e]

end Rows
