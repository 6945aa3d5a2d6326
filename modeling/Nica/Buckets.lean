import Nica.Row
import Mathlib.Data.Finset.Card

/-! # Tables of rows

A table of `n` rows in which every pair stands in the row `slot` of its key (`Bucketed`).  If equal
keys have equal slots, storing and deleting in the one row of a key is the update and the
deletion of the finite map `contents` (`Bucketed.mem_put`, `Bucketed.mem_erase`), and a key is
present in the table exactly when it is present in its row (`Bucketed.has_iff`). -/

namespace Rows

variable {K V : Type}

/-- The pairs of the first `n` rows, in order. -/
def contents (rows : ℕ → Row K V) (n : ℕ) : List (K × V) :=
  (List.range n).flatMap fun i => pairs (rows i)

theorem mem_contents {rows : ℕ → Row K V} {n : ℕ} {p : K × V} :
    p ∈ contents rows n ↔ ∃ i < n, p ∈ pairs (rows i) := by
  simp [contents]

/-- Rows of one hole hold nothing. -/
theorem contents_holes {rows : ℕ → Row K V} {n : ℕ} (h : ∀ i < n, rows i = [none]) :
    contents rows n = [] := by
  rw [List.eq_nil_iff_forall_not_mem]
  intro p hp
  obtain ⟨i, hi, hp⟩ := mem_contents.mp hp
  rw [h i hi] at hp
  cases hp

theorem contents_congr {rows rows' : ℕ → Row K V} {n : ℕ} (h : ∀ i < n, rows' i = rows i) :
    contents rows' n = contents rows n := by
  unfold contents
  exact List.flatMap_congr fun i hi => by rw [h i (List.mem_range.mp hi)]

/-- The pairs of one row stand together; the others do not depend on it. -/
theorem contents_split {n i : ℕ} (hi : i < n) (rows : ℕ → Row K V) :
    ∃ l₁ l₂, ∀ rows' : ℕ → Row K V, (∀ j < n, j ≠ i → rows' j = rows j) →
      contents rows' n = l₁ ++ (pairs (rows' i) ++ l₂) := by
  obtain ⟨m, rfl⟩ : ∃ m, n = i + (m + 1) := ⟨n - i - 1, by omega⟩
  refine ⟨contents rows i, (List.range m).flatMap fun j => pairs (rows (i + (1 + j))), ?_⟩
  intro rows' h
  have h₁ : contents rows' i = contents rows i :=
    contents_congr fun j hj => h j (by omega) (by omega)
  have h₂ : (List.range m).flatMap (fun j => pairs (rows' (i + (1 + j)))) =
      (List.range m).flatMap fun j => pairs (rows (i + (1 + j))) :=
    List.flatMap_congr fun j hj => by
      have := List.mem_range.mp hj
      rw [h _ (by omega) (by omega)]
  rw [← h₁, ← h₂]
  simp only [contents, List.range_add, List.flatMap_append, List.flatMap_map, Nat.add_comm m 1]
  simp

/-- The pairs of the table stand in the rows that their keys name. -/
structure Bucketed (slot : K → ℕ) (D : K → Prop) (eqv : K → K → Bool) (n : ℕ)
    (rows : ℕ → Row K V) : Prop where
  keys : ∀ i < n, ∀ p ∈ pairs (rows i), D p.1
  placed : ∀ i < n, ∀ p ∈ pairs (rows i), slot p.1 = i
  uniq : ∀ i < n, Uniq eqv (pairs (rows i))

namespace Bucketed

variable {slot : K → ℕ} {D : K → Prop} {eqv : K → K → Bool} {n : ℕ} {rows rows' : ℕ → Row K V}

theorem congr (hb : Bucketed slot D eqv n rows) (h : ∀ i < n, rows' i = rows i) :
    Bucketed slot D eqv n rows' where
  keys i hi := by rw [h i hi]; exact hb.keys i hi
  placed i hi := by rw [h i hi]; exact hb.placed i hi
  uniq i hi := by rw [h i hi]; exact hb.uniq i hi

/-- A table of empty rows. -/
theorem of_empty (h : ∀ i < n, pairs (rows i) = []) : Bucketed slot D eqv n rows where
  keys i hi p hp := by rw [h i hi] at hp; cases hp
  placed i hi p hp := by rw [h i hi] at hp; cases hp
  uniq i hi := by rw [h i hi]; exact List.Pairwise.nil

theorem keys_contents (hb : Bucketed slot D eqv n rows) : ∀ p ∈ contents rows n, D p.1 := by
  intro p hp
  obtain ⟨i, hi, hp⟩ := mem_contents.mp hp
  exact hb.keys i hi p hp

section lawful
variable (he : PerOn D eqv)
  (hs : ∀ a b, D a → D b → eqv a b = true → slot a = slot b) {k : K} {v : V}
include hs

/-- A key is in the table exactly when it is in its row. -/
theorem has_iff (hb : Bucketed slot D eqv n rows) (hk : D k) (hi : slot k < n) :
    has eqv (rows (slot k)) k = true ↔ ∃ p ∈ contents rows n, eqv p.1 k = true := by
  rw [Rows.has_iff]
  constructor
  · rintro ⟨p, hp, hpk⟩
    exact ⟨p, mem_contents.mpr ⟨_, hi, hp⟩, hpk⟩
  · rintro ⟨p, hp, hpk⟩
    obtain ⟨i, hin, hpi⟩ := mem_contents.mp hp
    have : i = slot k := by
      rw [← hb.placed i hin p hpi]
      exact hs _ _ (hb.keys i hin p hpi) hk hpk
    exact ⟨p, this ▸ hpi, hpk⟩

/-- No two keys of the table are equal. -/
theorem uniq_contents (hb : Bucketed slot D eqv n rows) : Uniq eqv (contents rows n) := by
  suffices ∀ m ≤ n, Uniq eqv (contents rows m) from this n (Nat.le_refl n)
  intro m
  induction m with
  | zero => intro _; exact List.Pairwise.nil
  | succ m ih =>
      intro hm
      have e : contents rows (m + 1) = contents rows m ++ pairs (rows m) := by
        simp [contents, List.range_succ]
      rw [e]
      refine List.pairwise_append.mpr ⟨ih (by omega), hb.uniq m (by omega), ?_⟩
      intro p hp q hq
      obtain ⟨i, hi, hp⟩ := mem_contents.mp hp
      rw [← Bool.not_eq_true]
      intro hpq
      have := hs _ _ (hb.keys i (by omega) p hp) (hb.keys m (by omega) q hq) hpq
      rw [hb.placed i (by omega) p hp, hb.placed m (by omega) q hq] at this
      omega

/-- A change of the one row that `slot k` names changes the map at keys equal to `k` only. -/
theorem mem_change (hb : Bucketed slot D eqv n rows) (hk : D k) (hi : slot k < n)
    (hoff : ∀ j < n, j ≠ slot k → rows' j = rows j) (new : List (K × V))
    (hrow : ∀ q, q ∈ pairs (rows' (slot k)) ↔
      q ∈ new ∨ (q ∈ pairs (rows (slot k)) ∧ eqv q.1 k = false)) (q : K × V) :
    q ∈ contents rows' n ↔ q ∈ new ∨ (q ∈ contents rows n ∧ eqv q.1 k = false) := by
  have other : ∀ j < n, j ≠ slot k → q ∈ pairs (rows j) → eqv q.1 k = false := by
    intro j hj hne hq
    rw [← Bool.not_eq_true]
    intro hqk
    have := hs _ _ (hb.keys j hj q hq) hk hqk
    exact hne ((hb.placed j hj q hq).symm.trans this)
  simp only [mem_contents]
  constructor
  · rintro ⟨j, hj, hq⟩
    by_cases hjk : j = slot k
    · rw [hjk, hrow] at hq
      exact hq.imp id fun h => ⟨⟨_, hi, h.1⟩, h.2⟩
    · rw [hoff j hj hjk] at hq
      exact .inr ⟨⟨j, hj, hq⟩, other j hj hjk hq⟩
  · rintro (hq | ⟨⟨j, hj, hq⟩, hqk⟩)
    · exact ⟨_, hi, (hrow q).mpr (.inl hq)⟩
    · by_cases hjk : j = slot k
      · exact ⟨_, hi, (hrow q).mpr (.inr ⟨hjk ▸ hq, hqk⟩)⟩
      · exact ⟨j, hj, by rw [hoff j hj hjk]; exact hq⟩

/-- The one pair of the table with a key equal to `k` stands in its row. -/
theorem mem_row (hb : Bucketed slot D eqv n rows) (hk : D k) {p : K × V}
    (hp : p ∈ contents rows n) (hpk : eqv p.1 k = true) : p ∈ pairs (rows (slot k)) := by
  obtain ⟨i, hi, hpi⟩ := mem_contents.mp hp
  have : i = slot k := by
    rw [← hb.placed i hi p hpi]
    exact hs _ _ (hb.keys i hi p hpi) hk hpk
  rwa [this] at hpi

include he

theorem mem_put (hb : Bucketed slot D eqv n rows) (hk : D k) (hi : slot k < n)
    (hoff : ∀ j < n, j ≠ slot k → rows' j = rows j)
    (hrow : rows' (slot k) = Rows.put eqv (rows (slot k)) k v) (q : K × V) :
    q ∈ contents rows' n ↔ q = (k, v) ∨ (q ∈ contents rows n ∧ eqv q.1 k = false) := by
  rw [hb.mem_change hs hk hi hoff [(k, v)] ?_ q, List.mem_singleton]
  intro q
  rw [hrow, mem_pairs_put he (hb.uniq _ hi) (hb.keys _ hi) hk, List.mem_singleton]

theorem mem_erase (hb : Bucketed slot D eqv n rows) (hk : D k) (hi : slot k < n)
    (hoff : ∀ j < n, j ≠ slot k → rows' j = rows j)
    (hrow : rows' (slot k) = Rows.erase eqv k (rows (slot k))) (q : K × V) :
    q ∈ contents rows' n ↔ q ∈ contents rows n ∧ eqv q.1 k = false := by
  rw [hb.mem_change hs hk hi hoff [] ?_ q]
  · simp
  · intro q
    rw [hrow, mem_pairs_erase he (hb.uniq _ hi) (hb.keys _ hi) hk]
    simp

/-- Overwriting exchanges the pair with an equal key for the new one. -/
theorem contents_replace (hb : Bucketed slot D eqv n rows) (hk : D k) (hi : slot k < n)
    (hoff : ∀ j < n, j ≠ slot k → rows' j = rows j)
    (hrow : rows' (slot k) = Rows.put eqv (rows (slot k)) k v) {p : K × V}
    (hp : p ∈ contents rows n) (hpk : eqv p.1 k = true) :
    ∃ rest, (contents rows n).Perm (p :: rest) ∧ (contents rows' n).Perm ((k, v) :: rest) := by
  obtain ⟨rest, h₁, h₂⟩ := pairs_put_replace he (hb.uniq _ hi) (hb.keys _ hi) hk v
    (hb.mem_row hs hk hp hpk) hpk
  obtain ⟨l₁, l₂, h⟩ := contents_split hi rows
  rw [h rows' hoff, h rows fun _ _ _ => rfl, hrow]
  exact ⟨l₁ ++ (rest ++ l₂), ((h₁.append_right l₂).append_left l₁).trans List.perm_middle,
    ((h₂.append_right l₂).append_left l₁).trans List.perm_middle⟩

/-- Erasing takes out the pair with an equal key. -/
theorem contents_erase (hb : Bucketed slot D eqv n rows) (hk : D k) (hi : slot k < n)
    (hoff : ∀ j < n, j ≠ slot k → rows' j = rows j)
    (hrow : rows' (slot k) = Rows.erase eqv k (rows (slot k))) {p : K × V}
    (hp : p ∈ contents rows n) (hpk : eqv p.1 k = true) :
    (contents rows n).Perm (p :: contents rows' n) := by
  have hrest := pairs_erase_perm he (hb.uniq _ hi) (hb.keys _ hi) hk (hb.mem_row hs hk hp hpk) hpk
  obtain ⟨l₁, l₂, h⟩ := contents_split hi rows
  rw [h rows' hoff, h rows fun _ _ _ => rfl, hrow]
  exact ((hrest.append_right l₂).append_left l₁).trans List.perm_middle

omit hs in
theorem put (hb : Bucketed slot D eqv n rows) (hk : D k) (hi : slot k < n)
    (hoff : ∀ j < n, j ≠ slot k → rows' j = rows j)
    (hrow : rows' (slot k) = Rows.put eqv (rows (slot k)) k v) :
    Bucketed slot D eqv n rows' where
  keys i hin := by
    by_cases h : i = slot k
    · rw [h, hrow]; exact keys_put he (hb.uniq _ hi) (hb.keys _ hi) hk
    · rw [hoff i hin h]; exact hb.keys i hin
  placed i hin p hp := by
    by_cases h : i = slot k
    · rw [h, hrow, mem_pairs_put he (hb.uniq _ hi) (hb.keys _ hi) hk] at hp
      rcases hp with rfl | ⟨hp, -⟩
      · exact h.symm
      · rw [hb.placed _ hi p hp, h]
    · rw [hoff i hin h] at hp; exact hb.placed i hin p hp
  uniq i hin := by
    by_cases h : i = slot k
    · rw [h, hrow]; exact Uniq.put he (hb.uniq _ hi) (hb.keys _ hi) hk
    · rw [hoff i hin h]; exact hb.uniq i hin

end lawful

/-- Adding a pair to a dense row that has no equal key. -/
theorem put_new {k : K} {v : V} (hb : Bucketed slot D eqv n rows) (hk : D k)
    (hoff : ∀ j < n, j ≠ slot k → rows' j = rows j)
    (hrow : rows' (slot k) = Rows.put eqv (rows (slot k)) k v) (hd : Dense (rows (slot k)))
    (hh : has eqv (rows (slot k)) k = false) : Bucketed slot D eqv n rows' := by
  have hp : pairs (rows' (slot k)) = pairs (rows (slot k)) ++ [(k, v)] := by
    rw [hrow, hd.pairs_put v hh]
  refine ⟨fun i hi p hpi => ?_, fun i hi p hpi => ?_, fun i hi => ?_⟩
  all_goals by_cases h : i = slot k
  · rw [h, hp, List.mem_append, List.mem_singleton] at hpi
    rcases hpi with hpi | rfl
    · exact hb.keys i hi p (h ▸ hpi)
    · exact hk
  · rw [hoff i hi h] at hpi; exact hb.keys i hi p hpi
  · rw [h, hp, List.mem_append, List.mem_singleton] at hpi
    rcases hpi with hpi | rfl
    · exact hb.placed i hi p (h ▸ hpi)
    · exact h.symm
  · rw [hoff i hi h] at hpi; exact hb.placed i hi p hpi
  · rw [h, hp]
    refine List.pairwise_append.mpr ⟨h ▸ hb.uniq i hi, List.pairwise_singleton _ _, ?_⟩
    intro q hq p hpk
    rw [List.mem_singleton.mp hpk]
    exact has_eq_false.mp hh q hq
  · rw [hoff i hi h]; exact hb.uniq i hi

theorem erase {k : K} (hb : Bucketed slot D eqv n rows)
    (hoff : ∀ j < n, j ≠ slot k → rows' j = rows j)
    (hrow : rows' (slot k) = Rows.erase eqv k (rows (slot k))) :
    Bucketed slot D eqv n rows' := by
  have sub : ∀ i < n, (pairs (rows' i)).Sublist (pairs (rows i)) := by
    intro i hin
    by_cases h : i = slot k
    · rw [h, hrow]; exact pairs_erase_sublist _ _
    · rw [hoff i hin h]
  exact
    { keys := fun i hin p hp => hb.keys i hin p ((sub i hin).subset hp)
      placed := fun i hin p hp => hb.placed i hin p ((sub i hin).subset hp)
      uniq := fun i hin => (hb.uniq i hin).sublist (sub i hin) }

end Bucketed

/-! ### Counting -/

section counting
variable {rows rows' : ℕ → Row K V} {n i : ℕ} {k : K} {v : V}

theorem length_contents_put (eqv : K → K → Bool) (hi : i < n)
    (hoff : ∀ j < n, j ≠ i → rows' j = rows j) (hrow : rows' i = put eqv (rows i) k v) :
    (contents rows' n).length =
      (contents rows n).length + if has eqv (rows i) k then 0 else 1 := by
  obtain ⟨l₁, l₂, h⟩ := contents_split hi rows
  rw [h rows' hoff, h rows fun _ _ _ => rfl, hrow]
  simp only [List.length_append, length_pairs_put]
  omega

theorem length_contents_erase (eqv : K → K → Bool) (hi : i < n)
    (hoff : ∀ j < n, j ≠ i → rows' j = rows j) (hrow : rows' i = erase eqv k (rows i)) :
    (contents rows n).length =
      (contents rows' n).length + if has eqv (rows i) k then 1 else 0 := by
  obtain ⟨l₁, l₂, h⟩ := contents_split hi rows
  rw [h rows' hoff, h rows fun _ _ _ => rfl, hrow]
  have := length_pairs_erase eqv (rows i) k
  simp only [List.length_append]
  omega

theorem contents_put_perm {eqv : K → K → Bool} (hi : i < n)
    (hoff : ∀ j < n, j ≠ i → rows' j = rows j) (hrow : rows' i = put eqv (rows i) k v)
    (hh : has eqv (rows i) k = false) :
    (contents rows' n).Perm ((k, v) :: contents rows n) := by
  obtain ⟨l₁, l₂, h⟩ := contents_split hi rows
  rw [h rows' hoff, h rows fun _ _ _ => rfl, hrow]
  have := ((pairs_put_perm v hh).append_right l₂).append_left l₁
  exact this.trans List.perm_middle

/-- How many of the pairs that go to the rows `l` find another pair there before them. -/
def spill (l : List ℕ) : ℕ := l.length - l.toFinset.card

@[simp] theorem spill_nil : spill [] = 0 := rfl

theorem spill_concat (l : List ℕ) (i : ℕ) :
    spill (l ++ [i]) = spill l + if i ∈ l then 1 else 0 := by
  have hle := l.toFinset_card_le
  have hset : (l ++ [i]).toFinset = insert i l.toFinset := by ext; simp
  unfold spill
  rw [hset, List.length_append, List.length_singleton]
  split_ifs with h
  · rw [Finset.insert_eq_of_mem (List.mem_toFinset.mpr h)]; omega
  · rw [Finset.card_insert_of_notMem fun hi => h (List.mem_toFinset.mp hi)]; omega

theorem spill_append_le (l l' : List ℕ) : spill l ≤ spill (l ++ l') := by
  induction l' generalizing l with
  | nil => rw [List.append_nil]
  | cons i l' ih =>
      have := ih (l ++ [i])
      rw [List.append_assoc, List.singleton_append] at this
      rw [spill_concat] at this
      omega

end counting

end Rows
