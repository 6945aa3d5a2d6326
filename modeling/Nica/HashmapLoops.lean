import Nica.HashmapPut
import Nica.HashmapFuel

/-! # Resizing a table with a chain that runs into itself

The copy of such a chain never reaches NULL: it goes round until it meets a key that it has already
copied and gives up, or goes round for ever when there is no pair on the way (`rehashChain_inside`).
So a resize that ends returns `false` and leaves the old table alone (`resize_looped`), and so does
the put that made it (`put_looped`). -/

namespace Nica

open Blocks Linked Rows Fueled

variable {K V : Type} [Null K] [Null V]

namespace NcHashmap

section copying
variable {map : NcHashmap K V} {m₀ m m' : Mem K V} {N : ℕ} {tails : ℕ → List ℕ}

/-- A copy that starts among cells that lead nowhere else leaves a table under construction, and it
is complete only if NULL is among the places they lead to. -/
theorem rehashChain_inside {cells : List Loc}
    (hin : ∀ a ∈ cells, ∃ e, m₀.cells a = some e ∧ ∀ b, e.next = some b → b ∈ cells)
    (B : Building m₀ m₀.tick N tails m) {p : Option Loc} (hp : ∀ a, p = some a → a ∈ cells)
    {f : ℕ} {items items' : ℤ} {ok : Bool}
    (h : rehashChain map m₀.tick N f p items m = .ok (ok, items', m')) :
    (∃ tails', Building m₀ m₀.tick N tails' m') ∧
      (ok = true → p = none ∨ ∃ a ∈ cells, ∃ e, m₀.cells a = some e ∧ e.next = none) := by
  induction f generalizing p items m tails with
  | zero =>
      cases p with
      | none =>
          obtain ⟨rfl, -, rfl⟩ : true = ok ∧ items = items' ∧ m = m' := by
            simpa [rehashChain] using h
          exact ⟨⟨tails, B⟩, fun _ => .inl rfl⟩
      | some a => cases h
  | succ f ih =>
      cases p with
      | none =>
          obtain ⟨rfl, -, rfl⟩ : true = ok ∧ items = items' ∧ m = m' := by
            simpa [rehashChain] using h
          exact ⟨⟨tails, B⟩, fun _ => .inl rfl⟩
      | some a =>
          have ha := hp a rfl
          obtain ⟨e, he, hnext⟩ := hin a ha
          have seen : ∀ {t : ℕ → List ℕ} {m : Mem K V}, Building m₀ m₀.tick N t m →
              m.cells a = some e := fun B => (B.frame a (Heap.block_lt he)).trans he
          have ends : e.next = none →
              ∃ a ∈ cells, ∃ e, m₀.cells a = some e ∧ e.next = none :=
            fun hn => ⟨a, ha, e, he, hn⟩
          simp only [rehashChain, seen B] at h
          split_ifs at h with ho
          · obtain ⟨⟨incr, m₁⟩, hins, h⟩ := ok_of_bind h
            obtain ⟨r, m₂, tails₁, hr, B₁, -⟩ := B.insertBucket map (map.hash e.hash) e.hash e.value
            obtain ⟨rfl, rfl⟩ := Prod.mk.inj
              (hr.unique ((insertBucket_steady map m _ _ _ _ _).returns hins))
            simp only [seen B₁] at h
            split_ifs at h
            · obtain ⟨hB, hok⟩ := ih B₁ hnext h
              exact ⟨hB, fun h => .inr ((hok h).elim ends id)⟩
            · obtain ⟨rfl, -, rfl⟩ : false = ok ∧ items = items' ∧ m₂ = m' := by simpa using h
              exact ⟨⟨tails₁, B₁⟩, fun h => by cases h⟩
          · obtain ⟨hB, hok⟩ := ih B hnext h
            exact ⟨hB, fun h => .inr ((hok h).elim ends id)⟩

/-- The copy of a table is complete only if all its chains end in NULL. -/
theorem rehash_inside {t n : ℕ} {old : ℕ → List ℕ} {back : ℕ → Option Loc}
    (hS : Shape m₀.toHeap t n old back) (ht : map.buckets = t)
    (B : Building m₀ m₀.tick N tails m) {is : List ℕ} (his : ∀ i ∈ is, i < n) {f : ℕ}
    {items items' : ℤ} {ok : Bool}
    (h : rehash map f m₀.tick N is items m = .ok (ok, items', m')) :
    (∃ tails', Building m₀ m₀.tick N tails' m') ∧ (ok = true → ∀ i ∈ is, back i = none) := by
  induction is generalizing items m tails with
  | nil =>
      obtain ⟨rfl, -, rfl⟩ : true = ok ∧ items = items' ∧ m = m' := by simpa [rehash] using h
      exact ⟨⟨tails, B⟩, by simp⟩
  | cons i is ih =>
      obtain ⟨⟨ok₁, items₁, m₁⟩, h₁, h⟩ := ok_of_bind h
      have hi := his i List.mem_cons_self
      have hpath := hS.path i hi
      have hin : ∀ a ∈ chainOf t old i, ∃ e, m₀.cells a = some e ∧
          ∀ b, e.next = some b → b ∈ chainOf t old i := by
        intro a ha
        obtain ⟨e, he, hq⟩ := hpath.next ha
        refine ⟨e, he, fun b hb => ?_⟩
        rcases hq with hq | ⟨c, hc, hn⟩
        · exact hS.backIn i hi b (hq.symm.trans hb)
        · exact Option.some.inj (hn.symm.trans hb) ▸ hc
      obtain ⟨⟨tails₁, B₁⟩, hok₁⟩ := rehashChain_inside hin B
        (fun a ha => by rw [← Option.some.inj ha, ht]; simp [chainOf]) h₁
      -- a chain that runs into itself has no entry that leads to NULL
      have hend : ok₁ = true → back i = none := by
        intro hok
        obtain ⟨a, ha, e, he, hn⟩ := (hok₁ hok).resolve_left (by simp)
        by_contra hb
        obtain ⟨c, hc⟩ := Option.ne_none_iff_exists'.mp hb
        rw [hc] at hpath
        obtain ⟨e', he', b, -, hb'⟩ := hpath.closed (hS.backIn i hi c hc) ha
        obtain rfl := Option.some.inj (he.symm.trans he')
        rw [hn] at hb'
        cases hb'
      simp only at h
      split_ifs at h with hok
      · obtain ⟨hB, hall⟩ := ih B₁ (fun j hj => his j (List.mem_cons_of_mem i hj)) h
        exact ⟨hB, fun h' => List.forall_mem_cons.mpr ⟨hend hok, hall h'⟩⟩
      · obtain ⟨rfl, -, rfl⟩ : false = ok ∧ items₁ = items' ∧ m₁ = m' := by simpa using h
        exact ⟨⟨tails₁, B₁⟩, fun h' => by cases h'⟩

end copying

variable {s s' : State K V} {tails : ℕ → List ℕ} {back : ℕ → Option Loc}

/-- The same map in a memory that agrees on all older cells. -/
structure Kept (s s' : State K V) : Prop where
  self : s'.self = s.self
  frame : ∀ a, a.block < s.mem.tick → s'.mem.cells a = s.mem.cells a
  grants : s'.mem.grants = s.mem.grants

theorem resize_looped (hS : Shape s.mem.toHeap s.self.buckets s.self.nBuckets tails back)
    {i : ℕ} (hi : i < s.self.nBuckets) (hb : back i ≠ none) {f : ℕ} {ok : Bool}
    (h : resize f s = .ok (ok, s')) : ok = false ∧ Kept s s' := by
  have hN : 0 < s.self.nBuckets * increaseFactor := Nat.mul_pos hS.pos (by decide)
  unfold resize at h
  simp only [Heap.callocTable] at h
  split_ifs at h with hint hg
  · obtain ⟨⟨ok₁, items, m⟩, h₁, h⟩ := ok_of_bind h
    obtain ⟨⟨tails₁, B⟩, hall⟩ := rehash_inside hS rfl (Building.init hN)
      (fun j hj => List.mem_range.mp hj) h₁
    have hok : ok₁ = false := Bool.eq_false_iff.mpr fun hok =>
      hb (hall hok i (List.mem_range.mpr hi))
    subst hok
    obtain ⟨m', hfree, h⟩ := ok_of_bind h
    obtain ⟨m'', hret, F⟩ := freeBuckets_table s.self true B.shape
    obtain rfl := hret.unique ((freeBuckets_steady _ _ _ _ _).returns hfree)
    obtain ⟨rfl, rfl⟩ := Prod.mk.inj (Except.ok.inj h)
    refine ⟨rfl, rfl, fun a ha => ?_, F.grants.trans B.grants⟩
    change (m''.toHeap.freeTable s.mem.tick).cells a = _
    rw [Heap.freeTable_ne _ (by omega), F.kept, B.frame a ha]
    rintro ⟨j, hj, b, hb, rfl⟩
    have := B.nodes j hj b hb
    exact absurd ha (by simp only [Loc.block]; omega)
  · obtain ⟨rfl, rfl⟩ := Prod.mk.inj (Except.ok.inj h)
    exact ⟨rfl, rfl, fun _ _ => rfl, rfl⟩

theorem put_looped (hS : Shape s.mem.toHeap s.self.buckets s.self.nBuckets tails back)
    {i : ℕ} (hi : i < s.self.nBuckets) (hb : back i ≠ none) (hr : s.self.maybeResize = true)
    {key : K} {value : V} {f : ℕ} {ok : Bool} (h : put f s key value = .ok (ok, s')) :
    ok = false ∧ Kept s s' := by
  simp only [put, hr, if_true] at h
  obtain ⟨⟨ok₁, s₁⟩, h₁, h⟩ := ok_of_bind h
  obtain ⟨rfl, hkept⟩ := resize_looped hS hi hb h₁
  obtain ⟨rfl, rfl⟩ := Prod.mk.inj (Except.ok.inj h)
  exact ⟨rfl, hkept⟩

end NcHashmap

/-- A table outlives a call that keeps its map. -/
theorem Table.kept {D : K → Prop} {s s' : State K V} {tails : ℕ → List ℕ} {back : ℕ → Option Loc}
    (T : Table s.self D s.mem.toHeap s.self.buckets s.self.nBuckets tails back)
    (h : NcHashmap.Kept s s') :
    Table s'.self D s'.mem.toHeap s'.self.buckets s'.self.nBuckets tails back ∧
    ∀ i < s.self.nBuckets, rowsOf s'.mem.toHeap s'.self.buckets tails i =
      rowsOf s.mem.toHeap s.self.buckets tails i := by
  have hold : ∀ i < s.self.nBuckets, ∀ a ∈ chainOf s.self.buckets tails i,
      a.block < s.mem.tick := fun i hi a ha => T.toShape.block_le hi ha
  have hrow : ∀ i < s.self.nBuckets, rowsOf s'.mem.toHeap s.self.buckets tails i =
      rowsOf s.mem.toHeap s.self.buckets tails i := fun i hi =>
    rowOf_congr fun a ha => h.frame a (hold i hi a ha)
  rw [h.self]
  exact ⟨⟨T.toShape.later h.frame (hold 0 T.pos _ (mem_chainOf.mpr (.inl rfl))) hold,
    T.rows.congr hrow⟩, hrow⟩

end Nica
