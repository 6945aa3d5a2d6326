import Nica.HashmapLayout

/-! # Lookup and removal

`entryScan` compares the key field of every entry of a chain, occupied or not.  It stops at the
first entry that compares equal (`entryScan_found`), returns NULL from a chain that reaches NULL
without one (`entryScan_none`), and never ends on a chain that runs into itself without one
(`entryScan_closed`).  On a table this is the lookup of a finite map for every key that is not NULL,
or before which no hole stands (`Table.getEntry_found`, `Table.getEntry_none`), and a removal makes a
hole of the pair found (`Table.vacate`). -/

namespace Nica

open Blocks Linked Rows Fueled

variable {K V : Type}

/-- The first place of a row with the contents `x`, as a place of the chain. -/
theorem rowOf_split {h : Heap (NcHashmapEntry K V)} {xs : List Loc} {r₁ r₂ : Row K V}
    {x : Option (K × V)} (hr : rowOf h xs = r₁ ++ x :: r₂) :
    ∃ ys a zs, xs = ys ++ a :: zs ∧ rowOf h ys = r₁ ∧ viewAt h a = x ∧ rowOf h zs = r₂ := by
  unfold rowOf at hr
  obtain ⟨ys, as, rfl, h₁, h₂⟩ := List.map_eq_append_iff.mp hr
  obtain ⟨a, zs, rfl, ha, h₃⟩ := List.map_eq_cons_iff.mp h₂
  exact ⟨ys, a, zs, rfl, h₁, ha, h₃⟩

/-- An entry that shows a pair. -/
theorem viewAt_eq_some {h : Heap (NcHashmapEntry K V)} {a : Loc} {p : K × V} :
    viewAt h a = some p ↔
      ∃ e, h.cells a = some e ∧ e.occ = true ∧ e.hash = p.1 ∧ e.value = p.2 := by
  obtain ⟨k, v⟩ := p
  simp only [viewAt, Option.bind_eq_some_iff, NcHashmapEntry.view]
  refine exists_congr fun e => and_congr_right fun _ => ?_
  cases ho : e.occ <;> simp

namespace NcHashmap

section scan
variable {self : NcHashmap K V} {m : Mem K V} {key : K}

theorem entryScan_found {p q : Option Loc} {xs ys : List Loc} {a : Loc} {e : NcHashmapEntry K V}
    (hp : Path NcHashmapEntry.next m.cells p (xs ++ a :: ys) q)
    (hxs : ∀ b ∈ xs, ∀ d, m.cells b = some d → self.compare d.hash key = false)
    (ha : m.cells a = some e) (he : self.compare e.hash key = true) :
    Returns (fun n => entryScan self m key n p) (some a) := by
  induction xs generalizing p with
  | nil =>
      obtain rfl := hp.head
      refine (Returns.pure (some a)).succ fun n => ?_
      simp [entryScan, ha, he]
  | cons b xs ih =>
      obtain ⟨rfl, d, hd, hp⟩ := hp
      refine (ih hp fun c hc => hxs c (List.mem_cons_of_mem b hc)).succ fun n => ?_
      simp [entryScan, hd, hxs b List.mem_cons_self d hd]

theorem entryScan_none {p : Option Loc} {xs : List Loc}
    (hp : Path NcHashmapEntry.next m.cells p xs none)
    (hxs : ∀ b ∈ xs, ∀ d, m.cells b = some d → self.compare d.hash key = false) :
    Returns (fun n => entryScan self m key n p) none := by
  induction xs generalizing p with
  | nil =>
      obtain rfl : p = none := hp
      exact (Returns.pure none).congr fun n => by cases n <;> rfl
  | cons b xs ih =>
      obtain ⟨rfl, d, hd, hp⟩ := hp
      refine (ih hp fun c hc => hxs c (List.mem_cons_of_mem b hc)).succ fun n => ?_
      simp [entryScan, hd, hxs b List.mem_cons_self d hd]

/-- On a chain that runs into itself, the search for an absent key does not end. -/
theorem entryScan_closed {p : Option Loc} {xs : List Loc} {c : Loc}
    (hp : Path NcHashmapEntry.next m.cells p xs (some c)) (hc : c ∈ xs)
    (hxs : ∀ b ∈ xs, ∀ d, m.cells b = some d → self.compare d.hash key = false) {a : Loc}
    (ha : a ∈ xs) (n : ℕ) : entryScan self m key n (some a) = .error .timeout := by
  induction n generalizing a with
  | zero => rfl
  | succ n ih =>
      obtain ⟨d, hd, b, hb, hn⟩ := hp.closed hc ha
      simp only [entryScan, hd, hxs a ha d hd, hn]
      exact ih hb

end scan

variable {s : State K V} {tails : ℕ → List ℕ} {back : ℕ → Option Loc}

/-- `get` at an entry that the lookup finds. -/
theorem get_of_getEntry [Null V] {key : K} {a : Loc} {e : NcHashmapEntry K V}
    (hr : Returns (fun n => getEntry n s key) (some a)) (ha : s.mem.cells a = some e) :
    Returns (fun n => get n s key) e.value := by
  apply hr.bind
  simp only [ha]
  exact Returns.pure _

theorem get_of_none [Null V] {key : K} (hr : Returns (fun n => getEntry n s key) none) :
    Returns (fun n => get n s key) null := hr.bind (Returns.pure _)

variable [Null K] [Null V]

/-- The state after `nc_hashmap_remove_internal` has found the entry at `a`. -/
def vacate (s : State K V) (a : Loc) (p : K × V) (remove : Bool) : State K V :=
  let m := if remove then (s.mem.freeKey s.self p.1).freeValue s.self p.2 else s.mem
  ⟨{ s.self with size := s.self.size - 1 },
    m.write a fun e => { e with hash := null, value := null, occ := false }⟩

theorem removeInternal_of_getEntry {key : K} {a : Loc} {e : NcHashmapEntry K V} (remove : Bool)
    (hr : Returns (fun n => getEntry n s key) (some a)) (ha : s.mem.cells a = some e) :
    Returns (fun n => removeInternal n s key remove)
      (true, vacate s a (e.hash, e.value) remove) := by
  apply hr.bind
  simp only [ha]
  exact Returns.pure _

theorem removeInternal_of_none {key : K} (remove : Bool)
    (hr : Returns (fun n => getEntry n s key) none) :
    Returns (fun n => removeInternal n s key remove) (false, s) := hr.bind (Returns.pure _)

@[simp] theorem vacate_heap (a : Loc) (p : K × V) (remove : Bool) :
    (vacate s a p remove).mem.toHeap =
      s.mem.toHeap.update a fun e => { e with hash := null, value := null, occ := false } := by
  unfold vacate Mem.freeKey Mem.freeValue Mem.write
  split_ifs <;> rfl

/-- Emptying an entry of a table keeps its shape and makes a hole of its place. -/
theorem vacate_shape {i : ℕ} {a : Loc} {xs ys : List Loc} {p : K × V} (remove : Bool)
    (hS : Shape s.mem.toHeap s.self.buckets s.self.nBuckets tails back)
    (hi : i < s.self.nBuckets) (hx : chainOf s.self.buckets tails i = xs ++ a :: ys) :
    Shape (vacate s a p remove).mem.toHeap s.self.buckets s.self.nBuckets tails back ∧
    rowsOf (vacate s a p remove).mem.toHeap s.self.buckets tails i =
      rowOf s.mem.toHeap xs ++ none :: rowOf s.mem.toHeap ys ∧
    ∀ j < s.self.nBuckets, j ≠ i → rowsOf (vacate s a p remove).mem.toHeap s.self.buckets tails j =
      rowsOf s.mem.toHeap s.self.buckets tails j := by
  have ha : a ∈ chainOf s.self.buckets tails i := by rw [hx]; simp
  obtain ⟨e, he⟩ := hS.cell hi ha
  rw [vacate_heap]
  refine ⟨hS.rewrite hi ha (fun _ => rfl) fun _ _ _ => ⟨rfl, rfl⟩, ?_, fun j hj hji =>
    hS.rowsOf_update hi hj hji ha _⟩
  have hnd := hS.chain_nodup hi
  rw [hx] at hnd
  rw [rowsOf, hx, rowOf_update hnd he, NcHashmapEntry.view_blank rfl]

/-- On chains that reach NULL the lookup ends at an entry of the chain, or without one. -/
theorem getEntry_shape (hS : Shape s.mem.toHeap s.self.buckets s.self.nBuckets tails fun _ => none)
    (key : K) :
    Returns (fun n => getEntry n s key) none ∨
      ∃ i < s.self.nBuckets, ∃ a ∈ chainOf s.self.buckets tails i, ∃ e, s.mem.cells a = some e ∧
        Returns (fun n => getEntry n s key) (some a) := by
  have hi : (s.self.hash key).toNat % s.self.nBuckets < s.self.nBuckets := Nat.mod_lt _ hS.pos
  have scan : ∀ {p : Option Loc} {xs : List Loc}, Path NcHashmapEntry.next s.mem.cells p xs none →
      Returns (fun n => entryScan s.self s.mem key n p) none ∨
        ∃ a ∈ xs, ∃ e, s.mem.cells a = some e ∧
          Returns (fun n => entryScan s.self s.mem key n p) (some a) := by
    intro p xs hp
    induction xs generalizing p with
    | nil => exact .inl (entryScan_none hp (by simp))
    | cons b xs ih =>
        obtain ⟨rfl, d, hd, hp⟩ := hp
        cases hc : s.self.compare d.hash key with
        | true =>
            refine .inr ⟨b, List.mem_cons_self, d, hd, (Returns.pure (some b)).succ fun n => ?_⟩
            simp [entryScan, hd, hc]
        | false =>
            have step : ∀ {r}, Returns (fun n => entryScan s.self s.mem key n d.next) r →
                Returns (fun n => entryScan s.self s.mem key n (some b)) r := fun h =>
              h.succ fun n => by simp [entryScan, hd, hc]
            exact (ih hp).imp step fun ⟨a, ha, e, he, hr⟩ =>
              ⟨a, List.mem_cons_of_mem b ha, e, he, step hr⟩
  exact (scan (hS.path _ hi)).imp id fun ⟨a, ha, h⟩ => ⟨_, hi, a, ha, h⟩

/-- A removal from chains that reach NULL empties at most one of their entries. -/
theorem removeInternal_shape
    (hS : Shape s.mem.toHeap s.self.buckets s.self.nBuckets tails fun _ => none) (key : K)
    (remove : Bool) :
    ∃ ok s', Returns (fun n => removeInternal n s key remove) (ok, s') ∧
      (s' = s ∨ ∃ i < s.self.nBuckets, ∃ a p, a ∈ chainOf s.self.buckets tails i ∧
        s' = vacate s a p remove) := by
  rcases getEntry_shape hS key with hr | ⟨i, hi, a, ha, e, he, hr⟩
  · exact ⟨false, s, removeInternal_of_none remove hr, .inl rfl⟩
  · exact ⟨true, _, removeInternal_of_getEntry remove hr he, .inr ⟨i, hi, a, _, ha, rfl⟩⟩

end NcHashmap

namespace Table

open NcHashmap

variable [Null K] [Null V] {s : State K V} {tails : ℕ → List ℕ} {back : ℕ → Option Loc} {key : K}

theorem slotOf_lt {self : NcHashmap K V} {D : K → Prop} {h : Heap (NcHashmapEntry K V)} {t n : ℕ}
    (T : Table self D h t n tails back) (k : K) : slotOf self n k < n := Nat.mod_lt _ T.pos

/-- The first pair with an equal key is found, whatever holes stand before it. -/
theorem getEntry_found {D : K → Prop}
    (T : Table s.self D s.mem.toHeap s.self.buckets s.self.nBuckets tails back)
    (hn : s.self.compare null key = false ∨ Unhidden s.self.compare (rowsOf s.mem.toHeap
      s.self.buckets tails (slotOf s.self s.self.nBuckets key)) key)
    (hh : has s.self.compare (rowsOf s.mem.toHeap s.self.buckets tails
      (slotOf s.self s.self.nBuckets key)) key = true) :
    ∃ xs a ys e,
      chainOf s.self.buckets tails (slotOf s.self s.self.nBuckets key) = xs ++ a :: ys ∧
      has s.self.compare (rowOf s.mem.toHeap xs) key = false ∧
      s.mem.cells a = some e ∧ e.occ = true ∧ s.self.compare e.hash key = true ∧
      Returns (fun n => getEntry n s key) (some a) := by
  obtain ⟨r₁, p, r₂, hr, h₁, hp⟩ := exists_first hh
  rw [hr] at hn
  obtain ⟨xs, a, ys, hx, rfl, ha, -⟩ := rowOf_split hr
  obtain ⟨e, he, ho, hek, -⟩ := viewAt_eq_some.mp ha
  have hi := T.slotOf_lt key
  have hc : s.self.compare e.hash key = true := by rw [hek]; exact hp
  refine ⟨xs, a, ys, e, hx, h₁, he, ho, hc, ?_⟩
  have hpath := T.path _ hi
  rw [hx] at hpath
  refine entryScan_found hpath (fun b hb d hd => ?_) he hc
  cases hod : d.occ with
  | false =>
      have hbc : b ∈ chainOf s.self.buckets tails (slotOf s.self s.self.nBuckets key) := by
        rw [hx]; exact List.mem_append_left _ hb
      rw [(T.blank _ hi b hbc d hd hod).1]
      refine hn.resolve_right fun hu => hu.none_notMem hp (List.mem_map.mpr ⟨b, hb, ?_⟩)
      rw [viewAt_eq hd, NcHashmapEntry.view_blank hod]
  | true =>
      refine (has_eq_false.mp h₁) (d.hash, d.value) (mem_pairs.mpr (List.mem_map.mpr ⟨b, hb, ?_⟩))
      exact viewAt_eq_some.mpr ⟨d, hd, hod, rfl, rfl⟩

section absent
variable {D : K → Prop} (T : Table s.self D s.mem.toHeap s.self.buckets s.self.nBuckets tails back)
  (hn : s.self.compare null key = false ∨ none ∉ rowsOf s.mem.toHeap s.self.buckets tails
    (slotOf s.self s.self.nBuckets key))
  (hh : has s.self.compare (rowsOf s.mem.toHeap s.self.buckets tails
    (slotOf s.self s.self.nBuckets key)) key = false)
include T hn hh

/-- No entry of the chain compares equal to a key that its row does not have. -/
theorem no_hit : ∀ b ∈ chainOf s.self.buckets tails (slotOf s.self s.self.nBuckets key),
    ∀ d, s.mem.cells b = some d → s.self.compare d.hash key = false := by
  intro b hb d hd
  cases hod : d.occ with
  | false =>
      rw [(T.blank _ (T.slotOf_lt key) b hb d hd hod).1]
      refine hn.resolve_right fun h => h (List.mem_map.mpr ⟨b, hb, ?_⟩)
      rw [viewAt_eq hd, NcHashmapEntry.view_blank hod]
  | true =>
      refine (has_eq_false.mp hh) (d.hash, d.value) (mem_pairs.mpr (List.mem_map.mpr ⟨b, hb, ?_⟩))
      exact viewAt_eq_some.mpr ⟨d, hd, hod, rfl, rfl⟩

theorem getEntry_none (hb : back (slotOf s.self s.self.nBuckets key) = none) :
    Returns (fun n => getEntry n s key) none := by
  have hpath := T.path _ (T.slotOf_lt key)
  rw [hb] at hpath
  exact entryScan_none hpath (T.no_hit hn hh)

theorem getEntry_closed (hb : back (slotOf s.self s.self.nBuckets key) ≠ none) (n : ℕ) :
    getEntry n s key = .error .timeout := by
  obtain ⟨c, hc⟩ := Option.ne_none_iff_exists'.mp hb
  have hpath := T.path _ (T.slotOf_lt key)
  rw [hc] at hpath
  exact entryScan_closed hpath (T.backIn _ (T.slotOf_lt key) c hc) (T.no_hit hn hh)
    (by simp [chainOf, slotOf]) n

end absent

/-- Emptying the first entry with an equal key erases it from its row. -/
theorem vacate {D : K → Prop}
    (T : Table s.self D s.mem.toHeap s.self.buckets s.self.nBuckets tails back) {xs ys : List Loc}
    {a : Loc} {e : NcHashmapEntry K V}
    (hx : chainOf s.self.buckets tails (slotOf s.self s.self.nBuckets key) = xs ++ a :: ys)
    (hxs : has s.self.compare (rowOf s.mem.toHeap xs) key = false) (he : s.mem.cells a = some e)
    (ho : e.occ = true) (hc : s.self.compare e.hash key = true) (remove : Bool) :
    Table s.self D (NcHashmap.vacate s a (e.hash, e.value) remove).mem.toHeap s.self.buckets
      s.self.nBuckets tails back ∧
    rowsOf (NcHashmap.vacate s a (e.hash, e.value) remove).mem.toHeap s.self.buckets tails
        (slotOf s.self s.self.nBuckets key) =
      Rows.erase s.self.compare key (rowsOf s.mem.toHeap s.self.buckets tails
        (slotOf s.self s.self.nBuckets key)) ∧
    ∀ j < s.self.nBuckets, j ≠ slotOf s.self s.self.nBuckets key →
      rowsOf (NcHashmap.vacate s a (e.hash, e.value) remove).mem.toHeap s.self.buckets tails j =
        rowsOf s.mem.toHeap s.self.buckets tails j := by
  have hi := T.slotOf_lt key
  obtain ⟨hS, hrow, hrest⟩ := vacate_shape (p := (e.hash, e.value)) remove T.toShape hi hx
  have herase : Rows.erase s.self.compare key (rowsOf s.mem.toHeap s.self.buckets tails
      (slotOf s.self s.self.nBuckets key)) =
      rowOf s.mem.toHeap xs ++ none :: rowOf s.mem.toHeap ys := by
    rw [rowsOf, hx, rowOf_append, rowOf_cons, viewAt_eq he, NcHashmapEntry.view_occ ho]
    exact erase_eq hxs hc
  exact ⟨⟨hS, T.rows.erase hrest (hrow.trans herase.symm)⟩, hrow.trans herase.symm, hrest⟩

/-- The size counts the pairs that an erasure leaves. -/
theorem size_vacate {D : K → Prop}
    (T : Table s.self D s.mem.toHeap s.self.buckets s.self.nBuckets tails back) {a : Loc}
    {p : K × V} {remove : Bool}
    (hh : has s.self.compare (rowsOf s.mem.toHeap s.self.buckets tails
      (slotOf s.self s.self.nBuckets key)) key = true)
    (hrow : rowsOf (NcHashmap.vacate s a p remove).mem.toHeap s.self.buckets tails
        (slotOf s.self s.self.nBuckets key) =
      Rows.erase s.self.compare key (rowsOf s.mem.toHeap s.self.buckets tails
        (slotOf s.self s.self.nBuckets key)))
    (hrest : ∀ j < s.self.nBuckets, j ≠ slotOf s.self s.self.nBuckets key →
      rowsOf (NcHashmap.vacate s a p remove).mem.toHeap s.self.buckets tails j =
        rowsOf s.mem.toHeap s.self.buckets tails j)
    (hsize : s.self.size =
      (contents (rowsOf s.mem.toHeap s.self.buckets tails) s.self.nBuckets).length) :
    (NcHashmap.vacate s a p remove).self.size =
      (contents (rowsOf (NcHashmap.vacate s a p remove).mem.toHeap s.self.buckets tails)
        s.self.nBuckets).length := by
  have hlen := length_contents_erase s.self.compare (T.slotOf_lt key) hrest hrow
  rw [if_pos hh] at hlen
  change s.self.size - 1 = _
  rw [hsize, hlen]
  push_cast
  exact Int.add_sub_cancel _ _

end Table
end Nica
