import Nica.HashmapLookup

/-! # Insertion into a bucket

`insertBucket` on a table: a pair with an equal key is overwritten (`insertBucket_replace`), else
the last hole of the chain is filled (`insertBucket_fill`), else an overflow node is added
(`insertBucket_append`) unless its allocation fails (`insertBucket_fail`).  In each case the row of
the bucket is `Rows.put` of the row before and nothing else changes (`Inserted`).

Filling a hole that is not the last entry of its chain makes the last entry point back to it
(`Relinks`): the chain then runs into itself.  On such a chain a key that is not there can no longer
be inserted: the search does not end (`insertBucket_closed`). -/

namespace Nica

open Blocks Linked Rows Fueled

variable {K V : Type}

/-- The last unoccupied cell of a list, or `t` when there is none. -/
def lastHole (h : Heap (NcHashmapEntry K V)) : List Loc → Option Loc → Option Loc
  | [], t => t
  | a :: xs, t => lastHole h xs (if (viewAt h a).isSome then t else some a)

theorem lastHole_none {h : Heap (NcHashmapEntry K V)} {xs : List Loc} (hn : none ∉ rowOf h xs)
    (t : Option Loc) : lastHole h xs t = t := by
  induction xs generalizing t with
  | nil => rfl
  | cons a xs ih =>
      rw [rowOf_cons, List.mem_cons, not_or] at hn
      have ha : (viewAt h a).isSome = true := Option.isSome_iff_ne_none.mpr (Ne.symm hn.1)
      rw [lastHole, if_pos ha, ih hn.2]

theorem lastHole_append {h : Heap (NcHashmapEntry K V)} (xs ys : List Loc) (t : Option Loc) :
    lastHole h (xs ++ ys) t = lastHole h ys (lastHole h xs t) := by
  induction xs generalizing t with
  | nil => rfl
  | cons a xs ih => exact ih _

theorem lastHole_eq {h : Heap (NcHashmapEntry K V)} {xs ys : List Loc} {a : Loc}
    (ha : viewAt h a = none) (hn : none ∉ rowOf h ys) (t : Option Loc) :
    lastHole h (xs ++ a :: ys) t = some a := by
  rw [lastHole_append, lastHole, ha, lastHole_none hn]
  rfl

/-- Changing the `next` field of a cell shows in no row. -/
theorem viewAt_update_next (h : Heap (NcHashmapEntry K V)) (a b : Loc) (q : Option Loc) :
    viewAt (h.update a fun e => { e with next := q }) b = viewAt h b := by
  by_cases hb : b = a
  · subst hb
    unfold viewAt
    rw [Heap.update_self]
    cases h.cells b <;> rfl
  · rw [viewAt, h.update_ne _ hb]; rfl

theorem rowOf_update_next (h : Heap (NcHashmapEntry K V)) (a : Loc) (q : Option Loc)
    (xs : List Loc) : rowOf (h.update a fun e => { e with next := q }) xs = rowOf h xs :=
  List.map_congr_left fun b _ => viewAt_update_next h a b q

/-- A list that is not empty ends in its last element. -/
theorem exists_getLastD {α : Type} {xs : List α} (hx : xs ≠ []) (d : α) :
    ∃ zs, xs = zs ++ [xs.getLastD d] := by
  refine ⟨xs.dropLast, ?_⟩
  rw [List.getLastD_eq_getLast?, List.getLast?_eq_some_getLast hx, Option.getD_some,
    List.dropLast_append_getLast hx]

namespace NcHashmap

section scan
variable {self : NcHashmap K V} {m : Mem K V} {key : K}

theorem has_rowOf_cons {a : Loc} {e : NcHashmapEntry K V} (ha : m.cells a = some e)
    (xs : List Loc) : has self.compare (rowOf m.toHeap (a :: xs)) key =
      (e.occ && self.compare e.hash key || has self.compare (rowOf m.toHeap xs) key) := by
  rw [rowOf_cons, viewAt_eq ha]
  cases ho : e.occ <;> simp [NcHashmapEntry.view, ho]

theorem insertScan_found {p q : Option Loc} {xs ys : List Loc} {a : Loc} {e : NcHashmapEntry K V}
    (hp : Path NcHashmapEntry.next m.cells p (xs ++ a :: ys) q)
    (hxs : has self.compare (rowOf m.toHeap xs) key = false) (ha : m.cells a = some e)
    (ho : e.occ = true) (he : self.compare e.hash key = true) (parent : Loc) (tomb : Option Loc) :
    Returns (fun n => insertScan self m key n p parent tomb) (.found a e) := by
  induction xs generalizing p parent tomb with
  | nil =>
      obtain rfl := hp.head
      refine (Returns.pure (Scan.found a e)).succ fun n => ?_
      simp [insertScan, ha, ho, he]
  | cons b xs ih =>
      obtain ⟨rfl, d, hd, hp⟩ := hp
      rw [has_rowOf_cons hd, Bool.or_eq_false_iff] at hxs
      refine (ih hp hxs.2 b (if d.occ then tomb else some b)).succ fun n => ?_
      simp only [insertScan, hd, hxs.1]
      rfl

theorem insertScan_ended {p : Option Loc} {xs : List Loc}
    (hp : Path NcHashmapEntry.next m.cells p xs none)
    (hxs : has self.compare (rowOf m.toHeap xs) key = false) (parent : Loc) (tomb : Option Loc) :
    Returns (fun n => insertScan self m key n p parent tomb)
      (.ended (xs.getLastD parent) (lastHole m.toHeap xs tomb)) := by
  induction xs generalizing p parent tomb with
  | nil =>
      obtain rfl : p = none := hp
      exact (Returns.pure _).congr fun n => by cases n <;> rfl
  | cons b xs ih =>
      obtain ⟨rfl, d, hd, hp⟩ := hp
      rw [has_rowOf_cons hd, Bool.or_eq_false_iff] at hxs
      rw [List.getLastD_cons, lastHole, viewAt_eq hd]
      refine (ih hp hxs.2 b _).succ fun n => ?_
      simp only [insertScan, hd, hxs.1]
      cases ho : d.occ <;> simp [NcHashmapEntry.view, ho]

/-- On a chain that runs into itself, the search for an absent key does not end. -/
theorem insertScan_closed {p : Option Loc} {xs : List Loc} {c : Loc}
    (hp : Path NcHashmapEntry.next m.cells p xs (some c)) (hc : c ∈ xs)
    (hxs : has self.compare (rowOf m.toHeap xs) key = false) {a : Loc} (ha : a ∈ xs) (n : ℕ)
    (parent : Loc) (tomb : Option Loc) :
    insertScan self m key n (some a) parent tomb = .error .timeout := by
  induction n generalizing a parent tomb with
  | zero => rfl
  | succ n ih =>
      obtain ⟨d, hd, b, hb, hn⟩ := hp.closed hc ha
      have hno : (d.occ && self.compare d.hash key) = false := by
        rw [← Bool.not_eq_true, Bool.and_eq_true]
        rintro ⟨ho, hk⟩
        have := has_eq_false.mp hxs (d.hash, d.value)
          (mem_pairs.mpr (List.mem_map.mpr ⟨a, ha, viewAt_eq_some.mpr ⟨d, hd, ho, rfl, rfl⟩⟩))
        rw [hk] at this
        cases this
      simp only [insertScan, hd, hno, hn]
      exact ih hb _ _

end scan

@[simp] theorem freeKey_heap (m : Mem K V) (self : NcHashmap K V) (k : K) :
    (m.freeKey self k).toHeap = m.toHeap := by unfold Mem.freeKey; split_ifs <;> rfl

@[simp] theorem freeValue_heap (m : Mem K V) (self : NcHashmap K V) (v : V) :
    (m.freeValue self v).toHeap = m.toHeap := by unfold Mem.freeValue; split_ifs <;> rfl

@[simp] theorem place_log (m : Mem K V) (parent row : Loc) (key : K) (value : V) :
    (place m parent row key value).log = m.log := by unfold place; split_ifs <;> rfl

@[simp] theorem place_tick (m : Mem K V) (parent row : Loc) (key : K) (value : V) :
    (place m parent row key value).tick = m.tick := by unfold place; split_ifs <;> rfl

@[simp] theorem place_grants (m : Mem K V) (parent row : Loc) (key : K) (value : V) :
    (place m parent row key value).grants = m.grants := by unfold place; split_ifs <;> rfl

section place
variable {m : Mem K V} {key : K} {value : V}

/-- Linking a filled cell behind the last entry of its chain, or leaving it where it is. -/
theorem place_heap (m : Mem K V) (parent row : Loc) :
    (place m parent row key value).toHeap =
      if parent = row then
        m.toHeap.update row fun e => { e with hash := key, value := value, occ := true }
      else
        (m.toHeap.update row fun e => { e with hash := key, value := value, occ := true }).update
          parent fun e => { e with next := some row } := by
  by_cases h : parent = row <;> simp [place, Mem.write, h]

theorem place_parent {parent row : Loc} {e : NcHashmapEntry K V} (hne : parent ≠ row)
    (he : m.cells parent = some e) :
    (place m parent row key value).cells parent = some { e with next := some row } := by
  rw [place_heap, if_neg hne, Heap.update_self, Heap.update_ne _ _ hne, he]
  rfl

/-- `place` shows the pair in `row` and changes no other place. -/
theorem place_rowOf {xs ys : List Loc} {row : Loc} {e : NcHashmapEntry K V}
    (hnd : (xs ++ row :: ys).Nodup) (he : m.cells row = some e) (parent : Loc) :
    rowOf (place m parent row key value).toHeap (xs ++ row :: ys) =
      rowOf m.toHeap xs ++ some (key, value) :: rowOf m.toHeap ys := by
  have hv : ({ e with hash := key, value := value, occ := true } : NcHashmapEntry K V).view =
      some (key, value) := NcHashmapEntry.view_occ rfl
  rw [place_heap]
  split_ifs
  · rw [rowOf_update hnd he, hv]
  · rw [rowOf_update_next, rowOf_update hnd he, hv]

theorem place_cells_ne {parent row b : Loc} (hp : b ≠ parent) (hr : b ≠ row) :
    (place m parent row key value).cells b = m.cells b := by
  rw [place_heap]
  split_ifs
  · exact m.toHeap.update_ne _ hr
  · rw [Heap.update_ne _ _ hp, Heap.update_ne _ _ hr]

/-- Whether a cell is allocated does not change. -/
theorem place_isSome (parent row b : Loc) :
    ((place m parent row key value).cells b).isSome = (m.cells b).isSome := by
  rw [place_heap]
  have key_eq : ∀ (h : Heap (NcHashmapEntry K V)) a f,
      ((h.update a f).cells b).isSome = (h.cells b).isSome := by
    intro h a f
    by_cases hb : b = a
    · subst hb; rw [Heap.update_self, Option.isSome_map]
    · rw [Heap.update_ne _ _ hb]
  split_ifs
  · exact key_eq _ _ _
  · rw [key_eq, key_eq]

/-- `place` changes no `next` field but that of a `parent` other than `row`. -/
theorem place_next {parent row b : Loc} (hb : b = parent → parent = row) :
    ((place m parent row key value).cells b).map NcHashmapEntry.next =
      (m.cells b).map NcHashmapEntry.next := by
  have fill : ∀ (h : Heap (NcHashmapEntry K V)),
      ((h.update row fun e => { e with hash := key, value := value, occ := true }).cells b).map
        NcHashmapEntry.next = (h.cells b).map NcHashmapEntry.next := by
    intro h
    by_cases hbr : b = row
    · subst hbr; rw [Heap.update_self, Option.map_map]; rfl
    · rw [Heap.update_ne _ _ hbr]
  rw [place_heap]
  split_ifs with h
  · exact fill _
  · rw [Heap.update_ne _ _ fun e => h (hb e)]
    exact fill _

/-- The entries that `place` leaves unoccupied are unchanged up to their `next` field. -/
theorem place_blank {parent row b : Loc} {e : NcHashmapEntry K V}
    (hb : (place m parent row key value).cells b = some e) (ho : e.occ = false) :
    b ≠ row ∧ ∃ d, m.cells b = some d ∧ d.occ = false ∧ d.hash = e.hash ∧ d.value = e.value := by
  have fill : ∀ e, (m.toHeap.update row fun e =>
      { e with hash := key, value := value, occ := true }).cells b = some e → e.occ = false →
      b ≠ row ∧ m.cells b = some e := by
    intro e hb ho
    by_cases hbr : b = row
    · subst hbr
      rw [Heap.update_self, Option.map_eq_some_iff] at hb
      obtain ⟨d, -, rfl⟩ := hb
      cases ho
    · rw [Heap.update_ne _ _ hbr] at hb
      exact ⟨hbr, hb⟩
  rw [place_heap] at hb
  split_ifs at hb with h
  · exact ⟨(fill e hb ho).1, e, (fill e hb ho).2, ho, rfl, rfl⟩
  · by_cases hbp : b = parent
    · subst hbp
      rw [Heap.update_self, Option.map_eq_some_iff] at hb
      obtain ⟨d, hd, rfl⟩ := hb
      exact ⟨(fill d hd ho).1, d, (fill d hd ho).2, ho, rfl, rfl⟩
    · rw [Heap.update_ne _ _ hbp] at hb
      exact ⟨(fill e hb ho).1, e, (fill e hb ho).2, ho, rfl, rfl⟩

end place

/-- Filling a hole of the row `r` for the key `k` makes the last entry point back to it. -/
def Relinks (compare : K → K → Bool) (r : Row K V) (k : K) : Prop :=
  has compare r k = false ∧ none ∈ r ∧ r.getLast? ≠ some none

variable [Null K] [Null V]

/-- `m'` is `m` after an insertion into bucket `i` of a table. -/
structure Inserted (map : NcHashmap K V) (m m' : Mem K V) (t n : ℕ) (tails : ℕ → List ℕ)
    (back : ℕ → Option Loc) (i : ℕ) (k : K) (v : V) (tails' : ℕ → List ℕ)
    (back' : ℕ → Option Loc) : Prop where
  shape : Shape m'.toHeap t n tails' back'
  row : rowsOf m'.toHeap t tails' i = Rows.put map.compare (rowsOf m.toHeap t tails i) k v
  rest : ∀ j < n, j ≠ i → rowsOf m'.toHeap t tails' j = rowsOf m.toHeap t tails j
  frame : ∀ a, a ∉ chainOf t tails i → a ≠ .node m.tick → m'.cells a = m.cells a
  grants : m'.grants = m.grants
  nodes : ∀ j < n, ∀ b ∈ tails' j, b ∈ tails j ∨ b = m.tick
  acyclic : ¬ Relinks map.compare (rowsOf m.toHeap t tails i) k → ∀ j < n, back' j = back j

variable {self : NcHashmap K V} {m : Mem K V} {t n : ℕ} {tails : ℕ → List ℕ}
  {back : ℕ → Option Loc} {key : K} {value : V} {hash : UInt32}

/-- A pair with an equal key is overwritten, and the old pair goes to the cleanup functions. -/
theorem insertBucket_replace (value : V) (hS : Shape m.toHeap t n tails back)
    (hk : has self.compare (rowsOf m.toHeap t tails (hash.toNat % n)) key = true) :
    ∃ m', Returns (fun f => insertBucket self f m t n hash key value) (0, m') ∧
      Inserted self m m' t n tails back (hash.toNat % n) key value tails back ∧
      m'.tick = m.tick ∧
      ∃ p ∈ pairs (rowsOf m.toHeap t tails (hash.toNat % n)), self.compare p.1 key = true ∧
        m'.log = ((m.freeValue self p.2).freeKey self p.1).log := by
  have hi : hash.toNat % n < n := Nat.mod_lt _ hS.pos
  obtain ⟨r₁, p, r₂, hr, h₁, hp⟩ := exists_first hk
  obtain ⟨xs, a, ys, hx, rfl, ha, rfl⟩ := rowOf_split hr
  obtain ⟨e, he, ho, hek, hev⟩ := viewAt_eq_some.mp ha
  have hmem : a ∈ chainOf t tails (hash.toNat % n) := by rw [hx]; simp
  have hpath := hS.path _ hi
  have hnd := hS.chain_nodup hi
  rw [hx] at hpath hnd
  have hheap : (((m.freeValue self e.value).freeKey self e.hash).write a
      fun e => { e with hash := key, value := value }).toHeap =
      m.toHeap.update a fun e => { e with hash := key, value := value } := by simp [Mem.write]
  refine ⟨((m.freeValue self e.value).freeKey self e.hash).write a
    fun e => { e with hash := key, value := value }, ?_, ?_, ?_, p, ?_, hp, ?_⟩
  · exact (insertScan_found hpath h₁ he ho (by rw [hek]; exact hp) _ none).bind (Returns.pure _)
  · constructor
    · rw [hheap]
      refine hS.rewrite hi hmem (fun _ => rfl) fun d hd hdo => ?_
      rw [Option.some.inj (hd.symm.trans he)] at hdo
      exact absurd ho (by simp [show e.occ = false from hdo])
    · have hv : ({ e with hash := key, value := value } : NcHashmapEntry K V).view =
          some (key, value) := NcHashmapEntry.view_occ ho
      rw [hheap, hr, rowsOf, hx, rowOf_update hnd he, hv]
      rw [Rows.put, if_pos (by simp [hp]), replace_eq value h₁ hp]
    · intro j hj hji
      rw [hheap]
      exact hS.rowsOf_update hi hj hji hmem _
    · intro b hb _
      rw [hheap]
      exact Heap.update_ne _ _ fun e => hb (e ▸ hmem)
    · rw [hheap]; rfl
    · exact fun j _ b hb => .inl hb
    · exact fun _ _ _ => rfl
  · rw [hheap]; rfl
  · rw [hr]; simp
  · rw [← hek, ← hev]; rfl

/-- Without an equal key the last hole of the chain is filled; unless it is the last entry, the
chain then runs back to it. -/
theorem insertBucket_fill (value : V) (hS : Shape m.toHeap t n tails back)
    (hb : back (hash.toNat % n) = none)
    (hk : has self.compare (rowsOf m.toHeap t tails (hash.toNat % n)) key = false)
    (hn : none ∈ rowsOf m.toHeap t tails (hash.toNat % n)) :
    ∃ m' back', Returns (fun f => insertBucket self f m t n hash key value) (1, m') ∧
      Inserted self m m' t n tails back (hash.toNat % n) key value tails back' ∧
      m'.tick = m.tick ∧ m'.log = m.log := by
  have hi : hash.toNat % n < n := Nat.mod_lt _ hS.pos
  obtain ⟨r₁, r₂, hr, h₂⟩ := exists_last_hole hn
  obtain ⟨xs, a, ys, hx, rfl, ha, rfl⟩ := rowOf_split hr
  have hmem : a ∈ chainOf t tails (hash.toNat % n) := by rw [hx]; simp
  have hpath := hS.path _ hi
  have hnd : (xs ++ a :: ys).Nodup := hx ▸ hS.chain_nodup hi
  obtain ⟨e, he⟩ := hS.cell hi hmem
  rw [hb] at hpath
  -- the search ends behind the last entry `par`, having seen `a` as the last hole
  obtain ⟨zs, hz⟩ := exists_getLastD (chainOf_ne_nil t tails (hash.toNat % n))
    (Loc.slot t (hash.toNat % n))
  generalize hpar : (chainOf t tails (hash.toNat % n)).getLastD (.slot t (hash.toNat % n)) = par at hz
  have hscan := insertScan_ended hpath hk (.slot t (hash.toNat % n)) none
  rw [hpar, hx, lastHole_eq ha h₂] at hscan
  refine ⟨place m par a key value,
    Function.update back (hash.toNat % n) (if par = a then none else some a),
    hscan.bind (Returns.pure _), ?_, by simp, by simp⟩
  have hparmem : par ∈ chainOf t tails (hash.toNat % n) := by rw [hz]; simp
  have off : ∀ b, b ∉ chainOf t tails (hash.toNat % n) →
      (place m par a key value).cells b = m.cells b := fun b hb =>
    place_cells_ne (fun e => hb (e ▸ hparmem)) (fun e => hb (e ▸ hmem))
  have hpath' : Path NcHashmapEntry.next (place m par a key value).cells
      (some (.slot t (hash.toNat % n))) (chainOf t tails (hash.toNat % n))
      (if par = a then none else some a) := by
    by_cases hpa : par = a
    · rw [if_pos hpa]
      exact hpath.congr fun b _ => place_next fun _ => hpa
    · rw [if_neg hpa, hz]
      rw [hz] at hpath
      obtain ⟨d, hd⟩ := hS.cell hi hparmem
      refine hpath.relink (place_parent hpa hd) fun b hb => place_next fun e => ?_
      have hnd := hS.chain_nodup hi
      rw [hz] at hnd
      exact absurd rfl ((List.nodup_append.mp hnd).2.2 par (e ▸ hb) par List.mem_cons_self)
  have hshape : Shape (place m par a key value).toHeap t n
      (Function.update tails (hash.toNat % n) (tails (hash.toNat % n)))
      (Function.update back (hash.toNat % n) (if par = a then none else some a)) :=
    hS.change hi (fun j => place_isSome _ _ _)
      (fun j hj hji b hb => off b (hS.chain_apart hj hi hji hb)) hpath'
      (fun b hb => by split_ifs at hb; exact Option.some.inj hb ▸ hmem) (hS.nodup _ hi)
      (fun j hj hji b hb => hS.apart _ hi j hj (Ne.symm hji) b hb)
      (fun b hb d hd ho => by
        obtain ⟨-, d', hd', ho', h₁, h₂⟩ := place_blank hd ho
        rw [← h₁, ← h₂]
        exact hS.blank _ hi b hb d' hd' ho')
  rw [Function.update_eq_self] at hshape
  refine ⟨hshape, ?_, fun j hj hji => rowOf_congr fun b hb =>
    off b (hS.chain_apart hj hi hji hb), fun b hb _ => off b hb, place_grants _ _ _ _ _,
    fun j _ b hb => .inl hb, fun hnr j hj => ?_⟩
  · rw [hr, rowsOf, hx, place_rowOf hnd he]
    rw [hr] at hk
    rw [Rows.put, hk, if_neg (by simp), if_pos (holed_iff.mpr (by simp)), fillLast_eq _ h₂]
  · -- the last entry shows the last place of the row, so here it is the hole
    by_cases hji : j = hash.toNat % n
    · rw [hji, Function.update_self, hb, if_pos]
      by_contra hpa
      refine hnr ⟨hk, hn, fun hl => ?_⟩
      rcases List.eq_nil_or_concat ys with rfl | ⟨ws, w, rfl⟩
      · rw [hx] at hpar
        exact hpa (by simpa using hpar.symm)
      · simp only [hr, List.concat_eq_append, rowOf_append, rowOf_cons, rowOf_nil,
          ← List.cons_append, ← List.append_assoc, List.getLast?_concat, Option.some.injEq] at hl
        exact h₂ (by simp [hl])
    · exact Function.update_of_ne hji _ _

/-- A new node stands in no chain. -/
theorem tick_notMem (hS : Shape m.toHeap t n tails back) {j : ℕ} (hj : j < n) :
    Loc.node m.tick ∉ chainOf t tails j := by
  intro hb
  obtain ⟨d, hd⟩ := hS.cell hj hb
  exact absurd (Heap.block_lt hd) (by simp [Loc.block])

/-- Hanging a node that is in no chain behind the last entry of a chain. -/
theorem place_append (key : K) (value : V) (hS : Shape m.toHeap t n tails back) {i : ℕ} (hi : i < n)
    (hb : back i = none) {c : ℕ} {e : NcHashmapEntry K V} (he : m.cells (Loc.node c) = some e)
    (hen : e.next = none) (hc : ∀ j < n, Loc.node c ∉ chainOf t tails j) {zs : List Loc} {par : Loc}
    (hz : chainOf t tails i = zs ++ [par]) :
    Shape (place m par (Loc.node c) key value).toHeap t n (Function.update tails i (tails i ++ [c]))
      (Function.update back i none) ∧
    rowsOf (place m par (Loc.node c) key value).toHeap t (Function.update tails i (tails i ++ [c])) i =
      rowsOf m.toHeap t tails i ++ [some (key, value)] := by
  have hparmem : par ∈ chainOf t tails i := by rw [hz]; simp
  have hne : par ≠ Loc.node c := fun e => hc i hi (e ▸ hparmem)
  have hnd := hS.chain_nodup hi
  have hpath := hS.path i hi
  rw [hb, hz] at hpath
  have hchain : Loc.slot t i :: (tails i ++ [c]).map .node = chainOf t tails i ++ [Loc.node c] := by
    simp [chainOf]
  have hnd' : (chainOf t tails i ++ [Loc.node c]).Nodup := by
    refine List.nodup_append.mpr ⟨hnd, List.nodup_singleton (Loc.node c), fun b hb d hd => ?_⟩
    rw [List.mem_singleton.mp hd]
    exact fun e => hc i hi (e ▸ hb)
  have off : ∀ b, b ∉ chainOf t tails i → b ≠ Loc.node c →
      (place m par (Loc.node c) key value).cells b = m.cells b := fun b hb hbc =>
    place_cells_ne (fun e => hb (e.symm ▸ hparmem)) hbc
  have hpath' : Path NcHashmapEntry.next (place m par (Loc.node c) key value).cells
      (some (.slot t i)) (chainOf t tails i ++ [Loc.node c]) none := by
    obtain ⟨d, hd⟩ := hS.cell hi hparmem
    have hnext : ((place m par (Loc.node c) key value).cells (Loc.node c)).map NcHashmapEntry.next =
        some none := by rw [place_next fun e => absurd e.symm hne, he, Option.map_some, hen]
    obtain ⟨d', hd', hdn⟩ := Option.map_eq_some_iff.mp hnext
    rw [hz]
    refine Path.append (hpath.relink (place_parent hne hd) fun b hb => place_next fun e => ?_)
      ⟨rfl, d', hd', hdn⟩
    rw [hz] at hnd
    exact absurd e ((List.nodup_append.mp hnd).2.2 b hb par List.mem_cons_self)
  refine ⟨hS.change hi (fun j => place_isSome _ _ _) ?_ (hchain ▸ hpath') (by simp) ?_ ?_ ?_, ?_⟩
  · exact fun j hj hji b hb => off b (hS.chain_apart hj hi hji hb) fun e => hc j hj (e ▸ hb)
  · rw [← hchain, List.nodup_cons] at hnd'
    exact hnd'.2.of_map _
  · intro j hj hji b hb
    rcases List.mem_append.mp hb with hb | hb
    · exact hS.apart i hi j hj (Ne.symm hji) b hb
    · rw [List.mem_singleton.mp hb]
      exact fun hbo => hc j hj (mem_chainOf.mpr (.inr ⟨c, hbo, rfl⟩))
  · intro b hb e he ho
    obtain ⟨hbc, d, hd, hdo, h₁, h₂⟩ := place_blank he ho
    rw [hchain] at hb
    rw [← h₁, ← h₂]
    refine hS.blank i hi b ?_ d hd hdo
    simpa [hbc] using hb
  · rw [rowsOf, chainOf, Function.update_self, hchain, place_rowOf hnd' he]
    rfl

/-- Without an equal key and without a hole an overflow node is added, if it can be allocated. -/
theorem insertBucket_append (value : V) (hS : Shape m.toHeap t n tails back)
    (hb : back (hash.toNat % n) = none)
    (hk : has self.compare (rowsOf m.toHeap t tails (hash.toNat % n)) key = false)
    (hn : none ∉ rowsOf m.toHeap t tails (hash.toNat % n)) (hg : m.grants m.tick = true) :
    ∃ m' tails' back', Returns (fun f => insertBucket self f m t n hash key value) (1, m') ∧
      Inserted self m m' t n tails back (hash.toNat % n) key value tails' back' ∧
      m'.tick = m.tick + 1 ∧ m'.log = m.log := by
  have hi : hash.toNat % n < n := Nat.mod_lt _ hS.pos
  have hpath := hS.path _ hi
  rw [hb] at hpath
  obtain ⟨zs, hz⟩ := exists_getLastD (chainOf_ne_nil t tails (hash.toNat % n))
    (Loc.slot t (hash.toNat % n))
  have hscan := insertScan_ended hpath hk (.slot t (hash.toNat % n)) none
  rw [lastHole_none hn] at hscan
  generalize (chainOf t tails (hash.toNat % n)).getLastD (.slot t (hash.toNat % n)) = par at hz hscan
  let g : Mem K V := { m with toHeap := m.toHeap.grantNode NcHashmapEntry.zero }
  have hgrant : ∀ j < n, ∀ b ∈ chainOf t tails j, g.cells b = m.cells b := fun j hj b hb =>
    Heap.grantNode_ne _ _ fun e => tick_notMem hS hj (e ▸ hb)
  have hgS : Shape g.toHeap t n tails back := hS.congr (fun j hj => by
    rw [show g.cells (.slot t j) = m.cells (.slot t j) from Heap.grantNode_ne _ _ (by simp)]
    exact hS.table_none hj) hgrant
  have hgrow : ∀ j < n, rowsOf g.toHeap t tails j = rowsOf m.toHeap t tails j := fun j hj =>
    rowOf_congr (hgrant j hj)
  obtain ⟨hshape, hrow⟩ := place_append key value hgS hi hb (Heap.grantNode_self _ _) rfl
    (fun j hj => tick_notMem hS hj) hz
  have off : ∀ b, b ∉ chainOf t tails (hash.toNat % n) → b ≠ .node m.tick →
      (place g par (.node m.tick) key value).cells b = m.cells b := fun b hb hbn => by
    rw [place_cells_ne (fun e => hb (by rw [hz, e]; simp)) hbn]
    exact Heap.grantNode_ne _ _ hbn
  refine ⟨place g par (.node m.tick) key value, _, _, ?_, ⟨hshape, ?_, ?_, off, by simp [g], ?_, ?_⟩,
    by simp [g], by simp [g]⟩
  · apply hscan.bind
    simp only [Heap.callocNode, hg, if_true]
    exact Returns.pure _
  · rw [hrow, hgrow _ hi, Rows.put, hk, if_neg (by simp), if_neg (by rwa [holed_iff])]
  · intro j hj hji
    rw [rowsOf, chainOf_congr (Function.update_of_ne hji _ _)]
    refine rowOf_congr fun b hb => off b (hS.chain_apart hj hi hji hb) ?_
    exact fun e => tick_notMem hS hj (e ▸ hb)
  · intro j _ b hbj
    by_cases hji : j = hash.toNat % n
    · rw [hji, Function.update_self, List.mem_append, List.mem_singleton] at hbj
      exact hji ▸ hbj
    · rw [Function.update_of_ne hji] at hbj
      exact .inl hbj
  · intro _ j _
    by_cases hji : j = hash.toNat % n
    · rw [hji, Function.update_self, hb]
    · exact Function.update_of_ne hji _ _

/-- The allocation of the overflow node fails: nothing is stored. -/
theorem insertBucket_fail (value : V) (hS : Shape m.toHeap t n tails back)
    (hb : back (hash.toNat % n) = none)
    (hk : has self.compare (rowsOf m.toHeap t tails (hash.toNat % n)) key = false)
    (hn : none ∉ rowsOf m.toHeap t tails (hash.toNat % n)) (hg : m.grants m.tick = false) :
    Returns (fun f => insertBucket self f m t n hash key value)
      (-1, { m with toHeap := m.toHeap.pass }) := by
  have hi : hash.toNat % n < n := Nat.mod_lt _ hS.pos
  have hpath := hS.path _ hi
  rw [hb] at hpath
  have hscan := insertScan_ended hpath hk (.slot t (hash.toNat % n)) none
  rw [lastHole_none hn] at hscan
  apply hscan.bind
  simp only [Heap.callocNode, hg]
  exact Returns.pure _

/-- A key that is not in a chain that runs into itself is never inserted. -/
theorem insertBucket_closed (hS : Shape m.toHeap t n tails back)
    (hb : back (hash.toNat % n) ≠ none)
    (hk : has self.compare (rowsOf m.toHeap t tails (hash.toNat % n)) key = false) (f : ℕ) :
    insertBucket self f m t n hash key value = .error .timeout := by
  have hi : hash.toNat % n < n := Nat.mod_lt _ hS.pos
  obtain ⟨c, hc⟩ := Option.ne_none_iff_exists'.mp hb
  have hpath := hS.path _ hi
  rw [hc] at hpath
  rw [insertBucket, insertScan_closed hpath (hS.backIn _ hi c hc) hk (by simp [chainOf]) f]
  rfl

end NcHashmap
end Nica
