import Nica.HashmapOperations
import Nica.Sweep

/-! # Iteration

The iterator keeps a bucket index and a bare pointer.  Over a table whose chains reach NULL its
position is the list of the cells that it has still to visit (`IterAt`): `iterNext` moves behind the
first occupied one of them (`iterNext_yield`), or, when there is none, returns `false` now and at any
later call (`iterNext_stop`).  Removals leave every position alone (`IterAt.vacate`), so an iteration
mixed with removals is a sweep over the cells of the table (`IterRun.iterating`). -/

namespace Nica

open Blocks Linked Rows Fueled Sweeps

variable {K V : Type}

/-- The cells of the chains from slot `b` on, in the order of the iterator. -/
def cellsFrom (t : ℕ) (tails : ℕ → List ℕ) (n b : ℕ) : List Loc :=
  (List.range' b (n - b)).flatMap (chainOf t tails)

theorem cellsFrom_lt {t n b : ℕ} (hb : b < n) (tails : ℕ → List ℕ) :
    cellsFrom t tails n b = chainOf t tails b ++ cellsFrom t tails n (b + 1) := by
  unfold cellsFrom
  obtain ⟨k, rfl⟩ : ∃ k, n = b + (k + 1) := ⟨n - b - 1, by omega⟩
  rw [Nat.add_sub_cancel_left, List.range'_succ, List.flatMap_cons,
    show b + (k + 1) - (b + 1) = k by omega]

theorem cellsFrom_ge {t n b : ℕ} (hb : n ≤ b) (tails : ℕ → List ℕ) : cellsFrom t tails n b = [] := by
  unfold cellsFrom
  rw [Nat.sub_eq_zero_of_le hb]
  rfl

theorem mem_cellsFrom_zero {t n : ℕ} {tails : ℕ → List ℕ} {a : Loc} :
    a ∈ cellsFrom t tails n 0 ↔ ∃ i < n, a ∈ chainOf t tails i := by
  simp [cellsFrom]

namespace NcHashmap

variable {s : State K V} {tails : ℕ → List ℕ} {bucket : ℤ} {item : Option Loc} {us vs : List Loc}
  {a : Loc} {e : NcHashmapEntry K V}

/-- The iterator skips cells that are not occupied. -/
theorem iterLoop_skip {next : Option Loc}
    (hp : Path NcHashmapEntry.next s.mem.cells item us next)
    (hu : ∀ u ∈ us, viewAt s.mem.toHeap u = none) (hb : bucket < s.self.nBuckets)
    {r : ℤ × Option (NcHashmapEntry K V)}
    (hr : Returns (fun f => iterLoop s f bucket next) r) :
    Returns (fun f => iterLoop s f bucket item) r := by
  induction us generalizing item with
  | nil =>
      obtain rfl : item = next := hp
      exact hr
  | cons u us ih =>
      obtain ⟨rfl, d, hd, hp⟩ := hp
      have hdo := viewAt_eq_none hd (hu u List.mem_cons_self)
      refine (ih hp fun w hw => hu w (List.mem_cons_of_mem u hw)).succ fun f => ?_
      simp [iterLoop, hd, hdo, not_le.mpr hb]

theorem iterLoop_found (hp : Path NcHashmapEntry.next s.mem.cells item (us ++ a :: vs) none)
    (hu : ∀ u ∈ us, viewAt s.mem.toHeap u = none) (ha : s.mem.cells a = some e)
    (ho : e.occ = true) (hb : bucket < s.self.nBuckets) :
    Returns (fun f => iterLoop s f bucket item) (bucket, some e) := by
  obtain ⟨next, hskip, hrest⟩ := path_append.mp hp
  obtain rfl := hrest.head
  apply iterLoop_skip hskip hu hb
  apply (Returns.pure (bucket, some e)).succ
  intro f
  simp [iterLoop, ha, ho, not_le.mpr hb]

/-- Behind the last bucket nothing is found any more. -/
theorem iterLoop_stale (hp : Path NcHashmapEntry.next s.mem.cells item us none)
    (hu : ∀ u ∈ us, viewAt s.mem.toHeap u = none) (hb : (s.self.nBuckets : ℤ) ≤ bucket) :
    ∃ b', (s.self.nBuckets : ℤ) ≤ b' ∧ Returns (fun f => iterLoop s f bucket item) (b', none) := by
  induction us generalizing item with
  | nil =>
      obtain rfl : item = none := hp
      refine ⟨bucket + 1, by omega, (Returns.pure _).succ fun f => ?_⟩
      rw [iterLoop, if_pos (by omega)]
  | cons u us ih =>
      obtain ⟨rfl, d, hd, hp⟩ := hp
      have hdo := viewAt_eq_none hd (hu u List.mem_cons_self)
      cases us with
      | nil =>
          have hn : d.next = none := hp
          refine ⟨bucket, hb, (Returns.pure _).succ fun f => ?_⟩
          simp [iterLoop, hd, hn, hb]
      | cons w us =>
          have hn : d.next = some w := hp.head
          obtain ⟨b', hb', hr⟩ := ih hp fun w hw => hu w (List.mem_cons_of_mem u hw)
          refine ⟨b', hb', hr.succ fun f => ?_⟩
          simp [iterLoop, hd, hn, hdo]

theorem iterLoop_enter {b : ℕ} (hb : b < s.self.nBuckets) (f : ℕ) :
    iterLoop s (f + 1) (b - 1) none = iterLoop s (f + 1) b (some (.slot s.self.buckets b)) := by
  have h₁ : ¬ ((b : ℤ) - 1 + 1 > (s.self.nBuckets : ℤ) - 1) := by omega
  have h₂ : ¬ ((b : ℤ) ≥ (s.self.nBuckets : ℤ)) := by omega
  rw [iterLoop, iterLoop, if_neg h₁, Int.sub_add_cancel, Int.toNat_natCast]
  cases s.mem.cells (.slot s.self.buckets b) with
  | none => rfl
  | some e => simp only [h₂, false_and, if_false]

/-- The run from the end of one chain is the run from the next slot. -/
theorem iterLoop_slot {b : ℕ} (hb : b < s.self.nBuckets) {r : ℤ × Option (NcHashmapEntry K V)}
    (hr : Returns (fun f => iterLoop s f b (some (.slot s.self.buckets b))) r) :
    Returns (fun f => iterLoop s f (b - 1) none) r := by
  obtain ⟨N, hN⟩ := returns_iff.mp hr
  refine returns_iff.mpr ⟨N + 1, fun f hf => ?_⟩
  obtain ⟨g, rfl⟩ : ∃ g, f = g + 1 := ⟨f - 1, by omega⟩
  rw [iterLoop_enter hb]
  exact hN _ (by omega)

variable [Null K] [Null V]
  (hS : Shape s.mem.toHeap s.self.buckets s.self.nBuckets tails fun _ => none)
include hS

/-- From the end of a chain the iterator goes through the next buckets. -/
theorem iterLoop_next {b : ℕ} (hb : b ≤ s.self.nBuckets)
    (hc : cellsFrom s.self.buckets tails s.self.nBuckets b = us ++ a :: vs)
    (hu : ∀ u ∈ us, viewAt s.mem.toHeap u = none) (ha : s.mem.cells a = some e)
    (ho : e.occ = true) :
    ∃ i xs, i < s.self.nBuckets ∧
      Returns (fun f => iterLoop s f (b - 1) none) ((i : ℤ), some e) ∧
      Path NcHashmapEntry.next s.mem.cells e.next xs none ∧
      vs = xs ++ cellsFrom s.self.buckets tails s.self.nBuckets (i + 1) := by
  obtain ⟨k, hk⟩ : ∃ k, s.self.nBuckets = b + k := ⟨s.self.nBuckets - b, by omega⟩
  induction k generalizing b us with
  | zero => rw [cellsFrom_ge (by omega)] at hc; simp at hc
  | succ k ih =>
      have hlt : b < s.self.nBuckets := by omega
      have hpath := hS.path b hlt
      rw [cellsFrom_lt hlt] at hc
      rcases List.append_eq_append_iff.mp hc with ⟨ws, rfl, hrest⟩ | ⟨ws, hchain, hrest⟩
      · -- no cell of the chain of `b` is occupied
        obtain ⟨i, xs, hi, hr, hx, hv⟩ := ih (b := b + 1) (by omega) hrest
          (fun u hu' => hu u (List.mem_append_right _ hu')) (by omega)
        refine ⟨i, xs, hi, iterLoop_slot hlt (iterLoop_skip hpath
          (fun u hu' => hu u (List.mem_append_left _ hu')) (by omega) ?_), hx, hv⟩
        push_cast at hr
        rwa [Int.add_sub_cancel] at hr
      · cases ws with
        | nil =>
            rw [List.append_nil] at hchain
            have hc' : cellsFrom s.self.buckets tails s.self.nBuckets (b + 1) = [] ++ a :: vs := by
              simpa using hrest.symm
            obtain ⟨i, xs, hi, hr, hx, hv⟩ := ih (b := b + 1) (by omega) hc' (by simp) (by omega)
            refine ⟨i, xs, hi, iterLoop_slot hlt (iterLoop_skip hpath
              (fun u hu' => hu u (hchain ▸ hu')) (by omega) ?_), hx, hv⟩
            push_cast at hr
            rwa [Int.add_sub_cancel] at hr
        | cons w ws =>
            rw [List.cons_append, List.cons.injEq] at hrest
            obtain ⟨rfl, rfl⟩ := hrest
            rw [hchain] at hpath
            refine ⟨b, ws, hlt, iterLoop_slot hlt (iterLoop_found hpath hu ha ho (by omega)), ?_, rfl⟩
            obtain ⟨q, -, -, d, hd, hq⟩ := path_append.mp hpath
            rwa [← Option.some.inj (hd.symm.trans ha)]

/-- When no cell is occupied any more the iterator ends. -/
theorem iterLoop_ends {b : ℕ} (hb : b ≤ s.self.nBuckets)
    (hu : ∀ u ∈ cellsFrom s.self.buckets tails s.self.nBuckets b, viewAt s.mem.toHeap u = none) :
    ∃ b', (s.self.nBuckets : ℤ) ≤ b' ∧
      Returns (fun f => iterLoop s f (b - 1) none) (b', none) := by
  obtain ⟨k, hk⟩ : ∃ k, s.self.nBuckets = b + k := ⟨s.self.nBuckets - b, by omega⟩
  induction k generalizing b with
  | zero =>
      refine ⟨b, by omega, (Returns.pure _).succ fun f => ?_⟩
      rw [iterLoop, if_pos (by omega), Int.sub_add_cancel]
  | succ k ih =>
      have hlt : b < s.self.nBuckets := by omega
      rw [cellsFrom_lt hlt] at hu
      obtain ⟨b', hb', hr⟩ := ih (b := b + 1) (by omega)
        (fun u hu' => hu u (List.mem_append_right _ hu')) (by omega)
      refine ⟨b', hb', ?_⟩
      push_cast at hr
      rw [Int.add_sub_cancel] at hr
      exact iterLoop_slot hlt (iterLoop_skip (hS.path b hlt)
        (fun u hu' => hu u (List.mem_append_left _ hu')) (by omega) hr)

end NcHashmap

/-- The iterator has still to visit the cells `rest`. -/
def IterAt (s : State K V) (tails : ℕ → List ℕ) (it : NcHashmap.Iter) (rest : List Loc) : Prop :=
  ∃ (b : ℕ) (xs : List Loc), it.bucket = b - 1 ∧
    Path NcHashmapEntry.next s.mem.cells it.item xs none ∧
    ((b ≤ s.self.nBuckets ∧ rest = xs ++ cellsFrom s.self.buckets tails s.self.nBuckets b) ∨
      (s.self.nBuckets < b ∧ rest = [] ∧ ∀ u ∈ xs, viewAt s.mem.toHeap u = none))

namespace NcHashmap

variable {s : State K V} {tails : ℕ → List ℕ} {it : Iter} {rest us vs : List Loc}
  {a : Loc} {e : NcHashmapEntry K V}

theorem iterInit_at (s : State K V) (tails : ℕ → List ℕ) :
    IterAt s tails iterInit (cellsFrom s.self.buckets tails s.self.nBuckets 0) :=
  ⟨0, [], rfl, rfl, .inl ⟨Nat.zero_le _, rfl⟩⟩

variable [Null K] [Null V]
  (hS : Shape s.mem.toHeap s.self.buckets s.self.nBuckets tails fun _ => none)
include hS

/-- The next occupied cell is yielded. -/
theorem iterNext_yield (hat : IterAt s tails it (us ++ a :: vs))
    (hu : ∀ u ∈ us, viewAt s.mem.toHeap u = none) (ha : s.mem.cells a = some e)
    (ho : e.occ = true) :
    ∃ it', Returns (fun f => iterNext f s it) (it', some (e.hash, e.value)) ∧
      IterAt s tails it' vs := by
  obtain ⟨b, xs, hb, hp, ⟨hn, hrest⟩ | ⟨-, hnil, -⟩⟩ := hat
  · have hlt : it.bucket < s.self.nBuckets := by omega
    have found : ∀ {ws}, Path NcHashmapEntry.next s.mem.cells it.item (us ++ a :: ws) none →
        vs = ws ++ cellsFrom s.self.buckets tails s.self.nBuckets b →
        ∃ it', Returns (fun f => iterNext f s it) (it', some (e.hash, e.value)) ∧
          IterAt s tails it' vs := by
      intro ws hp hv
      refine ⟨⟨it.bucket, e.next⟩, (iterLoop_found hp hu ha ho hlt).bind (Returns.pure _), b, ws, hb,
        ?_, .inl ⟨hn, hv⟩⟩
      obtain ⟨q, -, -, d, hd, hq⟩ := path_append.mp hp
      rwa [← Option.some.inj (hd.symm.trans ha)]
    have later : ∀ {ws}, (∀ u ∈ xs, viewAt s.mem.toHeap u = none) →
        (∀ u ∈ ws, viewAt s.mem.toHeap u = none) →
        cellsFrom s.self.buckets tails s.self.nBuckets b = ws ++ a :: vs →
        ∃ it', Returns (fun f => iterNext f s it) (it', some (e.hash, e.value)) ∧
          IterAt s tails it' vs := by
      intro ws hxs hws hc
      obtain ⟨i, ys, hi, hr, hy, hv⟩ := iterLoop_next hS hn hc hws ha ho
      rw [← hb] at hr
      refine ⟨⟨i, e.next⟩, (iterLoop_skip hp hxs hlt hr).bind (Returns.pure _), i + 1, ys, ?_, hy,
        .inl ⟨hi, hv⟩⟩
      push_cast
      omega
    rcases List.append_eq_append_iff.mp hrest.symm with ⟨ws, rfl, hc⟩ | ⟨ws, rfl, hc⟩
    · exact later (fun u h => hu u (List.mem_append_left _ h))
        (fun u h => hu u (List.mem_append_right _ h)) hc
    · cases ws with
      | nil =>
          refine @later [] (fun u h => hu u ?_) (by simp) hc.symm
          rwa [List.append_nil] at h
      | cons w ws =>
          rw [List.cons_append, List.cons.injEq] at hc
          obtain ⟨rfl, rfl⟩ := hc
          exact found hp rfl
  · simp at hnil

/-- Without an occupied cell ahead the call returns `false`, and so does every later one. -/
theorem iterNext_stop (hat : IterAt s tails it rest)
    (hu : ∀ u ∈ rest, viewAt s.mem.toHeap u = none) :
    ∃ it', Returns (fun f => iterNext f s it) (it', none) ∧ IterAt s tails it' [] := by
  obtain ⟨b, xs, hb, hp, hcase⟩ := hat
  suffices ∃ b', (s.self.nBuckets : ℤ) ≤ b' ∧
      Returns (fun f => iterLoop s f it.bucket it.item) (b', none) ∧
      ∀ u ∈ xs, viewAt s.mem.toHeap u = none by
    obtain ⟨b', hb', hr, hxs⟩ := this
    obtain ⟨c, rfl⟩ := Int.eq_ofNat_of_zero_le (by omega : 0 ≤ b')
    refine ⟨⟨c, it.item⟩, hr.bind (Returns.pure _), c + 1, xs, ?_, hp, .inr ⟨by omega, rfl, hxs⟩⟩
    push_cast
    omega
  rcases hcase with ⟨hn, rfl⟩ | ⟨hn, -, hxs⟩
  · have hxs : ∀ u ∈ xs, viewAt s.mem.toHeap u = none := fun u h => hu u (List.mem_append_left _ h)
    obtain ⟨b', hb', hr⟩ := iterLoop_ends hS hn fun u h => hu u (List.mem_append_right _ h)
    have hlt : it.bucket < s.self.nBuckets := by omega
    rw [← hb] at hr
    exact ⟨b', hb', iterLoop_skip hp hxs hlt hr, hxs⟩
  · have hge : (s.self.nBuckets : ℤ) ≤ it.bucket := by omega
    obtain ⟨b', hb', hr⟩ := iterLoop_stale hp hxs hge
    exact ⟨b', hb', hr, hxs⟩

omit hS [Null K] [Null V] in
/-- The first occupied cell of a list, if there is one. -/
theorem split_viewAt (h : Heap (NcHashmapEntry K V)) (rest : List Loc) :
    (∀ u ∈ rest, viewAt h u = none) ∨
      ∃ us a vs, rest = us ++ a :: vs ∧ (∀ u ∈ us, viewAt h u = none) ∧ viewAt h a ≠ none := by
  induction rest with
  | nil => exact .inl (by simp)
  | cons b rest ih =>
      by_cases hb : viewAt h b = none
      · rcases ih with h | ⟨us, a, vs, rfl, hu, ha⟩
        · exact .inl fun u hu => (List.mem_cons.mp hu).elim (fun e => e ▸ hb) (h u)
        · exact .inr ⟨b :: us, a, vs, rfl,
            fun u hu' => (List.mem_cons.mp hu').elim (fun e => e ▸ hb) (hu u), ha⟩
      · exact .inr ⟨[], b, rest, rfl, by simp, hb⟩

/-- A call of `iterNext`: it yields the first occupied cell ahead, or ends. -/
theorem iterNext_cases (hat : IterAt s tails it rest) :
    (∃ us a vs it' p, rest = us ++ a :: vs ∧ (∀ u ∈ us, viewAt s.mem.toHeap u = none) ∧
      viewAt s.mem.toHeap a = some p ∧ Returns (fun f => iterNext f s it) (it', some p) ∧
      IterAt s tails it' vs) ∨
    ((∀ u ∈ rest, viewAt s.mem.toHeap u = none) ∧
      ∃ it', Returns (fun f => iterNext f s it) (it', none) ∧ IterAt s tails it' []) := by
  rcases split_viewAt s.mem.toHeap rest with hu | ⟨us, a, vs, rfl, hu, ha⟩
  · exact .inr ⟨hu, iterNext_stop hS hat hu⟩
  · obtain ⟨p, hp⟩ := Option.ne_none_iff_exists'.mp ha
    obtain ⟨e, he, ho, hk, hv⟩ := viewAt_eq_some.mp hp
    obtain ⟨it', hr, hat'⟩ := iterNext_yield hS hat hu he ho
    rw [hk, hv] at hr
    exact .inl ⟨us, a, vs, it', p, rfl, hu, hp, hr, hat'⟩

end NcHashmap

open NcHashmap

/-- What happens to a map that is iterated: `nc_hashmap_iter_next` yields a pair or returns
`false`, and `nc_hashmap_remove` or `nc_hashmap_steal` of a key returns `ok`. -/
inductive IterEvent (K V : Type) where
  | next (r : Option (K × V))
  | removal (key : K) (ok : Bool)

def yielded (evs : List (IterEvent K V)) : List (K × V) :=
  evs.filterMap fun
    | .next r => r
    | .removal _ _ => none

@[simp] theorem yielded_append (evs evs' : List (IterEvent K V)) :
    yielded (evs ++ evs') = yielded evs ++ yielded evs' := List.filterMap_append

variable [Null K] [Null V]

/-- The calls made on a map and an iterator of it, in any order. -/
inductive IterRun (s₀ : State K V) (it₀ : Iter) : List (IterEvent K V) → State K V → Iter → Prop
  | init : IterRun s₀ it₀ [] s₀ it₀
  | next {evs : List (IterEvent K V)} {s : State K V} {it it' : Iter} {r : Option (K × V)} :
      IterRun s₀ it₀ evs s it → Returns (fun f => iterNext f s it) (it', r) →
      IterRun s₀ it₀ (evs ++ [.next r]) s it'
  | removal {evs : List (IterEvent K V)} {s s' : State K V} {it : Iter} {key : K}
      {remove ok : Bool} :
      IterRun s₀ it₀ evs s it → NonNull key →
      Returns (fun f => removeInternal f s key remove) (ok, s') →
      IterRun s₀ it₀ (evs ++ [.removal key ok]) s' it

section vacate
variable {s : State K V} {a b : Loc} {p q : K × V} {remove : Bool}

theorem viewAt_vacate_ne (hb : b ≠ a) :
    viewAt (vacate s a p remove).mem.toHeap b = viewAt s.mem.toHeap b := by
  rw [viewAt, vacate_heap, Heap.update_ne _ _ hb]
  rfl

theorem viewAt_vacate_self : viewAt (vacate s a p remove).mem.toHeap a = none := by
  rw [viewAt, vacate_heap, Heap.update_self]
  cases s.mem.cells a <;> rfl

/-- A removal fills no place. -/
theorem viewAt_vacate_some (h : viewAt (vacate s a p remove).mem.toHeap b = some q) :
    viewAt s.mem.toHeap b = some q := by
  by_cases hb : b = a
  · rw [hb, viewAt_vacate_self] at h
    cases h
  · rwa [viewAt_vacate_ne hb] at h

theorem viewAt_vacate_of_none (h : viewAt s.mem.toHeap b = none) :
    viewAt (vacate s a p remove).mem.toHeap b = none := by
  by_contra hc
  obtain ⟨q, hq⟩ := Option.ne_none_iff_exists'.mp hc
  rw [viewAt_vacate_some hq] at h
  cases h

/-- A removal leaves the position of the iterator alone. -/
theorem IterAt.vacate {tails : ℕ → List ℕ} {it : Iter} {rest : List Loc}
    (h : IterAt s tails it rest) : IterAt (vacate s a p remove) tails it rest := by
  obtain ⟨n, xs, hn, hp, hcase⟩ := h
  refine ⟨n, xs, hn, hp.congr fun c _ => ?_, hcase.imp id fun h => ⟨h.1, h.2.1, fun u hu => ?_⟩⟩
  · rw [vacate_heap]
    by_cases hc : c = a
    · subst hc; rw [Heap.update_self, Option.map_map]; rfl
    · rw [Heap.update_ne _ _ hc]
  · exact viewAt_vacate_of_none (h.2.2 u hu)

end vacate

structure Iterating (s₀ : State K V) (tails : ℕ → List ℕ) (all : List Loc)
    (evs : List (IterEvent K V)) (s : State K V) (it : Iter) : Prop where
  self : s.self = { s₀.self with size := s.self.size }
  shape : Shape s.mem.toHeap s.self.buckets s.self.nBuckets tails fun _ => none
  sweep : ∃ rest seen, IterAt s tails it rest ∧
    Sweep (viewAt s₀.mem.toHeap) (viewAt s.mem.toHeap) all rest seen ∧
    seen.map (viewAt s₀.mem.toHeap) = (yielded evs).map some

namespace Iterating

variable {s₀ s : State K V} {tails : ℕ → List ℕ} {all : List Loc} {evs : List (IterEvent K V)}
  {it it' : Iter}

theorem start (hS : Shape s₀.mem.toHeap s₀.self.buckets s₀.self.nBuckets tails fun _ => none)
    (hat : IterAt s₀ tails it all) : Iterating s₀ tails all [] s₀ it :=
  ⟨rfl, hS, all, [], hat, .start _ _, rfl⟩

theorem next (I : Iterating s₀ tails all evs s it) {r : Option (K × V)}
    (hr : Returns (fun f => iterNext f s it) (it', r)) :
    Iterating s₀ tails all (evs ++ [.next r]) s it' := by
  obtain ⟨rest, seen, hat, S, hseen⟩ := I.sweep
  refine ⟨I.self, I.shape, ?_⟩
  rcases iterNext_cases I.shape hat with
    ⟨us, a, vs, it₁, p, hrest, hu, ha, hr₁, hat₁⟩ | ⟨hu, it₁, hr₁, hat₁⟩
  · obtain ⟨rfl, rfl⟩ := Prod.mk.inj (hr.unique hr₁)
    refine ⟨vs, seen ++ [a], hat₁, S.report hrest hu, ?_⟩
    have ha₀ : viewAt s₀.mem.toHeap a = some p :=
      S.shown a (S.rest_sublist.subset (by rw [hrest]; simp)) p ha
    rw [List.map_append, hseen, yielded_append, List.map_append]
    simp [yielded, ha₀]
  · obtain ⟨rfl, rfl⟩ := Prod.mk.inj (hr.unique hr₁)
    refine ⟨[], seen, hat₁, S.stop hu, ?_⟩
    rw [hseen, yielded_append]
    simp [yielded]

theorem removal (I : Iterating s₀ tails all evs s it) {s' : State K V} {key : K}
    {remove ok : Bool} (hr : Returns (fun f => removeInternal f s key remove) (ok, s')) :
    Iterating s₀ tails all (evs ++ [.removal key ok]) s' it := by
  obtain ⟨rest, seen, hat, S, hseen⟩ := I.sweep
  have hyield : seen.map (viewAt s₀.mem.toHeap) =
      (yielded (evs ++ [.removal key ok])).map some := by
    rw [hseen, yielded_append]
    simp [yielded]
  obtain ⟨ok₁, s₁, hr₁, rfl | ⟨i, hi, a, p, ha, rfl⟩⟩ := removeInternal_shape I.shape key remove
  · obtain ⟨rfl, rfl⟩ := Prod.mk.inj (hr.unique hr₁)
    exact ⟨I.self, I.shape, rest, seen, hat, S, hyield⟩
  · obtain ⟨rfl, rfl⟩ := Prod.mk.inj (hr.unique hr₁)
    obtain ⟨xs, ys, hx⟩ := List.append_of_mem ha
    refine ⟨?_, (vacate_shape remove I.shape hi hx).1, rest, seen, hat.vacate,
      S.shrink fun b q h => viewAt_vacate_some h, hyield⟩
    change ({ s.self with size := s.self.size - 1 } : NcHashmap K V) = _
    rw [I.self]
    rfl

end Iterating

theorem IterRun.iterating {s₀ s : State K V} {tails : ℕ → List ℕ} {all : List Loc}
    {evs : List (IterEvent K V)} {it₀ it : Iter}
    (hS : Shape s₀.mem.toHeap s₀.self.buckets s₀.self.nBuckets tails fun _ => none)
    (hat : IterAt s₀ tails it₀ all) (hrun : IterRun s₀ it₀ evs s it) :
    Iterating s₀ tails all evs s it := by
  induction hrun with
  | init => exact .start hS hat
  | next _ hr ih => exact ih.next hr
  | removal _ _ hr ih => exact ih.removal hr

/-- `while (nc_hashmap_iter_next(&iter, &k, &v))` on a map that does not change: the pairs it
sees. -/
def drain (s : State K V) : ℕ → Iter → Except Fault (List (K × V))
  | 0, _ => .error .timeout
  | fuel + 1, it => do
      match ← iterNext fuel s it with
      | (_, none) => .ok []
      | (it', some p) => do
          let ps ← drain s fuel it'
          .ok (p :: ps)

/-- A whole iteration ends, and sees the pairs of the table in order. -/
theorem drain_contents {s : State K V} {tails : ℕ → List ℕ}
    (hS : Shape s.mem.toHeap s.self.buckets s.self.nBuckets tails fun _ => none) {it : Iter}
    {rest : List Loc} (hat : IterAt s tails it rest) :
    Returns (fun f => drain s f it) (pairs (rowOf s.mem.toHeap rest)) := by
  have holes : ∀ us : List Loc, (∀ u ∈ us, viewAt s.mem.toHeap u = none) →
      pairs (rowOf s.mem.toHeap us) = [] := by
    intro us hu
    refine List.eq_nil_iff_forall_not_mem.mpr fun p hp => ?_
    obtain ⟨u, hu', hup⟩ := List.mem_map.mp (mem_pairs.mp hp)
    rw [hu u hu'] at hup
    cases hup
  obtain ⟨n, hn⟩ : ∃ n, rest.length = n := ⟨_, rfl⟩
  induction n using Nat.strong_induction_on generalizing it rest with
  | _ n ih =>
      rcases iterNext_cases hS hat with
        ⟨us, a, vs, it', p, rfl, hu, ha, hr, hat'⟩ | ⟨hu, it', hr, -⟩
      · have hrest := ih vs.length (by simp only [List.length_append, List.length_cons] at hn; omega)
          hat' rfl
        rw [rowOf_append, rowOf_cons, ha, pairs_append, pairs_pair, holes us hu]
        refine (hr.bind (g := fun x f => match x with
          | (_, none) => .ok []
          | (it', some p) => do
              let ps ← drain s f it'
              .ok (p :: ps)) ?_).succ fun f => rfl
        exact hrest.bind (Returns.pure _)
      · rw [holes rest hu]
        exact (hr.bind (Returns.pure [])).succ fun f => rfl

theorem Shape.nodup_cells {h : Heap (NcHashmapEntry K V)} {t n : ℕ} {tails : ℕ → List ℕ}
    {back : ℕ → Option Loc} (hS : Shape h t n tails back) : (cellsFrom t tails n 0).Nodup := by
  unfold cellsFrom
  refine List.nodup_flatMap.mpr ⟨fun i hi => hS.chain_nodup (by simpa using hi), ?_⟩
  refine (List.nodup_range' : (List.range' 0 (n - 0)).Nodup).imp_of_mem fun {i j} hi hj hij => ?_
  exact fun a ha => hS.chain_apart (by simpa using hi) (by simpa using hj) hij ha

/-- The cells that show a pair are the entries of the map. -/
theorem Shape.occupiedAt_cells {s : State K V} {tails : ℕ → List ℕ} {back : ℕ → Option Loc}
    (hS : Shape s.mem.toHeap s.self.buckets s.self.nBuckets tails back) {a : Loc} {p : K × V} :
    OccupiedAt s a p.1 p.2 ↔
      a ∈ cellsFrom s.self.buckets tails s.self.nBuckets 0 ∧ viewAt s.mem.toHeap a = some p := by
  rw [hS.occupiedAt_iff, mem_cellsFrom_zero, viewAt_eq_some]

omit [Null K] [Null V] in
theorem contents_rowsOf (h : Heap (NcHashmapEntry K V)) (t : ℕ) (tails : ℕ → List ℕ) (n : ℕ) :
    contents (rowsOf h t tails) n = pairs (rowOf h (cellsFrom t tails n 0)) := by
  have flat : ∀ is : List ℕ, is.flatMap (fun i => pairs (rowsOf h t tails i)) =
      pairs (rowOf h (is.flatMap (chainOf t tails))) := by
    intro is
    induction is with
    | nil => rfl
    | cons i is ih => rw [List.flatMap_cons, List.flatMap_cons, rowOf_append, pairs_append, ih, rowsOf]
  rw [cellsFrom, Nat.sub_zero, ← List.range_eq_range', ← flat]
  rfl

/-- The occupied entries of a table, as many as it has pairs. -/
theorem Shape.occupied_entries {s : State K V} {tails : ℕ → List ℕ} {back : ℕ → Option Loc}
    (hS : Shape s.mem.toHeap s.self.buckets s.self.nBuckets tails back) :
    ∃ nodes : List Loc, nodes.Nodup ∧ (∀ a, a ∈ nodes ↔ ∃ k v, OccupiedAt s a k v) ∧
      nodes.length = (contents (rowsOf s.mem.toHeap s.self.buckets tails) s.self.nBuckets).length := by
  refine ⟨(cellsFrom s.self.buckets tails s.self.nBuckets 0).filter
    fun a => (viewAt s.mem.toHeap a).isSome, hS.nodup_cells.filter _, fun a => ?_, ?_⟩
  · rw [List.mem_filter, Option.isSome_iff_exists]
    constructor
    · rintro ⟨ha, ⟨k, v⟩, hp⟩
      exact ⟨k, v, (hS.occupiedAt_cells (p := (k, v))).mpr ⟨ha, hp⟩⟩
    · rintro ⟨k, v, h⟩
      exact ((hS.occupiedAt_cells (p := (k, v))).mp h).imp id fun h => ⟨(k, v), h⟩
  · rw [contents_rowsOf, pairs, List.reduceOption_length_eq, rowOf, List.filter_map, List.length_map]
    rfl

/-- The pairs `ps` are entries of the map, no two the same one. -/
def Entries (s : State K V) (nodes : List Loc) (ps : List (K × V)) : Prop :=
  nodes.Nodup ∧ List.Forall₂ (fun a p => OccupiedAt s a p.1 p.2) nodes ps

namespace Iterating

variable {s₀ s : State K V} {tails : ℕ → List ℕ} {all : List Loc} {evs : List (IterEvent K V)}
  {it it' : Iter}

theorem iterNext_returns (I : Iterating s₀ tails all evs s it) :
    ∃ r, Returns (fun f => iterNext f s it) r := by
  obtain ⟨rest, seen, hat, -⟩ := I.sweep
  rcases iterNext_cases I.shape hat with
    ⟨us, a, vs, it₁, p, -, -, -, hr, -⟩ | ⟨-, it₁, hr, -⟩
  · exact ⟨_, hr⟩
  · exact ⟨_, hr⟩

/-- What is yielded are entries of the map at the start, and after a call that returns `false`
all those that are left. -/
theorem entries (I : Iterating s₀ tails all evs s it)
    (hS : Shape s₀.mem.toHeap s₀.self.buckets s₀.self.nBuckets tails fun _ => none)
    (hall : all.Sublist (cellsFrom s₀.self.buckets tails s₀.self.nBuckets 0)) :
    ∃ nodes, Entries s₀ nodes (yielded evs) ∧
      ∀ it', Returns (fun f => iterNext f s it) (it', none) →
        ∀ a ∈ all, ∀ k v, OccupiedAt s a k v → a ∈ nodes := by
  obtain ⟨rest, seen, hat, S, hseen⟩ := I.sweep
  have hsub := S.seen_sublist.trans hall
  refine ⟨seen, ⟨hS.nodup_cells.sublist hsub, ?_⟩, fun it' hr a ha k v hkv => ?_⟩
  · have hf : List.Forall₂ (fun a p => viewAt s₀.mem.toHeap a = some p) seen (yielded evs) := by
      rw [← List.forall₂_map_right_iff (f := some), ← List.forall₂_map_left_iff, hseen]
      exact List.forall₂_same.mpr fun _ _ => rfl
    refine ((List.forall₂_and_left _ _).mpr ⟨fun a ha => hsub.subset ha, hf⟩).imp fun a p h => ?_
    exact hS.occupiedAt_cells.mpr h
  · rcases iterNext_cases I.shape hat with
      ⟨us, a, vs, it₁, p, -, -, -, hr₁, -⟩ | ⟨hu, -⟩
    · cases (Prod.mk.inj (hr.unique hr₁)).2
    · apply (S.stop hu).finish ha
      rw [((I.shape.occupiedAt_cells (p := (k, v))).mp hkv).2]
      simp

end Iterating

/-- What a run of calls leaves of the map: the pairs whose keys were not removed. -/
theorem IterRun.holds_iff {s₀ s : State K V} (L : LawfulBesideNull s₀.self.hash s₀.self.compare)
    {tails : ℕ → List ℕ}
    (T : Table s₀.self (fun _ => True) s₀.mem.toHeap s₀.self.buckets s₀.self.nBuckets tails
      fun _ => none)
    {evs : List (IterEvent K V)} {it₀ it : Iter} (hrun : IterRun s₀ it₀ evs s it) :
    (s.self.hash = s₀.self.hash ∧ s.self.compare = s₀.self.compare) ∧
    Table s.self (fun _ => True) s.mem.toHeap s.self.buckets s.self.nBuckets tails (fun _ => none) ∧
    ∀ k v, Holds s k v ↔
      Holds s₀ k v ∧ ∀ k', .removal k' true ∈ evs → s₀.self.compare k k' = false := by
  induction hrun with
  | init => exact ⟨⟨rfl, rfl⟩, T, fun k v => by simp⟩
  | next _ _ ih => simpa using ih
  | @removal evs s s' it key remove ok _ hk hr ih =>
      obtain ⟨⟨hh, hc⟩, T', hholds⟩ := ih
      obtain ⟨ok₁, s₁, hr₁, T₁, -, hholds₁, -, hcase⟩ :=
        removeInternal_spec (by rw [hh, hc]; exact L.everywhere) T' trivial
          (by rw [hc]; exact L.null_ne key hk) remove
      obtain ⟨rfl, rfl⟩ := Prod.mk.inj (hr.unique hr₁)
      rcases hcase with ⟨rfl, rfl⟩ | ⟨rfl, a, k, v, -, -, rfl⟩
      · exact ⟨⟨hh, hc⟩, T', by simpa using hholds⟩
      · refine ⟨⟨hh, hc⟩, T₁, fun k v => ?_⟩
        rw [hholds₁, hholds, hc]
        simp only [List.mem_append, List.mem_singleton, IterEvent.removal.injEq, and_true]
        constructor
        · rintro ⟨⟨h, hold⟩, hnew⟩
          exact ⟨h, fun k' hk' => hk'.elim (hold k') fun e => e ▸ hnew⟩
        · rintro ⟨h, hall⟩
          exact ⟨⟨h, fun k' hk' => hall k' (.inl hk')⟩, hall key (.inr rfl)⟩

/-- Iteration mixed with removals, in any order, on a well-formed map.

Every call of `nc_hashmap_iter_next` ends.  What was yielded are distinct entries of the map at the
start, and once a call returns `false` they include all entries that are still there.  What will be
yielded are entries of the map as it is now, so nothing that was removed before.  And the map is
what it was at the start, without the keys removed. -/
theorem iteration_with_removals {s₀ s : State K V} (wf : WellFormed s₀)
    {evs : List (IterEvent K V)} {it : Iter} (hrun : IterRun s₀ iterInit evs s it) :
    (∃ r, Returns (fun f => iterNext f s it) r) ∧
    (∃ nodes, Entries s₀ nodes (yielded evs) ∧
      ∀ it', Returns (fun f => iterNext f s it) (it', none) →
        ∀ a k v, OccupiedAt s a k v → a ∈ nodes) ∧
    (∀ evs' s' it', IterRun s it evs' s' it' → ∃ nodes, Entries s nodes (yielded evs')) ∧
    (LawfulBesideNull s₀.self.hash s₀.self.compare → ∀ k v, Holds s k v ↔
      Holds s₀ k v ∧ ∀ k', .removal k' true ∈ evs → s₀.self.compare k k' = false) := by
  obtain ⟨tails, T, -⟩ := wf.everywhere.table
  have I := hrun.iterating T.toShape (iterInit_at s₀ tails)
  refine ⟨I.iterNext_returns, ?_, fun evs' s' it' hrun' => ?_, fun L => (hrun.holds_iff L T).2.2⟩
  · obtain ⟨nodes, hnodes, hend⟩ := I.entries T.toShape (List.Sublist.refl _)
    refine ⟨nodes, hnodes, fun it' hr a k v hkv => hend it' hr a ?_ k v hkv⟩
    have := ((I.shape.occupiedAt_cells (p := (k, v))).mp hkv).1
    rwa [I.self] at this
  · obtain ⟨rest, seen, hat, S, -⟩ := I.sweep
    have hrest := S.rest_sublist
    have hself := I.self
    have I' := hrun'.iterating I.shape hat
    obtain ⟨nodes, hnodes, -⟩ := I'.entries I.shape (by rw [hself]; exact hrest)
    exact ⟨nodes, hnodes⟩

/-- The key 62 is removed after the first step of an iteration. -/
def wornIteration : Except Fault (State UInt64 UInt64 × Option (UInt64 × UInt64) × Iter ×
    (Bool × State UInt64 UInt64) × Iter × Option (UInt64 × UInt64)) := do
  let s ← worn 0
  let (it, p) ← iterNext 5 s iterInit
  let (ok, s') ← remove 5 s 62
  let (it', q) ← iterNext 5 s' it
  .ok (s, p, it, (ok, s'), it', q)

/-- The first two calls yield the keys 0 and 2: bucket 1 has a hole where the key 1 was and another
where 62 was. -/
theorem iteration_with_removals_worn : ∃ (s s' : State UInt64 UInt64) (it : Iter), worn 0 = .ok s ∧
    IterRun s iterInit [.next (some (0, 100)), .removal 62 true, .next (some (2, 102))] s' it ∧
    (∃ nodes, Entries s nodes [(0, 100), (2, 102)]) ∧
    ∀ k v, Holds s' k v ↔ (k, v) ∈ wornPairs 0 ∧ k ≠ 62 := by
  have hseen : wornIteration.toOption.map (fun x => (x.2.1, x.2.2.2.1.1, x.2.2.2.2.2)) =
      some (some (0, 100), true, some (2, 102)) := by
    decide +kernel
  cases h : wornIteration with
  | error e => rw [h] at hseen; cases hseen
  | ok x =>
      obtain ⟨s₁, p, it, ⟨ok, s'⟩, it', q⟩ := x
      rw [h] at hseen
      simp only [Except.toOption, Option.map_some, Option.some.injEq, Prod.mk.injEq] at hseen
      obtain ⟨rfl, rfl, rfl⟩ := hseen
      obtain ⟨s, hs, h⟩ := ok_of_bind h
      obtain ⟨⟨it₁, p₁⟩, hp, h⟩ := ok_of_bind h
      obtain ⟨⟨ok₁, s₂⟩, hok, h⟩ := ok_of_bind h
      obtain ⟨⟨it₂, q₁⟩, hq, h⟩ := ok_of_bind h
      simp only [Except.ok.injEq, Prod.mk.injEq] at h
      obtain ⟨rfl, rfl, rfl, ⟨rfl, rfl⟩, rfl, rfl⟩ := h
      have W := worn_spec hs (by decide)
      have hrun := ((IterRun.init.next ((iterNext_steady s iterInit).returns hp)).removal
        (show NonNull (62 : UInt64) by decide) ((removeInternal_steady s 62 true).returns hok)).next
        ((iterNext_steady s₂ it₁).returns hq)
      obtain ⟨-, ⟨nodes, hnodes, -⟩, -, hholds⟩ := iteration_with_removals W.wellFormed hrun
      refine ⟨s, s₂, it₂, hs, hrun, ⟨nodes, hnodes⟩, fun k v => ?_⟩
      have hequal := List.forall_iff_forall_mem.mp
        (show (wornPairs 0).Forall fun p => digitsCompare p.1 62 = false ↔ p.1 ≠ 62 by
          decide +kernel)
      rw [hholds W.lawful, W.holds, W.compare]
      simp only [List.nil_append, List.cons_append, List.mem_cons, reduceCtorEq,
        IterEvent.removal.injEq, and_true, List.not_mem_nil, or_false, false_or, forall_eq]
      exact and_congr_right fun h => hequal (k, v) h

end Nica
