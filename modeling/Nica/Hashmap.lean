import Nica.Pointers
import Nica.Blocks
import Nica.Fuel

/-! # The chained hash map

The functions of `hashmap.c`, without `nc_hashmap_` in their names, over a heap of bucket tables and
overflow nodes.

* **Pointers.**  Keys and values are the pointers that the map stores and never follows; their
  types are parameters with a `null`.  A bucket slot and an overflow node have addresses (`Loc`),
  and the `next` field of an entry is such an address or NULL.
* **Control.**  Every loop spends fuel (`Fault.timeout` when it runs out).  Reading a cell that is
  not allocated is `Fault.dangling`; a product that leaves the range of `int` is `Fault.overflow`.
* **Allocation.**  `Heap.grants` says which allocations succeed; each function follows the
  source's path for the ones that do not.
* **Cleanup functions.**  `keyFree` and `valueFree` say whether the function pointers are set; the
  calls made through them are recorded, in order, in `Mem.log`.
* **Numbers.**  `size` is an integer of any magnitude and `n_buckets` a natural number;
  `FULL_FACTOR` is a double, and the product with it is rounded as binary64 rounds it (`fullSize`).

The `NULL` checks of `self`, which every function makes first, have no counterpart: a `State` is
a map that exists. -/

namespace Nica

open Blocks

def initialSize : ℕ := 61

def fullFactor : Float := 0.7

def increaseFactor : ℕ := 4

/-- `(int)(n_buckets * FULL_FACTOR)`: the product of two doubles, truncated. -/
def fullSize (nBuckets : ℕ) : ℕ := ((UInt32.ofNat nBuckets).toFloat * fullFactor).toUInt32.toNat

-- the product is rounded below 63 before it is truncated
example : fullSize 90 = 62 := by decide

def ncSimpleHash (source : UInt64) : UInt32 := source.toUInt32

def ncSimpleCompare (l r : UInt64) : Bool := l == r

/-- A bucket slot or an overflow node; its key is the field `hash`. -/
structure NcHashmapEntry (K V : Type) where
  hash : K
  value : V
  next : Option Loc
  occ : Bool

/-- What `calloc` leaves in an entry. -/
def NcHashmapEntry.zero {K V : Type} [Null K] [Null V] : NcHashmapEntry K V :=
  ⟨null, null, none, false⟩

structure NcHashmap (K V : Type) where
  size : ℤ
  nextSize : ℤ
  nBuckets : ℕ
  buckets : ℕ
  hash : K → UInt32
  compare : K → K → Bool
  keyFree : Bool
  valueFree : Bool

/-- A call of `key_free` or of `value_free`. -/
inductive FreeCall (K V : Type) where
  | key (k : K)
  | value (v : V)
deriving DecidableEq

/-- The entries in memory and the calls of the cleanup functions so far. -/
structure Mem (K V : Type) extends Heap (NcHashmapEntry K V) where
  log : List (FreeCall K V)

structure State (K V : Type) where
  self : NcHashmap K V
  mem : Mem K V

namespace Mem

variable {K V : Type}

def write (m : Mem K V) (a : Loc) (f : NcHashmapEntry K V → NcHashmapEntry K V) : Mem K V :=
  { m with toHeap := m.toHeap.update a f }

/-- `if (self->key_free) self->key_free(k)`. -/
def freeKey (m : Mem K V) (self : NcHashmap K V) (k : K) : Mem K V :=
  if self.keyFree then { m with log := m.log ++ [.key k] } else m

/-- `if (self->value_free) self->value_free(v)`. -/
def freeValue (m : Mem K V) (self : NcHashmap K V) (v : V) : Mem K V :=
  if self.valueFree then { m with log := m.log ++ [.value v] } else m

/-- `free` of an entry; only an overflow node is a block of its own. -/
def free (m : Mem K V) : Loc → Except Fault (Mem K V)
  | .node b =>
      if (m.cells (.node b)).isSome then .ok { m with toHeap := m.toHeap.freeNode b }
      else .error .dangling
  | .slot _ _ => .error .dangling

end Mem

namespace NcHashmap

variable {K V : Type} [Null K] [Null V]

def updateNextSize (self : NcHashmap K V) : NcHashmap K V :=
  { self with nextSize := fullSize self.nBuckets }

def maybeResize (self : NcHashmap K V) : Bool := decide (self.nextSize ≤ self.size)

/-- `nc_hashmap_new_internal`; the first allocation is the map itself, the second its table. -/
def newInternal (m : Mem K V) (create : K → UInt32) (compare : K → K → Bool)
    (keyFree valueFree : Bool) : Option (State K V) :=
  if m.grants m.tick then
    match m.pass.callocTable initialSize NcHashmapEntry.zero with
    | (none, _) => none
    | (some buckets, heap) =>
        some ⟨updateNextSize ⟨0, 0, initialSize, buckets, create, compare, keyFree, valueFree⟩,
          { m with toHeap := heap }⟩
  else none

def new (m : Mem K V) (hash : K → UInt32) (compare : K → K → Bool) : Option (State K V) :=
  newInternal m hash compare false false

def newFull (m : Mem K V) (hash : K → UInt32) (compare : K → K → Bool)
    (keyFree valueFree : Bool) : Option (State K V) :=
  newInternal m hash compare keyFree valueFree

/-! ### Insertion -/

/-- How the search loop of `nc_hashmap_insert_bucket` ends: at an entry with an equal key, or
behind the last entry with `parent` and `tomb` as they then are. -/
inductive Scan (K V : Type) where
  | found (row : Loc) (entry : NcHashmapEntry K V)
  | ended (parent : Loc) (tomb : Option Loc)

def insertScan (self : NcHashmap K V) (m : Mem K V) (key : K) :
    ℕ → Option Loc → Loc → Option Loc → Except Fault (Scan K V)
  | _, none, parent, tomb => .ok (.ended parent tomb)
  | 0, some _, _, _ => .error .timeout
  | fuel + 1, some row, _, tomb =>
      match m.cells row with
      | none => .error .dangling
      | some e =>
          if e.occ && self.compare e.hash key then .ok (.found row e)
          else insertScan self m key fuel e.next row (if e.occ then tomb else some row)

/-- The end of `nc_hashmap_insert_bucket`: fill `row` and hang it behind `parent`. -/
def place (m : Mem K V) (parent row : Loc) (key : K) (value : V) : Mem K V :=
  let m := m.write row fun e => { e with hash := key, value := value, occ := true }
  if parent ≠ row then m.write parent fun e => { e with next := some row } else m

/-- `nc_hashmap_insert_bucket`: `0` after a replacement, `1` after an insertion, `-1` when the
allocation of an overflow node fails. -/
def insertBucket (self : NcHashmap K V) (fuel : ℕ) (m : Mem K V) (buckets nBuckets : ℕ)
    (hash : UInt32) (key : K) (value : V) : Except Fault (ℤ × Mem K V) := do
  let row := Loc.slot buckets (hash.toNat % nBuckets)
  match ← insertScan self m key fuel (some row) row none with
  | .found row e =>
      let m := (m.freeValue self e.value).freeKey self e.hash
      .ok (0, m.write row fun e => { e with hash := key, value := value })
  | .ended parent (some tomb) => .ok (1, place m parent tomb key value)
  | .ended parent none =>
      match m.callocNode NcHashmapEntry.zero with
      | (none, heap) => .ok (-1, { m with toHeap := heap })
      | (some row, heap) => .ok (1, place { m with toHeap := heap } parent row key value)

/-! ### Freeing chains -/

/-- The loop of `nc_hashmap_free_bucket` at the entry `tmp`. -/
def freeChain (self : NcHashmap K V) (nuke : Bool) (root : Loc) :
    ℕ → Option Loc → Mem K V → Except Fault (Mem K V)
  | _, none, m => .ok m
  | 0, some _, _ => .error .timeout
  | fuel + 1, some tmp, m =>
      match m.cells tmp with
      | none => .error .dangling
      | some e => do
          let m := if nuke && e.occ then (m.freeKey self e.hash).freeValue self e.value else m
          let m ← if tmp ≠ root then m.free tmp else .ok m
          freeChain self nuke root fuel e.next m

def freeBucket (self : NcHashmap K V) (fuel : ℕ) (bucket : Loc) (nuke : Bool) (m : Mem K V) :
    Except Fault (Mem K V) :=
  freeChain self nuke bucket fuel (some bucket) m

/-- `nc_hashmap_free_bucket` on the slots `is` of a table, one after the other. -/
def freeBuckets (self : NcHashmap K V) (fuel : ℕ) (table : ℕ) (nuke : Bool) :
    List ℕ → Mem K V → Except Fault (Mem K V)
  | [], m => .ok m
  | i :: is, m => do
      let m ← freeBucket self fuel (.slot table i) nuke m
      freeBuckets self fuel table nuke is m

def free (fuel : ℕ) (s : State K V) : Except Fault (Mem K V) := do
  let m ← freeBuckets s.self fuel s.self.buckets true (List.range s.self.nBuckets) s.mem
  .ok { m with toHeap := m.freeTable s.self.buckets }

/-! ### Resizing -/

/-- The inner loop of `nc_hashmap_resize` at `entry` of an old chain.  The Boolean is `false` when
the source jumps to `failure`. -/
def rehashChain (self : NcHashmap K V) (newBuckets newSize : ℕ) :
    ℕ → Option Loc → ℤ → Mem K V → Except Fault (Bool × ℤ × Mem K V)
  | _, none, items, m => .ok (true, items, m)
  | 0, some _, _, _ => .error .timeout
  | fuel + 1, some entry, items, m =>
      match m.cells entry with
      | none => .error .dangling
      | some e =>
          if e.occ then do
            let (incr, m) ←
              insertBucket self fuel m newBuckets newSize (self.hash e.hash) e.hash e.value
            if incr > 0 then
              match m.cells entry with
              | none => .error .dangling
              | some e => rehashChain self newBuckets newSize fuel e.next (items + incr) m
            else .ok (false, items, m)
          else rehashChain self newBuckets newSize fuel e.next items m

/-- The outer loop of `nc_hashmap_resize` over the old slots `is`. -/
def rehash (self : NcHashmap K V) (fuel newBuckets newSize : ℕ) :
    List ℕ → ℤ → Mem K V → Except Fault (Bool × ℤ × Mem K V)
  | [], items, m => .ok (true, items, m)
  | i :: is, items, m => do
      let (ok, items, m) ←
        rehashChain self newBuckets newSize fuel (some (.slot self.buckets i)) items m
      if ok then rehash self fuel newBuckets newSize is items m else .ok (false, items, m)

def resize (fuel : ℕ) (s : State K V) : Except Fault (Bool × State K V) :=
  let oldSize := s.self.nBuckets
  let newSize := oldSize * increaseFactor
  if newSize > intMax then .error .overflow
  else
    match s.mem.callocTable newSize NcHashmapEntry.zero with
    | (none, heap) => .ok (false, { s with mem := { s.mem with toHeap := heap } })
    | (some newBuckets, heap) => do
        let (ok, items, m) ← rehash s.self fuel newBuckets newSize (List.range oldSize) 0
          { s.mem with toHeap := heap }
        if ok then
          let m ← freeBuckets s.self fuel s.self.buckets false (List.range oldSize) m
          let m := { m with toHeap := m.freeTable s.self.buckets }
          let self := { s.self with nBuckets := newSize, size := items, buckets := newBuckets }
          .ok (true, ⟨self.updateNextSize, m⟩)
        else
          let m ← freeBuckets s.self fuel newBuckets true (List.range newSize) m
          .ok (false, { s with mem := { m with toHeap := m.freeTable newBuckets } })

def put (fuel : ℕ) (s : State K V) (key : K) (value : V) : Except Fault (Bool × State K V) := do
  let (ok, s) ← if s.self.maybeResize then resize fuel s else .ok (true, s)
  if ok then
    let (inc, m) ← insertBucket s.self fuel s.mem s.self.buckets s.self.nBuckets
      (s.self.hash key) key value
    if inc ≥ 0 then .ok (true, ⟨{ s.self with size := s.self.size + inc }, m⟩)
    else .ok (false, { s with mem := m })
  else .ok (false, s)

/-! ### Lookup and removal -/

def entryScan (self : NcHashmap K V) (m : Mem K V) (key : K) :
    ℕ → Option Loc → Except Fault (Option Loc)
  | _, none => .ok none
  | 0, some _ => .error .timeout
  | fuel + 1, some row =>
      match m.cells row with
      | none => .error .dangling
      | some e =>
          if self.compare e.hash key then .ok (some row) else entryScan self m key fuel e.next

def getEntry (fuel : ℕ) (s : State K V) (key : K) : Except Fault (Option Loc) :=
  entryScan s.self s.mem key fuel
    (some (.slot s.self.buckets ((s.self.hash key).toNat % s.self.nBuckets)))

def get (fuel : ℕ) (s : State K V) (key : K) : Except Fault V := do
  match ← getEntry fuel s key with
  | none => .ok null
  | some row =>
      match s.mem.cells row with
      | none => .error .dangling
      | some e => .ok e.value

def contains [DecidableEq V] (fuel : ℕ) (s : State K V) (key : K) : Except Fault Bool := do
  let value ← get fuel s key
  .ok (value ≠ null)

def removeInternal (fuel : ℕ) (s : State K V) (key : K) (remove : Bool) :
    Except Fault (Bool × State K V) := do
  match ← getEntry fuel s key with
  | none => .ok (false, s)
  | some row =>
      match s.mem.cells row with
      | none => .error .dangling
      | some e =>
          let m := if remove then (s.mem.freeKey s.self e.hash).freeValue s.self e.value else s.mem
          let m := m.write row fun e => { e with hash := null, value := null, occ := false }
          .ok (true, ⟨{ s.self with size := s.self.size - 1 }, m⟩)

def steal (fuel : ℕ) (s : State K V) (key : K) : Except Fault (Bool × State K V) :=
  removeInternal fuel s key false

def remove (fuel : ℕ) (s : State K V) (key : K) : Except Fault (Bool × State K V) :=
  removeInternal fuel s key true

/-- `nc_hashmap_size` of a map that exists. -/
def ncHashmapSize (s : State K V) : ℤ := s.self.size

/-! ### Iteration -/

/-- `_NcHashmapIter` without its back pointer to the map. -/
structure Iter where
  bucket : ℤ
  item : Option Loc
deriving DecidableEq

def iterInit : Iter := ⟨-1, none⟩

/-- The loop of `nc_hashmap_iter_next`: the new `iter->bucket`, and the occupied entry it stops
at if there is one. -/
def iterLoop (s : State K V) :
    ℕ → ℤ → Option Loc → Except Fault (ℤ × Option (NcHashmapEntry K V))
  | 0, _, _ => .error .timeout
  | fuel + 1, bucket, some item =>
      match s.mem.cells item with
      | none => .error .dangling
      | some e =>
          if bucket ≥ s.self.nBuckets ∧ e.next = none then .ok (bucket, none)
          else if e.occ then .ok (bucket, some e)
          else iterLoop s fuel bucket e.next
  | fuel + 1, bucket, none =>
      let bucket := bucket + 1
      if bucket > (s.self.nBuckets : ℤ) - 1 then .ok (bucket, none)
      else
        match s.mem.cells (.slot s.self.buckets bucket.toNat) with
        | none => .error .dangling
        | some e => if e.occ then .ok (bucket, some e) else iterLoop s fuel bucket e.next

/-- `nc_hashmap_iter_next`: the iterator, and the key and value it stores unless it returns
`false`. -/
def iterNext (fuel : ℕ) (s : State K V) (it : Iter) : Except Fault (Iter × Option (K × V)) := do
  match ← iterLoop s fuel it.bucket it.item with
  | (bucket, none) => .ok (⟨bucket, it.item⟩, none)
  | (bucket, some e) => .ok (⟨bucket, e.next⟩, some (e.hash, e.value))

end NcHashmap
end Nica
