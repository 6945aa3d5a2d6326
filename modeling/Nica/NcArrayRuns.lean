import Mathlib.Data.List.Sort
import Nica.NcArray

/-! # Runs of an array

`nc_array_free` and `nc_array_qsort`, and runs of calls on one array from its creation on.  `qsort` of
the C library is a parameter (`QsortSorts`), since it may put equal elements in any order.  As long as
no call loses the data pointer, the array is the sequence of the pointers that it accepted, as the
sorts have ordered it, and `nc_array_free` passes every one of them to the free method, once
(`array_frees_accepted`). -/

namespace Nica

variable {α : Type}

/-- The loop of `nc_array_free`, with the rounds left and `i`: the calls of the free method. -/
def freeMembers (data : Option (List α)) : ℕ → ℕ → Except Fault (List α)
  | 0, _ => .ok []
  | n + 1, i =>
      match data.bind fun block => block[i]? with
      | none => .error .dangling
      | some x => do
          let xs ← freeMembers data n (i + 1)
          .ok (x :: xs)

/-- `nc_array_free`: what is passed to the free method, if there is one. -/
def ncArrayFree (array : NcArray α) (freeMethod : Bool) : Except Fault (List α) :=
  if freeMethod then freeMembers array.data array.len.toNat 0 else .ok []

def ncArrayQsort (qsort : (α → α → ℤ) → List α → List α) (self : NcArray α) (func : α → α → ℤ) :
    Except Fault (NcArray α) :=
  if self.len = 0 then .ok self
  else
    match self.data with
    | none => .error .dangling
    | some block =>
        if self.len.toNat ≤ block.length then
          .ok { self with
            data := some (qsort func (block.take self.len.toNat) ++ block.drop self.len.toNat) }
        else .error .dangling

/-- A comparison that `qsort` can be called with. -/
structure Compares (func : α → α → ℤ) : Prop where
  total : ∀ a b, func a b ≤ 0 ∨ func b a ≤ 0
  trans : ∀ a b c, func a b ≤ 0 → func b c ≤ 0 → func a c ≤ 0

/-- What the C library says of `qsort`. -/
structure QsortSorts (qsort : (α → α → ℤ) → List α → List α) : Prop where
  perm : ∀ {func}, Compares func → ∀ xs, (qsort func xs).Perm xs
  sorted : ∀ {func}, Compares func → ∀ xs, (qsort func xs).Pairwise fun a b => func a b ≤ 0

/-! ### Freeing and sorting -/

section stored
variable {array : NcArray α} {xs : List α}

theorem freeMembers_eq {data : Option (List α)} (h : xs <+: data.getD []) {n i : ℕ}
    (hn : i + n = xs.length) : freeMembers data n i = .ok (xs.drop i) := by
  induction n generalizing i with
  | zero =>
      rw [freeMembers, List.drop_of_length_le (by omega)]
  | succ n ih =>
      have hi : i < xs.length := by omega
      have hat : (data.bind fun block => block[i]?) = some xs[i] := by
        cases data with
        | none =>
            rw [List.prefix_nil.mp h] at hi
            exact absurd hi (Nat.not_lt_zero i)
        | some block =>
            rw [Option.getD_some] at h
            rw [Option.bind_some, List.prefix_iff_getElem?.mp h i hi]
      rw [freeMembers, hat]
      simp only
      rw [ih (by omega), List.drop_eq_getElem_cons hi]
      rfl

theorem Stores.free (S : Stores array xs) : ncArrayFree array true = .ok xs := by
  rw [ncArrayFree, if_pos rfl, S.len, freeMembers_eq S.block (Nat.zero_add _), List.drop_zero]

theorem free_lost (hdata : array.data = none) (hlen : array.len ≠ 0) :
    ncArrayFree array true = .error .dangling := by
  obtain ⟨n, hn⟩ : ∃ n, array.len.toNat = n + 1 := by
    refine ⟨array.len.toNat - 1, ?_⟩
    have hpos : array.len.toNat ≠ 0 := fun h => hlen (UInt16.toNat_inj.mp h)
    omega
  rw [ncArrayFree, if_pos rfl, hdata, hn]
  rfl

theorem Stores.qsort {qsort : (α → α → ℤ) → List α → List α} (hq : QsortSorts qsort)
    {func : α → α → ℤ} (hfunc : Compares func) (S : Stores array xs) :
    ∃ array', ncArrayQsort qsort array func = .ok array' ∧ Stores array' (qsort func xs) := by
  have hperm := hq.perm hfunc xs
  have hlen := S.len
  rw [ncArrayQsort]
  by_cases hzero : array.len = 0
  · rw [if_pos hzero]
    rw [hzero] at hlen
    obtain rfl : xs = [] := List.length_eq_zero_iff.mp hlen.symm
    rw [hperm.eq_nil]
    exact ⟨array, rfl, S⟩
  · have hne : xs ≠ [] := by
      rintro rfl
      exact hzero (UInt16.toNat_inj.mp hlen)
    obtain ⟨block, hdata, hblock⟩ := S.data hne
    have htake : block.take array.len.toNat = xs := by
      rw [hlen]
      exact (List.prefix_iff_eq_take.mp hblock).symm
    rw [if_neg hzero, hdata]
    simp only
    rw [if_pos (hlen.trans_le hblock.length_le), htake]
    exact ⟨_, rfl, hlen.trans hperm.length_eq.symm, List.prefix_append _ _⟩

end stored

/-! ### Runs -/

/-- A call on an array; an add comes with what its allocations do. -/
inductive ArrayCall (α : Type) where
  | add (c : Addition α)
  | get (index : UInt16)
  | qsort (func : α → α → ℤ)

inductive ArrayAnswer (α : Type) where
  | added (ok : Bool)
  | got (data : α)
  | sorted

section runs
variable (qsort : (α → α → ℤ) → List α → List α) [Null α] [DecidableEq α]

def ArrayCall.call (array : NcArray α) : ArrayCall α → Except Fault (ArrayAnswer α × NcArray α)
  | .add c => do
      let (ok, array) ← ncArrayAdd array c.data c.luck
      .ok (.added ok, array)
  | .get index => do
      let data ← ncArrayGet array index
      .ok (.got data, array)
  | .qsort func => do
      let array ← ncArrayQsort qsort array func
      .ok (.sorted, array)

/-- An add does not lose the pointers, and a sort has a comparison. -/
def ArrayCall.Allowed (array : NcArray α) : ArrayCall α → Prop
  | .add c => Spares array c
  | .get _ => True
  | .qsort func => Compares func

/-- The arrays that allowed calls make of a new one, with the calls and their answers. -/
inductive ArrayRun : NcArray α → List (ArrayCall α × ArrayAnswer α) → Prop
  | new {array : NcArray α} : ncArrayNew true = some array → ArrayRun array []
  | call {array array' : NcArray α} {trace : List (ArrayCall α × ArrayAnswer α)}
      {call : ArrayCall α} {answer : ArrayAnswer α} :
      ArrayRun array trace → call.Allowed array →
      call.call qsort array = .ok (answer, array') → ArrayRun array' (trace ++ [(call, answer)])

/-- What a call makes of the sequence of the pointers. -/
def onPointers (xs : List α) : ArrayCall α × ArrayAnswer α → List α
  | (.add c, .added true) => xs ++ [c.data]
  | (.qsort func, _) => qsort func xs
  | _ => xs

def pointersAfter (trace : List (ArrayCall α × ArrayAnswer α)) : List α :=
  trace.foldl (onPointers qsort) []

def acceptedBy : ArrayCall α × ArrayAnswer α → Option α
  | (.add c, .added true) => some c.data
  | _ => none

def acceptedIn (trace : List (ArrayCall α × ArrayAnswer α)) : List α := trace.filterMap acceptedBy

/-- The answer that a sequence gives. -/
def ArrayCall.Right (xs : List α) : ArrayCall α → ArrayAnswer α → Prop
  | .add c, answer => ∃ ok, answer = .added ok ∧
      (ok = true → c.data ≠ null ∧ xs.length < 65535) ∧
      (c.Granted → c.data ≠ null → xs.length < 65535 → ok = true)
  | .get index, answer => answer = .got (xs[index.toNat]?.getD null)
  | .qsort func, answer => answer = .sorted ∧ (qsort func xs).Pairwise fun a b => func a b ≤ 0

variable {qsort} {array : NcArray α} {xs : List α}

/-- An allowed call has a result, which is the right one. -/
theorem Stores.call (hq : QsortSorts qsort) (S : Stores array xs) (hx : xs.length ≤ 65535)
    {call : ArrayCall α} (hcall : call.Allowed array) :
    ∃ answer array', call.call qsort array = .ok (answer, array') ∧ call.Right qsort xs answer ∧
      Stores array' (onPointers qsort xs (call, answer)) ∧
      (onPointers qsort xs (call, answer)).length ≤ 65535 := by
  cases call with
  | add c =>
      rcases S.add hx c with ⟨hno, hadd⟩ | ⟨⟨-, -, hrealloc⟩, hadd⟩ | ⟨⟨hnull, hroom⟩, array', hadd, S'⟩
      · refine ⟨.added false, array, by rw [ArrayCall.call, hadd]; rfl, ⟨false, rfl, nofun, ?_⟩, S, hx⟩
        intro hgranted hnull hroom
        rcases hno with h | h | h
        · exact absurd h hnull
        · omega
        · rw [hgranted.1] at h
          cases h
      · obtain ⟨xs', S', -, hsame⟩ := S.spared hx hcall hadd
        rw [hsame rfl] at S'
        refine ⟨.added false, _, by rw [ArrayCall.call, hadd]; rfl, ⟨false, rfl, nofun, ?_⟩, S', hx⟩
        intro hgranted
        exact absurd hrealloc hgranted.2
      · refine ⟨.added true, array', by rw [ArrayCall.call, hadd]; rfl,
          ⟨true, rfl, fun _ => ⟨hnull, hroom⟩, fun _ _ _ => rfl⟩, S', ?_⟩
        rw [onPointers, List.length_append, List.length_singleton]
        omega
  | get index =>
      exact ⟨_, array, by rw [ArrayCall.call, S.get]; rfl, rfl, S, hx⟩
  | qsort func =>
      obtain ⟨array', hsort, S'⟩ := S.qsort hq hcall
      refine ⟨.sorted, array', by rw [ArrayCall.call, hsort]; rfl, ⟨rfl, hq.sorted hcall xs⟩, S', ?_⟩
      rw [onPointers, (hq.perm hcall xs).length_eq]
      exact hx

omit [Null α] [DecidableEq α] in
theorem pointersAfter_snoc (trace : List (ArrayCall α × ArrayAnswer α))
    (event : ArrayCall α × ArrayAnswer α) :
    pointersAfter qsort (trace ++ [event]) = onPointers qsort (pointersAfter qsort trace) event := by
  rw [pointersAfter, List.foldl_append]
  rfl

omit [DecidableEq α] in
/-- A call keeps the pointers, up to their order, and appends the one that it accepts. -/
theorem onPointers_perm (hq : QsortSorts qsort) {call : ArrayCall α} (hcall : call.Allowed array)
    (answer : ArrayAnswer α) (xs : List α) :
    (onPointers qsort xs (call, answer)).Perm (xs ++ (acceptedBy (call, answer)).toList) := by
  cases call with
  | add c =>
      cases answer with
      | added ok => cases ok <;> simp [onPointers, acceptedBy]
      | got data => simp [onPointers, acceptedBy]
      | sorted => simp [onPointers, acceptedBy]
  | get index => simp [onPointers, acceptedBy]
  | qsort func => simpa [onPointers, acceptedBy] using hq.perm hcall xs

theorem ArrayRun.stores (hq : QsortSorts qsort) {trace : List (ArrayCall α × ArrayAnswer α)}
    (h : ArrayRun qsort array trace) :
    Stores array (pointersAfter qsort trace) ∧ (pointersAfter qsort trace).length ≤ 65535 ∧
      (pointersAfter qsort trace).Perm (acceptedIn trace) := by
  induction h with
  | new hnew => exact ⟨ncArrayNew_stores hnew, Nat.zero_le _, List.Perm.refl _⟩
  | @call array array' trace call answer hrun hcall hr ih =>
      obtain ⟨S, hx, hperm⟩ := ih
      obtain ⟨answer', array'', hr', -, S', hx'⟩ := S.call hq hx hcall
      obtain ⟨rfl, rfl⟩ := Prod.mk.inj (Except.ok.inj (hr'.symm.trans hr))
      rw [pointersAfter_snoc]
      refine ⟨S', hx', (onPointers_perm hq hcall answer' _).trans ?_⟩
      have hlast : acceptedIn (trace ++ [(call, answer')]) =
          acceptedIn trace ++ (acceptedBy (call, answer')).toList := by
        rw [acceptedIn, List.filterMap_append]
        cases h : acceptedBy (call, answer') <;> simp [h, acceptedIn]
      rw [hlast]
      exact hperm.append_right _

/-- An add that loses the data pointer of an array with pointers. -/
theorem Stores.add_lost (S : Stores array xs) (hx : xs.length ≤ 65535) {c : Addition α}
    (hc : ¬ Spares array c) :
    ncArrayAdd array c.data c.luck = .ok (false, { array with data := none }) ∧ array.len ≠ 0 := by
  simp only [Spares, not_or, not_not] at hc
  obtain ⟨hnull, hpos, hroom, hrealloc⟩ := hc
  have hlen := S.len
  have hne : xs ≠ [] := by
    rintro rfl
    exact hpos (UInt16.toNat_inj.mp hlen)
  have hfull : array.len.toNat < 65535 := by
    refine Nat.lt_of_le_of_ne (hlen.trans_le hx) fun h => hroom (UInt16.toNat_inj.mp ?_)
    rw [h]
    rfl
  obtain ⟨block, hdata, -⟩ := S.data hne
  have hensure : ensureData array c.luck = some block := by rw [ensureData, hdata]
  have hadd := add_reallocs hnull hensure hfull
  rw [hrealloc] at hadd
  exact ⟨hadd, hpos⟩

/-- After any allowed calls on a new array every further one has the answer of the sequence of the
pointers, which are the accepted ones in some order.  `nc_array_free` passes exactly these to the
free method; after an add that is not allowed it reads through NULL. -/
theorem array_frees_accepted (hq : QsortSorts qsort) {trace : List (ArrayCall α × ArrayAnswer α)}
    (h : ArrayRun qsort array trace) :
    ncArrayFree array true = .ok (pointersAfter qsort trace) ∧
    (pointersAfter qsort trace).Perm (acceptedIn trace) ∧
    (∀ call : ArrayCall α, call.Allowed array → ∃ answer array',
      call.call qsort array = .ok (answer, array') ∧
        call.Right qsort (pointersAfter qsort trace) answer) ∧
    ∀ c : Addition α, ¬ Spares array c → ∃ array',
      ncArrayAdd array c.data c.luck = .ok (false, array') ∧
        ncArrayFree array' true = .error .dangling := by
  obtain ⟨S, hx, hperm⟩ := h.stores hq
  refine ⟨S.free, hperm, fun call hcall => ?_, fun c hc => ?_⟩
  · obtain ⟨answer, array', hr, hright, -⟩ := S.call hq hx hcall
    exact ⟨answer, array', hr, hright⟩
  · obtain ⟨hadd, hlen⟩ := S.add_lost hx hc
    exact ⟨_, hadd, free_lost rfl hlen⟩

end runs

/-- A sort as the C library describes `qsort`. -/
def insertionQsort (func : α → α → ℤ) (xs : List α) : List α :=
  xs.insertionSort fun a b => func a b ≤ 0

theorem insertionQsort_sorts : QsortSorts (insertionQsort (α := α)) where
  perm _ xs := List.perm_insertionSort _ xs
  sorted hfunc xs := by
    have htotal : Std.Total fun a b => _ ≤ (0 : ℤ) := ⟨hfunc.total⟩
    have htrans : IsTrans α fun a b => _ ≤ (0 : ℤ) := ⟨hfunc.trans⟩
    exact List.pairwise_insertionSort _ xs

/-- Two pointers in the wrong order, sorted and freed. -/
theorem array_frees_accepted_sorted : ∃ array : NcArray UInt64,
    ArrayRun insertionQsort array
      [(.add ⟨8, true, some fun _ => 0⟩, .added true), (.add ⟨7, true, some fun _ => 0⟩, .added true),
        (.qsort fun a b => (a.toNat : ℤ) - b.toNat, .sorted)] ∧
    ncArrayFree array true = .ok [7, 8] := by
  have hfunc : Compares fun a b : UInt64 => (a.toNat : ℤ) - b.toNat :=
    ⟨fun a b => by omega, fun a b c hab hbc => by omega⟩
  have hone : ArrayRun insertionQsort (⟨some [8, 0, 0, 0, 0, 0, 0, 0], 1⟩ : NcArray UInt64)
      [(.add ⟨8, true, some fun _ => 0⟩, .added true)] :=
    .call (.new rfl) (.inr (.inl rfl)) rfl
  have htwo : ArrayRun insertionQsort (⟨some [8, 7, 0, 0, 0, 0, 0, 0], 2⟩ : NcArray UInt64)
      [(.add ⟨8, true, some fun _ => 0⟩, .added true),
        (.add ⟨7, true, some fun _ => 0⟩, .added true)] :=
    .call hone (.inr (.inr (.inr nofun))) rfl
  have hrun : ArrayRun insertionQsort (⟨some [7, 8, 0, 0, 0, 0, 0, 0], 2⟩ : NcArray UInt64)
      [(.add ⟨8, true, some fun _ => 0⟩, .added true), (.add ⟨7, true, some fun _ => 0⟩, .added true),
        (.qsort fun a b => (a.toNat : ℤ) - b.toNat, .sorted)] :=
    .call htwo hfunc rfl
  exact ⟨_, hrun, (array_frees_accepted insertionQsort_sorts hrun).1⟩

end Nica
