import Nica.GreedyRealloc

/-! # The array

The functions of `array.c`.  The data pointer is NULL or a block of pointers, 8 bytes each; what the
two allocations of `nc_array_add` do is given with each call (`Luck`).  Reading or writing through
NULL or outside the block is `Fault.dangling`.  The `NULL` checks of the array itself, which every
function makes first, have no counterpart.

The block is never asked for its size: each call recomputes it from `len`, which is less than what
the block really has.  Still, with enough memory the array holds the pointers accepted so far, up to
65535 of them (`array_appends`).  A failed `realloc` leaves a NULL data pointer, so an add that fails
keeps the array only when there is nothing to lose (`failed_add_keeps`). -/

namespace Nica

variable {α : Type}

structure NcArray (α : Type) where
  data : Option (List α)
  len : UInt16
deriving DecidableEq

/-- What the allocations of one call do: whether `calloc` succeeds, and what `realloc` grants. -/
structure Luck (α : Type) where
  calloc : Bool
  realloc : Option (ℕ → α)

def ncArrayNew (calloc : Bool) : Option (NcArray α) := if calloc then some ⟨none, 0⟩ else none

variable [Null α]

/-- The first step of `nc_array_add`: the data pointer, after an allocation if it was NULL. -/
def ensureData (array : NcArray α) (luck : Luck α) : Option (List α) :=
  match array.data with
  | none => if luck.calloc then some [null] else none
  | some block => some block

def ncArrayAdd [DecidableEq α] (array : NcArray α) (data : α) (luck : Luck α) :
    Except Fault (Bool × NcArray α) :=
  if data = null then .ok (false, array)
  else
    match ensureData array luck with
    | none => .ok (false, { array with data := none })
    | some block =>
        let newLen := array.len + 1
        if newLen = 0 then .ok (false, { array with data := some block })
        else
          let curr := array.len.toUInt64 * 8
          let newSize := curr + 8
          let grown :=
            if newLen ≥ array.len then (greedyRealloc 8 ⟨some block, curr⟩ newSize luck.realloc).1
            else some block
          match grown with
          | none => .ok (false, { array with data := none })
          | some block =>
              if newLen.toNat - 1 < block.length then
                .ok (true, ⟨some (block.set (newLen.toNat - 1) data), newLen⟩)
              else .error .dangling

def ncArrayGet (array : NcArray α) (index : UInt16) : Except Fault α :=
  if index ≥ array.len then .ok null
  else
    match array.data.bind fun block => block[index.toNat]? with
    | none => .error .dangling
    | some data => .ok data

/-- The array holds the pointers `xs`, in this order. -/
structure Stores (array : NcArray α) (xs : List α) : Prop where
  len : array.len.toNat = xs.length
  block : xs <+: array.data.getD []

namespace Stores

variable {array : NcArray α} {xs : List α}

omit [Null α] in
theorem data (S : Stores array xs) (hx : xs ≠ []) :
    ∃ block, array.data = some block ∧ xs <+: block := by
  have hb := S.block
  cases hd : array.data with
  | none =>
      rw [hd, Option.getD_none, List.prefix_nil] at hb
      exact absurd hb hx
  | some block =>
      rw [hd, Option.getD_some] at hb
      exact ⟨block, rfl, hb⟩

theorem get (S : Stores array xs) (i : UInt16) :
    ncArrayGet array i = .ok (xs[i.toNat]?.getD null) := by
  have hlen := S.len
  unfold ncArrayGet
  by_cases hi : i ≥ array.len
  · rw [if_pos hi, List.getElem?_eq_none, Option.getD_none]
    rw [← hlen]
    exact UInt16.le_iff_toNat_le.mp hi
  · rw [if_neg hi]
    have hlt : i.toNat < xs.length := by
      rw [← hlen]
      exact UInt16.lt_iff_toNat_lt.mp (UInt16.not_le.mp hi)
    obtain ⟨block, hd, hb⟩ := S.data (List.ne_nil_of_length_pos (by omega))
    have hget : block[i.toNat]? = some xs[i.toNat] := List.prefix_iff_getElem?.mp hb _ hlt
    rw [hd, Option.bind_some, hget, List.getElem?_eq_getElem hlt]
    rfl

end Stores

/-! ### One call -/

section add
variable {array : NcArray α} {xs : List α} {x : α} {luck : Luck α}

/-- The sizes passed to `greedy_realloc` never wrap. -/
theorem toNat_sizes (n : UInt16) :
    (n.toUInt64 * 8).toNat = n.toNat * 8 ∧ (n.toUInt64 * 8 + 8).toNat = n.toNat * 8 + 8 := by
  have hn := n.toNat_lt
  have h8 : (8 : UInt64).toNat = 8 := rfl
  constructor
  · rw [UInt64.toNat_mul, UInt16.toNat_toUInt64, h8]
    omega
  · rw [UInt64.toNat_add, UInt64.toNat_mul, UInt16.toNat_toUInt64, h8]
    omega

omit [Null α] in
/-- The block is always too small for the size that is passed as its size. -/
theorem greedyRealloc_array (block : List α) (n : UInt16) (realloc : Option (ℕ → α)) :
    (greedyRealloc 8 ⟨some block, n.toUInt64 * 8⟩ (n.toUInt64 * 8 + 8) realloc).1 =
      realloc.map fun fresh => resized 8 fresh block (max 64 (n.toNat * 16 + 16)) := by
  obtain ⟨hcurr, hnew⟩ := toNat_sizes n
  have hn := n.toNat_lt
  have hlt : (Grown.mk (some block) (n.toUInt64 * 8)).allocated < n.toUInt64 * 8 + 8 := by
    rw [UInt64.lt_iff_toNat_lt, hnew, hcurr]
    omega
  cases realloc with
  | none => rw [greedyRealloc_fails hlt]; rfl
  | some fresh =>
      rw [greedyRealloc_grows hlt, toNat_asked, hnew, Option.map_some, Option.getD_some]
      have : (n.toNat * 8 + 8) * 2 % 2 ^ 64 = n.toNat * 16 + 16 := by omega
      rw [this]

variable [DecidableEq α]

theorem add_null (array : NcArray α) (luck : Luck α) :
    ncArrayAdd array null luck = .ok (false, array) := if_pos rfl

theorem add_no_block (hx : x ≠ null) (hd : array.data = none) (hc : luck.calloc = false) :
    ncArrayAdd array x luck = .ok (false, array) := by
  have he : ensureData array luck = none := by simp [ensureData, hd, hc]
  have harr : { array with data := none } = array := by rw [← hd]
  rw [ncArrayAdd, if_neg hx]
  simp only [he]
  exact congrArg (fun array => Except.ok (false, array)) harr

theorem add_full (hx : x ≠ null) {block : List α} (hd : array.data = some block)
    (hfull : array.len = 65535) : ncArrayAdd array x luck = .ok (false, array) := by
  have he : ensureData array luck = some block := by rw [ensureData, hd]
  have hlen : array.len + 1 = 0 := by rw [hfull]; rfl
  have harr : { array with data := some block } = array := by rw [← hd]
  rw [ncArrayAdd, if_neg hx, he]
  exact (if_pos hlen).trans (congrArg (fun array => Except.ok (false, array)) harr)

/-- A call that gets as far as `greedy_realloc`. -/
theorem add_reallocs (hx : x ≠ null) {block : List α} (he : ensureData array luck = some block)
    (hroom : array.len.toNat < 65535) :
    ncArrayAdd array x luck =
      match luck.realloc with
      | none => .ok (false, { array with data := none })
      | some fresh =>
          .ok (true,
            ⟨some ((resized 8 fresh block (max 64 (array.len.toNat * 16 + 16))).set
              array.len.toNat x), array.len + 1⟩) := by
  have hlen : (array.len + 1).toNat = array.len.toNat + 1 := by
    rw [UInt16.toNat_add]
    exact Nat.mod_eq_of_lt (by simpa using Nat.succ_lt_succ hroom)
  have hne : array.len + 1 ≠ 0 := by
    intro h
    rw [h] at hlen
    cases hlen
  have hge : array.len + 1 ≥ array.len := by
    rw [ge_iff_le, UInt16.le_iff_toNat_le, hlen]
    omega
  have hin : array.len.toNat < (max 64 (array.len.toNat * 16 + 16)) / 8 := by omega
  rw [ncArrayAdd, if_neg hx, he]
  simp only [if_neg hne, if_pos hge, greedyRealloc_array, hlen, Nat.add_sub_cancel]
  cases luck.realloc with
  | none => rfl
  | some fresh =>
      simp only [Option.map_some, length_resized]
      rw [if_pos hin]

omit [DecidableEq α] in
theorem Stores.append (S : Stores array xs) {block : List α} (he : ensureData array luck = some block)
    (hroom : xs.length < 65535) (fresh : ℕ → α) :
    Stores ⟨some ((resized 8 fresh block (max 64 (array.len.toNat * 16 + 16))).set
      array.len.toNat x), array.len + 1⟩ (xs ++ [x]) := by
  have hlen := S.len
  have hold : xs <+: block := by
    unfold ensureData at he
    have hb := S.block
    cases hd : array.data with
    | none =>
        rw [hd, Option.getD_none, List.prefix_nil] at hb
        rw [hb]
        exact List.nil_prefix
    | some b =>
        rw [hd] at he hb
        obtain rfl := Option.some.inj he
        exact hb
  have hsize : xs.length < (max 64 (array.len.toNat * 16 + 16)) / 8 := by omega
  constructor
  · rw [List.length_append, List.length_singleton, ← hlen, UInt16.toNat_add]
    exact Nat.mod_eq_of_lt (by simpa [hlen] using Nat.succ_lt_succ hroom)
  · rw [Option.getD_some, hlen, List.prefix_iff_getElem?]
    intro i hi
    rw [List.length_append, List.length_singleton] at hi
    rcases Nat.lt_succ_iff_lt_or_eq.mp hi with hi | rfl
    · rw [List.getElem?_set_ne (by omega), resized_getElem? (by omega), List.getElem_append_left hi,
        List.prefix_iff_getElem?.mp hold i hi, Option.getD_some]
    · rw [List.getElem?_set_self (by rw [length_resized]; omega), List.getElem_concat_length rfl]

end add

/-! ### Sequences of calls -/

/-- The pointer of a call of `nc_array_add`, and what the allocations of the call do. -/
structure Addition (α : Type) where
  data : α
  luck : Luck α

def Addition.Granted (c : Addition α) : Prop := c.luck.calloc = true ∧ c.luck.realloc ≠ none

variable [DecidableEq α]

/-- The array after the calls, one after the other. -/
def adds (array : NcArray α) : List (Addition α) → Except Fault (NcArray α)
  | [] => .ok array
  | c :: cs => do
      let (_, array') ← ncArrayAdd array c.data c.luck
      adds array' cs

/-- The pointers that the calls store: all but NULL, up to 65535. -/
def accepted (cs : List (Addition α)) : List α :=
  ((cs.map Addition.data).filter fun x => x ≠ null).take 65535

section calls
variable {array : NcArray α} {xs : List α}

/-- What a call does to an array that holds `xs`: it stores the pointer or changes nothing, unless
`realloc` fails. -/
theorem Stores.add (S : Stores array xs) (hx : xs.length ≤ 65535) (c : Addition α) :
    ((c.data = null ∨ xs.length = 65535 ∨ c.luck.calloc = false) ∧
      ncArrayAdd array c.data c.luck = .ok (false, array)) ∨
    ((c.data ≠ null ∧ xs.length < 65535 ∧ c.luck.realloc = none) ∧
      ncArrayAdd array c.data c.luck = .ok (false, { array with data := none })) ∨
    ((c.data ≠ null ∧ xs.length < 65535) ∧ ∃ array',
      ncArrayAdd array c.data c.luck = .ok (true, array') ∧ Stores array' (xs ++ [c.data])) := by
  by_cases hnull : c.data = null
  · rw [hnull]
    exact .inl ⟨.inl rfl, add_null array c.luck⟩
  by_cases hfull : xs.length = 65535
  · obtain ⟨block, hd, -⟩ := S.data (List.ne_nil_of_length_pos (by omega))
    have hlen : array.len = 65535 := UInt16.toNat_inj.mp (S.len.trans hfull)
    exact .inl ⟨.inr (.inl hfull), add_full hnull hd hlen⟩
  have hroom : xs.length < 65535 := by omega
  cases he : ensureData array c.luck with
  | none =>
      obtain ⟨hd, hc⟩ : array.data = none ∧ c.luck.calloc = false := by
        unfold ensureData at he
        cases hd : array.data with
        | none => simpa [hd] using he
        | some block => simp [hd] at he
      exact .inl ⟨.inr (.inr hc), add_no_block hnull hd hc⟩
  | some block =>
      have hadd := add_reallocs hnull he (by rw [S.len]; exact hroom)
      cases hr : c.luck.realloc with
      | none =>
          rw [hr] at hadd
          exact .inr (.inl ⟨⟨hnull, hroom, rfl⟩, hadd⟩)
      | some fresh =>
          rw [hr] at hadd
          exact .inr (.inr ⟨⟨hnull, hroom⟩, _, hadd, S.append he hroom fresh⟩)

theorem Stores.add_granted (S : Stores array xs) (hx : xs.length ≤ 65535) {c : Addition α}
    (hc : c.Granted) :
    ((c.data = null ∨ xs.length = 65535) ∧
      ncArrayAdd array c.data c.luck = .ok (false, array)) ∨
    ((c.data ≠ null ∧ xs.length < 65535) ∧ ∃ array',
      ncArrayAdd array c.data c.luck = .ok (true, array') ∧ Stores array' (xs ++ [c.data])) := by
  rcases S.add hx c with ⟨hno, hadd⟩ | ⟨⟨-, -, hr⟩, -⟩ | h
  · refine .inl ⟨hno.imp_right fun h => h.resolve_right ?_, hadd⟩
    rw [hc.1]
    decide
  · exact absurd hr hc.2
  · exact .inr h

theorem Stores.adds (S : Stores array xs) (hx : xs.length ≤ 65535) {cs : List (Addition α)}
    (hcs : ∀ c ∈ cs, c.Granted) :
    ∃ array', Nica.adds array cs = .ok array' ∧
      Stores array' ((xs ++ (cs.map Addition.data).filter fun x => x ≠ null).take 65535) := by
  induction cs generalizing array xs with
  | nil =>
      refine ⟨array, rfl, ?_⟩
      rw [List.map_nil, List.filter_nil, List.append_nil, List.take_of_length_le hx]
      exact S
  | cons c cs ih =>
      have hcs' : ∀ c ∈ cs, c.Granted := fun d hd => hcs d (List.mem_cons_of_mem c hd)
      rcases S.add_granted hx (hcs c List.mem_cons_self) with
        ⟨hno, hadd⟩ | ⟨⟨hnull, hroom⟩, array', hadd, S'⟩
      · obtain ⟨array', hr, S'⟩ := ih S hx hcs'
        refine ⟨array', by rw [Nica.adds, hadd]; exact hr, ?_⟩
        rcases hno with hnull | hfull
        · rw [List.map_cons, List.filter_cons_of_neg (by simp [hnull])]
          exact S'
        · -- a full array takes nothing more
          have full : ∀ l : List α, (xs ++ l).take 65535 = xs := fun l => by
            rw [← hfull, List.take_left]
          rw [full] at S' ⊢
          exact S'
      · obtain ⟨array'', hr, S''⟩ := ih S' (by simp; omega) hcs'
        refine ⟨array'', by rw [Nica.adds, hadd]; exact hr, ?_⟩
        rw [List.map_cons, List.filter_cons_of_pos (by simp [hnull]), List.append_cons]
        exact S''

end calls

omit [Null α] [DecidableEq α] in
theorem ncArrayNew_stores {array : NcArray α} (h : ncArrayNew true = some array) :
    Stores array [] := by
  obtain rfl : NcArray.mk none 0 = array := Option.some.inj h
  exact ⟨rfl, List.nil_prefix⟩

/-- With enough memory a new array holds, after any calls, the pointers accepted so far, in a block
that has room for them.  The next call returns `true` exactly when its pointer is not NULL and fewer
than 65535 pointers are stored; it then stores the pointer inside the block as it was last sized, and
otherwise changes nothing. -/
theorem array_appends {cs : List (Addition α)} (hcs : ∀ c ∈ cs, c.Granted) :
    ∃ array₀ array, ncArrayNew true = some array₀ ∧ adds array₀ cs = .ok array ∧
      (array.len.toNat = (accepted cs).length ∧ (accepted cs).length ≤ 65535) ∧
      (∀ i : UInt16, ncArrayGet array i = .ok ((accepted cs)[i.toNat]?.getD null)) ∧
      (accepted cs ≠ [] → ∃ block, array.data = some block ∧ accepted cs <+: block) ∧
      ∀ c : Addition α, c.Granted → ∃ ok array', ncArrayAdd array c.data c.luck = .ok (ok, array') ∧
        (ok = true ↔ c.data ≠ null ∧ (accepted cs).length < 65535) ∧
        (ok = false → array' = array) ∧
        (ok = true → array'.len.toNat = array.len.toNat + 1 ∧
          ∃ block, array'.data = some block ∧ array.len.toNat < block.length ∧
            accepted cs ++ [c.data] <+: block) := by
  have hnew : ncArrayNew true = some (⟨none, 0⟩ : NcArray α) := rfl
  obtain ⟨array, hadds, S⟩ := (ncArrayNew_stores hnew).adds (by simp) hcs
  rw [List.nil_append] at S
  change Stores array (accepted cs) at S
  have hmax : (accepted cs).length ≤ 65535 := List.length_take_le _ _
  refine ⟨_, array, hnew, hadds, ⟨S.len, hmax⟩, S.get, S.data, fun c hc => ?_⟩
  rcases S.add_granted hmax hc with ⟨hno, hadd⟩ | ⟨hyes, array', hadd, S'⟩
  · refine ⟨false, array, hadd, iff_of_false Bool.false_ne_true fun ⟨hnull, hroom⟩ => ?_,
      fun _ => rfl, fun h => by cases h⟩
    rcases hno with h | h
    · exact hnull h
    · omega
  · obtain ⟨block, hd, hb⟩ := S'.data (by simp)
    have hlen := S.len
    have hlen' := S'.len
    have hle := hb.length_le
    rw [List.length_append, List.length_singleton] at hlen' hle
    refine ⟨true, array', hadd, iff_of_true rfl hyes, fun h => ?_, fun _ => ?_⟩
    · cases h
    · exact ⟨by omega, block, hd, by omega, hb⟩

/-- Two pointers and a NULL. -/
theorem array_appends_two : ∃ array₀ array : NcArray UInt64, ncArrayNew true = some array₀ ∧
    adds array₀ [⟨7, true, some fun _ => 0⟩, ⟨0, true, some fun _ => 0⟩, ⟨8, true, some fun _ => 0⟩] =
      .ok array ∧ ncArrayGet array 1 = .ok 8 := by
  have hcs : ∀ c ∈ [Addition.mk (7 : UInt64) ⟨true, some fun _ => 0⟩, ⟨0, true, some fun _ => 0⟩,
      ⟨8, true, some fun _ => 0⟩], c.Granted := by simp [Addition.Granted]
  obtain ⟨array₀, array, hnew, hadds, -, hget, -⟩ := array_appends hcs
  exact ⟨array₀, array, hnew, hadds, hget 1⟩

/-! ### Failed calls -/

/-- The arrays that calls under the condition `P` make of a new one. -/
inductive Reached (P : NcArray α → Addition α → Prop) : NcArray α → Prop
  | new {array : NcArray α} : ncArrayNew true = some array → Reached P array
  | add {array array' : NcArray α} {c : Addition α} {ok : Bool} : Reached P array → P array c →
      ncArrayAdd array c.data c.luck = .ok (ok, array') → Reached P array'

/-- If the call returns `false`, the array has the length and the pointers that it had, and keeps
them in every sequence of later calls with enough memory. -/
def FailureKeeps (array : NcArray α) (c : Addition α) : Prop :=
  ∀ array', ncArrayAdd array c.data c.luck = .ok (false, array') →
    array'.len = array.len ∧
    (∀ i < array.len, ∃ x, ncArrayGet array i = .ok x ∧ ncArrayGet array' i = .ok x) ∧
    ∀ cs : List (Addition α), (∀ c ∈ cs, c.Granted) → ∃ array'', adds array' cs = .ok array'' ∧
      ∀ i < array.len, ncArrayGet array'' i = ncArrayGet array i

/-- The call does not call `realloc`, or `realloc` succeeds, or the array is empty. -/
def Spares (array : NcArray α) (c : Addition α) : Prop :=
  c.data = null ∨ array.len = 0 ∨ array.len = 65535 ∨ c.luck.realloc ≠ none

section failure
variable {array array' : NcArray α} {xs : List α} {c : Addition α}

/-- A call under the condition that fails leaves an array of the same pointers. -/
theorem Stores.spared (S : Stores array xs) (hx : xs.length ≤ 65535) (hc : Spares array c)
    {ok : Bool} (hr : ncArrayAdd array c.data c.luck = .ok (ok, array')) :
    ∃ xs', Stores array' xs' ∧ xs'.length ≤ 65535 ∧ (ok = false → xs' = xs) := by
  rcases S.add hx c with ⟨-, hadd⟩ | ⟨⟨hnull, hroom, hrealloc⟩, hadd⟩ | ⟨⟨-, hroom⟩, t, hadd, S'⟩
  · obtain ⟨-, rfl⟩ := Prod.mk.inj (Except.ok.inj (hr.symm.trans hadd))
    exact ⟨xs, S, hx, fun _ => rfl⟩
  · obtain ⟨-, rfl⟩ := Prod.mk.inj (Except.ok.inj (hr.symm.trans hadd))
    have hlen := S.len
    have hempty : array.len = 0 := by
      rcases hc with h | h | h | h
      · exact absurd h hnull
      · exact h
      · rw [h] at hlen
        exact absurd hlen (by simp; omega)
      · exact absurd hrealloc h
    have hxs : xs = [] := by
      rw [hempty] at hlen
      exact List.length_eq_zero_iff.mp hlen.symm
    exact ⟨xs, ⟨hlen, by rw [hxs]; exact List.nil_prefix⟩, hx, fun _ => rfl⟩
  · obtain ⟨rfl, rfl⟩ := Prod.mk.inj (Except.ok.inj (hr.symm.trans hadd))
    exact ⟨_, S', by simp; omega, fun h => by cases h⟩

theorem Reached.stores (h : Reached Spares array) :
    ∃ xs, Stores array xs ∧ xs.length ≤ 65535 := by
  induction h with
  | new hnew => exact ⟨[], ncArrayNew_stores hnew, by simp⟩
  | add _ hc hr ih =>
      obtain ⟨xs, S, hx⟩ := ih
      obtain ⟨xs', S', hx', -⟩ := S.spared hx hc hr
      exact ⟨xs', S', hx'⟩

/-- After calls that spare the array, the next call is one that keeps it when it fails exactly when it
spares it too: otherwise its data pointer is lost with every pointer stored. -/
theorem failed_add_keeps (h : Reached Spares array) (c : Addition α) :
    FailureKeeps array c ↔ Spares array c := by
  obtain ⟨xs, S, hx⟩ := h.stores
  have hlen := S.len
  constructor
  · intro hkeeps
    by_contra hno
    simp only [Spares, not_or, not_not] at hno
    obtain ⟨hnull, hpos, hroom, hrealloc⟩ := hno
    have hne : xs ≠ [] := by
      rintro rfl
      exact hpos (UInt16.toNat_inj.mp hlen)
    have hfull : array.len.toNat < 65535 := by
      rw [hlen]
      refine Nat.lt_of_le_of_ne hx fun h => hroom (UInt16.toNat_inj.mp ?_)
      rw [hlen, h]
      rfl
    obtain ⟨block, hd, -⟩ := S.data hne
    have he : ensureData array c.luck = some block := by rw [ensureData, hd]
    have hadd := add_reallocs hnull he hfull
    rw [hrealloc] at hadd
    obtain ⟨-, hget, -⟩ := hkeeps _ hadd
    obtain ⟨x, -, hx⟩ := hget 0 (UInt16.pos_iff_ne_zero.mpr hpos)
    rw [ncArrayGet, if_neg (UInt16.not_le.mpr (UInt16.pos_iff_ne_zero.mpr hpos))] at hx
    cases hx
  · intro hc array' hr
    obtain ⟨xs', S', hx', hsame⟩ := S.spared hx hc hr
    obtain rfl := hsame rfl
    refine ⟨UInt16.toNat_inj.mp (S'.len.trans hlen.symm), fun i hi => ⟨_, S.get i, S'.get i⟩,
      fun cs hcs => ?_⟩
    obtain ⟨array'', hadds, S''⟩ := S'.adds hx hcs
    refine ⟨array'', hadds, fun i hi => ?_⟩
    have hi' : i.toNat < xs'.length := by
      rw [← hlen]
      exact UInt16.lt_iff_toNat_lt.mp hi
    rw [S''.get, S.get, List.getElem?_take_of_lt (by omega), List.getElem?_append_left hi']

end failure

theorem add_seven : ncArrayAdd (⟨none, 0⟩ : NcArray UInt64) 7 ⟨true, some fun _ => 0⟩ =
    .ok (true, ⟨some [7, 0, 0, 0, 0, 0, 0, 0], 1⟩) := by decide

/-- A refused `realloc` at the second add, and an add after that. -/
theorem failed_add_loses : ∃ array array' : NcArray UInt64,
    Reached (fun _ _ => True) array ∧ ncArrayGet array 0 = .ok 7 ∧
    ncArrayAdd array 8 ⟨true, none⟩ = .ok (false, array') ∧
    ncArrayGet array' 0 = .error .dangling ∧ ¬ FailureKeeps array ⟨8, true, none⟩ := by
  have hsecond : ncArrayAdd (⟨some [7, 0, 0, 0, 0, 0, 0, 0], 1⟩ : NcArray UInt64) 8 ⟨true, none⟩ =
      .ok (false, ⟨none, 1⟩) := by decide
  have hreached : Reached (fun _ _ => True) (⟨some [7, 0, 0, 0, 0, 0, 0, 0], 1⟩ : NcArray UInt64) :=
    .add (c := ⟨7, true, some fun _ => 0⟩) (.new rfl) trivial add_seven
  refine ⟨_, _, hreached, rfl, hsecond, rfl, fun h => ?_⟩
  obtain ⟨-, hget, -⟩ := h _ hsecond
  obtain ⟨x, -, hx⟩ := hget 0 (by decide)
  cases hx

/-- A new array whose first add got no block: a refused `realloc` at the next add is kept, and one after
a pointer has been stored is not. -/
theorem failed_add_keeps_refused : ∃ array array' : NcArray UInt64, Reached Spares array ∧
    ncArrayAdd array 7 ⟨true, none⟩ = .ok (false, array) ∧ FailureKeeps array ⟨7, true, none⟩ ∧
    ncArrayAdd array 7 ⟨true, some fun _ => 0⟩ = .ok (true, array') ∧
    ¬ FailureKeeps array' ⟨8, true, none⟩ := by
  have hrefused : ncArrayAdd (⟨none, 0⟩ : NcArray UInt64) 7 ⟨false, none⟩ = .ok (false, ⟨none, 0⟩) := by
    decide
  have hempty : Reached Spares (⟨none, 0⟩ : NcArray UInt64) :=
    .add (c := ⟨7, false, none⟩) (.new rfl) (.inr (.inl rfl)) hrefused
  have hstored : Reached Spares (⟨some [7, 0, 0, 0, 0, 0, 0, 0], 1⟩ : NcArray UInt64) :=
    .add (c := ⟨7, true, some fun _ => 0⟩) hempty (.inr (.inl rfl)) add_seven
  refine ⟨_, _, hempty, by decide, (failed_add_keeps hempty _).mpr (.inr (.inl rfl)), add_seven,
    fun h => ?_⟩
  rcases (failed_add_keeps hstored _).mp h with h | h | h | h
  · cases h
  · cases h
  · cases h
  · exact h rfl

end Nica
