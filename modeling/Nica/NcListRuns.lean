import Nica.NcList

/-! # The linked list is a sequence

A list of nodes represents a sequence (`Represents`): the nodes carry it in order, and the first of
them knows the last one and their number; what the others hold in `tail` and `size` does not matter.
Appending and prepending make the sequence longer (`append_spec`, `prepend_spec`), and a removal
erases the first occurrence (`remove_present`).  Every run of calls therefore follows the sequence
(`list_follows_sequence`). -/

namespace Nica

open Linked Fueled

variable {D : Type}

/-- The nodes `as`, in order, are all the nodes there are, and carry `xs`. -/
structure Chained (h : Nodes D) (list : Option Addr) (as : List Addr) (xs : List D) : Prop where
  path : Path NcList.next h list as none
  data : as.map (fun a => (h a).map NcList.data) = xs.map some
  exact : ∀ a, (h a).isSome = true ↔ a ∈ as
  tail : ∀ a, list = some a → (h a).map NcList.tail = some as.getLast?
  size : ∀ a, list = some a → (h a).map (fun n => n.size.toNat) = some as.length

namespace Chained

variable {h : Nodes D} {list : Option Addr} {as : List Addr} {xs : List D}

theorem nodup (C : Chained h list as xs) : as.Nodup := C.path.nodup

theorem length_eq (C : Chained h list as xs) : as.length = xs.length := by
  have := congrArg List.length C.data
  simpa using this

/-- No list is longer than there are addresses. -/
theorem length_lt {as : List Addr} (hnd : as.Nodup) : as.length < 2 ^ 64 := by
  have := hnd.length_le_card
  rw [Fintype.card_fin] at this
  omega

theorem list_eq_none (C : Chained h list as xs) : list = none ↔ xs = [] := by
  rw [← List.length_eq_zero_iff, ← C.length_eq, List.length_eq_zero_iff]
  constructor
  · rintro rfl
    cases as with
    | nil => rfl
    | cons a as => cases C.path.head
  · rintro rfl
    exact C.path

theorem empty (C : Chained h none as xs) : as = [] ∧ xs = [] := by
  have hx := C.list_eq_none.mp rfl
  refine ⟨List.length_eq_zero_iff.mp ?_, hx⟩
  rw [C.length_eq, hx]
  rfl

theorem head {a : Addr} (C : Chained h (some a) as xs) :
    ∃ n bs, as = a :: bs ∧ h a = some n ∧ n.tail = as.getLast? ∧ n.size.toNat = as.length := by
  cases as with
  | nil => cases C.path
  | cons b bs =>
      obtain rfl := Option.some.inj C.path.head
      obtain ⟨n, hn⟩ := C.path.cell List.mem_cons_self
      have ht := C.tail a rfl
      have hs := C.size a rfl
      rw [hn, Option.map_some, Option.some.injEq] at ht hs
      exact ⟨n, bs, rfl, hn, ht, hs⟩

/-- The first node is not one behind another node. -/
theorem head_mem {bs cs : List Addr} {head p c : Addr}
    (C : Chained h (some head) (bs ++ p :: c :: cs) xs) : head ∈ bs ++ p :: cs := by
  obtain ⟨n, as, has, -⟩ := C.head
  cases bs with
  | nil => rw [(List.cons.inj has).1]; simp
  | cons b bs => rw [(List.cons.inj has).1]; simp

/-- The data of a node in the list and of the nodes around it. -/
theorem data_split {bs cs : List Addr} {p c : Addr} {xs₁ xs₂ : List D} {d : D}
    (C : Chained h list (bs ++ p :: c :: cs) (xs₁ ++ d :: xs₂)) (hlen : xs₁.length = bs.length + 1) :
    (bs ++ [p]).map (fun a => (h a).map NcList.data) = xs₁.map some ∧
      (h c).map NcList.data = some d ∧
      cs.map (fun a => (h a).map NcList.data) = xs₂.map some := by
  have hdata : (bs ++ [p]).map (fun a => (h a).map NcList.data) ++
      (c :: cs).map (fun a => (h a).map NcList.data) = xs₁.map some ++ (d :: xs₂).map some := by
    simpa using C.data
  obtain ⟨e₁, e₂⟩ := List.append_inj hdata (by simp [hlen])
  exact ⟨e₁, (List.cons.inj e₂).1, (List.cons.inj e₂).2⟩

/-- The address that `calloc` returns is not on the list. -/
theorem fresh (C : Chained h list as xs) {a : Addr} (ha : h a = none) : a ∉ as := by
  rw [← C.exact, ha]
  simp

end Chained

theorem chained_single {h : Nodes D} {a : Addr} {d : D} {n : NcList D} (ha : h a = some n)
    (hnext : n.next = none) (htail : n.tail = some a) (hsize : n.size = 1) (hdata : n.data = d)
    (hne : ∀ b, b ≠ a → h b = none) : Chained h (some a) [a] [d] where
  path := ⟨rfl, n, ha, hnext⟩
  data := by simp [ha, hdata]
  exact b := by
    by_cases hb : b = a
    · subst hb; simp [ha]
    · simp [hne b hb, hb]
  tail b hb := by obtain rfl := Option.some.inj hb; simp [ha, htail]
  size b hb := by obtain rfl := Option.some.inj hb; simp [ha, hsize]

section insertion
variable [Null D] {s : ListState D} {as : List Addr} {xs : List D}

/-- Without a list, appending and prepending make one of a single node. -/
theorem new_list_spec (C : Chained s.nodes none as xs) (head : Addr) (d : D) :
    ∃ h, (s.nodes.calloc head).store (some head) (fun n =>
        { n with size := 1, tail := some head, next := none, data := d }) = .ok h ∧
      Chained h (some head) [head] [d] ∧ xs = [] := by
  obtain ⟨rfl, rfl⟩ := C.empty
  have hnew : (s.nodes.calloc head).modify head (fun n =>
      { n with size := 1, tail := some head, next := none, data := d }) head =
      some ⟨d, none, some head, 1⟩ := by
    rw [Nodes.modify_self, Nodes.calloc_self]
    rfl
  refine ⟨_, Nodes.store_some (by simp) _, chained_single hnew rfl rfl rfl rfl fun b hb => ?_, rfl⟩
  rw [Nodes.modify_ne hb, Nodes.calloc_ne hb]
  have := (C.exact b).not.mpr List.not_mem_nil
  simpa using this

/-! ### Appending -/

/-- The nodes after `nc_list_append` to a list from `head` to `last`. -/
def appended (h : Nodes D) (head last next : Addr) (d : D) : Nodes D :=
  ((((h.calloc next).modify head fun n => { n with size := n.size + 1 }).modify last
    fun n => { n with next := some next }).modify head
    fun n => { n with tail := some next }).modify next fun n => { n with next := none, data := d }

theorem appended_chained {h : Nodes D} {head last next : Addr} {zs : List Addr}
    (C : Chained h (some head) (zs ++ [last]) xs) (hnew : h next = none) (d : D) :
    Chained (appended h head last next d) (some head) (zs ++ [last] ++ [next]) (xs ++ [d]) := by
  obtain ⟨n, bs, has, hn, -, hsize⟩ := C.head
  have hne : ∀ b ∈ zs ++ [last], b ≠ next := fun b hb e => C.fresh hnew (e ▸ hb)
  have hhead : head ≠ next := hne head (by rw [has]; simp)
  have hlast : last ≠ next := hne last (by simp)
  have alloc : ∀ b, (h.calloc next b).isSome = true ↔ b ∈ zs ++ [last] ++ [next] := fun b => by
    rw [Nodes.calloc_isSome, C.exact, List.mem_append (t := [next]), List.mem_singleton, or_comm]
  have hnext : ∀ b, b ≠ next → b ≠ last →
      (appended h head last next d b).map NcList.next = (h b).map NcList.next := fun b hb hbl => by
    simp [appended, Nodes.modify_map, Nodes.modify_ne hb, Nodes.modify_ne hbl, Nodes.calloc_ne hb]
  have hrelinked : (appended h head last next d last).map NcList.next = some (some next) := by
    unfold appended
    rw [Nodes.modify_ne hlast, Nodes.modify_map (by simp)]
    exact Nodes.modify_assign (fun _ => rfl) (by simp [alloc])
  have hended : (appended h head last next d next).map NcList.next = some none := by
    unfold appended
    exact Nodes.modify_assign (fun _ => rfl) (by simp)
  obtain ⟨m, hm, hmn⟩ := Option.map_eq_some_iff.mp hrelinked
  obtain ⟨e, he, hen⟩ := Option.map_eq_some_iff.mp hended
  have hnd := C.nodup
  have hpath := C.path.relink hm fun b hb => hnext b (hne b (List.mem_append_left _ hb)) fun e => by
    subst e
    exact (List.nodup_append.mp hnd).2.2 b hb b (by simp) rfl
  rw [hmn] at hpath
  refine ⟨hpath.append ⟨rfl, e, he, hen⟩, ?_, fun b => ?_, fun b hb => ?_, fun b hb => ?_⟩
  · have hnew : (appended h head last next d next).map NcList.data = some d := by
      unfold appended
      exact Nodes.modify_assign (fun _ => rfl) (by simp)
    have hold : (zs ++ [last]).map (fun a => (appended h head last next d a).map NcList.data) =
        xs.map some := by
      rw [← C.data]
      refine List.map_congr_left fun b hb => ?_
      simp [appended, Nodes.modify_map, Nodes.modify_ne (hne b hb), Nodes.calloc_ne (hne b hb)]
    rw [List.map_append (f := some), ← hold]
    simp [hnew]
  · unfold appended
    rw [Nodes.modify_isSome, Nodes.modify_isSome, Nodes.modify_isSome, Nodes.modify_isSome, alloc]
  · obtain rfl := Option.some.inj hb
    unfold appended
    rw [Nodes.modify_ne hhead, List.getLast?_append_of_ne_nil _ (by simp)]
    exact Nodes.modify_assign (fun _ => rfl) (by simp [alloc, has])
  · obtain rfl := Option.some.inj hb
    unfold appended
    rw [Nodes.modify_ne hhead, Nodes.modify_map (by simp), Nodes.modify_map (by simp),
      Nodes.modify_self, Nodes.calloc_ne hhead, hn]
    have hlt : (zs ++ [last] ++ [next]).length < 2 ^ 64 := Chained.length_lt
      (by rw [List.nodup_append]; exact ⟨hnd, by simp, by simpa using hne⟩)
    have hlen : (zs ++ [last] ++ [next]).length = n.size.toNat + 1 := by rw [hsize]; simp
    rw [hlen] at hlt ⊢
    exact congrArg some ((UInt64.toNat_add n.size 1).trans (Nat.mod_eq_of_lt hlt))

theorem append_spec (C : Chained s.nodes s.list as xs) {next : Addr} (hnew : s.nodes next = none)
    (d : D) : ∃ s', ncListAppend s (some next) d = .ok (true, s') ∧
      Chained s'.nodes s'.list (as ++ [next]) (xs ++ [d]) := by
  cases hl : s.list with
  | none =>
      rw [hl] at C
      obtain ⟨h, hst, C', rfl⟩ := new_list_spec C next d
      obtain ⟨rfl, -⟩ := C.empty
      exact ⟨_, by simp only [ncListAppend, hl, hst, ok_bind]; rfl, C'⟩
  | some head =>
      rw [hl] at C
      obtain ⟨n, bs, has, hn, htail, -⟩ := C.head
      obtain ⟨zs, last, rfl⟩ : ∃ zs last, as = zs ++ [last] :=
        ⟨_, _, (List.dropLast_append_getLast (by rw [has]; simp)).symm⟩
      have hlast : n.tail = some last := by rw [htail]; simp
      have hne : head ≠ next := fun e => C.fresh hnew (by rw [← e, has]; simp)
      obtain ⟨m, hload, hm⟩ := Nodes.load_field (g := NcList.tail) (v := some last)
        (h := (s.nodes.calloc next).modify head fun n => { n with size := n.size + 1 }) (a := head)
        (by rw [Nodes.modify_map (by simp), Nodes.calloc_ne hne, hn, Option.map_some, hlast])
      refine ⟨⟨appended s.nodes head last next d, some head, s.freed⟩, ?_, appended_chained C hnew d⟩
      have hsome : ∀ b ∈ zs ++ [last], (s.nodes.calloc next b).isSome = true := fun b hb =>
        Nodes.calloc_isSome.mpr (.inr ((C.exact b).mpr hb))
      have hheadmem : head ∈ zs ++ [last] := by rw [has]; simp
      simp only [ncListAppend, hl]
      rw [Nodes.store_some (hsome _ hheadmem), ok_bind, hload, ok_bind, hm,
        Nodes.store_some (by simp [hsome]), ok_bind, Nodes.store_some (by simp [hsome, hheadmem]),
        ok_bind, Nodes.store_some (by simp)]
      rfl

/-! ### Prepending -/

/-- The nodes after `nc_list_prepend` to a list with the head `head`, which has had `size` and
`tail`. -/
def prepended (h : Nodes D) (head prev : Addr) (size : UInt64) (tail : Option Addr) (d : D) :
    Nodes D :=
  (((((h.calloc prev).modify prev fun p => { p with size := size + 1 }).modify head
    fun n => { n with size := 0 }).modify prev
    fun p => { p with next := some head, tail := tail }).modify head
    fun n => { n with tail := none }).modify prev fun p => { p with data := d }

theorem prepended_chained {h : Nodes D} {head prev : Addr} {n : NcList D}
    (C : Chained h (some head) as xs) (hn : h head = some n) (hnew : h prev = none) (d : D) :
    Chained (prepended h head prev n.size n.tail d) (some prev) (prev :: as) (d :: xs) := by
  obtain ⟨n', bs, has, hn', htail, hsize⟩ := C.head
  obtain rfl := Option.some.inj (hn.symm.trans hn')
  have hne : ∀ b ∈ as, b ≠ prev := fun b hb e => C.fresh hnew (e ▸ hb)
  have hhead : prev ≠ head := (hne head (by rw [has]; simp)).symm
  have hnext : ∀ b ∈ as, (prepended h head prev n.size n.tail d b).map NcList.next =
      (h b).map NcList.next := fun b hb => by
    simp [prepended, Nodes.modify_map, Nodes.modify_ne (hne b hb), Nodes.calloc_ne (hne b hb)]
  have hlink : (prepended h head prev n.size n.tail d prev).map NcList.next = some (some head) := by
    unfold prepended
    rw [Nodes.modify_map (by simp), Nodes.modify_map (by simp)]
    exact Nodes.modify_assign (fun _ => rfl) (by simp)
  obtain ⟨e, he, hen⟩ := Option.map_eq_some_iff.mp hlink
  refine ⟨⟨rfl, e, he, hen ▸ C.path.congr hnext⟩, ?_, fun b => ?_, fun b hb => ?_, fun b hb => ?_⟩
  · rw [List.map_cons, List.map_cons, ← C.data]
    congr 1
    · unfold prepended
      exact Nodes.modify_assign (fun _ => rfl) (by simp)
    · refine List.map_congr_left fun b hb => ?_
      simp [prepended, Nodes.modify_map, Nodes.modify_ne (hne b hb), Nodes.calloc_ne (hne b hb)]
  · unfold prepended
    rw [Nodes.modify_isSome, Nodes.modify_isSome, Nodes.modify_isSome, Nodes.modify_isSome,
      Nodes.modify_isSome, Nodes.calloc_isSome, C.exact, List.mem_cons]
  · obtain rfl := Option.some.inj hb
    unfold prepended
    rw [Nodes.modify_map (by simp), Nodes.modify_ne hhead, htail,
      List.getLast?_cons_of_ne_nil (by rw [has]; simp)]
    exact Nodes.modify_assign (fun _ => rfl) (by simp)
  · obtain rfl := Option.some.inj hb
    unfold prepended
    rw [Nodes.modify_map (by simp), Nodes.modify_map (by simp), Nodes.modify_map (by simp),
      Nodes.modify_ne hhead]
    refine Nodes.modify_assign (fun _ => ?_) (by simp)
    have hlt : (prev :: as).length < 2 ^ 64 :=
      Chained.length_lt (List.nodup_cons.mpr ⟨C.fresh hnew, C.nodup⟩)
    rw [List.length_cons, ← hsize] at hlt ⊢
    rw [UInt64.toNat_add]
    exact Nat.mod_eq_of_lt hlt

theorem prepend_spec (C : Chained s.nodes s.list as xs) {prev : Addr} (hnew : s.nodes prev = none)
    (d : D) : ∃ s', ncListPrepend s (some prev) d = .ok (true, s') ∧
      Chained s'.nodes s'.list (prev :: as) (d :: xs) := by
  cases hl : s.list with
  | none =>
      rw [hl] at C
      obtain ⟨h, hst, C', rfl⟩ := new_list_spec C prev d
      obtain ⟨rfl, -⟩ := C.empty
      exact ⟨_, by simp only [ncListPrepend, hl, hst, ok_bind]; rfl, C'⟩
  | some head =>
      rw [hl] at C
      obtain ⟨n, bs, has, hn, -, -⟩ := C.head
      have hne : head ≠ prev := fun e => C.fresh hnew (by rw [← e, has]; simp)
      have hsome : (s.nodes.calloc prev head).isSome = true :=
        Nodes.calloc_isSome.mpr (.inr (by rw [hn]; rfl))
      obtain ⟨m, hload, hm⟩ := Nodes.load_field (g := NcList.tail) (v := n.tail)
        (h := ((s.nodes.calloc prev).modify prev fun p => { p with size := n.size + 1 }).modify head
          fun n => { n with size := 0 }) (a := head)
        (by rw [Nodes.modify_map (by simp), Nodes.modify_ne hne, Nodes.calloc_ne hne, hn]; rfl)
      refine ⟨⟨prepended s.nodes head prev n.size n.tail d, some prev, s.freed⟩, ?_,
        prepended_chained C hn hnew d⟩
      simp only [ncListPrepend, hl]
      rw [Nodes.load_some (by rw [Nodes.calloc_ne hne, hn]), ok_bind, Nodes.store_some (by simp),
        ok_bind, Nodes.store_some (by simp [hsome]), ok_bind, hload, ok_bind, hm,
        Nodes.store_some (by simp), ok_bind, Nodes.store_some (by simp [hsome]), ok_bind,
        Nodes.store_some (by simp)]
      rfl

end insertion

/-! ### Removing -/

section unlink
variable {xs : List D} {d : D}

theorem drop_single {h : Nodes D} {c : Addr} (C : Chained h (some c) [c] xs) :
    Chained (h.drop c) none [] [] where
  path := rfl
  data := rfl
  exact b := by
    rw [Nodes.drop_isSome, C.exact]
    simp
  tail := by simp
  size := by simp

/-- The first node is dropped: the next one takes over its `size` and `tail`. -/
theorem drop_head {h : Nodes D} {c e : Addr} {bs : List Addr} {n : NcList D}
    (C : Chained h (some c) (c :: e :: bs) (d :: xs)) (hn : h c = some n) :
    Chained ((h.modify e fun m => { m with size := n.size - 1, tail := n.tail }).drop c) (some e)
      (e :: bs) xs := by
  obtain ⟨hc, hnd⟩ := List.nodup_cons.mp C.nodup
  have hne : ∀ b ∈ e :: bs, b ≠ c := fun b hb h => hc (h ▸ hb)
  obtain ⟨n', -, -, hn', htail, hsize⟩ := C.head
  obtain rfl := Option.some.inj (hn.symm.trans hn')
  obtain ⟨-, n', hn', hpath⟩ := C.path
  have hece : e ≠ c := hne e List.mem_cons_self
  have hsome : (h e).isSome = true := (C.exact e).mpr (by simp)
  have hdata : (e :: bs).map (fun a => (h a).map NcList.data) = xs.map some :=
    (List.cons.inj C.data).2
  refine ⟨?_, ?_, fun b => ?_, fun b hb => ?_, fun b hb => ?_⟩
  · rw [← hpath.head]
    refine hpath.congr fun b hb => ?_
    rw [Nodes.drop_ne (hne b hb), Nodes.modify_map (by simp)]
  · rw [← hdata]
    refine List.map_congr_left fun b hb => ?_
    rw [Nodes.drop_ne (hne b hb), Nodes.modify_map (by simp)]
  · rw [Nodes.drop_isSome, Nodes.modify_isSome, C.exact, List.mem_cons]
    constructor
    · exact fun h => h.2.resolve_left h.1
    · exact fun h => ⟨hne b h, .inr h⟩
  · obtain rfl := Option.some.inj hb
    rw [Nodes.drop_ne hece]
    refine Nodes.modify_assign (fun _ => ?_) hsome
    rw [htail, List.getLast?_cons_cons]
  · obtain rfl := Option.some.inj hb
    rw [Nodes.drop_ne hece]
    refine Nodes.modify_assign (fun _ => ?_) hsome
    rw [List.length_cons] at hsize
    rw [UInt64.toNat_sub_of_le _ _ (by rw [UInt64.le_iff_toNat_le, hsize]; simp), hsize]
    rfl

/-- The nodes next to `c` and the others. -/
theorem ne_of_nodup {bs cs : List Addr} {p c : Addr} (hnd : (bs ++ p :: c :: cs).Nodup) :
    (∀ b ∈ bs ++ p :: cs, b ≠ c) ∧ ∀ b ∈ bs ++ cs, b ≠ p := by
  obtain ⟨-, hnd₂, hnd₁₂⟩ := List.nodup_append.mp hnd
  obtain ⟨hp, hnd₃⟩ := List.nodup_cons.mp hnd₂
  constructor
  · rintro b hb rfl
    rcases List.mem_append.mp hb with hb | hb
    · exact hnd₁₂ b hb b (by simp) rfl
    · rcases List.mem_cons.mp hb with rfl | hb
      · exact hp (by simp)
      · exact (List.nodup_cons.mp hnd₃).1 hb
  · rintro b hb rfl
    rcases List.mem_append.mp hb with hb | hb
    · exact hnd₁₂ b hb b (by simp) rfl
    · exact hp (by simp [hb])

/-- Another node is dropped: the one before it is linked to the one behind it. -/
theorem drop_inner {h h' : Nodes D} {head p c : Addr} {bs cs : List Addr} {xs₁ xs₂ : List D}
    {n : NcList D} (C : Chained h (some head) (bs ++ p :: c :: cs) (xs₁ ++ d :: xs₂))
    (hlen : xs₁.length = bs.length + 1) (hn : h c = some n)
    (hnext : ∀ b, (h' b).map NcList.next =
      ((h.modify p fun m => { m with next := n.next }) b).map NcList.next)
    (hdata : ∀ b, (h' b).map NcList.data = (h b).map NcList.data)
    (hsome : ∀ b, (h' b).isSome = (h b).isSome)
    (htail : (h' head).map NcList.tail = some (bs ++ p :: cs).getLast?)
    (hsize : (h' head).map NcList.size = ((h head).map fun m => m.size - 1)) :
    Chained (h'.drop c) (some head) (bs ++ p :: cs) (xs₁ ++ xs₂) := by
  obtain ⟨hne, hnp⟩ := ne_of_nodup C.nodup
  obtain ⟨m, as', has, hm, -, hsz⟩ := C.head
  have hheadmem := C.head_mem
  -- the path to `c`, and the one behind it
  have hpath := C.path
  rw [show bs ++ p :: c :: cs = (bs ++ [p]) ++ c :: cs by simp] at hpath
  obtain ⟨q, h₁, rfl, n', hn', h₂⟩ := path_append.mp hpath
  obtain rfl := Option.some.inj (hn.symm.trans hn')
  have hkeep : ∀ b ∈ bs ++ cs, (h'.drop c b).map NcList.next = (h b).map NcList.next := fun b hb => by
    rw [Nodes.drop_ne (hne b (by simp only [List.mem_append, List.mem_cons] at hb ⊢; tauto)), hnext,
      Nodes.modify_ne (hnp b hb)]
  have hlink : (h'.drop c p).map NcList.next = some n.next := by
    rw [Nodes.drop_ne (hne p (by simp)), hnext]
    exact Nodes.modify_assign (fun _ => rfl) ((C.exact p).mpr (by simp))
  obtain ⟨e, he, hen⟩ := Option.map_eq_some_iff.mp hlink
  have h₁' := h₁.relink he fun b hb => hkeep b (List.mem_append_left _ hb)
  rw [hen] at h₁'
  refine ⟨?_, ?_, fun b => ?_, fun b hb => ?_, fun b hb => ?_⟩
  · rw [show bs ++ p :: cs = (bs ++ [p]) ++ cs by simp]
    exact h₁'.append (h₂.congr fun b hb => hkeep b (List.mem_append_right _ hb))
  · obtain ⟨e₁, -, e₂⟩ := C.data_split hlen
    calc (bs ++ p :: cs).map (fun a => (h'.drop c a).map NcList.data)
        = (bs ++ p :: cs).map (fun a => (h a).map NcList.data) :=
          List.map_congr_left fun b hb => by rw [Nodes.drop_ne (hne b hb), hdata]
      _ = (bs ++ [p]).map (fun a => (h a).map NcList.data) ++
          cs.map (fun a => (h a).map NcList.data) := by simp
      _ = xs₁.map some ++ xs₂.map some := by rw [e₁, e₂]
      _ = (xs₁ ++ xs₂).map some := List.map_append.symm
  · rw [Nodes.drop_isSome, hsome, C.exact]
    simp only [List.mem_append, List.mem_cons]
    constructor
    · rintro ⟨hbc, h | h | h | h⟩
      · exact .inl h
      · exact .inr (.inl h)
      · exact absurd h hbc
      · exact .inr (.inr h)
    · intro h
      refine ⟨hne b (by simpa using h), ?_⟩
      tauto
  · obtain rfl := Option.some.inj hb
    rw [Nodes.drop_ne (hne head hheadmem), htail]
  · obtain rfl := Option.some.inj hb
    have hs : (h' head).map NcList.size = some (m.size - 1) := by rw [hsize, hm]; rfl
    obtain ⟨m', hm', hms⟩ := Option.map_eq_some_iff.mp hs
    rw [Nodes.drop_ne (hne head hheadmem), hm', Option.map_some, hms,
      UInt64.toNat_sub_of_le _ _ (by rw [UInt64.le_iff_toNat_le, hsz]; simp; omega), hsz]
    simp

/-- The nodes after `prev->next = current->next` and `head->size--`. -/
def unlinked (h : Nodes D) (head p : Addr) (next : Option Addr) : Nodes D :=
  (h.modify p fun m => { m with next := next }).modify head fun m => { m with size := m.size - 1 }

/-- The nodes when `current` is freed: `tail` is moved if `current` was the last one. -/
def retailed (h : Nodes D) (head p : Addr) (last : Bool) : Nodes D :=
  if last then h.modify head fun m => { m with tail := some p } else h

variable {h : Nodes D} {head p c : Addr} {next : Option Addr} {last : Bool} {α : Type}
  {g : NcList D → α}

/-- Removing a node assigns only to `next`, `size` and `tail`. -/
theorem unlinked_map (hn : ∀ m, g { m with next := next } = g m)
    (hs : ∀ m, g { m with size := m.size - 1 } = g m) (b : Addr) :
    (unlinked h head p next b).map g = (h b).map g :=
  (Nodes.modify_map hs).trans (Nodes.modify_map hn)

theorem unlinked_isSome (b : Addr) : (unlinked h head p next b).isSome = (h b).isSome := by
  simp [unlinked]

theorem unlinked_size : (unlinked h head p next head).map NcList.size =
    (h head).map fun m => m.size - 1 := by
  have hsame : ((h.modify p fun m => { m with next := next }) head).map NcList.size =
      (h head).map NcList.size := Nodes.modify_map fun _ => rfl
  unfold unlinked
  rw [Nodes.modify_self, Option.map_map]
  calc ((h.modify p fun m => { m with next := next }) head).map (fun m => m.size - 1)
      = (((h.modify p fun m => { m with next := next }) head).map NcList.size).map (· - 1) := by
        rw [Option.map_map]
        rfl
    _ = ((h head).map NcList.size).map (· - 1) := by rw [hsame]
    _ = (h head).map fun m => m.size - 1 := by
        rw [Option.map_map]
        rfl

theorem retailed_map (hg : ∀ m, g { m with tail := some p } = g m) (b : Addr) :
    (retailed h head p last b).map g = (h b).map g := by
  unfold retailed
  split_ifs
  · exact Nodes.modify_map hg
  · rfl

theorem retailed_isSome (b : Addr) : (retailed h head p last b).isSome = (h b).isSome := by
  unfold retailed
  split_ifs
  · exact Nodes.modify_isSome
  · rfl

/-- The last node of the list without `c`. -/
theorem retailed_tail {bs cs : List Addr} (hnd : (bs ++ p :: c :: cs).Nodup)
    (hs : (h head).isSome = true) (ht : (h head).map NcList.tail = some (bs ++ p :: c :: cs).getLast?)
    (hlast : last = decide ((bs ++ p :: c :: cs).getLast? = some c)) :
    (retailed h head p last head).map NcList.tail = some (bs ++ p :: cs).getLast? := by
  unfold retailed
  cases cs with
  | nil =>
      rw [hlast, if_pos (by simp), List.getLast?_concat]
      exact Nodes.modify_assign (fun _ => rfl) hs
  | cons e cs =>
      have hne : (bs ++ p :: c :: e :: cs).getLast? ≠ some c := by
        rw [show bs ++ p :: c :: e :: cs = (bs ++ [p, c]) ++ e :: cs by simp,
          List.getLast?_append_of_ne_nil _ (List.cons_ne_nil e cs)]
        intro hc
        have hnd' := (List.nodup_append.mp hnd).2.1
        exact (List.nodup_cons.mp (List.nodup_cons.mp hnd').2).1 (List.mem_of_getLast? hc)
      rw [hlast, if_neg (by simpa using hne), ht,
        show bs ++ p :: c :: e :: cs = (bs ++ [p, c]) ++ e :: cs by simp,
        show bs ++ p :: e :: cs = (bs ++ [p]) ++ e :: cs by simp,
        List.getLast?_append_of_ne_nil _ (List.cons_ne_nil e cs),
        List.getLast?_append_of_ne_nil _ (List.cons_ne_nil e cs)]

end unlink

section removal
variable [DecidableEq D] {s : ListState D} {as : List Addr} {xs : List D} {d : D}

theorem removeScan_steady (h : Nodes D) (data : D) (current prev : Option Addr) :
    Steady fun f => removeScan h data f current prev := by
  intro f
  induction f generalizing current prev with
  | zero =>
      cases current with
      | none => exact .refl _
      | some a => exact .error _ _
  | succ f ih =>
      cases current with
      | none => exact .refl _
      | some a =>
          refine (Below.refl _).bind fun n => ?_
          split_ifs
          · exact ih n.next (some a)
          · exact .refl _

theorem removeScan_none {h : Nodes D} {p : Option Addr} {bs : List Addr}
    (hp : Path NcList.next h p bs none) (hd : ∀ b ∈ bs, (h b).map NcList.data ≠ some d)
    (prev : Option Addr) : Returns (fun f => removeScan h d f p prev) none := by
  induction bs generalizing p prev with
  | nil =>
      obtain rfl : p = none := hp
      exact (Returns.pure none).congr fun f => by cases f <;> rfl
  | cons b bs ih =>
      obtain ⟨rfl, n, hn, hp⟩ := hp
      have hne : n.data ≠ d := by simpa [hn] using hd b List.mem_cons_self
      refine (ih hp (fun c hc => hd c (List.mem_cons_of_mem b hc)) (some b)).succ fun f => ?_
      simp only [removeScan, Nodes.load_some hn, ok_bind, if_pos hne]

theorem removeScan_found {h : Nodes D} {p : Option Addr} {bs cs : List Addr} {c : Addr}
    (hp : Path NcList.next h p (bs ++ c :: cs) none)
    (hd : ∀ b ∈ bs, (h b).map NcList.data ≠ some d) (hc : (h c).map NcList.data = some d)
    (prev : Option Addr) :
    Returns (fun f => removeScan h d f p prev) (some (c, bs.getLast?.or prev)) := by
  induction bs generalizing p prev with
  | nil =>
      obtain ⟨rfl, n, hn, -⟩ := hp
      have hdata : n.data = d := by simpa [hn] using hc
      refine (Returns.pure _).succ fun f => ?_
      simp only [removeScan, Nodes.load_some hn, ok_bind, if_neg (not_not.mpr hdata)]
      rfl
  | cons b bs ih =>
      obtain ⟨rfl, n, hn, hp⟩ := hp
      have hne : n.data ≠ d := by simpa [hn] using hd b List.mem_cons_self
      have hlast : (b :: bs).getLast?.or prev = bs.getLast?.or (some b) := by
        rw [List.getLast?_cons]
        cases bs.getLast? <;> rfl
      rw [hlast]
      refine (ih hp (fun c hc => hd c (List.mem_cons_of_mem b hc)) (some b)).succ fun f => ?_
      simp only [removeScan, Nodes.load_some hn, ok_bind, if_pos hne]

theorem remove_absent (C : Chained s.nodes s.list as xs) (hd : d ∉ xs) (doFree : Bool) :
    Returns (fun f => ncListRemove f s d doFree) (false, s) := by
  refine (removeScan_none C.path (fun b hb hbd => hd ?_) s.list).bind (Returns.pure _)
  have hmem : some d ∈ as.map fun a => (s.nodes a).map NcList.data := List.mem_map.mpr ⟨b, hb, hbd⟩
  rw [C.data] at hmem
  simpa using hmem

/-- A removal of the data of the first node. -/
theorem remove_first {c : Addr} {bs : List Addr} (C : Chained s.nodes s.list (c :: bs) (d :: xs))
    (doFree : Bool) : ∃ s', Returns (fun f => ncListRemove f s d doFree) (true, s') ∧
      Chained s'.nodes s'.list bs xs := by
  have hl : s.list = some c := C.path.head
  have hc : (s.nodes c).map NcList.data = some d := (List.cons.inj C.data).1
  have hscan := removeScan_found (show Path _ _ _ ([] ++ c :: bs) _ from C.path) (by simp) hc s.list
  obtain ⟨-, n, hn, hpath⟩ := C.path
  have hsome : (s.nodes c).isSome = true := by rw [hn]; rfl
  rw [hl] at C
  cases bs with
  | nil =>
      obtain rfl : xs = [] := by
        have := C.length_eq
        simpa using this.symm
      have hnext : n.next = none := hpath
      refine ⟨⟨s.nodes.drop c, none, if doFree then s.freed ++ [n.data] else s.freed⟩,
        hscan.bind ((Returns.pure _).congr fun f => ?_), drop_single C⟩
      simp only [List.getLast?_nil, Option.none_or]
      rw [Nodes.load_some hn, ok_bind, if_pos hl.symm, hnext]
      simp only [ok_bind]
      rw [Nodes.free_some hsome, ok_bind]
  | cons e bs =>
      have hnext : n.next = some e := hpath.head
      have hece : e ≠ c := fun h => (List.nodup_cons.mp C.nodup).1 (by simp [h])
      have hesome : (s.nodes e).isSome = true := (C.exact e).mpr (by simp)
      obtain ⟨n', -, -, hn', htail, -⟩ := C.head
      obtain rfl := Option.some.inj (hn.symm.trans hn')
      have htailne : n.tail ≠ some c := by
        rw [htail, List.getLast?_cons_cons]
        intro h
        exact (List.nodup_cons.mp C.nodup).1 (List.mem_of_getLast? h)
      obtain ⟨m, hload, hm⟩ := Nodes.load_field (g := NcList.tail) (v := n.tail) (a := e)
        (h := s.nodes.modify e fun m => { m with size := n.size - 1, tail := n.tail })
        (Nodes.modify_assign (fun _ => rfl) hesome)
      refine ⟨⟨(s.nodes.modify e fun m => { m with size := n.size - 1, tail := n.tail }).drop c,
        some e, if doFree then s.freed ++ [n.data] else s.freed⟩,
        hscan.bind ((Returns.pure _).congr fun f => ?_), drop_head C hn⟩
      simp only [List.getLast?_nil, Option.none_or]
      rw [Nodes.load_some hn, ok_bind, if_pos hl.symm, hnext]
      simp only [Nodes.store_some hesome, ok_bind, hload, hm, if_neg htailne]
      rw [Nodes.free_some (by simp [hsome]), ok_bind]

/-- The search stops at the first node that carries the data. -/
theorem Chained.scan_later {bs cs : List Addr} {p c : Addr} {xs₁ xs₂ : List D}
    (C : Chained s.nodes s.list (bs ++ p :: c :: cs) (xs₁ ++ d :: xs₂))
    (hlen : xs₁.length = bs.length + 1) (hd : d ∉ xs₁) :
    (s.nodes c).map NcList.data = some d ∧
      Returns (fun f => removeScan s.nodes d f s.list s.list) (some (c, some p)) := by
  obtain ⟨e₁, hc, -⟩ := C.data_split hlen
  have hbefore : ∀ b ∈ bs ++ [p], (s.nodes b).map NcList.data ≠ some d := fun b hb hbd => by
    have hmem : some d ∈ (bs ++ [p]).map fun a => (s.nodes a).map NcList.data :=
      List.mem_map.mpr ⟨b, hb, hbd⟩
    rw [e₁] at hmem
    exact hd (by simpa using hmem)
  have hpath := C.path
  rw [show bs ++ p :: c :: cs = (bs ++ [p]) ++ c :: cs by simp] at hpath
  have hscan := removeScan_found hpath hbefore hc s.list
  rw [List.getLast?_concat, Option.some_or] at hscan
  exact ⟨hc, hscan⟩

/-- A removal of data that the first node does not carry. -/
theorem remove_later {bs cs : List Addr} {p c : Addr} {xs₁ xs₂ : List D}
    (C : Chained s.nodes s.list (bs ++ p :: c :: cs) (xs₁ ++ d :: xs₂))
    (hlen : xs₁.length = bs.length + 1) (hd : d ∉ xs₁) (doFree : Bool) :
    ∃ s', Returns (fun f => ncListRemove f s d doFree) (true, s') ∧
      Chained s'.nodes s'.list (bs ++ p :: cs) (xs₁ ++ xs₂) := by
  obtain ⟨hc, hscan⟩ := C.scan_later hlen hd
  obtain ⟨head, hl⟩ : ∃ head, s.list = some head := by
    cases hl : s.list with
    | none => rw [hl] at C; have := C.empty.1; simp at this
    | some head => exact ⟨head, rfl⟩
  rw [hl] at C
  have hnd := C.nodup
  obtain ⟨n, hn, -⟩ := Option.map_eq_some_iff.mp hc
  have hsome : ∀ b ∈ bs ++ p :: c :: cs, (s.nodes b).isSome = true := fun b hb => (C.exact b).mpr hb
  obtain ⟨m, -, -, hm, htail, -⟩ := C.head
  have hheadsome : (s.nodes head).isSome = true := by rw [hm]; rfl
  have hhc : some c ≠ some head := fun h =>
    (ne_of_nodup hnd).1 head C.head_mem (Option.some.inj h).symm
  have hut : (unlinked s.nodes head p n.next head).map NcList.tail =
      some (bs ++ p :: c :: cs).getLast? := by
    rw [unlinked_map (fun _ => rfl) fun _ => rfl, hm, Option.map_some, htail]
  have hus : (unlinked s.nodes head p n.next head).isSome = true := by
    rw [unlinked_isSome, hheadsome]
  obtain ⟨m', hload, hm'⟩ := Nodes.load_field hut
  let h' := retailed (unlinked s.nodes head p n.next) head p (decide (m'.tail = some c))
  have hrun : Returns (fun f => ncListRemove f s d doFree)
      (true, ⟨h'.drop c, some head, if doFree then s.freed ++ [n.data] else s.freed⟩) := by
    refine hscan.bind ((Returns.pure _).congr fun f => ?_)
    have hstore : (s.nodes.modify p fun m => { m with next := n.next }).store (some head)
        (fun m => { m with size := m.size - 1 }) = .ok (unlinked s.nodes head p n.next) :=
      Nodes.store_some (by simp [hheadsome]) _
    have hfree : h'.free c = .ok (h'.drop c) := by
      apply Nodes.free_some
      rw [retailed_isSome, unlinked_isSome, hsome c (by simp)]
    simp only
    rw [Nodes.load_some hn, ok_bind, hl, if_neg hhc, Nodes.store_some (hsome p (by simp)), ok_bind,
      hstore, ok_bind]
    simp only [ok_bind]
    rw [hload, ok_bind]
    by_cases ht : m'.tail = some c
    · have hh : h' = (unlinked s.nodes head p n.next).modify head fun m => { m with tail := some p } :=
        if_pos (decide_eq_true ht)
      rw [if_pos ht, Nodes.store_some hus, ok_bind, ← hh, hfree]
      rfl
    · have hh : h' = unlinked s.nodes head p n.next :=
        if_neg fun h => ht (of_decide_eq_true h)
      rw [if_neg ht, ← hh, hfree]
      rfl
  refine ⟨_, hrun, drop_inner C hlen hn (fun b => ?_) (fun b => ?_) (fun b => ?_) ?_ ?_⟩
  · exact (retailed_map (fun _ => rfl) b).trans (Nodes.modify_map fun _ => rfl)
  · exact (retailed_map (fun _ => rfl) b).trans (unlinked_map (fun _ => rfl) (fun _ => rfl) b)
  · exact (retailed_isSome b).trans (unlinked_isSome b)
  · exact retailed_tail hnd hus hut (by rw [hm'])
  · exact (retailed_map (fun _ => rfl) head).trans unlinked_size

/-- A removal erases the first occurrence. -/
theorem remove_present (C : Chained s.nodes s.list as xs) (hd : d ∈ xs) (doFree : Bool) :
    ∃ s' as', Returns (fun f => ncListRemove f s d doFree) (true, s') ∧
      Chained s'.nodes s'.list as' (xs.erase d) := by
  obtain ⟨xs₁, xs₂, rfl, hd₁⟩ := List.eq_append_cons_of_mem hd
  rw [List.erase_append_right _ hd₁, List.erase_cons_head]
  -- the nodes before the first one that carries `d`
  obtain ⟨as₁, as', rfl, h₁, h₂⟩ := List.map_eq_append_iff.mp (C.data.trans List.map_append)
  obtain ⟨c, cs, rfl, -, -⟩ := List.map_eq_cons_iff.mp h₂
  have hlen : as₁.length = xs₁.length := by simpa using congrArg List.length h₁
  rcases List.eq_nil_or_concat as₁ with rfl | ⟨bs, p, rfl⟩
  · obtain rfl : xs₁ = [] := List.length_eq_zero_iff.mp hlen.symm
    obtain ⟨s', hr, C'⟩ := remove_first C doFree
    exact ⟨s', cs, hr, C'⟩
  · rw [List.concat_eq_append, List.append_assoc, List.singleton_append] at C
    obtain ⟨s', hr, C'⟩ := remove_later C (by simpa using hlen.symm) hd₁ doFree
    exact ⟨s', _, hr, C'⟩

end removal

/-! ### Runs -/

section runs

/-- The calls on a list; an insertion comes with what `calloc` returns in it. -/
inductive ListOp (D : Type) where
  | append (data : D) (calloc : Option Addr)
  | prepend (data : D) (calloc : Option Addr)
  | remove (data : D) (doFree : Bool)

namespace ListOp

/-- `calloc` returns NULL or an address that is not in use. -/
def Allowed (s : ListState D) : ListOp D → Prop
  | .append _ calloc => ∀ a, calloc = some a → s.nodes a = none
  | .prepend _ calloc => ∀ a, calloc = some a → s.nodes a = none
  | .remove _ _ => True

instance (s : ListState D) : (op : ListOp D) → Decidable (op.Allowed s)
  | .append _ none => isTrue fun _ h => by cases h
  | .append _ (some a) => decidable_of_iff (s.nodes a = none) (by simp [Allowed])
  | .prepend _ none => isTrue fun _ h => by cases h
  | .prepend _ (some a) => decidable_of_iff (s.nodes a = none) (by simp [Allowed])
  | .remove _ _ => isTrue trivial

variable [DecidableEq D]

def call [Null D] (fuel : ℕ) (s : ListState D) : ListOp D → Except Fault (Bool × ListState D)
  | .append data calloc => ncListAppend s calloc data
  | .prepend data calloc => ncListPrepend s calloc data
  | .remove data doFree => ncListRemove fuel s data doFree

/-- The result of the call, and what it makes of the sequence. -/
def onSequence (xs : List D) : ListOp D → Bool × List D
  | .append _ none => (false, xs)
  | .append data (some _) => (true, xs ++ [data])
  | .prepend _ none => (false, xs)
  | .prepend data (some _) => (true, data :: xs)
  | .remove data _ => if data ∈ xs then (true, xs.erase data) else (false, xs)

end ListOp

/-- The list represents the sequence `xs`: NULL is the empty sequence; the nodes from the head on are
distinct, carry `xs` in order, end in NULL, and are all the nodes there are; the head knows the last
node and the length. -/
def Represents (s : ListState D) (xs : List D) : Prop :=
  (s.list = none ↔ xs = []) ∧
  ∃ as : List Addr, as.Nodup ∧ Path NcList.next s.nodes s.list as none ∧
    List.Forall₂ (fun a x => ∃ n, s.nodes a = some n ∧ n.data = x) as xs ∧
    (∀ a, (s.nodes a).isSome = true ↔ a ∈ as) ∧
    ∀ head, s.list = some head → ∃ n, s.nodes head = some n ∧ n.tail = as.getLast? ∧
      n.size.toNat = xs.length

theorem Chained.represents {s : ListState D} {as : List Addr} {xs : List D}
    (C : Chained s.nodes s.list as xs) : Represents s xs := by
  refine ⟨C.list_eq_none, as, C.nodup, C.path, ?_, C.exact, fun head hl => ?_⟩
  · have hf : List.Forall₂ (fun a x => (s.nodes a).map NcList.data = some x) as xs := by
      rw [← List.forall₂_map_right_iff (f := some), ← List.forall₂_map_left_iff, C.data]
      exact List.forall₂_same.mpr fun _ _ => rfl
    exact hf.imp fun a x h => Option.map_eq_some_iff.mp h
  · have hlen := C.length_eq
    rw [hl] at C
    obtain ⟨n, -, -, hn, htail, hsize⟩ := C.head
    exact ⟨n, hn, htail, hsize.trans hlen⟩

variable [Null D] [DecidableEq D]

theorem call_spec {s : ListState D} {as : List Addr} {xs : List D}
    (C : Chained s.nodes s.list as xs) {op : ListOp D} (hop : op.Allowed s) :
    ∃ s' as', Returns (fun f => op.call f s) ((op.onSequence xs).1, s') ∧
      Chained s'.nodes s'.list as' (op.onSequence xs).2 ∧
      ((op.onSequence xs).1 = false → s' = s) := by
  cases op with
  | append data calloc =>
      cases calloc with
      | none =>
          refine ⟨s, as, (Returns.pure _).congr fun f => ?_, C, fun _ => rfl⟩
          cases hl : s.list <;> simp [ListOp.call, ncListAppend, hl, ListOp.onSequence]
      | some a =>
          obtain ⟨s', hr, C'⟩ := append_spec C (hop a rfl) data
          exact ⟨s', _, (Returns.pure _).congr fun f => hr, C', fun h => by cases h⟩
  | prepend data calloc =>
      cases calloc with
      | none =>
          refine ⟨s, as, (Returns.pure _).congr fun f => ?_, C, fun _ => rfl⟩
          cases hl : s.list <;> simp [ListOp.call, ncListPrepend, hl, ListOp.onSequence]
      | some a =>
          obtain ⟨s', hr, C'⟩ := prepend_spec C (hop a rfl) data
          exact ⟨s', _, (Returns.pure _).congr fun f => hr, C', fun h => by cases h⟩
  | remove data doFree =>
      by_cases hd : data ∈ xs
      · obtain ⟨s', as', hr, C'⟩ := remove_present C hd doFree
        simp only [ListOp.onSequence, if_pos hd]
        exact ⟨s', as', hr, C', fun h => by cases h⟩
      · simp only [ListOp.onSequence, if_neg hd]
        exact ⟨s, as, remove_absent C hd doFree, C, fun _ => rfl⟩

/-- Calls from a NULL list pointer on, each of which ends. -/
inductive ListRun : List (ListOp D) → ListState D → Prop
  | start : ListRun [] (.start D)
  | call {ops : List (ListOp D)} {s s' : ListState D} {op : ListOp D} {ok : Bool} :
      ListRun ops s → op.Allowed s → Returns (fun f => op.call f s) (ok, s') →
      ListRun (ops ++ [op]) s'

/-- What the calls make of the empty sequence. -/
def sequence (ops : List (ListOp D)) : List D :=
  ops.foldl (fun xs op => (op.onSequence xs).2) []

theorem ListRun.chained {ops : List (ListOp D)} {s : ListState D} (hrun : ListRun ops s) :
    ∃ as, Chained s.nodes s.list as (sequence ops) := by
  induction hrun with
  | start => exact ⟨[], ⟨rfl, rfl, fun a => by simp [ListState.start], by simp [ListState.start],
      by simp [ListState.start]⟩⟩
  | call _ hop hr ih =>
      obtain ⟨as, C⟩ := ih
      obtain ⟨s', as', hr', C', -⟩ := call_spec C hop
      obtain ⟨rfl, rfl⟩ := Prod.mk.inj (hr.unique hr')
      refine ⟨as', ?_⟩
      rwa [sequence, List.foldl_append]

/-- After every run of calls the list represents the sequence that the calls make of the empty one,
and every further call ends, with the result and the sequence that it should have; when it returns
`false`, nothing has changed. -/
theorem list_follows_sequence {ops : List (ListOp D)} {s : ListState D} (hrun : ListRun ops s) :
    Represents s (sequence ops) ∧
    ∀ op : ListOp D, op.Allowed s → ∃ s',
      Returns (fun f => op.call f s) ((op.onSequence (sequence ops)).1, s') ∧
      Represents s' (op.onSequence (sequence ops)).2 ∧
      ((op.onSequence (sequence ops)).1 = false → s' = s) := by
  obtain ⟨as, C⟩ := hrun.chained
  refine ⟨C.represents, fun op hop => ?_⟩
  obtain ⟨s', as', hr, C', hsame⟩ := call_spec C hop
  exact ⟨s', hr, C'.represents, hsame⟩

/-- A node is appended, the allocation of a second one fails, and the first is removed. -/
theorem list_follows_sequence_append_remove : ∃ (a : Addr) (s : ListState UInt64),
    ListRun [.append 7 (some a), .append 8 none, .remove 7 true] s ∧ Represents s [] := by
  let a : Addr := ⟨0, by decide⟩
  obtain ⟨s₁, hr₁, -⟩ := (list_follows_sequence (D := UInt64) .start).2 (.append 7 (some a))
    fun _ _ => rfl
  have hrun₁ : ListRun [.append 7 (some a)] s₁ := ListRun.start.call (fun _ _ => rfl) hr₁
  obtain ⟨s₂, hr₂, -⟩ := (list_follows_sequence hrun₁).2 (.append 8 none) fun _ h => by cases h
  have hrun₂ : ListRun [.append 7 (some a), .append 8 none] s₂ :=
    hrun₁.call (fun _ h => by cases h) hr₂
  obtain ⟨s₃, hr₃, -⟩ := (list_follows_sequence hrun₂).2 (.remove 7 true) trivial
  have hrun₃ : ListRun [.append 7 (some a), .append 8 none, .remove 7 true] s₃ :=
    hrun₂.call trivial hr₃
  exact ⟨a, s₃, hrun₃, (list_follows_sequence hrun₃).1⟩

end runs

end Nica
