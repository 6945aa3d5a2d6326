import Nica.Trimming

/-! # Path names

* `dirname` : the function of the C library, on strings without their NUL.
* `route` : what the system makes of a path, the names between its slashes, from the root or not.

A path is empty, or it is all slashes, or it ends in a name with slashes behind it (`path_cases`).
The lemmas say for each of these what `dirname` returns: the route of the rest, except that it
returns `.` where nothing stands before the name (`route_dirname`). -/

namespace PathName

open Trimming

/-- A string without its NUL. -/
abbrev Chars := List UInt8

/-- `memrchr(path, '/', n)` as an offset into `path`. -/
def memrchr (path : Chars) : ℕ → Option ℕ
  | 0 => none
  | n + 1 => if path[n]? = some 47 then some n else memrchr path n

/-- `runp`, which goes back from the offset `n` as long as a slash stands before it. -/
def runBack (path : Chars) : ℕ → ℕ
  | 0 => 0
  | n + 1 => if path[n]? = some 47 then runBack path n else n + 1

/-- `last_slash`: the last slash that has a name behind it. -/
def lastSlash (path : Chars) : Option ℕ :=
  match memrchr path path.length with
  | none => none
  | some last =>
      if last ≠ 0 ∧ last + 1 = path.length then
        if runBack path last ≠ 0 then memrchr path (runBack path last) else some last
      else some last

/-- `dirname`. -/
def dirname (path : Chars) : Chars :=
  match lastSlash path with
  | none => [46]
  | some last =>
      if runBack path last = 0 then path.take (if last = 1 then 2 else 1)
      else path.take (runBack path last)

/-- The names between the slashes of a path. -/
def names (path : Chars) : List Chars := (path.splitOn 47).filter (· ≠ [])

/-- The way that a path shows. -/
structure Route where
  absolute : Bool
  names : List Chars
deriving DecidableEq

def route (path : Chars) : Route := ⟨path.head? = some 47, names path⟩

/-- A path of slashes. -/
def slashes (n : ℕ) : Chars := List.replicate n 47

@[simp] theorem length_slashes (n : ℕ) : (slashes n).length = n := List.length_replicate

@[simp] theorem slashes_zero : slashes 0 = [] := rfl

theorem slashes_succ (n : ℕ) : slashes (n + 1) = 47 :: slashes n := rfl

theorem slashes_succ' (n : ℕ) : slashes (n + 1) = slashes n ++ [47] := List.replicate_succ'

/-- A name: it is not empty, and no slash stands in it. -/
structure IsName (p : Chars) : Prop where
  ne_nil : p ≠ []
  plain : 47 ∉ p

theorem IsName.concat {p : Chars} (h : IsName p) : ∃ w c, c ≠ 47 ∧ p = w ++ [c] := by
  obtain ⟨w, c, rfl⟩ := (List.eq_nil_or_concat' p).resolve_left h.ne_nil
  refine ⟨w, c, ?_, rfl⟩
  rintro rfl
  exact h.plain (by simp)

theorem slashes_or_name (path : Chars) :
    ∃ n, path = slashes n ∨ ∃ w c, c ≠ 47 ∧ path = w ++ c :: slashes n := copies_or_last 47 path

/-- Every path is empty, or all slashes, or ends in a name with slashes behind it. -/
theorem path_cases (path : Chars) :
    path = [] ∨ (∃ n, path = slashes (n + 1)) ∨
    (∃ p n, IsName p ∧ path = p ++ slashes n) ∨
    ∃ r p n, IsName p ∧ path = r ++ 47 :: (p ++ slashes n) := by
  obtain ⟨n, h⟩ := slashes_or_name path
  cases h with
  | inl h =>
      cases n with
      | zero => exact .inl h
      | succ n => exact .inr (.inl ⟨n, h⟩)
  | inr h =>
      right
      right
      obtain ⟨w, c, hc, rfl⟩ := h
      by_cases hw : 47 ∈ w
      · right
        obtain ⟨r, t, rfl, ht⟩ := split_last hw
        refine ⟨r, t ++ [c], n, ⟨by simp, ?_⟩, by simp [slashes]⟩
        simp [ht, Ne.symm hc]
      · left
        refine ⟨w ++ [c], n, ⟨by simp, ?_⟩, by rw [List.append_assoc]; rfl⟩
        simp [hw, Ne.symm hc]

/-! ### The searches -/

theorem memrchr_concat (l rest : Chars) (c : UInt8) :
    memrchr ((l ++ [c]) ++ rest) (l ++ [c]).length =
      if c = 47 then some l.length else memrchr (l ++ c :: rest) l.length := by
  rw [List.length_append, List.length_singleton, List.append_assoc, List.singleton_append, memrchr]
  simp

theorem runBack_concat (l rest : Chars) (c : UInt8) :
    runBack ((l ++ [c]) ++ rest) (l ++ [c]).length =
      if c = 47 then runBack (l ++ c :: rest) l.length else l.length + 1 := by
  rw [List.length_append, List.length_singleton, List.append_assoc, List.singleton_append, runBack]
  simp

theorem memrchr_none {t : Chars} (ht : 47 ∉ t) (rest : Chars) :
    memrchr (t ++ rest) t.length = none := by
  induction t using List.reverseRecOn generalizing rest with
  | nil => rfl
  | append_singleton t c ih =>
      have hc : c ≠ 47 := by
        rintro rfl
        exact ht (by simp)
      rw [memrchr_concat, if_neg hc]
      exact ih (fun h => ht (List.mem_append_left _ h)) _

theorem memrchr_last {t : Chars} (ht : 47 ∉ t) (r rest : Chars) :
    memrchr ((r ++ 47 :: t) ++ rest) (r ++ 47 :: t).length = some r.length := by
  induction t using List.reverseRecOn generalizing rest with
  | nil => rw [memrchr_concat, if_pos rfl]
  | append_singleton t c ih =>
      have hc : c ≠ 47 := by
        rintro rfl
        exact ht (by simp)
      rw [← List.cons_append, ← List.append_assoc, memrchr_concat, if_neg hc]
      exact ih (fun h => ht (List.mem_append_left _ h)) _

theorem runBack_slashes (n : ℕ) (rest : Chars) : runBack (slashes n ++ rest) n = 0 := by
  induction n generalizing rest with
  | zero => rfl
  | succ n ih =>
      have h := runBack_concat (slashes n) rest 47
      rw [if_pos rfl, ← slashes_succ', length_slashes, length_slashes] at h
      rw [h, ih]

theorem runBack_name {c : UInt8} (hc : c ≠ 47) (w : Chars) (n : ℕ) (rest : Chars) :
    runBack ((w ++ c :: slashes n) ++ rest) (w ++ c :: slashes n).length = w.length + 1 := by
  induction n generalizing rest with
  | zero =>
      rw [slashes_zero, runBack_concat]
      exact if_neg hc
  | succ n ih =>
      rw [slashes_succ', ← List.cons_append, ← List.append_assoc, runBack_concat, if_pos rfl]
      exact ih _

theorem memrchr_lt {path : Chars} {n k : ℕ} (h : memrchr path n = some k) : k < n := by
  induction n with
  | zero => cases h
  | succ n ih =>
      rw [memrchr] at h
      split_ifs at h with hc
      · rw [← Option.some.inj h]
        omega
      · have := ih h
        omega

/-! ### The directory of a path -/

/-- Slashes behind a path that ends in a name do not count. -/
theorem lastSlash_slashes {w : Chars} {c : UInt8} (hc : c ≠ 47) (n : ℕ) :
    lastSlash ((w ++ [c]) ++ slashes n) = memrchr ((w ++ [c]) ++ slashes n) (w ++ [c]).length := by
  cases n with
  | zero =>
      have hstep := memrchr_concat w [] c
      rw [if_neg hc, List.append_nil] at hstep
      rw [slashes_zero, List.append_nil, lastSlash, hstep]
      cases h : memrchr (w ++ [c]) w.length with
      | none => rfl
      | some last =>
          have hlt := memrchr_lt h
          have hlen : (w ++ [c]).length = w.length + 1 := by simp
          simp only
          exact if_neg (by omega)
  | succ n =>
      have hlen : ((w ++ [c]) ++ slashes (n + 1)).length = w.length + n + 2 := by
        simp
        omega
      have hpath : (w ++ [c]) ++ slashes (n + 1) = (w ++ c :: slashes n) ++ [47] := by
        simp [slashes_succ']
      have hw : (w ++ c :: slashes n).length = w.length + n + 1 := by
        simp
        omega
      have hlast : memrchr ((w ++ [c]) ++ slashes (n + 1)) (w.length + n + 2) =
          some (w.length + n + 1) := by
        have h := memrchr_concat (w ++ c :: slashes n) [] 47
        rw [if_pos rfl, List.append_nil, ← hpath, hlen, hw] at h
        exact h
      have hback : runBack ((w ++ [c]) ++ slashes (n + 1)) (w.length + n + 1) = w.length + 1 := by
        have h := runBack_name hc w n [47]
        rw [← hpath, hw] at h
        exact h
      rw [lastSlash, hlen, hlast]
      simp only [hback]
      rw [if_pos ⟨Nat.succ_ne_zero _, trivial⟩, if_pos (Nat.succ_ne_zero _), List.length_append,
        List.length_singleton]

theorem dirname_nil : dirname [] = [46] := rfl

/-- A path without a directory in it. -/
theorem dirname_name {p : Chars} (hp : IsName p) (n : ℕ) : dirname (p ++ slashes n) = [46] := by
  obtain ⟨w, c, hc, rfl⟩ := hp.concat
  rw [dirname, lastSlash_slashes hc, memrchr_none hp.plain]

/-- The last slash of a path with a directory in it. -/
theorem lastSlash_join {p : Chars} (hp : IsName p) (r : Chars) (n : ℕ) :
    lastSlash (r ++ 47 :: (p ++ slashes n)) = some r.length := by
  obtain ⟨w, c, hc, rfl⟩ := hp.concat
  have hpath : r ++ 47 :: ((w ++ [c]) ++ slashes n) = ((r ++ 47 :: w) ++ [c]) ++ slashes n := by simp
  have hlast := memrchr_last hp.plain r (slashes n)
  rw [← List.cons_append, ← List.append_assoc r] at hlast
  rw [hpath, lastSlash_slashes hc]
  exact hlast

/-- A name in the root. -/
theorem dirname_root {p : Chars} (hp : IsName p) (k n : ℕ) :
    dirname (slashes k ++ 47 :: (p ++ slashes n)) = slashes (if k = 1 then 2 else 1) := by
  rw [dirname, lastSlash_join hp, length_slashes]
  simp only [runBack_slashes, if_true]
  by_cases hk : k = 1
  · subst hk
    rfl
  · rw [if_neg hk]
    cases k with
    | zero => rfl
    | succ k => rfl

/-- A name in a directory that a name stands for. -/
theorem dirname_join {p : Chars} (hp : IsName p) {c : UInt8} (hc : c ≠ 47) (w : Chars) (k n : ℕ) :
    dirname ((w ++ c :: slashes k) ++ 47 :: (p ++ slashes n)) = w ++ [c] := by
  rw [dirname, lastSlash_join hp]
  simp only [runBack_name hc]
  rw [if_neg (Nat.succ_ne_zero _), List.append_cons w, List.append_assoc]
  apply List.take_left'
  simp

theorem dirname_slashes (n : ℕ) : dirname (slashes (n + 1)) = slashes (if n = 1 then 2 else 1) := by
  have hlast : lastSlash (slashes (n + 1)) = some n := by
    have h := memrchr_concat (slashes n) [] 47
    rw [if_pos rfl, List.append_nil, ← slashes_succ', length_slashes, length_slashes] at h
    have hback := runBack_slashes n [47]
    rw [← slashes_succ'] at hback
    rw [lastSlash, length_slashes, h]
    simp only [hback]
    split_ifs <;> first | rfl | omega
  have hback := runBack_slashes n [47]
  rw [← slashes_succ'] at hback
  rw [dirname, hlast]
  simp only [hback, if_true]
  by_cases hn : n = 1
  · subst hn
    rfl
  · rw [if_neg hn]
    rfl

/-! ### Routes -/

theorem names_append_slash (a b : Chars) : names (a ++ 47 :: b) = names a ++ names b := by
  unfold names
  rw [List.splitOn_append_cons_self, List.filter_append]

theorem names_nil : names [] = [] := rfl

theorem names_of_isName {p : Chars} (hp : IsName p) : names p = [p] := by
  unfold names
  rw [List.splitOn_eq_singleton hp.plain]
  simp [hp.ne_nil]

/-- Slashes at the end show no name. -/
theorem names_append_slashes (a : Chars) (n : ℕ) : names (a ++ slashes n) = names a := by
  induction n generalizing a with
  | zero => rw [slashes_zero, List.append_nil]
  | succ n ih =>
      rw [slashes_succ, names_append_slash, ← List.nil_append (slashes n), ih, names_nil,
        List.append_nil]

theorem names_slashes (n : ℕ) : names (slashes n) = [] := names_append_slashes [] n

theorem names_name {p : Chars} (hp : IsName p) (n : ℕ) : names (p ++ slashes n) = [p] := by
  rw [names_append_slashes, names_of_isName hp]

theorem names_join {p : Chars} (hp : IsName p) (r : Chars) (n : ℕ) :
    names (r ++ 47 :: (p ++ slashes n)) = names r ++ [p] := by
  rw [names_append_slash, names_name hp]

theorem route_slashes (n : ℕ) : route (slashes (n + 1)) = ⟨true, []⟩ := by
  rw [route, names_slashes]
  rfl

/-- The directory of a path with a slash before its last name: the way to what stands before. -/
theorem route_dirname {p : Chars} (hp : IsName p) (r : Chars) (n : ℕ) :
    route (dirname (r ++ 47 :: (p ++ slashes n))) =
      ⟨(r ++ 47 :: (p ++ slashes n)).head? = some 47, names r⟩ := by
  obtain ⟨k, rfl | ⟨w, c, hc, rfl⟩⟩ := slashes_or_name r
  · rw [dirname_root hp, names_slashes]
    have hhead : (slashes k ++ 47 :: (p ++ slashes n)).head? = some 47 := by
      cases k with
      | zero => rfl
      | succ k => rfl
    rw [hhead]
    split_ifs
    · exact route_slashes 1
    · exact route_slashes 0
  · rw [dirname_join hp hc, route]
    have hnames : names (w ++ c :: slashes k) = names (w ++ [c]) := by
      rw [List.append_cons, names_append_slashes]
    have hhead : (w ++ [c]).head? = ((w ++ c :: slashes k) ++ 47 :: (p ++ slashes n)).head? := by
      cases w with
      | nil => rfl
      | cons d w => rfl
    rw [hnames, hhead]

/-- The directory of such a path is a part of it. -/
theorem dirname_split {p : Chars} (hp : IsName p) (r : Chars) (n : ℕ) :
    ∃ t, t ≠ [] ∧ dirname (r ++ 47 :: (p ++ slashes n)) ++ t = r ++ 47 :: (p ++ slashes n) := by
  obtain ⟨k, rfl | ⟨w, c, hc, rfl⟩⟩ := slashes_or_name r
  · rw [dirname_root hp]
    match k with
    | 0 => exact ⟨p ++ slashes n, by simp [hp.ne_nil], rfl⟩
    | 1 => exact ⟨p ++ slashes n, by simp [hp.ne_nil], rfl⟩
    | k + 2 => exact ⟨slashes (k + 1) ++ 47 :: (p ++ slashes n), by simp, rfl⟩
  · rw [dirname_join hp hc]
    exact ⟨slashes k ++ 47 :: (p ++ slashes n), by simp, by simp⟩

theorem dirname_ne_nil (path : Chars) : dirname path ≠ [] := by
  obtain rfl | ⟨n, rfl⟩ | ⟨p, n, hp, rfl⟩ | ⟨r, p, n, hp, rfl⟩ := path_cases path
  · simp [dirname_nil]
  · rw [dirname_slashes]
    split_ifs <;> simp [slashes]
  · simp [dirname_name hp]
  · obtain ⟨k, rfl | ⟨w, c, hc, rfl⟩⟩ := slashes_or_name r
    · rw [dirname_root hp]
      split_ifs <;> simp [slashes]
    · rw [dirname_join hp hc]
      simp

/-! ### Paths that end in a name -/

/-- The last name of the path is `p`, and nothing stands before it or a directory does. -/
inductive EndsIn : Chars → Chars → Prop
  | alone {p : Chars} (n : ℕ) : IsName p → EndsIn (p ++ slashes n) p
  | below {p : Chars} (r : Chars) (n : ℕ) : IsName p → EndsIn (r ++ 47 :: (p ++ slashes n)) p

theorem EndsIn.ne_nil {path p : Chars} (h : EndsIn path p) : path ≠ [] := by
  cases h with
  | alone n hp => simp [hp.ne_nil]
  | below r n hp => simp

theorem head_name {p : Chars} (hp : IsName p) (n : ℕ) : (p ++ slashes n).head? ≠ some 47 := by
  cases p with
  | nil => exact absurd rfl hp.ne_nil
  | cons c t =>
      intro h
      exact hp.plain (by simp [Option.some.inj h])

theorem path_ends (path : Chars) :
    path = [] ∨ (∃ n, path = slashes (n + 1)) ∨ ∃ p, EndsIn path p := by
  obtain rfl | ⟨n, rfl⟩ | ⟨p, n, hp, rfl⟩ | ⟨r, p, n, hp, rfl⟩ := path_cases path
  · exact .inl rfl
  · exact .inr (.inl ⟨n, rfl⟩)
  · exact .inr (.inr ⟨p, .alone n hp⟩)
  · exact .inr (.inr ⟨p, .below r n hp⟩)

/-- The names of the directory stand before the last one; where there are none the directory is the
current one. -/
theorem EndsIn.names_eq {path p : Chars} (h : EndsIn path p) :
    ∃ front, names path = front ++ [p] ∧ (route (dirname path) = ⟨(route path).absolute, front⟩ ∨
      (route path).absolute = false ∧ front = [] ∧ dirname path = [46]) := by
  cases h with
  | alone n hp =>
      refine ⟨[], names_name hp n, .inr ⟨?_, rfl, dirname_name hp n⟩⟩
      exact decide_eq_false (head_name hp n)
  | below r n hp => exact ⟨names r, names_join hp r n, .inl (route_dirname hp r n)⟩

/-- The directory is the current one or a beginning of the path. -/
theorem EndsIn.dirname_prefix {path p : Chars} (h : EndsIn path p) :
    dirname path = [46] ∨ dirname path <+: path := by
  cases h with
  | alone n hp => exact .inl (dirname_name hp n)
  | below r n hp =>
      obtain ⟨t, -, ht⟩ := dirname_split hp r n
      exact .inr ⟨t, ht⟩

/-- What holds of the empty path, of slashes and of `.`, and of a path that ends in a name when it
holds of its directory, holds of every path. -/
theorem dirname_induction {P : Chars → Prop} (nil : P []) (root : ∀ n, P (slashes (n + 1)))
    (dot : P [46]) (next : ∀ path p, EndsIn path p → P (dirname path) → P path) (path : Chars) :
    P path := by
  induction hlen : path.length using Nat.strong_induction_on generalizing path with
  | _ len ih =>
      obtain rfl | ⟨n, rfl⟩ | ⟨p, n, hp, rfl⟩ | ⟨r, p, n, hp, rfl⟩ := path_cases path
      · exact nil
      · exact root n
      · apply next _ p (.alone n hp)
        rw [dirname_name hp]
        exact dot
      · -- the directory is shorter than the path
        obtain ⟨t, ht, hpath⟩ := dirname_split hp r n
        have hsum := congrArg List.length hpath
        have hpos := List.length_pos_iff.mpr ht
        rw [List.length_append] at hsum
        exact next _ p (.below r n hp) (ih _ (by omega) _ rfl)

theorem isName_of_mem {path name : Chars} (h : name ∈ names path) : IsName name := by
  induction path using dirname_induction with
  | nil => exact absurd h List.not_mem_nil
  | root n =>
      rw [names_slashes] at h
      exact absurd h List.not_mem_nil
  | dot =>
      rw [names_of_isName ⟨by decide, by decide⟩, List.mem_singleton] at h
      rw [h]
      exact ⟨by decide, by decide⟩
  | next path p hend ih =>
      obtain ⟨front, hnames, hfront⟩ := hend.names_eq
      have hp : IsName p := by
        cases hend with
        | alone n hp => exact hp
        | below r n hp => exact hp
      rw [hnames, List.mem_append, List.mem_singleton] at h
      cases h with
      | inr heq =>
          rw [heq]
          exact hp
      | inl hin =>
          apply ih
          cases hfront with
          | inl hroute =>
              have hdir : names (dirname path) = front := congrArg Route.names hroute
              rw [hdir]
              exact hin
          | inr halone =>
              obtain ⟨-, rfl, -⟩ := halone
              exact absurd hin List.not_mem_nil

instance (p : Chars) : Decidable (IsName p) :=
  decidable_of_iff (p ≠ [] ∧ 47 ∉ p) ⟨fun h => ⟨h.1, h.2⟩, fun h => ⟨h.1, h.2⟩⟩

/-- The name of an entry: not that of a directory itself or of the one above. -/
def Proper (name : Chars) : Prop := IsName name ∧ name ≠ [46] ∧ name ≠ [46, 46]

instance (name : Chars) : Decidable (Proper name) := inferInstanceAs (Decidable (_ ∧ _ ∧ _))

end PathName
