import Nica.FileWalk

/-! # Plain paths

A path is plain when no name in it is `.` or `..`; its names are then those of the place it leads
to (`lexical_plain`), and the way to that place stays outside it (`Apart.of_plain`).  A prefix of a
plain path leads to no place below the one that the path leads to (`lexical_of_begins`). -/

namespace PathName

open FileSystem

/-- No name of the path is that of a directory itself or of the one above. -/
def Plain (path : Chars) : Prop := ∀ name ∈ names path, name ≠ [46] ∧ name ≠ [46, 46]

/-- One more character takes no name away. -/
theorem length_names_concat (path : Chars) (c : UInt8) :
    (names path).length ≤ (names (path ++ [c])).length := by
  by_cases hc : c = 47
  · rw [hc, names_append_slash, List.length_append]
    omega
  have hsingle : IsName [c] := ⟨List.cons_ne_nil _ _, by simpa using Ne.symm hc⟩
  have hlonger : ∀ {p : Chars}, IsName p → IsName (p ++ [c]) := by
    intro p hp
    refine ⟨List.concat_ne_nil _ _, ?_⟩
    rw [List.mem_append, List.mem_singleton]
    exact fun h => h.elim hp.plain (Ne.symm hc)
  -- a slash before the character ends the name before it
  have hnext : ∀ (r : Chars) n,
      (names r).length ≤ (names ((r ++ slashes (n + 1)) ++ [c])).length := by
    intro r n
    rw [slashes_succ', ← List.append_assoc, List.append_assoc, List.singleton_append,
      names_append_slash, names_append_slashes, List.length_append]
    omega
  obtain rfl | ⟨n, rfl⟩ | ⟨p, n, hp, rfl⟩ | ⟨r, p, n, hp, rfl⟩ := path_cases path
  · exact Nat.zero_le _
  · rw [names_slashes]
    exact Nat.zero_le _
  · cases n with
    | zero =>
        rw [slashes_zero, List.append_nil, names_of_isName hp, names_of_isName (hlonger hp)]
        exact le_rfl
    | succ n =>
        rw [names_append_slashes]
        exact hnext p n
  · cases n with
    | zero =>
        rw [slashes_zero, List.append_nil, List.append_assoc, List.cons_append, names_append_slash,
          names_append_slash, names_of_isName hp, names_of_isName (hlonger hp), List.length_append,
          List.length_append]
        rfl
    | succ n =>
        rw [← List.cons_append, ← List.append_assoc, names_append_slashes]
        exact hnext (r ++ 47 :: p) n

theorem length_names_of_begins {q path : Chars} (h : q <+: path) :
    (names q).length ≤ (names path).length := by
  obtain ⟨rest, rfl⟩ := h
  induction rest using List.reverseRecOn with
  | nil => rw [List.append_nil]
  | append_singleton rest c ih =>
      rw [← List.append_assoc]
      exact ih.trans (length_names_concat _ c)

theorem absolute_of_begins {q path : Chars} (h : q <+: path) (hq : q ≠ []) :
    (route q).absolute = (route path).absolute := by
  obtain ⟨rest, rfl⟩ := h
  cases q with
  | nil => exact absurd rfl hq
  | cons c q => rfl

end PathName

namespace FileSystem

open PathName

theorem length_further (place : Place) (name : Chars) :
    (further place name).length ≤ place.length + 1 := by
  unfold further
  split_ifs
  · omega
  · rw [List.length_tail]
    omega
  · rfl

theorem length_foldl_further (names : List Chars) (place : Place) :
    (names.foldl further place).length ≤ place.length + names.length := by
  induction names generalizing place with
  | nil => exact le_rfl
  | cons name names ih =>
      have hfirst := length_further place name
      have hrest := ih (further place name)
      rw [List.foldl_cons, List.length_cons]
      omega

theorem foldl_further_plain {names : List Chars} (place : Place)
    (h : ∀ name ∈ names, name ≠ [46] ∧ name ≠ [46, 46]) :
    names.foldl further place = names.reverse ++ place := by
  induction names generalizing place with
  | nil => rfl
  | cons name names ih =>
      obtain ⟨⟨hdot, hdots⟩, hrest⟩ := List.forall_mem_cons.mp h
      rw [List.foldl_cons, ih _ hrest, further, if_neg hdot, if_neg hdots, List.reverse_cons,
        List.append_assoc]
      rfl

namespace FileTree
variable {t : FileTree} {path : Chars}

theorem length_way {place q : Place} {front : List Chars} (h : q ∈ way place front) :
    q.length ≤ place.length + front.length := by
  induction front generalizing place with
  | nil => rw [List.mem_singleton.mp h]; rfl
  | cons name front ih =>
      cases List.mem_cons.mp h with
      | inl heq =>
          rw [heq]
          omega
      | inr hin =>
          have hfirst := length_further place name
          have hrest := ih hin
          rw [List.length_cons]
          omega

theorem lexical_plain (h : Plain path) :
    t.lexical path = (names path).reverse ++ t.start (route path) := foldl_further_plain _ h

theorem length_lexical (h : Plain path) :
    (t.lexical path).length = (t.start (route path)).length + (names path).length := by
  rw [t.lexical_plain h, List.length_append, List.length_reverse]
  omega

/-- A plain path passes by no place below the one it leads to. -/
theorem Apart.of_plain {p : Chars} (hend : EndsIn path p) (hplain : Plain path)
    (hcwd : ¬ t.lexical path <:+ t.cwd) : t.Apart path where
  cwd := hcwd
  way q hq hin := by
    have hway := length_way hq
    have hlen := hin.length_le
    have hlast := congrArg List.length (names_last hend)
    rw [List.length_append, List.length_singleton] at hlast
    rw [t.length_lexical hplain] at hlen
    omega

/-- Nor does a prefix of it. -/
theorem lexical_of_begins (hplain : Plain path) {q : Chars} (hq : q <+: path) (hne : q ≠ [])
    (hin : t.lexical path <:+ t.lexical q) : t.lexical q = t.lexical path := by
  have hlen : (t.lexical q).length ≤ (t.lexical path).length := by
    have hnames := length_names_of_begins hq
    have hfold := length_foldl_further (names q) (t.start (route q))
    rw [t.start_absolute (absolute_of_begins hq hne)] at hfold
    rw [t.length_lexical hplain, lexical, t.start_absolute (absolute_of_begins hq hne)]
    omega
  exact (hin.eq_of_length_le hlen).symm

end FileTree
end FileSystem
