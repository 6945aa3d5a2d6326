import Nica.FileRemoval
import Nica.Fuel

/-! # Walking a tree of files

`nftw` of the C library with the flags `FTW_DEPTH | FTW_PHYS`: a directory is reported after what is
in it, and the walk ends at the first report that does not return 0.  Which directories cannot be
opened for want of permission is a parameter (`FTW_DNR`); other failures of `opendir`, and a process
that changes the tree meanwhile, are left out. -/

namespace FileSystem

open PathName Fueled

inductive TypeFlag where
  | f
  | d
  | dnr
  | dp
  | ns
  | sl
  | sln
deriving DecidableEq

/-- The path without the slashes at its end; of a path of slashes one is left. -/
def stripSlashes (path : Chars) : Chars := path.take (max 1 (runBack path path.length))

def join (path name : Chars) : Chars :=
  if path.getLast? = some 47 then path ++ name else path ++ 47 :: name

section walk
variable {ε : Type} (timeout : ε) (ls : DirListing) (unreadable : Place → Bool)
  (fn : Chars → TypeFlag → FileTree → ℤ × FileTree)

/-- The entries of a directory, one after the other. -/
def eachEntry (visit : Chars → FileTree → Except ε (ℤ × FileTree)) (path : Chars) :
    List Chars → FileTree → Except ε (ℤ × FileTree)
  | [], t => .ok (0, t)
  | name :: rest, t => do
      let (r, t) ← visit (join path name) t
      if r = 0 then eachEntry visit path rest t else .ok (r, t)

/-- An entry, and before it what is below it. -/
def visit : ℕ → Chars → FileTree → Except ε (ℤ × FileTree)
  | 0, _, _ => .error timeout
  | fuel + 1, path, t =>
      match t.lstat path with
      | .error .enoent => .ok (fn path .ns t)
      | .error _ => .ok (-1, t)
      | .ok (.file _) => .ok (fn path .f t)
      | .ok .directory =>
          match t.resolve path with
          | .error _ => .ok (-1, t)
          | .ok place =>
              if unreadable place then .ok (fn path .dnr t)
              else do
                let (r, t) ← eachEntry (visit fuel) path (ls.list t place) t
                if r = 0 then .ok (fn path .dp t) else .ok (r, t)

/-- `nftw(path, fn, nopenfd, FTW_DEPTH | FTW_PHYS)`. -/
def nftw (fuel : ℕ) (path : Chars) (t : FileTree) : Except ε (ℤ × FileTree) :=
  if path = [] then .ok (-1, t)
  else
    match t.lstat (stripSlashes path) with
    | .error _ => .ok (-1, t)
    | .ok _ => visit timeout ls unreadable fn fuel (stripSlashes path) t

theorem eachEntry_below {visit visit' : Chars → FileTree → Except ε (ℤ × FileTree)}
    (h : ∀ path t, Below (visit path t) (visit' path t)) (path : Chars) (names : List Chars)
    (t : FileTree) : Below (eachEntry visit path names t) (eachEntry visit' path names t) := by
  induction names generalizing t with
  | nil => exact .refl _
  | cons name names ih =>
      apply (h (join path name) t).bind
      rintro ⟨r, t'⟩
      change Below (if r = 0 then _ else _) (if r = 0 then _ else _)
      split_ifs
      · exact ih t'
      · exact .refl _

/-- A walk that ends is not changed by more fuel. -/
theorem visit_steady (path : Chars) (t : FileTree) :
    Steady fun fuel => visit timeout ls unreadable fn fuel path t := by
  intro fuel
  induction fuel generalizing path t with
  | zero => exact .error _ _
  | succ fuel ih =>
      change Below (visit timeout ls unreadable fn (fuel + 1) path t)
        (visit timeout ls unreadable fn (fuel + 2) path t)
      rw [visit, visit]
      split
      · exact .refl _
      · exact .refl _
      · exact .refl _
      · split
        · exact .refl _
        · split_ifs
          · exact .refl _
          · exact (eachEntry_below ih path _ t).bind fun _ => .refl _

end walk

/-! ### Paths of entries -/

theorem stripSlashes_name {p : Chars} (hp : IsName p) (n : ℕ) : stripSlashes (p ++ slashes n) = p := by
  obtain ⟨w, c, hc, rfl⟩ := hp.concat
  have hback := runBack_name hc w n []
  rw [List.append_nil] at hback
  rw [stripSlashes, List.append_assoc, List.singleton_append, hback, max_eq_right (by omega)]
  rw [← List.singleton_append, ← List.append_assoc]
  apply List.take_left'
  simp

theorem stripSlashes_join {p : Chars} (hp : IsName p) (r : Chars) (n : ℕ) :
    stripSlashes (r ++ 47 :: (p ++ slashes n)) = r ++ 47 :: p := by
  obtain ⟨w, c, hc, rfl⟩ := hp.concat
  have hpath : r ++ 47 :: ((w ++ [c]) ++ slashes n) = (r ++ 47 :: w) ++ c :: slashes n := by simp
  have hback := runBack_name hc (r ++ 47 :: w) n []
  rw [List.append_nil] at hback
  rw [stripSlashes, hpath, hback, max_eq_right (by omega)]
  rw [← List.singleton_append (l := slashes n), ← List.append_assoc]
  rw [List.take_left' (by simp only [List.length_append, List.length_cons, List.length_nil])]
  simp

theorem getLast?_name {p : Chars} (hp : IsName p) (r : Chars) : (r ++ p).getLast? ≠ some 47 := by
  obtain ⟨w, c, hc, rfl⟩ := hp.concat
  rw [← List.append_assoc, List.getLast?_concat]
  intro h
  exact hc (Option.some.inj h)

/-- A path that ends in a name, without the slashes behind it. -/
theorem stripSlashes_endsIn {path p : Chars} (h : EndsIn path p) :
    (stripSlashes path).getLast? ≠ some 47 ∧ names (stripSlashes path) = names path ∧
      (route (stripSlashes path)).absolute = (route path).absolute := by
  cases h with
  | alone n hp =>
      rw [stripSlashes_name hp, names_name hp]
      refine ⟨?_, names_of_isName hp, ?_⟩
      · have hlast := getLast?_name hp []
        rwa [List.nil_append] at hlast
      · have hhead := head_name hp 0
        rw [slashes_zero, List.append_nil] at hhead
        rw [route, route, decide_eq_false hhead, decide_eq_false (head_name hp n)]
  | below r n hp =>
      rw [stripSlashes_join hp, names_join hp]
      refine ⟨?_, ?_, ?_⟩
      · have hlast := getLast?_name hp (r ++ [47])
        rwa [List.append_assoc, List.singleton_append] at hlast
      · have hnames := names_join hp r 0
        rwa [slashes_zero, List.append_nil] at hnames
      · cases r with
        | nil => rfl
        | cons c r => rfl

theorem names_joined {path name : Chars} (hlast : path.getLast? ≠ some 47) (hn : IsName name) :
    names (join path name) = names path ++ [name] := by
  rw [join, if_neg hlast]
  have hnames := names_join hn path 0
  rwa [slashes_zero, List.append_nil] at hnames

theorem absolute_joined {path name : Chars} (hne : path ≠ []) (hlast : path.getLast? ≠ some 47) :
    (route (join path name)).absolute = (route path).absolute := by
  rw [join, if_neg hlast]
  cases path with
  | nil => exact absurd rfl hne
  | cons c path => rfl

namespace FileTree
variable {t : FileTree} {path : Chars} {place : Place}

theorem start_absolute (t : FileTree) {r r' : Route} (h : r.absolute = r'.absolute) :
    t.start r = t.start r' := by
  unfold start
  rw [h]

/-- An entry of a directory that the path leads to. -/
theorem Leads.child (h : t.Leads path place) (hdir : t.entry place = some .directory) {name : Chars}
    (hn : IsName name) (hdot : name ≠ [46]) (hdots : name ≠ [46, 46]) :
    t.Leads (join path name) (name :: place) := by
  obtain ⟨front, p, hnames, hway, hplace⟩ := h.last
  have habs : (route (join path name)).absolute = (route path).absolute :=
    absolute_joined h.ne_nil h.plain
  have hstart := t.start_absolute habs
  refine ⟨?_, names path, name, names_joined h.plain hn, ?_, ?_⟩
  · rw [join, if_neg h.plain]
    have hlast := getLast?_name hn (path ++ [47])
    rwa [List.append_assoc, List.singleton_append] at hlast
  · rw [hstart, hnames, way_concat, ← hplace]
    intro q hq
    rw [List.mem_append, List.mem_singleton] at hq
    cases hq with
    | inl hq =>
        obtain ⟨hd, hout⟩ := hway q hq
        exact ⟨hd, fun hin => hout ((List.suffix_cons name place).trans hin)⟩
    | inr hq =>
        rw [hq]
        refine ⟨hdir, fun hin => ?_⟩
        have hlen := hin.length_le
        rw [List.length_cons] at hlen
        omega
  · rw [hstart, hnames, List.foldl_concat, ← hplace, further, if_neg hdot, if_neg hdots]

/-! ### The path of a walk -/

/-- The place of the path is not on the way to it, and the working directory is not below. -/
structure Apart (t : FileTree) (path : Chars) : Prop where
  cwd : ¬ t.lexical path <:+ t.cwd
  way : ∀ q ∈ way (t.start (route path)) (names path).dropLast, ¬ t.lexical path <:+ q

theorem names_last {p : Chars} (h : EndsIn path p) : names path = (names path).dropLast ++ [p] := by
  obtain ⟨front, hnames, -⟩ := h.names_eq
  rw [hnames, List.dropLast_concat]

/-- The walk starts at the place of the path, if its directory is there. -/
theorem Apart.leads {p : Chars} (h : t.Apart path) (hend : EndsIn path p)
    (hdir : t.IsDirectory (dirname path)) : t.Leads (stripSlashes path) (t.lexical path) := by
  obtain ⟨dir, hdir⟩ := hdir
  rw [← t.walk_front hend] at hdir
  obtain ⟨hplain, hnames, habs⟩ := stripSlashes_endsIn hend
  refine ⟨hplain, (names path).dropLast, p, ?_, ?_, ?_⟩
  · rw [hnames]
    exact names_last hend
  · rw [t.start_absolute habs]
    intro q hq
    exact ⟨t.way_of_foldlM (t.start_directory _) hdir q hq, h.way q hq⟩
  · rw [t.start_absolute habs, lexical, names_last hend, List.foldl_concat, List.dropLast_concat]

/-- Else the path names nothing. -/
theorem lstat_stripSlashes_error {p : Chars} (hend : EndsIn path p)
    (hdir : ¬ t.IsDirectory (dirname path)) : ∃ e, t.lstat (stripSlashes path) = .error e := by
  obtain ⟨hplain, hnames, habs⟩ := stripSlashes_endsIn hend
  have hne : stripSlashes path ≠ [] := by
    intro hnil
    rw [hnil, names_nil, names_last hend] at hnames
    exact List.concat_ne_nil _ _ hnames.symm
  have hwalk : t.walk ⟨(route (stripSlashes path)).absolute, (names (stripSlashes path)).dropLast⟩ =
      t.resolve (dirname path) := by
    rw [hnames, habs, t.walk_front hend]
  cases hresolve : t.resolve (dirname path) with
  | ok place => exact absurd ⟨place, hresolve⟩ hdir
  | error e =>
      refine ⟨e, ?_⟩
      rw [lstat, locate, if_neg hne, hnames, names_last hend, List.getLast?_concat,
        ← names_last hend, ← hnames]
      simp only [hwalk, hresolve]
      rfl

end FileTree
end FileSystem
