import Mathlib.Data.List.Nodup
import Mathlib.Tactic.Common

/-! # Sweeping over places that may be emptied

A traversal of a fixed list of places, in order, while places may be emptied (but never filled)
by others.  `view₀` is what the places showed at the start and `view` what they show now; the
traversal has `rest` still before it and has reported the places `seen`.  Each report keeps the
invariant (`Sweep.report`), so does emptying places (`Sweep.shrink`), and a traversal that has
nothing to report any more has reported every place that still shows something (`Sweep.finish`). -/

namespace Sweeps

variable {A P : Type}

structure Sweep (view₀ view : A → Option P) (all rest seen : List A) : Prop where
  shown : ∀ a ∈ all, ∀ p, view a = some p → view₀ a = some p
  past : ∃ past, all = past ++ rest ∧ seen.Sublist past ∧ ∀ a ∈ past, view a ≠ none → a ∈ seen

namespace Sweep

variable {view₀ view view' : A → Option P} {all rest seen us vs : List A} {a : A}

theorem start (view : A → Option P) (all : List A) : Sweep view view all all [] where
  shown _ _ _ h := h
  past := ⟨[], rfl, List.Sublist.refl _, by simp⟩

theorem seen_sublist (S : Sweep view₀ view all rest seen) : seen.Sublist all := by
  obtain ⟨past, rfl, hs, -⟩ := S.past
  exact hs.trans (List.sublist_append_left _ _)

theorem rest_sublist (S : Sweep view₀ view all rest seen) : rest.Sublist all := by
  obtain ⟨past, rfl, -, -⟩ := S.past
  exact List.sublist_append_right _ _

/-- The next place that is not empty is reported. -/
theorem report (S : Sweep view₀ view all rest seen) (hr : rest = us ++ a :: vs)
    (hu : ∀ u ∈ us, view u = none) : Sweep view₀ view all vs (seen ++ [a]) where
  shown := S.shown
  past := by
    obtain ⟨past, hall, hs, hp⟩ := S.past
    refine ⟨past ++ (us ++ [a]), by rw [hall, hr]; simp, ?_, fun b hb hv => ?_⟩
    · exact hs.append (List.sublist_append_right _ _)
    · simp only [List.mem_append, List.mem_singleton] at hb ⊢
      rcases hb with hb | hb | rfl
      · exact .inl (hp b hb hv)
      · exact absurd (hu b hb) hv
      · exact .inr rfl

/-- Nothing is left to report. -/
theorem stop (S : Sweep view₀ view all rest seen) (hu : ∀ u ∈ rest, view u = none) :
    Sweep view₀ view all [] seen where
  shown := S.shown
  past := by
    obtain ⟨past, hall, -, hp⟩ := S.past
    refine ⟨all, by simp, S.seen_sublist, fun b hb hv => ?_⟩
    rcases List.mem_append.mp (hall ▸ hb) with hb | hb
    · exact hp b hb hv
    · exact absurd (hu b hb) hv

/-- Others empty places. -/
theorem shrink (S : Sweep view₀ view all rest seen)
    (hv : ∀ b, ∀ p, view' b = some p → view b = some p) : Sweep view₀ view' all rest seen where
  shown b hb p h := S.shown b hb p (hv b p h)
  past := S.past.imp fun _ h => ⟨h.1, h.2.1, fun b hb hb' => by
    obtain ⟨p, hp⟩ := Option.ne_none_iff_exists'.mp hb'
    exact h.2.2 b hb (by rw [hv b p hp]; simp)⟩

/-- At the end every place that still shows something has been reported. -/
theorem finish (S : Sweep view₀ view all [] seen) (ha : a ∈ all) (hp : view a ≠ none) :
    a ∈ seen := by
  obtain ⟨past, hall, -, h⟩ := S.past
  rw [List.append_nil] at hall
  exact h a (hall ▸ ha) hp

end Sweep
end Sweeps
