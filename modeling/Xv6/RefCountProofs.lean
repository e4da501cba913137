import Mathlib.Algebra.BigOperators.Group.Finset.Piecewise

/-!
# Counting pointers

A table maps finitely many places to objects, or to nothing. `refs t g` is how many places of
the table `t` point to the object `g`. One place of a table changes at a time, and the count
of every object follows: one up for what the place points to now, one down for what it pointed
to before.
-/

namespace RefCount

open Function Finset

variable {ι κ : Type} [Fintype ι] [DecidableEq ι] [DecidableEq κ]

/-- How many places of `t` point to `g`. -/
def refs (t : ι → Option κ) (g : κ) : Nat := ∑ i, if t i = some g then 1 else 0

variable {t : ι → Option κ} {i : ι} {f g : κ}

/-- **One place changes.** -/
theorem refs_update (b : Option κ) : refs (update t i b) g + (if t i = some g then 1 else 0)
      = refs t g + (if b = some g then 1 else 0) := by
  have hfun : (fun j => if update t i b j = some g then 1 else 0)
      = update (fun j => if t j = some g then 1 else 0) i (if b = some g then 1 else 0) := by
    funext j
    by_cases hj : j = i
    · rw [hj, update_self, update_self]
    · rw [update_of_ne hj, update_of_ne hj]
  have hsplit : (if t i = some g then 1 else 0)
      + ∑ j ∈ univ.erase i, (if t j = some g then 1 else 0) = refs t g :=
    add_sum_erase univ (fun j => if t j = some g then 1 else 0) (mem_univ i)
  rw [refs, hfun, sum_update_of_mem (mem_univ i), sdiff_singleton_eq_erase]
  omega

/-- A free place is set. -/
theorem refs_set (h : t i = none) : refs (update t i (some f)) g = refs t g + (if f = g then 1 else 0) := by
  have hup := refs_update (t := t) (i := i) (g := g) (some f)
  rw [h, if_neg nofun] at hup
  simpa only [Option.some.injEq, add_zero] using hup

/-- A place is cleared. -/
theorem refs_clear (h : t i = some f) : refs (update t i none) g + (if f = g then 1 else 0) = refs t g := by
  have hup := refs_update (t := t) (i := i) (g := g) none
  rw [h, if_neg (c := none = some g) nofun] at hup
  simpa only [Option.some.injEq, add_zero] using hup

omit [DecidableEq ι] in
theorem refs_eq_zero : refs t g = 0 ↔ ∀ i, t i ≠ some g := by
  rw [refs, sum_eq_zero_iff]
  constructor
  · intro h i hi
    have := h i (mem_univ i)
    rw [if_pos hi] at this
    cases this
  · intro h i _
    exact if_neg (h i)

omit [DecidableEq ι] in
theorem refs_pos : 0 < refs t g ↔ ∃ i, t i = some g := by
  rw [Nat.pos_iff_ne_zero, ne_eq, refs_eq_zero]
  simp only [ne_eq, not_forall, not_not]

end RefCount
