import Mathlib.Algebra.BigOperators.Group.Finset.Piecewise
import Mathlib.Algebra.BigOperators.Group.List.Lemmas

/-!
# Masks on a multigraph

A list of edges, each with an element of an abelian group that one of its ends adds and the
other subtracts. Parallel edges may carry the same element, and an edge may be a loop. The
mask of a vertex is the sum of what it adds and subtracts over all edges; the masks of all
vertices cancel (`sum_mask`).
-/

namespace EdgeMasks

/-- An edge with the element shared along it. -/
structure Edge (ι G : Type*) where
  value : G
  adder : ι
  subtracter : ι

variable {ι G : Type*} [DecidableEq ι] [AddCommGroup G]

/-- What vertex `i` contributes on the edge. -/
def share (i : ι) (e : Edge ι G) : G :=
  (if e.adder = i then e.value else 0) - if e.subtracter = i then e.value else 0

/-- What vertex `i` contributes on all edges. -/
def mask (es : List (Edge ι G)) (i : ι) : G := (es.map (share i)).sum

variable [Fintype ι]

/-- Along an edge the two shares cancel. -/
theorem sum_share (e : Edge ι G) : ∑ i, share i e = 0 := by
  unfold share
  rw [Finset.sum_sub_distrib, Finset.sum_ite_eq, Finset.sum_ite_eq, if_pos (Finset.mem_univ _),
    if_pos (Finset.mem_univ _), sub_self]

/-- **The masks cancel**, on any multigraph. -/
theorem sum_mask (es : List (Edge ι G)) : ∑ i, mask es i = 0 := by
  induction es with
  | nil => exact Finset.sum_eq_zero fun _ _ => rfl
  | cons e es ih =>
    have hcons : ∀ i, mask (e :: es) i = share i e + mask es i := fun _ => rfl
    simp only [hcons]
    rw [Finset.sum_add_distrib, sum_share, ih, add_zero]

end EdgeMasks
