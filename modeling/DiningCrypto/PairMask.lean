import Mathlib.Algebra.BigOperators.Group.Finset.Sigma
import Mathlib.Algebra.BigOperators.Ring.Finset
import Mathlib.Algebra.Group.AddChar
import Mathlib.Data.Fintype.BigOperators
import Mathlib.Tactic.Abel

/-!
# Pairwise masking on the complete graph

Every unordered pair of parties shares one element of an abelian group; the lower party of
the pair adds it, the upper one subtracts it, and a party's **mask** is the sum of its
shares. Three facts about masks, over any finite linear order of parties and any abelian
group:

* `sum_mask` — the masks cancel: their total is zero.
* `exists_rekey` — any change `δ` of the masks that has total zero and leaves a set `C` of
  parties alone is achieved by a *bijection* of the keyings that does not touch a pair
  meeting `C`. The change travels along a star around one party outside `C`.
* `sum_addChar_mask` — under an additive character, summing a mask over independent draws
  for the pairs factors into one sum per pair.
-/

namespace PairMask

variable {ι G : Type*} [LinearOrder ι] [AddCommGroup G]

/-- An unordered pair of parties, written with the lower one first. -/
abbrev Edge (ι : Type*) [LinearOrder ι] : Type _ := {p : ι × ι // p.1 < p.2}

namespace Edge

/-- The lower end. -/
abbrev lo (p : Edge ι) : ι := p.1.1

/-- The upper end. -/
abbrev hi (p : Edge ι) : ι := p.1.2

/-- The pair has an end in `C`. -/
def Touches (p : Edge ι) (C : Set ι) : Prop := p.lo ∈ C ∨ p.hi ∈ C

end Edge

/-- What party `i` contributes on the pair `p`: the key at the lower end, its negative at
the upper end, nothing elsewhere. -/
def share (K : Edge ι → G) (i : ι) (p : Edge ι) : G :=
  if p.lo = i then K p else if p.hi = i then -K p else 0

/-- The sum of all shares of party `i`. -/
def mask [Fintype ι] (K : Edge ι → G) (i : ι) : G := ∑ p, share K i p

theorem share_lo (K : Edge ι → G) (p : Edge ι) : share K p.lo p = K p := if_pos rfl

theorem share_hi (K : Edge ι → G) (p : Edge ι) : share K p.hi p = -K p := by
  rw [share, if_neg (ne_of_lt p.2), if_pos rfl]

theorem share_of_ne (K : Edge ι → G) {i : ι} {p : Edge ι} (hlo : p.lo ≠ i) (hhi : p.hi ≠ i) :
    share K i p = 0 := by
  rw [share, if_neg hlo, if_neg hhi]

@[simp] theorem share_add (K D : Edge ι → G) (i : ι) (p : Edge ι) :
    share (K + D) i p = share K i p + share D i p := by
  unfold share
  split_ifs with hlo hhi
  · rfl
  · simp only [Pi.add_apply]
    abel
  · simp

theorem share_eq_sub (K : Edge ι → G) (i : ι) (p : Edge ι) :
    share K i p = (if p.lo = i then K p else 0) - (if p.hi = i then K p else 0) := by
  by_cases hlo : p.lo = i
  · have hhi : p.hi ≠ i := fun h => ne_of_lt p.2 (hlo.trans h.symm)
    rw [share, if_pos hlo, if_pos hlo, if_neg hhi, sub_zero]
  · by_cases hhi : p.hi = i
    · rw [share, if_neg hlo, if_pos hhi, if_neg hlo, if_pos hhi, zero_sub]
    · rw [share_of_ne K hlo hhi, if_neg hlo, if_neg hhi, sub_zero]

variable [Fintype ι]

/-- On every pair the two shares cancel. -/
theorem sum_share (K : Edge ι → G) (p : Edge ι) : ∑ i, share K i p = 0 := by
  have hne : p.lo ≠ p.hi := ne_of_lt p.2
  calc ∑ i, share K i p
      = ∑ i ∈ {p.lo, p.hi}, share K i p := by
        refine (Finset.sum_subset (Finset.subset_univ _) fun i _ hi => ?_).symm
        simp only [Finset.mem_insert, Finset.mem_singleton, not_or] at hi
        exact share_of_ne K (Ne.symm hi.1) (Ne.symm hi.2)
    _ = K p + -K p := by rw [Finset.sum_pair hne, share_lo, share_hi]
    _ = 0 := add_neg_cancel _

/-- **The masks cancel.** -/
theorem sum_mask (K : Edge ι → G) : ∑ i, mask K i = 0 := by
  unfold mask
  rw [Finset.sum_comm]
  exact Finset.sum_eq_zero fun p _ => sum_share K p

@[simp] theorem mask_add (K D : Edge ι → G) (i : ι) : mask (K + D) i = mask K i + mask D i := by
  simp only [mask, share_add, Finset.sum_add_distrib]

/-- The pairs with one end, `near`, at `i`, listed by their other ends. -/
theorem sum_edges_at (near far : Edge ι → ι) {i : ι} {r : ι → Prop} [DecidablePred r]
    (edge : ∀ j, r j → Edge ι) (hedge : ∀ j h, near (edge j h) = i ∧ far (edge j h) = j)
    (hnear : ∀ p, near p = i → ∃ h : r (far p), edge (far p) h = p) (f : Edge ι → G) :
    ∑ p, (if near p = i then f p else 0) = ∑ j, if h : r j then f (edge j h) else 0 := by
  rw [← Finset.sum_fiberwise Finset.univ far]
  refine Finset.sum_congr rfl fun j _ => ?_
  rw [Finset.sum_filter]
  by_cases h : r j
  · -- of the pairs that end in `j`, one ends in `i`
    obtain ⟨hi, hj⟩ := hedge j h
    rw [dif_pos h, Finset.sum_eq_single (edge j h), if_pos hj, if_pos hi]
    · intro p _ hne
      by_cases hfar : far p = j
      · have hother : near p ≠ i := by
          intro hp
          obtain ⟨_, hedge⟩ := hnear p hp
          subst hfar
          exact hne hedge.symm
        rw [if_pos hfar, if_neg hother]
      · rw [if_neg hfar]
    · exact fun hp => absurd (Finset.mem_univ _) hp
  · rw [dif_neg h]
    refine Finset.sum_eq_zero fun p _ => ?_
    by_cases hfar : far p = j
    · have hother : near p ≠ i := by
        intro hp
        obtain ⟨hr, -⟩ := hnear p hp
        exact h (hfar ▸ hr)
      rw [if_pos hfar, if_neg hother]
    · rw [if_neg hfar]

/-- The pairs with lower end `i`. -/
theorem sum_edges_lo (f : Edge ι → G) (i : ι) :
    ∑ p : Edge ι, (if p.lo = i then f p else 0) =
      ∑ j, if h : i < j then f ⟨(i, j), h⟩ else 0 := by
  refine sum_edges_at Edge.lo Edge.hi (fun j h => ⟨(i, j), h⟩) (fun _ _ => ⟨rfl, rfl⟩) ?_ f
  rintro ⟨⟨_, _⟩, hlt⟩ rfl
  exact ⟨hlt, rfl⟩

/-- The pairs with upper end `i`. -/
theorem sum_edges_hi (f : Edge ι → G) (i : ι) :
    ∑ p : Edge ι, (if p.hi = i then f p else 0) =
      ∑ j, if h : j < i then f ⟨(j, i), h⟩ else 0 := by
  refine sum_edges_at Edge.hi Edge.lo (fun j h => ⟨(j, i), h⟩) (fun _ _ => ⟨rfl, rfl⟩) ?_ f
  rintro ⟨⟨_, _⟩, hlt⟩ rfl
  exact ⟨hlt, rfl⟩

/-- A mask, summed over the other parties instead of over the pairs. -/
theorem mask_eq_sum (K : Edge ι → G) (i : ι) :
    mask K i = (∑ j, if h : i < j then K ⟨(i, j), h⟩ else 0) -
      ∑ j, if h : j < i then K ⟨(j, i), h⟩ else 0 := by
  simp only [mask, share_eq_sub, Finset.sum_sub_distrib, sum_edges_lo, sum_edges_hi]

/-! ## Re-keying along a star -/

/-- The keying that moves `δ j` from the party `root` to every other party `j`. -/
def star (root : ι) (δ : ι → G) (p : Edge ι) : G :=
  if p.lo = root then -δ p.hi else if p.hi = root then δ p.lo else 0

/-- Away from its centre the star's mask is `δ`: only the pair with the centre carries a
key. -/
theorem mask_star_of_ne {root i : ι} (δ : ι → G) (hi : i ≠ root) :
    mask (star root δ) i = δ i := by
  rw [mask_eq_sum, ← Finset.sum_sub_distrib, Finset.sum_eq_single root]
  · rcases lt_or_gt_of_ne hi with hlt | hgt
    · rw [dif_pos hlt, dif_neg (lt_asymm hlt), star, if_neg hi, if_pos rfl, sub_zero]
    · rw [dif_neg (lt_asymm hgt), dif_pos hgt, star, if_pos rfl, sub_neg_eq_add, zero_add]
  · intro j _ hj
    have hlo : ∀ h : i < j, star root δ ⟨(i, j), h⟩ = 0 := by
      intro h
      rw [star, if_neg hi, if_neg hj]
    have hhi : ∀ h : j < i, star root δ ⟨(j, i), h⟩ = 0 := by
      intro h
      rw [star, if_neg hj, if_neg hi]
    simp only [hlo, hhi, dite_eq_ite, ite_self, sub_zero]
  · exact fun h => absurd (Finset.mem_univ _) h

/-- When `δ` has total zero the centre's mask is `δ` as well, because the masks cancel. -/
theorem mask_star {root : ι} {δ : ι → G} (hδ : ∑ i, δ i = 0) (i : ι) :
    mask (star root δ) i = δ i := by
  by_cases hi : i = root
  · subst hi
    have hmask := sum_mask (star i δ)
    rw [← Finset.add_sum_erase _ _ (Finset.mem_univ i)] at hδ hmask
    have hrest : ∑ j ∈ Finset.univ.erase i, mask (star i δ) j =
        ∑ j ∈ Finset.univ.erase i, δ j :=
      Finset.sum_congr rfl fun j hj => mask_star_of_ne δ (Finset.ne_of_mem_erase hj)
    rw [hrest] at hmask
    exact add_right_cancel (hmask.trans hδ.symm)
  · exact mask_star_of_ne δ hi

omit [Fintype ι] in
/-- A star around a party outside `C` does not touch `C` where `δ` vanishes on `C`. -/
theorem star_of_touches {C : Set ι} {root : ι} {δ : ι → G} (hroot : root ∉ C)
    (hC : ∀ i ∈ C, δ i = 0) {p : Edge ι} (hp : p.Touches C) : star root δ p = 0 := by
  unfold star
  split_ifs with hlo hhi
  · rcases hp with h | h
    · exact absurd (hlo ▸ h) hroot
    · rw [hC _ h, neg_zero]
  · rcases hp with h | h
    · exact hC _ h
    · exact absurd (hhi ▸ h) hroot
  · rfl

/-- **Re-keying.** A change of the masks with total zero that leaves `C` alone is achieved
by a bijection of the keyings that fixes every key held in `C`. -/
theorem exists_rekey {C : Set ι} {δ : ι → G} (hC : ∀ i ∈ C, δ i = 0) (hδ : ∑ i, δ i = 0) :
    ∃ φ : Equiv.Perm (Edge ι → G), (∀ K p, p.Touches C → φ K p = K p) ∧
      ∀ K i, mask (φ K) i = mask K i + δ i := by
  by_cases hr : ∃ root, root ∉ C
  · obtain ⟨root, hroot⟩ := hr
    refine ⟨Equiv.addRight (star root δ), fun K p hp => ?_, fun K i => ?_⟩
    · change K p + star root δ p = K p
      rw [star_of_touches hroot hC hp, add_zero]
    · change mask (K + star root δ) i = mask K i + δ i
      rw [mask_add, mask_star hδ]
  · -- everybody is in `C`, so there is nothing to change
    refine ⟨Equiv.refl _, fun K p _ => rfl, fun K i => ?_⟩
    have hi : i ∈ C := by
      by_contra hi
      exact hr ⟨i, hi⟩
    rw [hC i hi, add_zero, Equiv.refl_apply]

/-- Where one party outside `C` may have any mask, the change of the others can be arbitrary. -/
theorem exists_rekey_of_free {C T : Set ι} {δ : ι → G} (hC : ∀ i ∈ C, δ i = 0)
    (hδ : (∃ i, i ∉ C ∧ i ∉ T) ∨ ∑ i, δ i = 0) :
    ∃ φ : Equiv.Perm (Edge ι → G), (∀ K p, p.Touches C → φ K p = K p) ∧
      ∀ K, ∀ i ∈ T, mask (φ K) i = mask K i + δ i := by
  rcases hδ with ⟨root, hroot, hfree⟩ | hδ
  · refine ⟨Equiv.addRight (star root δ), fun K p hp => ?_, fun K i hi => ?_⟩
    · change K p + star root δ p = K p
      rw [star_of_touches hroot hC hp, add_zero]
    · have hne : i ≠ root := fun h => hfree (h ▸ hi)
      change mask (K + star root δ) i = mask K i + δ i
      rw [mask_add, mask_star_of_ne δ hne]
  · obtain ⟨φ, hfix, hmask⟩ := exists_rekey hC hδ
    exact ⟨φ, hfix, fun K i _ => hmask K i⟩

/-! ## Independent draws for the pairs -/

section Draws

variable {R D : Type*} [CommRing R] [Fintype D]

theorem addChar_sum {κ : Type*} (χ : AddChar G R) (s : Finset κ) (f : κ → G) :
    χ (∑ k ∈ s, f k) = ∏ k ∈ s, χ (f k) := by
  induction s using Finset.cons_induction with
  | empty => rw [Finset.sum_empty, Finset.prod_empty, AddChar.map_zero_eq_one]
  | cons a s ha ih => rw [Finset.sum_cons, Finset.prod_cons, AddChar.map_add_eq_mul, ih]

/-- Summed over independent draws, one for each pair, the character of a mask is a product
with one factor for each pair. -/
theorem sum_addChar_mask [DecidableEq D] (χ : AddChar G R) (g : D → G) (i : ι) :
    ∑ d : Edge ι → D, χ (mask (fun p => g (d p)) i) =
      ∏ p : Edge ι, ∑ x : D, χ (share (fun _ => g x) i p) := by
  rw [Fintype.prod_sum]
  refine Finset.sum_congr rfl fun d _ => ?_
  rw [mask, addChar_sum]
  rfl

end Draws

end PairMask
