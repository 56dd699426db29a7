import Mathlib.Algebra.Group.AddChar
import Mathlib.Algebra.Field.GeomSum
import Mathlib.Data.BitVec
import Mathlib.Data.FinEnum
import Mathlib.RingTheory.RootsOfUnity.Complex

/-!
# A character of the fixed-width integers

`wordChar w` is the additive character `a ↦ exp (2πi a / 2 ^ w)` of the `w`-bit integers. It
separates every element from zero (`wordChar_eq_one_iff`), and summed over the multiples
`b * s` of a fixed `s` by all sign-extended bytes `b` it does not vanish as long as `s` is
not killed by the number of bytes (`sum_wordChar_signExtend_ne_zero`): the sum is geometric.

`sum_comp_eq_of_card_fiber_eq` is the counting side: two functions with fibres of the same
sizes have the same sums under every weight. Together these refute that two distributions
are equal, by exhibiting a weight on which they differ.
-/

namespace WordChar

noncomputable section

/-- A primitive `2 ^ w`-th root of unity. -/
def root (w : ℕ) : ℂ := Complex.exp (2 * Real.pi * Complex.I / ((2 ^ w : ℕ) : ℂ))

theorem isPrimitiveRoot_root (w : ℕ) : IsPrimitiveRoot (root w) (2 ^ w) :=
  Complex.isPrimitiveRoot_exp (2 ^ w) (by positivity)

/-- The character `a ↦ root ^ a` of the `w`-bit integers. -/
def wordChar (w : ℕ) : AddChar (BitVec w) ℂ where
  toFun a := root w ^ a.toNat
  map_zero_eq_one' := pow_zero _
  map_add_eq_mul' a b := by
    rw [BitVec.toNat_add, ← pow_add]
    exact (pow_eq_pow_mod _ (isPrimitiveRoot_root w).pow_eq_one).symm

theorem wordChar_eq_one_iff {w : ℕ} (a : BitVec w) : wordChar w a = 1 ↔ a = 0 := by
  change root w ^ a.toNat = 1 ↔ a = 0
  rw [(isPrimitiveRoot_root w).pow_eq_one_iff_dvd]
  constructor
  · intro hdvd
    exact BitVec.eq_of_toNat_eq (Nat.eq_zero_of_dvd_of_lt hdvd a.isLt)
  · rintro rfl
    exact dvd_zero _

theorem wordChar_ne_zero {w : ℕ} (a : BitVec w) : wordChar w a ≠ 0 :=
  (AddChar.val_isUnit _ a).ne_zero

/-- The sign-extended words, listed from the least to the greatest. -/
theorem sum_signExtend {M : Type*} [AddCommMonoid M] (v w : ℕ) (f : BitVec w → M) :
    ∑ b : BitVec (v + 1), f (b.signExtend w) =
      ∑ k ∈ Finset.range (2 ^ (v + 1)), f (BitVec.ofInt w ((k : ℤ) - 2 ^ v)) := by
  have hpow : (2 : ℤ) ^ (v + 1) = 2 * 2 ^ v := pow_succ' 2 v
  have hcast : ((2 ^ (v + 1) : ℕ) : ℤ) = 2 * 2 ^ v := by push_cast; exact hpow
  have hlo : ∀ b : BitVec (v + 1), -2 ^ v ≤ b.toInt := fun b => BitVec.le_toInt b
  have hhi : ∀ b : BitVec (v + 1), b.toInt < 2 ^ v := fun b => BitVec.toInt_lt
  have hback : ∀ b : BitVec (v + 1), (((b.toInt + 2 ^ v).toNat : ℕ) : ℤ) - 2 ^ v = b.toInt := by
    intro b
    have := hlo b
    omega
  refine Finset.sum_nbij' (fun b => (b.toInt + 2 ^ v).toNat)
    (fun k => BitVec.ofInt (v + 1) ((k : ℤ) - 2 ^ v)) ?_ ?_ ?_ ?_ ?_
  · intro b _
    have := hlo b
    have := hhi b
    rw [Finset.mem_range]
    omega
  · exact fun _ _ => Finset.mem_univ _
  · intro b _
    rw [hback, BitVec.ofInt_toInt]
  · intro k hk
    rw [Finset.mem_range] at hk
    have hint : (BitVec.ofInt (v + 1) ((k : ℤ) - 2 ^ v)).toInt = (k : ℤ) - 2 ^ v := by
      apply BitVec.toInt_ofInt_eq_self (Nat.succ_pos v)
      · rw [Nat.succ_sub_one]
        omega
      · rw [Nat.succ_sub_one]
        omega
    rw [hint]
    omega
  · intro b _
    rw [hback]
    rfl

/-- The geometric sum of the character over the sign-extended multiples of `s`. -/
theorem sum_wordChar_signExtend_ne_zero {v w : ℕ} {s : BitVec w}
    (hs : (2 ^ (v + 1)) • s ≠ 0) :
    ∑ b : BitVec (v + 1), wordChar w (b.signExtend w * s) ≠ 0 := by
  have hterm : ∀ k : ℕ, wordChar w (BitVec.ofInt w ((k : ℤ) - 2 ^ v) * s) =
      wordChar w (BitVec.ofInt w (-2 ^ v) * s) * wordChar w s ^ k := by
    intro k
    rw [← AddChar.map_nsmul_eq_pow, ← AddChar.map_add_eq_mul, sub_eq_add_neg, add_comm,
      BitVec.ofInt_add, add_mul, BitVec.ofInt_natCast, ← BitVec.natCast_eq_ofNat,
      nsmul_eq_mul]
  rw [sum_signExtend v w fun a => wordChar w (a * s)]
  simp only [hterm]
  rw [← Finset.mul_sum]
  refine mul_ne_zero (wordChar_ne_zero _) fun hzero => hs ?_
  have hgeom := mul_geom_sum (wordChar w s) (2 ^ (v + 1))
  rw [hzero, mul_zero, eq_comm, sub_eq_zero, ← AddChar.map_nsmul_eq_pow] at hgeom
  exact (wordChar_eq_one_iff _).mp hgeom

end

/-- Functions whose fibres have the same sizes have the same sums under every weight. -/
theorem sum_comp_eq_of_card_fiber_eq {α β M : Type*} [Fintype α] [DecidableEq β]
    [AddCommMonoid M] {g g' : α → β}
    (h : ∀ v, (Finset.univ.filter fun a => g a = v).card =
      (Finset.univ.filter fun a => g' a = v).card) (f : β → M) :
    ∑ a, f (g a) = ∑ a, f (g' a) := by
  have himage : Finset.univ.image g = Finset.univ.image g' := by
    ext v
    have hmem : ∀ e : α → β, v ∈ Finset.univ.image e ↔
        0 < (Finset.univ.filter fun a => e a = v).card := by
      intro e
      rw [Finset.card_pos]
      simp [Finset.Nonempty]
    rw [hmem, hmem, h]
  rw [Finset.sum_comp f g, Finset.sum_comp f g', himage]
  exact Finset.sum_congr rfl fun v _ => by rw [h v]

end WordChar
