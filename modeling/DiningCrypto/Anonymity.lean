import DiningCrypto.Round
import DiningCrypto.WordChar

/-!
# Sender anonymity

What a coalition `C` of clients sees of a round is its own keysets and all `n` outputs.

For *uniform* keys the round is perfectly anonymous (`indistinguishable_of_sum_eq`): inputs
that agree on `C` and have the same total outside `C` are exchanged by a bijection of the key
assignments that fixes every key the coalition holds and every output. The bijection is the
re-keying of `PairMask` along a star around one honest client.

For the keys the program *draws* it is not. `RandomGenerator.generateInt` reads `b[1]` where
`b[2]` and `b[3]` were due, so a key is `b[0] + 2064639 * b[1]`: a sparse set that is not
stable under the shift by `c + 0xffff` anonymity needs. `not_senderAnonymous` shows that no
coalition, pair of senders and character escapes: some view always has different numbers of
draws behind it. The proof weighs the views with a character of the 32-bit integers.
-/

namespace DiningCrypto

open PairMask WordChar DiningLoop

variable {n : ℕ}

/-- The output of client `i` when the keys `K` were drawn and the clients hold `x`. -/
def outputOf (K : PairKeys n) (x : Fin n → JChar) (i : Fin n) : Message :=
  transmit (x i) (keyset 0 n K.draw i)

theorem outputOf_eq (K : PairKeys n) (x : Fin n → JChar) (i : Fin n) :
    outputOf K x i = Message.output (mask K i + cint (x i)) := by
  rw [outputOf, transmit, sum_keyset]

/-! ## Uniform keys -/

/-- A bijection of the key assignments turns the round with inputs `x` into the round with
inputs `x'`, changing no key held in `C` and no output. -/
def Indistinguishable (C : Finset (Fin n)) (x x' : Fin n → JChar) : Prop :=
  ∃ φ : Equiv.Perm (PairKeys n),
    (∀ K p, p.Touches (C : Set (Fin n)) → φ K p = K p) ∧
      ∀ K i, outputOf K x i = outputOf (φ K) x' i

/-- Inputs with the same honest total are indistinguishable. -/
theorem indistinguishable_of_sum_eq {C : Finset (Fin n)} {x x' : Fin n → JChar}
    (hC : ∀ i ∈ C, x i = x' i) (hsum : ∑ i ∈ Cᶜ, cint (x i) = ∑ i ∈ Cᶜ, cint (x' i)) :
    Indistinguishable C x x' := by
  have hzero : ∀ i ∈ (C : Set (Fin n)), cint (x i) - cint (x' i) = 0 := by
    intro i hi
    rw [hC i hi, sub_self]
  have htotal : ∑ i, (cint (x i) - cint (x' i)) = 0 := by
    rw [← Finset.sum_add_sum_compl C, Finset.sum_eq_zero (fun i hi => hzero i hi), zero_add,
      Finset.sum_sub_distrib, hsum, sub_self]
  obtain ⟨φ, hfix, hmask⟩ := exists_rekey hzero htotal
  refine ⟨φ, hfix, fun K i => ?_⟩
  rw [outputOf_eq, outputOf_eq, hmask, add_assoc, sub_add_cancel]

/-- The inputs of a round in which only client `i` transmits, the character `c`. -/
def onlySends (i : Fin n) (c : JChar) : Fin n → JChar := Pi.single i c

theorem sum_onlySends {C : Finset (Fin n)} {i : Fin n} (hi : i ∉ C) (c : JChar) :
    ∑ j ∈ Cᶜ, cint (onlySends i c j) = cint c := by
  rw [Finset.sum_eq_single i, onlySends, Pi.single_eq_same]
  · intro j _ hj
    rw [onlySends, Pi.single_eq_of_ne hj]
    rfl
  · exact fun h => absurd (Finset.mem_compl.mpr hi) h

/-- **Sender anonymity, uniform keys.** Against any coalition, inputs that agree on the
coalition and have the same honest total are indistinguishable; in particular it cannot tell
which of two honest clients sent a character. -/
theorem anonymous_of_uniform_keys (C : Finset (Fin n)) :
    (∀ x x' : Fin n → JChar, (∀ i ∈ C, x i = x' i) →
        ∑ i ∈ Cᶜ, cint (x i) = ∑ i ∈ Cᶜ, cint (x' i) → Indistinguishable C x x') ∧
      ∀ i j : Fin n, i ∉ C → j ∉ C → ∀ c, Indistinguishable C (onlySends i c) (onlySends j c) := by
  refine ⟨fun x x' hC hsum => indistinguishable_of_sum_eq hC hsum, fun i j hi hj c => ?_⟩
  refine indistinguishable_of_sum_eq (fun k hk => ?_) ?_
  · have hki : k ≠ i := fun h => hi (h ▸ hk)
    have hkj : k ≠ j := fun h => hj (h ▸ hk)
    rw [onlySends, onlySends, Pi.single_eq_of_ne hki, Pi.single_eq_of_ne hkj]
  · rw [sum_onlySends hi, sum_onlySends hj]

/-- Of three clients, the third cannot tell which of the others sent `'A'`. -/
theorem anonymous_of_uniform_keys_three :
    Indistinguishable {2} (onlySends (0 : Fin 3) 65#16) (onlySends 1 65#16) :=
  (anonymous_of_uniform_keys {2}).2 0 1 (by decide) (by decide) 65#16

/-! ## The keys the program draws -/

/-- One draw of four bytes for every pair of clients. -/
abbrev Draws (n : ℕ) : Type := Edge (Fin n) → Fin 4 → Byte

/-- The keys drawn. -/
def Draws.keys (d : Draws n) : PairKeys n := fun p => RandomGenerator.generateInt (d p)

/-- What a coalition sees of a round: the contents of its members' keysets, and every
client's output. -/
structure View (n : ℕ) : Type where
  keysets : Fin n → Option (Multiset (JInt × Option Keyop))
  outputs : Fin n → Message
  deriving DecidableEq

/-- The view of `C` in the round with inputs `x` under the draws `d`. -/
def view (C : Finset (Fin n)) (x : Fin n → JChar) (d : Draws n) : View n where
  keysets i := if i ∈ C then some (keyset 0 n d.keys.draw i).contents else none
  outputs := outputOf d.keys x

/-- The number of draw assignments that produce the view `v`. -/
def viewCount (C : Finset (Fin n)) (x : Fin n → JChar) (v : View n) : ℕ :=
  (Finset.univ.filter fun d : Draws n => view C x d = v).card

/-- The coalition `C` cannot tell whether `i` or `j` has sent `c`: every view is produced by
equally many draws. -/
def SenderAnonymous (C : Finset (Fin n)) (i j : Fin n) (c : JChar) : Prop :=
  ∀ v, viewCount C (onlySends i c) v = viewCount C (onlySends j c) v

/-- The key generator as an integer: two bytes count. -/
theorem generateInt_eq (b : Fin 4 → Byte) :
    RandomGenerator.generateInt b =
      (b 0).signExtend 32 * 1 + (b 1).signExtend 32 * 2064639#32 := by
  have hM : (2064639#32 : JInt) = 127#32 + 127#32 * 127#32 + 127#32 * 127#32 * 127#32 := by
    decide
  rw [RandomGenerator.generateInt, hM]
  ring

/-- Weighed with the character, the draws of one key do not cancel, whichever odd multiple
of the key is taken. -/
theorem sum_wordChar_generateInt_ne_zero {s : JInt} (hs : 256#32 * s ≠ 0)
    (hsM : 256#32 * (2064639#32 * s) ≠ 0) :
    ∑ b : Fin 4 → Byte, wordChar 32 (RandomGenerator.generateInt b * s) ≠ 0 := by
  have hfactor : ∀ b : Fin 4 → Byte,
      wordChar 32 (RandomGenerator.generateInt b * s) =
        ∏ t, ![fun a : Byte => wordChar 32 (a.signExtend 32 * s),
          fun a => wordChar 32 (a.signExtend 32 * (2064639#32 * s)),
          fun _ => 1, fun _ => 1] t (b t) := by
    intro b
    rw [Fin.prod_univ_four, generateInt_eq, add_mul, AddChar.map_add_eq_mul, mul_one, mul_assoc]
    simp
  simp only [hfactor]
  rw [← Fintype.prod_sum, Fin.prod_univ_four]
  have hsmul : ∀ a : JInt, (2 ^ (7 + 1)) • a = 256#32 * a := fun a => nsmul_eq_mul _ a
  have h0 := sum_wordChar_signExtend_ne_zero (v := 7) (hsmul s ▸ hs)
  have h1 := sum_wordChar_signExtend_ne_zero (v := 7) (hsmul (2064639#32 * s) ▸ hsM)
  have hone : (∑ _a : Byte, (1 : ℂ)) ≠ 0 := by
    rw [Finset.sum_const, nsmul_eq_mul, mul_one, Nat.cast_ne_zero]
    exact Finset.card_ne_zero.mpr Finset.univ_nonempty
  exact mul_ne_zero (mul_ne_zero (mul_ne_zero h0 h1) hone) hone

/-- Weighed with the character, the mask of a client does not cancel over all draws. -/
theorem sum_wordChar_mask_ne_zero (i : Fin n) :
    ∑ d : Draws n, wordChar 32 (mask d.keys i) ≠ 0 := by
  have hfactors := sum_addChar_mask (wordChar 32) RandomGenerator.generateInt i
  unfold Draws.keys
  rw [hfactors, Finset.prod_ne_zero_iff]
  intro p _
  by_cases hlo : p.lo = i
  · subst hlo
    have h := sum_wordChar_generateInt_ne_zero (s := 1) (by decide) (by decide)
    simpa only [share_lo, mul_one] using h
  · by_cases hhi : p.hi = i
    · subst hhi
      have h := sum_wordChar_generateInt_ne_zero (s := -1) (by decide) (by decide)
      simpa only [share_hi, mul_neg, mul_one] using h
    · -- a pair without client `i`: every draw counts one
      simp only [share_of_ne _ hlo hhi, AddChar.map_zero_eq_one]
      rw [Finset.sum_const, nsmul_eq_mul, mul_one, Nat.cast_ne_zero]
      exact Finset.card_ne_zero.mpr Finset.univ_nonempty

/-- The number in an output, weighed with the character. -/
noncomputable def outputWeight (i : Fin n) (v : View n) : ℂ :=
  wordChar 32 ((parseInt (v.outputs i).message).getD 0)

theorem outputWeight_view (C : Finset (Fin n)) (x : Fin n → JChar) (d : Draws n) (i : Fin n) :
    outputWeight i (view C x d) = wordChar 32 (cint (x i)) * wordChar 32 (mask d.keys i) := by
  have hout : (view C x d).outputs i = outputOf d.keys x i := rfl
  rw [outputWeight, hout, outputOf_eq, Message.parseInt_output, Option.getD_some,
    AddChar.map_add_eq_mul, mul_comm]

/-- A transmitted character is not sent as zero. -/
theorem cint_ne_zero {c : JChar} (hc : c ≠ 0) : cint c ≠ 0 := by
  have hlt : c.toNat < 2 ^ 16 := c.isLt
  rw [cint_eq, encoded, if_pos hc, BitVec.natCast_eq_ofNat]
  intro h
  have := congrArg BitVec.toNat h
  rw [BitVec.toNat_ofNat] at this
  simp only [BitVec.ofNat_eq_ofNat, BitVec.toNat_zero] at this
  omega

/-- **Sender anonymity, the keys drawn.** It fails for every number of clients, every
coalition, every two clients (outside the coalition or not) and every character. -/
theorem not_senderAnonymous (C : Finset (Fin n)) {i j : Fin n} (hij : i ≠ j) {c : JChar}
    (hc : c ≠ 0) : ¬ SenderAnonymous C i j c := by
  intro hanon
  have hsum := sum_comp_eq_of_card_fiber_eq hanon (outputWeight i)
  have hi : onlySends i c i = c := by rw [onlySends, Pi.single_eq_same]
  have hj : onlySends j c i = 0 := by rw [onlySends, Pi.single_eq_of_ne hij]
  have hcint0 : cint 0 = 0 := rfl
  simp only [outputWeight_view, hi, hj, hcint0, AddChar.map_zero_eq_one, one_mul] at hsum
  -- the weights of the two sides differ by the factor of the character sent
  rw [← Finset.mul_sum] at hsum
  have hone : wordChar 32 (cint c) = 1 :=
    mul_right_cancel₀ (sum_wordChar_mask_ne_zero i) (hsum.trans (one_mul _).symm)
  exact cint_ne_zero hc ((wordChar_eq_one_iff _).mp hone)

/-- The first two of three clients and `'A'`, against the third. -/
theorem not_senderAnonymous_A : ¬ SenderAnonymous {2} (0 : Fin 3) 1 65#16 :=
  not_senderAnonymous {2} (by decide) (by decide)

/-- `65600`, the number sent for `'A'`, is not a key the generator can draw. -/
theorem generateInt_ne_65600 (b : Fin 4 → Byte) : RandomGenerator.generateInt b ≠ 65600#32 := by
  intro h
  have h0 : -2 ^ 7 ≤ (b 0).toInt ∧ (b 0).toInt < 2 ^ 7 := ⟨BitVec.le_toInt _, BitVec.toInt_lt⟩
  have h1 : -2 ^ 7 ≤ (b 1).toInt ∧ (b 1).toInt < 2 ^ 7 := ⟨BitVec.le_toInt _, BitVec.toInt_lt⟩
  have hint : RandomGenerator.generateInt b =
      BitVec.ofInt 32 ((b 0).toInt + (b 1).toInt * 2064639) := by
    rw [generateInt_eq, mul_one, BitVec.ofInt_add, BitVec.ofInt_mul]
    rfl
  rw [hint] at h
  have := congrArg BitVec.toInt h
  rw [BitVec.toInt_ofInt_eq_self (by decide) (by omega) (by omega)] at this
  have hval : (65600#32).toInt = 65600 := by decide
  omega

/-- Two clients, no coalition, `'A'` from the first, and only zero bytes drawn: the outputs
are `65600` and `0`. Had the second client sent the `'A'`, the key would have to be `65600`,
so no draw produces this view. -/
theorem view_of_only_one_sender :
    0 < viewCount ∅ (onlySends (0 : Fin 2) 65#16) (view ∅ (onlySends 0 65#16) 0) ∧
      viewCount ∅ (onlySends (1 : Fin 2) 65#16) (view ∅ (onlySends 0 65#16) 0) = 0 := by
  constructor
  · rw [viewCount, Finset.card_pos]
    refine ⟨0, ?_⟩
    rw [Finset.mem_filter]
    exact ⟨@Finset.mem_univ (Draws 2) _ 0, rfl⟩
  · rw [viewCount, Finset.card_eq_zero, Finset.filter_eq_empty_iff]
    intro d _ hview
    have hmask : ∀ K : PairKeys 2, mask K 0 = K ⟨(0, 1), by decide⟩ := by
      intro K
      rw [mask_eq_sum, Fin.sum_univ_two, Fin.sum_univ_two]
      simp
    have hout : outputOf d.keys (onlySends 1 65#16) 0 =
        outputOf (Draws.keys (n := 2) 0) (onlySends 0 65#16) 0 :=
      congrFun (congrArg View.outputs hview) 0
    have hsilent : cint (onlySends (1 : Fin 2) 65#16 0) = 0 := by decide
    have hsent : Draws.keys (n := 2) 0 ⟨(0, 1), by decide⟩ + cint (onlySends (0 : Fin 2) 65#16 0) =
        65600#32 := by decide
    rw [outputOf_eq, outputOf_eq, hmask, hmask, hsilent, add_zero, hsent] at hout
    exact generateInt_ne_65600 (d ⟨(0, 1), by decide⟩) (Message.output_injective hout)

end DiningCrypto
