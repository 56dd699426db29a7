import DiningCrypto.Round
import Mathlib.Algebra.Order.BigOperators.Group.Finset
import Mathlib.Data.Fintype.Fin
import Mathlib.Data.Nat.ModEq

/-!
# What the clients read in a round

The contracts of `DiningLoop.collate` over a complete hand-out of keys.

With at most one transmitter the round is a broadcast channel (`collate_single`): every
client reads exactly the character sent, `'\uffff'` included, or `0` in a silent round.

With several transmitters the sum of the `c + 0xffff` exceeds `2 * MAX_CHAR` and the branch
commented "There is a collision." is taken. It is empty, so the low 16 bits of the sum are
returned all the same and `run` displays them. `faithful_iff` says exactly for which
characters the result is nevertheless right: only when the other transmitters' characters
happen to cancel modulo `2 ^ 16`.

The test itself, for whether there was a collision, is right up to 16384 transmitters and no
further (`collision_test`).
-/

namespace DiningCrypto

open DiningLoop

variable {n : ℕ}

/-- The clients that transmit in the round. -/
def transmitters (x : Fin n → JChar) : Finset (Fin n) := Finset.univ.filter fun i => x i ≠ 0

/-- The characters of all transmitters but `i`, added up. -/
def othersSum (x : Fin n → JChar) (i : Fin n) : ℕ :=
  ∑ j ∈ (transmitters x).erase i, (x j).toNat

@[simp] theorem mem_transmitters {x : Fin n → JChar} {i : Fin n} :
    i ∈ transmitters x ↔ x i ≠ 0 := by
  simp [transmitters]

theorem transmitters_eq_empty {x : Fin n → JChar} : transmitters x = ∅ ↔ ∀ i, x i = 0 := by
  simp [transmitters, Finset.filter_eq_empty_iff]

theorem total_eq_sum (x : Fin n → JChar) :
    total x = ∑ i ∈ transmitters x, ((x i).toNat + 65535) := by
  rw [total, transmitters, Finset.sum_filter]
  rfl

theorem toNat_ne_zero {x : Fin n → JChar} {i : Fin n} (hi : i ∈ transmitters x) :
    (x i).toNat ≠ 0 := by
  intro h
  exact mem_transmitters.mp hi (BitVec.eq_of_toNat_eq h)

/-- The total, seen from one transmitter. -/
theorem total_eq_add {x : Fin n → JChar} {i : Fin n} (hi : i ∈ transmitters x) :
    total x = (x i).toNat + othersSum x i + 65535 * (transmitters x).card := by
  rw [total_eq_sum, ← Finset.add_sum_erase _ _ hi, Finset.sum_add_distrib, Finset.sum_const,
    othersSum, ← Finset.card_erase_add_one hi, smul_eq_mul]
  omega

theorem total_of_silent {x : Fin n → JChar} (hx : ∀ i, x i = 0) : total x = 0 := by
  rw [total_eq_sum, transmitters_eq_empty.mpr hx, Finset.sum_empty]

/-- A single transmitter is in the branch that subtracts `MAX_CHAR` again. -/
theorem collated_single {x : Fin n → JChar} {i : Fin n} (hi : transmitters x = {i}) :
    BitVec.ofNat 16 (collated (total x)) = x i := by
  have hmem : i ∈ transmitters x := hi ▸ Finset.mem_singleton_self i
  have hothers : othersSum x i = 0 := by
    rw [othersSum, hi, Finset.erase_singleton, Finset.sum_empty]
  have htotal : total x = (x i).toNat + 65535 := by
    rw [total_eq_add hmem, hothers, hi, Finset.card_singleton]
  have hpos := toNat_ne_zero hmem
  have hlt : (x i).toNat < 2 ^ 16 := (x i).isLt
  have hval : collated (total x) = (x i).toNat := by
    rw [htotal, collated, if_neg (by omega), if_neg (by omega)]
    omega
  rw [hval, BitVec.ofNat_toNat, BitVec.setWidth_eq]

/-- When nobody but `s` may transmit, the character `s` holds comes out, `0` included. -/
theorem collated_only {x : Fin n → JChar} {s : Fin n} (hx : ∀ i, i ≠ s → x i = 0) :
    BitVec.ofNat 16 (collated (total x)) = x s := by
  by_cases hs : x s = 0
  · have hsilent : ∀ i, x i = 0 := by
      intro i
      by_cases hi : i = s
      · rw [hi, hs]
      · exact hx i hi
    rw [total_of_silent hsilent, hs]
    rfl
  · refine collated_single (Finset.eq_singleton_iff_unique_mem.mpr ?_)
    refine ⟨mem_transmitters.mpr hs, fun i hi => ?_⟩
    by_contra his
    exact mem_transmitters.mp hi (hx i his)

/-- **Round correctness.** When at most one client transmits, every client reads exactly
the transmitted character, or `0` when nobody does: for any number of clients, any keys, any
hand-out of the keysets and any order of the result list. -/
theorem collate_single (h : HandOut n) {x : Fin n → JChar}
    (hx : ∀ i j, x i ≠ 0 → x j ≠ 0 → i = j) {results : List Message}
    (hres : results.Perm (h.outputs x)) :
    (∀ i, x i ≠ 0 → collate results = some (x i)) ∧
      ((∀ i, x i = 0) → collate results = some 0) := by
  rw [collate_outputs x h hres]
  constructor
  · intro i hi
    have honly : ∀ j, j ≠ i → x j = 0 := by
      intro j hj
      by_contra hxj
      exact hj (hx j i hxj hi)
    rw [collated_only honly]
  · intro hsilent
    rw [total_of_silent hsilent]
    rfl

/-- The boundary case: `'\uffff'` from one of three clients, all keys `Integer.MIN_VALUE`,
the results in reverse order. -/
theorem collate_single_uffff :
    collate ((HandOut.direct 0 fun _ => 0x80000000#32 : HandOut 3).outputs
      ![0, 0xffff#16, 0]).reverse = some 0xffff#16 :=
  (collate_single (HandOut.direct 0 fun _ => 0x80000000#32 : HandOut 3)
    (x := ![0, 0xffff#16, 0]) (by decide) (List.reverse_perm _)).1 1 (by decide)

/-! ## Rounds with any number of transmitters -/

/-- What a client may conclude from the character `r` it has read: a displayed character was
transmitted by somebody, and silence means that nobody transmitted. -/
def Faithful (x : Fin n → JChar) (r : JChar) : Prop :=
  (r ≠ 0 → ∃ i, x i = r) ∧ (r = 0 → ∀ i, x i = 0)

/-- At most one client transmits, or the characters are such that the collision leaves one
of them standing: for some transmitter `i` the characters of the others add up, modulo
`2 ^ 16`, to the number of transmitters — one less when the wrapped total is outside the
range of the collision test, which takes more than 16384 transmitters — and the total is not
a multiple of `2 ^ 32`. -/
def Undistorted (x : Fin n → JChar) : Prop :=
  (transmitters x).card ≤ 1 ∨
    total x % 2 ^ 32 ≠ 0 ∧ ∃ i ∈ transmitters x,
      othersSum x i + (if 131070 < total x % 2 ^ 32 ∧ total x % 2 ^ 32 < 2 ^ 31 then 0 else 1) ≡
        (transmitters x).card [MOD 2 ^ 16]

instance (x : Fin n → JChar) : Decidable (Undistorted x) := by
  unfold Undistorted
  infer_instance

/-- With at least one transmitter, the result is right exactly when it is one of the
transmitted characters. -/
theorem faithful_iff_exists {x : Fin n → JChar} (hne : transmitters x ≠ ∅) (r : JChar) :
    Faithful x r ↔ ∃ i ∈ transmitters x, x i = r := by
  constructor
  · rintro ⟨hdisplayed, hsilent⟩
    by_cases hr : r = 0
    · exact absurd (transmitters_eq_empty.mpr (hsilent hr)) hne
    · obtain ⟨i, hi⟩ := hdisplayed hr
      exact ⟨i, mem_transmitters.mpr (hi ▸ hr), hi⟩
  · rintro ⟨i, hi, rfl⟩
    exact ⟨fun _ => ⟨i, rfl⟩, fun h0 => absurd h0 (mem_transmitters.mp hi)⟩

/-- Transmitter `i`'s character survives exactly when the others' characters cancel. -/
theorem eq_collated_iff {x : Fin n → JChar} {i : Fin n} (hi : i ∈ transmitters x) :
    x i = BitVec.ofNat 16 (collated (total x)) ↔
      total x % 2 ^ 32 ≠ 0 ∧
        othersSum x i +
          (if 131070 < total x % 2 ^ 32 ∧ total x % 2 ^ 32 < 2 ^ 31 then 0 else 1) ≡
          (transmitters x).card [MOD 2 ^ 16] := by
  have htotal := total_eq_add hi
  have hlt : (x i).toNat < 2 ^ 16 := (x i).isLt
  have hpos := toNat_ne_zero hi
  rw [← BitVec.toNat_inj, BitVec.toNat_ofNat, collated, Nat.ModEq]
  by_cases h0 : total x % 2 ^ 32 = 0
  · rw [if_pos h0]
    simp only [h0, ne_eq, not_true_eq_false, false_and, iff_false]
    exact hpos
  · rw [if_neg h0]
    simp only [h0, ne_eq, not_false_eq_true, true_and]
    by_cases hrange : 131070 < total x % 2 ^ 32 ∧ total x % 2 ^ 32 < 2 ^ 31
    · rw [if_pos hrange, if_pos hrange]
      omega
    · rw [if_neg hrange, if_neg hrange]
      omega

/-- **Collisions.** A client's reading of a round is right exactly when the characters are
`Undistorted`: for any number of clients and transmitters, any keys, any hand-out and any
order of the result list. -/
theorem faithful_iff (h : HandOut n) (x : Fin n → JChar) {results : List Message}
    (hres : results.Perm (h.outputs x)) :
    (∀ r, collate results = some r → Faithful x r) ↔ Undistorted x := by
  rw [collate_outputs x h hres]
  simp only [Option.some.injEq, forall_eq']
  rcases Nat.lt_or_ge 1 (transmitters x).card with hmany | hfew
  · -- a collision
    have hne : transmitters x ≠ ∅ := by
      rintro he
      rw [he, Finset.card_empty] at hmany
      omega
    rw [faithful_iff_exists hne, Undistorted, or_iff_right (by omega)]
    constructor
    · rintro ⟨i, hi, hxi⟩
      exact ⟨((eq_collated_iff hi).mp hxi).1, i, hi, ((eq_collated_iff hi).mp hxi).2⟩
    · rintro ⟨h0, i, hi, hmod⟩
      exact ⟨i, hi, (eq_collated_iff hi).mpr ⟨h0, hmod⟩⟩
  · refine iff_of_true ?_ (Or.inl hfew)
    by_cases he : transmitters x = ∅
    · rw [total_of_silent (transmitters_eq_empty.mp he)]
      exact ⟨fun hr => absurd rfl hr, fun _ => transmitters_eq_empty.mp he⟩
    · obtain ⟨i, hi⟩ : ∃ i, transmitters x = {i} := by
        refine Finset.card_eq_one.mp (le_antisymm hfew ?_)
        exact Finset.one_le_card.mpr (Finset.nonempty_iff_ne_empty.mpr he)
      rw [faithful_iff_exists he, collated_single hi]
      exact ⟨i, hi ▸ Finset.mem_singleton_self i, rfl⟩

/-- A collision that is read right: `'A'` and `'\u0002'` give `'A'`. -/
theorem faithful_iff_surviving :
    collate ((HandOut.direct 0 0 : HandOut 2).outputs ![65#16, 2#16]) = some 65#16 ∧
      Faithful ![65#16, 2#16] 65#16 := by
  have hread : collate ((HandOut.direct 0 0 : HandOut 2).outputs ![65#16, 2#16]) =
      some 65#16 := by
    rw [collate_outputs _ _ (List.Perm.refl _)]
    decide
  exact ⟨hread, (faithful_iff (HandOut.direct 0 0) ![65#16, 2#16] (List.Perm.refl _)).mpr
    (by decide) _ hread⟩

/-- Two clients send `'A'` at once: everybody reads `'\u0080'`, which nobody sent. Two
clients send `'\u0001'` at once: everybody reads silence. -/
theorem collision_misread :
    (collate ((HandOut.direct 0 0 : HandOut 2).outputs ![65#16, 65#16]) = some 128#16 ∧
        ¬ Faithful ![65#16, 65#16] 128#16) ∧
      (collate ((HandOut.direct 0 0 : HandOut 2).outputs ![1#16, 1#16]) = some 0 ∧
        ¬ Faithful ![1#16, 1#16] 0) := by
  refine ⟨⟨?_, fun h => ?_⟩, ?_, fun h => ?_⟩
  · rw [collate_outputs _ _ (List.Perm.refl _)]
    decide
  · exact absurd (h.1 (by decide)) (by decide)
  · rw [collate_outputs _ _ (List.Perm.refl _)]
    decide
  · exact absurd (h.2 rfl) (by decide)

/-- Every transmitter contributes at least `MAX_CHAR + 1`. -/
theorem le_total (x : Fin n → JChar) : 65536 * (transmitters x).card ≤ total x := by
  have hlo : ∑ i ∈ transmitters x, 65536 ≤ total x := by
    rw [total_eq_sum]
    refine Finset.sum_le_sum fun i hi => ?_
    have := toNat_ne_zero hi
    omega
  rw [Finset.sum_const, smul_eq_mul] at hlo
  omega

/-- Every transmitter contributes at most `2 * MAX_CHAR`. -/
theorem total_le (x : Fin n → JChar) : total x ≤ 131070 * (transmitters x).card := by
  have hhi : total x ≤ ∑ i ∈ transmitters x, 131070 := by
    rw [total_eq_sum]
    refine Finset.sum_le_sum fun i _ => ?_
    have : (x i).toNat < 2 ^ 16 := (x i).isLt
    omega
  rw [Finset.sum_const, smul_eq_mul] at hhi
  omega

/-- Up to 16384 transmitters the total does not reach the sign bit, and from two on it is in
the range of the collision test. -/
theorem total_range {x : Fin n → JChar} (hk : (transmitters x).card ≤ 16384) :
    65536 * (transmitters x).card ≤ total x ∧ total x < 2 ^ 31 := by
  have := total_le x
  exact ⟨le_total x, by omega⟩

/-- `Undistorted` for the collisions that do not overflow: some transmitter's colleagues
cancel. -/
theorem undistorted_iff {x : Fin n → JChar} (h2 : 2 ≤ (transmitters x).card)
    (hk : (transmitters x).card ≤ 16384) :
    Undistorted x ↔
      ∃ i ∈ transmitters x, othersSum x i ≡ (transmitters x).card [MOD 2 ^ 16] := by
  obtain ⟨hlo, hhi⟩ := total_range hk
  have hmod : total x % 2 ^ 32 = total x := Nat.mod_eq_of_lt (by omega)
  rw [Undistorted, or_iff_right (by omega), hmod, if_pos (by omega), and_iff_right (by omega)]
  simp only [Nat.add_zero]

/-! ## The range of the collision test -/

/-- A total below the sign bit is its own `int`. -/
theorem toInt_ofNat_total {t : ℕ} (ht : t < 2 ^ 31) : (BitVec.ofNat 32 t).toInt = t := by
  have hmod : t % 2 ^ 32 = t := Nat.mod_eq_of_lt (by omega)
  rw [BitVec.toInt_eq_toNat_of_lt (by rw [BitVec.toNat_ofNat]; omega), BitVec.toNat_ofNat, hmod]

/-- The first `k` clients transmit `'\uffff'`. -/
def loudest (n k : ℕ) (i : Fin n) : JChar := if i < k then 0xffff#16 else 0

theorem transmitters_loudest (n k : ℕ) :
    transmitters (loudest n k) = Finset.univ.filter fun i : Fin n => i < k := by
  ext i
  rw [mem_transmitters, Finset.mem_filter, loudest]
  by_cases hi : (i : ℕ) < k
  · simp [hi]
  · simp [hi]

theorem card_transmitters_loudest {n k : ℕ} (hk : k ≤ n) :
    (transmitters (loudest n k)).card = k := by
  rw [transmitters_loudest, Fin.card_filter_val_lt, min_eq_right hk]

theorem total_loudest {n k : ℕ} (hk : k ≤ n) : total (loudest n k) = 131070 * k := by
  have hterm : ∀ i ∈ transmitters (loudest n k), (loudest n k i).toNat + 65535 = 131070 := by
    intro i hi
    rw [transmitters_loudest, Finset.mem_filter] at hi
    rw [loudest, if_pos hi.2]
    rfl
  rw [total_eq_sum, Finset.sum_congr rfl hterm, Finset.sum_const, card_transmitters_loudest hk,
    smul_eq_mul, Nat.mul_comm]

/-- **The collision test is exact up to 16384 transmitters**: the wrapped sum is zero in a
silent round, between `MAX_CHAR + 1` and `2 * MAX_CHAR` for one transmitter, and above that
for more; one more transmitter and the sum can be negative, so that a collision passes for a
single character. -/
theorem collision_test :
    (∀ {n : ℕ} (h : HandOut n) (x : Fin n → JChar) (results : List Message),
      results.Perm (h.outputs x) → (transmitters x).card ≤ 16384 →
      ∃ sum : JInt, addMessages 0 results = some sum ∧
        (sum = 0 ↔ (transmitters x).card = 0) ∧
        (MAX_CHAR.toInt + 1 ≤ sum.toInt ∧ sum.toInt ≤ (2 * MAX_CHAR).toInt ↔
          (transmitters x).card = 1) ∧
        ((2 * MAX_CHAR).toInt < sum.toInt ↔ 2 ≤ (transmitters x).card)) ∧
    ∀ {n : ℕ} (h : HandOut n), 16385 ≤ n →
      ∃ x : Fin n → JChar, (transmitters x).card = 16385 ∧
        ∀ results : List Message, results.Perm (h.outputs x) →
          ∃ sum : JInt, addMessages 0 results = some sum ∧
            ¬ (2 * MAX_CHAR).toInt < sum.toInt := by
  have hzero : (0 : JInt).toInt = 0 := rfl
  have hmax : MAX_CHAR.toInt = 65535 := by decide
  have hmax2 : (2 * MAX_CHAR).toInt = 131070 := by decide
  constructor
  · intro n h x results hres hk
    obtain ⟨hlo, hhi⟩ := total_range hk
    have hcard := total_le x
    refine ⟨_, h.addMessages_outputs hres, ?_⟩
    rw [sum_cint, ← BitVec.toInt_inj, toInt_ofNat_total hhi, hzero, hmax, hmax2]
    omega
  · intro n h hn
    refine ⟨loudest n 16385, card_transmitters_loudest hn, fun results hres => ?_⟩
    refine ⟨_, h.addMessages_outputs hres, ?_⟩
    rw [sum_cint, total_loudest hn]
    decide

/-- Two of three clients collide on `'\u0001'`, the least character, and 16385 of 20000
clients stay below the test. -/
theorem collision_test_least :
    (∃ sum : JInt,
        addMessages 0 ((HandOut.direct 0 0 : HandOut 3).outputs ![1#16, 0, 1#16]) = some sum ∧
          (2 * MAX_CHAR).toInt < sum.toInt) ∧
      ∃ x : Fin 20000 → JChar, (transmitters x).card = 16385 ∧
        ∃ sum : JInt, addMessages 0 ((HandOut.direct 0 0 : HandOut 20000).outputs x) = some sum ∧
          ¬ (2 * MAX_CHAR).toInt < sum.toInt := by
  have hcard : (transmitters (![1#16, 0, 1#16] : Fin 3 → JChar)).card = 2 := by decide
  constructor
  · obtain ⟨sum, hsum, -, -, hmany⟩ := collision_test.1 (HandOut.direct 0 0 : HandOut 3)
      ![1#16, 0, 1#16] _ (List.Perm.refl _) (by rw [hcard]; omega)
    exact ⟨sum, hsum, hmany.mpr hcard.ge⟩
  · obtain ⟨x, hx, hread⟩ := collision_test.2 (HandOut.direct 0 0 : HandOut 20000) (by omega)
    exact ⟨x, hx, hread _ (List.Perm.refl _)⟩

end DiningCrypto
