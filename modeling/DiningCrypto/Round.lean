import DiningCrypto.Protocol

/-!
# One round of the dining cryptographers

What a client sends in a round (`DiningLoop.transmit`) and how it reads the result list
(`DiningLoop.collate`). A nonzero character `c` is sent as `c + 0xffff`, masked with the sum
of the client's keyset; the outputs of a complete hand-out add up, modulo `2 ^ 32`, to the
sum of what the clients sent, because the masks cancel (`HandOut.sum_value`).

`collate` then branches on that sum, read as a signed `int`. `collate_outputs` is its value
for *any* characters: it depends only on the natural number `total x`, the sum of the
transmitted `c + 0xffff`. With one transmitter the branch that subtracts `0xffff` is taken
and the character comes out; with more, the branch for a collision is taken and falls
through to the same `return`.
-/

namespace DiningCrypto

open PairMask

namespace DiningLoop

/-- `MAX_CHAR = '\uffff'`, widened to `int`. -/
def MAX_CHAR : JInt := 0xffff#32

/-- The local `cint` of `transmit`. -/
def cint (c : JChar) : JInt :=
  if c ≠ 0 then c.setWidth 32 + MAX_CHAR else c.setWidth 32

/-- `transmit`: the message a client sends for the character `c` under the keyset `keys`. -/
def transmit (c : JChar) (keys : KeySet) : Message := Message.output (keys.sum + cint c)

/-- The loop of `collate`. `none`: `parseInt` has thrown. -/
def addMessages : JInt → List Message → Option JInt
  | sum, [] => some sum
  | sum, m :: ms =>
    match parseInt m.message with
    | some i => addMessages (sum + i) ms
    | none => none

/-- The branches of `collate` after its loop. -/
def branch (sum : JInt) : JInt :=
  if sum = 0 then
    -- no message has been transmitted
    sum
  else if (2 * MAX_CHAR).toInt < sum.toInt then
    -- there is a collision
    sum
  else
    sum - MAX_CHAR

/-- `collate`: the character a result list stands for. -/
def collate (messages : List Message) : Option JChar :=
  (addMessages 0 messages).map fun sum => (branch sum).setWidth 16

theorem addMessages_map_output (sum : JInt) (l : List JInt) :
    addMessages sum (l.map Message.output) = some (sum + l.sum) := by
  induction l generalizing sum with
  | nil => rw [List.map_nil, addMessages, List.sum_nil, add_zero]
  | cons i l ih =>
    rw [List.map_cons, addMessages, Message.parseInt_output, List.sum_cons, ← add_assoc]
    exact ih (sum + i)

/-- The loop's result does not depend on the order of the list, since wrapping addition is
commutative and one unreadable message spoils every order. -/
theorem addMessages_perm {l l' : List Message} (h : l.Perm l') (sum : JInt) :
    addMessages sum l = addMessages sum l' := by
  induction h generalizing sum with
  | nil => rfl
  | cons m _ ih =>
    rw [addMessages, addMessages]
    rcases parseInt m.message with _ | i
    · rfl
    · exact ih (sum + i)
  | swap m m' l =>
    simp only [addMessages]
    rcases parseInt m.message with _ | i <;> rcases parseInt m'.message with _ | j
    · rfl
    · rfl
    · rfl
    · simp only [add_right_comm sum i j]
  | trans _ _ ih ih' => rw [ih, ih']

end DiningLoop

open DiningLoop

/-! ## Complete hand-outs -/

/-- One complete result of `generateKeySets` in the hands of the `n` clients: `toClient i`
is the set that client `i` was given. A client holds the set as a `HashSet`, so in an
iteration order of its own. -/
structure HandOut (n : ℕ) : Type where
  /-- the run of `generateKeySets` -/
  run : ℕ
  /-- the values drawn -/
  keys : PairKeys n
  toClient : Equiv.Perm (Fin n)
  held : Fin n → KeySet
  same : ∀ i, (held i).SameSet (keyset run n keys.draw (toClient i))

namespace HandOut

variable {n : ℕ} (h : HandOut n)

/-- The hand-out in which client `i` gets set `i`. -/
def direct (run : ℕ) (K : PairKeys n) : HandOut n where
  run := run
  keys := K
  toClient := Equiv.refl _
  held := keyset run n K.draw
  same _ := List.Perm.refl _

theorem sum_held_eq (i : Fin n) : (h.held i).sum = mask h.keys (h.toClient i) := by
  rw [(h.same i).sum_eq, sum_keyset]

/-- The sums of the sets handed out cancel, whoever got which. -/
theorem sum_held : ∑ i, (h.held i).sum = 0 := by
  simp only [sum_held_eq]
  rw [Equiv.sum_comp h.toClient (mask h.keys)]
  exact sum_mask h.keys

/-- The number client `i` sends. -/
def value (x : Fin n → JChar) (i : Fin n) : JInt := (h.held i).sum + cint (x i)

/-- The outputs of the round, in the order of the clients. -/
def outputs (x : Fin n → JChar) : List Message :=
  List.ofFn fun i => transmit (x i) (h.held i)

/-- The keys cancel: all outputs together are what the clients sent. -/
theorem sum_value (x : Fin n → JChar) : ∑ i, h.value x i = ∑ i, cint (x i) := by
  unfold value
  rw [Finset.sum_add_distrib, sum_held, zero_add]

theorem outputs_eq_map (x : Fin n → JChar) :
    h.outputs x = (List.ofFn (h.value x)).map Message.output := by
  rw [List.map_ofFn]
  rfl

/-- The loop of `collate` computes the sum of what the clients sent, in every order of the
result list. -/
theorem addMessages_outputs {x : Fin n → JChar} {results : List Message}
    (hres : results.Perm (h.outputs x)) :
    addMessages 0 results = some (∑ i, cint (x i)) := by
  rw [addMessages_perm hres, outputs_eq_map, addMessages_map_output, zero_add, List.sum_ofFn,
    sum_value]

end HandOut

/-! ## The sum that `collate` sees -/

section Total

variable {n : ℕ} (x : Fin n → JChar)

/-- `cint` as a natural number: at most `2 * MAX_CHAR`, so that it is its own `int`. -/
def encoded (c : JChar) : ℕ := if c ≠ 0 then c.toNat + 65535 else 0

theorem cint_eq (c : JChar) : cint c = (encoded c : JInt) := by
  rw [cint, encoded]
  by_cases hc : c = 0
  · subst hc
    rfl
  · have hlt : c.toNat < 2 ^ 32 := c.isLt.trans (by decide)
    rw [if_pos hc, if_pos hc, MAX_CHAR, BitVec.natCast_eq_ofNat]
    apply BitVec.eq_of_toNat_eq
    rw [BitVec.toNat_add, BitVec.toNat_setWidth, BitVec.toNat_ofNat, BitVec.toNat_ofNat,
      Nat.mod_eq_of_lt hlt]

/-- Everything sent in the round, as a natural number. -/
def total : ℕ := ∑ i, encoded (x i)

theorem sum_cint : ∑ i, cint (x i) = BitVec.ofNat 32 (total x) := by
  simp only [cint_eq, ← BitVec.natCast_eq_ofNat, total, Nat.cast_sum]

/-- The result of `collate` when the transmitted numbers add up to `t`. -/
def collated (t : ℕ) : ℕ :=
  if t % 2 ^ 32 = 0 then 0
  else if 131070 < t % 2 ^ 32 ∧ t % 2 ^ 32 < 2 ^ 31 then t % 2 ^ 16
  else (t + 1) % 2 ^ 16

/-- The three branches on a wrapped sum. `0xffff` is `-1` modulo `2 ^ 16`, so subtracting it
adds one to the character that remains. -/
theorem setWidth_branch (t : ℕ) :
    (branch (BitVec.ofNat 32 t)).setWidth 16 = BitVec.ofNat 16 (collated t) := by
  have hint : (BitVec.ofNat 32 t).toInt =
      if t % 2 ^ 32 < 2 ^ 31 then ((t % 2 ^ 32 : ℕ) : ℤ)
      else ((t % 2 ^ 32 : ℕ) : ℤ) - 2 ^ 32 := by
    rw [BitVec.toInt_eq_toNat_cond, BitVec.toNat_ofNat]
    split_ifs <;> omega
  have hmax : (2 * MAX_CHAR).toInt = 131070 := by decide
  have hzero : BitVec.ofNat 32 t = 0 ↔ t % 2 ^ 32 = 0 := by
    rw [← BitVec.toNat_inj, BitVec.toNat_ofNat]
    rfl
  rw [branch, hmax, collated, hint]
  apply BitVec.eq_of_toNat_eq
  by_cases h0 : t % 2 ^ 32 = 0
  · rw [if_pos (hzero.mpr h0), if_pos h0, hzero.mpr h0]
    rfl
  · rw [if_neg (hzero.not.mpr h0), if_neg h0]
    by_cases hlt : t % 2 ^ 32 < 2 ^ 31
    · by_cases hbig : 131070 < t % 2 ^ 32
      · rw [if_pos hlt, if_pos (by omega), if_pos ⟨hbig, hlt⟩]
        simp only [BitVec.toNat_setWidth, BitVec.toNat_ofNat]
        omega
      · rw [if_pos hlt, if_neg (by omega), if_neg (by omega)]
        simp only [MAX_CHAR, BitVec.toNat_setWidth, BitVec.toNat_sub, BitVec.toNat_ofNat]
        omega
    · rw [if_neg hlt, if_neg (by omega), if_neg (by omega)]
      simp only [MAX_CHAR, BitVec.toNat_setWidth, BitVec.toNat_sub, BitVec.toNat_ofNat]
      omega

/-- **What `collate` returns**, for any characters, any keys, any hand-out and any order of
the result list. -/
theorem collate_outputs (h : HandOut n) {results : List Message}
    (hres : results.Perm (h.outputs x)) :
    collate results = some (BitVec.ofNat 16 (collated (total x))) := by
  rw [collate, h.addMessages_outputs hres, Option.map_some, sum_cint, setWidth_branch]

end Total

end DiningCrypto
