import DiningCrypto.EdgeMasks
import DiningCrypto.Keys
import Mathlib.Data.ZMod.Basic

/-!
# The letter cipher of `Message`

The second constructor of `Message` takes one character from `'@'` to `'Z'`, `'@'` standing
for no message, and a list of keys. `encode` moves the letter along the alphabet of 27, up by
an `ADD` key and down by a `SUBTRACT` key; `combineMessages` adds up the letters of all
participants. `TestAddition` tries it out for three participants.

Java's `%` takes the sign of its dividend, and a `char` has none. Within the alphabet no
dividend is negative, so that every step is a step modulo 27 (`Offset`). The keys then cancel
whatever graph they join the participants to (`combineMessages_eq`).
-/

namespace DiningCrypto

/-- A `Message` object built from a character and a list of keys. The character is stored as
an offset. -/
structure IndMessage : Type where
  indMessage : JChar
  keys : List Key

namespace IndMessage

/-- `base`, the code of `'@'`. -/
def base : JInt := 64#32

/-- `alphaSize`. -/
def alphaSize : JInt := 27#32

/-- `new Message(indMessage, keys)`. -/
def new (indMessage : JChar) (keys : List Key) : IndMessage :=
  ⟨(indMessage.setWidth 32 - base).setWidth 16, keys⟩

/-- `getIndMessage`. -/
def getIndMessage (m : IndMessage) : JChar := (m.indMessage.setWidth 32 + base).setWidth 16

/-- The loop body of `encode`. `none`: `System.exit`, because the key has no operation. -/
def encodeKey (indMessage : JChar) (k : Key) : Option JChar :=
  let keyOffset := k.key - base
  match k.op with
  | some .ADD => some (((indMessage.setWidth 32 + keyOffset).srem alphaSize).setWidth 16)
  | some .SUBTRACT =>
    some (((indMessage.setWidth 32 - keyOffset + alphaSize).srem alphaSize).setWidth 16)
  | none => none

/-- The loop of `encode`. -/
def encodeLoop : JChar → List Key → Option JChar
  | indMessage, [] => some indMessage
  | indMessage, k :: ks => (encodeKey indMessage k).bind fun indMessage => encodeLoop indMessage ks

/-- `encode`. -/
def encode (m : IndMessage) : Option IndMessage :=
  (encodeLoop m.indMessage m.keys).map fun indMessage => { m with indMessage }

/-- The loop of `combineMessages`. -/
def combineLoop : JChar → List JChar → JChar
  | temp, [] => temp
  | temp, m :: ms =>
    let offset := m.setWidth 32 - base
    combineLoop (((temp.setWidth 32 + offset + alphaSize).srem alphaSize).setWidth 16) ms

/-- `combineMessages`: the letter all participants together have sent. -/
def combineMessages (m : IndMessage) (messages : List JChar) : JChar :=
  ((combineLoop m.indMessage messages).setWidth 32 + base).setWidth 16

/-! ## Offsets -/

/-- From `'@'` to `'Z'`. -/
def Letter {w : ℕ} (c : BitVec w) : Prop := 64 ≤ c.toNat ∧ c.toNat ≤ 90

instance {w : ℕ} (c : BitVec w) : Decidable (Letter c) := inferInstanceAs (Decidable (_ ∧ _))

/-- A `char` in an `int` expression. -/
theorem toNat_widen (c : JChar) : (c.setWidth 32).toNat = c.toNat :=
  BitVec.toNat_setWidth_of_le (by decide)

theorem Letter.widen {c : JChar} (hc : Letter c) : Letter (c.setWidth 32) := by
  rwa [Letter, toNat_widen]

theorem Letter.toNat_sub_base {c : JInt} (hc : Letter c) : (c - base).toNat = c.toNat - 64 :=
  BitVec.toNat_sub_of_le (BitVec.le_def.mpr hc.1)

/-- The place of a letter in the alphabet. -/
def place {w : ℕ} (c : BitVec w) : ZMod 27 := ((c.toNat - 64 : ℕ) : ZMod 27)

/-- The stored character is the offset `a` into the alphabet. -/
structure Offset (c : JChar) (a : ZMod 27) : Prop where
  lt : c.toNat < 27
  eq : (c.toNat : ZMod 27) = a

/-- The remainder of a non-negative `int`, stored in a `char`, is an offset. -/
theorem offset_srem {t : ℕ} (ht : t < 2 ^ 31) :
    Offset (((BitVec.ofNat 32 t).srem alphaSize).setWidth 16) t := by
  have hmsb : (BitVec.ofNat 32 t).msb = false := by
    rw [BitVec.msb_eq_false_iff_two_mul_lt, BitVec.toNat_ofNat]
    omega
  have hval : (((BitVec.ofNat 32 t).srem alphaSize).setWidth 16).toNat = t % 27 := by
    rw [BitVec.srem_eq, hmsb, show alphaSize.msb = false from rfl]
    simp only [alphaSize, BitVec.toNat_setWidth, BitVec.toNat_umod, BitVec.toNat_ofNat,
      Nat.reducePow, Nat.reduceMod]
    omega
  refine ⟨?_, ?_⟩
  · rw [hval]
    exact Nat.mod_lt t (by omega)
  · rw [hval, ZMod.natCast_mod]

/-- A non-negative number that an `int` expression computes, modulo 27. -/
theorem Offset.of_int {e : JInt} {t : ℕ} {a : ZMod 27} (he : e.toNat = t) (ht : t < 2 ^ 31)
    (ha : (t : ZMod 27) = a) : Offset ((e.srem alphaSize).setWidth 16) a := by
  obtain rfl : e = BitVec.ofNat 32 t := by rw [← he, BitVec.ofNat_toNat, BitVec.setWidth_eq]
  exact ha ▸ offset_srem ht

theorem Offset.toNat_eq {c : JChar} {t : ℕ} (h : Offset c t) : c.toNat = t % 27 := by
  rw [← Nat.mod_eq_of_lt h.lt]
  exact (ZMod.natCast_eq_natCast_iff' _ _ 27).mp h.eq

theorem offset_new {c : JChar} (hc : Letter c) (keys : List Key) :
    Offset (new c keys).indMessage (place c) := by
  have hlt : c.toNat - 64 < 27 := Nat.sub_lt_left_of_lt_add hc.1 (Nat.lt_succ_of_le hc.2)
  have hval : (new c keys).indMessage.toNat = c.toNat - 64 := by
    rw [new, BitVec.toNat_setWidth, hc.widen.toNat_sub_base, toNat_widen]
    exact Nat.mod_eq_of_lt (hlt.trans (by decide))
  exact ⟨hval ▸ hlt, by rw [hval, place]⟩

/-- The letter of an offset is in the alphabet, and has that place. -/
theorem Offset.letter {m : IndMessage} {a : ZMod 27} (h : Offset m.indMessage a) :
    Letter m.getIndMessage ∧ place m.getIndMessage = a := by
  have hlt := h.lt
  have hval : m.getIndMessage.toNat = m.indMessage.toNat + 64 := by
    simp only [getIndMessage, base, BitVec.toNat_setWidth, BitVec.toNat_add, BitVec.toNat_ofNat]
    omega
  refine ⟨⟨by omega, by omega⟩, ?_⟩
  rw [place, hval, Nat.add_sub_cancel, h.eq]

/-- What a key adds to the offset. -/
def shift (k : Key) : ZMod 27 := if k.op = some .ADD then place k.key else -place k.key

/-- One key moves the offset by its place in the alphabet. -/
theorem Offset.encodeKey {c : JChar} {a : ZMod 27} (h : Offset c a) {k : Key}
    (hletter : Letter k.key) (hop : k.op ≠ none) :
    ∃ c', encodeKey c k = some c' ∧ Offset c' (a + shift k) := by
  have hlo : 64 ≤ k.key.toNat := hletter.1
  have hhi : k.key.toNat ≤ 90 := hletter.2
  have hlt := h.lt
  rcases hk : k.op with _ | _ | _
  · exact absurd hk hop
  · refine ⟨_, by rw [IndMessage.encodeKey, hk], ?_⟩
    refine Offset.of_int (t := c.toNat + (k.key.toNat - 64)) ?_ (by omega) ?_
    · rw [BitVec.toNat_add, toNat_widen, hletter.toNat_sub_base]
      exact Nat.mod_eq_of_lt (by omega)
    · rw [shift, if_pos hk, Nat.cast_add, h.eq, place]
  · refine ⟨_, by rw [IndMessage.encodeKey, hk], ?_⟩
    refine Offset.of_int (t := c.toNat + (27 - (k.key.toNat - 64))) ?_ (by omega) ?_
    · -- the difference may wrap, the sum does not
      rw [BitVec.toNat_add, BitVec.toNat_sub, toNat_widen, hletter.toNat_sub_base, alphaSize,
        BitVec.toNat_ofNat]
      omega
    · rw [shift, hk, if_neg (by decide), Nat.cast_add, h.eq, Nat.cast_sub (by omega), place,
        ZMod.natCast_self 27, zero_sub]

theorem Offset.encodeLoop {ks : List Key} (hks : ∀ k ∈ ks, Letter k.key ∧ k.op ≠ none)
    {c : JChar} {a : ZMod 27} (h : Offset c a) :
    ∃ c', encodeLoop c ks = some c' ∧ Offset c' (a + (ks.map shift).sum) := by
  induction ks generalizing c a with
  | nil => exact ⟨c, rfl, by simpa using h⟩
  | cons k ks ih =>
    obtain ⟨hletter, hop⟩ := hks k (List.mem_cons_self ..)
    obtain ⟨c₁, hc₁, h₁⟩ := h.encodeKey hletter hop
    obtain ⟨c', hc', h'⟩ := ih (fun k' hk' => hks k' (List.mem_cons_of_mem k hk')) h₁
    refine ⟨c', ?_, ?_⟩
    · rw [IndMessage.encodeLoop, hc₁]
      exact hc'
    · rwa [List.map_cons, List.sum_cons, ← add_assoc]

/-- Combining adds the places of the letters. -/
theorem Offset.combineLoop {ms : List JChar} (hms : ∀ m ∈ ms, Letter m) {temp : JChar}
    {a : ZMod 27} (h : Offset temp a) :
    Offset (combineLoop temp ms) (a + (ms.map place).sum) := by
  induction ms generalizing temp a with
  | nil => simpa [IndMessage.combineLoop] using h
  | cons m ms ih =>
    have hletter := hms m (List.mem_cons_self ..)
    have hlo : 64 ≤ m.toNat := hletter.1
    have hhi : m.toNat ≤ 90 := hletter.2
    have hlt := h.lt
    rw [List.map_cons, List.sum_cons, ← add_assoc]
    refine ih (fun m' hm' => hms m' (List.mem_cons_of_mem m hm')) ?_
    refine Offset.of_int (t := temp.toNat + (m.toNat - 64) + 27) ?_ (by omega) ?_
    · rw [BitVec.toNat_add, BitVec.toNat_add, toNat_widen, hletter.widen.toNat_sub_base,
        toNat_widen, alphaSize, BitVec.toNat_ofNat]
      omega
    · rw [Nat.cast_add, Nat.cast_add, h.eq, ZMod.natCast_self 27, add_zero, place]

/-! ## Key graphs -/

section Graph

variable {n : ℕ}

/-- A key value shared by two participants. -/
abbrev Shared (n : ℕ) : Type := EdgeMasks.Edge (Fin n) JInt

/-- What the shared keys put into the list of participant `i`: values and operations. -/
def placed (shared : List (Shared n)) (i : Fin n) : List (JInt × Option Keyop) :=
  shared.flatMap fun e =>
    (if e.adder = i then [(e.value, some .ADD)] else []) ++
      if e.subtracter = i then [(e.value, some .SUBTRACT)] else []

/-- The participants hold the shared keys, each in an order of its own. -/
def HoldsKeys (shared : List (Shared n)) (keys : Fin n → List Key) : Prop :=
  ∀ i, ((keys i).map fun k => (k.key, k.op)).Perm (placed shared i)

/-- The same graph, labelled with places in the alphabet. -/
def places (shared : List (Shared n)) : List (EdgeMasks.Edge (Fin n) (ZMod 27)) :=
  shared.map fun e => ⟨place e.value, e.adder, e.subtracter⟩

variable {shared : List (Shared n)} {keys : Fin n → List Key}

theorem HoldsKeys.letter (h : HoldsKeys shared keys) (hshared : ∀ e ∈ shared, Letter e.value)
    (i : Fin n) {k : Key} (hk : k ∈ keys i) : Letter k.key ∧ k.op ≠ none := by
  have hmem : (k.key, k.op) ∈ placed shared i :=
    (h i).mem_iff.mp (List.mem_map.mpr ⟨k, hk, rfl⟩)
  obtain ⟨e, he, hin⟩ := List.mem_flatMap.mp hmem
  have hsome : k.key = e.value ∧ k.op ≠ none := by
    rcases List.mem_append.mp hin with hin | hin
    all_goals
      split_ifs at hin
      · obtain ⟨hvalue, hop⟩ := Prod.mk.inj (List.mem_singleton.mp hin)
        exact ⟨hvalue, by rw [hop]; exact Option.some_ne_none _⟩
      · exact absurd hin List.not_mem_nil
  exact ⟨hsome.1 ▸ hshared e he, hsome.2⟩

/-- A participant's keys move its letter by its mask. -/
theorem HoldsKeys.sum_shift (h : HoldsKeys shared keys) (i : Fin n) :
    ((keys i).map shift).sum = EdgeMasks.mask (places shared) i := by
  have hpair : ∀ l : List Key, (l.map shift).sum =
      ((l.map fun k => (k.key, k.op)).map fun p : JInt × Option Keyop =>
        if p.2 = some .ADD then place p.1 else -place p.1).sum := by
    intro l
    rw [List.map_map]
    rfl
  rw [hpair, ((h i).map _).sum_eq]
  clear h hpair
  induction shared with
  | nil => rfl
  | cons e shared ih =>
    have hmask : EdgeMasks.mask (places (e :: shared)) i =
        EdgeMasks.share i ⟨place e.value, e.adder, e.subtracter⟩ +
          EdgeMasks.mask (places shared) i := rfl
    rw [placed, List.flatMap_cons, List.map_append, List.sum_append, ← placed, ih, hmask,
      EdgeMasks.share]
    congr 1
    split_ifs <;> simp

end Graph

theorem encode_new (c : JChar) (keys : List Key) :
    (new c keys).encode =
      (encodeLoop (new c keys).indMessage keys).map fun indMessage => ⟨indMessage, keys⟩ := rfl

/-- A sum over all participants but one, and that one. -/
theorem add_sum_others {n : ℕ} (a : Fin n → ZMod 27) (p : Fin n) :
    a p + (((List.finRange n).filter (· ≠ p)).map a).sum = ∑ i, a i := by
  have hothers : ((List.finRange n).filter (· ≠ p)).toFinset = Finset.univ.erase p := by
    ext i
    simp
  rw [← List.sum_toFinset a ((List.nodup_finRange n).filter _), hothers,
    Finset.add_sum_erase _ a (Finset.mem_univ p)]

/-- **The cipher cancels over any key graph.** Each shared value stands with `ADD` in the list of
one participant and with `SUBTRACT` in the list of one participant, at any place; then every
participant's encoding is a letter, and whoever combines the letters, in whatever order, reads
the sum of all messages modulo 27: the one message sent, if only one was. -/
theorem combineMessages_eq {n : ℕ} {shared : List (Shared n)} {keys : Fin n → List Key}
    {message : Fin n → JChar} (hshared : ∀ e ∈ shared, Letter e.value)
    (hkeys : HoldsKeys shared keys) (hmessage : ∀ i, Letter (message i)) :
    ∃ encoded : Fin n → IndMessage,
      (∀ i, (new (message i) (keys i)).encode = some (encoded i)) ∧
      (∀ i, Letter (encoded i).getIndMessage) ∧
      ∀ (p : Fin n) (others : List JChar),
        others.Perm (((List.finRange n).filter (· ≠ p)).map fun i => (encoded i).getIndMessage) →
        (encoded p).combineMessages others =
            BitVec.ofNat 16 (64 + (∑ i, ((message i).toNat - 64)) % 27) ∧
          ∀ s, (∀ i, i ≠ s → message i = JChar.ofChar '@') →
            (encoded p).combineMessages others = message s := by
  have hencode : ∀ i, ∃ c, (new (message i) (keys i)).encode = some ⟨c, keys i⟩ ∧
      Offset c (place (message i) + EdgeMasks.mask (places shared) i) := by
    intro i
    obtain ⟨c, hc, hoffset⟩ := (offset_new (hmessage i) (keys i)).encodeLoop
      fun k hk => hkeys.letter hshared i hk
    exact ⟨c, by rw [encode_new, hc]; rfl, hkeys.sum_shift i ▸ hoffset⟩
  choose c hc hoffset using hencode
  have hletter := fun i => Offset.letter (m := ⟨c i, keys i⟩) (hoffset i)
  refine ⟨fun i => ⟨c i, keys i⟩, hc, fun i => (hletter i).1, fun p others hothers => ?_⟩
  -- the offset of the result is the sum of all places, since the masks cancel
  have hall : ∀ m ∈ others, Letter m := by
    intro m hm
    obtain ⟨i, -, rfl⟩ := List.mem_map.mp (hothers.mem_iff.mp hm)
    exact (hletter i).1
  have hsum : place (message p) + EdgeMasks.mask (places shared) p + (others.map place).sum =
      ((∑ i, ((message i).toNat - 64) : ℕ) : ZMod 27) := by
    rw [(hothers.map place).sum_eq, List.map_map]
    have hplace : (place ∘ fun i => (⟨c i, keys i⟩ : IndMessage).getIndMessage) =
        fun i => place (message i) + EdgeMasks.mask (places shared) i :=
      funext fun i => (hletter i).2
    rw [hplace, add_sum_others (fun i => place (message i) + EdgeMasks.mask (places shared) i) p,
      Finset.sum_add_distrib, EdgeMasks.sum_mask, add_zero, Nat.cast_sum]
    rfl
  have hcombined := (hoffset p).combineLoop hall
  rw [hsum] at hcombined
  have hval := hcombined.toNat_eq
  have hresult : (⟨c p, keys p⟩ : IndMessage).combineMessages others =
      BitVec.ofNat 16 (64 + (∑ i, ((message i).toNat - 64)) % 27) := by
    apply BitVec.eq_of_toNat_eq
    simp only [combineMessages, base, BitVec.toNat_setWidth, BitVec.toNat_add,
      BitVec.toNat_ofNat, hval]
    omega
  refine ⟨hresult, fun s hs => ?_⟩
  have honly : ∑ i, ((message i).toNat - 64) = (message s).toNat - 64 := by
    refine Finset.sum_eq_single s (fun i _ hi => ?_) fun hnot => absurd (Finset.mem_univ s) hnot
    rw [hs i hi]
    rfl
  obtain ⟨hlo, hhi⟩ := hmessage s
  rw [hresult, honly]
  apply BitVec.eq_of_toNat_eq
  rw [BitVec.toNat_ofNat]
  omega

/-- `TestAddition`: the second of three participants sends `'A'`, and the first one reads it. -/
theorem combineMessages_testAddition :
    let key (c : Char) (op : Keyop) : Key := ⟨⟨0, 0, 0⟩, (JChar.ofChar c).setWidth 32, some op⟩
    ∃ encoded : Fin 3 → IndMessage,
      (new (JChar.ofChar '@') [key 'B' .SUBTRACT, key 'C' .ADD]).encode = some (encoded 0) ∧
      (new (JChar.ofChar 'A') [key 'B' .ADD, key 'D' .SUBTRACT]).encode = some (encoded 1) ∧
      (new (JChar.ofChar '@') [key 'C' .SUBTRACT, key 'D' .ADD]).encode = some (encoded 2) ∧
      (encoded 0).combineMessages
        [(encoded 1).getIndMessage, (encoded 2).getIndMessage] = JChar.ofChar 'A' := by
  intro key
  obtain ⟨encoded, hencoded, -, hcombine⟩ := @combineMessages_eq 3
    [⟨66#32, 1, 0⟩, ⟨67#32, 0, 2⟩, ⟨68#32, 2, 1⟩]
    ![[key 'B' .SUBTRACT, key 'C' .ADD], [key 'B' .ADD, key 'D' .SUBTRACT],
      [key 'C' .SUBTRACT, key 'D' .ADD]]
    ![JChar.ofChar '@', JChar.ofChar 'A', JChar.ofChar '@']
    (by decide) (by unfold HoldsKeys; decide) (by decide)
  refine ⟨encoded, hencoded 0, hencoded 1, hencoded 2, ?_⟩
  exact (hcombine 0 _ (List.Perm.refl _)).2 1 (by decide)

end IndMessage

end DiningCrypto
