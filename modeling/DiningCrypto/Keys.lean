import DiningCrypto.Java
import DiningCrypto.PairMask
import Mathlib.Algebra.BigOperators.Fin

/-!
# Keys, keysets and their generation

The server's key material: `Key`, `KeySet` (a `HashSet<Key>` with its signed sum) and the
doubly nested loop of `SharedServerInfo.generateKeySets`, which draws one value for every
pair `i < j` of clients and places it with `ADD` in the set of `i` and with `SUBTRACT` in
the set of `j`.

`Key` overrides neither `equals` nor `hashCode`, so a `HashSet<Key>` compares its elements
by identity. A key object is created once for every run of the generation loop, every pair
and every operation; `KeyRef` and the operation together name it, and two keys are the same
element exactly when these agree, whatever their values.

The loop is solved in closed form (`getElem?_generateKeySets`), and the sum of client `i`'s
set is its pairwise mask (`sum_keyset`), so that everything known about masks applies to the
sets the server hands out.
-/

namespace DiningCrypto

open PairMask

/-- `Keyop`: what a client does with a key. -/
inductive Keyop : Type where
  | ADD
  | SUBTRACT
  deriving DecidableEq, Repr

/-- The evaluation of `Key.generateRandomKey()` that a key object stems from: the run of
`generateKeySets` and the pair of the two loop counters. -/
structure KeyRef : Type where
  run : ℕ
  lower : ℕ
  upper : ℕ
  deriving DecidableEq, Repr

/-- A `Key` object. The operation is `null` on a key fresh from `generateRandomKey`. -/
structure Key : Type where
  /-- where the object was created -/
  ref : KeyRef
  key : JInt
  op : Option Keyop
  deriving DecidableEq, Repr

namespace Key

/-- Identity of two key objects. -/
def Same (k k' : Key) : Prop := k.ref = k'.ref ∧ k.op = k'.op

instance : DecidableRel Same := fun _ _ => inferInstanceAs (Decidable (_ ∧ _))

/-- `Key.generateRandomKey`: a key without operation; `value` is what
`RandomGenerator.generateInt` returned. -/
def generateRandomKey (ref : KeyRef) (value : JInt) : Key := ⟨ref, value, none⟩

/-- The value as `KeySet.sum` counts it. -/
def signed (k : Key) : JInt := if k.op = some .ADD then k.key else -k.key

end Key

/-- `RandomGenerator.generateInt` on the four bytes drawn. The byte `b[1]` is used three
times; `b[2]` and `b[3]` are not used. -/
def RandomGenerator.generateInt (b : Fin 4 → Byte) : JInt :=
  (b 0).signExtend 32 +
    (b 1).signExtend 32 * 127#32 +
    (b 1).signExtend 32 * 127#32 * 127#32 +
    (b 1).signExtend 32 * 127#32 * 127#32 * 127#32

/-! ## Keysets -/

/-- A `KeySet`: the elements of its `HashSet<Key>`, no two of them the same object, listed
in the order in which the set iterates over them. -/
structure KeySet : Type where
  keys : List Key
  distinct : keys.Pairwise fun k k' => ¬ k.Same k'

namespace KeySet

/-- `new KeySet()`. -/
def empty : KeySet := ⟨[], List.Pairwise.nil⟩

/-- `addKey`: `HashSet.add`, which ignores an object that is already in the set. -/
def addKey (ks : KeySet) (key : Key) : KeySet :=
  if h : ∃ k ∈ ks.keys, k.Same key then ks
  else
    { keys := ks.keys ++ [key]
      distinct := List.pairwise_append.mpr ⟨ks.distinct, List.pairwise_singleton _ _,
        fun k hk _ hk' hs => h ⟨k, hk, List.mem_singleton.mp hk' ▸ hs⟩⟩ }

/-- The loop of `sum`. -/
def sumLoop : JInt → List Key → JInt
  | sum, [] => sum
  | sum, k :: ks => sumLoop (if k.op = some .ADD then sum + k.key else sum - k.key) ks

/-- `sum`: add the `ADD` keys, subtract the others, in wrapping arithmetic. -/
def sum (ks : KeySet) : JInt := sumLoop 0 ks.keys

/-- The same set, iterated over in another order. -/
def SameSet (ks ks' : KeySet) : Prop := ks.keys.Perm ks'.keys

/-- What the holder of the set can read off it: the multiset of values and operations. -/
def contents (ks : KeySet) : Multiset (JInt × Option Keyop) :=
  (ks.keys : Multiset Key).map fun k => (k.key, k.op)

theorem sumLoop_eq (sum : JInt) (l : List Key) :
    sumLoop sum l = sum + (l.map Key.signed).sum := by
  induction l generalizing sum with
  | nil => rw [sumLoop, List.map_nil, List.sum_nil, add_zero]
  | cons k l ih =>
    rw [sumLoop, ih, List.map_cons, List.sum_cons, ← add_assoc, Key.signed]
    by_cases hop : k.op = some .ADD
    · rw [if_pos hop, if_pos hop]
    · rw [if_neg hop, if_neg hop, sub_eq_add_neg]

theorem sum_eq (ks : KeySet) : ks.sum = (ks.keys.map Key.signed).sum := by
  rw [sum, sumLoop_eq, zero_add]

/-- The sum does not depend on the iteration order. -/
theorem SameSet.sum_eq {ks ks' : KeySet} (h : ks.SameSet ks') : ks.sum = ks'.sum := by
  rw [KeySet.sum_eq, KeySet.sum_eq]
  exact (h.map _).sum_eq

theorem keys_addKey {ks : KeySet} {key : Key} (h : ∀ k ∈ ks.keys, ¬ k.Same key) :
    (ks.addKey key).keys = ks.keys ++ [key] := by
  have hno : ¬ ∃ k ∈ ks.keys, k.Same key := fun ⟨k, hk, hs⟩ => h k hk hs
  rw [addKey, dif_neg hno]

/-- Adding objects that are all new appends them: no key is lost, whatever the values. -/
theorem keys_foldl_addKey :
    ∀ (l : List Key) (ks : KeySet),
      (ks.keys ++ l).Pairwise (fun k k' => ¬ k.Same k') →
      (l.foldl addKey ks).keys = ks.keys ++ l
  | [], ks, _ => by rw [List.foldl_nil, List.append_nil]
  | key :: l, ks, h => by
    have hnew : ∀ k ∈ ks.keys, ¬ k.Same key := fun k hk =>
      (List.pairwise_append.mp h).2.2 k hk key (List.mem_cons_self ..)
    have hkeys := keys_addKey hnew
    have h' : ((ks.addKey key).keys ++ l).Pairwise (fun k k' => ¬ k.Same k') := by
      rwa [hkeys, List.append_assoc, List.singleton_append]
    rw [List.foldl_cons, keys_foldl_addKey l _ h', hkeys, List.append_assoc,
      List.singleton_append]

end KeySet

/-! ## `SharedServerInfo.generateKeySets` -/

section Generate

variable (run n : ℕ) (draw : ℕ → ℕ → JInt)

/-- The key drawn for the pair `(i, j)`, with the operation of its lower client. -/
def addKeyOf (i j : ℕ) : Key :=
  { Key.generateRandomKey ⟨run, i, j⟩ (draw i j) with op := some .ADD }

/-- The key drawn for the pair `(i, j)`, with the operation of its upper client. -/
def subtractKeyOf (i j : ℕ) : Key :=
  { Key.generateRandomKey ⟨run, i, j⟩ (draw i j) with op := some .SUBTRACT }

/-- The body of the inner loop: `keysets[i].addKey(kp); keysets[j].addKey(kn)`. -/
def placeKey (keysets : List KeySet) (i j : ℕ) : List KeySet :=
  (keysets.modify i (·.addKey (addKeyOf run draw i j))).modify j
    (·.addKey (subtractKeyOf run draw i j))

/-- The inner loop, `for (int j=i+1 ; j<numberClients ; j++)`. -/
def placeKeysFrom (keysets : List KeySet) (i : ℕ) : List KeySet :=
  (List.range' (i + 1) (n - (i + 1))).foldl (fun kss j => placeKey run draw kss i j) keysets

/-- `generateKeySets`: an empty set for each client, then one key for every pair. `run`
counts the runs of the method; `draw i j` is what `generateInt` returned for the pair. -/
def generateKeySets : List KeySet :=
  (List.range (n - 1)).foldl (placeKeysFrom run n draw) (List.replicate n KeySet.empty)

/-- The keys the run makes for client `c`, in the order in which the loop makes them. -/
def clientKeys (c : ℕ) : List Key :=
  (List.range c).map (fun i => subtractKeyOf run draw i c) ++
    (List.range' (c + 1) (n - (c + 1))).map (fun j => addKeyOf run draw c j)

/-- The keys one iteration of the inner loop makes for client `c`. -/
def keysFor (c i j : ℕ) : List Key :=
  (if i = c then [addKeyOf run draw i j] else []) ++
    (if j = c then [subtractKeyOf run draw i j] else [])

@[simp] theorem length_placeKey (kss : List KeySet) (i j : ℕ) :
    (placeKey run draw kss i j).length = kss.length := by
  simp [placeKey]

/-- One iteration adds to client `c`'s set the keys it makes for `c`. -/
theorem getElem?_placeKey (kss : List KeySet) (i j c : ℕ) :
    (placeKey run draw kss i j)[c]? =
      kss[c]?.map fun ks => (keysFor run draw c i j).foldl KeySet.addKey ks := by
  rw [placeKey, List.getElem?_modify, List.getElem?_modify, keysFor]
  by_cases hi : i = c <;> by_cases hj : j = c <;>
    simp [hi, hj, Function.comp_def]

/-- The pairs in the order of the two loops. -/
def loopPairs : List (ℕ × ℕ) :=
  (List.range (n - 1)).flatMap fun i =>
    (List.range' (i + 1) (n - (i + 1))).map fun j => (i, j)

theorem generateKeySets_eq_foldl :
    generateKeySets run n draw =
      (loopPairs n).foldl (fun kss p => placeKey run draw kss p.1 p.2)
        (List.replicate n KeySet.empty) := by
  rw [loopPairs, List.foldl_flatMap]
  simp only [List.foldl_map]
  rfl

/-- The loop invariant: after any list of iterations client `c`'s set has received, in
order, the keys these iterations made for `c`. -/
theorem getElem?_foldl_placeKey (c : ℕ) :
    ∀ (pairs : List (ℕ × ℕ)) (kss : List KeySet),
      (pairs.foldl (fun kss p => placeKey run draw kss p.1 p.2) kss)[c]? =
        kss[c]?.map fun ks =>
          (pairs.flatMap fun p => keysFor run draw c p.1 p.2).foldl KeySet.addKey ks
  | [], kss => by simp
  | p :: pairs, kss => by
    rw [List.foldl_cons, getElem?_foldl_placeKey c pairs, getElem?_placeKey, Option.map_map,
      List.flatMap_cons]
    simp only [List.foldl_append]
    rfl

/-- What one run of the inner loop makes for client `c`. -/
theorem flatMap_keysFor_inner {c i : ℕ} (hc : c < n) :
    ((List.range' (i + 1) (n - (i + 1))).flatMap fun j => keysFor run draw c i j) =
      if i < c then [subtractKeyOf run draw i c]
      else if i = c then
        (List.range' (c + 1) (n - (c + 1))).map fun j => addKeyOf run draw c j
      else [] := by
  rcases lt_trichotomy i c with hlt | rfl | hgt
  · -- only the iteration `j = c` concerns `c`, and it is reached
    rw [if_pos hlt]
    have hsplit : List.range' (i + 1) (n - (i + 1)) =
        List.range' (i + 1) (c - (i + 1)) ++ c :: List.range' (c + 1) (n - (c + 1)) := by
      have hcons : c :: List.range' (c + 1) (n - (c + 1)) = List.range' c (n - c) := by
        rw [show n - c = n - (c + 1) + 1 by omega, List.range'_succ]
      have happ := List.range'_append_1 (s := i + 1) (m := c - (i + 1)) (n := n - c)
      rw [show i + 1 + (c - (i + 1)) = c by omega,
        show c - (i + 1) + (n - c) = n - (i + 1) by omega] at happ
      rw [hcons, happ]
    have hnone : ∀ (l : List ℕ), (∀ j ∈ l, j ≠ c) →
        (l.flatMap fun j => keysFor run draw c i j) = [] := by
      intro l hl
      refine List.flatMap_eq_nil_iff.mpr fun j hj => ?_
      rw [keysFor, if_neg (ne_of_lt hlt), if_neg (hl j hj), List.append_nil]
    rw [hsplit, List.flatMap_append, List.flatMap_cons,
      hnone _ (fun j hj => by rw [List.mem_range'_1] at hj; omega),
      hnone _ (fun j hj => by rw [List.mem_range'_1] at hj; omega),
      keysFor, if_neg (ne_of_lt hlt), if_pos rfl]
    simp
  · rw [if_neg (lt_irrefl i), if_pos rfl, List.map_eq_flatMap]
    refine List.flatMap_congr fun j hj => ?_
    rw [List.mem_range'_1] at hj
    rw [keysFor, if_pos rfl, if_neg (show j ≠ i by omega), List.append_nil]
  · rw [if_neg (lt_asymm hgt), if_neg (ne_of_gt hgt)]
    refine List.flatMap_eq_nil_iff.mpr fun j hj => ?_
    rw [List.mem_range'_1] at hj
    rw [keysFor, if_neg (ne_of_gt hgt), if_neg (show j ≠ c by omega), List.append_nil]

/-- What the two loops make for client `c`: first the outer iterations below `c`, each with
its one key, then the iteration `c` itself, then nothing more. -/
theorem flatMap_keysFor {c : ℕ} (hc : c < n) :
    ((loopPairs n).flatMap fun p => keysFor run draw c p.1 p.2) = clientKeys run n draw c := by
  rw [loopPairs, List.flatMap_assoc]
  simp only [List.flatMap_map, flatMap_keysFor_inner run n draw hc]
  have hbelow : ((List.range c).flatMap fun i =>
      if i < c then [subtractKeyOf run draw i c]
      else if i = c then
        (List.range' (c + 1) (n - (c + 1))).map fun j => addKeyOf run draw c j
      else []) = (List.range c).map fun i => subtractKeyOf run draw i c := by
    refine Eq.trans (List.flatMap_congr fun i hi => ?_) List.map_eq_flatMap.symm
    exact if_pos (List.mem_range.mp hi)
  rw [clientKeys, ← hbelow]
  rcases Nat.lt_or_ge c (n - 1) with hlast | hlast
  · have hrange : List.range (n - 1) =
        List.range c ++ c :: List.range' (c + 1) (n - 1 - (c + 1)) := by
      have happ := List.range'_append_1 (s := 0) (m := c) (n := n - 1 - c)
      rw [Nat.zero_add, show c + (n - 1 - c) = n - 1 by omega] at happ
      rw [List.range_eq_range', List.range_eq_range', ← happ,
        show n - 1 - c = n - 1 - (c + 1) + 1 by omega, List.range'_succ]
    rw [hrange, List.flatMap_append, List.flatMap_cons, if_neg (lt_irrefl c), if_pos rfl]
    have habove : ((List.range' (c + 1) (n - 1 - (c + 1))).flatMap fun i =>
        if i < c then [subtractKeyOf run draw i c]
        else if i = c then
          (List.range' (c + 1) (n - (c + 1))).map fun j => addKeyOf run draw c j
        else []) = [] := by
      refine List.flatMap_eq_nil_iff.mpr fun i hi => ?_
      rw [List.mem_range'_1] at hi
      rw [if_neg (by omega), if_neg (by omega)]
    rw [habove, List.append_nil]
  · -- the last client is never the lower end of a pair
    rw [show n - 1 = c by omega, show n - (c + 1) = 0 by omega, List.range'_zero,
      List.map_nil, List.append_nil]

/-- No two of a client's keys are the same object. -/
theorem clientKeys_distinct (c : ℕ) :
    (clientKeys run n draw c).Pairwise fun k k' => ¬ k.Same k' := by
  refine List.pairwise_append.mpr ⟨?_, ?_, ?_⟩
  · refine List.pairwise_map.mpr ((List.pairwise_lt_range).imp fun {i i'} hlt hs => ?_)
    have : i = i' := congrArg KeyRef.lower hs.1
    omega
  · refine List.pairwise_map.mpr ((List.pairwise_lt_range').imp fun {j j'} hlt hs => ?_)
    have : j = j' := congrArg KeyRef.upper hs.1
    omega
  · intro k hk k' hk' hs
    obtain ⟨i, -, rfl⟩ := List.mem_map.mp hk
    obtain ⟨j, -, rfl⟩ := List.mem_map.mp hk'
    cases hs.2

/-- **The generation loop in closed form**: client `c` gets exactly its keys. -/
theorem getElem?_generateKeySets {c : ℕ} (hc : c < n) :
    ∃ ks, (generateKeySets run n draw)[c]? = some ks ∧ ks.keys = clientKeys run n draw c := by
  rw [generateKeySets_eq_foldl, getElem?_foldl_placeKey, flatMap_keysFor run n draw hc,
    List.getElem?_replicate, if_pos hc]
  refine ⟨_, rfl, ?_⟩
  rw [KeySet.keys_foldl_addKey]
  · rfl
  · exact clientKeys_distinct run n draw c

@[simp] theorem length_generateKeySets : (generateKeySets run n draw).length = n := by
  rw [generateKeySets_eq_foldl]
  suffices h : ∀ (pairs : List (ℕ × ℕ)) (kss : List KeySet),
      (pairs.foldl (fun kss p => placeKey run draw kss p.1 p.2) kss).length = kss.length by
    rw [h, List.length_replicate]
  intro pairs
  induction pairs with
  | nil => exact fun _ => rfl
  | cons p pairs ih => intro kss; rw [List.foldl_cons, ih, length_placeKey]

/-- The set of client `c` in the result of one run. -/
def keyset (c : Fin n) : KeySet :=
  (generateKeySets run n draw).get ⟨c, by rw [length_generateKeySets]; exact c.2⟩

theorem keys_keyset (c : Fin n) : (keyset run n draw c).keys = clientKeys run n draw c := by
  obtain ⟨ks, hks, hkeys⟩ := getElem?_generateKeySets run n draw c.2
  obtain ⟨_, hget⟩ := List.getElem?_eq_some_iff.mp hks
  rw [← hkeys, ← hget]
  rfl

theorem generateKeySets_eq_ofFn :
    generateKeySets run n draw = List.ofFn (keyset run n draw) := by
  refine List.ext_getElem (by simp) fun c h₁ h₂ => ?_
  rw [List.getElem_ofFn]
  rfl

end Generate

/-! ## The sum of a keyset is a mask -/

/-- An assignment of one value to every pair of `n` clients. -/
abbrev PairKeys (n : ℕ) : Type := Edge (Fin n) → JInt

/-- The assignment as the loops draw it. -/
def PairKeys.draw {n : ℕ} (K : PairKeys n) (i j : ℕ) : JInt :=
  if h : i < j ∧ j < n then K ⟨(⟨i, h.1.trans h.2⟩, ⟨j, h.2⟩), h.1⟩ else 0

theorem PairKeys.draw_of_lt {n : ℕ} (K : PairKeys n) {i j : Fin n} (h : i < j) :
    K.draw i j = K ⟨(i, j), h⟩ := dif_pos ⟨h, j.2⟩

theorem sum_signed_subtractKeyOf (run c : ℕ) (draw : ℕ → ℕ → JInt) (l : List ℕ) :
    ((l.map fun i => subtractKeyOf run draw i c).map Key.signed).sum =
      -(l.map fun i => draw i c).sum := by
  induction l with
  | nil => simp
  | cons i l ih =>
    simp only [List.map_cons, List.sum_cons, ih, neg_add]
    rfl

theorem sum_signed_addKeyOf (run c : ℕ) (draw : ℕ → ℕ → JInt) (l : List ℕ) :
    ((l.map fun j => addKeyOf run draw c j).map Key.signed).sum =
      (l.map fun j => draw c j).sum := by
  rw [List.map_map]
  rfl

/-- A sum over the clients on one side of `c` is a sum over a list of loop counters. -/
theorem sum_fin_eq_sum_list {n : ℕ} (f : ℕ → JInt) (p : ℕ → Prop) [DecidablePred p]
    {l : List ℕ} (hl : l.Nodup) (hmem : ∀ j, j ∈ l ↔ j < n ∧ p j) :
    (∑ j : Fin n, if p j then f j else 0) = (l.map f).sum := by
  rw [Fin.sum_univ_eq_sum_range (fun j => if p j then f j else 0) n, ← Finset.sum_filter,
    ← List.sum_toFinset f hl]
  refine Finset.sum_congr (Finset.ext fun j => ?_) fun _ _ => rfl
  rw [Finset.mem_filter, Finset.mem_range, List.mem_toFinset, hmem]

/-- **The sum of a generated keyset is the client's mask.** -/
theorem sum_keyset {n : ℕ} (run : ℕ) (K : PairKeys n) (c : Fin n) :
    (keyset run n K.draw c).sum = mask K c := by
  have hlower : (∑ j : Fin n, if h : j < c then K ⟨(j, c), h⟩ else 0) =
      ((List.range c).map fun i => K.draw i c).sum := by
    rw [← sum_fin_eq_sum_list (n := n) (fun i => K.draw i c) (· < (c : ℕ)) List.nodup_range
      (fun j => by rw [List.mem_range]; omega)]
    refine Finset.sum_congr rfl fun j _ => ?_
    by_cases h : j < c
    · rw [dif_pos h, if_pos (show (j : ℕ) < c from h), PairKeys.draw_of_lt K h]
    · rw [dif_neg h, if_neg (show ¬ (j : ℕ) < c from h)]
  have hupper : (∑ j : Fin n, if h : c < j then K ⟨(c, j), h⟩ else 0) =
      ((List.range' (c + 1) (n - (c + 1))).map fun j => K.draw c j).sum := by
    rw [← sum_fin_eq_sum_list (n := n) (fun j => K.draw c j) ((c : ℕ) < ·) List.nodup_range'
      (fun j => by rw [List.mem_range'_1]; omega)]
    refine Finset.sum_congr rfl fun j _ => ?_
    by_cases h : c < j
    · rw [dif_pos h, if_pos (show (c : ℕ) < j from h), PairKeys.draw_of_lt K h]
    · rw [dif_neg h, if_neg (show ¬ (c : ℕ) < j from h)]
  rw [KeySet.sum_eq, keys_keyset, clientKeys, List.map_append, List.sum_append,
    sum_signed_subtractKeyOf, sum_signed_addKeyOf, mask_eq_sum, hlower, hupper,
    neg_add_eq_sub]

/-- **A complete run cancels**: the sums of the `n` sets add up to zero modulo `2 ^ 32`,
whatever values were drawn. -/
theorem sum_sum_keyset {n : ℕ} (run : ℕ) (K : PairKeys n) :
    ∑ c, (keyset run n K.draw c).sum = 0 := by
  simp only [sum_keyset]
  exact sum_mask K

end DiningCrypto
