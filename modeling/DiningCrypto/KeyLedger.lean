import DiningCrypto.KeyRounds

/-!
# Keysets are handed out once

The calls of `generateKeySets` and `getKeySet` on one `SharedServerInfo`, in any order after
a first `generateKeySets`. The two do not reset each other: a call of `generateKeySets` from
outside replaces the array and leaves the index into it where it is, so that a new array is
handed out from the middle. What saves the keysets from being handed out twice is that the
run and the index, read lexicographically, only ever grow (`Ledger.of_calls`).

A `KeySet` object is named by the run that made it and its index in the array. The objects
handed out are all different, and so are the keys in them: a key names the run and the two
clients it was drawn for, and its operation tells which of the two holds it (`owner`).
-/

namespace DiningCrypto

namespace SharedServerInfo

variable {n : ℕ} (draw : ℕ → PairKeys n)

/-- The two operations on the keysets. -/
inductive Call : Type where
  | generateKeySets
  | getKeySet

/-- What a call of `getKeySet` has returned: the object `keysets[index]` of a run of
`generateKeySets`. -/
structure Handed : Type where
  run : ℕ
  index : ℕ
  set : KeySet

/-- What the calls of `getKeySet` return, in order. `none`: one of them has thrown. -/
def calls : SharedServerInfo n → List Call → Option (List Handed)
  | _, [] => some []
  | info, .generateKeySets :: cs => calls (info.generateKeySets draw) cs
  | info, .getKeySet :: cs =>
    (info.getKeySet draw).bind fun (set, info') =>
      (calls info' cs).map (⟨info'.runs - 1, info'.keysDistributed - 1, set⟩ :: ·)

/-! ## The ledger -/

namespace Handed

/-- The object's place: its run and its index there. -/
def place (h : Handed) : ℕ × ℕ := (h.run, h.index)

/-- The object stands at or behind index `i` of run `g`. -/
def From (g i : ℕ) (h : Handed) : Prop := g < h.run ∨ g = h.run ∧ i ≤ h.index

/-- The object stands before the other. -/
def Before (h h' : Handed) : Prop := h'.From h.run (h.index + 1)

theorem From.weaken {g i g' i' : ℕ} {h : Handed} (hh : h.From g i)
    (hle : g' < g ∨ g' = g ∧ i' ≤ i) : h.From g' i' := by
  unfold From at hh ⊢
  omega

theorem Before.place_ne {h h' : Handed} (hh : h.Before h') : h.place ≠ h'.place := by
  intro heq
  obtain ⟨hrun, hindex⟩ := Prod.mk.inj heq
  unfold Before From at hh
  omega

end Handed

/-- The keysets are those of the last run, and no index is past the end. -/
structure Ready (info : SharedServerInfo n) : Prop where
  keysets : info.keysets = some (deck draw (info.runs - 1))
  runs : 1 ≤ info.runs
  distributed : info.keysDistributed ≤ n

/-- A list of handed out objects, in the order of their places and all of them genuine. -/
structure Ledger (log : List Handed) : Prop where
  before : log.Pairwise Handed.Before
  genuine : ∀ h ∈ log, (deck draw h.run)[h.index]? = some h.set

variable {draw} {info : SharedServerInfo n}

theorem Ready.generateKeySets (h : info.Ready draw) : (info.generateKeySets draw).Ready draw :=
  ⟨rfl, Nat.le_add_left 1 _, h.distributed⟩

theorem ready_new : ((new n).generateKeySets draw).Ready draw := ⟨rfl, le_rfl, Nat.zero_le _⟩

/-- With at least one client, `getKeySet` stays in bounds; it hands out an object at or behind the
present place, and goes on behind it. -/
theorem Ready.getKeySet (h : info.Ready draw) (hn : 1 ≤ n) :
    ∃ set info', info.getKeySet draw = some (set, info') ∧ info'.Ready draw ∧
      (deck draw (info'.runs - 1))[info'.keysDistributed - 1]? = some set ∧
      1 ≤ info'.keysDistributed ∧
      (info.runs < info'.runs ∨
        info.runs = info'.runs ∧ info.keysDistributed + 1 ≤ info'.keysDistributed) := by
  obtain ⟨hkeysets, hruns, hle⟩ := h
  rcases lt_or_eq_of_le hle with hlt | hfull
  · have hset := getElem?_deck draw (info.runs - 1) ⟨info.keysDistributed, hlt⟩
    refine ⟨_, { info with keysDistributed := info.keysDistributed + 1 }, ?_,
      ⟨hkeysets, hruns, hlt⟩, hset, Nat.le_add_left 1 _, Or.inr ⟨rfl, le_rfl⟩⟩
    simp only [SharedServerInfo.getKeySet, if_neg (ne_of_lt hlt), hkeysets, Option.bind_some]
    rw [hset]
    rfl
  · -- used up: a new run is dealt out from its start
    have hset := getElem?_deck draw info.runs ⟨0, hn⟩
    refine ⟨_, { info.generateKeySets draw with keysDistributed := 1 }, ?_,
      ⟨rfl, Nat.le_add_left 1 _, hn⟩, hset, le_rfl, Or.inl (Nat.lt_succ_self _)⟩
    simp only [SharedServerInfo.getKeySet, if_pos hfull, SharedServerInfo.generateKeySets,
      Option.bind_some]
    exact congrArg (Option.map _) hset

/-- **The ledger**: whatever the order of the calls, nothing throws, and the objects handed out
come in the order of their places. -/
theorem Ledger.of_calls (draw : ℕ → PairKeys n) (h : info.Ready draw) (hn : 1 ≤ n)
    (cs : List Call) :
    ∃ log, calls draw info cs = some log ∧ Ledger draw log ∧
      ∀ h ∈ log, h.From (info.runs - 1) info.keysDistributed := by
  induction cs generalizing info with
  | nil => exact ⟨[], rfl, ⟨List.Pairwise.nil, by simp⟩, by simp⟩
  | cons c cs ih =>
    have hruns := h.runs
    cases c with
    | generateKeySets =>
      obtain ⟨log, hlog, hledger, hfrom⟩ := ih h.generateKeySets
      refine ⟨log, hlog, hledger, fun hd hmem => (hfrom hd hmem).weaken ?_⟩
      simp only [SharedServerInfo.generateKeySets]
      omega
    | getKeySet =>
      obtain ⟨set, info', hget, hready, hset, hone, hadvance⟩ := h.getKeySet hn
      obtain ⟨log, hlog, hledger, hfrom⟩ := ih hready
      have hruns' := hready.runs
      refine ⟨⟨info'.runs - 1, info'.keysDistributed - 1, set⟩ :: log, ?_, ⟨?_, ?_⟩, ?_⟩
      · rw [calls, hget, Option.bind_some]
        simp only [hlog, Option.map_some]
      · refine List.pairwise_cons.mpr ⟨fun hd hmem => ?_, hledger.before⟩
        have hnext : info'.keysDistributed - 1 + 1 = info'.keysDistributed := by omega
        simp only [Handed.Before, hnext]
        exact hfrom hd hmem
      · intro hd hmem
        rcases List.mem_cons.mp hmem with rfl | hmem
        · exact hset
        · exact hledger.genuine hd hmem
      · intro hd hmem
        rcases List.mem_cons.mp hmem with rfl | hmem
        · unfold Handed.From
          simp only
          omega
        · refine (hfrom hd hmem).weaken ?_
          omega

end SharedServerInfo

/-! ## The keys in the sets -/

/-- A key's run, its two clients and its operation tell whose it is. -/
theorem owner {run n c : ℕ} {draw : ℕ → ℕ → JInt} {k : Key} (hk : k ∈ clientKeys run n draw c) :
    k.ref.run = run ∧
      (k.op = some .ADD ∧ k.ref.lower = c ∨ k.op = some .SUBTRACT ∧ k.ref.upper = c) := by
  rcases List.mem_append.mp hk with hk | hk
  · obtain ⟨i, -, rfl⟩ := List.mem_map.mp hk
    exact ⟨rfl, Or.inr ⟨rfl, rfl⟩⟩
  · obtain ⟨j, -, rfl⟩ := List.mem_map.mp hk
    exact ⟨rfl, Or.inl ⟨rfl, rfl⟩⟩

theorem length_clientKeys {run n c : ℕ} (draw : ℕ → ℕ → JInt) (hc : c < n) :
    (clientKeys run n draw c).length = n - 1 := by
  simp only [clientKeys, List.length_append, List.length_map, List.length_range,
    List.length_range']
  omega

/-- Among keys that are all different objects, one run, pair and operation occurs once. -/
theorem length_filter_le_one {l : List Key} (h : l.Pairwise fun k k' => ¬ k.Same k')
    (ref : KeyRef) (op : Keyop) :
    (l.filter fun k => k.ref = ref ∧ k.op = some op).length ≤ 1 := by
  have hpair := h.filter fun k => decide (k.ref = ref ∧ k.op = some op)
  have hmem : ∀ k ∈ l.filter fun k => k.ref = ref ∧ k.op = some op,
      k.ref = ref ∧ k.op = some op := fun k hk => by simpa using (List.mem_filter.mp hk).2
  rcases hl : l.filter fun k => k.ref = ref ∧ k.op = some op with _ | ⟨k, _ | ⟨k', rest⟩⟩
  · rw [hl]
    exact Nat.zero_le 1
  · rw [hl]
    exact le_rfl
  · rw [hl] at hpair hmem
    obtain ⟨href, hop⟩ := hmem k (by simp)
    obtain ⟨href', hop'⟩ := hmem k' (by simp)
    exact absurd ⟨href.trans href'.symm, hop.trans hop'.symm⟩
      ((List.pairwise_cons.mp hpair).1 k' (by simp))

namespace SharedServerInfo

variable {n : ℕ} {draw : ℕ → PairKeys n} {log : List Handed} {h : Handed}

namespace Ledger

/-- An object handed out is the set of one client in one run. -/
theorem keys_eq (hl : Ledger draw log) (hmem : h ∈ log) :
    h.index < n ∧ h.set.keys = clientKeys h.run n (draw h.run).draw h.index := by
  have hget := hl.genuine h hmem
  have hlt : h.index < n := by
    obtain ⟨hlt, -⟩ := List.getElem?_eq_some_iff.mp hget
    rwa [deck, length_generateKeySets] at hlt
  refine ⟨hlt, ?_⟩
  rw [getElem?_deck draw h.run ⟨h.index, hlt⟩, Option.some.injEq] at hget
  rw [← hget]
  exact keys_keyset h.run n _ ⟨h.index, hlt⟩

theorem nodup (hl : Ledger draw log) : (log.map Handed.place).Nodup :=
  List.pairwise_map.mpr (hl.before.imp Handed.Before.place_ne)

/-- A key stands in the set of its lower or of its upper client. -/
theorem place_of_mem (hl : Ledger draw log) (hmem : h ∈ log) {k : Key} (hk : k ∈ h.set.keys) :
    k.op = some .ADD ∧ h.place = (k.ref.run, k.ref.lower) ∨
      k.op = some .SUBTRACT ∧ h.place = (k.ref.run, k.ref.upper) := by
  rw [(hl.keys_eq hmem).2] at hk
  obtain ⟨hrun, ⟨hop, hlower⟩ | ⟨hop, hupper⟩⟩ := owner hk
  · exact Or.inl ⟨hop, Prod.ext hrun.symm hlower.symm⟩
  · exact Or.inr ⟨hop, Prod.ext hrun.symm hupper.symm⟩

/-- All keys in all sets handed out are different objects. -/
theorem distinct (hl : Ledger draw log) :
    (log.flatMap fun h => h.set.keys).Pairwise fun k k' => ¬ k.Same k' := by
  refine List.pairwise_flatMap.mpr ⟨fun h _ => h.set.distinct, ?_⟩
  refine hl.before.imp_of_mem fun {h h'} hmem hmem' hbefore k hk k' hk' hsame => ?_
  obtain ⟨href, hop⟩ := hsame
  apply hbefore.place_ne
  rcases hl.place_of_mem hmem hk with ⟨hadd, hplace⟩ | ⟨hsub, hplace⟩
  · rcases hl.place_of_mem hmem' hk' with ⟨-, hplace'⟩ | ⟨hsub', -⟩
    · rw [hplace, hplace', href]
    · rw [hop, hsub'] at hadd
      cases hadd
  · rcases hl.place_of_mem hmem' hk' with ⟨hadd', -⟩ | ⟨-, hplace'⟩
    · rw [hop, hadd'] at hsub
      cases hsub
    · rw [hplace, hplace', href]

/-- The sets that hold a key of one run and pair. -/
theorem length_filter_le_two (hl : Ledger draw log) (ref : KeyRef) :
    (log.filter fun h => ref ∈ h.set.keys.map Key.ref).length ≤ 2 := by
  have hnodup : ((log.filter fun h => ref ∈ h.set.keys.map Key.ref).map Handed.place).Nodup :=
    hl.nodup.sublist (List.filter_sublist.map _)
  have hsub : ((log.filter fun h => ref ∈ h.set.keys.map Key.ref).map Handed.place) ⊆
      [(ref.run, ref.lower), (ref.run, ref.upper)] := by
    intro p hp
    obtain ⟨h, hh, rfl⟩ := List.mem_map.mp hp
    obtain ⟨hmem, hin⟩ := List.mem_filter.mp hh
    obtain ⟨k, hk, rfl⟩ := List.mem_map.mp (by simpa using hin)
    rcases hl.place_of_mem hmem hk with ⟨-, hplace⟩ | ⟨-, hplace⟩
    · rw [hplace]
      simp
    · rw [hplace]
      simp
  simpa using (hnodup.subperm hsub).length_le

end Ledger

/-- **Keysets are one-time.** For any number of clients and any calls after a first
`generateKeySets`: no `getKeySet` throws, each returns a set of `n - 1` keys, no object is
returned twice, and a key of one run and pair is in at most two of the sets, once to be added
and once to be subtracted. -/
theorem calls_one_time (draw : ℕ → PairKeys n) (hn : 1 ≤ n) (cs : List Call) :
    ∃ log, calls draw (new n) (.generateKeySets :: cs) = some log ∧
      (∀ h ∈ log, (deck draw h.run)[h.index]? = some h.set ∧ h.set.keys.length = n - 1) ∧
      (log.map Handed.place).Nodup ∧
      ∀ ref : KeyRef, (log.filter fun h => ref ∈ h.set.keys.map Key.ref).length ≤ 2 ∧
        ∀ op : Keyop, ((log.flatMap fun h => h.set.keys).filter
          fun k => k.ref = ref ∧ k.op = some op).length ≤ 1 := by
  obtain ⟨log, hlog, hledger, -⟩ := Ledger.of_calls draw ready_new hn cs
  refine ⟨log, hlog, fun h hmem => ⟨hledger.genuine h hmem, ?_⟩, hledger.nodup,
    fun ref => ⟨hledger.length_filter_le_two ref,
      fun op => length_filter_le_one hledger.distinct ref op⟩⟩
  obtain ⟨hlt, hkeys⟩ := hledger.keys_eq hmem
  rw [hkeys, length_clientKeys _ hlt]

/-- Two clients, with a further `generateKeySets` in the middle of an array: the second array is
handed out from its index 1, and its first keyset never. -/
theorem calls_one_time_middle :
    ∃ log, calls (fun _ => 0 : ℕ → PairKeys 2) (new 2)
        [.generateKeySets, .getKeySet, .generateKeySets, .getKeySet, .getKeySet] = some log ∧
      (log.map Handed.place).Nodup := by
  obtain ⟨log, hlog, -, hnodup, -⟩ := calls_one_time (fun _ => 0 : ℕ → PairKeys 2) (by decide)
    [.getKeySet, .generateKeySets, .getKeySet, .getKeySet]
  exact ⟨log, hlog, hnodup⟩

end SharedServerInfo

end DiningCrypto
