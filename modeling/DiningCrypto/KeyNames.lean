import DiningCrypto.KeyLedger
import DiningCrypto.Network

/-!
# Which keyset a thread holds

A keyset that a thread was handed is named by the run that made it and its index there. The
names depend on the calls of `generateKeySets` and `getKeySet` alone, not on what was drawn:
`nextName` is read off the counters, and `Named` says that the keysets of the threads are those
with their names, under whatever draws. All names are different, however the calls are mixed,
and so are all keys (`Named.keysOnce`): in no run of the network is a key used twice
(`keys_once`).

When the calls do not mix the rounds (`Dealt`), no two rounds have names of one run
(`Named.sameRound`). This is read off the keys, which name their run themselves.
-/

namespace DiningCrypto

open ServerThread Transition

variable {n : ℕ} {answers : Answers n} {draw : ℕ → PairKeys n} {s s' : Server n} {t u : Fin n}

namespace SharedServerInfo

/-- The name of the keyset that `getKeySet` hands out. -/
def nextName (info : SharedServerInfo n) : ℕ × ℕ :=
  if info.keysDistributed = n then (info.runs, 0) else (info.runs - 1, info.keysDistributed)

/-- The keyset with this name has been handed out. -/
def Past (info : SharedServerInfo n) (k : ℕ × ℕ) : Prop :=
  k.1 + 1 < info.runs ∨ k.1 + 1 = info.runs ∧ k.2 < info.keysDistributed

end SharedServerInfo

/-- The keyset with this name. -/
def Names (draw : ℕ → PairKeys n) (key : KeySet) (k : ℕ × ℕ) : Prop :=
  (deck draw k.1)[k.2]? = some key

/-- The keysets of the threads have these names. -/
structure Named (draw : ℕ → PairKeys n) (s : Server n) (name : Fin n → List (ℕ × ℕ)) : Prop where
  keys : ∀ t, List.Forall₂ (Names draw) (s.thread t).keys (name t)
  past : ∀ t, ∀ k ∈ name t, s.shared.Past k
  distinct : ∀ (t t' : Fin n) (r r' : ℕ) (k : ℕ × ℕ), (name t)[r]? = some k →
    (name t')[r']? = some k → t = t' ∧ r = r'
  keysets : ∀ sets, s.shared.keysets = some sets →
    1 ≤ s.shared.runs ∧ sets = deck draw (s.shared.runs - 1)

/-- The names after a move of thread `t`. -/
def nextNames (s : Server n) (t : Fin n) (name : Fin n → List (ℕ × ℕ)) : Fin n → List (ℕ × ℕ) :=
  if dealing (s.thread t).point = true then
    Function.update name t (name t ++ [s.shared.nextName])
  else name

/-! ## Runs -/

theorem named_initial : Named draw (Server.initial n) fun _ => [] where
  keys _ := .nil
  past _ _ hk := absurd hk List.not_mem_nil
  distinct _ _ _ _ _ hk := nomatch hk
  keysets _ hsets := nomatch hsets

namespace Named

variable {name : Fin n → List (ℕ × ℕ)}

/-- What `getKeySet` returns is the keyset with the next name. -/
theorem getKeySet (h : Named draw s name) {key : KeySet} {shared : SharedServerInfo n}
    (hget : s.shared.getKeySet draw = some (key, shared)) :
    Names draw key s.shared.nextName ∧
      shared.keysets = some (deck draw s.shared.nextName.1) ∧
      shared.runs = s.shared.nextName.1 + 1 ∧
      shared.keysDistributed = s.shared.nextName.2 + 1 := by
  obtain ⟨sets, hsets, hkey, rfl⟩ := SharedServerInfo.getKeySet_eq_some hget
  by_cases hfull : s.shared.keysDistributed = n
  · simp only [SharedServerInfo.nextName, if_pos hfull] at hsets hkey ⊢
    obtain rfl := Option.some.inj hsets
    exact ⟨hkey, rfl, rfl, trivial⟩
  · simp only [SharedServerInfo.nextName, if_neg hfull] at hsets hkey ⊢
    obtain ⟨hruns, rfl⟩ := h.keysets sets hsets
    exact ⟨hkey, hsets, by omega, trivial⟩

/-- `getKeySet` finds the keyset with the next name, if there is one. -/
theorem isSome_getKeySet (h : Named draw s name) (hlt : s.shared.nextName.2 < n)
    (hsets : s.shared.keysDistributed = n ∨ s.shared.keysets.isSome) :
    (s.shared.getKeySet draw).isSome := by
  unfold SharedServerInfo.nextName at hlt
  by_cases hfull : s.shared.keysDistributed = n
  · rw [if_pos hfull] at hlt
    have hget := getElem?_deck draw s.shared.runs ⟨0, hlt⟩
    simp only [SharedServerInfo.getKeySet, if_pos hfull, SharedServerInfo.generateKeySets,
      Option.bind_some]
    exact Option.isSome_map.trans (congrArg Option.isSome hget)
  · rw [if_neg hfull] at hlt
    obtain ⟨sets, hs⟩ := Option.isSome_iff_exists.mp (hsets.resolve_left hfull)
    obtain ⟨-, rfl⟩ := h.keysets sets hs
    have hget := getElem?_deck draw (s.shared.runs - 1) ⟨s.shared.keysDistributed, hlt⟩
    simp only [SharedServerInfo.getKeySet, if_neg hfull, hs, Option.bind_some]
    exact Option.isSome_map.trans (congrArg Option.isSome hget)

/-- If it returns at all, it had one. -/
theorem keysets_of_getKeySet {info shared : SharedServerInfo n} {key : KeySet}
    (hget : info.getKeySet draw = some (key, shared)) :
    info.keysDistributed = n ∨ info.keysets.isSome := by
  by_cases hfull : info.keysDistributed = n
  · exact .inl hfull
  · obtain ⟨sets, hs, -⟩ := SharedServerInfo.getKeySet_eq_some hget
    rw [if_neg hfull] at hs
    exact .inr (hs ▸ rfl)

/-- A keyset not handed out yet has a name that no thread has. -/
theorem nextName_ne (h : Named draw s name) {k : ℕ × ℕ} (hk : s.shared.Past k)
    (hsets : s.shared.keysDistributed = n ∨ s.shared.keysets.isSome) :
    k ≠ s.shared.nextName := by
  rintro rfl
  unfold SharedServerInfo.Past SharedServerInfo.nextName at hk
  split_ifs at hk with hfull
  · simp only at hk
    omega
  · obtain ⟨sets, hs⟩ := Option.isSome_iff_exists.mp (hsets.resolve_left hfull)
    have hruns := (h.keysets sets hs).1
    simp only at hk
    omega

/-- Nothing changes for the keys. -/
theorem frame (h : Named draw s name) {info : SharedServerInfo n} {woken : Server n} {th : Thread}
    (hwoken : woken = s ∨ woken = s.notifyAll) (hkeys : th.keys = (s.thread t).keys)
    (hsets : info.keysets = s.shared.keysets) (hruns : info.runs = s.shared.runs)
    (hdistributed : info.keysDistributed = s.shared.keysDistributed) :
    Named draw (woken.put t info th) name := by
  have hall : ∀ u, ((woken.put t info th).thread u).keys = (s.thread u).keys := by
    refine Server.forall_put (P := fun u th => th.keys = (s.thread u).keys) hkeys fun u _ => ?_
    rcases hwoken with rfl | rfl <;> rfl
  refine ⟨fun u => hall u ▸ h.keys u, fun u k hk => ?_, h.distinct, fun sets hs => ?_⟩
  · have := h.past u k hk
    unfold SharedServerInfo.Past at this ⊢
    change k.1 + 1 < info.runs ∨ k.1 + 1 = info.runs ∧ k.2 < info.keysDistributed
    rwa [hruns, hdistributed]
  · change 1 ≤ info.runs ∧ sets = deck draw (info.runs - 1)
    rw [hruns]
    exact h.keysets sets (hsets ▸ hs)

/-- The initial `generateKeySets` of a thread. -/
theorem generate (h : Named draw s name) {p : Point} :
    Named draw (s.put t (s.shared.generateKeySets draw) { s.thread t with point := p }) name := by
  have hall : ∀ u, ((s.put t (s.shared.generateKeySets draw)
      { s.thread t with point := p }).thread u).keys = (s.thread u).keys :=
    Server.forall_put (P := fun u th => th.keys = (s.thread u).keys) rfl fun _ _ => rfl
  refine ⟨fun u => hall u ▸ h.keys u, fun u k hk => ?_, h.distinct, fun sets hs => ?_⟩
  · have := h.past u k hk
    unfold SharedServerInfo.Past at this ⊢
    change k.1 + 1 < s.shared.runs + 1 ∨ _
    omega
  · obtain rfl := Option.some.inj hs
    exact ⟨Nat.le_add_left 1 _, rfl⟩

/-- A thread takes the keyset with the next name. -/
theorem take (h : Named draw s name) {p : Point} {key : KeySet} {shared : SharedServerInfo n}
    (hget : s.shared.getKeySet draw = some (key, shared)) :
    Named draw
      (s.put t shared { s.thread t with point := p, keys := (s.thread t).keys ++ [key] })
      (Function.update name t (name t ++ [s.shared.nextName])) := by
  obtain ⟨hkey, hsets, hruns, hdistributed⟩ := h.getKeySet hget
  have hfree : ∀ u, ∀ k ∈ name u, k ≠ s.shared.nextName := by
    intro u k hk
    exact h.nextName_ne (h.past u k hk) (keysets_of_getKeySet hget)
  have hupdate : ∀ u, Function.update name t (name t ++ [s.shared.nextName]) u =
      name u ++ if u = t then [s.shared.nextName] else [] := by
    intro u
    by_cases hu : u = t
    · subst hu
      rw [Function.update_self, if_pos rfl]
    · rw [Function.update_of_ne hu, if_neg hu, List.append_nil]
  refine ⟨fun u => ?_, fun u k hk => ?_, fun u u' r r' k hk hk' => ?_, fun sets hs => ?_⟩
  · rw [keys_put_append, hupdate]
    refine List.rel_append (h.keys u) ?_
    by_cases hu : u = t
    · rw [if_pos hu, if_pos hu]
      exact .cons hkey .nil
    · rw [if_neg hu, if_neg hu]
      exact .nil
  · change k.1 + 1 < shared.runs ∨ k.1 + 1 = shared.runs ∧ k.2 < shared.keysDistributed
    rw [hruns, hdistributed]
    rw [hupdate] at hk
    rcases List.mem_append.mp hk with hk | hk
    · have hpast := h.past u k hk
      unfold SharedServerInfo.Past SharedServerInfo.nextName at *
      split_ifs
      · simp only
        omega
      · simp only
        omega
    · split_ifs at hk
      · obtain rfl := List.mem_singleton.mp hk
        omega
      · cases hk
  · -- the new name is at one place only
    rw [hupdate] at hk hk'
    have hcases : ∀ {v : Fin n} {q : ℕ},
        (name v ++ if v = t then [s.shared.nextName] else [])[q]? = some k →
        (name v)[q]? = some k ∨ v = t ∧ q = (name t).length ∧ k = s.shared.nextName := by
      intro v q hq
      split_ifs at hq with hv
      · subst hv
        rcases getElem?_append_cases hq with hold | ⟨hlen, hval⟩
        · exact .inl hold
        · exact .inr ⟨rfl, hlen, hval⟩
      · rw [List.append_nil] at hq
        exact .inl hq
    rcases hcases hk with hold | ⟨rfl, rfl, rfl⟩
    · rcases hcases hk' with hold' | ⟨rfl, rfl, rfl⟩
      · exact h.distinct u u' r r' k hold hold'
      · exact absurd rfl (hfree u _ (List.mem_of_getElem? hold))
    · rcases hcases hk' with hold' | ⟨rfl, rfl, -⟩
      · exact absurd rfl (hfree u' _ (List.mem_of_getElem? hold'))
      · exact ⟨rfl, rfl⟩
  · change 1 ≤ shared.runs ∧ sets = deck draw (shared.runs - 1)
    rw [hruns]
    exact ⟨Nat.le_add_left 1 _, Option.some.inj (hs.symm.trans hsets)⟩

/-- **One step.** -/
theorem effect (h : Named draw s name) (heffect : Server.Effect answers draw t s s') :
    Named draw s' (nextNames s t name) := by
  have other : dealing (s.thread t).point = false → Named draw s' name →
      Named draw s' (nextNames s t name) := by
    intro hp h'
    rwa [nextNames, hp, if_neg Bool.false_ne_true]
  cases heffect with
  | own hown =>
    refine other ?_ (h.frame (.inl rfl) ?_ rfl rfl rfl)
    · cases hown <;> rename_i hp <;> rw [hp] <;> rfl
    · cases hown <;> rfl
  | generateKeySets hp => exact other (hp ▸ rfl) h.generate
  | getKeySet hp hget =>
    rw [nextNames, if_pos (hp ▸ rfl)]
    exact h.take hget
  | addOutput hp | parkFirst hp _ | parkSecond hp _ =>
    exact other (hp ▸ rfl) (h.frame (.inl rfl) rfl rfl rfl rfl)
  | passFirst hp _ | finish hp _ =>
    exact other (hp ▸ rfl) (h.frame (.inr rfl) rfl rfl rfl rfl)

end Named

/-! ## The names of a round -/

theorem forall₂_getElem? {α β : Type} {R : α → β → Prop} {l : List α} {l' : List β}
    (h : List.Forall₂ R l l') {r : ℕ} {b : β} (hb : l'[r]? = some b) :
    ∃ a, l[r]? = some a ∧ R a b := by
  obtain ⟨hlen, hget⟩ := List.forall₂_iff_get.mp h
  obtain ⟨hr, rfl⟩ := List.getElem?_eq_some_iff.mp hb
  exact ⟨l[r], List.getElem?_eq_getElem (hlen ▸ hr), hget r (hlen ▸ hr) hr⟩

theorem names_deck (g : ℕ) (c : Fin n) : Names draw (keyset g n (draw g).draw c) (g, (c : ℕ)) :=
  getElem?_deck draw g c

theorem Names.eq_keyset {key : KeySet} {k : ℕ × ℕ} (h : Names draw key k) :
    ∃ c : Fin n, k.2 = c ∧ key = keyset k.1 n (draw k.1).draw c := by
  obtain ⟨hlt, -⟩ := List.getElem?_eq_some_iff.mp h
  rw [deck, length_generateKeySets] at hlt
  exact ⟨⟨k.2, hlt⟩, rfl, Option.some.inj (h.symm.trans (getElem?_deck draw k.1 ⟨k.2, hlt⟩))⟩

/-- Keysets with the same key have the same name: a key gives away its run and its owner. -/
theorem Names.eq_of_same {key key' : KeySet} {k k' : ℕ × ℕ} (h : Names draw key k)
    (h' : Names draw key' k') {a a' : Key} (ha : a ∈ key.keys) (ha' : a' ∈ key'.keys)
    (hsame : a.Same a') : k = k' := by
  obtain ⟨c, hc, rfl⟩ := h.eq_keyset
  obtain ⟨c', hc', rfl⟩ := h'.eq_keyset
  rw [keys_keyset] at ha ha'
  obtain ⟨href, hop⟩ := hsame
  obtain ⟨hrun, hown⟩ := owner ha
  obtain ⟨hrun', hown'⟩ := owner ha'
  rw [href] at hrun hown
  rw [hop] at hown
  refine Prod.ext (hrun.symm.trans hrun') (hc.trans ?_ |>.trans hc'.symm)
  rcases hown with ⟨hop, hend⟩ | ⟨hop, hend⟩ <;> rcases hown' with ⟨hop', hend'⟩ | ⟨hop', hend'⟩
  · exact hend.symm.trans hend'
  · cases hop.symm.trans hop'
  · cases hop.symm.trans hop'
  · exact hend.symm.trans hend'

/-- With two clients or more, there are keys in the set, and they give away its name. -/
theorem Names.unique (hn : 2 ≤ n) {key : KeySet} {k k' : ℕ × ℕ} (h : Names draw key k)
    (h' : Names draw key k') : k = k' := by
  obtain ⟨c, -, hkey⟩ := h.eq_keyset
  have hlen : 0 < key.keys.length := by
    rw [hkey, keys_keyset, length_clientKeys _ c.2]
    omega
  obtain ⟨a, ha⟩ := List.exists_mem_of_length_pos hlen
  exact h.eq_of_same h' ha ha ⟨rfl, rfl⟩

namespace Named

variable {name : Fin n → List (ℕ × ℕ)} {round g : ℕ} {dealt : List (Fin n)}

theorem exists_key (h : Named draw s name) {r : ℕ} {k : ℕ × ℕ} (hk : (name t)[r]? = some k) :
    ∃ key, (s.thread t).keys[r]? = some key ∧ Names draw key k := forall₂_getElem? (h.keys t) hk

theorem exists_name (h : Named draw s name) {r : ℕ} {key : KeySet}
    (hkey : (s.thread t).keys[r]? = some key) :
    ∃ k, (name t)[r]? = some k ∧ Names draw key k := forall₂_getElem? (h.keys t).flip hkey

/-- When a round has begun, an earlier one has used up its run. -/
theorem le_of_sameRun (h : Named draw s name) (hdealt : Dealt draw s round g dealt) {r r' : ℕ}
    {k k' : ℕ × ℕ} (hk : (name t)[r]? = some k) (hk' : (name u)[r']? = some k')
    (hrun : k.1 = k'.1) : r' ≤ r := by
  rcases Nat.lt_or_ge n 2 with hlt | hn
  · obtain rfl : t = u := Fin.ext (by omega)
    obtain ⟨_, -, hname⟩ := h.exists_key hk
    obtain ⟨_, -, hname'⟩ := h.exists_key hk'
    obtain ⟨c, hc, -⟩ := hname.eq_keyset
    obtain ⟨c', hc', -⟩ := hname'.eq_keyset
    have heq : k = k' := Prod.ext hrun (by omega)
    exact (h.distinct t t r r' k hk (heq ▸ hk')).2.ge
  · by_contra hlt
    -- round `r` is complete, so that somebody has the keyset `k'` in it
    obtain ⟨key', hkey', hname'⟩ := h.exists_key hk'
    have hpast : r < round := by
      have hlen := (List.getElem?_eq_some_iff.mp hkey').1
      rw [hdealt.count] at hlen
      split_ifs at hlen <;> omega
    obtain ⟨g', σ, hσ⟩ := hdealt.past r hpast
    obtain ⟨key, hkey, hname⟩ := h.exists_key hk
    obtain rfl := Option.some.inj (hkey.symm.trans (hσ t))
    have hg' : k.1 = g' := congrArg Prod.fst (hname.unique hn (names_deck g' (σ t)))
    obtain ⟨c, hc, rfl⟩ := hname'.eq_keyset
    have hheld := hσ (σ.symm c)
    rw [Equiv.apply_symm_apply] at hheld
    obtain ⟨k'', hk'', hname''⟩ := h.exists_name hheld
    have heq : k'' = k' := by
      rw [hname''.unique hn (names_deck g' c)]
      exact Prod.ext (hg'.symm.trans hrun) hc.symm
    have := (h.distinct _ u r r' k' (heq ▸ hk'') hk').2
    omega

/-- No two rounds have a run in common. -/
theorem sameRound (h : Named draw s name) (hdealt : Dealt draw s round g dealt) {r r' : ℕ}
    {k k' : ℕ × ℕ} (hk : (name t)[r]? = some k) (hk' : (name u)[r']? = some k')
    (hrun : k.1 = k'.1) : r = r' :=
  le_antisymm (h.le_of_sameRun hdealt hk' hk hrun.symm) (h.le_of_sameRun hdealt hk hk' hrun)

end Named

/-! ## The keys of the network -/

/-- The key that `c` holds for the pair of `c` and `d` in run `g`: the lower one of the two adds
it, the upper one subtracts it. -/
def pairKey (draw : ℕ → PairKeys n) (g : ℕ) (c d : Fin n) : Key :=
  if d < c then subtractKeyOf g (draw g).draw d c else addKeyOf g (draw g).draw c d

/-- A client has the keys of its pairs, and no others. -/
theorem mem_clientKeys {g : ℕ} {c : Fin n} {k : Key} :
    k ∈ clientKeys g n (draw g).draw c ↔ ∃ d, d ≠ c ∧ k = pairKey draw g c d := by
  constructor
  · intro hk
    rcases List.mem_append.mp hk with hk | hk
    · obtain ⟨i, hi, rfl⟩ := List.mem_map.mp hk
      have hlt : i < c := List.mem_range.mp hi
      refine ⟨⟨i, hlt.trans c.2⟩, Fin.ne_of_lt hlt, ?_⟩
      rw [pairKey, if_pos (show (⟨i, hlt.trans c.2⟩ : Fin n) < c from hlt)]
    · obtain ⟨j, hj, rfl⟩ := List.mem_map.mp hk
      rw [List.mem_range'_1] at hj
      have hlt : (c : ℕ) < j := hj.1
      have hjn : j < n := by omega
      refine ⟨⟨j, hjn⟩, Fin.ne_of_gt hlt, ?_⟩
      rw [pairKey, if_neg (show ¬ (⟨j, hjn⟩ : Fin n) < c from lt_asymm hlt)]
  · rintro ⟨d, hne, rfl⟩
    rcases lt_or_gt_of_ne hne with hlt | hgt
    · rw [pairKey, if_pos hlt]
      exact List.mem_append_left _ (List.mem_map_of_mem (List.mem_range.mpr hlt))
    · rw [pairKey, if_neg (lt_asymm hgt)]
      refine List.mem_append_right _ (List.mem_map_of_mem (List.mem_range'_1.mpr ⟨hgt, ?_⟩))
      have := d.2
      omega

/-- The set has the keys of one client's pairs in one run, each of them once. -/
def KeySet.Complete (draw : ℕ → PairKeys n) (ks : KeySet) : Prop :=
  ∃ (g : ℕ) (c : Fin n), ks.keys.length = n - 1 ∧
    ∀ k, k ∈ ks.keys ↔ ∃ d, d ≠ c ∧ k = pairKey draw g c d

theorem Names.complete {ks : KeySet} {k : ℕ × ℕ} (h : Names draw ks k) : ks.Complete draw := by
  obtain ⟨c, -, rfl⟩ := h.eq_keyset
  refine ⟨k.1, c, ?_, fun key => ?_⟩
  · rw [keys_keyset, length_clientKeys _ c.2]
  · rw [keys_keyset]
    exact mem_clientKeys

/-- Every keyset that has been handed out is complete, and no key is in another one. -/
structure KeysOnce (draw : ℕ → PairKeys n) (s : Server n) : Prop where
  complete : ∀ t, ∀ ks ∈ (s.thread t).keys, ks.Complete draw
  distinct : ∀ (t t' : Fin n) (r r' : ℕ) (ks ks' : KeySet), (s.thread t).keys[r]? = some ks →
    (s.thread t').keys[r']? = some ks' → ∀ k ∈ ks.keys, ∀ k' ∈ ks'.keys, k.Same k' →
    t = t' ∧ r = r'

theorem Named.keysOnce {name : Fin n → List (ℕ × ℕ)} (h : Named draw s name) :
    KeysOnce draw s := by
  refine ⟨fun t ks hks => ?_, fun t t' r r' ks ks' hks hks' k hk k' hk' hsame => ?_⟩
  · obtain ⟨r, hr⟩ := List.getElem?_of_mem hks
    obtain ⟨_, -, hname⟩ := h.exists_name hr
    exact hname.complete
  · obtain ⟨a, ha, hname⟩ := h.exists_name hks
    obtain ⟨a', ha', hname'⟩ := h.exists_name hks'
    obtain rfl := hname.eq_of_same hname' hk hk' hsame
    exact h.distinct t t' r r' a ha ha'

theorem ServerThread.dealing_of_reading {p : Point} (h : reading p = true) :
    dealing p = false := by
  cases p <;> first | rfl | cases h

namespace Network

variable {ι γ ρ δ : Type} {body : ClientLoop.LoopBody ι γ ρ δ} {input : ι} {shown : δ}
  {s s' : Network n ι γ δ} {name : Fin n → List (ℕ × ℕ)} {label : Label n}

/-- The names after a move. -/
def names (label : Label n) (s : Network n ι γ δ) (name : Fin n → List (ℕ × ℕ)) :
    Fin n → List (ℕ × ℕ) :=
  match label with
  | .thread t => nextNames s.server t name
  | _ => name

theorem named_step (h : Named draw s.server name) (hstep : step body draw label s = some s') :
    Named draw s'.server (names label s name) := by
  cases label with
  | thread t =>
    rcases serve_cases hstep with ⟨m, toServer, point, hread, -, -, rfl⟩ | ⟨server, -, hserver, rfl⟩
    · have hidle : nextNames s.server t name = name := by
        rw [nextNames, dealing_of_reading hread, if_neg Bool.false_ne_true]
      rw [names, hidle]
      exact h.frame (.inl rfl) rfl rfl rfl rfl
    · exact h.effect (Server.step_effect _ _ hserver)
  | _ =>
    obtain ⟨i, p, rfl, -⟩ := client_step hstep (by simp)
    exact h

theorem named_run {labels : List (Label n)}
    (hrun : Transition.run (step body draw) labels (initial n input shown) = some s) :
    ∃ name, Named draw s.server name :=
  invariant_of_run (I := fun s : Network n ι γ δ => ∃ name, Named draw s.server name)
    (fun _ _ _ ⟨_, h⟩ hstep => ⟨_, named_step h hstep⟩) ⟨_, named_initial⟩ hrun

/-- **Every key is used once.** In every run of the network, whatever the clients do and in
whatever order the threads call `generateKeySets` and `getKeySet`, the keysets handed out are
complete, and no key is in two of them. -/
theorem keys_once {labels : List (Label n)}
    (hrun : Transition.run (step body draw) labels (initial n input shown) = some s) :
    KeysOnce draw s.server := by
  obtain ⟨name, h⟩ := named_run hrun
  exact h.keysOnce

/-- Two clients, of which the second thread generates its keysets after the first one has taken
one. -/
theorem keys_once_late :
    ∃ s, Transition.run (step DiningLoop.body (0 : ℕ → PairKeys 2))
        [.thread 0, .thread 0, .thread 1, .thread 1] (initial 2 DiningLoop.new Display.empty) =
        some s ∧ KeysOnce 0 s.server := by
  have hruns : (Transition.run (step DiningLoop.body (0 : ℕ → PairKeys 2))
      [.thread 0, .thread 0, .thread 1, .thread 1]
      (initial 2 DiningLoop.new Display.empty)).isSome := by decide +kernel
  obtain ⟨s, hrun⟩ := Option.isSome_iff_exists.mp hruns
  exact ⟨s, hrun, keys_once hrun⟩

end Network

end DiningCrypto
