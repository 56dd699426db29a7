import DiningCrypto.Barriers
import Mathlib.Data.List.NodupEquivFin

/-!
# The keysets of a round

Every thread generates keysets once when it starts, and takes one out of the shared array at
the beginning of each of its rounds; the call that finds the array used up generates a new
one. So the array is dealt out in the order of the calls, and the `n` keysets of a round are
one complete run of `generateKeySets` when the rounds of the calls do not mix: a thread takes
its next keyset only when every other thread has its present one, and no thread generates
after the dealing has begun (`KeysInStep`).

The barriers take care of the first condition (`keysInStep_of_roomy`). Nothing takes care of
the second: `generateKeySets` replaces the array and leaves `keysDistributed` alone, so a
thread that starts late leaves the array of a new run to be dealt out from the middle.
-/

namespace DiningCrypto

open ServerThread Transition

variable {n : ℕ} {answers : Answers n} {draw : ℕ → PairKeys n} {s s' : Server n} {t : Fin n}
  {th th' : Thread}

namespace ServerThread

/-- At the initial call of `generateKeySets`. -/
def starting : Point → Bool
  | .generateKeySets => true
  | _ => false

theorem starting_wake (p : Point) : starting (wake p) = starting p := by
  cases p <;> rfl

/-- At the call of `getKeySet`. -/
def dealing : Point → Bool
  | .getKeySet => true
  | _ => false

end ServerThread

/-- The initial `generateKeySets` runs before any keyset has been taken. -/
def StartsFirst (t : Fin n) (s : Server n) : Prop :=
  starting (s.thread t).point = true → ∀ u, (s.thread u).keys.length = 0

/-- A keyset for a round is taken when every thread has taken one for each earlier round. -/
def TakesInTurn (t : Fin n) (s : Server n) : Prop :=
  dealing (s.thread t).point = true → ∀ u, (s.thread t).keys.length ≤ (s.thread u).keys.length

/-- The calls do not mix the rounds. -/
def KeysInStep (t : Fin n) (s : Server n) : Prop := StartsFirst t s ∧ TakesInTurn t s

instance (t : Fin n) : DecidablePred (KeysInStep t) := fun _ =>
  inferInstanceAs (Decidable ((_ → _) ∧ (_ → _)))

/-- The sets of one run. -/
def deck (draw : ℕ → PairKeys n) (g : ℕ) : List KeySet := generateKeySets g n (draw g).draw

theorem getElem?_deck (draw : ℕ → PairKeys n) (g : ℕ) (i : Fin n) :
    (deck draw g)[(i : ℕ)]? = some (keyset g n (draw g).draw i) := by
  rw [deck, generateKeySets_eq_ofFn, List.getElem?_ofFn, dif_pos i.2]

/-- The keysets of round `r` are the members of one run, each in one client's hands. -/
def OneRun (draw : ℕ → PairKeys n) (s : Server n) (r : ℕ) : Prop :=
  ∃ (g : ℕ) (σ : Equiv.Perm (Fin n)),
    ∀ t, (s.thread t).keys[r]? = some (keyset g n (draw g).draw (σ t))

/-- The threads' keysets after thread `t` has been handed one. -/
theorem keys_put_append {s : Server n} {shared : SharedServerInfo n} {key : KeySet} {p : Point}
    (u : Fin n) :
    ((s.put t shared
      { s.thread t with point := p, keys := (s.thread t).keys ++ [key] }).thread u).keys =
      (s.thread u).keys ++ if u = t then [key] else [] := by
  refine Server.forall_put
    (P := fun u th => th.keys = (s.thread u).keys ++ if u = t then [key] else []) ?_ ?_ u
  · rw [if_pos rfl]
  · intro u hu
    rw [if_neg hu, List.append_nil]

/-- Keysets once handed out stay. -/
theorem OneRun.append {r : ℕ} (h : OneRun draw s r)
    (hkeys : ∀ u, ∃ l, (s'.thread u).keys = (s.thread u).keys ++ l) : OneRun draw s' r := by
  obtain ⟨g, σ, hσ⟩ := h
  refine ⟨g, σ, fun u => ?_⟩
  obtain ⟨l, hl⟩ := hkeys u
  rw [hl]
  exact getElem?_of_append (hσ u) l

/-- The threads `dealt` have taken, in this order, the first keysets of run `g` for their
round `round`; all earlier rounds are complete. -/
structure Dealt (draw : ℕ → PairKeys n) (s : Server n) (round g : ℕ) (dealt : List (Fin n)) :
    Prop where
  nodup : dealt.Nodup
  distributed : s.shared.keysDistributed = dealt.length
  count : ∀ u, (s.thread u).keys.length = round + if u ∈ dealt then 1 else 0
  present : ∀ (i : ℕ) (u : Fin n), dealt[i]? = some u →
    (s.thread u).keys[round]? = (deck draw g)[i]?
  past : ∀ r, r < round → OneRun draw s r
  keysets : (∃ u, starting (s.thread u).point = false) → s.shared.keysets = some (deck draw g)

namespace Dealt

variable {round g : ℕ} {dealt : List (Fin n)}

theorem mem_of_full (h : Dealt draw s round g dealt) (hfull : dealt.length = n) (t : Fin n) :
    t ∈ dealt := by
  have huniv : dealt.toFinset = Finset.univ := by
    rw [← Finset.card_eq_iff_eq_univ, List.toFinset_card_of_nodup h.nodup, hfull,
      Fintype.card_fin]
  exact List.mem_toFinset.mp (huniv ▸ Finset.mem_univ t)

theorem length_of_all (h : Dealt draw s round g dealt) (hall : ∀ t, t ∈ dealt) :
    dealt.length = n := by
  have huniv : dealt.toFinset = Finset.univ :=
    Finset.eq_univ_iff_forall.mpr fun t => List.mem_toFinset.mpr (hall t)
  rw [← List.toFinset_card_of_nodup h.nodup, huniv, Finset.card_univ, Fintype.card_fin]

/-- When everybody has been dealt to, the round is complete. -/
theorem oneRun (h : Dealt draw s round g dealt) (hfull : dealt.length = n) :
    OneRun draw s round := by
  let place : Fin n ≃ Fin n :=
    ((List.Nodup.getEquivOfForallMemList dealt h.nodup (h.mem_of_full hfull)).symm).trans
      (finCongr hfull)
  refine ⟨g, place, fun t => ?_⟩
  rw [← getElem?_deck]
  apply h.present
  exact List.getElem?_idxOf (h.mem_of_full hfull t)

/-- A step that neither generates nor takes a keyset. -/
theorem frame (h : Dealt draw s round g dealt)
    (hdistributed : s'.shared.keysDistributed = s.shared.keysDistributed)
    (hsets : s'.shared.keysets = s.shared.keysets)
    (hkeys : ∀ u, (s'.thread u).keys = (s.thread u).keys)
    (hstarting : ∀ u, starting (s'.thread u).point = starting (s.thread u).point) :
    Dealt draw s' round g dealt where
  nodup := h.nodup
  distributed := hdistributed.trans h.distributed
  count u := by rw [hkeys, h.count]
  present i u hi := by rw [hkeys, h.present i u hi]
  past r hr := by
    obtain ⟨g', σ, hσ⟩ := h.past r hr
    exact ⟨g', σ, fun t => by rw [hkeys, hσ]⟩
  keysets := by
    rintro ⟨u, hu⟩
    rw [hsets]
    exact h.keysets ⟨u, hstarting u ▸ hu⟩

/-- When all keysets have been taken, `getKeySet` first generates new ones. -/
theorem refill (h : Dealt draw s round g dealt) (hfull : dealt.length = n) :
    Dealt draw
      { s with shared := { s.shared.generateKeySets draw with keysDistributed := 0 } }
      (round + 1) s.shared.runs [] where
  nodup := List.nodup_nil
  distributed := rfl
  count u := by rw [h.count, if_pos (h.mem_of_full hfull u), if_neg List.not_mem_nil]
  present _ _ hi := nomatch hi
  past r hr := by
    rcases Nat.lt_succ_iff_lt_or_eq.mp hr with hlt | rfl
    · exact h.past r hlt
    · exact h.oneRun hfull
  keysets _ := rfl

/-- `getKeySet` hands the next keyset to a thread that has none for this round. -/
theorem take (h : Dealt draw s round g dealt) (ht : t ∉ dealt) {key : KeySet} {p : Point}
    (hkey : (deck draw g)[dealt.length]? = some key)
    (hsets : s.shared.keysets = some (deck draw g)) :
    Dealt draw
      (s.put t { s.shared with keysDistributed := s.shared.keysDistributed + 1 }
        { s.thread t with point := p, keys := (s.thread t).keys ++ [key] })
      round g (dealt ++ [t]) where
  nodup := List.nodup_append.mpr ⟨h.nodup, List.nodup_singleton t, by
    rintro u hu _ hut rfl
    exact ht (List.mem_singleton.mp hut ▸ hu)⟩
  distributed := by
    rw [List.length_append, List.length_singleton, ← h.distributed]
    rfl
  count u := by
    rw [keys_put_append, List.length_append, h.count, Nat.add_assoc]
    by_cases hu : u = t
    · subst hu
      rw [if_neg ht, if_pos rfl, if_pos (List.mem_append_right _ (List.mem_singleton_self u))]
      rfl
    · rw [if_neg hu, List.length_nil, Nat.add_zero]
      simp only [List.mem_append, List.mem_singleton, hu, or_false]
  present i u hi := by
    rw [keys_put_append]
    rcases getElem?_append_cases hi with hold | ⟨rfl, rfl⟩
    · have hu : u ≠ t := fun hut => ht (hut ▸ List.mem_of_getElem? hold)
      rw [if_neg hu, List.append_nil]
      exact h.present i u hold
    · have hlen : (s.thread u).keys.length = round := by rw [h.count, if_neg ht, Nat.add_zero]
      rw [if_pos rfl, getElem?_append_of_length hlen, hkey]
  past r hr := (h.past r hr).append fun u => ⟨_, keys_put_append u⟩
  keysets _ := hsets

end Dealt

/-! ## Runs -/

/-- What `getKeySet` returns, by whether the keysets are used up. -/
theorem SharedServerInfo.getKeySet_eq_some {info info' : SharedServerInfo n} {key : KeySet}
    (h : info.getKeySet draw = some (key, info')) :
    let from' :=
      if info.keysDistributed = n then { info.generateKeySets draw with keysDistributed := 0 }
      else info
    ∃ keysets, from'.keysets = some keysets ∧ keysets[from'.keysDistributed]? = some key ∧
      info' = { from' with keysDistributed := from'.keysDistributed + 1 } := by
  unfold SharedServerInfo.getKeySet at h
  simp only [Option.bind_eq_some_iff, Option.map_eq_some_iff, Prod.mk.injEq] at h
  obtain ⟨keysets, hsets, _, hkey, rfl, rfl⟩ := h
  exact ⟨keysets, hsets, hkey, rfl⟩

/-- `frame` for a step that moves thread `t`, and perhaps wakes others. -/
theorem Dealt.frame_put {round g : ℕ} {dealt : List (Fin n)} (h : Dealt draw s round g dealt)
    {shared : SharedServerInfo n} {woken : Server n} (hwoken : woken = s ∨ woken = s.notifyAll)
    (hdistributed : shared.keysDistributed = s.shared.keysDistributed)
    (hsets : shared.keysets = s.shared.keysets) (hkeys : th.keys = (s.thread t).keys)
    (hbefore : starting (s.thread t).point = false) (hafter : starting th.point = false) :
    Dealt draw (woken.put t shared th) round g dealt := by
  have hother : ∀ u, (woken.thread u).keys = (s.thread u).keys ∧
      starting (woken.thread u).point = starting (s.thread u).point := by
    intro u
    rcases hwoken with rfl | rfl
    · exact ⟨rfl, rfl⟩
    · exact ⟨rfl, starting_wake _⟩
  have hmoved : ∀ u, ((woken.put t shared th).thread u).keys = (s.thread u).keys ∧
      starting ((woken.put t shared th).thread u).point = starting (s.thread u).point :=
    Server.forall_put (P := fun u th => th.keys = (s.thread u).keys ∧
      starting th.point = starting (s.thread u).point)
      ⟨hkeys, hafter.trans hbefore.symm⟩ fun u _ => hother u
  exact h.frame hdistributed hsets (fun u => (hmoved u).1) fun u => (hmoved u).2

/-- The initial call of `generateKeySets`, before the dealing has begun. -/
theorem Dealt.generate {round g : ℕ} {dealt : List (Fin n)} (h : Dealt draw s round g dealt)
    {p : Point} (hnone : ∀ u, (s.thread u).keys.length = 0) :
    Dealt draw (s.put t (s.shared.generateKeySets draw) { s.thread t with point := p })
      0 s.shared.runs [] := by
  obtain rfl : round = 0 := by
    have := h.count t
    rw [hnone t] at this
    omega
  obtain rfl : dealt = [] := by
    apply List.eq_nil_iff_forall_not_mem.mpr
    intro u hu
    have := h.count u
    rw [hnone u, if_pos hu] at this
    omega
  have hkeys : ∀ u, ((s.put t (s.shared.generateKeySets draw)
      { s.thread t with point := p }).thread u).keys = (s.thread u).keys :=
    Server.forall_put (P := fun u th => th.keys = (s.thread u).keys) rfl fun _ _ => rfl
  exact ⟨List.nodup_nil, h.distributed, fun u => by rw [hkeys, h.count], nofun, nofun,
    fun _ => rfl⟩

/-- A call of `getKeySet` by a thread that is not ahead of another one. -/
theorem Dealt.getKeySet {round g : ℕ} {dealt : List (Fin n)} (h : Dealt draw s round g dealt)
    {p : Point} {key : KeySet} {shared : SharedServerInfo n}
    (hcurrent : s.shared.keysets = some (deck draw g))
    (hturn : ∀ u, (s.thread t).keys.length ≤ (s.thread u).keys.length)
    (hget : s.shared.getKeySet draw = some (key, shared)) :
    ∃ round' g' dealt', Dealt draw
      (s.put t shared { s.thread t with point := p, keys := (s.thread t).keys ++ [key] })
      round' g' dealt' := by
  obtain ⟨keysets, hsets, hkey, rfl⟩ := SharedServerInfo.getKeySet_eq_some hget
  by_cases hfull : s.shared.keysDistributed = n
  · -- the round is complete: `t` takes the first keyset of the next one
    simp only [if_pos hfull] at hsets hkey ⊢
    obtain rfl : deck draw s.shared.runs = keysets := Option.some.inj hsets
    exact ⟨round + 1, s.shared.runs, [t],
      (h.refill (h.distributed ▸ hfull)).take List.not_mem_nil hkey rfl⟩
  · simp only [if_neg hfull] at hsets hkey ⊢
    obtain rfl : deck draw g = keysets := Option.some.inj (hcurrent.symm.trans hsets)
    -- somebody has no keyset for this round yet, so neither has `t`
    have ht : t ∉ dealt := by
      intro ht
      refine hfull (h.distributed.trans (h.length_of_all fun u => ?_))
      by_contra hu
      have hle := hturn u
      rw [h.count, h.count, if_pos ht, if_neg hu] at hle
      omega
    rw [h.distributed] at hkey
    exact ⟨round, g, dealt ++ [t], h.take ht hkey hcurrent⟩

/-- **One step** in step with the keys. -/
theorem dealt_step {round g : ℕ} {dealt : List (Fin n)} (h : Dealt draw s round g dealt)
    (hguard : KeysInStep t s) (hstep : Server.step answers draw t s = some s') :
    ∃ round' g' dealt', Dealt draw s' round' g' dealt' := by
  -- a step that has nothing to do with keys
  have other : ∀ {shared : SharedServerInfo n} {th : Thread} {woken : Server n},
      woken = s ∨ woken = s.notifyAll →
      shared.keysDistributed = s.shared.keysDistributed →
      shared.keysets = s.shared.keysets → th.keys = (s.thread t).keys →
      starting (s.thread t).point = false → starting th.point = false →
      ∃ round' g' dealt', Dealt draw (woken.put t shared th) round' g' dealt' :=
    fun hw hd hs hk hb ha => ⟨round, g, dealt, h.frame_put hw hd hs hk hb ha⟩
  cases Server.step_effect answers draw hstep with
  | own hown =>
    apply other (.inl rfl) rfl rfl
    · cases hown <;> rfl
    · cases hown <;> rename_i hp <;> rw [hp] <;> rfl
    · cases hown <;> rfl
  | generateKeySets hp => exact ⟨0, s.shared.runs, [], h.generate (hguard.1 (hp ▸ rfl))⟩
  | getKeySet hp hget =>
    exact h.getKeySet (h.keysets ⟨t, hp ▸ rfl⟩) (hguard.2 (hp ▸ rfl)) hget
  | addOutput hp => exact other (.inl rfl) rfl rfl rfl (hp ▸ rfl) rfl
  | parkFirst hp _ => exact other (.inl rfl) rfl rfl rfl (hp ▸ rfl) rfl
  | passFirst hp _ => exact other (.inr rfl) rfl rfl rfl (hp ▸ rfl) rfl
  | parkSecond hp _ => exact other (.inl rfl) rfl rfl rfl (hp ▸ rfl) rfl
  | finish hp _ => exact other (.inr rfl) rfl rfl rfl (hp ▸ rfl) rfl

theorem dealt_initial : Dealt draw (Server.initial n) 0 0 [] where
  nodup := List.nodup_nil
  distributed := rfl
  count _ := rfl
  present _ _ hi := nomatch hi
  past r hr := absurd hr (Nat.not_lt_zero r)
  keysets := fun ⟨_, hu⟩ => nomatch hu

/-- In a run in step, the keysets are always dealt out one run after the other. -/
theorem dealt_run {schedule : List (Fin n)}
    (hinStep : Guarded (Server.step answers draw) KeysInStep schedule (Server.initial n))
    (hrun : Transition.run (Server.step answers draw) schedule (Server.initial n) = some s) :
    ∃ round g dealt, Dealt draw s round g dealt :=
  invariant (I := fun s => ∃ round g dealt, Dealt draw s round g dealt)
    (fun _ _ _ ⟨_, _, _, h⟩ hguard hstep => dealt_step h hguard hstep)
    ⟨0, 0, [], dealt_initial⟩ hinStep hrun

/-- **Key agreement.** In a run in step, the keysets that the `n` threads have been handed
for the same round are the `n` members of one run of `generateKeySets`, and their sums add up
to zero. -/
theorem keys_of_one_run [NeZero n] {schedule : List (Fin n)}
    (hinStep : Guarded (Server.step answers draw) KeysInStep schedule (Server.initial n))
    (hrun : Transition.run (Server.step answers draw) schedule (Server.initial n) = some s)
    {r : ℕ} (hr : ∀ t, r < (s.thread t).keys.length) :
    ∃ (g : ℕ) (σ : Equiv.Perm (Fin n)),
      (∀ t, (s.thread t).keys[r]? = some (keyset g n (draw g).draw (σ t))) ∧
        ∑ t, (keyset g n (draw g).draw (σ t)).sum = 0 := by
  obtain ⟨round, g, dealt, h⟩ := dealt_run hinStep hrun
  have hone : OneRun draw s r := by
    rcases Nat.lt_or_ge r round with hlt | hge
    · exact h.past r hlt
    · -- the round being dealt, and everybody has been dealt to
      have hcount : ∀ t, round = r ∧ t ∈ dealt := by
        intro t
        have := hr t
        rw [h.count] at this
        by_cases ht : t ∈ dealt
        · rw [if_pos ht] at this
          exact ⟨by omega, ht⟩
        · rw [if_neg ht] at this
          omega
      exact (hcount 0).1 ▸ h.oneRun (h.length_of_all fun t => (hcount t).2)
  obtain ⟨g, σ, hσ⟩ := hone
  refine ⟨g, σ, hσ, ?_⟩
  rw [Equiv.sum_comp σ fun c => (keyset g n (draw g).draw c).sum]
  exact sum_sum_keyset g (draw g)

/-- Both threads start, and take their first keysets. -/
theorem keys_of_one_run_started :
    ∃ s, Transition.run (Server.step numbered 0) [0, 1, 1, 0] (Server.initial 2) = some s ∧
      ∃ (g : ℕ) (σ : Equiv.Perm (Fin 2)),
        (∀ t, (s.thread t).keys[0]? = some (keyset g 2 (0 : PairKeys 2).draw (σ t))) ∧
          ∑ t, (keyset g 2 (0 : PairKeys 2).draw (σ t)).sum = 0 := by
  have htaken : ((Transition.run (Server.step numbered 0) [0, 1, 1, 0] (Server.initial 2)).map
      fun s => ((s.thread 0).keys.length, (s.thread 1).keys.length)) = some (1, 1) := by rfl
  obtain ⟨s, hrun, hs⟩ := Option.map_eq_some_iff.mp htaken
  obtain ⟨h₀, h₁⟩ := Prod.mk.inj hs
  refine ⟨s, hrun, keys_of_one_run (by decide) hrun fun t => ?_⟩
  match t with
  | 0 => omega
  | 1 => omega

/-- For two clients: the one key of run `g` is `g`. -/
def numberedKeys (g : ℕ) : PairKeys 2 := fun _ => BitVec.ofNat 32 g

/-- When thread `1` starts after thread `0` has taken its first keyset, the two hold keysets
of different runs, and their sums need not cancel. -/
theorem keys_not_of_one_run :
    ∃ s, Transition.run (Server.step numbered numberedKeys) [0, 0, 1, 1] (Server.initial 2) =
        some s ∧
      ¬ ∃ (g : ℕ) (σ : Equiv.Perm (Fin 2)),
        ∀ t, (s.thread t).keys[0]? = some (keyset g 2 (numberedKeys g).draw (σ t)) := by
  have hsums : ((Transition.run (Server.step numbered numberedKeys) [0, 0, 1, 1]
      (Server.initial 2)).map fun s =>
        ((s.thread 0).keys[0]?.map KeySet.sum, (s.thread 1).keys[0]?.map KeySet.sum)) =
      some (some 0, some (-1)) := by rfl
  obtain ⟨s, hrun, hs⟩ := Option.map_eq_some_iff.mp hsums
  refine ⟨s, hrun, ?_⟩
  rintro ⟨g, σ, hσ⟩
  have hcancel := sum_sum_keyset g (numberedKeys g)
  rw [← Equiv.sum_comp σ, Fin.sum_univ_two] at hcancel
  rw [hσ 0, hσ 1, Option.map_some, Option.map_some, Prod.mk.injEq, Option.some.injEq,
    Option.some.injEq] at hs
  rw [hs.1, hs.2] at hcancel
  exact absurd hcancel (by decide)

/-! ## The barriers keep the calls in turn -/

namespace ServerThread

/-- Whether the keyset of the current round has been taken. -/
def begun : Point → ℕ
  | .generateKeySets | .getKeySet => 0
  | _ => 1

theorem begun_wake (p : Point) : begun (wake p) = begun p := by
  cases p <;> rfl

theorem added_le_begun (p : Point) : added p ≤ begun p := by
  cases p <;> simp only [added, begun, le_refl, Nat.zero_le]

end ServerThread

/-- A thread takes one keyset in each of its rounds. -/
def Thread.Counted (th : Thread) : Prop := th.keys.length = th.round + begun th.point

theorem counted_step (h : ∀ u, (s.thread u).Counted)
    (hstep : Server.step answers draw t s = some s') : ∀ u, (s'.thread u).Counted := by
  have moved : ∀ {shared : SharedServerInfo n} {th : Thread} {woken : Server n},
      (∀ u, (woken.thread u).Counted) → th.Counted →
      ∀ u, ((woken.put t shared th).thread u).Counted := by
    intro shared th woken hwoken hth
    exact Server.forall_put (P := fun _ th => th.Counted) hth fun u _ => hwoken u
  have hwake : ∀ u, (s.notifyAll.thread u).Counted := fun u =>
    (h u).trans (congrArg _ (begun_wake _).symm)
  have ht : (s.thread t).keys.length = (s.thread t).round + begun (s.thread t).point := h t
  cases Server.step_effect answers draw hstep with
  | own hown =>
    apply moved h
    cases hown <;> rename_i hp <;> rw [hp] at ht <;> exact ht
  | getKeySet hp _ =>
    apply moved h
    rw [hp] at ht
    rw [Thread.Counted, List.length_append, ht]
    rfl
  | generateKeySets hp | addOutput hp | parkFirst hp _ | parkSecond hp _ =>
    apply moved h
    rw [hp] at ht
    exact ht
  | passFirst hp _ | finish hp _ =>
    apply moved hwake
    rw [hp] at ht
    exact ht

/-- **The barriers keep the calls in turn.** When no output is added to a full message list
and every thread generates before the first keyset is taken, the calls do not mix the
rounds. -/
theorem keysInStep_of_roomy [NeZero n] {schedule : List (Fin n)}
    (h : Guarded (Server.step answers draw) (fun t s => Roomy t s ∧ StartsFirst t s) schedule
      (Server.initial n)) :
    Guarded (Server.step answers draw) KeysInStep schedule (Server.initial n) := by
  refine h.mono (I := fun s => (∃ b, Follows answers s b) ∧ ∀ u, (s.thread u).Counted)
    ?_ ?_ ⟨⟨_, follows_initial⟩, fun _ => rfl⟩
  · rintro t s s' ⟨⟨b, hb⟩, hcounted⟩ hguard hstep
    obtain ⟨b', -, hb'⟩ := follows_step hb hguard.1 hstep
    exact ⟨⟨b', hb'⟩, counted_step hcounted hstep⟩
  · rintro t s ⟨⟨b, hb⟩, hcounted⟩ hguard
    refine ⟨hguard.2, fun hdealing u => ?_⟩
    have hbefore : begun (s.thread t).point = 0 := by
      revert hdealing
      cases (s.thread t).point <;> first | exact fun _ => rfl | nofun
    calc (s.thread t).keys.length
        = (s.thread t).round := by rw [hcounted t, hbefore, Nat.add_zero]
      _ ≤ b.closes t := by rw [(hb.fits t).closes]; exact Nat.le_add_right _ _
      _ ≤ b.posts u := b.closes_le_posts t u
      _ = (s.thread u).round + added (s.thread u).point := (hb.fits u).posts
      _ ≤ (s.thread u).round + begun (s.thread u).point :=
        Nat.add_le_add_left (added_le_begun _) _
      _ = (s.thread u).keys.length := (hcounted u).symm

end DiningCrypto
