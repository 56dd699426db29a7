import DiningCrypto.Delivery
import DiningCrypto.Shutdown
import DiningCrypto.Synchrony

/-!
# Broadcast over the network

What the program is for, end to end: strings submitted at one client reach the displays of all,
over the threads, the queues and the barriers. When the threads keep to the conditions and no
client is given more than 19 strings, no loop ever ends and no thread leaves (`nobody_ends`).
When in addition only one client is given any, every client displays a beginning of their
lines, and the lines in full once it has finished one round more than it took to transmit
their characters (`broadcast`).

The session of the run does the work: what is said of its displays is said of the network's.
-/

namespace DiningCrypto

open ClientLoop Transition ServerThread

/-! ## Nobody ends -/

/-- The strings submitted in a list of calls. -/
def InputCall.strings (calls : List InputCall) : List JString :=
  calls.filterMap fun
    | .inputString str => some str
    | .next => none

theorem InputCall.strings_call (calls : List InputCall) :
    DiningLoop.strings (calls.map InputCall.call) = InputCall.strings calls := by
  rw [DiningLoop.strings, InputCall.strings, List.filterMap_map]
  refine congrArg (fun f => List.filterMap f calls) (funext fun call => ?_)
  cases call <;> rfl

/-- While there is a free slot, polls do not throw: `F k` says of an input side that `k` strings
can still be submitted to it. -/
theorem replay_free {ι γ ρ δ : Type} {body : LoopBody ι γ ρ δ} {F : ℕ → ι → Prop}
    (hsubmit : ∀ k input str, F (k + 1) input → F k (body.inputString input str))
    (hnext : ∀ k, Pollable body (F (k + 1))) {calls : List InputCall} {k : ℕ} {input input' : ι}
    {xs : List γ} (hreplay : replay body input calls = some (input', xs)) (hfree : F k input)
    (hfew : (InputCall.strings calls).length < k) : ∃ k', F (k' + 1) input' := by
  induction calls generalizing k input xs with
  | nil =>
    obtain ⟨rfl, -⟩ := Prod.mk.inj (Option.some.inj hreplay)
    obtain ⟨k, rfl⟩ := Nat.exists_eq_add_one_of_ne_zero (Nat.ne_zero_of_lt hfew)
    exact ⟨k, hfree⟩
  | cons call calls ih =>
    obtain ⟨k, rfl⟩ := Nat.exists_eq_add_one_of_ne_zero (Nat.ne_zero_of_lt hfew)
    cases call with
    | inputString str =>
      exact ih hreplay (hsubmit k input str hfree) (Nat.lt_of_succ_lt_succ hfew)
    | next =>
      obtain ⟨x, input₁, hx, hfree₁⟩ := hnext k input hfree
      simp only [replay, hx, Option.bind_some, Option.map_eq_some_iff, Prod.exists,
        Prod.mk.injEq] at hreplay
      obtain ⟨_, _, hrest, rfl, -⟩ := hreplay
      exact ih hrest hfree₁ hfew

namespace Network

variable {n : ℕ} {draw : ℕ → PairKeys n} {s : Dining n} {labels : List (Label n)}

/-- No loop has ended, and no thread has left its loop or exited. -/
def NobodyEnds (s : Dining n) : Prop :=
  ∀ i, (∀ e, (s.peer i).client.point ≠ .ended e) ∧ (s.server.thread i).point ≠ .left ∧
    (s.server.thread i).point ≠ .exited

theorem Sound.nobodyEnds (hsound : Sound DiningLoop.body draw Display.empty s)
    (hreplayed : ∀ i, Replayed DiningLoop.body DiningLoop.new (s.peer i))
    (hfew : ∀ i, (InputCall.strings (s.peer i).calls).length ≤ 19) : NobodyEnds s := by
  intro i
  obtain ⟨rounds, hrounds⟩ := hsound.rounds
  obtain ⟨past, now, hi⟩ := hsound.linked i
  -- every list the client has been sent can be taken
  have htake : ∀ l ∈ (s.server.thread i).results, Accepts DiningLoop.body l := by
    intro l hl
    obtain ⟨r, hr⟩ := List.getElem?_of_mem hl
    obtain ⟨c, -, hperm⟩ := hrounds.results i r l hr
    have hread := collate_outputs c.sent c.handOut hperm
    refine DiningLoop.accepts_iff.mpr ⟨?_, by rw [hread]; rfl⟩
    rintro rfl
    have hlen : 0 = n := hperm.length_eq.trans (List.length_ofFn ..)
    exact Nat.not_lt_zero i (hlen ▸ i.2)
  refine ⟨fun e hp => ?_, Dining.stays hsound.linked i, hi.phase.ne_exited⟩
  have hphase := hi.phase
  rw [hp] at hphase
  rcases hphase.ended with ⟨q, hq, hread⟩ | rfl | ⟨l, hl, hcheck⟩
  · have hmem : q.results ∈ (s.server.thread i).results := by
      rw [hi.results]
      exact List.mem_append_left _ (List.mem_map_of_mem hq)
    have hsome := (htake q.results hmem).2
    rw [hread] at hsome
    cases hsome
  · -- a poll has thrown, with a slot left
    rcases hreplayed i with ⟨hne, -⟩ |
      ⟨-, calls, input, rest, hcalls, hreplay, hnext⟩
    · exact hne hp
    · have hlen : (InputCall.strings calls).length < 20 := by
        have := hfew i
        rw [hcalls, InputCall.strings, List.filterMap_append, List.length_append] at this
        exact Nat.lt_succ_of_le ((Nat.le_add_right _ _).trans this)
      obtain ⟨k, hfree⟩ := replay_free DiningLoop.free_inputString DiningLoop.free_next hreplay
        DiningLoop.free_new hlen
      obtain ⟨x, input', hx, -⟩ := DiningLoop.free_next k input hfree
      rw [hnext] at hx
      cases hx
  · have hmem : l ∈ (s.server.thread i).results := by
      rw [hi.results]
      exact List.mem_append_right _ hl
    have hnone := (htake l hmem).1
    rw [hcheck] at hnone
    cases hnone

/-- The run of two rounds, in which one client is given a string. -/
theorem exists_twoRounds :
    ∃ s : Dining 2,
      Transition.run (step DiningLoop.body (0 : ℕ → PairKeys 2)) (twoRounds 0 1)
        (Dining.initial 2) = some s ∧ ∀ i, (InputCall.strings (s.peer i).calls).length ≤ 19 := by
  have hfew : ((Transition.run (step DiningLoop.body (0 : ℕ → PairKeys 2)) (twoRounds 0 1)
      (Dining.initial 2)).map fun s => decide (∀ i,
        (InputCall.strings (s.peer i).calls).length ≤ 19)) = some true := by
    decide +kernel
  obtain ⟨s, hrun, hs⟩ := Option.map_eq_some_iff.mp hfew
  exact ⟨s, hrun, of_decide_eq_true hs⟩

end Network

/-! ## One sender -/

section Session

open DiningLoop

variable {n : ℕ} {a : Fin n} {es : List (Event n)} {cs cs' : Clients n}

/-- The strings submitted at the only client at which any are. -/
theorem strings_callAt (honly : ∀ i str, Event.submit i str ∈ es → i = a) :
    strings (es.filterMap (callAt a)) = submitted es := by
  induction es with
  | nil => rfl
  | cons e es ih =>
    have ih := ih fun i str hmem => honly i str (List.mem_cons_of_mem _ hmem)
    cases e with
    | submit i str =>
      obtain rfl := honly i str (List.mem_cons_self ..)
      simp only [List.filterMap_cons, callAt, if_true, strings_inputString, ih]
      rfl
    | round r =>
      simp only [List.filterMap_cons, callAt, strings_getNextChar, ih]
      rfl

/-- Without a round nothing is sent. -/
theorem sent_of_no_round (hrun : run cs es = some cs') (hnone : roundsOf es = []) (j : Fin n) :
    (cs' j).sent = (cs j).sent := by
  induction es generalizing cs with
  | nil =>
    obtain rfl := Option.some.inj hrun
    rfl
  | cons e es ih =>
    rw [run] at hrun
    obtain ⟨cs₁, hstep, hrest⟩ := Option.bind_eq_some_iff.mp hrun
    cases e with
    | submit i str =>
      obtain rfl := Option.some.inj hstep
      rw [ih hrest hnone]
      by_cases hj : j = i
      · subst hj
        rw [Function.update_self]
      · rw [Function.update_of_ne hj]
    | round r => cases hnone

/-- A block of one round. -/
theorem exists_round (hone : (roundsOf es).length = 1) :
    ∃ pre r post, es = pre ++ .round r :: post ∧ roundsOf pre = [] ∧ roundsOf post = [] := by
  induction es with
  | nil => cases hone
  | cons e es ih =>
    cases e with
    | submit i str =>
      obtain ⟨pre, r, post, rfl, hpre, hpost⟩ := ih hone
      exact ⟨.submit i str :: pre, r, post, rfl, hpre, hpost⟩
    | round r => exact ⟨[], r, es, rfl, rfl, List.length_eq_zero_iff.mp (Nat.succ.inj hone)⟩

theorem lines_mono {ms ms' : List JString} (h : ms <+: ms') : lines ms <+: lines ms' := by
  obtain ⟨rest, rfl⟩ := h
  rw [lines_append]
  exact List.prefix_append _ _

end Session

namespace Network

variable {n : ℕ} {draw : ℕ → PairKeys n} {s : Dining n} {labels : List (Label n)} {a : Fin n}
  {blocks : List (List (Event n))} {cs : ℕ → Clients n}

namespace SessionOf

/-- The calls of the session's beginnings. -/
theorem calls_take (h : SessionOf s blocks cs) (d : ℕ) (j : Fin n) :
    (blocks.take d).flatten.filterMap (callAt j) <+: (s.peer j).calls.map InputCall.call := by
  exact ((List.take_prefix d blocks).flatten.filterMap (callAt j)).trans (h.calls j)

/-- Only one client is given strings in the session, when only one is in the network. -/
theorem only (h : SessionOf s blocks cs)
    (honly : ∀ j, j ≠ a → InputCall.strings (s.peer j).calls = []) (d : ℕ) (i : Fin n)
    (str : JString) (hmem : Event.submit i str ∈ (blocks.take d).flatten) : i = a := by
  by_contra hi
  have hcall : DiningLoop.Call.inputString str ∈ (s.peer i).calls.map InputCall.call :=
    (h.calls_take d i).subset
      (List.mem_filterMap.mpr ⟨_, hmem, by simp only [callAt, if_true]⟩)
  have hstr : str ∈ InputCall.strings (s.peer i).calls := by
    rw [← InputCall.strings_call]
    exact List.mem_filterMap.mpr ⟨_, hcall, rfl⟩
  rw [honly i hi] at hstr
  cases hstr

/-- The strings submitted in the session are a beginning of those submitted in the network. -/
theorem submitted_prefix (h : SessionOf s blocks cs)
    (honly : ∀ j, j ≠ a → InputCall.strings (s.peer j).calls = []) (d : ℕ) :
    submitted (blocks.take d).flatten <+: InputCall.strings (s.peer a).calls := by
  rw [← strings_callAt (h.only honly d), ← InputCall.strings_call]
  exact (h.calls_take d a).filterMap _

end SessionOf

/-- Only client `a` is given strings, at most 19 and none with a `U+0000`. -/
structure OneSender (s : Dining n) (a : Fin n) : Prop where
  only : ∀ j, j ≠ a → InputCall.strings (s.peer j).calls = []
  few : (InputCall.strings (s.peer a).calls).length ≤ 19
  noZero : ∀ m ∈ InputCall.strings (s.peer a).calls, (0 : JChar) ∉ m

/-- Every client displays a beginning of the lines of the strings given to `a`; and a client that
waits for a keyset, having been through one round more than it took to transmit all their
characters, displays all of them. -/
def Receives (s : Dining n) (a i : Fin n) : Prop :=
  (s.peer i).client.shown.text <+: lines (InputCall.strings (s.peer a).calls) ∧
    ∀ d, (s.peer i).client.point = .receiveKeySet → (s.peer i).client.sent.length = d + 1 →
      ((s.peer a).client.sent.take d).filter (· ≠ 0) =
        (InputCall.strings (s.peer a).calls).flatten →
      (s.peer i).client.shown.text = lines (InputCall.strings (s.peer a).calls)

/-- Once all characters have been transmitted and one further round is over, the session displays
all lines. -/
theorem SessionOf.text_eq (hsession : SessionOf s blocks cs) (hsender : OneSender s a) {d d' : ℕ}
    (hlt : d' < d) (hd : d ≤ blocks.length)
    (hall : ((s.peer a).client.sent.take d').filter (· ≠ 0) =
      (InputCall.strings (s.peer a).calls).flatten) (i : Fin n) :
    (cs d i).display.text = lines (InputCall.strings (s.peer a).calls) := by
  obtain ⟨honly, hlen, hzero⟩ := hsender
  have hd' : d' < blocks.length := hlt.trans_le hd
  -- the round after which everything has been displayed, and the rest
  have hsplit : blocks.take d = blocks.take d' ++ blocks[d'] :: (blocks.take d).drop (d' + 1) := by
    have hget : (blocks.take d)[d']? = some blocks[d'] := by
      rw [List.getElem?_take_of_lt hlt, List.getElem?_eq_getElem hd']
    have hcut := List.take_append_drop d' (blocks.take d)
    obtain ⟨hlt', hget⟩ := List.getElem?_eq_some_iff.mp hget
    rw [List.take_take, Nat.min_eq_left hlt.le, List.drop_eq_getElem_cons hlt', hget] at hcut
    exact hcut.symm
  obtain ⟨pre, r, post, hblock, hpre, -⟩ :=
    exists_round (hsession.rounds blocks[d'] (List.getElem_mem hd'))
  generalize hrest : ((blocks.take d).drop (d' + 1)).flatten = rest at *
  have hes : (blocks.take d).flatten =
      (blocks.take d').flatten ++ pre ++ .round r :: (post ++ rest) := by
    rw [hsplit, List.flatten_append, List.flatten_cons, hblock, hrest]
    simp only [List.append_assoc, List.cons_append]
  have honly₁ := hsession.only honly d
  have hrun₁ := hsession.run d
  obtain ⟨later, hlater⟩ := hsession.submitted_prefix honly d
  rw [hes] at honly₁ hrun₁ hlater
  rw [submitted_append] at hlater
  have hstrings : submitted ((blocks.take d').flatten ++ pre) ++
      (submitted (post ++ rest) ++ later) = InputCall.strings (s.peer a).calls := by
    rw [← hlater, List.append_assoc]
    rfl
  rw [← hstrings] at hlen hzero hall ⊢
  obtain ⟨cs₁, k, display, hrun₂, hsolo, -⟩ := solo_run (Solo.initial (s := a))
    (fun i str hmem => honly₁ i str (List.mem_append_left _ hmem))
    ((List.prefix_append _ _).length_le.trans hlen)
    fun m hm => hzero m (List.mem_append_left _ hm)
  have hsent₁ : (cs₁ a).sent = (s.peer a).client.sent.take d' := by
    rw [run_append, hsession.run d', Option.bind_some] at hrun₂
    rw [sent_of_no_round hrun₂ hpre, hsession.sent d' hd'.le]
  rw [← hsent₁] at hall
  obtain ⟨done, taken, hdel⟩ := hsolo.delivered
  obtain ⟨hrest, hfull⟩ := hdel.all_sent hall
  obtain ⟨hpost, hnone⟩ := List.append_eq_nil_iff.mp ((List.flatten_append ..).symm.trans hrest)
  have hmost : submitted ((blocks.take d').flatten ++ pre) ++ submitted (post ++ rest) <+:
      submitted ((blocks.take d').flatten ++ pre) ++ (submitted (post ++ rest) ++ later) := by
    rw [← List.append_assoc]
    exact List.prefix_append _ _
  have hpostOnly : ∀ i str, Event.submit i str ∈ post ++ rest → i = a := fun i str hmem =>
    honly₁ i str (List.mem_append_right _ (List.mem_cons_of_mem _ hmem))
  obtain ⟨cs₂, hrun₃, htext⟩ := hsolo.finish r hpostOnly
    (hmost.length_le.trans hlen) (fun m hm => hzero m (hmost.subset hm))
    (by rw [List.nil_append, List.flatten_append, hpost, List.append_nil]; exact hfull)
  rw [run_append, hrun₂, Option.bind_some, hrun₃] at hrun₁
  obtain rfl := Option.some.inj hrun₁
  rw [htext i, ← List.append_assoc, lines_append _ later, lines_of_flatten_eq_nil hnone,
    List.append_nil]
  rfl

theorem SessionOf.receives (hsession : SessionOf s blocks cs) (hsender : OneSender s a)
    (i : Fin n) : Receives s a i := by
  obtain ⟨d, hd, hshown, -, hpoint⟩ := hsession.displays i
  have hsub := hsession.submitted_prefix hsender.only
  constructor
  · -- the display of the session
    obtain ⟨cs', k, display, hrun', hsolo, -⟩ := solo_run (Solo.initial (s := a))
      (hsession.only hsender.only d) (((hsub d).length_le).trans hsender.few)
      fun m hm => hsender.noZero m ((hsub d).subset hm)
    obtain rfl : cs' = cs d := Option.some.inj (hrun'.symm.trans (hsession.run d))
    obtain ⟨done, taken, hdel⟩ := hsolo.delivered
    rw [hshown, hsolo.display i]
    exact hdel.text_prefix.trans (lines_mono (hsub d))
  · intro d' hp hsent hall
    obtain rfl : d = d' + 1 := (hpoint hp).symm.trans hsent
    rw [hshown]
    exact hsession.text_eq hsender (Nat.lt_succ_self d') hd hall i

end Network

end DiningCrypto
