import DiningCrypto.Progress
import Mathlib.Tactic.Ring

/-!
# What is said arrives

With one sender, every client displays everything that was submitted, at the latest when so many
moves have been made after the last submission (`arrival`). The bound is computed from the
strings alone: how many polls it takes to transmit them (`Cursor.backlog`), times the moves of
a round. No fairness is assumed. Whoever moves, the barriers keep the others in step, and the
potential of the network counts everybody's rounds. With one client, for which `Server.main` is
set up, the conditions are no conditions (`maxclients`).

The sender's side is an account: what it has transmitted and what is left in its queue are the
strings submitted (`Sending`), and a poll takes one off the backlog. So when it has polled as
often as that, everything has been transmitted, and one further round displays it.
-/

namespace DiningCrypto

open ClientLoop Transition ServerThread

/-! ## The backlog of an input side -/

namespace Cursor

/-- How many polls it takes to transmit a queue: one for every character, and one for the zero
after every message. -/
def backlog (q : List JString) : ℕ := (q.map fun m => m.length + 1).sum

theorem backlog_append (q q' : List JString) : backlog (q ++ q') = backlog q + backlog q' := by
  rw [backlog, List.map_append, List.sum_append]
  rfl

/-- A queue without a backlog is empty. -/
theorem eq_nil_of_backlog {q : List JString} (h : backlog q = 0) : q = [] := by
  cases q with
  | nil => rfl
  | cons m q =>
    rw [backlog, List.map_cons, List.sum_cons] at h
    omega

theorem backlog_pop (q : List JString) : backlog (pop q).2 = backlog q - 1 := by
  rcases q with _ | ⟨_ | ⟨c, m⟩, q⟩
  · rfl
  · simp only [pop, backlog, List.map_cons, List.sum_cons, List.length_nil]
    omega
  · simp only [pop, backlog, List.map_cons, List.sum_cons, List.length_cons]
    omega

/-- No character gets lost in a poll. -/
theorem filter_pop {q : List JString} (hzero : ∀ m ∈ q, (0 : JChar) ∉ m) :
    [(pop q).1].filter (· ≠ 0) ++ (pop q).2.flatten = q.flatten := by
  rcases q with _ | ⟨_ | ⟨c, m⟩, q⟩
  · rfl
  · rfl
  · have hc : c ≠ 0 := fun h => hzero _ (List.mem_cons_self ..) (h ▸ List.mem_cons_self ..)
    rw [pop, List.filter_cons_of_pos (by simpa using hc)]
    rfl

theorem noZero_pop {q : List JString} (hzero : ∀ m ∈ q, (0 : JChar) ∉ m) :
    ∀ m ∈ (pop q).2, (0 : JChar) ∉ m := by
  rcases q with _ | ⟨_ | ⟨c, m⟩, q⟩
  · exact hzero
  · exact fun m hm => hzero m (List.mem_cons_of_mem _ hm)
  · intro m' hm'
    rcases List.mem_cons.mp hm' with rfl | hm'
    · exact fun h => hzero _ (List.mem_cons_self ..) (List.mem_cons_of_mem _ h)
    · exact hzero m' (List.mem_cons_of_mem _ hm')

theorem next_eq_pop (k : Cursor) : k.next.1 = (pop k.queue).1 ∧ k.next.2.queue = (pop k.queue).2 :=
  Prod.mk.inj (next_queue k)

end Cursor

open Cursor

/-- The account of an input side: of the strings `strs`, `sent` has been transmitted, and the
rest is in the queue. -/
structure Sending (loop : DiningLoop) (k : Cursor) (strs : List JString) (sent : List JChar) :
    Prop where
  represents : loop.Represents k
  writes : loop.inputBuf.writePosition = strs.length
  balance : sent.filter (· ≠ 0) ++ k.queue.flatten = strs.flatten
  noZero : ∀ m ∈ k.queue, (0 : JChar) ∉ m
  backlog_le : backlog k.queue ≤ backlog strs

namespace Sending

variable {loop loop' : DiningLoop} {k : Cursor} {strs : List JString} {sent ys : List JChar}
  {calls : List InputCall}

theorem initial : Sending DiningLoop.new Cursor.idle [] [] :=
  ⟨DiningLoop.represents_new, rfl, rfl, by simp [Cursor.idle, queue], Nat.le_refl _⟩

theorem submit (h : Sending loop k strs sent) (hfew : strs.length < 20) {str : JString}
    (hzero : (0 : JChar) ∉ str) :
    Sending (loop.inputString str) (k.submit str) (strs ++ [str]) sent := by
  obtain ⟨hrep, hpos⟩ := DiningLoop.inputString_spec h.represents (h.writes.symm ▸ hfew) str
  refine ⟨hrep, ?_, ?_, fun m hm => ?_, ?_⟩
  · rw [hpos, h.writes, List.length_append, List.length_singleton]
  · rw [queue_submit, List.flatten_append, ← List.append_assoc, h.balance, List.flatten_append]
  · rw [queue_submit] at hm
    rcases List.mem_append.mp hm with hm | hm
    · exact h.noZero m hm
    · exact List.mem_singleton.mp hm ▸ hzero
  · rw [queue_submit, backlog_append, backlog_append]
    exact Nat.add_le_add_right h.backlog_le _

/-- A poll takes one off the backlog. -/
theorem next (h : Sending loop k strs sent) (hfew : strs.length < 20) :
    ∃ loop', loop.getNextChar = some (k.next.1, loop') ∧
      Sending loop' k.next.2 strs (sent ++ [k.next.1]) ∧
      backlog k.next.2.queue = backlog k.queue - 1 := by
  obtain ⟨loop', hget, hrep, hpos⟩ :=
    DiningLoop.getNextChar_spec h.represents (h.writes.symm ▸ hfew)
  obtain ⟨hchar, hqueue⟩ := k.next_eq_pop
  have hback : backlog k.next.2.queue = backlog k.queue - 1 := by rw [hqueue, backlog_pop]
  refine ⟨loop', hget, ⟨hrep, hpos.trans h.writes, ?_, ?_, ?_⟩, hback⟩
  · rw [hqueue, hchar, List.filter_append, List.append_assoc, filter_pop h.noZero, h.balance]
  · rw [hqueue]
    exact noZero_pop h.noZero
  · rw [hback]
    exact (Nat.sub_le _ _).trans h.backlog_le

/-- Any calls keep the account. -/
theorem replay (h : Sending loop k strs sent)
    (hfew : (strs ++ InputCall.strings calls).length < 20)
    (hzero : ∀ m ∈ InputCall.strings calls, (0 : JChar) ∉ m)
    (hreplay : DiningCrypto.replay DiningLoop.body loop calls = some (loop', ys)) :
    ∃ k', Sending loop' k' (strs ++ InputCall.strings calls) (sent ++ ys) := by
  induction calls generalizing loop k strs sent ys with
  | nil =>
    obtain ⟨rfl, rfl⟩ := Prod.mk.inj (Option.some.inj hreplay)
    rw [List.append_nil]
    exact ⟨k, (List.append_nil strs).symm ▸ h⟩
  | cons call calls ih =>
    have hlt : strs.length < 20 := by
      rw [List.length_append] at hfew
      omega
    cases call with
    | inputString str =>
      have hstrings : strs ++ InputCall.strings (.inputString str :: calls) =
          (strs ++ [str]) ++ InputCall.strings calls := (List.append_cons ..)
      rw [hstrings] at hfew ⊢
      exact ih (h.submit hlt (hzero str (List.mem_cons_self ..))) hfew
        (fun m hm => hzero m (List.mem_cons_of_mem _ hm)) hreplay
    | next =>
      obtain ⟨loop₁, hget, h₁, -⟩ := h.next hlt
      have hnext : DiningLoop.body.next loop = some (k.next.1, loop₁) := hget
      simp only [DiningCrypto.replay, hnext, Option.bind_some, Option.map_eq_some_iff,
        Prod.exists, Prod.mk.injEq] at hreplay
      obtain ⟨loop₂, ys', hrest, rfl, rfl⟩ := hreplay
      rw [List.append_cons]
      exact ih h₁ hfew hzero hrest

/-- So many polls transmit everything. -/
theorem drain (h : Sending loop k strs sent) (hfew : strs.length < 20) :
    ∃ loop' ys, DiningCrypto.replay DiningLoop.body loop
        (List.replicate (backlog k.queue) .next) = some (loop', ys) ∧
      ys.length = backlog k.queue ∧ (sent ++ ys).filter (· ≠ 0) = strs.flatten := by
  generalize hb : backlog k.queue = b
  induction b generalizing loop k sent with
  | zero =>
    have hbalance := h.balance
    rw [eq_nil_of_backlog hb, List.flatten_nil, List.append_nil] at hbalance
    exact ⟨loop, [], rfl, rfl, by rwa [List.append_nil]⟩
  | succ b ih =>
    obtain ⟨loop₁, hget, h₁, hback⟩ := h.next hfew
    obtain ⟨loop', ys, hreplay, hlen, hall⟩ := ih h₁ (by rw [hback, hb]; rfl)
    have hnext : DiningLoop.body.next loop = some (k.next.1, loop₁) := hget
    refine ⟨loop', k.next.1 :: ys, ?_, by rw [List.length_cons, hlen], ?_⟩
    · simp only [List.replicate_succ, DiningCrypto.replay, hnext, Option.bind_some, hreplay,
        Option.map_some]
    · rw [List.append_cons]
      exact hall

end Sending

/-- Every poll returns a character. -/
theorem length_replay_next {ι γ ρ δ : Type} {body : LoopBody ι γ ρ δ} {input input' : ι} {k : ℕ}
    {ys : List γ}
    (h : replay body input (List.replicate k .next) = some (input', ys)) : ys.length = k := by
  induction k generalizing input ys with
  | zero =>
    obtain ⟨-, rfl⟩ := Prod.mk.inj (Option.some.inj h)
    rfl
  | succ k ih =>
    simp only [List.replicate_succ, replay, Option.bind_eq_some_iff, Option.map_eq_some_iff,
      Prod.exists, Prod.mk.injEq] at h
    obtain ⟨x, input₁, -, input₂, ys', hrest, rfl, rfl⟩ := h
    rw [List.length_cons, ih hrest]

theorem Replayed.of_ne_ended {ι γ ρ δ : Type} {body : LoopBody ι γ ρ δ} {input : ι}
    {p : Peer ι γ δ} (h : Replayed body input p)
    (hgoes : p.client.point ≠ .ended (.threw .ArrayIndexOutOfBoundsException)) :
    replay body input p.calls = some (p.client.input, p.client.sent) := by
  rcases h with ⟨-, h⟩ | ⟨hp, -⟩
  · exact h
  · exact absurd hp hgoes

/-! ## The rounds of a connection -/

theorem Phase.sent_le {ι γ ρ δ : Type} {body : LoopBody ι γ ρ δ} {past : List (Past γ)}
    {p : ServerThread.Point} {c : ClientLoop.Point} {toClient : List Object}
    {toServer : List Message} {now : Present γ} (h : Phase body past p c toClient toServer now) :
    now.outputs.length ≤ now.sent.length ∧ now.sent.length ≤ now.keys.length := by
  cases h <;> simp

theorem ServerThread.begun_le_one (p : ServerThread.Point) : begun p ≤ 1 := by
  cases p <;> simp [begun]

/-- A client has transmitted in every round that its thread has finished, and in at most one
more. -/
theorem Linked.length_sent {ι γ ρ δ : Type} {body : LoopBody ι γ ρ δ} {shown : δ} {th : Thread}
    {p : Peer ι γ δ} {past : List (Past γ)} {now : Present γ}
    (h : Linked body shown th p past now) (hcount : th.Counted) :
    th.round ≤ p.client.sent.length ∧ p.client.sent.length ≤ th.round + 1 := by
  obtain ⟨houtputs, hsent⟩ := h.phase.sent_le
  have hadded := h.added_le_outputs hcount
  have hbegun := begun_le_one th.point
  have hkeys : th.keys.length = th.round + begun th.point := hcount
  rw [h.outputs, List.length_append, List.length_map] at hadded
  rw [h.keys, List.length_append, List.length_map] at hkeys
  rw [h.sent, List.length_append, List.length_map]
  omega

namespace Network

section

variable {n : ℕ} {ι γ ρ δ : Type} {body : LoopBody ι γ ρ δ} {draw : ℕ → PairKeys n} {shown : δ}
  {s : Network n ι γ δ}

theorem Sound.counted (h : Sound body draw shown s) (t : Fin n) :
    (s.server.thread t).Counted := by
  obtain ⟨_, _, _, _, _, -, -, -, hcount⟩ := h.follows t
  exact hcount t

/-- Nobody is further than all moves together. -/
theorem Sound.le_potential (h : Sound body draw shown s) (j : Fin n) :
    21 * n * (s.server.thread j).round ≤ s.potential + 21 * n := by
  have hle : ∀ i ∈ Finset.univ, 21 * ((s.server.thread j).round - 1) ≤
      position (s.server.thread i) (s.peer i).client.point := by
    intro i _
    have := h.round_le j i
    unfold position
    omega
  have hsum : n * (21 * ((s.server.thread j).round - 1)) ≤ s.potential := by
    calc n * (21 * ((s.server.thread j).round - 1))
        = (Finset.univ : Finset (Fin n)).card • (21 * ((s.server.thread j).round - 1)) := by
          rw [Finset.card_univ, Fintype.card_fin, smul_eq_mul]
      _ ≤ s.potential := Finset.card_nsmul_le_sum _ _ _ hle
  calc 21 * n * (s.server.thread j).round
      ≤ 21 * n * ((s.server.thread j).round - 1 + 1) :=
        Nat.mul_le_mul_left _ (by omega)
    _ = n * (21 * ((s.server.thread j).round - 1)) + 21 * n := by ring
    _ ≤ s.potential + 21 * n := Nat.add_le_add_right hsum _

end

variable {n : ℕ} {draw : ℕ → PairKeys n} {s s₀ : Dining n} {before after : List (Label n)}
  {a : Fin n}

/-- After so many moves everybody has finished so many more rounds than a client had transmitted
characters. -/
theorem sent_add_le (h₀ : Sound DiningLoop.body draw Display.empty s₀)
    (h : Sound DiningLoop.body draw Display.empty s)
    (hrun : Transition.run (step DiningLoop.body draw) after s₀ = some s)
    (hmoves : ∀ label ∈ after, label.moves = true) {b : ℕ}
    (hlen : 21 * n * (b + 6) ≤ after.length) (i : Fin n) :
    (s₀.peer a).client.sent.length + b + 2 ≤ (s.peer i).client.sent.length := by
  have hI : ∀ label (s s' : Dining n), AllLinked DiningLoop.body Display.empty s →
      step DiningLoop.body draw label s = some s' → AllLinked DiningLoop.body Display.empty s' :=
    fun _ _ _ h hstep => allLinked_step h hstep
  have hpotential := countP_le_potential hI (fun _ _ _ h hstep => potential_step h hstep)
    h₀.linked hrun
  rw [List.countP_eq_length.mpr hmoves] at hpotential
  have hfrom := h₀.le_potential a
  have hto := h.potential_le i
  -- rounds, counted in moves
  have hrounds : 21 * n * ((s₀.server.thread a).round + b + 6) ≤
      21 * n * ((s.server.thread i).round + 3) := by
    rw [Nat.add_assoc, Nat.mul_add]
    have hsplit : 21 * n * ((s.server.thread i).round + 3) =
        21 * n * ((s.server.thread i).round + 2) + 21 * n := by ring
    rw [hsplit]
    omega
  have hle := Nat.le_of_mul_le_mul_left hrounds
    (Nat.mul_pos (by decide) (Nat.zero_lt_of_lt a.2))
  obtain ⟨past, now, ha⟩ := h₀.linked a
  obtain ⟨past', now', hi⟩ := h.linked i
  have hsent := (ha.length_sent (h₀.counted a)).2
  have hsent' := (hi.length_sent (h.counted i)).1
  omega

/-- When the sender has polled often enough since, everything has been transmitted. -/
theorem exists_all_sent (hfew : (InputCall.strings (s₀.peer a).calls).length ≤ 19)
    (hzero : ∀ m ∈ InputCall.strings (s₀.peer a).calls, (0 : JChar) ∉ m)
    (hreplay₀ : replay DiningLoop.body DiningLoop.new (s₀.peer a).calls =
      some ((s₀.peer a).client.input, (s₀.peer a).client.sent))
    (hreplay : replay DiningLoop.body DiningLoop.new (s.peer a).calls =
      some ((s.peer a).client.input, (s.peer a).client.sent))
    {l : List InputCall} (hl : (s.peer a).calls = (s₀.peer a).calls ++ l)
    (hpolls : InputCall.strings l = [])
    (hlen : (s₀.peer a).client.sent.length + backlog (InputCall.strings (s₀.peer a).calls) ≤
      (s.peer a).client.sent.length) :
    ∃ d ≤ (s₀.peer a).client.sent.length + backlog (InputCall.strings (s₀.peer a).calls),
      ((s.peer a).client.sent.take d).filter (· ≠ 0) =
        (InputCall.strings (s.peer a).calls).flatten := by
  have hstrings : InputCall.strings (s.peer a).calls = InputCall.strings (s₀.peer a).calls := by
    rw [hl, InputCall.strings, List.filterMap_append]
    exact (congrArg (_ ++ ·) hpolls).trans (List.append_nil _)
  have hall : l = List.replicate l.length .next := by
    refine List.eq_replicate_of_mem fun call hcall => ?_
    cases call with
    | next => rfl
    | inputString str =>
      have hmem : str ∈ InputCall.strings l := List.mem_filterMap.mpr ⟨_, hcall, rfl⟩
      rw [hpolls] at hmem
      cases hmem
  obtain ⟨k, hk⟩ := Sending.initial.replay
    (by rw [List.nil_append]; exact Nat.lt_succ_of_le hfew) hzero hreplay₀
  rw [List.nil_append, List.nil_append] at hk
  rw [hl, replay_append hreplay₀, Option.map_eq_some_iff] at hreplay
  obtain ⟨⟨input, ys⟩, hys, hend⟩ := hreplay
  obtain ⟨-, hsent⟩ := Prod.mk.inj hend
  -- the polls, and of them those that it takes
  obtain ⟨input₁, ys₁, hdrain, hdrained, hall₁⟩ := hk.drain (by omega)
  have hback := hk.backlog_le
  have hmany : backlog k.queue ≤ l.length := by
    rw [← hsent, List.length_append] at hlen
    have hpolled := length_replay_next (hall ▸ hys)
    omega
  rw [hall, ← Nat.add_sub_cancel' hmany, List.replicate_add, replay_append hdrain,
    Option.map_eq_some_iff] at hys
  obtain ⟨⟨input₂, ys₂⟩, -, hys⟩ := hys
  obtain ⟨-, rfl⟩ := Prod.mk.inj hys
  refine ⟨(s₀.peer a).client.sent.length + backlog k.queue, Nat.add_le_add_left hback _, ?_⟩
  have htake : (s.peer a).client.sent.take ((s₀.peer a).client.sent.length + backlog k.queue) =
      (s₀.peer a).client.sent ++ ys₁ := by
    rw [← hsent, ← List.append_assoc]
    exact List.take_left' (by rw [List.length_append, hdrained])
  rw [htake, hall₁, hstrings]

/-- When everybody has polled often enough, every client displays all lines. -/
theorem text_eq_of_moves
    (hguard : Guarded (step DiningLoop.body draw) (OnThreads Orderly) (before ++ after)
      (Dining.initial n))
    (hrun : Transition.run (step DiningLoop.body draw) (before ++ after) (Dining.initial n) =
      some s)
    (hmoves : ∀ label ∈ after, label.moves = true) (hsender : OneSender s a)
    (hlen : 21 * n * (backlog (InputCall.strings (s.peer a).calls) + 6) ≤ after.length)
    (i : Fin n) :
    (s.peer i).client.shown.text = lines (InputCall.strings (s.peer a).calls) := by
  obtain ⟨s₀, hrun₀, hafter⟩ := exists_of_run_append _ hrun
  have h₀ := Dining.sound_run (hguard.of_append hrun₀).1 hrun₀
  have h := Dining.sound_run hguard hrun
  obtain ⟨l, hl, hpolls⟩ := calls_run hafter a
  rw [stringsAt_of_moves a hmoves] at hpolls
  -- nothing is submitted after the beginning
  have hstrings : ∀ j, InputCall.strings (s.peer j).calls =
      InputCall.strings (s₀.peer j).calls := by
    intro j
    rw [strings_run hafter j, stringsAt_of_moves j hmoves, List.append_nil]
  have hfew : ∀ j, (InputCall.strings (s.peer j).calls).length ≤ 19 := by
    intro j
    by_cases hj : j = a
    · exact hj ▸ hsender.few
    · rw [hsender.only j hj]
      exact Nat.zero_le 19
  have hreplayed := replayed_run DiningLoop.check_ne_threw hrun
  have hreplayed₀ := replayed_run DiningLoop.check_ne_threw hrun₀
  have hreplay := (hreplayed a).of_ne_ended ((h.nobodyEnds hreplayed hfew a).1 _)
  have hreplay₀ := (hreplayed₀ a).of_ne_ended
    ((h₀.nobodyEnds hreplayed₀ (fun j => hstrings j ▸ hfew j) a).1 _)
  have hsent := fun j => sent_add_le (a := a) h₀ h hafter hmoves hlen j
  obtain ⟨d', hd', hall⟩ := exists_all_sent (hstrings a ▸ hsender.few)
    (hstrings a ▸ hsender.noZero) hreplay₀ hreplay hl hpolls
    (by rw [← hstrings a]; exact (Nat.le_add_right _ 2).trans (hsent a))
  -- the displays of the session
  obtain ⟨rounds, hrounds⟩ := h.rounds
  obtain ⟨blocks, cs, hsession⟩ := hrounds.session h.linked hreplayed
  obtain ⟨d, hd, hshown, hclose, -⟩ := hsession.displays i
  have hlt : d' < d := by
    have := hsent i
    rw [hstrings a] at this
    omega
  rw [hshown]
  exact hsession.text_eq hsender hlt hd hall i

/-- One client is the only one. -/
theorem OneSender.of_one {s : Dining 1}
    (hfew : (InputCall.strings (s.peer 0).calls).length ≤ 19)
    (hzero : ∀ m ∈ InputCall.strings (s.peer 0).calls, (0 : JChar) ∉ m) : OneSender s 0 :=
  ⟨fun j hj => absurd (Subsingleton.elim j 0) hj, hfew, hzero⟩

/-- A round of one client. -/
def soloRound : List (Label 1) :=
  [.thread 0, .thread 0, .read 0, .act 0, .thread 0, .thread 0, .read 0, .act 0, .thread 0,
    .thread 0, .thread 0, .thread 0, .thread 0, .read 0, .act 0, .thread 0, .thread 0]

/-- Ten rounds of one client that is given `"A"`. -/
theorem exists_tenRounds :
    ∃ s : Dining 1,
      Transition.run (step DiningLoop.body (0 : ℕ → PairKeys 1))
        ([.thread 0, .submit 0 (lit "A")] ++ (List.replicate 10 soloRound).flatten)
        (Dining.initial 1) = some s ∧
      InputCall.strings (s.peer 0).calls = [lit "A"] ∧ (s.peer 0).client.sent.length = 10 := by
  have hruns : ((Transition.run (step DiningLoop.body (0 : ℕ → PairKeys 1))
      ([.thread 0, .submit 0 (lit "A")] ++ (List.replicate 10 soloRound).flatten)
      (Dining.initial 1)).map fun s =>
        (InputCall.strings (s.peer 0).calls, (s.peer 0).client.sent.length)) =
      some ([lit "A"], 10) := by
    decide +kernel
  obtain ⟨s, hrun, hs⟩ := Option.map_eq_some_iff.mp hruns
  exact ⟨s, hrun, Prod.mk.inj hs⟩

/-- **The server as it is set up.** With `MAXCLIENTS` clients, in every run in which at most 19
strings are submitted: nobody ends; and if none of the strings has a `U+0000`, the client displays
a beginning of their lines, and all of them when after the last submission so many moves have
been made that it has polled often enough. -/
theorem maxclients {draw : ℕ → PairKeys Server.MAXCLIENTS}
    {before after : List (Label Server.MAXCLIENTS)} {s : Dining Server.MAXCLIENTS}
    (hrun : Transition.run (step DiningLoop.body draw) (before ++ after)
      (Dining.initial Server.MAXCLIENTS) = some s)
    (hfew : (InputCall.strings (s.peer 0).calls).length ≤ 19) :
    NobodyEnds s ∧
      ((∀ m ∈ InputCall.strings (s.peer 0).calls, (0 : JChar) ∉ m) →
        Receives s 0 0 ∧
          ((∀ label ∈ after, label.moves = true) →
            21 * (backlog (InputCall.strings (s.peer 0).calls) + 6) ≤ after.length →
            (s.peer 0).client.shown.text = lines (InputCall.strings (s.peer 0).calls))) := by
  have hguard : Guarded (step DiningLoop.body draw) (OnThreads Orderly) (before ++ after)
      (Dining.initial Server.MAXCLIENTS) :=
    orderly_of_one (before ++ after)
  have hsound := Dining.sound_run hguard hrun
  have hreplayed := replayed_run DiningLoop.check_ne_threw hrun
  constructor
  · refine hsound.nobodyEnds hreplayed fun i => ?_
    obtain rfl : i = 0 := Subsingleton.elim i 0
    exact hfew
  · intro hzero
    have hsender : OneSender s 0 := .of_one hfew hzero
    constructor
    · obtain ⟨rounds, hrounds⟩ := hsound.rounds
      obtain ⟨blocks, cs, hsession⟩ := hrounds.session hsound.linked hreplayed
      exact hsession.receives hsender 0
    · intro hmoves hlen
      exact text_eq_of_moves hguard hrun hmoves hsender hlen 0

/-- After the ten rounds it has displayed all that was submitted. -/
theorem maxclients_tenRounds :
    ∃ s : Dining Server.MAXCLIENTS,
      Transition.run (step DiningLoop.body (0 : ℕ → PairKeys 1))
        ([.thread 0, .submit 0 (lit "A")] ++ (List.replicate 10 soloRound).flatten)
        (Dining.initial 1) = some s ∧
      (s.peer 0).client.sent.length = 10 ∧ NobodyEnds s ∧ Receives s 0 0 ∧
      (s.peer 0).client.shown.text = lines [lit "A"] := by
  obtain ⟨s, hrun, hs, hsent⟩ := exists_tenRounds
  obtain ⟨hends, hall⟩ := maxclients hrun (by rw [hs]; decide)
  obtain ⟨hreceives, htext⟩ := hall (by rw [hs]; decide)
  refine ⟨s, hrun, hsent, hends, hreceives, ?_⟩
  rw [← hs]
  refine htext (by decide +kernel) ?_
  rw [hs]
  decide +kernel

end Network

end DiningCrypto
