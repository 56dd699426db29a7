import DiningCrypto.Session

/-!
# The loop of a client

`DiningLoop.run` and `SimpleLoop.run` are one loop: read a keyset, acknowledge it, read a
message, and if it starts the round transmit, read the result list, acknowledge it and show
it. They differ in what they transmit, in how they look at a result list and in what they
show, which is a `LoopBody`; the loop itself is cut at its reads (`receive`) and at the sends
between them (`act`).

The reads of `ClientConnection` are casts. The loop catches `IOException`, and `getKeySet`
catches `ClassNotFoundException`; a failed cast raises `ClassCastException`, which nobody
catches, so that it ends the loop (and the client) from whichever read it happens at.

The branch `keys == null` is left out. It is taken after a `ClassNotFoundException`, or when the
server has sent `null`, which it does only when it hands out a keyset while another thread is in
the middle of `generateKeySets`.
-/

namespace DiningCrypto

/-- An exception that `run` does not catch. -/
inductive Uncaught : Type where
  | ClassCastException
  | ArrayIndexOutOfBoundsException
  | NumberFormatException
  deriving DecidableEq, Repr

namespace ClientLoop

/-- How a loop has ended. -/
inductive Ending : Type where
  /-- `break`, on reading `SHUTDOWN` -/
  | shutdown
  /-- `break`, on reading another message that is not `START_ROUND` -/
  | unexpected
  /-- `System.exit` -/
  | exited
  /-- an uncaught exception -/
  | threw (e : Uncaught)
  deriving DecidableEq, Repr

/-- Where a loop stands, with the local variables that are still needed there. -/
inductive Point : Type where
  /-- `getKeySet`: at the read -/
  | receiveKeySet
  /-- `getKeySet`: at the send of `ACK` -/
  | ackKeySet (keys : KeySet)
  | receiveMessage (keys : KeySet)
  | transmit (keys : KeySet)
  | receiveRoundResults
  /-- at the send of `ACK`, before the results are collated -/
  | ackResults (results : List Message)
  | ended (e : Ending)

/-- What the two loops do differently: on their input side `ι`, what they send `γ`, what they
read off a result list `ρ`, and what they have shown `δ`. -/
structure LoopBody (ι γ ρ δ : Type) : Type where
  /-- called from outside the loop -/
  inputString : ι → JString → ι
  /-- what to send in this round; `none` is an `ArrayIndexOutOfBoundsException` -/
  next : ι → Option (γ × ι)
  transmit : γ → KeySet → Message
  /-- look at a result list before acknowledging it -/
  check : List Message → Option Ending
  /-- `none` is a `NumberFormatException` -/
  collate : List Message → Option ρ
  showResult : δ → ρ → δ

end ClientLoop

open ClientLoop

/-- A client: where its loop stands, its input side, what it has shown, and what it has sent.
-/
structure Client (ι γ δ : Type) : Type where
  point : Point
  input : ι
  shown : δ
  sent : List γ

namespace ClientLoop

variable {ι γ ρ δ : Type} (body : LoopBody ι γ ρ δ)

/-- At a read: the point after reading `o`. -/
def receive (p : Point) (o : Object) : Option Point :=
  match p with
  | .receiveKeySet =>
    match o with
    | .keySet keys => some (.ackKeySet keys)
    | _ => some (.ended (.threw .ClassCastException))
  | .receiveMessage keys =>
    match o with
    | .message received =>
      if received.message = CommunicationProtocol.START_ROUND then some (.transmit keys)
      else if received.message = CommunicationProtocol.SHUTDOWN then some (.ended .shutdown)
      else some (.ended .unexpected)
    | _ => some (.ended (.threw .ClassCastException))
  | .receiveRoundResults =>
    match o with
    | .results roundResults =>
      match body.check roundResults with
      | some e => some (.ended e)
      | none => some (.ackResults roundResults)
    | _ => some (.ended (.threw .ClassCastException))
  | _ => none

/-- Between two reads: what is sent, and the client afterwards. -/
def act (c : Client ι γ δ) : Option (Option Message × Client ι γ δ) :=
  match c.point with
  | .ackKeySet keys =>
    some (some ⟨CommunicationProtocol.ACK⟩, { c with point := .receiveMessage keys })
  | .transmit keys =>
    match body.next c.input with
    | some (x, input) =>
      some (some (body.transmit x keys),
        { c with point := .receiveRoundResults, input, sent := c.sent ++ [x] })
    | none => some (none, { c with point := .ended (.threw .ArrayIndexOutOfBoundsException) })
  | .ackResults results =>
    match body.collate results with
    | some r =>
      some (some ⟨CommunicationProtocol.ACK⟩,
        { c with point := .receiveKeySet, shown := body.showResult c.shown r })
    | none =>
      some (some ⟨CommunicationProtocol.ACK⟩,
        { c with point := .ended (.threw .NumberFormatException) })
  | _ => none

section Ended

variable {body} {c : Client ι γ δ} {e : Ending}

/-! How a loop ends: over what it reads, or over an exception between two reads. -/

theorem receive_ended {p : Point} {o : Object} (h : receive body p o = some (.ended e)) :
    o = .message ⟨CommunicationProtocol.SHUTDOWN⟩ ∧ e = .shutdown ∨
      (∃ m, o = .message m ∧ m.message ≠ CommunicationProtocol.START_ROUND ∧ e = .unexpected) ∨
      (∃ l, o = .results l ∧ body.check l = some e) ∨
      e = .threw .ClassCastException := by
  cases p with
  | receiveKeySet => cases o <;> cases h <;> exact .inr (.inr (.inr rfl))
  | receiveMessage keys =>
    cases o with
    | message m =>
      rw [receive] at h
      split_ifs at h with hstart hshut
      · cases h
      · obtain rfl := Point.ended.inj (Option.some.inj h)
        exact .inl ⟨by rw [← hshut], rfl⟩
      · obtain rfl := Point.ended.inj (Option.some.inj h)
        exact .inr (.inl ⟨m, rfl, hstart, rfl⟩)
    | _ =>
      obtain rfl := Point.ended.inj (Option.some.inj h)
      exact .inr (.inr (.inr rfl))
  | receiveRoundResults =>
    cases o with
    | results l =>
      rcases hcheck : body.check l with _ | e'
      · simp only [receive, hcheck] at h
        cases h
      · simp only [receive, hcheck] at h
        obtain rfl := Point.ended.inj (Option.some.inj h)
        exact .inr (.inr (.inl ⟨l, rfl, hcheck⟩))
    | _ =>
      obtain rfl := Point.ended.inj (Option.some.inj h)
      exact .inr (.inr (.inr rfl))
  | _ => cases h

theorem act_ended {c' : Client ι γ δ} {sent : Option Message} (h : act body c = some (sent, c'))
    (hp : c'.point = .ended e) : ∃ u, e = .threw u := by
  obtain ⟨point, input, shown, log⟩ := c
  cases point with
  | ackKeySet keys =>
    obtain ⟨-, rfl⟩ := Prod.mk.inj (Option.some.inj h)
    cases hp
  | transmit keys =>
    rcases hnext : body.next input with _ | ⟨x, input'⟩
    · simp only [act, hnext, Option.some.injEq, Prod.mk.injEq] at h
      obtain ⟨-, rfl⟩ := h
      exact ⟨_, (Point.ended.inj hp).symm⟩
    · simp only [act, hnext, Option.some.injEq, Prod.mk.injEq] at h
      obtain ⟨-, rfl⟩ := h
      cases hp
  | ackResults results =>
    rcases hread : body.collate results with _ | r
    · simp only [act, hread, Option.some.injEq, Prod.mk.injEq] at h
      obtain ⟨-, rfl⟩ := h
      exact ⟨_, (Point.ended.inj hp).symm⟩
    · simp only [act, hread, Option.some.injEq, Prod.mk.injEq] at h
      obtain ⟨-, rfl⟩ := h
      cases hp
  | _ => cases h

end Ended

/-- What happens to a client whose sends succeed: it reads the next object of its stream, or
a string is submitted. -/
inductive Arrival : Type where
  | read (o : Object)
  | submit (str : JString)

/-- The client reads `o`, and goes on to its next read. -/
def deliver (c : Client ι γ δ) (o : Object) : Client ι γ δ :=
  match receive body c.point o with
  | none => c
  | some point =>
    match act body { c with point } with
    | none => { c with point }
    | some (_, c) => c

/-- One event. A string submitted between a read and the send after it is as one submitted
before the read, which does not look at the buffer. -/
def handle (c : Client ι γ δ) : Arrival → Client ι γ δ
  | .read o => deliver body c o
  | .submit str => { c with input := body.inputString c.input str }

/-- `run`, on the events of its lifetime. -/
def run (c : Client ι γ δ) (es : List Arrival) : Client ι γ δ := es.foldl (handle body) c

/-- The objects read. -/
def stream (es : List Arrival) : List Object :=
  es.filterMap fun
    | .read o => some o
    | .submit _ => none

section Deliver

variable {body} {c : Client ι γ δ} {keys : KeySet} {e : Ending}

/-! One pass through the loop. -/

theorem deliver_keySet (hp : c.point = .receiveKeySet) (keys : KeySet) :
    deliver body c (.keySet keys) = { c with point := .receiveMessage keys } := by
  simp only [deliver, hp, receive, act]

theorem deliver_startRound (hp : c.point = .receiveMessage keys) {x : γ} {input : ι}
    (hnext : body.next c.input = some (x, input)) :
    deliver body c (.message ⟨CommunicationProtocol.START_ROUND⟩) =
      { c with point := .receiveRoundResults, input, sent := c.sent ++ [x] } := by
  simp only [deliver, hp, receive, if_true, act, hnext]

theorem deliver_results (hp : c.point = .receiveRoundResults) {l : List Message} {r : ρ}
    (hcheck : body.check l = none) (hread : body.collate l = some r) :
    deliver body c (.results l) =
      { c with point := .receiveKeySet, shown := body.showResult c.shown r } := by
  simp only [deliver, hp, receive, hcheck, act, hread]

/-! A pass that ends the loop. -/

theorem deliver_startRound_of_next (hp : c.point = .receiveMessage keys)
    (hnext : body.next c.input = none) :
    (deliver body c (.message ⟨CommunicationProtocol.START_ROUND⟩)).point =
      .ended (.threw .ArrayIndexOutOfBoundsException) := by
  simp only [deliver, hp, receive, if_true, act, hnext]

theorem deliver_results_of_check (hp : c.point = .receiveRoundResults) {l : List Message}
    (hcheck : body.check l = some e) :
    (deliver body c (.results l)).point = .ended e := by
  simp only [deliver, hp, receive, hcheck, act]

theorem deliver_results_of_collate (hp : c.point = .receiveRoundResults) {l : List Message}
    (hcheck : body.check l = none) (hread : body.collate l = none) :
    (deliver body c (.results l)).point = .ended (.threw .NumberFormatException) := by
  simp only [deliver, hp, receive, hcheck, act, hread]

theorem deliver_ended (hp : c.point = .ended e) (o : Object) :
    deliver body c o = c := by
  simp only [deliver, hp, receive]

end Deliver

end ClientLoop

/-! ## `DiningLoop` -/

/-- What distinguishes a `DiningLoop`. -/
def DiningLoop.body : LoopBody DiningLoop JChar JChar Display where
  inputString := DiningLoop.inputString
  next := DiningLoop.getNextChar
  transmit := DiningLoop.transmit
  check roundResults := if roundResults.length = 0 then some .exited else none
  collate := DiningLoop.collate
  showResult := Display.showResult

/-- A client of a session, between two rounds. -/
def ClientState.client (cs : ClientState) : Client DiningLoop JChar Display :=
  ⟨.receiveKeySet, cs.loop, cs.display, cs.sent⟩

/-- A client before its first round. -/
def DiningLoop.client : Client DiningLoop JChar Display := ClientState.initial.client

/-- **One pass of the loop is one round of a session**: when client `i` reads its keyset, the
start of the round and its result list, its state becomes the one that `round` gives it. -/
theorem run_round {n : ℕ} {r : RoundContract n} {cs : Clients n} {x : Fin n → JChar}
    {loop : Fin n → DiningLoop} (h : ∀ i, (cs i).loop.getNextChar = some (x i, loop i)) :
    ∃ cs', round r cs = some cs' ∧ ∀ i,
      ClientLoop.run DiningLoop.body (cs i).client
        [.read (.keySet (r.handOut.held i)),
          .read (.message ⟨CommunicationProtocol.START_ROUND⟩),
          .read (.results (r.results x i))] = (cs' i).client := by
  refine ⟨_, round_eq r h, fun i => ?_⟩
  have hread : DiningLoop.body.collate (r.results x i) =
      some (BitVec.ofNat 16 (collated (total x))) :=
    collate_outputs x r.handOut (r.results_perm x i)
  have hcheck : DiningLoop.body.check (r.results x i) = none := by
    apply if_neg
    rw [RoundContract.results, List.length_ofFn]
    exact Nat.ne_of_gt (Nat.zero_lt_of_lt i.2)
  simp only [ClientLoop.run, List.foldl_cons, List.foldl_nil, handle]
  rw [deliver_keySet rfl, deliver_startRound rfl (h i), deliver_results rfl hcheck hread]
  rfl

/-! ## `SimpleLoop` -/

/-- The field of a `SimpleLoop` object. -/
structure SimpleLoop : Type where
  inputBuf : StrBuffer

namespace SimpleLoop

/-- A new client. -/
def new : SimpleLoop := ⟨StrBuffer.new 20⟩

/-- `inputString`. -/
def inputString (loop : SimpleLoop) (str : JString) : SimpleLoop :=
  match loop.inputBuf.add str with
  | some buf => { loop with inputBuf := buf }
  | none => loop

/-- `transmit`: the string as it is, or the empty string for `null`. -/
def transmit (str : Option JString) : Message := ⟨str.getD []⟩

/-- The `for` over the result list. Its `break` leaves the `for`. -/
def check : List Message → Option Ending
  | [] => none
  | m :: ms => if m.message = CommunicationProtocol.SHUTDOWN then none else check ms

/-- `collate`: the messages, each on a line. -/
def collate (messages : List Message) : JString :=
  messages.foldl (fun sum m => sum ++ (m.message ++ [JChar.ofChar '\n'])) []

/-- What distinguishes a `SimpleLoop`. What it has shown is the text passed to
`guiRef.outputString`. -/
def body : LoopBody SimpleLoop (Option JString) JString JString where
  inputString := inputString
  next loop := loop.inputBuf.next.map fun (str, inputBuf) => (str, { loop with inputBuf })
  transmit str _ := transmit str
  check := check
  collate roundResults := some (collate roundResults)
  showResult text r := text ++ (r ++ [JChar.ofChar '\n'])

/-- A client before its first round. -/
def client : Client SimpleLoop (Option JString) JString := ⟨.receiveKeySet, new, [], []⟩

/-- Whatever the list holds, the loop goes on. -/
theorem check_eq_none : ∀ l : List Message, check l = none
  | [] => rfl
  | m :: l => by rw [check, check_eq_none l, ite_self]

end SimpleLoop

end DiningCrypto
