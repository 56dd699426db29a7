import DiningCrypto.ClientLoop
import DiningCrypto.Dialogue
import DiningCrypto.ServerThread

/-!
# One connection

A `DiningLoop` client and its `ServerThread`, exchanging objects over the two directions of a
socket. What the thread does with the shared object is left to the environment: which keyset
it gets, what the message list holds when it copies it, and how long it is held up at the
barriers (`internal`; every move of a thread of a `Server` is one of these, `step_moves`).

The two loops hold a `Dialogue`: keyset, `ACK`, `START_ROUND`, output, result list, `ACK`, and
again. The state of the dialogue carries the round, the keyset and the character transmitted,
so that the dialogue also says which output belongs to which keyset. `inStep_run` is the
product invariant: each party's program point is where its view of the dialogue has it, and
the views are consistent with the two queues.
-/

namespace DiningCrypto

open ClientLoop Transition

/-! ## The thread and its environment -/

namespace ServerThread

/-- What the shared object and the other threads do to a thread. -/
inductive Env : Type where
  /-- `generateKeySets` returns -/
  | generated
  /-- `getKeySet` returns -/
  | keySet (key : KeySet)
  /-- `addOutput` returns -/
  | added
  /-- a barrier holds the thread -/
  | wait
  /-- another thread notifies -/
  | notify
  /-- a barrier lets the thread through -/
  | pass
  /-- the message list is copied -/
  | copy (results : List Message)

/-- A move of the thread that does not use the socket. -/
def internal : Env → Point → Option Point
  | .generated, .generateKeySets => some .getKeySet
  | .keySet key, .getKeySet => some (.sendKeys key)
  | .added, .addOutput _ => some .first
  | .wait, .first => some .waitFirst
  | .notify, .waitFirst => some .leaveFirst
  | .pass, .first | .pass, .leaveFirst => some .copyResults
  | .copy results, .copyResults => some (.sendResults results)
  | .wait, .second => some .waitSecond
  | .notify, .waitSecond => some .leaveSecond
  | .pass, .second | .pass, .leaveSecond => some .getKeySet
  | _, _ => none

/-- Every move of a thread of the server writes to its socket, reads from it, or is internal.
-/
theorem step_moves {n : ℕ} {answers : Answers n} {draw : ℕ → PairKeys n} {t : Fin n}
    {s s' : Server n} (h : Server.step answers draw t s = some s') :
    (∃ o, send (s.thread t).point = some (o, (s'.thread t).point)) ∨
      (∃ m, receive (s.thread t).point m = some (s'.thread t).point) ∨
      ∃ e, internal e (s.thread t).point = some (s'.thread t).point := by
  cases Server.step_effect answers draw h with
  | own hown =>
    rw [Server.thread_put_self]
    cases hown with
    | sendKeys hp => exact .inl ⟨_, by rw [hp]; rfl⟩
    | sendStartRound hp => exact .inl ⟨_, by rw [hp]; rfl⟩
    | sendResults hp => exact .inl ⟨_, by rw [hp]; rfl⟩
    | keysReply hp =>
      exact .inr (.inl ⟨⟨CommunicationProtocol.ACK⟩, by rw [hp, receive, if_pos rfl]⟩)
    | resultsReply hp =>
      exact .inr (.inl ⟨⟨CommunicationProtocol.ACK⟩, by rw [hp, receive, if_pos rfl]⟩)
    | output hp =>
      exact .inr (.inl ⟨answers.output t (s.thread t).round, by
        rw [hp, receive, if_neg (answers.ne_exit t _)]⟩)
    | leaveFirst hp => exact .inr (.inr ⟨.pass, by rw [hp]; rfl⟩)
    | copyResults hp => exact .inr (.inr ⟨.copy _, by rw [hp]; rfl⟩)
    | leaveSecond hp => exact .inr (.inr ⟨.pass, by rw [hp]; rfl⟩)
  | generateKeySets hp =>
    exact .inr (.inr ⟨.generated, by rw [hp, Server.thread_put_self]; rfl⟩)
  | getKeySet hp _ =>
    exact .inr (.inr ⟨.keySet _, by rw [hp, Server.thread_put_self]; rfl⟩)
  | addOutput hp => exact .inr (.inr ⟨.added, by rw [hp, Server.thread_put_self]; rfl⟩)
  | parkFirst hp _ => exact .inr (.inr ⟨.wait, by rw [hp, Server.thread_put_self]; rfl⟩)
  | passFirst hp _ => exact .inr (.inr ⟨.pass, by rw [hp, Server.thread_put_self]; rfl⟩)
  | parkSecond hp _ =>
    exact .inr (.inr ⟨.wait, by rw [hp, Server.thread_put_self]; rfl⟩)
  | finish hp _ => exact .inr (.inr ⟨.pass, by rw [hp, Server.thread_put_self]; rfl⟩)

end ServerThread

/-! ## The connection -/

/-- A client and its server thread. `keysSent` and `outputs` record the keysets the thread
has sent and the outputs it has added, one for each round. -/
structure Connection : Type where
  server : ServerThread.Point
  client : Client DiningLoop JChar Display
  toClient : List Object
  toServer : List Message
  keysSent : List KeySet
  outputs : List Message

namespace Connection

/-- The connection when both loops start. -/
def initial : Connection :=
  ⟨.generateKeySets, DiningLoop.client, [], [], [], []⟩

/-- Who moves, and how. -/
inductive Label : Type where
  /-- the thread writes to the socket -/
  | serverSend
  /-- the thread reads from the socket -/
  | serverRead
  /-- the thread makes an internal move -/
  | serverMove (e : ServerThread.Env)
  /-- the client moves on from between two reads, which is where it writes -/
  | clientAct
  /-- the client reads from the socket -/
  | clientRead
  /-- a string is submitted at the client -/
  | submit (str : JString)

/-- The keysets among the objects written. -/
def keySetOf : Object → List KeySet
  | .keySet keys => [keys]
  | _ => []

@[simp] theorem keySetOf_keySet (keys : KeySet) : keySetOf (.keySet keys) = [keys] := rfl

@[simp] theorem keySetOf_message (m : Message) : keySetOf (.message m) = [] := rfl

@[simp] theorem keySetOf_results (l : List Message) : keySetOf (.results l) = [] := rfl

/-- The output that an internal move hands to `addOutput`. -/
def outputOf : ServerThread.Point → List Message
  | .addOutput output => [output]
  | _ => []

/-- One move. `none`: it is not possible, for instance a read from an empty queue. -/
def step : Label → Connection → Option Connection
  | .serverSend, s =>
    (ServerThread.send s.server).map fun (o, server) =>
      { s with server, toClient := s.toClient ++ [o], keysSent := s.keysSent ++ keySetOf o }
  | .serverRead, s =>
    match s.toServer with
    | [] => none
    | m :: toServer =>
      (ServerThread.receive s.server m).map fun server => { s with server, toServer }
  | .serverMove e, s =>
    (ServerThread.internal e s.server).map fun server =>
      { s with server, outputs := s.outputs ++ outputOf s.server }
  | .clientAct, s =>
    (act DiningLoop.body s.client).map fun (sent, client) =>
      { s with client, toServer := s.toServer ++ sent.toList }
  | .clientRead, s =>
    match s.toClient with
    | [] => none
    | o :: toClient =>
      (receive DiningLoop.body s.client.point o).map fun point =>
        { s with client := { s.client with point }, toClient }
  | .submit str, s =>
    some
      { s with
        client := { s.client with input := s.client.input.inputString str } }

end Connection

/-- What a client transmits is not a control string. -/
theorem DiningLoop.transmit_ne {str : JString} (h : str ∈ CommunicationProtocol.controls)
    (c : JChar) (keys : KeySet) : (DiningLoop.transmit c keys).message ≠ str :=
  Message.output_ne h _

/-! ## The dialogue of a round -/

/-- What comes next: whose turn it is, in which round, and what the answer depends on. -/
inductive Turn : Type where
  /-- the thread sends the keyset of the round -/
  | keySet (r : ℕ)
  /-- the client acknowledges it -/
  | keysAck (r : ℕ) (keys : KeySet)
  /-- the thread starts the round -/
  | startRound (r : ℕ) (keys : KeySet)
  /-- the client sends its output -/
  | output (r : ℕ) (keys : KeySet)
  /-- the client has transmitted `c`; the thread sends the result list -/
  | results (r : ℕ) (c : JChar)
  /-- the client acknowledges it -/
  | resultsAck (r : ℕ)

/-- What the thread may send. -/
inductive ServerMay : Turn → Object → Turn → Prop where
  | keySet (r : ℕ) (keys : KeySet) : ServerMay (.keySet r) (.keySet keys) (.keysAck r keys)
  | startRound (r : ℕ) (keys : KeySet) :
      ServerMay (.startRound r keys) (.message ⟨CommunicationProtocol.START_ROUND⟩)
        (.output r keys)
  | results (r : ℕ) (c : JChar) (l : List Message) :
      ServerMay (.results r c) (.results l) (.resultsAck r)

/-- What the client may send. -/
inductive ClientMay : Turn → Message → Turn → Prop where
  | keysAck (r : ℕ) (keys : KeySet) :
      ClientMay (.keysAck r keys) ⟨CommunicationProtocol.ACK⟩ (.startRound r keys)
  | output (r : ℕ) (keys : KeySet) (c : JChar) :
      ClientMay (.output r keys) (DiningLoop.transmit c keys) (.results r c)
  | resultsAck (r : ℕ) :
      ClientMay (.resultsAck r) ⟨CommunicationProtocol.ACK⟩ (.keySet (r + 1))

/-- The dialogue of the thread, on the left, and the client. -/
def roundDialogue : Dialogue Turn Object Message where
  left := ServerMay
  right := ClientMay
  alternate h h' := by cases h <;> cases h'

/-! ## Program points as views of the dialogue -/

/-- The thread has a keyset to send next. -/
def Idle : ServerThread.Point → Prop
  | .generateKeySets | .getKeySet | .sendKeys _ | .second | .waitSecond | .leaveSecond => True
  | _ => False

/-- The thread has a result list to send next. -/
def Gathering : ServerThread.Point → Prop
  | .first | .waitFirst | .leaveFirst | .copyResults | .sendResults _ => True
  | _ => False

section Points

variable {p p' : ServerThread.Point} {o : Object} {m : Message} {e : ServerThread.Env}

theorem Idle.send (hp : Idle p) (h : ServerThread.send p = some (o, p')) :
    ∃ key, o = .keySet key ∧ p' = .keysReply := by
  cases p <;> first | exact hp.elim | (cases h; exact ⟨_, rfl, rfl⟩) | cases h

theorem Gathering.send (hp : Gathering p) (h : ServerThread.send p = some (o, p')) :
    ∃ results, o = .results results ∧ p' = .resultsReply := by
  cases p <;> first | exact hp.elim | (cases h; exact ⟨_, rfl, rfl⟩) | cases h

theorem Idle.receive (hp : Idle p) : ServerThread.receive p m = none := by
  cases p <;> first | exact hp.elim | rfl

theorem Gathering.receive (hp : Gathering p) : ServerThread.receive p m = none := by
  cases p <;> first | exact hp.elim | rfl

theorem Idle.internal (hp : Idle p) (h : ServerThread.internal e p = some p') :
    Idle p' ∧ Connection.outputOf p = [] := by
  cases p with
  | generateKeySets | getKeySet | second | waitSecond | leaveSecond =>
    cases e <;> cases h <;> exact ⟨trivial, rfl⟩
  | sendKeys key => cases e <;> cases h
  | _ => exact hp.elim

theorem Gathering.internal (hp : Gathering p) (h : ServerThread.internal e p = some p') :
    Gathering p' ∧ Connection.outputOf p = [] := by
  cases p with
  | first | waitFirst | leaveFirst | copyResults =>
    cases e <;> cases h <;> exact ⟨trivial, rfl⟩
  | sendResults results => cases e <;> cases h
  | _ => exact hp.elim

end Points

/-- The thread's view of the dialogue, by its program point and its records. `sent` is what
the client has transmitted. -/
inductive ServerAt (keysSent : List KeySet) (outputs : List Message) (sent : List JChar) :
    ServerThread.Point → Turn → Prop where
  | idle {p : ServerThread.Point} {r : ℕ} (hp : Idle p) (hk : keysSent.length = r)
      (ho : outputs.length = r) : ServerAt keysSent outputs sent p (.keySet r)
  | keysReply {r : ℕ} {keys : KeySet} (hk : keysSent.length = r + 1)
      (hkeys : keysSent[r]? = some keys) (ho : outputs.length = r) :
      ServerAt keysSent outputs sent .keysReply (.keysAck r keys)
  | sendStartRound {r : ℕ} {keys : KeySet} (hk : keysSent.length = r + 1)
      (hkeys : keysSent[r]? = some keys) (ho : outputs.length = r) :
      ServerAt keysSent outputs sent .sendStartRound (.startRound r keys)
  | output {r : ℕ} {keys : KeySet} (hk : keysSent.length = r + 1)
      (hkeys : keysSent[r]? = some keys) (ho : outputs.length = r) :
      ServerAt keysSent outputs sent .output (.output r keys)
  | addOutput {r : ℕ} {keys : KeySet} {c : JChar} (hk : keysSent.length = r + 1)
      (hkeys : keysSent[r]? = some keys) (ho : outputs.length = r) (hc : sent[r]? = some c) :
      ServerAt keysSent outputs sent (.addOutput (DiningLoop.transmit c keys)) (.results r c)
  | gathering {p : ServerThread.Point} {r : ℕ} {c : JChar} (hp : Gathering p)
      (hk : keysSent.length = r + 1) (ho : outputs.length = r + 1) :
      ServerAt keysSent outputs sent p (.results r c)
  | resultsReply {r : ℕ} (hk : keysSent.length = r + 1) (ho : outputs.length = r + 1) :
      ServerAt keysSent outputs sent .resultsReply (.resultsAck r)

/-- The client's view of the dialogue. A loop that has ended keeps the view it ended with: it
ends by itself, not over what it reads. -/
inductive ClientAt (sent : List JChar) : Point → Turn → Prop where
  | receiveKeySet {r : ℕ} (h : sent.length = r) : ClientAt sent .receiveKeySet (.keySet r)
  | ackKeySet {r : ℕ} {keys : KeySet} (h : sent.length = r) :
      ClientAt sent (.ackKeySet keys) (.keysAck r keys)
  | receiveMessage {r : ℕ} {keys : KeySet} (h : sent.length = r) :
      ClientAt sent (.receiveMessage keys) (.startRound r keys)
  | transmit {r : ℕ} {keys : KeySet} (h : sent.length = r) :
      ClientAt sent (.transmit keys) (.output r keys)
  | receiveRoundResults {r : ℕ} {c : JChar} (h : sent.length = r + 1)
      (hc : sent[r]? = some c) : ClientAt sent .receiveRoundResults (.results r c)
  | ackResults {r : ℕ} {results : List Message} (h : sent.length = r + 1) :
      ClientAt sent (.ackResults results) (.resultsAck r)
  | noSlot {r : ℕ} {keys : KeySet} :
      ClientAt sent (.ended (.threw .ArrayIndexOutOfBoundsException)) (.output r keys)
  | noResults {r : ℕ} : ClientAt sent (.ended .exited) (.resultsAck r)
  | noNumber {r : ℕ} : ClientAt sent (.ended (.threw .NumberFormatException)) (.keySet r)

/-- Each output was computed in its round: from the character transmitted and the keyset sent
in that round. -/
def Paired (keysSent : List KeySet) (sent : List JChar) (outputs : List Message) : Prop :=
  ∀ (r : ℕ) (m : Message), outputs[r]? = some m →
    ∃ c keys, sent[r]? = some c ∧ keysSent[r]? = some keys ∧ m = DiningLoop.transmit c keys

/-- The product invariant, for the views `l` of the thread and `r` of the client. -/
structure InStep (s : Connection) (l r : Turn) : Prop where
  consistent : roundDialogue.Consistent l r s.toClient s.toServer
  server : ServerAt s.keysSent s.outputs s.client.sent s.server l
  client : ClientAt s.client.sent s.client.point r
  paired : Paired s.keysSent s.client.sent s.outputs

theorem inStep_initial : InStep Connection.initial (.keySet 0) (.keySet 0) where
  consistent := Dialogue.consistent_start _ _
  server := .idle trivial rfl rfl
  client := .receiveKeySet rfl
  paired _ _ h := nomatch h

/-! ## One step -/

section Step

variable {keysSent : List KeySet} {outputs : List Message} {sent : List JChar}
  {s s' : Connection} {l r : Turn}

theorem Paired.keys_append (h : Paired keysSent sent outputs) (keys : List KeySet) :
    Paired (keysSent ++ keys) sent outputs := by
  intro i m hi
  obtain ⟨c, ks, hc, hks, hm⟩ := h i m hi
  exact ⟨c, ks, hc, getElem?_of_append hks keys, hm⟩

theorem Paired.sent_append (h : Paired keysSent sent outputs) (cs : List JChar) :
    Paired keysSent (sent ++ cs) outputs := by
  intro i m hi
  obtain ⟨c, ks, hc, hks, hm⟩ := h i m hi
  exact ⟨c, ks, getElem?_of_append hc cs, hks, hm⟩

theorem Paired.output_append (h : Paired keysSent sent outputs) {c : JChar} {keys : KeySet}
    (hc : sent[outputs.length]? = some c) (hkeys : keysSent[outputs.length]? = some keys) :
    Paired keysSent sent (outputs ++ [DiningLoop.transmit c keys]) := by
  intro i m hi
  rcases getElem?_append_cases hi with hold | ⟨rfl, rfl⟩
  · exact h i m hold
  · exact ⟨c, keys, hc, hkeys, rfl⟩

/-- The client's next transmission does not change the thread's view. -/
theorem ServerAt.sent_append {p : ServerThread.Point} (h : ServerAt keysSent outputs sent p l)
    (cs : List JChar) : ServerAt keysSent outputs (sent ++ cs) p l := by
  cases h with
  | idle hp hk ho => exact .idle hp hk ho
  | keysReply hk hkeys ho => exact .keysReply hk hkeys ho
  | sendStartRound hk hkeys ho => exact .sendStartRound hk hkeys ho
  | output hk hkeys ho => exact .output hk hkeys ho
  | addOutput hk hkeys ho hc => exact .addOutput hk hkeys ho (getElem?_of_append hc cs)
  | gathering hp hk ho => exact .gathering hp hk ho
  | resultsReply hk ho => exact .resultsReply hk ho

/-- When the client's view has a transmitted character, the client has transmitted it. -/
theorem ClientAt.transmitted {p : Point} {i : ℕ} {c : JChar}
    (h : ClientAt sent p (.results i c)) : sent[i]? = some c := by
  cases h with
  | receiveRoundResults _ hc => exact hc

/-- The thread writes to its socket. -/
theorem InStep.serverSend (h : InStep s l r)
    (hstep : Connection.step .serverSend s = some s') : ∃ l', InStep s' l' r := by
  obtain ⟨server, client, toClient, toServer, keysSent, outputs⟩ := s
  obtain ⟨hcons, hserver, hclient, hpaired⟩ := h
  simp only [Connection.step, Option.map_eq_some_iff, Prod.exists] at hstep
  obtain ⟨o, p, hsend, rfl⟩ := hstep
  cases hserver with
  | idle hp hk ho =>
    obtain ⟨key, rfl, rfl⟩ := hp.send hsend
    exact ⟨_, hcons.send_left (.keySet _ key),
      .keysReply (by rw [Connection.keySetOf_keySet, List.length_append, hk]; rfl)
        (getElem?_append_of_length hk key) ho, hclient, hpaired.keys_append _⟩
  | sendStartRound hk hkeys ho =>
    obtain ⟨rfl, rfl⟩ := Prod.mk.inj (Option.some.inj hsend)
    rw [Connection.keySetOf_message, List.append_nil]
    exact ⟨_, hcons.send_left (.startRound _ _), .output hk hkeys ho, hclient, hpaired⟩
  | gathering hp hk ho =>
    obtain ⟨results, rfl, rfl⟩ := hp.send hsend
    rw [Connection.keySetOf_results, List.append_nil]
    exact ⟨_, hcons.send_left (.results _ _ results), .resultsReply hk ho, hclient, hpaired⟩
  | keysReply | output | addOutput | resultsReply => cases hsend

/-- The thread reads from its socket. -/
theorem InStep.serverRead (h : InStep s l r)
    (hstep : Connection.step .serverRead s = some s') : ∃ l', InStep s' l' r := by
  obtain ⟨server, client, toClient, toServer, keysSent, outputs⟩ := s
  obtain ⟨hcons, hserver, hclient, hpaired⟩ := h
  rcases toServer with _ | ⟨m, toServer⟩
  · cases hstep
  simp only [Connection.step, Option.map_eq_some_iff] at hstep
  obtain ⟨p, hreceive, rfl⟩ := hstep
  obtain ⟨l', hmay, hrest, hnil⟩ := hcons.read_left
  have hcons' : roundDialogue.Consistent l' r toClient toServer := .inr ⟨hnil, hrest⟩
  cases hserver with
  | keysReply hk hkeys ho =>
    cases hmay
    rw [ServerThread.receive, if_pos rfl, Option.some.injEq] at hreceive
    exact ⟨_, hcons', hreceive ▸ .sendStartRound hk hkeys ho, hclient, hpaired⟩
  | output hk hkeys ho =>
    cases hmay
    rename_i c
    rw [ServerThread.receive, if_neg (DiningLoop.transmit_ne (by decide) _ _),
      Option.some.injEq] at hreceive
    -- the client has not gone on since, so this is its last transmission
    obtain ⟨-, rfl⟩ := hrest.eq_of_silent fun _ _ hsays => by cases hsays
    exact ⟨_, hcons', hreceive ▸ .addOutput hk hkeys ho hclient.transmitted, hclient, hpaired⟩
  | resultsReply hk ho =>
    cases hmay
    rw [ServerThread.receive, if_pos rfl, Option.some.injEq] at hreceive
    exact ⟨_, hcons', hreceive ▸ .idle trivial hk ho, hclient, hpaired⟩
  | idle hp _ _ =>
    rw [hp.receive] at hreceive
    cases hreceive
  | gathering hp _ _ =>
    rw [hp.receive] at hreceive
    cases hreceive
  | sendStartRound | addOutput => cases hreceive

/-- The thread deals with the shared object. -/
theorem InStep.serverMove {e : ServerThread.Env} (h : InStep s l r)
    (hstep : Connection.step (.serverMove e) s = some s') : InStep s' l r := by
  obtain ⟨server, client, toClient, toServer, keysSent, outputs⟩ := s
  obtain ⟨hcons, hserver, hclient, hpaired⟩ := h
  simp only [Connection.step, Option.map_eq_some_iff] at hstep
  obtain ⟨p, hmove, rfl⟩ := hstep
  cases hserver with
  | idle hp hk ho =>
    obtain ⟨hp', hnone⟩ := hp.internal hmove
    rw [hnone, List.append_nil]
    exact ⟨hcons, .idle hp' hk ho, hclient, hpaired⟩
  | gathering hp hk ho =>
    obtain ⟨hp', hnone⟩ := hp.internal hmove
    rw [hnone, List.append_nil]
    exact ⟨hcons, .gathering hp' hk ho, hclient, hpaired⟩
  | addOutput hk hkeys ho hc =>
    cases e with
    | added =>
      cases hmove
      exact ⟨hcons, .gathering trivial hk (by rw [List.length_append, ho]; rfl), hclient,
        hpaired.output_append (ho ▸ hc) (ho ▸ hkeys)⟩
    | _ => cases hmove
  | keysReply | sendStartRound | output | resultsReply => cases e <;> cases hmove

/-- The client acts between two reads. -/
theorem InStep.clientAct (h : InStep s l r)
    (hstep : Connection.step .clientAct s = some s') : ∃ r', InStep s' l r' := by
  obtain ⟨server, ⟨point, input, shown, sent⟩, toClient, toServer, keysSent, outputs⟩ := s
  obtain ⟨hcons, hserver, hclient, hpaired⟩ := h
  simp only [Connection.step, Option.map_eq_some_iff, Prod.exists] at hstep
  obtain ⟨message, client, hact, rfl⟩ := hstep
  cases hclient with
  | ackKeySet hlen =>
    cases hact
    exact ⟨_, hcons.send_right (.keysAck _ _), hserver, .receiveMessage hlen, hpaired⟩
  | transmit hlen =>
    simp only [act, DiningLoop.body] at hact
    rcases hnext : input.getNextChar with _ | ⟨c, loop⟩
    · -- the buffer has no slot left to poll
      simp only [hnext] at hact
      cases hact
      simp only [Option.toList_none, List.append_nil]
      exact ⟨_, hcons, hserver, .noSlot, hpaired⟩
    · simp only [hnext] at hact
      cases hact
      exact ⟨_, hcons.send_right (.output _ _ c), hserver.sent_append [c],
        .receiveRoundResults (by rw [List.length_append, hlen]; rfl)
          (getElem?_append_of_length hlen c), hpaired.sent_append [c]⟩
  | ackResults hlen =>
    rename_i results
    simp only [act, DiningLoop.body] at hact
    rcases hread : DiningLoop.collate results with _ | c
    · simp only [hread] at hact
      cases hact
      exact ⟨_, hcons.send_right (.resultsAck _), hserver, .noNumber, hpaired⟩
    · simp only [hread] at hact
      cases hact
      exact ⟨_, hcons.send_right (.resultsAck _), hserver, .receiveKeySet hlen, hpaired⟩
  | receiveKeySet | receiveMessage | receiveRoundResults | noSlot | noResults | noNumber =>
    cases hact

/-- The client reads from its socket. -/
theorem InStep.clientRead (h : InStep s l r)
    (hstep : Connection.step .clientRead s = some s') : ∃ r', InStep s' l r' := by
  obtain ⟨server, ⟨point, input, shown, sent⟩, toClient, toServer, keysSent, outputs⟩ := s
  obtain ⟨hcons, hserver, hclient, hpaired⟩ := h
  rcases toClient with _ | ⟨o, toClient⟩
  · cases hstep
  simp only [Connection.step, Option.map_eq_some_iff] at hstep
  obtain ⟨p, hread, rfl⟩ := hstep
  obtain ⟨r', hmay, hrest, hnil⟩ := hcons.read_right
  have hcons' : roundDialogue.Consistent l r' toClient toServer := .inl ⟨hnil, hrest⟩
  cases hclient with
  | receiveKeySet hlen =>
    cases hmay
    cases hread
    exact ⟨_, hcons', hserver, .ackKeySet hlen, hpaired⟩
  | receiveMessage hlen =>
    cases hmay
    simp only [receive, if_true, Option.some.injEq] at hread
    exact ⟨_, hcons', hserver, hread ▸ .transmit hlen, hpaired⟩
  | receiveRoundResults hlen hc =>
    cases hmay
    rename_i results
    simp only [receive, DiningLoop.body] at hread
    by_cases hsize : results.length = 0
    · simp only [if_pos hsize, Option.some.injEq] at hread
      exact ⟨_, hcons', hserver, hread ▸ .noResults, hpaired⟩
    · simp only [if_neg hsize, Option.some.injEq] at hread
      exact ⟨_, hcons', hserver, hread ▸ .ackResults hlen, hpaired⟩
  | ackKeySet | transmit | ackResults | noSlot | noResults | noNumber => cases hread

/-- **One step** of the connection. -/
theorem inStep_step {label : Connection.Label} (h : InStep s l r)
    (hstep : Connection.step label s = some s') : ∃ l' r', InStep s' l' r' := by
  cases label with
  | serverSend =>
    obtain ⟨l', h'⟩ := h.serverSend hstep
    exact ⟨l', r, h'⟩
  | serverRead =>
    obtain ⟨l', h'⟩ := h.serverRead hstep
    exact ⟨l', r, h'⟩
  | serverMove e => exact ⟨l, r, h.serverMove hstep⟩
  | clientAct =>
    obtain ⟨r', h'⟩ := h.clientAct hstep
    exact ⟨l, r', h'⟩
  | clientRead =>
    obtain ⟨r', h'⟩ := h.clientRead hstep
    exact ⟨l, r', h'⟩
  | submit str =>
    cases hstep
    exact ⟨l, r, h.consistent, h.server, h.client, h.paired⟩

/-- **The two loops stay in step**, in every run of the connection. -/
theorem inStep_run {schedule : List Connection.Label}
    (hrun : Transition.run Connection.step schedule Connection.initial = some s) :
    ∃ l r, InStep s l r :=
  invariant_of_run (I := fun s => ∃ l r, InStep s l r)
    (fun _ _ _ ⟨_, _, h⟩ hstep => inStep_step h hstep) ⟨_, _, inStep_initial⟩ hrun

end Step

/-! ## What the two parties read -/

/-- What the client's cast, or its comparison, asks of the object it reads. -/
def ClientExpects : Point → Object → Prop
  | .receiveKeySet, o => ∃ keys, o = .keySet keys
  | .receiveMessage _, o => o = .message ⟨CommunicationProtocol.START_ROUND⟩
  | .receiveRoundResults, o => ∃ results, o = .results results
  | _, _ => True

/-- What the thread asks of the message it reads: an acknowledgement, or an output computed
with the keyset sent last. -/
def ServerExpects (keysSent : List KeySet) : ServerThread.Point → Message → Prop
  | .keysReply, m | .resultsReply, m => m = ⟨CommunicationProtocol.ACK⟩
  | .output, m =>
    ∃ c keys, keysSent.getLast? = some keys ∧ m = DiningLoop.transmit c keys ∧
      m.message ∉ CommunicationProtocol.controls
  | _, _ => True

section Reads

variable {s : Connection} {l r : Turn}

theorem InStep.client_expects (h : InStep s l r) {o : Object} (ho : s.toClient.head? = some o) :
    ClientExpects s.client.point o := by
  obtain ⟨server, ⟨point, input, shown, sent⟩, toClient, toServer, keysSent, outputs⟩ := s
  obtain ⟨rest, rfl⟩ := List.head?_eq_some_iff.mp ho
  obtain ⟨r', hmay, -, -⟩ := h.consistent.read_right
  have hclient : ClientAt sent point r := h.client
  cases hclient with
  | receiveKeySet =>
    cases hmay
    exact ⟨_, rfl⟩
  | receiveMessage =>
    cases hmay
    exact rfl
  | receiveRoundResults =>
    cases hmay
    exact ⟨_, rfl⟩
  | _ => trivial

theorem InStep.server_expects (h : InStep s l r) {m : Message} (hm : s.toServer.head? = some m) :
    ServerExpects s.keysSent s.server m := by
  obtain ⟨server, client, toClient, toServer, keysSent, outputs⟩ := s
  obtain ⟨rest, rfl⟩ := List.head?_eq_some_iff.mp hm
  obtain ⟨l', hmay, -, -⟩ := h.consistent.read_left
  have hserver : ServerAt keysSent outputs client.sent server l := h.server
  cases hserver with
  | keysReply =>
    cases hmay
    exact rfl
  | output hk hkeys ho =>
    cases hmay
    rename_i c
    refine ⟨c, _, ?_, rfl, fun hmem => DiningLoop.transmit_ne hmem c _ rfl⟩
    rw [List.getLast?_eq_getElem?, hk]
    exact hkeys
  | resultsReply =>
    cases hmay
    exact rfl
  | idle hp => cases server <;> first | exact hp.elim | trivial
  | gathering hp => cases server <;> first | exact hp.elim | trivial
  | sendStartRound | addOutput => trivial

/-- The thread is still in its loop. -/
theorem InStep.server_runs (h : InStep s l r) : s.server ≠ .left ∧ s.server ≠ .exited := by
  constructor <;> intro heq <;> have hserver := h.server <;> rw [heq] at hserver <;>
    cases hserver <;> exact ‹False›

/-- The client has not left its loop over an object it has read. -/
theorem InStep.client_runs (h : InStep s l r) {e : Ending} (he : s.client.point = .ended e) :
    e ≠ .shutdown ∧ e ≠ .unexpected ∧ e ≠ .threw .ClassCastException := by
  have hclient := h.client
  rw [he] at hclient
  cases hclient <;> exact ⟨nofun, nofun, nofun⟩

end Reads

/-- **The loops speak the same protocol.** In every run of the connection: whatever is at the
head of a queue is what the reader at its program point expects; neither loop has ended over
something it has read; and the output that `addOutput` received in a round was computed from
the character transmitted and the keyset sent in that round, and is no control string. -/
theorem same_protocol {schedule : List Connection.Label} {s : Connection}
    (hrun : Transition.run Connection.step schedule Connection.initial = some s) :
    (∀ o, s.toClient.head? = some o → ClientExpects s.client.point o) ∧
      (∀ m, s.toServer.head? = some m → ServerExpects s.keysSent s.server m) ∧
      s.server ≠ .left ∧ s.server ≠ .exited ∧
      s.client.point ≠ .ended .shutdown ∧ s.client.point ≠ .ended .unexpected ∧
      s.client.point ≠ .ended (.threw .ClassCastException) ∧
      ∀ (r : ℕ) (m : Message), s.outputs[r]? = some m →
        m.message ∉ CommunicationProtocol.controls ∧
          ∃ c keys, s.client.sent[r]? = some c ∧ s.keysSent[r]? = some keys ∧
            m = DiningLoop.transmit c keys := by
  obtain ⟨l, r, h⟩ := inStep_run hrun
  refine ⟨fun o ho => h.client_expects ho, fun m hm => h.server_expects hm,
    h.server_runs.1, h.server_runs.2, fun he => (h.client_runs he).1 rfl,
    fun he => (h.client_runs he).2.1 rfl, fun he => (h.client_runs he).2.2 rfl,
    fun i m hm => ?_⟩
  obtain ⟨c, keys, hc, hkeys, rfl⟩ := h.paired i m hm
  exact ⟨fun hmem => DiningLoop.transmit_ne hmem c keys rfl, c, keys, hc, hkeys, rfl⟩

/-- A round up to the call of `addOutput`, with the keyset that `getKeySet` returns. -/
def upToOutput (keys : KeySet) : List Connection.Label :=
  [.serverMove (.keySet keys), .serverSend, .clientRead, .clientAct, .serverRead, .serverSend,
    .clientRead, .clientAct, .serverRead, .serverMove .added]

/-- The rest of the round, with the result list. The first barrier holds the thread. -/
def fromOutput (results : List Message) : List Connection.Label :=
  [.serverMove .wait, .serverMove .notify, .serverMove .pass, .serverMove (.copy results),
    .serverSend, .clientRead, .clientAct, .serverRead, .serverMove .pass]

/-- The keysets of two clients in run `g`, under a key that is not zero. -/
def someKeys (g : ℕ) (c : Fin 2) : KeySet := keyset g 2 (fun _ _ => BitVec.ofNat 32 (g + 7)) c

/-- A client that is given `"AB"`: a whole round with another one, which is silent, and the next
round up to its output. -/
def secondOutput (keys other : ℕ → KeySet) : List Connection.Label :=
  [.submit (lit "AB"), .serverMove .generated] ++ upToOutput (keys 0) ++
    fromOutput [DiningLoop.transmit 0 (other 0), DiningLoop.transmit 65 (keys 0)] ++
    upToOutput (keys 1)

/-- Such a run, with the character and the keyset of either round. -/
theorem same_protocol_secondOutput :
    ∃ s, Transition.run Connection.step (secondOutput (someKeys · 0) (someKeys · 1))
        Connection.initial = some s ∧
      s.client.sent = [65, 66] ∧ s.keysSent = [someKeys 0 0, someKeys 1 0] ∧
      s.outputs.length = 2 ∧
      ∀ (r : ℕ) (m : Message), s.outputs[r]? = some m →
        m.message ∉ CommunicationProtocol.controls ∧
          ∃ c keys, s.client.sent[r]? = some c ∧ s.keysSent[r]? = some keys ∧
            m = DiningLoop.transmit c keys := by
  have hruns : ((Transition.run Connection.step (secondOutput (someKeys · 0) (someKeys · 1))
      Connection.initial).map fun s => (s.client.sent, s.keysSent, s.outputs.length)) =
      some ([65, 66], [someKeys 0 0, someKeys 1 0], 2) := by
    rfl
  obtain ⟨s, hrun, hs⟩ := Option.map_eq_some_iff.mp hruns
  obtain ⟨hsent, hs⟩ := Prod.mk.inj hs
  obtain ⟨hkeys, hlen⟩ := Prod.mk.inj hs
  obtain ⟨-, -, -, -, -, -, -, houtputs⟩ := same_protocol hrun
  exact ⟨s, hrun, hsent, hkeys, hlen, houtputs⟩

end DiningCrypto
