import DiningCrypto.Connection
import DiningCrypto.KeyRounds

/-!
# The network

The `n` threads over their shared object, the `n` client loops, and the two queues of every
connection, in one state. A thread's moves are those of `Server.step`, except that what it
reads is the head of its queue, and that what it writes is put into the other one; the clients
are those of `ClientLoop`. Strings are submitted at any time. Every order of these moves is a
run, so that `SharedServerInfo` is shared by threads which are held up by their clients as
well as by each other.

A call is one move: of the methods of `SharedServerInfo`, also of `generateKeySets`, which is not
`synchronized`, and of `inputString` and `getNextChar`, which share a `StrBuffer` without a lock.
Two calls that overlap are not among the runs. No connection fails, no window is closed, and a
thread that has left its loop makes no further move: what it does then is in `Service`.

A connection keeps records that no move looks at: the outputs its thread has read, the calls
at the input side of its client, and (in `Thread` and `Client`) the keysets handed out, the
lists sent and what has been transmitted. `Linked` is the invariant of a connection:
the records consist of the completed rounds, in the same order, and of a part of the present
one, which the two program points and the queues determine. It needs nothing of the barriers,
and holds in every run (`linked_run`).
-/

namespace DiningCrypto

open ClientLoop Transition

/-! ## The moves -/

namespace ServerThread

/-- At a read of the socket. -/
def reading : Point → Bool
  | .keysReply | .output | .resultsReply => true
  | _ => false

/-- What is written to the socket at a point. -/
def written (p : Point) : List Object := ((send p).map Prod.fst).toList

/-- Clients of which nothing is asked: the answers of a thread that is not reading. -/
def unasked (n : ℕ) : Answers n where
  output _ _ := ⟨CommunicationProtocol.ACK⟩
  ne_exit _ _ := by decide

end ServerThread

open ServerThread

/-- A call at the input side of a client: from outside the loop, or by it. -/
inductive InputCall : Type where
  | inputString (str : JString)
  | next

/-- The client's end of a connection, and the two queues. `outputs` records what the thread
has read as output, `calls` the calls at the client's input side. -/
structure Peer (ι γ δ : Type) : Type where
  client : Client ι γ δ
  toClient : List Object
  toServer : List Message
  outputs : List Message
  calls : List InputCall

/-- The threads, and a client for each of them. -/
structure Network (n : ℕ) (ι γ δ : Type) : Type where
  server : Server n
  peer : Fin n → Peer ι γ δ

/-- The call that a client makes between two reads. -/
def ClientLoop.polling : ClientLoop.Point → List InputCall
  | .transmit _ => [.next]
  | _ => []

namespace Network

variable {n : ℕ} {ι γ ρ δ : Type}

/-- Who moves. -/
inductive Label (n : ℕ) : Type where
  | thread (t : Fin n)
  /-- a client goes on from between two reads -/
  | act (i : Fin n)
  /-- a client reads -/
  | read (i : Fin n)
  /-- a string is submitted at a client -/
  | submit (i : Fin n) (str : JString)

/-- The connection at which somebody moves. -/
def Label.connection : Label n → Fin n
  | .thread i | .act i | .read i | .submit i _ => i

/-- Before anything has happened, for loops with this input side and this display. -/
def initial (n : ℕ) (input : ι) (shown : δ) : Network n ι γ δ where
  server := Server.initial n
  peer _ := ⟨⟨.receiveKeySet, input, shown, []⟩, [], [], [], []⟩

/-- The state after connection `i` has changed. -/
def put (s : Network n ι γ δ) (server : Server n) (i : Fin n) (p : Peer ι γ δ) :
    Network n ι γ δ :=
  ⟨server, Function.update s.peer i p⟩

variable (body : LoopBody ι γ ρ δ) (draw : ℕ → PairKeys n)

/-- A move of thread `t`. `none`: it cannot move, for instance because its queue is empty. -/
def serve (t : Fin n) (s : Network n ι γ δ) : Option (Network n ι γ δ) :=
  let th := s.server.thread t
  let p := s.peer t
  if reading th.point then
    match p.toServer with
    | [] => none
    | m :: toServer =>
      (ServerThread.receive th.point m).map fun point =>
        s.put (s.server.put t s.server.shared { th with point }) t
          { p with toServer, outputs := p.outputs ++ Connection.outputOf point }
  else
    (Server.step (unasked n) draw t s.server).map fun server =>
      s.put server t { p with toClient := p.toClient ++ written th.point }

/-- One move. -/
def step : Label n → Network n ι γ δ → Option (Network n ι γ δ)
  | .thread t, s => serve draw t s
  | .act i, s =>
    let p := s.peer i
    (act body p.client).map fun (sent, client) =>
      s.put s.server i
        { p with
          client
          toServer := p.toServer ++ sent.toList
          calls := p.calls ++ polling p.client.point }
  | .read i, s =>
    let p := s.peer i
    match p.toClient with
    | [] => none
    | o :: toClient =>
      (receive body p.client.point o).map fun point =>
        s.put s.server i { p with client := { p.client with point }, toClient }
  | .submit i str, s =>
    let p := s.peer i
    some (s.put s.server i
      { p with
        client := { p.client with input := body.inputString p.client.input str }
        calls := p.calls ++ [.inputString str] })

end Network

/-! ## One connection -/

/-- A round of a connection: the keyset, what the client has made of it, and the list it was
sent. -/
structure Past (γ : Type) : Type where
  keys : KeySet
  sent : γ
  results : List Message

/-- What there is of the present round: each of the lists has at most one element. -/
structure Present (γ : Type) : Type where
  keys : List KeySet
  sent : List γ
  outputs : List Message
  results : List (List Message)

section

variable {n : ℕ} {ι γ ρ δ : Type} (body : LoopBody ι γ ρ δ)

/-- The output of the round. -/
def Past.output (p : Past γ) : Message := body.transmit p.sent p.keys

/-- What a client has shown after the rounds `past`. A list that cannot be read shows nothing. -/
def shownAfter (shown : δ) (past : List (Past γ)) : δ :=
  past.foldl
    (fun shown p =>
      match body.collate p.results with
      | some r => body.showResult shown r
      | none => shown)
    shown

/-- The thread has nothing of the present round yet. -/
def Resting : ServerThread.Point → Prop
  | .generateKeySets | .getKeySet | .second | .waitSecond | .leaveSecond => True
  | _ => False

/-- The client is at its first read, or the last list has ended its loop. -/
def AtTop (past : List (Past γ)) (c : ClientLoop.Point) : Prop :=
  c = .receiveKeySet ∨
    c = .ended (.threw .NumberFormatException) ∧
      ∃ p, past.getLast? = some p ∧ body.collate p.results = none

/-- The points of the thread and the client, the two queues, and what there is of the present
round. -/
inductive Phase (past : List (Past γ)) :
    ServerThread.Point → ClientLoop.Point → List Object → List Message → Present γ → Prop where
  | resting {p : ServerThread.Point} {c : ClientLoop.Point} (hp : Resting p)
      (hc : AtTop body past c) : Phase past p c [] [] ⟨[], [], [], []⟩
  | sendKeys {k : KeySet} {c : ClientLoop.Point} (hc : AtTop body past c) :
      Phase past (.sendKeys k) c [] [] ⟨[k], [], [], []⟩
  | keySet {k : KeySet} {c : ClientLoop.Point} (hc : AtTop body past c) :
      Phase past .keysReply c [.keySet k] [] ⟨[k], [], [], []⟩
  | ackKeySet {k : KeySet} : Phase past .keysReply (.ackKeySet k) [] [] ⟨[k], [], [], []⟩
  | keySetAck {k : KeySet} :
      Phase past .keysReply (.receiveMessage k) [] [⟨CommunicationProtocol.ACK⟩]
        ⟨[k], [], [], []⟩
  | sendStartRound {k : KeySet} :
      Phase past .sendStartRound (.receiveMessage k) [] [] ⟨[k], [], [], []⟩
  | startRound {k : KeySet} :
      Phase past .output (.receiveMessage k) [.message ⟨CommunicationProtocol.START_ROUND⟩] []
        ⟨[k], [], [], []⟩
  | transmit {k : KeySet} : Phase past .output (.transmit k) [] [] ⟨[k], [], [], []⟩
  /-- the poll has thrown -/
  | noSlot {k : KeySet} :
      Phase past .output (.ended (.threw .ArrayIndexOutOfBoundsException)) [] []
        ⟨[k], [], [], []⟩
  | output {k : KeySet} {x : γ} :
      Phase past .output .receiveRoundResults [] [body.transmit x k] ⟨[k], [x], [], []⟩
  | addOutput {k : KeySet} {x : γ} :
      Phase past (.addOutput (body.transmit x k)) .receiveRoundResults [] []
        ⟨[k], [x], [body.transmit x k], []⟩
  /-- the output was the exit command -/
  | left {k : KeySet} {x : γ}
      (hexit : (body.transmit x k).message = CommunicationProtocol.CLIENT_EXIT) :
      Phase past .left .receiveRoundResults [] [] ⟨[k], [x], [], []⟩
  | gathering {p : ServerThread.Point} {k : KeySet} {x : γ} (hp : Gathering p) :
      Phase past p .receiveRoundResults [] [] ⟨[k], [x], [body.transmit x k], []⟩
  | results {k : KeySet} {x : γ} {l : List Message} :
      Phase past .resultsReply .receiveRoundResults [.results l] []
        ⟨[k], [x], [body.transmit x k], [l]⟩
  | ackResults {k : KeySet} {x : γ} {l : List Message} :
      Phase past .resultsReply (.ackResults l) [] [] ⟨[k], [x], [body.transmit x k], [l]⟩
  /-- the look at the list has ended the loop -/
  | refused {k : KeySet} {x : γ} {l : List Message} {e : Ending} (he : body.check l = some e) :
      Phase past .resultsReply (.ended e) [] [] ⟨[k], [x], [body.transmit x k], [l]⟩
  | resultsAck {c : ClientLoop.Point} (hc : AtTop body past c) :
      Phase past .resultsReply c [] [⟨CommunicationProtocol.ACK⟩] ⟨[], [], [], []⟩

/-- The records of a connection are those of the rounds `past` and of the present one. -/
structure Linked (shown : δ) (th : Thread) (p : Peer ι γ δ) (past : List (Past γ))
    (now : Present γ) : Prop where
  phase : Phase body past th.point p.client.point p.toClient p.toServer now
  keys : th.keys = past.map Past.keys ++ now.keys
  sent : p.client.sent = past.map Past.sent ++ now.sent
  outputs : p.outputs = past.map (Past.output body) ++ now.outputs
  results : th.results = past.map Past.results ++ now.results
  shown : p.client.shown = shownAfter body shown past
  noExit : ∀ m ∈ p.outputs, m.message ≠ CommunicationProtocol.CLIENT_EXIT

end

section Phase

variable {ι γ ρ δ : Type} {body : LoopBody ι γ ρ δ} {past : List (Past γ)}
  {p p' : ServerThread.Point} {c c' : ClientLoop.Point} {toClient : List Object}
  {toServer : List Message} {now : Present γ}

/-- The thread moves on between two rounds. -/
theorem Phase.rest (h : Phase body past p c toClient toServer now) (hp : Resting p)
    (hp' : Resting p') : Phase body past p' c toClient toServer now := by
  cases h with
  | resting _ hc => exact .resting hp' hc
  | gathering hg => cases p <;> first | exact hp.elim | exact hg.elim
  | _ => exact hp.elim

/-- It takes the keyset of the next round. -/
theorem Phase.take (h : Phase body past p c toClient toServer now) (hp : Resting p)
    (k : KeySet) :
    now = ⟨[], [], [], []⟩ ∧
      Phase body past (.sendKeys k) c toClient toServer ⟨[k], [], [], []⟩ := by
  cases h with
  | resting _ hc => exact ⟨rfl, .sendKeys hc⟩
  | gathering hg => cases p <;> first | exact hp.elim | exact hg.elim
  | _ => exact hp.elim

/-- It moves on between the output and the result list. -/
theorem Phase.gather (h : Phase body past p c toClient toServer now) (hp : Gathering p)
    (hp' : Gathering p') : Phase body past p' c toClient toServer now := by
  cases h with
  | gathering _ => exact .gathering hp'
  | resting hr => cases p <;> first | exact hp.elim | exact hr.elim
  | _ => exact hp.elim

theorem Phase.add {output : Message}
    (h : Phase body past (.addOutput output) c toClient toServer now) :
    Phase body past .first c toClient toServer now := by
  cases h with
  | addOutput => exact .gathering trivial
  | resting hp => exact hp.elim
  | gathering hp => exact hp.elim

theorem Phase.wake (h : Phase body past p c toClient toServer now) :
    Phase body past (wake p) c toClient toServer now := by
  cases p with
  | waitFirst => exact h.gather trivial trivial
  | waitSecond => exact h.rest trivial trivial
  | _ => exact h

/-- A thread exits only over a reply that is no acknowledgement. -/
theorem Phase.ne_exited (h : Phase body past p c toClient toServer now) : p ≠ .exited := by
  rintro rfl
  cases h with
  | resting hp => exact hp
  | gathering hp => exact hp

/-- There is at most one of everything in the present round, and one object in the queues. -/
theorem Phase.atMostOne (h : Phase body past p c toClient toServer now) :
    now.keys.length ≤ 1 ∧ now.sent.length ≤ 1 ∧ now.outputs.length ≤ 1 ∧
      now.results.length ≤ 1 ∧ toClient.length + toServer.length ≤ 1 := by
  cases h <;> simp

/-- A thread leaves its loop over what its client has transmitted. -/
theorem Phase.sent_left (h : Phase body past .left c toClient toServer now) :
    ∃ k x, now.sent = [x] ∧
      (body.transmit x k).message = CommunicationProtocol.CLIENT_EXIT := by
  cases h with
  | left hexit => exact ⟨_, _, rfl, hexit⟩
  | resting hp => exact hp.elim
  | gathering hp => exact hp.elim

/-- What a loop has ended over. -/
theorem Phase.ended {e : Ending} (h : Phase body past p (.ended e) toClient toServer now) :
    (∃ q ∈ past, body.collate q.results = none) ∨
      e = .threw .ArrayIndexOutOfBoundsException ∨
      ∃ l ∈ now.results, body.check l = some e := by
  cases h with
  | resting _ hc | sendKeys hc | keySet hc | resultsAck hc =>
    rcases hc with hc | ⟨-, q, hq, hread⟩
    · cases hc
    · exact .inl ⟨q, List.mem_of_getLast? hq, hread⟩
  | noSlot => exact .inr (.inl rfl)
  | refused he => exact .inr (.inr ⟨_, List.mem_singleton_self _, he⟩)

end Phase

namespace Linked

variable {n : ℕ} {ι γ ρ δ : Type} {body : LoopBody ι γ ρ δ} {draw : ℕ → PairKeys n} {shown : δ}
  {th th' : Thread} {p : Peer ι γ δ} {past : List (Past γ)} {now : Present γ}

theorem initial (body : LoopBody ι γ ρ δ) (input : ι) (shown : δ) :
    Linked body shown Thread.new ⟨⟨.receiveKeySet, input, shown, []⟩, [], [], [], []⟩ []
      ⟨[], [], [], []⟩ :=
  ⟨.resting trivial (.inl rfl), rfl, rfl, rfl, rfl, rfl, nofun⟩

/-- A move of the thread that leaves the records alone. -/
theorem move (h : Linked body shown th p past now)
    (hphase : Phase body past th'.point p.client.point p.toClient p.toServer now)
    (hkeys : th'.keys = th.keys) (hresults : th'.results = th.results) :
    Linked body shown th' p past now :=
  ⟨hphase, hkeys ▸ h.keys, h.sent, h.outputs, hresults ▸ h.results, h.shown, h.noExit⟩

theorem wake (h : Linked body shown th p past now) :
    Linked body shown { th with point := ServerThread.wake th.point } p past now :=
  h.move h.phase.wake rfl rfl

end Linked

/-! ## The moves of a connection -/

namespace Linked

variable {n : ℕ} {ι γ ρ δ : Type} {body : LoopBody ι γ ρ δ} {shown : δ}
  {th th' : Thread} {p : Peer ι γ δ} {past : List (Past γ)} {now : Present γ}

/-- The thread moves on its own, and writes what there is to write. -/
theorem own {answers : Answers n} {info : SharedServerInfo n} {t : Fin n}
    (h : Linked body shown th p past now) (hread : reading th.point = false)
    (hown : Server.Own answers t info th th') :
    ∃ now', Linked body shown th' { p with toClient := p.toClient ++ written th.point } past
      now' := by
  obtain ⟨point, round, keys, results⟩ := th
  obtain ⟨⟨c, input, display, sent⟩, toClient, toServer, outputs, calls⟩ := p
  obtain ⟨hphase, hkeys, hsent, houts, hresults, hshown, hexits⟩ := h
  cases hown with
  | sendKeys hp =>
    obtain rfl := hp
    cases hphase with
    | sendKeys hc => exact ⟨_, .keySet hc, hkeys, hsent, houts, hresults, hshown, hexits⟩
    | resting hp => exact hp.elim
    | gathering hp => exact hp.elim
  | sendStartRound hp =>
    obtain rfl := hp
    cases hphase with
    | sendStartRound => exact ⟨_, .startRound, hkeys, hsent, houts, hresults, hshown, hexits⟩
    | resting hp => exact hp.elim
    | gathering hp => exact hp.elim
  | sendResults hp =>
    rename_i l
    obtain rfl := hp
    cases hphase with
    | gathering =>
      refine ⟨_, .results, hkeys, hsent, houts, ?_, hshown, hexits⟩
      obtain rfl : results = past.map Past.results ++ [] := hresults
      rw [List.append_nil]
    | resting hp => exact hp.elim
  | leaveFirst hp =>
    obtain rfl := hp
    exact ⟨now, (List.append_nil toClient).symm ▸ hphase.gather trivial trivial,
      hkeys, hsent, houts, hresults, hshown, hexits⟩
  | copyResults hp =>
    obtain rfl := hp
    exact ⟨now, (List.append_nil toClient).symm ▸ hphase.gather trivial trivial,
      hkeys, hsent, houts, hresults, hshown, hexits⟩
  | leaveSecond hp =>
    obtain rfl := hp
    exact ⟨now, (List.append_nil toClient).symm ▸ hphase.rest trivial trivial,
      hkeys, hsent, houts, hresults, hshown, hexits⟩
  | keysReply hp | output hp | resultsReply hp =>
    obtain rfl := hp
    cases hread

/-- The thread takes a keyset. -/
theorem take (h : Linked body shown th p past now) (hp : th.point = .getKeySet) (k : KeySet) :
    Linked body shown { th with point := .sendKeys k, keys := th.keys ++ [k] } p past
      ⟨[k], [], [], []⟩ := by
  obtain ⟨rfl, hphase⟩ := h.phase.take (hp ▸ trivial) k
  refine ⟨hphase, ?_, h.sent, h.outputs, h.results, h.shown, h.noExit⟩
  rw [h.keys, List.append_nil]

/-- The thread reads what stands at the head of its queue. -/
theorem receive (h : Linked body shown th p past now) {m : Message} {toServer : List Message}
    {point : ServerThread.Point} (hm : p.toServer = m :: toServer)
    (hreceive : ServerThread.receive th.point m = some point) :
    ∃ now', Linked body shown { th with point }
      { p with toServer, outputs := p.outputs ++ Connection.outputOf point } past now' := by
  obtain ⟨sp, round, keys, results⟩ := th
  obtain ⟨⟨c, input, display, sent⟩, toClient, _, outputs, calls⟩ := p
  obtain ⟨hphase, hkeys, hsent, houts, hresults, hshown, hexits⟩ := h
  obtain rfl := hm
  -- but for an output nothing is recorded
  have hnone : ∀ point : ServerThread.Point, Connection.outputOf point = [] →
      outputs ++ Connection.outputOf point = outputs := by
    intro point hpoint
    rw [hpoint, List.append_nil]
  cases hphase with
  | keySetAck =>
    simp only [ServerThread.receive, if_true, Option.some.injEq] at hreceive
    obtain rfl := hreceive
    exact ⟨_, .sendStartRound, hkeys, hsent, (hnone .sendStartRound rfl).trans houts, hresults,
      hshown, (hnone .sendStartRound rfl).symm ▸ hexits⟩
  | output =>
    rename_i k x
    simp only [ServerThread.receive, Option.some.injEq] at hreceive
    by_cases hexit : (body.transmit x k).message = CommunicationProtocol.CLIENT_EXIT
    · rw [if_pos hexit] at hreceive
      obtain rfl := hreceive
      exact ⟨_, .left hexit, hkeys, hsent, (hnone .left rfl).trans houts, hresults,
        hshown, (hnone .left rfl).symm ▸ hexits⟩
    · rw [if_neg hexit] at hreceive
      obtain rfl := hreceive
      obtain rfl : outputs = past.map (Past.output body) ++ [] := houts
      refine ⟨_, .addOutput, hkeys, hsent, by rw [List.append_nil]; rfl, hresults, hshown, ?_⟩
      intro m hm
      rcases List.mem_append.mp hm with hm | hm
      · exact hexits m hm
      · rw [List.mem_singleton.mp hm]
        exact hexit
  | resultsAck hc =>
    simp only [ServerThread.receive, if_true, Option.some.injEq] at hreceive
    obtain rfl := hreceive
    exact ⟨_, .resting trivial hc, hkeys, hsent, (hnone .second rfl).trans houts, hresults,
      hshown, (hnone .second rfl).symm ▸ hexits⟩

/-- The client goes on from between two reads. After the result list the round is over, and
is one of the past. -/
theorem act (h : Linked body shown th p past now) {sent : Option Message}
    {client : Client ι γ δ} (hact : ClientLoop.act body p.client = some (sent, client)) :
    ∃ past' now', Linked body shown th
      { p with
        client
        toServer := p.toServer ++ sent.toList
        calls := p.calls ++ polling p.client.point } past' now' := by
  obtain ⟨sp, round, keys, results⟩ := th
  obtain ⟨⟨c, input, display, log⟩, toClient, toServer, outputs, calls⟩ := p
  obtain ⟨hphase, hkeys, hsent, houts, hresults, hshown, hexits⟩ := h
  cases hphase with
  | ackKeySet =>
    cases hact
    exact ⟨past, _, .keySetAck, hkeys, hsent, houts, hresults, hshown, hexits⟩
  | transmit =>
    rename_i k
    obtain rfl : log = past.map Past.sent ++ [] := hsent
    rcases hnext : body.next input with _ | ⟨x, input'⟩
    · simp only [ClientLoop.act, hnext, Option.some.injEq, Prod.mk.injEq] at hact
      obtain ⟨rfl, rfl⟩ := hact
      exact ⟨past, _, .noSlot, hkeys, rfl, houts, hresults, hshown, hexits⟩
    · simp only [ClientLoop.act, hnext, Option.some.injEq, Prod.mk.injEq] at hact
      obtain ⟨rfl, rfl⟩ := hact
      exact ⟨past, _, .output, hkeys, by rw [List.append_nil], houts, hresults, hshown, hexits⟩
  | ackResults =>
    rename_i k x l
    -- the round joins the past
    have hlast : (past ++ [Past.mk k x l]).getLast? = some ⟨k, x, l⟩ := List.getLast?_concat
    have hafter : shownAfter body shown (past ++ [⟨k, x, l⟩]) =
        match body.collate l with
        | some r => body.showResult (shownAfter body shown past) r
        | none => shownAfter body shown past := by
      rw [shownAfter, List.foldl_concat]
      rfl
    obtain rfl : display = shownAfter body shown past := hshown
    have joined : ∀ {c : ClientLoop.Point} {toServer : List Message} {display : δ},
        Phase body (past ++ [⟨k, x, l⟩]) .resultsReply c [] toServer ⟨[], [], [], []⟩ →
        display = shownAfter body shown (past ++ [⟨k, x, l⟩]) →
        Linked body shown ⟨.resultsReply, round, keys, results⟩
          ⟨⟨c, input, display, log⟩, [], toServer, outputs, calls ++ []⟩ (past ++ [⟨k, x, l⟩])
          ⟨[], [], [], []⟩ := by
      intro c toServer display hphase hshown
      refine ⟨hphase, ?_, ?_, ?_, ?_, hshown, hexits⟩
      · simpa using hkeys
      · simpa using hsent
      · simpa [Past.output] using houts
      · simpa using hresults
    rcases hread : body.collate l with _ | r
    · simp only [ClientLoop.act, hread, Option.some.injEq, Prod.mk.injEq] at hact
      obtain ⟨rfl, rfl⟩ := hact
      rw [hread] at hafter
      exact ⟨_, _, joined (.resultsAck (.inr ⟨rfl, _, hlast, hread⟩)) hafter.symm⟩
    · simp only [ClientLoop.act, hread, Option.some.injEq, Prod.mk.injEq] at hact
      obtain ⟨rfl, rfl⟩ := hact
      rw [hread] at hafter
      exact ⟨_, _, joined (.resultsAck (.inl rfl)) hafter.symm⟩
  | resting _ hc | sendKeys hc | keySet hc | resultsAck hc =>
    rcases hc with rfl | ⟨rfl, -⟩ <;> cases hact
  | _ => cases hact

/-- The client reads what stands at the head of its queue. -/
theorem read (h : Linked body shown th p past now) {o : Object} {toClient : List Object}
    {point : ClientLoop.Point} (ho : p.toClient = o :: toClient)
    (hreceive : ClientLoop.receive body p.client.point o = some point) :
    Linked body shown th { p with client := { p.client with point }, toClient } past now := by
  obtain ⟨sp, round, keys, results⟩ := th
  obtain ⟨⟨c, input, display, log⟩, _, toServer, outputs, calls⟩ := p
  obtain ⟨hphase, hkeys, hsent, houts, hresults, hshown, hexits⟩ := h
  obtain rfl := ho
  refine ⟨?_, hkeys, hsent, houts, hresults, hshown, hexits⟩
  cases hphase with
  | keySet hc =>
    rcases hc with rfl | ⟨rfl, -⟩
    · cases hreceive
      exact .ackKeySet
    · cases hreceive
  | startRound =>
    simp only [ClientLoop.receive, if_true, Option.some.injEq] at hreceive
    exact hreceive ▸ .transmit
  | results =>
    rename_i k x l
    rcases hcheck : body.check l with _ | e
    · simp only [ClientLoop.receive, hcheck, Option.some.injEq] at hreceive
      exact hreceive ▸ .ackResults
    · simp only [ClientLoop.receive, hcheck, Option.some.injEq] at hreceive
      exact hreceive ▸ .refused hcheck

/-- A string is submitted. -/
theorem submit (h : Linked body shown th p past now) (str : JString) :
    Linked body shown th
      { p with
        client := { p.client with input := body.inputString p.client.input str }
        calls := p.calls ++ [.inputString str] } past now :=
  ⟨h.phase, h.keys, h.sent, h.outputs, h.results, h.shown, h.noExit⟩

end Linked

/-! ## Runs -/

namespace Server

variable {n : ℕ} {answers : Answers n} {draw : ℕ → PairKeys n} {s s' : Server n} {t u : Fin n}

/-- What a move of a thread does to another one: nothing, or it wakes it. -/
theorem Effect.other (h : Effect answers draw t s s') (hu : u ≠ t) :
    s'.thread u = s.thread u ∨
      s'.thread u = { s.thread u with point := wake (s.thread u).point } := by
  cases h with
  | passFirst _ _ | finish _ _ => exact .inr (Server.thread_put_of_ne _ _ hu)
  | _ => exact .inl (Server.thread_put_of_ne _ _ hu)

end Server

namespace Network

variable {n : ℕ} {ι γ ρ δ : Type} {body : LoopBody ι γ ρ δ} {draw : ℕ → PairKeys n} {input : ι}
  {shown : δ} {s s' : Network n ι γ δ} {t i j : Fin n}

theorem peer_put_self (s : Network n ι γ δ) (server : Server n) (p : Peer ι γ δ) :
    (s.put server i p).peer i = p := Function.update_self ..

theorem peer_put_of_ne (s : Network n ι γ δ) (server : Server n) (p : Peer ι γ δ) (h : j ≠ i) :
    (s.put server i p).peer j = s.peer j := Function.update_of_ne h ..

/-- The two ways in which a thread moves: it reads from its client, or it does not. -/
theorem serve_cases (h : serve draw t s = some s') :
    (∃ m toServer point, reading (s.server.thread t).point = true ∧
      (s.peer t).toServer = m :: toServer ∧
      ServerThread.receive (s.server.thread t).point m = some point ∧
      s' = s.put (s.server.put t s.server.shared { s.server.thread t with point }) t
        { s.peer t with
          toServer
          outputs := (s.peer t).outputs ++ Connection.outputOf point }) ∨
    ∃ server, reading (s.server.thread t).point = false ∧
      Server.step (unasked n) draw t s.server = some server ∧
      s' = s.put server t
        { s.peer t with
          toClient := (s.peer t).toClient ++ written (s.server.thread t).point } := by
  unfold serve at h
  by_cases hread : reading (s.server.thread t).point = true
  · rw [if_pos hread] at h
    rcases hq : (s.peer t).toServer with _ | ⟨m, toServer⟩
    · simp only [hq, reduceCtorEq] at h
    · simp only [hq, Option.map_eq_some_iff] at h
      obtain ⟨point, hpoint, rfl⟩ := h
      exact .inl ⟨m, toServer, point, hread, rfl, hpoint, rfl⟩
  · rw [if_neg hread, Option.map_eq_some_iff] at h
    obtain ⟨server, hstep, rfl⟩ := h
    exact .inr ⟨server, Bool.eq_false_iff.mpr hread, hstep, rfl⟩

/-- Every other move leaves the server and what it has read alone. -/
theorem client_step {label : Label n} (hstep : step body draw label s = some s')
    (hlabel : ∀ t, label ≠ .thread t) :
    ∃ i p, s' = s.put s.server i p ∧ p.outputs = (s.peer i).outputs := by
  cases label with
  | thread t => exact absurd rfl (hlabel t)
  | act i =>
    obtain ⟨⟨sent, client⟩, -, rfl⟩ := Option.map_eq_some_iff.mp hstep
    exact ⟨i, _, rfl, rfl⟩
  | read i =>
    simp only [step] at hstep
    rcases hq : (s.peer i).toClient with _ | ⟨o, toClient⟩
    · simp only [hq, reduceCtorEq] at hstep
    simp only [hq] at hstep
    obtain ⟨point, -, rfl⟩ := Option.map_eq_some_iff.mp hstep
    exact ⟨i, _, rfl, rfl⟩
  | submit i str =>
    obtain rfl := Option.some.inj hstep
    exact ⟨i, _, rfl, rfl⟩

/-- Every connection is linked. -/
def AllLinked (body : LoopBody ι γ ρ δ) (shown : δ) (s : Network n ι γ δ) : Prop :=
  ∀ i, ∃ past now, Linked body shown (s.server.thread i) (s.peer i) past now

/-- A move of a thread that reads nothing, at its own connection. -/
theorem linked_effect {server server' : Server n} {p : Peer ι γ δ} {past : List (Past γ)}
    {now : Present γ} (h : Linked body shown (server.thread t) p past now)
    (hread : reading (server.thread t).point = false)
    (heffect : Server.Effect (unasked n) draw t server server') :
    ∃ now', Linked body shown (server'.thread t)
      { p with toClient := p.toClient ++ written (server.thread t).point } past now' := by
  -- most moves write nothing
  have silent : ∀ {th' : Thread} {now' : Present γ}, written (server.thread t).point = [] →
      Linked body shown th' p past now' →
      ∃ now', Linked body shown th'
        { p with toClient := p.toClient ++ written (server.thread t).point } past now' := by
    intro th' now' hnone h'
    rw [hnone, List.append_nil]
    exact ⟨now', h'⟩
  cases heffect with
  | own hown =>
    rw [Server.thread_put_self]
    exact h.own hread hown
  | generateKeySets hp =>
    rw [Server.thread_put_self]
    have hphase := h.phase
    rw [hp] at hphase
    exact silent (by rw [hp]; rfl) (h.move (hphase.rest trivial trivial) rfl rfl)
  | getKeySet hp hget =>
    rw [Server.thread_put_self]
    exact silent (by rw [hp]; rfl) (h.take hp _)
  | addOutput hp =>
    rw [Server.thread_put_self]
    have hphase := h.phase
    rw [hp] at hphase
    exact silent (by rw [hp]; rfl) (h.move hphase.add rfl rfl)
  | parkFirst hp _ | passFirst hp _ =>
    rw [Server.thread_put_self]
    have hphase := h.phase
    rw [hp] at hphase
    exact silent (by rw [hp]; rfl) (h.move (hphase.gather trivial trivial) rfl rfl)
  | parkSecond hp _ | finish hp _ =>
    rw [Server.thread_put_self]
    have hphase := h.phase
    rw [hp] at hphase
    exact silent (by rw [hp]; rfl) (h.move (hphase.rest trivial trivial) rfl rfl)

/-- What a move does to connection `j`. -/
inductive Effect (body : LoopBody ι γ ρ δ) (draw : ℕ → PairKeys n) (s : Network n ι γ δ)
    (j : Fin n) : Label n → Thread → Peer ι γ δ → Prop where
  | idle {label : Label n} (hj : label.connection ≠ j) :
      Effect body draw s j label (s.server.thread j) (s.peer j)
  | wake {t : Fin n} (hj : t ≠ j) :
      Effect body draw s j (.thread t)
        { s.server.thread j with point := wake (s.server.thread j).point } (s.peer j)
  | receive {m : Message} {toServer : List Message} {point : ServerThread.Point}
      (hm : (s.peer j).toServer = m :: toServer)
      (hreceive : ServerThread.receive (s.server.thread j).point m = some point) :
      Effect body draw s j (.thread j) { s.server.thread j with point }
        { s.peer j with
          toServer
          outputs := (s.peer j).outputs ++ Connection.outputOf point }
  | own {server : Server n} (hread : reading (s.server.thread j).point = false)
      (h : Server.Effect (unasked n) draw j s.server server) :
      Effect body draw s j (.thread j) (server.thread j)
        { s.peer j with
          toClient := (s.peer j).toClient ++ written (s.server.thread j).point }
  | act {sent : Option Message} {client : Client ι γ δ}
      (hact : ClientLoop.act body (s.peer j).client = some (sent, client)) :
      Effect body draw s j (.act j) (s.server.thread j)
        { s.peer j with
          client
          toServer := (s.peer j).toServer ++ sent.toList
          calls := (s.peer j).calls ++ polling (s.peer j).client.point }
  | read {o : Object} {toClient : List Object} {point : ClientLoop.Point}
      (ho : (s.peer j).toClient = o :: toClient)
      (hreceive : ClientLoop.receive body (s.peer j).client.point o = some point) :
      Effect body draw s j (.read j) (s.server.thread j)
        { s.peer j with client := { (s.peer j).client with point }, toClient }
  | submit (str : JString) :
      Effect body draw s j (.submit j str) (s.server.thread j)
        { s.peer j with
          client :=
            { (s.peer j).client with
              input := body.inputString (s.peer j).client.input str }
          calls := (s.peer j).calls ++ [.inputString str] }

/-- Every move is one of these. -/
theorem step_effect {label : Label n} (hstep : step body draw label s = some s') (j : Fin n) :
    Effect body draw s j label (s'.server.thread j) (s'.peer j) := by
  cases label with
  | thread t =>
    rcases serve_cases hstep with ⟨m, toServer, point, -, hm, hreceive, rfl⟩ |
      ⟨server, hread, hserver, rfl⟩
    · by_cases hj : j = t
      · subst hj
        rw [peer_put_self]
        exact (Server.thread_put_self ..).symm ▸ .receive hm hreceive
      · rw [peer_put_of_ne _ _ _ hj]
        exact (Server.thread_put_of_ne _ _ hj).symm ▸ .idle (Ne.symm hj)
    · have heffect := Server.step_effect (unasked n) draw hserver
      by_cases hj : j = t
      · subst hj
        rw [peer_put_self]
        exact .own hread heffect
      · rw [peer_put_of_ne _ _ _ hj]
        rcases heffect.other hj with hsame | hwoken
        · exact hsame.symm ▸ .idle (Ne.symm hj)
        · exact hwoken.symm ▸ .wake (Ne.symm hj)
  | act i =>
    obtain ⟨⟨sent, client⟩, hact, rfl⟩ := Option.map_eq_some_iff.mp hstep
    by_cases hj : j = i
    · subst hj
      rw [peer_put_self]
      exact .act hact
    · rw [peer_put_of_ne _ _ _ hj]
      exact .idle (Ne.symm hj)
  | read i =>
    simp only [step] at hstep
    rcases hq : (s.peer i).toClient with _ | ⟨o, toClient⟩
    · simp only [hq, reduceCtorEq] at hstep
    simp only [hq] at hstep
    obtain ⟨point, hpoint, rfl⟩ := Option.map_eq_some_iff.mp hstep
    by_cases hj : j = i
    · subst hj
      rw [peer_put_self]
      exact .read hq hpoint
    · rw [peer_put_of_ne _ _ _ hj]
      exact .idle (Ne.symm hj)
  | submit i str =>
    obtain rfl := Option.some.inj hstep
    by_cases hj : j = i
    · subst hj
      rw [peer_put_self]
      exact .submit str
    · rw [peer_put_of_ne _ _ _ hj]
      exact .idle (Ne.symm hj)

/-- A connection stays linked, whatever happens to it. -/
theorem Effect.linked {label : Label n} {th : Thread} {p : Peer ι γ δ}
    (heffect : Effect body draw s j label th p)
    (h : ∃ past now, Linked body shown (s.server.thread j) (s.peer j) past now) :
    ∃ past now, Linked body shown th p past now := by
  obtain ⟨past, now, h⟩ := h
  cases heffect with
  | idle _ => exact ⟨past, now, h⟩
  | wake _ => exact ⟨past, now, h.wake⟩
  | receive hm hreceive => exact ⟨past, h.receive hm hreceive⟩
  | own hread heffect => exact ⟨past, linked_effect h hread heffect⟩
  | act hact => exact h.act hact
  | read ho hreceive => exact ⟨past, now, h.read ho hreceive⟩
  | submit str => exact ⟨past, now, h.submit str⟩

/-- **One step** keeps every connection linked. -/
theorem allLinked_step {label : Label n} (h : AllLinked body shown s)
    (hstep : step body draw label s = some s') : AllLinked body shown s' :=
  fun j => (step_effect hstep j).linked (h j)

/-- **The connections stay linked**, in every run. -/
theorem linked_run {labels : List (Label n)}
    (hrun : Transition.run (step body draw) labels (initial n input shown) = some s) :
    AllLinked body shown s :=
  invariant_of_run (fun _ _ _ h hstep => allLinked_step h hstep)
    (fun _ => ⟨[], _, Linked.initial body input shown⟩) hrun

/-- A round of two clients. -/
def wholeRound (i j : Fin n) : List (Label n) :=
  let upToOutput (t : Fin n) : List (Label n) :=
    [.thread t, .thread t, .read t, .act t, .thread t, .thread t, .read t, .act t, .thread t,
      .thread t]
  let results (t : Fin n) : List (Label n) := [.thread t, .thread t, .read t, .act t, .thread t]
  upToOutput i ++ upToOutput j ++ [.thread i, .thread j] ++ results i ++ results j ++
    [.thread i, .thread j, .thread i]

/-- The first two rounds, with something to say at the first client. -/
def twoRounds (i j : Fin n) : List (Label n) :=
  [.submit i (lit "A"), .thread i, .thread j] ++ wholeRound i j ++ wholeRound i j

end Network

end DiningCrypto
