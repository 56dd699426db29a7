import DiningCrypto.Chat
import DiningCrypto.Disconnect

/-!
# The exit command

What `ServerThread.run` does after its loop: the thread sends `SHUTDOWN` to all clients, one
after the other, while the other threads go on, and then ends the program. A `Service` is a
network in which this happens. It also has another way in which the program ends: a client
whose `run` has returned closes its socket, and the read or write of a thread at that socket
throws. A client whose window is closed does the same to the server; nobody closes a window here.

The two get into each other's way. A client can be anywhere in its round when `SHUTDOWN` comes,
and takes it for what it is only between the keyset and the start of the round; anywhere else its
loop ends over an exception, and its socket stays open (`shut_down_iff`). In particular this is
how the client ends whose user has typed the command. Everybody who has been told ends, with at
most three more moves (`told_ends`). But as soon as one client has been shut down as it should,
its thread can end the program before the others have been told (`exit_run`).
-/

namespace DiningCrypto

open ClientLoop Transition ServerThread

/-! ## The service -/

/-- The process has ended, or `Client.main` has got to `disconnect`. After an exception the
window keeps the process alive. -/
def ClientLoop.gone : ClientLoop.Point → Bool
  | .ended (.threw _) => false
  | .ended _ => true
  | _ => false

theorem ClientLoop.ended_of_gone {c : ClientLoop.Point} (h : gone c = true) :
    ∃ e, c = .ended e := by
  cases c with
  | ended e => exact ⟨e, rfl⟩
  | _ => cases h

theorem ClientLoop.gone_of_returned {c : ClientLoop.Point} (h : Returned c) : gone c = true := by
  rcases h with rfl | rfl <;> rfl

/-- A network, to how many clients each thread has sent `SHUTDOWN` after its loop, and whether
the server still runs. -/
structure Service (n : ℕ) (ι γ δ : Type) : Type where
  network : Network n ι γ δ
  shutdowns : Fin n → ℕ
  running : Bool

namespace Service

variable {n : ℕ} {ι γ ρ δ : Type}

/-- Who moves. -/
inductive Label (n : ℕ) : Type where
  | move (label : Network.Label n)
  /-- `c.send(finalMessage)`, for the next client -/
  | send (t : Fin n)
  /-- `System.exit`, called by thread `t` -/
  | exit (t : Fin n)
  /-- an `IOException` at thread `t` -/
  | fail (t : Fin n)
  /-- an `EOFException` at client `i` -/
  | eof (i : Fin n)
  /-- the send of client `i` raises an `IOException` -/
  | lost (i : Fin n)

/-- The server does nothing any more when it has ended, and no client loses its connection before.
-/
def Label.possible : Label n → Bool → Bool
  | .move (.thread _), running | .send _, running | .exit _, running | .fail _, running => running
  | .move _, _ => true
  | .eof _, running | .lost _, running => !running

/-- A move of the loop of client `i`. -/
def Label.own (i : Fin n) : Label n → Bool
  | .move (.act j) | .move (.read j) | .eof j | .lost j => j = i
  | _ => false

/-- Before anything has happened. -/
def initial (n : ℕ) (input : ι) (shown : δ) : Service n ι γ δ :=
  ⟨Network.initial n input shown, fun _ => 0, true⟩

/-- The next client that thread `t` sends `SHUTDOWN` to. -/
def next (s : Service n ι γ δ) (t : Fin n) : Option (Fin n) :=
  if h : s.shutdowns t < n then some ⟨s.shutdowns t, h⟩ else none

/-- The client at whose socket thread `t` reads or writes. -/
def socket (s : Service n ι γ δ) (t : Fin n) : Option (Fin n) :=
  let p := (s.network.server.thread t).point
  if out p then s.next t
  else if reading p || (ServerThread.send p).isSome then some t
  else none

/-- The state after the end of connection `i` has changed. -/
def put (s : Service n ι γ δ) (i : Fin n) (p : Peer ι γ δ) : Service n ι γ δ :=
  { s with network := s.network.put s.network.server i p }

variable (body : LoopBody ι γ ρ δ) (draw : ℕ → PairKeys n)

/-- One move, whether or not the server runs. -/
def perform (s : Service n ι γ δ) : Label n → Option (Service n ι γ δ)
  | .move label => (Network.step body draw label s.network).map fun network => { s with network }
  | .send t =>
    if out (s.network.server.thread t).point then
      (s.next t).map fun c =>
        let p := s.network.peer c
        { s.put c { p with toClient := p.toClient ++ [shutdownMessage] } with
          shutdowns := Function.update s.shutdowns t (s.shutdowns t + 1) }
    else none
  | .exit t =>
    match (s.network.server.thread t).point with
    | .left => if s.shutdowns t = n then some { s with running := false } else none
    | .exited => some { s with running := false }
    | _ => none
  | .fail t =>
    if (s.socket t).any fun c => gone (s.network.peer c).client.point then
      some { s with running := false }
    else none
  | .eof i =>
    let p := s.network.peer i
    if p.toClient.isEmpty && ClientLoop.reading p.client.point then
      some (s.put i { p with client := { p.client with point := .receiveKeySet } })
    else none
  | .lost i =>
    let p := s.network.peer i
    (actFails body p.client).map fun client => s.put i { p with client }

/-- One move. -/
def step (label : Label n) (s : Service n ι γ δ) : Option (Service n ι γ δ) :=
  if label.possible s.running then perform body draw s label else none

/-- What a move can do. -/
inductive Effect (s : Service n ι γ δ) : Label n → Service n ι γ δ → Prop where
  | move {label : Network.Label n} {network : Network n ι γ δ}
      (hserved : s.running = false → ∀ t, label ≠ .thread t)
      (h : Network.step body draw label s.network = some network) :
      Effect s (.move label) { s with network }
  | send {t c : Fin n} (hrunning : s.running = true)
      (hleft : (s.network.server.thread t).point = .left) (hnext : s.next t = some c) :
      Effect s (.send t)
        { s.put c { s.network.peer c with
            toClient := (s.network.peer c).toClient ++ [shutdownMessage] } with
          shutdowns := Function.update s.shutdowns t (s.shutdowns t + 1) }
  | exit {t : Fin n} (hrunning : s.running = true)
      (h : (s.network.server.thread t).point = .left ∧ s.shutdowns t = n ∨
        (s.network.server.thread t).point = .exited) :
      Effect s (.exit t) { s with running := false }
  | fail {t c : Fin n} (hrunning : s.running = true)
      (hgone : gone (s.network.peer c).client.point = true) :
      Effect s (.fail t) { s with running := false }
  | eof {i : Fin n} (hstopped : s.running = false) (hempty : (s.network.peer i).toClient = [])
      (hreading : ClientLoop.reading (s.network.peer i).client.point = true) :
      Effect s (.eof i)
        (s.put i { s.network.peer i with
          client := { (s.network.peer i).client with point := .receiveKeySet } })
  | lost {i : Fin n} {client : Client ι γ δ} (hstopped : s.running = false)
      (hact : actFails body (s.network.peer i).client = some client) :
      Effect s (.lost i) (s.put i { s.network.peer i with client })

variable {body draw} {s s' : Service n ι γ δ} {label : Label n} {i : Fin n}

/-- Every move is one of these. -/
theorem step_effect (h : step body draw label s = some s') : Effect body draw s label s' := by
  have hpossible : label.possible s.running = true := by
    by_contra hnot
    rw [step, if_neg hnot] at h
    cases h
  rw [step, if_pos hpossible] at h
  cases label with
  | move label =>
    obtain ⟨network, hstep, rfl⟩ := Option.map_eq_some_iff.mp h
    refine .move (fun hstopped t ht => ?_) hstep
    rw [ht, hstopped] at hpossible
    cases hpossible
  | send t =>
    by_cases hout : out (s.network.server.thread t).point = true
    · rw [perform, if_pos hout] at h
      obtain ⟨c, hnext, rfl⟩ := Option.map_eq_some_iff.mp h
      exact .send hpossible (out_iff.mp hout) hnext
    · rw [perform, if_neg hout] at h
      cases h
  | exit t =>
    cases hp : (s.network.server.thread t).point with
    | left =>
      by_cases hall : s.shutdowns t = n
      · simp only [perform, hp, if_pos hall] at h
        exact Option.some.inj h ▸ .exit hpossible (.inl ⟨hp, hall⟩)
      · simp only [perform, hp, if_neg hall] at h
        cases h
    | exited =>
      simp only [perform, hp] at h
      exact Option.some.inj h ▸ .exit hpossible (.inr hp)
    | _ =>
      simp only [perform, hp] at h
      cases h
  | fail t =>
    by_cases hgone : (s.socket t).any (fun c => gone (s.network.peer c).client.point) = true
    · rw [perform, if_pos hgone] at h
      obtain ⟨c, -, hc⟩ := (Option.any_eq_true _ _).mp hgone
      exact Option.some.inj h ▸ .fail hpossible hc
    · rw [perform, if_neg hgone] at h
      cases h
  | eof i =>
    have hstopped : s.running = false := Bool.not_eq_true' _ |>.mp hpossible
    by_cases hlast : ((s.network.peer i).toClient.isEmpty &&
        ClientLoop.reading (s.network.peer i).client.point) = true
    · simp only [perform, if_pos hlast] at h
      rw [Bool.and_eq_true, List.isEmpty_iff] at hlast
      exact Option.some.inj h ▸ .eof hstopped hlast.1 hlast.2
    · simp only [perform, if_neg hlast] at h
      cases h
  | lost i =>
    have hstopped : s.running = false := Bool.not_eq_true' _ |>.mp hpossible
    obtain ⟨client, hact, rfl⟩ := Option.map_eq_some_iff.mp h
    exact .lost hstopped hact

end Service

/-! ## A connection with `SHUTDOWN` in it -/

/-- The client has answered the keyset, and says nothing more. -/
def Answering (p : ServerThread.Point) (toServer : List Message) : Prop :=
  p = .keysReply ∧ toServer = [⟨CommunicationProtocol.ACK⟩] ∨
    (p = .sendStartRound ∨ p = .output) ∧ toServer = []

/-- The client says nothing more, and has not said anything wrong. -/
def Owed (p : ServerThread.Point) (toServer : List Message) : Prop :=
  p ≠ .exited ∧
    (toServer = [] ∨ p = .resultsReply ∧ toServer = [⟨CommunicationProtocol.ACK⟩] ∨
      p = .output ∧ ∃ m, toServer = [m])

/-- Where thread and client stand when the client has been sent `SHUTDOWN`, and what is in the
queues: with `true` it is going to be shut down, with `false` it ends over an exception. -/
inductive Warned :
    Bool → ServerThread.Point → ClientLoop.Point → List Object → List Message → Prop where
  | keySet {k : KeySet} {rest : List Object} :
      Warned true .keysReply .receiveKeySet (.keySet k :: shutdownMessage :: rest) []
  | ackKeySet {k : KeySet} {rest : List Object} :
      Warned true .keysReply (.ackKeySet k) (shutdownMessage :: rest) []
  | receiveMessage {p : ServerThread.Point} {k : KeySet} {rest : List Object}
      {toServer : List Message} (hp : Answering p toServer) :
      Warned true p (.receiveMessage k) (shutdownMessage :: rest) toServer
  | shutdown {p : ServerThread.Point} {toClient : List Object} {toServer : List Message}
      (hp : Answering p toServer) : Warned true p (.ended .shutdown) toClient toServer
  | startRound {k : KeySet} {rest : List Object} :
      Warned false .output (.receiveMessage k)
        (.message ⟨CommunicationProtocol.START_ROUND⟩ :: shutdownMessage :: rest) []
  | transmit {k : KeySet} {rest : List Object} :
      Warned false .output (.transmit k) (shutdownMessage :: rest) []
  | results {l : List Message} {rest : List Object} :
      Warned false .resultsReply .receiveRoundResults (.results l :: shutdownMessage :: rest) []
  | ackResults {l : List Message} {rest : List Object} :
      Warned false .resultsReply (.ackResults l) (shutdownMessage :: rest) []
  | miscast {p : ServerThread.Point} {c : ClientLoop.Point} {rest : List Object}
      {toServer : List Message} (hp : Owed p toServer)
      (hc : c = .receiveKeySet ∨ c = .receiveRoundResults) :
      Warned false p c (shutdownMessage :: rest) toServer
  | threw {p : ServerThread.Point} {u : Uncaught} {toClient : List Object}
      {toServer : List Message} (hp : Owed p toServer) :
      Warned false p (.ended (.threw u)) toClient toServer

/-- Between the keyset and the start of the round. -/
def started : ServerThread.Point → Bool
  | .keysReply | .sendStartRound => true
  | _ => false

theorem Answering.wake {p : ServerThread.Point} {toServer : List Message}
    (h : Answering p toServer) : Answering (ServerThread.wake p) toServer := by
  rcases h with ⟨rfl, h⟩ | ⟨rfl | rfl, h⟩
  · exact .inl ⟨rfl, h⟩
  · exact .inr ⟨.inl rfl, h⟩
  · exact .inr ⟨.inr rfl, h⟩

theorem Owed.wake {p : ServerThread.Point} {toServer : List Message} (h : Owed p toServer) :
    Owed (ServerThread.wake p) toServer := by
  obtain ⟨hp, rfl | ⟨rfl, h⟩ | ⟨rfl, h⟩⟩ := h
  · refine ⟨fun hexited => hp ?_, .inl rfl⟩
    cases p <;> first | rfl | cases hexited
  · exact ⟨hp, .inr (.inl ⟨rfl, h⟩)⟩
  · exact ⟨hp, .inr (.inr ⟨rfl, h⟩)⟩

/-- What a thread makes of the answer it is waiting for. -/
theorem Answering.receive {p p' : ServerThread.Point} {m : Message} {toServer : List Message}
    (h : Answering p (m :: toServer)) (hreceive : ServerThread.receive p m = some p') :
    Answering p' toServer := by
  rcases h with ⟨rfl, h⟩ | ⟨-, h⟩
  · obtain ⟨rfl, rfl⟩ := List.cons.inj h
    rw [ServerThread.receive, if_pos rfl] at hreceive
    exact Option.some.inj hreceive ▸ .inr ⟨.inl rfl, rfl⟩
  · cases h

theorem Owed.receive {p p' : ServerThread.Point} {m : Message} {toServer : List Message}
    (h : Owed p (m :: toServer)) (hreceive : ServerThread.receive p m = some p') :
    Owed p' toServer := by
  obtain ⟨-, h | ⟨rfl, h⟩ | ⟨rfl, m', h⟩⟩ := h
  · cases h
  · obtain ⟨rfl, rfl⟩ := List.cons.inj h
    rw [ServerThread.receive, if_pos rfl] at hreceive
    exact Option.some.inj hreceive ▸ ⟨by simp, .inl rfl⟩
  · obtain ⟨rfl, rfl⟩ := List.cons.inj h
    rw [ServerThread.receive, Option.some.injEq] at hreceive
    refine ⟨?_, .inl rfl⟩
    rintro rfl
    split_ifs at hreceive

namespace Warned

variable {b : Bool} {p p' : ServerThread.Point} {c c' : ClientLoop.Point}
  {toClient : List Object} {toServer : List Message}

/-- More objects in the queue change nothing. -/
theorem append (h : Warned b p c toClient toServer) (os : List Object) :
    Warned b p c (toClient ++ os) toServer := by
  cases h with
  | keySet => exact .keySet
  | ackKeySet => exact .ackKeySet
  | receiveMessage hp => exact .receiveMessage hp
  | shutdown hp => exact .shutdown hp
  | startRound => exact .startRound
  | transmit => exact .transmit
  | results => exact .results
  | ackResults => exact .ackResults
  | miscast hp hc => exact .miscast hp hc
  | threw hp => exact .threw hp

theorem wake (h : Warned b p c toClient toServer) :
    Warned b (ServerThread.wake p) c toClient toServer := by
  cases h with
  | keySet => exact .keySet
  | ackKeySet => exact .ackKeySet
  | receiveMessage hp => exact .receiveMessage hp.wake
  | shutdown hp => exact .shutdown hp.wake
  | startRound => exact .startRound
  | transmit => exact .transmit
  | results => exact .results
  | ackResults => exact .ackResults
  | miscast hp hc => exact .miscast hp.wake hc
  | threw hp => exact .threw hp.wake

theorem ne_exited (h : Warned b p c toClient toServer) : p ≠ .exited := by
  have answering : ∀ {p : ServerThread.Point} {toServer : List Message},
      Answering p toServer → p ≠ .exited := by
    rintro p toServer (⟨rfl, -⟩ | ⟨rfl | rfl, -⟩) <;> simp
  cases h with
  | receiveMessage hp | shutdown hp => exact answering hp
  | miscast hp _ | threw hp => exact hp.1
  | _ => simp

/-- The thread reads. -/
theorem receive {m : Message} (h : Warned b p c toClient (m :: toServer))
    (hreceive : ServerThread.receive p m = some p') : Warned b p' c toClient toServer := by
  cases h with
  | receiveMessage hp => exact .receiveMessage (hp.receive hreceive)
  | shutdown hp => exact .shutdown (hp.receive hreceive)
  | miscast hp hc => exact .miscast (hp.receive hreceive) hc
  | threw hp => exact .threw (hp.receive hreceive)

/-- It moves on without reading. -/
theorem move (h : Warned b p c toClient toServer) (hread : reading p = false)
    (hexited : p' ≠ .exited) (hstart : p = .sendStartRound → p' = .output) :
    Warned b p' c toClient toServer := by
  have answering : Answering p toServer → Answering p' toServer := by
    rintro (⟨rfl, -⟩ | ⟨rfl | rfl, hnone⟩)
    · cases hread
    · exact .inr ⟨.inr (hstart rfl), hnone⟩
    · cases hread
  have owed : Owed p toServer → Owed p' toServer := by
    rintro ⟨-, hnone | ⟨rfl, -⟩ | ⟨rfl, -⟩⟩
    · exact ⟨hexited, .inl hnone⟩
    · cases hread
    · cases hread
  cases h with
  | receiveMessage hp => exact .receiveMessage (answering hp)
  | shutdown hp => exact .shutdown (answering hp)
  | miscast hp hc => exact .miscast (owed hp) hc
  | threw hp => exact .threw (owed hp)
  | _ => cases hread

/-- How its loop has ended. -/
theorem shutdown_iff {e : Ending} (h : Warned b p (.ended e) toClient toServer) :
    e = .shutdown ↔ b = true := by
  cases h with
  | shutdown _ => simp
  | threw _ => simp
  | miscast _ hc => rcases hc with hc | hc <;> cases hc

theorem ended_cases {e : Ending} (h : Warned b p (.ended e) toClient toServer) :
    e = .shutdown ∨ ∃ u, e = .threw u := by
  cases h with
  | shutdown _ => exact .inl rfl
  | threw _ => exact .inr ⟨_, rfl⟩
  | miscast _ hc => rcases hc with hc | hc <;> cases hc

/-- Who is gone has been shut down. -/
theorem of_gone (h : Warned b p c toClient toServer) (hgone : gone c = true) :
    c = .ended .shutdown := by
  cases h with
  | shutdown _ => rfl
  | miscast _ hc => rcases hc with rfl | rfl <;> cases hgone
  | _ => cases hgone

/-- A client that has nothing to read is at no read. -/
theorem not_reading (h : Warned b p c [] toServer) : ClientLoop.reading c = false := by
  cases h <;> rfl

/-- How many moves a client still has that has been sent `SHUTDOWN`. -/
def due : ClientLoop.Point → List Object → ℕ
  | .receiveKeySet, .keySet _ :: _ => 3
  | .receiveMessage _, .message m :: _ =>
    if m.message = CommunicationProtocol.START_ROUND then 3 else 1
  | .receiveRoundResults, .results _ :: _ => 3
  | .ackKeySet _, _ | .transmit _, _ | .ackResults _, _ => 2
  | .ended _, _ => 0
  | _, _ => 1

theorem due_le (c : ClientLoop.Point) (os : List Object) : due c os ≤ 3 := by
  unfold due
  split <;> first | omega | (split_ifs <;> omega)

/-- More objects in the queue change nothing. -/
theorem due_append (h : Warned b p c toClient toServer) (os : List Object) :
    due c (toClient ++ os) = due c toClient := by
  cases h with
  | miscast _ hc => rcases hc with rfl | rfl <;> rfl
  | _ => rfl

section

variable {ι γ ρ δ : Type} {body : LoopBody ι γ ρ δ} {client client' : Client ι γ δ}

/-- The client reads. -/
theorem read (hcheck : ∀ l, body.check l = none) {o : Object}
    (h : Warned b p c (o :: toClient) toServer)
    (hreceive : ClientLoop.receive body c o = some c') :
    Warned b p c' toClient toServer ∧ due c' toClient + 1 ≤ due c (o :: toClient) := by
  cases h with
  | keySet =>
    obtain rfl := Option.some.inj hreceive
    exact ⟨.ackKeySet, Nat.le_refl _⟩
  | receiveMessage hp =>
    have hne : CommunicationProtocol.SHUTDOWN ≠ CommunicationProtocol.START_ROUND := by decide
    rw [shutdownMessage, ClientLoop.receive, if_neg hne, if_pos rfl] at hreceive
    obtain rfl := Option.some.inj hreceive
    refine ⟨.shutdown hp, ?_⟩
    rw [shutdownMessage, due, if_neg hne]
    exact Nat.le_refl _
  | startRound =>
    rw [ClientLoop.receive, if_pos rfl] at hreceive
    obtain rfl := Option.some.inj hreceive
    exact ⟨.transmit, Nat.le_refl _⟩
  | results =>
    rename_i l rest
    simp only [ClientLoop.receive, hcheck l] at hreceive
    obtain rfl := Option.some.inj hreceive
    exact ⟨.ackResults, Nat.le_refl _⟩
  | miscast hp hc =>
    rcases hc with rfl | rfl
    · obtain rfl := Option.some.inj hreceive
      exact ⟨.threw hp, Nat.le_refl _⟩
    · obtain rfl := Option.some.inj hreceive
      exact ⟨.threw hp, Nat.le_refl _⟩
  | _ => cases hreceive

/-- It goes on from between two reads. -/
theorem act {sent : Option Message} (h : Warned b p client.point toClient toServer)
    (hact : ClientLoop.act body client = some (sent, client')) :
    Warned b p client'.point toClient (toServer ++ sent.toList) ∧
      due client'.point toClient + 1 ≤ due client.point toClient := by
  obtain ⟨point, input, shown, log⟩ := client
  cases h with
  | ackKeySet =>
    cases hact
    exact ⟨.receiveMessage (.inl ⟨rfl, rfl⟩), Nat.le_refl _⟩
  | transmit =>
    rcases hnext : body.next input with _ | ⟨x, input'⟩
    · simp only [ClientLoop.act, hnext, Option.some.injEq, Prod.mk.injEq] at hact
      obtain ⟨rfl, rfl⟩ := hact
      exact ⟨.threw ⟨by simp, .inl rfl⟩, Nat.le_succ _⟩
    · simp only [ClientLoop.act, hnext, Option.some.injEq, Prod.mk.injEq] at hact
      obtain ⟨rfl, rfl⟩ := hact
      exact ⟨.miscast ⟨by simp, .inr (.inr ⟨rfl, _, rfl⟩)⟩ (.inr rfl), Nat.le_refl _⟩
  | ackResults =>
    rename_i l rest
    have howed : Owed .resultsReply [⟨CommunicationProtocol.ACK⟩] :=
      ⟨by simp, .inr (.inl ⟨rfl, rfl⟩)⟩
    rcases hread : body.collate l with _ | r
    · simp only [ClientLoop.act, hread, Option.some.injEq, Prod.mk.injEq] at hact
      obtain ⟨rfl, rfl⟩ := hact
      exact ⟨.threw howed, Nat.le_succ _⟩
    · simp only [ClientLoop.act, hread, Option.some.injEq, Prod.mk.injEq] at hact
      obtain ⟨rfl, rfl⟩ := hact
      exact ⟨.miscast howed (.inl rfl), Nat.le_refl _⟩
  | miscast _ hc => rcases hc with rfl | rfl <;> cases hact
  | _ => cases hact

/-- Its send fails. Back at the first read, it is too late for the start of the round. -/
theorem lost (h : Warned b p client.point toClient toServer)
    (hact : actFails body client = some client') :
    Warned false p client'.point toClient toServer ∧
      due client'.point toClient + 1 ≤ due client.point toClient := by
  obtain ⟨point, input, shown, log⟩ := client
  cases h with
  | ackKeySet =>
    cases hact
    exact ⟨.miscast ⟨by simp, .inl rfl⟩ (.inl rfl), Nat.le_refl _⟩
  | transmit =>
    rcases actFails_cases hact with ⟨hp, -⟩ | ⟨hp, -⟩
    · rw [hp]
      exact ⟨.miscast ⟨by simp, .inl rfl⟩ (.inl rfl), Nat.le_refl _⟩
    · rw [hp]
      exact ⟨.threw ⟨by simp, .inl rfl⟩, Nat.le_succ _⟩
  | ackResults =>
    cases hact
    exact ⟨.miscast ⟨by simp, .inl rfl⟩ (.inl rfl), Nat.le_refl _⟩
  | miscast _ hc => rcases hc with rfl | rfl <;> cases hact
  | _ => cases hact

/-- As long as its loop has not ended, it can go on: it is between two reads, or finds something to
read. -/
theorem progress (h : Warned b p client.point toClient toServer)
    (hgoes : ∀ e, client.point ≠ .ended e) :
    (ClientLoop.act body client).isSome ∨
      ∃ o os, toClient = o :: os ∧ (ClientLoop.receive body client.point o).isSome := by
  obtain ⟨point, input, shown, log⟩ := client
  cases h with
  | keySet | receiveMessage _ | startRound => exact .inr ⟨_, _, rfl, receive_of_reading rfl _⟩
  | results => exact .inr ⟨_, _, rfl, receive_of_reading rfl _⟩
  | miscast _ hc => rcases hc with rfl | rfl <;> exact .inr ⟨_, _, rfl, receive_of_reading rfl _⟩
  | ackKeySet => exact .inl rfl
  | transmit =>
    left
    simp only [ClientLoop.act]
    cases body.next input <;> rfl
  | ackResults =>
    rename_i l rest
    left
    simp only [ClientLoop.act]
    cases body.collate l <;> rfl
  | shutdown _ | threw _ => exact absurd rfl (hgoes _)

end

end Warned

/-! ## Sending `SHUTDOWN` -/

section

variable {ι γ ρ δ : Type} {body : LoopBody ι γ ρ δ} {past : List (Past γ)}
  {p : ServerThread.Point} {c : ClientLoop.Point} {toClient : List Object}
  {toServer : List Message} {now : Present γ}

/-- What becomes of a connection over which `SHUTDOWN` is sent. -/
theorem Phase.warned (hcheck : ∀ l, body.check l = none)
    (hcollate : ∀ l, (body.collate l).isSome)
    (h : Phase body past p c toClient toServer now) :
    Warned (started p) p c (toClient ++ [shutdownMessage]) toServer := by
  have top : AtTop body past c → c = .receiveKeySet := by
    rintro (rfl | ⟨-, q, -, hq⟩)
    · rfl
    · have := hcollate q.results
      rw [hq] at this
      cases this
  cases h with
  | resting hp hc =>
    obtain rfl := top hc
    cases p with
    | generateKeySets | getKeySet | second | waitSecond | leaveSecond =>
      exact .miscast ⟨by simp, .inl rfl⟩ (.inl rfl)
    | _ => exact hp.elim
  | sendKeys hc =>
    obtain rfl := top hc
    exact .miscast ⟨by simp, .inl rfl⟩ (.inl rfl)
  | keySet hc =>
    obtain rfl := top hc
    exact .keySet
  | ackKeySet => exact .ackKeySet
  | keySetAck => exact .receiveMessage (.inl ⟨rfl, rfl⟩)
  | sendStartRound => exact .receiveMessage (.inr ⟨.inl rfl, rfl⟩)
  | startRound => exact .startRound
  | transmit => exact .transmit
  | noSlot => exact .threw ⟨by simp, .inl rfl⟩
  | output => exact .miscast ⟨by simp, .inr (.inr ⟨rfl, _, rfl⟩)⟩ (.inr rfl)
  | addOutput | left _ => exact .miscast ⟨by simp, .inl rfl⟩ (.inr rfl)
  | gathering hp =>
    cases p with
    | first | waitFirst | leaveFirst | copyResults | sendResults _ =>
      exact .miscast ⟨by simp, .inl rfl⟩ (.inr rfl)
    | _ => exact hp.elim
  | results => exact .results
  | ackResults => exact .ackResults
  | refused he =>
    rw [hcheck] at he
    cases he
  | resultsAck hc =>
    obtain rfl := top hc
    exact .miscast ⟨by simp, .inr (.inl ⟨rfl, rfl⟩)⟩ (.inl rfl)

/-- Without `SHUTDOWN` no client is gone. -/
theorem Phase.not_gone (hcheck : ∀ l, body.check l = none)
    (h : Phase body past p c toClient toServer now) : gone c = false := by
  cases h with
  | resting _ hc | sendKeys hc | keySet hc | resultsAck hc =>
    rcases hc with rfl | ⟨rfl, -⟩ <;> rfl
  | refused he =>
    rw [hcheck] at he
    cases he
  | _ => rfl

theorem Phase.kept (hcheck : ∀ l, body.check l = none) {client : Client ι γ δ}
    (h : Phase body past p client.point toClient toServer now) : Kept ⟨client, toClient⟩ where
  point := fun hreturned => by
    have hgone := h.not_gone hcheck
    rw [gone_of_returned hreturned] at hgone
    cases hgone
  incoming := by
    intro m hm
    dsimp only at hm
    generalize client.point = c at h
    cases h with
    | startRound =>
      obtain rfl := Object.message.inj (List.mem_singleton.mp hm)
      rfl
    | keySet _ | results => cases List.mem_singleton.mp hm
    | _ => cases hm

end

/-! ## One move of the network -/

theorem Server.Effect.not_reading {n : ℕ} {answers : Answers n} {draw : ℕ → PairKeys n} {t : Fin n}
    {s s' : Server n} (h : Server.Effect answers draw t s s') :
    (s'.thread t).point ≠ .exited ∧
      ((s.thread t).point = .sendStartRound → (s'.thread t).point = .output) := by
  cases h with
  | own hown =>
    rw [Server.thread_put_self]
    cases hown with
    | sendStartRound _ => exact ⟨by simp, fun _ => rfl⟩
    | _ hp => exact ⟨by simp, fun h => by rw [hp] at h; cases h⟩
  | getKeySet hp _ | parkFirst hp _ | passFirst hp _ | parkSecond hp _ | finish hp _ =>
    rw [Server.thread_put_self]
    exact ⟨by simp, fun h => by rw [hp] at h; cases h⟩
  | generateKeySets hp | addOutput hp =>
    rw [Server.thread_put_self]
    exact ⟨by simp, fun h => by rw [hp] at h; cases h⟩

namespace Network.Effect

variable {n : ℕ} {ι γ ρ δ : Type} {body : LoopBody ι γ ρ δ} {draw : ℕ → PairKeys n}
  {s : Network n ι γ δ} {j : Fin n} {label : Network.Label n} {th : Thread} {p : Peer ι γ δ}

/-- A thread that has left its loop does not come back. -/
theorem left (h : Network.Effect body draw s j label th p)
    (hleft : (s.server.thread j).point = .left) : th.point = .left := by
  cases h with
  | wake _ => exact congrArg ServerThread.wake hleft
  | receive _ hreceive =>
    rw [hleft] at hreceive
    cases hreceive
  | own _ heffect =>
    cases heffect with
    | own hown => cases hown with | _ hp => rw [hleft] at hp; cases hp
    | getKeySet hp _ | parkFirst hp _ | passFirst hp _ | parkSecond hp _ | finish hp _ =>
      rw [hleft] at hp
      cases hp
    | generateKeySets hp | addOutput hp =>
      rw [hleft] at hp
      cases hp
  | _ => exact hleft

/-- A loop that has ended does not go on. -/
theorem ended (h : Network.Effect body draw s j label th p) {e : Ending}
    (he : (s.peer j).client.point = .ended e) : p.client.point = .ended e := by
  cases h with
  | act hact =>
    simp only [ClientLoop.act, he] at hact
    cases hact
  | read _ hreceive =>
    rw [he] at hreceive
    cases hreceive
  | _ => exact he

/-- What happens to a connection with `SHUTDOWN` in it. -/
theorem warned (hcheck : ∀ l, body.check l = none) {b : Bool}
    (heffect : Network.Effect body draw s j label th p)
    (h : Warned b (s.server.thread j).point (s.peer j).client.point (s.peer j).toClient
      (s.peer j).toServer) :
    Warned b th.point p.client.point p.toClient p.toServer ∧
      Warned.due p.client.point p.toClient + (if (Service.Label.move label).own j then 1 else 0) ≤
        Warned.due (s.peer j).client.point (s.peer j).toClient := by
  cases heffect with
  | idle hj =>
    have hown : ¬ (Service.Label.move label).own j = true := by
      cases label with
      | act i | read i => simpa [Service.Label.own, Network.Label.connection] using hj
      | _ => exact Bool.false_ne_true
    rw [if_neg hown]
    exact ⟨h, Nat.le_refl _⟩
  | wake _ => exact ⟨h.wake, Nat.le_refl _⟩
  | receive hm hreceive => exact ⟨(hm ▸ h).receive hreceive, Nat.le_refl _⟩
  | own hread heffect =>
    obtain ⟨hexited, hstart⟩ := heffect.not_reading
    have hmove := h.move hread hexited hstart
    exact ⟨hmove.append _, (hmove.due_append _).le⟩
  | act hact =>
    rw [Service.Label.own, if_pos (decide_eq_true rfl)]
    exact h.act hact
  | read ho hreceive =>
    rw [Service.Label.own, if_pos (decide_eq_true rfl)]
    rw [ho] at h ⊢
    exact h.read hcheck hreceive
  | submit str => exact ⟨h, Nat.le_refl _⟩

/-- What the client does on its own to a connection that is cut off. -/
theorem kept (hcheck : ∀ l, body.check l = none) (hserved : ∀ t, label ≠ .thread t)
    (heffect : Network.Effect body draw s j label th p)
    (h : Kept ⟨(s.peer j).client, (s.peer j).toClient⟩) : Kept ⟨p.client, p.toClient⟩ := by
  have hreturned : ∀ l e, body.check l = some e → ¬ Returned (.ended e) := by
    intro l e he
    rw [hcheck] at he
    cases he
  cases heffect with
  | idle _ => exact h
  | wake _ | receive _ _ | own _ _ => exact absurd rfl (hserved _)
  | act hact => exact h.step (a := .send) hreturned (by rw [ClientLoop.step, hact]; rfl)
  | read ho hreceive =>
    rw [ho] at h
    exact h.step (a := .read) hreturned (by rw [ClientLoop.step, hreceive]; rfl)
  | submit str => exact h.step (a := .submit str) hreturned rfl

end Network.Effect

/-! ## Runs -/

namespace Service

variable {n : ℕ} {ι γ ρ δ : Type} {body : LoopBody ι γ ρ δ} {draw : ℕ → PairKeys n} {input : ι}
  {shown : δ} {s s' : Service n ι γ δ} {label : Label n} {labels : List (Label n)} {i t c : Fin n}
  {b : Bool}

/-- Client `i` has been sent `SHUTDOWN`. -/
def Told (s : Service n ι γ δ) (i : Fin n) : Prop := ∃ t, (i : ℕ) < s.shutdowns t

/-- The connection of client `i` as one with `SHUTDOWN` in it. -/
def WarnedAt (b : Bool) (s : Service n ι γ δ) (i : Fin n) : Prop :=
  Warned b (s.network.server.thread i).point (s.network.peer i).client.point
    (s.network.peer i).toClient (s.network.peer i).toServer

/-- How many moves client `i` still has. -/
def dueAt (s : Service n ι γ δ) (i : Fin n) : ℕ :=
  Warned.due (s.network.peer i).client.point (s.network.peer i).toClient

theorem val_of_next (h : s.next t = some c) : (c : ℕ) = s.shutdowns t := by
  unfold next at h
  split_ifs at h
  exact congrArg Fin.val (Option.some.inj h).symm

/-- Who has been told after one message more. -/
theorem told_send (hnext : s.next t = some c) :
    (∃ u, (i : ℕ) < Function.update s.shutdowns t (s.shutdowns t + 1) u) ↔
      s.Told i ∨ i = c := by
  have hc := val_of_next hnext
  constructor
  · rintro ⟨u, hu⟩
    by_cases hut : u = t
    · subst hut
      rw [Function.update_self] at hu
      rcases Nat.lt_succ_iff_lt_or_eq.mp hu with hlt | heq
      · exact .inl ⟨u, hlt⟩
      · exact .inr (Fin.ext (heq.trans hc.symm))
    · rw [Function.update_of_ne hut] at hu
      exact .inl ⟨u, hu⟩
  · rintro (⟨u, hu⟩ | rfl)
    · refine ⟨u, ?_⟩
      by_cases hut : u = t
      · subst hut
        rw [Function.update_self]
        exact Nat.lt_succ_of_lt hu
      · rwa [Function.update_of_ne hut]
    · exact ⟨t, by rw [Function.update_self, hc]; exact Nat.lt_succ_self _⟩

theorem peer_put_self (p : Peer ι γ δ) : (s.put i p).network.peer i = p :=
  Network.peer_put_self ..

theorem peer_put_of_ne (p : Peer ι γ δ) {j : Fin n} (h : i ≠ j) :
    (s.put j p).network.peer i = s.network.peer i := Network.peer_put_of_ne _ _ _ h

theorem WarnedAt.put_self {p : Peer ι γ δ}
    (h : Warned b (s.network.server.thread i).point p.client.point p.toClient p.toServer) :
    (s.put i p).WarnedAt b i := by
  unfold WarnedAt
  rwa [peer_put_self]

theorem WarnedAt.put_of_ne (h : s.WarnedAt b i) (p : Peer ι γ δ) {j : Fin n} (hi : i ≠ j) :
    (s.put j p).WarnedAt b i := by
  unfold WarnedAt
  rwa [peer_put_of_ne _ hi]

theorem dueAt_put_self (p : Peer ι γ δ) :
    (s.put i p).dueAt i = Warned.due p.client.point p.toClient := by
  unfold dueAt
  rw [peer_put_self]

theorem dueAt_put_of_ne (p : Peer ι γ δ) {j : Fin n} (hi : i ≠ j) :
    (s.put j p).dueAt i = s.dueAt i := by
  unfold dueAt
  rw [peer_put_of_ne _ hi]

/-- What a move does to a client that has been told. It makes one move less, and is shut down as
before unless its send fails. -/
theorem Effect.warned (hcheck : ∀ l, body.check l = none) (heffect : Effect body draw s label s')
    (h : s.WarnedAt b i) :
    ∃ b', s'.WarnedAt b' i ∧ (b' = true ↔ b = true ∧ label ≠ .lost i) ∧
      s'.dueAt i + (if label.own i then 1 else 0) ≤ s.dueAt i := by
  cases heffect with
  | move hserved hstep =>
    obtain ⟨hwarned, hdue⟩ := (Network.step_effect hstep i).warned hcheck h
    exact ⟨b, hwarned, by simp, hdue⟩
  | send hrunning hleft hnext =>
    rename_i t c
    by_cases hi : i = c
    · subst hi
      refine ⟨b, WarnedAt.put_self (h.append _), by simp, ?_⟩
      exact ((dueAt_put_self _).trans (h.due_append _)).le
    · exact ⟨b, h.put_of_ne _ hi, by simp, (dueAt_put_of_ne _ hi).le⟩
  | exit _ _ | fail _ _ => exact ⟨b, h, by simp, Nat.le_refl _⟩
  | eof hstopped hempty hreading =>
    rename_i j
    by_cases hi : i = j
    · -- its queue is not empty
      subst hi
      unfold WarnedAt at h
      rw [hempty] at h
      rw [h.not_reading] at hreading
      cases hreading
    · refine ⟨b, h.put_of_ne _ hi, by simp, ?_⟩
      rw [dueAt_put_of_ne _ hi, Label.own, if_neg (by simpa using Ne.symm hi)]
      exact Nat.le_refl _
  | lost hstopped hact =>
    rename_i j client
    by_cases hi : i = j
    · subst hi
      obtain ⟨hlost, hdue⟩ := Warned.lost h hact
      refine ⟨false, WarnedAt.put_self hlost, by simp, ?_⟩
      rw [dueAt_put_self, Label.own, if_pos (decide_eq_true rfl)]
      exact hdue
    · refine ⟨b, h.put_of_ne _ hi, by simpa using fun _ => Ne.symm hi, ?_⟩
      rw [dueAt_put_of_ne _ hi, Label.own, if_neg (by simpa using Ne.symm hi)]
      exact Nat.le_refl _

/-- What a run does to it. -/
theorem warned_run (hcheck : ∀ l, body.check l = none) (h : s.WarnedAt b i)
    (hrun : Transition.run (step body draw) labels s = some s') :
    ∃ b', s'.WarnedAt b' i ∧ (b' = true ↔ b = true ∧ .lost i ∉ labels) ∧
      s'.dueAt i + labels.countP (Label.own i) ≤ s.dueAt i := by
  induction labels generalizing s b with
  | nil =>
    obtain rfl := Option.some.inj hrun
    exact ⟨b, h, by simp, Nat.le_refl _⟩
  | cons label labels ih =>
    obtain ⟨u, hstep, hrun⟩ := (run_cons_eq_some _).mp hrun
    obtain ⟨b₁, h₁, hb₁, hdue₁⟩ := (step_effect hstep).warned hcheck h
    obtain ⟨b₂, h₂, hb₂, hdue₂⟩ := ih h₁ hrun
    refine ⟨b₂, h₂, ?_, ?_⟩
    · rw [hb₂, hb₁, List.mem_cons, not_or, and_assoc, ne_comm]
    · rw [List.countP_cons]
      omega

/-- The connection of client `i`: as in the network, or with `SHUTDOWN` in it, or cut off before the
client has been told. -/
inductive Conn (body : LoopBody ι γ ρ δ) (shown : δ) (s : Service n ι γ δ) (i : Fin n) : Prop where
  | linked (hrunning : s.running = true) (huntold : ¬ s.Told i)
      (h : ∃ past now,
        Linked body shown (s.network.server.thread i) (s.network.peer i) past now)
  | warned (htold : s.Told i) {b : Bool} (h : s.WarnedAt b i)
  | orphaned (hstopped : s.running = false) (huntold : ¬ s.Told i)
      (h : Kept ⟨(s.network.peer i).client, (s.network.peer i).toClient⟩)

/-- What holds in every run. -/
structure Valid (body : LoopBody ι γ ρ δ) (shown : δ) (s : Service n ι γ δ) : Prop where
  conn : ∀ i, Conn body shown s i
  left : ∀ t, 0 < s.shutdowns t → (s.network.server.thread t).point = .left
  stopped : s.running = false →
    (∃ t, (s.network.server.thread t).point = .left) ∧
      ((∀ i, s.Told i) ∨ ∃ i, (s.network.peer i).client.point = .ended .shutdown)

theorem Effect.told (heffect : Effect body draw s label s') (h : s.Told i) : s'.Told i := by
  cases heffect with
  | send _ _ hnext => exact (told_send hnext).mpr (.inl h)
  | _ => exact h

/-- **One step**, at one connection. -/
theorem Effect.conn (hcheck : ∀ l, body.check l = none) (hcollate : ∀ l, (body.collate l).isSome)
    (heffect : Effect body draw s label s') (h : Conn body shown s i) :
    Conn body shown s' i := by
  cases h with
  | warned htold h =>
    obtain ⟨b', h', -⟩ := heffect.warned hcheck h
    exact .warned (heffect.told htold) h'
  | linked hrunning huntold h =>
    cases heffect with
    | move hserved hstep =>
      exact .linked hrunning huntold ((Network.step_effect hstep i).linked h)
    | send _ _ hnext =>
      rename_i t c _ _
      by_cases hi : i = c
      · subst hi
        obtain ⟨past, now, h⟩ := h
        exact .warned ((told_send hnext).mpr (.inr rfl))
          (WarnedAt.put_self (h.phase.warned hcheck hcollate))
      · refine .linked hrunning (fun htold => ?_) ((peer_put_of_ne _ hi).symm ▸ h)
        exact ((told_send hnext).mp htold).elim huntold hi
    | exit _ _ | fail _ _ =>
      obtain ⟨past, now, h⟩ := h
      exact .orphaned rfl huntold (h.phase.kept hcheck)
    | eof hstopped _ _ | lost hstopped _ =>
      rw [hrunning] at hstopped
      cases hstopped
  | orphaned hstopped huntold h =>
    cases heffect with
    | move hserved hstep =>
      exact .orphaned hstopped huntold
        ((Network.step_effect hstep i).kept hcheck (hserved hstopped) h)
    | send hrunning _ _ | exit hrunning _ | fail hrunning _ =>
      rw [hstopped] at hrunning
      cases hrunning
    | eof hstopped' hempty hreading =>
      rename_i j
      by_cases hi : i = j
      · subst hi
        refine .orphaned hstopped huntold ?_
        rw [peer_put_self]
        exact ⟨by simp [Returned], h.incoming⟩
      · exact .orphaned hstopped huntold ((peer_put_of_ne _ hi).symm ▸ h)
    | lost _ hact =>
      rename_i j client _
      by_cases hi : i = j
      · subst hi
        refine .orphaned hstopped huntold ?_
        rw [peer_put_self]
        exact ⟨not_returned_actFails hact, h.incoming⟩
      · exact .orphaned hstopped huntold ((peer_put_of_ne _ hi).symm ▸ h)

/-- Only a client that has been told is ever gone. -/
theorem Conn.of_gone (hcheck : ∀ l, body.check l = none) (hrunning : s.running = true)
    (h : Conn body shown s i) (hgone : gone (s.network.peer i).client.point = true) :
    s.Told i ∧ (s.network.peer i).client.point = .ended .shutdown := by
  cases h with
  | linked _ _ h =>
    obtain ⟨past, now, h⟩ := h
    rw [h.phase.not_gone hcheck] at hgone
    cases hgone
  | orphaned hstopped _ _ =>
    rw [hrunning] at hstopped
    cases hstopped
  | warned htold h => exact ⟨htold, Warned.of_gone h hgone⟩

theorem Conn.ne_exited (hrunning : s.running = true) (h : Conn body shown s i) :
    (s.network.server.thread i).point ≠ .exited := by
  cases h with
  | linked _ _ h =>
    obtain ⟨past, now, h⟩ := h
    exact h.phase.ne_exited
  | orphaned hstopped _ _ =>
    rw [hrunning] at hstopped
    cases hstopped
  | warned _ h => exact Warned.ne_exited h

/-- A thread that has sent `SHUTDOWN` has left its loop. -/
theorem Effect.left (heffect : Effect body draw s label s')
    (h : ∀ t, 0 < s.shutdowns t → (s.network.server.thread t).point = .left) (u : Fin n)
    (hu : 0 < s'.shutdowns u) : (s'.network.server.thread u).point = .left := by
  cases heffect with
  | move _ hstep => exact (Network.step_effect hstep u).left (h u hu)
  | send _ hleft _ =>
    rename_i t c _ _
    by_cases hut : u = t
    · exact hut ▸ hleft
    · refine h u ?_
      have hsame : Function.update s.shutdowns t (s.shutdowns t + 1) u = s.shutdowns u :=
        Function.update_of_ne hut ..
      exact hsame ▸ hu
  | _ => exact h u hu

/-- A loop that has ended does not go on. -/
theorem Effect.ended (heffect : Effect body draw s label s') {e : Ending}
    (he : (s.network.peer i).client.point = .ended e) :
    (s'.network.peer i).client.point = .ended e := by
  have put : ∀ {j : Fin n} {p : Peer ι γ δ}, (i = j → p.client.point = .ended e) →
      ((s.put j p).network.peer i).client.point = .ended e := by
    intro j p hp
    by_cases hi : i = j
    · subst hi
      rw [peer_put_self]
      exact hp rfl
    · rw [peer_put_of_ne _ hi]
      exact he
  cases heffect with
  | move _ hstep => exact (Network.step_effect hstep i).ended he
  | send _ _ _ => exact put fun hi => hi ▸ he
  | exit _ _ | fail _ _ => exact he
  | eof _ _ hreading =>
    refine put fun hi => ?_
    rw [← hi, he] at hreading
    cases hreading
  | lost _ hact =>
    refine put fun hi => ?_
    rw [← hi] at hact
    simp only [actFails, he] at hact
    cases hact

/-- **One step.** -/
theorem Valid.step (hcheck : ∀ l, body.check l = none) (hcollate : ∀ l, (body.collate l).isSome)
    (h : Valid body shown s) (hstep : Service.step body draw label s = some s') :
    Valid body shown s' := by
  have heffect := step_effect hstep
  refine ⟨fun i => heffect.conn hcheck hcollate (h.conn i), heffect.left h.left, ?_⟩
  intro hstopped
  -- that the server has ended before is not new
  have before : s.running = false →
      (∃ t, (s'.network.server.thread t).point = .left) ∧
        ((∀ i, s'.Told i) ∨ ∃ i, (s'.network.peer i).client.point = .ended .shutdown) := by
    intro hbefore
    obtain ⟨⟨t, ht⟩, htold⟩ := h.stopped hbefore
    refine ⟨⟨t, ?_⟩, htold.imp (fun hall i => heffect.told (hall i)) fun ⟨i, hi⟩ =>
      ⟨i, heffect.ended hi⟩⟩
    cases heffect with
    | move _ hmove => exact (Network.step_effect hmove t).left ht
    | _ => exact ht
  cases heffect with
  | move _ _ | eof _ _ _ | lost _ _ => exact before hstopped
  | send hrunning _ _ =>
    rw [show s.running = false from hstopped] at hrunning
    cases hrunning
  | exit hrunning hexit =>
    rename_i t
    rcases hexit with ⟨hleft, hall⟩ | hexited
    · exact ⟨⟨t, hleft⟩, .inl fun i => ⟨t, hall.symm ▸ i.2⟩⟩
    · exact absurd hexited ((h.conn t).ne_exited hrunning)
  | fail hrunning hgone =>
    rename_i t c
    obtain ⟨⟨u, hu⟩, hc⟩ := (h.conn c).of_gone hcheck hrunning hgone
    exact ⟨⟨u, h.left u (Nat.zero_lt_of_lt hu)⟩, .inr ⟨c, hc⟩⟩

theorem valid_run (hcheck : ∀ l, body.check l = none) (hcollate : ∀ l, (body.collate l).isSome)
    (hrun : Transition.run (step body draw) labels (initial n input shown) = some s) :
    Valid body shown s := by
  refine invariant_of_run (fun _ _ _ h hstep => h.step hcheck hcollate hstep) ?_ hrun
  refine ⟨fun i => .linked rfl ?_ ⟨[], _, Linked.initial body input shown⟩, fun t ht => ?_, ?_⟩
  · rintro ⟨t, ht⟩
    exact Nat.not_lt_zero _ ht
  · exact absurd ht (Nat.not_lt_zero 0)
  · exact fun hstopped => by cases hstopped

/-- A client that has been told has ended, or can move. -/
theorem WarnedAt.progress (h : s.WarnedAt b i) :
    (∃ e, (s.network.peer i).client.point = .ended e) ∨
      ∃ label : Label n, label.own i = true ∧ (Service.step body draw label s).isSome := by
  by_contra hnone
  rw [not_or] at hnone
  obtain ⟨hgoes, hstuck⟩ := hnone
  have hmove : ∀ label : Network.Label n, (Label.move label).own i = true →
      ¬ (Network.step body draw label s.network).isSome := by
    intro label hown hsome
    refine hstuck ⟨.move label, hown, ?_⟩
    cases label with
    | thread t | submit j str => cases hown
    | act j | read j => exact Option.isSome_map.trans hsome
  have hprogress : (ClientLoop.act body (s.network.peer i).client).isSome ∨ _ :=
    Warned.progress h fun e he => hgoes ⟨e, he⟩
  rcases hprogress with hact | ⟨o, os, ho, hread⟩
  · exact hmove (.act i) (decide_eq_true rfl) (Network.isSome_act hact)
  · exact hmove (.read i) (decide_eq_true rfl) (Network.isSome_read ho hread)

end Service

/-! ## The chat -/

/-- The service for `SimpleLoop` clients. A `DiningLoop` never sends the exit command. -/
abbrev ChatService (n : ℕ) : Type := Service n SimpleLoop (Option JString) JString

namespace ChatService

/-- Before anything has happened. -/
def initial (n : ℕ) : ChatService n := Service.initial n SimpleLoop.new []

variable {n : ℕ} {draw : ℕ → PairKeys n} {s s₀ s' : ChatService n}
  {labels more after : List (Service.Label n)} {i t : Fin n}

theorem valid
    (hrun : Transition.run (Service.step SimpleLoop.body draw) labels (initial n) = some s) :
    s.Valid SimpleLoop.body [] :=
  Service.valid_run SimpleLoop.check_eq_none (fun _ => rfl) hrun

theorem exists_warned
    (hrun : Transition.run (Service.step SimpleLoop.body draw) labels (initial n) = some s)
    (htold : s.Told i) : ∃ b, s.WarnedAt b i := by
  cases (valid hrun).conn i with
  | warned _ h => exact ⟨_, h⟩
  | linked _ huntold _ | orphaned _ huntold _ => exact absurd htold huntold

/-- **Everybody who is told ends.** A client that has been sent `SHUTDOWN` makes at most three
more moves, whatever the server and its own sends do from then on, and it can make them as long
as its loop has not ended. -/
theorem told_ends
    (hrun : Transition.run (Service.step SimpleLoop.body draw) labels (initial n) = some s)
    (htold : s.Told i)
    (hmore : Transition.run (Service.step SimpleLoop.body draw) more s = some s') :
    more.countP (Service.Label.own i) ≤ 3 ∧
      ((∃ e, (s'.network.peer i).client.point = .ended e) ∨
        ∃ label : Service.Label n, label.own i = true ∧
          (Service.step SimpleLoop.body draw label s').isSome) := by
  obtain ⟨b, h⟩ := exists_warned hrun htold
  obtain ⟨b', h', -, hdue⟩ := Service.warned_run SimpleLoop.check_eq_none h hmore
  refine ⟨?_, h'.progress⟩
  exact (Nat.le_add_left _ _).trans (hdue.trans (Warned.due_le _ _))

/-- The exit command of the second client, while the first one has just been sent a keyset. -/
def exitEarly (i j : Fin n) : List (Service.Label n) :=
  ([.thread i, .thread j, .submit j CommunicationProtocol.CLIENT_EXIT, .thread j, .thread j,
    .read j, .act j, .thread j, .thread j, .read j, .act j, .thread j, .thread i,
    .thread i] : List (Network.Label n)).map .move

/-- What the first client still does. -/
def lastMoves (i : Fin n) : List (Service.Label n) :=
  [.move (.read i), .move (.act i), .move (.read i)]

/-- The three moves of the first client. -/
theorem told_ends_lastMoves :
    ∃ s s' : ChatService 2,
      Transition.run (Service.step SimpleLoop.body (0 : ℕ → PairKeys 2))
        (exitEarly 0 1 ++ [.send 1]) (initial 2) = some s ∧
      Transition.run (Service.step SimpleLoop.body (0 : ℕ → PairKeys 2)) (lastMoves 0) s = some s' ∧
      (lastMoves (0 : Fin 2)).countP (Service.Label.own 0) ≤ 3 ∧
      ((∃ e, (s'.network.peer 0).client.point = .ended e) ∨
        ∃ label : Service.Label 2, label.own 0 = true ∧
          (Service.step SimpleLoop.body (0 : ℕ → PairKeys 2) label s').isSome) := by
  have hruns : ((Transition.run (Service.step SimpleLoop.body (0 : ℕ → PairKeys 2))
      (exitEarly 0 1 ++ [.send 1]) (initial 2)).bind fun s =>
        (Transition.run (Service.step SimpleLoop.body (0 : ℕ → PairKeys 2)) (lastMoves 0) s).map
          fun _ => decide (0 < s.shutdowns 1)) = some true := by
    decide +kernel
  obtain ⟨s, hrun, hs⟩ := Option.bind_eq_some_iff.mp hruns
  obtain ⟨s', hmore, htold⟩ := Option.map_eq_some_iff.mp hs
  have htold' : s.Told 0 := ⟨1, of_decide_eq_true htold⟩
  exact ⟨s, s', hrun, hmore, told_ends hrun htold' hmore⟩

/-- **Who is shut down.** A client that is sent `SHUTDOWN` for the first time leaves its loop over
it just in case its thread stands between the keyset and the start of the round, and its
acknowledgement of the keyset does not fail. Otherwise its loop ends over an exception. -/
theorem shut_down_iff
    (hrun : Transition.run (Service.step SimpleLoop.body draw) labels (initial n) = some s₀)
    (huntold : ¬ s₀.Told i) (hnext : s₀.next t = some i)
    (hafter : Transition.run (Service.step SimpleLoop.body draw) (.send t :: after) s₀ = some s)
    {e : Ending} (he : (s.network.peer i).client.point = .ended e) :
    (e = .shutdown ↔ started (s₀.network.server.thread i).point = true ∧ .lost i ∉ after) ∧
      (e = .shutdown ∨ ∃ u, e = .threw u) := by
  obtain ⟨s₁, hsend, hafter⟩ := (run_cons_eq_some _).mp hafter
  have hwarned : s₁.WarnedAt (started (s₀.network.server.thread i).point) i := by
    cases Service.step_effect hsend with
    | send hrunning hleft hnext' =>
      rename_i c
      obtain rfl : i = c := Option.some.inj (hnext.symm.trans hnext')
      cases (valid hrun).conn i with
      | linked _ _ h =>
        obtain ⟨past, now, h⟩ := h
        exact .put_self (h.phase.warned SimpleLoop.check_eq_none fun _ => rfl)
      | warned htold _ => exact absurd htold huntold
      | orphaned hstopped _ _ =>
        rw [hrunning] at hstopped
        cases hstopped
  obtain ⟨b, h, hb, -⟩ := Service.warned_run SimpleLoop.check_eq_none hwarned hafter
  unfold Service.WarnedAt at h
  rw [he] at h
  exact ⟨h.shutdown_iff.trans hb, h.ended_cases⟩

/-- The first client is. -/
theorem shut_down_iff_first :
    ∃ (s₀ s : ChatService 2) (e : Ending),
      Transition.run (Service.step SimpleLoop.body (0 : ℕ → PairKeys 2)) (exitEarly 0 1)
        (initial 2) = some s₀ ∧
      Transition.run (Service.step SimpleLoop.body (0 : ℕ → PairKeys 2)) (.send 1 :: lastMoves 0)
        s₀ = some s ∧
      (s.network.peer 0).client.point = .ended e ∧
      started (s₀.network.server.thread 0).point = true ∧ e = .shutdown := by
  have hruns : ((Transition.run (Service.step SimpleLoop.body (0 : ℕ → PairKeys 2))
      (exitEarly 0 1) (initial 2)).bind fun s₀ =>
        (Transition.run (Service.step SimpleLoop.body (0 : ℕ → PairKeys 2))
          (.send 1 :: lastMoves 0) s₀).map fun s =>
            (decide (∀ t, s₀.shutdowns t = 0), started (s₀.network.server.thread 0).point,
              gone (s.network.peer 0).client.point)) = some (true, true, true) := by
    decide +kernel
  obtain ⟨s₀, hrun, hs₀⟩ := Option.bind_eq_some_iff.mp hruns
  obtain ⟨s, hafter, hs⟩ := Option.map_eq_some_iff.mp hs₀
  obtain ⟨hnone, hs⟩ := Prod.mk.inj hs
  obtain ⟨hstarted, hgone⟩ := Prod.mk.inj hs
  replace hnone : ∀ t, s₀.shutdowns t = 0 := of_decide_eq_true hnone
  have huntold : ¬ s₀.Told 0 := fun ⟨t, ht⟩ => by rw [hnone t] at ht; cases ht
  have hnext : s₀.next 1 = some 0 := by
    unfold Service.next
    simp only [hnone, Nat.zero_lt_two, dif_pos]
    rfl
  obtain ⟨e, he⟩ := ended_of_gone hgone
  refine ⟨s₀, s, e, hrun, hafter, he, hstarted, ?_⟩
  exact (shut_down_iff hrun huntold hnext hafter he).1.mpr ⟨hstarted, by simp [lastMoves]⟩

/-- **How the server ends.** It ends only when a thread has read the exit command. Then all clients
have been told, or one of those who have been told has left its loop as it should; the
others may not hear of it. -/
theorem exit_run
    (hrun : Transition.run (Service.step SimpleLoop.body draw) labels (initial n) = some s)
    (hstopped : s.running = false) :
    (∃ t, (s.network.server.thread t).point = .left) ∧
      ((∀ i, s.Told i) ∨ ∃ i, (s.network.peer i).client.point = .ended .shutdown) :=
  (valid hrun).stopped hstopped

/-- The first client's leaving ends the server before the second client is told. -/
theorem exit_run_first :
    ∃ s : ChatService 2,
      Transition.run (Service.step SimpleLoop.body (0 : ℕ → PairKeys 2))
        (exitEarly 0 1 ++ .send 1 :: lastMoves 0 ++ [.fail 0]) (initial 2) = some s ∧
      s.running = false ∧ ¬ s.Told 1 ∧
      ((∃ t, (s.network.server.thread t).point = .left) ∧
        ((∀ i, s.Told i) ∨ ∃ i, (s.network.peer i).client.point = .ended .shutdown)) := by
  have hruns : ((Transition.run (Service.step SimpleLoop.body (0 : ℕ → PairKeys 2))
      (exitEarly 0 1 ++ .send 1 :: lastMoves 0 ++ [.fail 0]) (initial 2)).map fun s =>
        (s.running, decide (∀ t, s.shutdowns t ≤ 1))) = some (false, true) := by
    decide +kernel
  obtain ⟨s, hrun, hs⟩ := Option.map_eq_some_iff.mp hruns
  obtain ⟨hstopped, hfew⟩ := Prod.mk.inj hs
  refine ⟨s, hrun, hstopped, ?_, exit_run hrun hstopped⟩
  rintro ⟨t, ht⟩
  exact Nat.not_lt.mpr (of_decide_eq_true hfew t) ht

end ChatService

end DiningCrypto
