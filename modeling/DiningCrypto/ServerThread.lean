import DiningCrypto.Protocol
import DiningCrypto.Transition

/-!
# The server's threads

`SharedServerInfo`, the object that the server's threads share, and `ServerThread.run`, cut at
its synchronized calls, its reads and writes of the socket and the segments of its two
`synchronized` blocks. A `Point` is where a thread stands, with the local variables that are
still needed there; `send` and `receive` are what it does with the socket, and `step` is one
move of one of `n` threads over one shared object.

Both barriers wait on the one monitor of the shared object, so that `notifyAll` wakes the
threads parked at either. A woken thread has left `wait()` and proceeds without looking at
the condition again, because both waits stand in an `if`.

A call of `generateKeySets` is one move here, although the method is not `synchronized`: what
happens when the first call of one thread overlaps a call of another is left out.
-/

namespace DiningCrypto

/-! ## `SharedServerInfo` -/

/-- The fields of a `SharedServerInfo` for `numberClients` clients. `runs` counts the calls
of `generateKeySets`, and so names the run that the present keysets stem from. -/
structure SharedServerInfo (numberClients : ℕ) : Type where
  noSent : ℕ
  keysDistributed : ℕ
  currentRoundMessages : List Message
  keysets : Option (List KeySet)
  runs : ℕ

namespace SharedServerInfo

variable {numberClients : ℕ}

/-- As `Server.main` constructs it. -/
def new (numberClients : ℕ) : SharedServerInfo numberClients := ⟨0, 0, [], none, 0⟩

def incrementSent (info : SharedServerInfo numberClients) : SharedServerInfo numberClients :=
  { info with noSent := info.noSent + 1 }

def resetSent (info : SharedServerInfo numberClients) : SharedServerInfo numberClients :=
  { info with noSent := 0 }

def getSent (info : SharedServerInfo numberClients) : ℕ := info.noSent

def getNumberClients (_ : SharedServerInfo numberClients) : ℕ := numberClients

def getNoOfMessages (info : SharedServerInfo numberClients) : ℕ :=
  info.currentRoundMessages.length

def getCurrentRoundMessages (info : SharedServerInfo numberClients) : List Message :=
  info.currentRoundMessages

def addOutput (info : SharedServerInfo numberClients) (message : Message) :
    SharedServerInfo numberClients :=
  { info with currentRoundMessages := info.currentRoundMessages ++ [message] }

def resetRoundMessages (info : SharedServerInfo numberClients) :
    SharedServerInfo numberClients :=
  { info with currentRoundMessages := [] }

variable (draw : ℕ → PairKeys numberClients)

/-- `generateKeySets`: the sets of a new run replace the present ones. `keysDistributed` is
left alone. -/
def generateKeySets (info : SharedServerInfo numberClients) : SharedServerInfo numberClients :=
  { info with
    keysets :=
      some (DiningCrypto.generateKeySets info.runs numberClients (draw info.runs).draw)
    runs := info.runs + 1 }

/-- `getKeySet`. `none`: an exception, because there are no keysets or the index is out of
bounds. -/
def getKeySet (info : SharedServerInfo numberClients) :
    Option (KeySet × SharedServerInfo numberClients) :=
  let info :=
    if info.keysDistributed = numberClients then
      { info.generateKeySets draw with keysDistributed := 0 }
    else info
  info.keysets.bind fun keysets =>
    keysets[info.keysDistributed]?.map fun set =>
      (set, { info with keysDistributed := info.keysDistributed + 1 })

end SharedServerInfo

/-! ## One thread and its socket -/

namespace ServerThread

/-- Where a thread stands in `run`. -/
inductive Point : Type where
  /-- before the initial `generateKeySets` -/
  | generateKeySets
  /-- `sendKeys`: at the call of `getKeySet` -/
  | getKeySet
  | sendKeys (key : KeySet)
  /-- `sendKeys`: at the read of the reply -/
  | keysReply
  | sendStartRound
  /-- at the read of the client's output -/
  | output
  | addOutput (output : Message)
  /-- before the first `synchronized` block -/
  | first
  /-- in the `wait` of the first block -/
  | waitFirst
  /-- woken there -/
  | leaveFirst
  /-- `sendResults`: at the copy of the message list -/
  | copyResults
  | sendResults (results : List Message)
  /-- `sendResults`: at the read of the reply -/
  | resultsReply
  /-- before the second `synchronized` block -/
  | second
  /-- in the `wait` of the second block -/
  | waitSecond
  /-- woken there -/
  | leaveSecond
  /-- out of the loop, after `CLIENT_EXIT` -/
  | left
  /-- `System.exit` -/
  | exited

/-- The object written at a point, and the point after it. -/
def send : Point → Option (Object × Point)
  | .sendKeys key => some (.keySet key, .keysReply)
  | .sendStartRound => some (.message ⟨CommunicationProtocol.START_ROUND⟩, .output)
  | .sendResults results => some (.results results, .resultsReply)
  | _ => none

/-- The point after reading a message from the client. -/
def receive : Point → Message → Option Point
  | .keysReply, reply =>
    some (if reply.message = CommunicationProtocol.ACK then .sendStartRound else .exited)
  | .output, output =>
    some (if output.message = CommunicationProtocol.CLIENT_EXIT then .left
      else .addOutput output)
  | .resultsReply, reply =>
    some (if reply.message = CommunicationProtocol.ACK then .second else .exited)
  | _, _ => none

/-- `notifyAll` as it concerns a thread at this point. -/
def wake : Point → Point
  | .waitFirst => .leaveFirst
  | .waitSecond => .leaveSecond
  | p => p

/-- In a `wait()`. -/
def waiting : Point → Bool
  | .waitFirst | .waitSecond => true
  | _ => false

/-- At the call of `addOutput`. -/
def adding : Point → Bool
  | .addOutput _ => true
  | _ => false

end ServerThread

open ServerThread

/-- A thread: where it stands, the number of rounds it has finished, the keysets it was
handed and the result lists it has sent, one for each of its rounds. -/
structure Thread : Type where
  point : Point
  round : ℕ
  keys : List KeySet
  results : List (List Message)

/-- A thread that has not started. -/
def Thread.new : Thread := ⟨.generateKeySets, 0, [], []⟩

/-! ## `n` threads -/

/-- Clients that answer every request: with `ACK` to a keyset or a result list, and to
`START_ROUND` with an output that is not the exit command. -/
structure Answers (n : ℕ) : Type where
  /-- the output of a client in a round -/
  output : Fin n → ℕ → Message
  ne_exit : ∀ t r, (output t r).message ≠ CommunicationProtocol.CLIENT_EXIT

/-- The outputs of a round. -/
def Answers.outputs {n : ℕ} (answers : Answers n) (r : ℕ) : List Message :=
  List.ofFn fun t => answers.output t r

/-- The threads and what they share. -/
structure Server (n : ℕ) : Type where
  shared : SharedServerInfo n
  thread : Fin n → Thread

namespace Server

variable {n : ℕ}

/-- Before any thread has started. -/
def initial (n : ℕ) : Server n := ⟨SharedServerInfo.new n, fun _ => Thread.new⟩

/-- The state after thread `t` has moved to `th`, leaving `shared` behind. -/
def put (s : Server n) (t : Fin n) (shared : SharedServerInfo n) (th : Thread) : Server n :=
  ⟨shared, Function.update s.thread t th⟩

theorem thread_put_self {t : Fin n} {th : Thread} (s : Server n) (shared : SharedServerInfo n) :
    (s.put t shared th).thread t = th := Function.update_self ..

theorem thread_put_of_ne {t u : Fin n} {th : Thread} (s : Server n)
    (shared : SharedServerInfo n) (h : u ≠ t) :
    (s.put t shared th).thread u = s.thread u := Function.update_of_ne h ..

/-- What holds of thread `t` after its move, and of the others before it. -/
theorem forall_put {P : Fin n → Thread → Prop} {s : Server n} {shared : SharedServerInfo n}
    {t : Fin n} {th : Thread} (ht : P t th) (hs : ∀ u, u ≠ t → P u (s.thread u)) (u : Fin n) :
    P u ((s.put t shared th).thread u) := by
  by_cases hu : u = t
  · subst hu
    rw [s.thread_put_self]
    exact ht
  · rw [s.thread_put_of_ne shared hu]
    exact hs u hu

/-- `sharedInfo.notifyAll()`. -/
def notifyAll (s : Server n) : Server n :=
  { s with thread := fun u => { s.thread u with point := wake (s.thread u).point } }

variable (answers : Answers n) (draw : ℕ → PairKeys n)

/-- What a thread reads from its client: the output of the round, or an acknowledgement. -/
def reply (t : Fin n) (th : Thread) : Message :=
  match th.point with
  | .output => answers.output t th.round
  | _ => ⟨CommunicationProtocol.ACK⟩

/-- One move of thread `t`. `none`: it cannot move. -/
def step (t : Fin n) (s : Server n) : Option (Server n) :=
  let th := s.thread t
  match th.point with
  | .generateKeySets =>
    some (s.put t (s.shared.generateKeySets draw) { th with point := .getKeySet })
  | .getKeySet =>
    (s.shared.getKeySet draw).map fun (key, shared) =>
      s.put t shared { th with point := .sendKeys key, keys := th.keys ++ [key] }
  | .addOutput output => some (s.put t (s.shared.addOutput output) { th with point := .first })
  | .first =>
    if s.shared.getNoOfMessages < s.shared.getNumberClients then
      some (s.put t s.shared { th with point := .waitFirst })
    else some (s.notifyAll.put t s.shared { th with point := .copyResults })
  | .leaveFirst => some (s.put t s.shared { th with point := .copyResults })
  | .copyResults =>
    some (s.put t s.shared { th with point := .sendResults s.shared.getCurrentRoundMessages })
  | .second =>
    let shared := s.shared.incrementSent
    if shared.getSent < shared.getNumberClients then
      some (s.put t shared { th with point := .waitSecond })
    else
      some (s.notifyAll.put t shared.resetRoundMessages.resetSent
        { th with point := .getKeySet, round := th.round + 1 })
  | .leaveSecond => some (s.put t s.shared { th with point := .getKeySet, round := th.round + 1 })
  | .sendKeys _ | .sendStartRound =>
    (send th.point).map fun (_, point) => s.put t s.shared { th with point }
  | .sendResults results =>
    (send th.point).map fun (_, point) =>
      s.put t s.shared { th with point, results := th.results ++ [results] }
  | .keysReply | .output | .resultsReply =>
    (receive th.point (reply answers t th)).map fun point => s.put t s.shared { th with point }
  | .waitFirst | .waitSecond | .left | .exited => none

/-- Every thread is blocked in a `wait()`. -/
def Stuck (s : Server n) : Prop := ∀ t, waiting (s.thread t).point = true

/-! ## What a step can do -/

/-- Thread `t` moves on its own: the shared object and the other threads stay as they are. -/
inductive Own (t : Fin n) (info : SharedServerInfo n) (th : Thread) : Thread → Prop where
  | sendKeys {key : KeySet} (hp : th.point = .sendKeys key) :
      Own t info th { th with point := .keysReply }
  | keysReply (hp : th.point = .keysReply) : Own t info th { th with point := .sendStartRound }
  | sendStartRound (hp : th.point = .sendStartRound) : Own t info th { th with point := .output }
  | output (hp : th.point = .output) :
      Own t info th { th with point := .addOutput (answers.output t th.round) }
  | leaveFirst (hp : th.point = .leaveFirst) : Own t info th { th with point := .copyResults }
  | copyResults (hp : th.point = .copyResults) :
      Own t info th { th with point := .sendResults info.currentRoundMessages }
  | sendResults {results : List Message} (hp : th.point = .sendResults results) :
      Own t info th { th with point := .resultsReply, results := th.results ++ [results] }
  | resultsReply (hp : th.point = .resultsReply) : Own t info th { th with point := .second }
  | leaveSecond (hp : th.point = .leaveSecond) :
      Own t info th { th with point := .getKeySet, round := th.round + 1 }

/-- What a move of thread `t` can do. -/
inductive Effect (t : Fin n) (s : Server n) : Server n → Prop where
  | own {th : Thread} (h : Own answers t s.shared (s.thread t) th) :
      Effect t s (s.put t s.shared th)
  | generateKeySets (hp : (s.thread t).point = .generateKeySets) :
      Effect t s
        (s.put t (s.shared.generateKeySets draw) { s.thread t with point := .getKeySet })
  | getKeySet (hp : (s.thread t).point = .getKeySet) {key : KeySet}
      {shared : SharedServerInfo n} (hget : s.shared.getKeySet draw = some (key, shared)) :
      Effect t s (s.put t shared
        { s.thread t with point := .sendKeys key, keys := (s.thread t).keys ++ [key] })
  | addOutput {output : Message} (hp : (s.thread t).point = .addOutput output) :
      Effect t s (s.put t (s.shared.addOutput output) { s.thread t with point := .first })
  | parkFirst (hp : (s.thread t).point = .first)
      (h : s.shared.getNoOfMessages < s.shared.getNumberClients) :
      Effect t s (s.put t s.shared { s.thread t with point := .waitFirst })
  | passFirst (hp : (s.thread t).point = .first)
      (h : ¬ s.shared.getNoOfMessages < s.shared.getNumberClients) :
      Effect t s (s.notifyAll.put t s.shared { s.thread t with point := .copyResults })
  | parkSecond (hp : (s.thread t).point = .second)
      (h : s.shared.incrementSent.getSent < s.shared.incrementSent.getNumberClients) :
      Effect t s (s.put t s.shared.incrementSent { s.thread t with point := .waitSecond })
  | finish (hp : (s.thread t).point = .second)
      (h : ¬ s.shared.incrementSent.getSent < s.shared.incrementSent.getNumberClients) :
      Effect t s
        (s.notifyAll.put t s.shared.incrementSent.resetRoundMessages.resetSent
          { s.thread t with point := .getKeySet, round := (s.thread t).round + 1 })

/-- Every move of a thread is one of these. -/
theorem step_effect {t : Fin n} {s s' : Server n} (h : step answers draw t s = some s') :
    Effect answers draw t s s' := by
  unfold step at h
  cases hp : (s.thread t).point with
  | generateKeySets =>
    simp only [hp, Option.some.injEq] at h
    exact h ▸ .generateKeySets hp
  | getKeySet =>
    simp only [hp, Option.map_eq_some_iff, Prod.exists] at h
    obtain ⟨key, shared, hget, rfl⟩ := h
    exact .getKeySet hp hget
  | sendKeys key =>
    simp only [hp, send, Option.map_some, Option.some.injEq] at h
    exact h ▸ .own (.sendKeys hp)
  | keysReply =>
    simp only [hp, receive, reply, if_true, Option.map_some, Option.some.injEq] at h
    exact h ▸ .own (.keysReply hp)
  | sendStartRound =>
    simp only [hp, send, Option.map_some, Option.some.injEq] at h
    exact h ▸ .own (.sendStartRound hp)
  | output =>
    simp only [hp, receive, reply, if_neg (answers.ne_exit t _), Option.map_some,
      Option.some.injEq] at h
    exact h ▸ .own (.output hp)
  | addOutput output =>
    simp only [hp, Option.some.injEq] at h
    exact h ▸ .addOutput hp
  | first =>
    simp only [hp] at h
    by_cases hlt : s.shared.getNoOfMessages < s.shared.getNumberClients
    · rw [if_pos hlt, Option.some.injEq] at h
      exact h ▸ .parkFirst hp hlt
    · rw [if_neg hlt, Option.some.injEq] at h
      exact h ▸ .passFirst hp hlt
  | leaveFirst =>
    simp only [hp, Option.some.injEq] at h
    exact h ▸ .own (.leaveFirst hp)
  | copyResults =>
    simp only [hp, Option.some.injEq] at h
    exact h ▸ .own (.copyResults hp)
  | sendResults results =>
    simp only [hp, send, Option.map_some, Option.some.injEq] at h
    exact h ▸ .own (.sendResults hp)
  | resultsReply =>
    simp only [hp, receive, reply, if_true, Option.map_some, Option.some.injEq] at h
    exact h ▸ .own (.resultsReply hp)
  | second =>
    simp only [hp] at h
    by_cases hlt : s.shared.incrementSent.getSent < s.shared.incrementSent.getNumberClients
    · rw [if_pos hlt, Option.some.injEq] at h
      exact h ▸ .parkSecond hp hlt
    · rw [if_neg hlt, Option.some.injEq] at h
      exact h ▸ .finish hp hlt
  | leaveSecond =>
    simp only [hp, Option.some.injEq] at h
    exact h ▸ .own (.leaveSecond hp)
  | waitFirst => simp only [hp, reduceCtorEq] at h
  | waitSecond => simp only [hp, reduceCtorEq] at h
  | left => simp only [hp, reduceCtorEq] at h
  | exited => simp only [hp, reduceCtorEq] at h

end Server

end DiningCrypto
