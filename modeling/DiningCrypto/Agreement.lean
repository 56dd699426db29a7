import DiningCrypto.Network

/-!
# Agreement in the network

The server of a network runs as a `Server` does whose clients answer every request: of a run
of the network, the moves of the threads are a run of `Server.step`, for any `Answers` that
extend what the threads have read (`answered_run`). The answers have to be known from the start
of the run, and are read off its end. A thread that has left its loop over the exit command is
to the others one that still waits for its client (`Server.stayed`).

So what holds of the guarded runs of a `Server` holds in the network. With the conditions
under which the lists and the keysets of a round agree (`Roomy`, `StartsFirst`), the rounds of
all connections are one sequence of rounds (`rounds_agree`): a complete hand-out of keysets, a
transmission of every client, and the lists of the outputs. For `DiningLoop` clients it follows
that they all display the results of one and the same sequence (`displays_agree`), and with the
one client that the server is set up for the conditions hold in every run (`orderly_of_one`).
-/

namespace DiningCrypto

open ClientLoop Transition ServerThread

variable {n : ℕ} {ι γ ρ δ : Type} {body : LoopBody ι γ ρ δ} {draw : ℕ → PairKeys n} {input : ι}
  {shown : δ}

/-! ## Threads that have left -/

namespace ServerThread

/-- Back at the read of the output, after the exit command. -/
def stay : ServerThread.Point → ServerThread.Point
  | .left => .output
  | p => p

theorem stay_of_ne {p : ServerThread.Point} (h : p ≠ .left) : stay p = p := by
  cases p <;> first | rfl | exact absurd rfl h

theorem stay_wake (p : ServerThread.Point) : stay (wake p) = wake (stay p) := by
  cases p <;> rfl

theorem starting_stay (p : ServerThread.Point) : starting (stay p) = starting p := by
  cases p <;> rfl

theorem dealing_stay (p : ServerThread.Point) : dealing (stay p) = dealing p := by
  cases p <;> rfl

theorem adding_stay (p : ServerThread.Point) : adding (stay p) = adding p := by
  cases p <;> rfl

theorem begun_stay (p : ServerThread.Point) : begun (stay p) = begun p := by
  cases p <;> rfl

theorem added_stay (p : ServerThread.Point) : added (stay p) = added p := by
  cases p <;> rfl

end ServerThread

namespace Server

/-- The threads that have left their loops, put back to where they have read the exit command. -/
def stayed (s : Server n) : Server n :=
  { s with thread := fun u => { s.thread u with point := stay (s.thread u).point } }

variable {answers answers' : Answers n} {s s' : Server n} {t : Fin n}
  {shared : SharedServerInfo n} {th : Thread}

theorem thread_stayed (h : stay (s.thread t).point = (s.thread t).point) :
    s.stayed.thread t = s.thread t := by
  unfold stayed
  simp only [h]

theorem stayed_put (h : stay th.point = th.point) :
    (s.put t shared th).stayed = s.stayed.put t shared th := by
  unfold stayed put
  refine congrArg (Server.mk shared) (funext fun u => ?_)
  by_cases hu : u = t
  · subst hu
    simp only [Function.update_self, h]
  · simp only [Function.update_of_ne hu]

theorem stayed_notifyAll : s.notifyAll.stayed = s.stayed.notifyAll := by
  unfold stayed notifyAll
  simp only [stay_wake]

/-- Nobody looks at whether a thread has left. -/
theorem step_stayed (hread : reading (s.thread t).point = false)
    (h : step answers draw t s = some s') : step answers' draw t s.stayed = some s'.stayed := by
  have hthread : ∀ {p : ServerThread.Point}, (s.thread t).point = p → stay p = p →
      s.stayed.thread t = s.thread t := by
    rintro p rfl hp
    exact thread_stayed hp
  cases step_effect answers draw h with
  | own hown =>
    cases hown with
    | keysReply hp | output hp | resultsReply hp =>
      rw [hp] at hread
      cases hread
    | sendKeys hp | sendStartRound hp | sendResults hp =>
      simp only [step, hthread hp rfl, hp, send, Option.map_some]
      exact congrArg some (stayed_put rfl).symm
    | leaveFirst hp | copyResults hp | leaveSecond hp =>
      simp only [step, hthread hp rfl, hp]
      exact congrArg some (stayed_put rfl).symm
  | generateKeySets hp | addOutput hp =>
    simp only [step, hthread hp rfl, hp]
    exact congrArg some (stayed_put rfl).symm
  | getKeySet hp hget =>
    have hget' : s.stayed.shared.getKeySet draw = _ := hget
    simp only [step, hthread hp rfl, hp, hget', Option.map_some]
    exact congrArg some (stayed_put rfl).symm
  | parkFirst hp hlt =>
    have hlt' : s.stayed.shared.getNoOfMessages < s.stayed.shared.getNumberClients := hlt
    simp only [step, hthread hp rfl, hp, if_pos hlt']
    exact congrArg some (stayed_put rfl).symm
  | passFirst hp hlt =>
    have hlt' : ¬ s.stayed.shared.getNoOfMessages < s.stayed.shared.getNumberClients := hlt
    simp only [step, hthread hp rfl, hp, if_neg hlt', ← stayed_notifyAll]
    exact congrArg some (stayed_put rfl).symm
  | parkSecond hp hlt =>
    have hlt' : s.stayed.shared.incrementSent.getSent <
        s.stayed.shared.incrementSent.getNumberClients := hlt
    simp only [step, hthread hp rfl, hp, if_pos hlt']
    exact congrArg some (stayed_put rfl).symm
  | finish hp hlt =>
    have hlt' : ¬ s.stayed.shared.incrementSent.getSent <
        s.stayed.shared.incrementSent.getNumberClients := hlt
    simp only [step, hthread hp rfl, hp, if_neg hlt', ← stayed_notifyAll]
    exact congrArg some (stayed_put rfl).symm

end Server

namespace Network

/-- The answers are what the threads have read. -/
def Heard (answers : Answers n) (s : Network n ι γ δ) : Prop :=
  ∀ (t : Fin n) (r : ℕ) (m : Message), (s.peer t).outputs[r]? = some m → answers.output t r = m

/-- No thread has left its loop over the exit command. -/
def Stays (s : Network n ι γ δ) : Prop := ∀ t, (s.server.thread t).point ≠ .left

/-- A condition on the moves of the threads. -/
def OnThreads (guard : Fin n → Server n → Prop) : Label n → Network n ι γ δ → Prop
  | .thread t, s => guard t s.server
  | _, _ => True

instance {guard : Fin n → Server n → Prop} [∀ t, DecidablePred (guard t)] (label : Label n) :
    DecidablePred (OnThreads guard label : Network n ι γ δ → Prop) := fun s =>
  match label with
  | .thread t => inferInstanceAs (Decidable (guard t s.server))
  | .act _ | .read _ | .submit _ _ => isTrue trivial

theorem Stays.stayed_eq {s : Network n ι γ δ} (h : Stays s) : s.server.stayed = s.server :=
  congrArg (Server.mk s.server.shared) (funext fun t => Server.thread_stayed (stay_of_ne (h t)))

/-- A condition that does not look at whether a thread has left. -/
def Blind (guard : Fin n → Server n → Prop) : Prop := ∀ t s, guard t s → guard t s.stayed

/-- However the clients go on to answer, the server is where a run of `Server.step` gets, but for
the threads that have left. -/
def Answered (draw : ℕ → PairKeys n) (guard : Fin n → Server n → Prop) (s : Network n ι γ δ) :
    Prop :=
  ∀ answers : Answers n, Heard answers s →
    ∃ schedule, Guarded (Server.step answers draw) guard schedule (Server.initial n) ∧
      Transition.run (Server.step answers draw) schedule (Server.initial n) =
        some s.server.stayed

end Network

theorem Server.counted_run {answers : Answers n} {schedule : List (Fin n)} {s : Server n}
    (hrun : Transition.run (Server.step answers draw) schedule (Server.initial n) = some s) :
    ∀ u, (s.thread u).Counted := by
  have hstart : ∀ u, ((Server.initial n).thread u).Counted := fun _ => rfl
  exact invariant_of_run (fun _ _ _ h hstep => counted_step h hstep) hstart hrun

namespace Linked

variable {th : Thread} {p : Peer ι γ δ} {past : List (Past γ)} {now : Present γ}

/-- A thread that reads an output has read one in each of its rounds before. -/
theorem length_outputs (h : Linked body shown th p past now) (hcount : th.Counted)
    (hp : th.point = .output) : p.outputs.length = th.round := by
  obtain ⟨point, round, keys, results⟩ := th
  obtain ⟨⟨c, _, _, sent⟩, toClient, toServer, outputs, _⟩ := p
  obtain ⟨hphase, hkeys, hsent, houts, hresults, hshown, hexits⟩ := h
  obtain rfl := hp
  have hlen : keys.length = round + 1 := hcount
  obtain rfl : keys = past.map Past.keys ++ now.keys := hkeys
  obtain rfl : outputs = past.map (Past.output body) ++ now.outputs := houts
  simp only [List.length_append, List.length_map] at hlen ⊢
  cases hphase with
  | startRound | transmit | noSlot | output =>
    simp only [List.length_cons, List.length_nil] at hlen ⊢
    omega
  | resting hp => exact hp.elim
  | gathering hp => exact hp.elim

/-- An output that has been added has been read. -/
theorem added_le_outputs (h : Linked body shown th p past now) (hcount : th.Counted) :
    th.round + added th.point ≤ p.outputs.length := by
  obtain ⟨point, round, keys, results⟩ := th
  obtain ⟨⟨c, _, _, sent⟩, toClient, toServer, outputs, _⟩ := p
  obtain ⟨hphase, hkeys, hsent, houts, hresults, hshown, hexits⟩ := h
  have hlen : keys.length = round + begun point := hcount
  obtain rfl : keys = past.map Past.keys ++ now.keys := hkeys
  obtain rfl : outputs = past.map (Past.output body) ++ now.outputs := houts
  simp only [List.length_append, List.length_map] at hlen ⊢
  cases hphase with
  | resting hp =>
    have := added_le_begun point
    simp only [List.length_nil] at hlen ⊢
    omega
  | gathering hp =>
    have := added_le_begun point
    simp only [List.length_cons, List.length_nil] at hlen ⊢
    omega
  | _ =>
    simp only [List.length_cons, List.length_nil, begun, added] at hlen ⊢
    omega

end Linked

/-! ## The server of a network is a server -/

theorem Server.step_of_reading {answers : Answers n} {s : Server n} {t : Fin n}
    (h : reading (s.thread t).point = true) :
    Server.step answers draw t s =
      (ServerThread.receive (s.thread t).point (reply answers t (s.thread t))).map fun point =>
        s.put t s.shared { s.thread t with point } := by
  unfold Server.step
  cases hp : (s.thread t).point with
  | keysReply | output | resultsReply => simp only [hp]
  | _ =>
    rw [hp] at h
    cases h

namespace Network

variable {s s' : Network n ι γ δ} {t : Fin n} {label : Label n} {answers : Answers n}
  {guard : Fin n → Server n → Prop}

/-- What the threads have read stays. -/
theorem Effect.outputs {j : Fin n} {th : Thread} {p : Peer ι γ δ}
    (heffect : Effect body draw s j label th p) : ∃ l, p.outputs = (s.peer j).outputs ++ l := by
  cases heffect with
  | receive _ _ => exact ⟨_, rfl⟩
  | _ => exact ⟨[], (List.append_nil _).symm⟩

theorem Heard.before (h : Heard answers s') (hstep : step body draw label s = some s') :
    Heard answers s := by
  intro t r m hm
  obtain ⟨l, hl⟩ := (step_effect hstep t).outputs
  exact h t r m (hl ▸ getElem?_of_append hm l)

/-- What a thread reads is what `Server.reply` has it read. -/
theorem reply_eq {th : Thread} {p : Peer ι γ δ} {past : List (Past γ)} {now : Present γ}
    (h : Linked body shown th p past now) (hcount : th.Counted) {m : Message}
    {toServer : List Message} {point : ServerThread.Point} (hm : p.toServer = m :: toServer)
    (hreceive : ServerThread.receive th.point m = some point) (hstay : point ≠ .left)
    (hheard : ∀ r o, (p.outputs ++ Connection.outputOf point)[r]? = some o →
      answers.output t r = o) :
    Server.reply answers t th = m := by
  have houtput := fun hp => h.length_outputs hcount hp
  obtain ⟨sp, round, keys, results⟩ := th
  obtain ⟨⟨c, _, _, sent⟩, toClient, _, outputs, _⟩ := p
  obtain rfl := hm
  cases h.phase with
  | keySetAck | resultsAck => rfl
  | output =>
    rename_i k x
    simp only [ServerThread.receive, Option.some.injEq] at hreceive
    by_cases hexit : (body.transmit x k).message = CommunicationProtocol.CLIENT_EXIT
    · rw [if_pos hexit] at hreceive
      exact absurd hreceive.symm hstay
    · rw [if_neg hexit] at hreceive
      obtain rfl := hreceive
      exact hheard round _ (getElem?_append_of_length (houtput rfl) _)

/-- A thread that reads the exit command does not move, as far as the others are concerned. -/
theorem stayed_put_left {s : Server n} {m : Message}
    (hreceive : ServerThread.receive (s.thread t).point m = some .left) :
    (s.put t s.shared { s.thread t with point := .left }).stayed = s.stayed := by
  have hp : (s.thread t).point = .output := by
    generalize (s.thread t).point = p at hreceive
    cases p with
    | output => rfl
    | keysReply | resultsReply =>
      simp only [ServerThread.receive, Option.some.injEq] at hreceive
      split_ifs at hreceive
    | _ => cases hreceive
  refine congrArg (Server.mk s.shared) (funext fun u => ?_)
  by_cases hu : u = t
  · subst hu
    rw [Server.thread_put_self, hp]
    rfl
  · rw [Server.thread_put_of_ne _ _ hu]

/-- **One step** of the network, at its server. -/
theorem answered_step (hblind : Blind guard) (h : Answered draw guard s)
    (hlinked : AllLinked body shown s) (hguard : OnThreads guard label s)
    (hstep : step body draw label s = some s') : Answered draw guard s' := by
  intro answers hheard
  obtain ⟨schedule, hg, hrun⟩ := h answers (hheard.before hstep)
  cases label with
  | thread t =>
    -- the same move of the server, unless the exit command is read
    have moved : Server.step answers draw t s.server.stayed = some s'.server.stayed →
        ∃ schedule, Guarded (Server.step answers draw) guard schedule (Server.initial n) ∧
          Transition.run (Server.step answers draw) schedule (Server.initial n) =
            some s'.server.stayed := fun hmove =>
      ⟨schedule ++ [t], hg.concat hrun (hblind _ _ hguard), run_concat _ hrun hmove⟩
    rcases serve_cases hstep with ⟨m, toServer, point, hread, hm, hreceive, rfl⟩ |
      ⟨server, hread, hserver, rfl⟩
    · by_cases hstay : point = .left
      · subst hstay
        exact ⟨schedule, hg, hrun.trans (congrArg some (stayed_put_left hreceive).symm)⟩
      · have hthread : s.server.stayed.thread t = s.server.thread t := by
          refine Server.thread_stayed (stay_of_ne fun hleft => ?_)
          rw [hleft] at hread
          cases hread
        obtain ⟨past, now, ht⟩ := hlinked t
        have hreply : Server.reply answers t (s.server.thread t) = m := by
          refine reply_eq ht (hthread ▸ Server.counted_run hrun t) hm hreceive hstay
            fun r o ho => ?_
          refine hheard t r o ?_
          rw [peer_put_self]
          exact ho
        refine moved ?_
        rw [Server.step_of_reading (hthread.symm ▸ hread), hthread, hreply, hreceive]
        exact congrArg some (Server.stayed_put (stay_of_ne hstay)).symm
    · exact moved (Server.step_stayed hread hserver)
  | _ =>
    obtain ⟨i, p, rfl, -⟩ := client_step hstep (by simp)
    exact ⟨schedule, hg, hrun⟩

/-- **The server of a network is a server**, in every run. -/
theorem answered_run {labels : List (Label n)} (hblind : Blind guard)
    (hguard : Guarded (step body draw) (OnThreads guard) labels (initial n input shown))
    (hrun : Transition.run (step body draw) labels (initial n input shown) = some s) :
    Answered draw guard s := by
  have hI : Answered draw guard s ∧ AllLinked body shown s :=
    invariant (I := fun s => Answered draw guard s ∧ AllLinked body shown s)
      (fun _ _ _ h hg hstep => ⟨answered_step hblind h.1 h.2 hg hstep, allLinked_step h.2 hstep⟩)
      ⟨fun _ _ => ⟨[], trivial, rfl⟩, fun _ => ⟨[], _, Linked.initial body input shown⟩⟩
      hguard hrun
  exact hI.1

end Network

/-! ## The rounds of the network -/

theorem ServerThread.answered_cases (p : ServerThread.Point) :
    answered p = 0 ∨ answered p = 1 ∧ counted p = 1 ∨ answered p = 1 ∧ Opened p := by
  cases p <;> simp [answered, counted, Opened]

/-- When a list of a round has been sent, every output of the round has been added. -/
theorem Follows.results_le {answers : Answers n} {s : Server n} {b : Rendezvous (Fin n)}
    (h : Follows answers s b) (t u : Fin n) :
    (s.thread t).results.length ≤ (s.thread u).round + added (s.thread u).point := by
  have ht := h.fits t
  rw [ht.length, ← (h.fits u).posts]
  have hle := b.closes_le_posts t u
  rw [ht.closes] at hle
  rcases answered_cases (s.thread t).point with hans | ⟨hans, hcount⟩ | ⟨hans, hopen⟩
  · omega
  · omega
  · -- between the barriers every party has posted
    have hfull := ht.opened hopen
    have hround := (ht.between hopen.added_eq hopen.counted_eq).2.2
    have hposts : b.posts u = b.round + 1 :=
      Rendezvous.posts_of_mem (hfull ▸ Finset.mem_univ u)
    omega

/-- A keyset of a round in which everybody has one is a member of the run of the round. -/
theorem Dealt.oneRun_of_taken [NeZero n] {s : Server n} {round g r : ℕ} {dealt : List (Fin n)}
    (h : Dealt draw s round g dealt) (hr : ∀ t, r < (s.thread t).keys.length) :
    OneRun draw s r := by
  rcases Nat.lt_or_ge r round with hlt | hge
  · exact h.past r hlt
  · -- the round being dealt
    have hcount : ∀ t, round = r ∧ t ∈ dealt := by
      intro t
      have hlen := hr t
      rw [h.count] at hlen
      split_ifs at hlen with ht
      · exact ⟨by omega, ht⟩
      · omega
    exact (hcount 0).1 ▸ h.oneRun (h.length_of_all fun t => (hcount t).2)

/-- The conditions under which the lists and the keysets of a round agree. -/
def Orderly (t : Fin n) (s : Server n) : Prop := Roomy t s ∧ StartsFirst t s

instance (t : Fin n) : DecidablePred (Orderly t) := fun _ =>
  inferInstanceAs (Decidable ((_ → _) ∧ (_ → _)))

/-- What has been read as output in the present round. -/
theorem Phase.outputs_cases {past : List (Past γ)} {p : ServerThread.Point} {c : ClientLoop.Point}
    {toClient : List Object} {toServer : List Message} {now : Present γ}
    (h : Phase body past p c toClient toServer now) :
    now.outputs = [] ∨
      ∃ k x, now.keys = [k] ∧ now.sent = [x] ∧ now.outputs = [body.transmit x k] := by
  cases h with
  | addOutput | gathering | results | ackResults | refused =>
    exact .inr ⟨_, _, rfl, rfl, rfl⟩
  | _ => exact .inl rfl

/-- A client that waits for a keyset has nothing of the present round. -/
theorem Phase.sent_top {past : List (Past γ)} {p : ServerThread.Point} {toClient : List Object}
    {toServer : List Message} {now : Present γ}
    (h : Phase body past p .receiveKeySet toClient toServer now) : now.sent = [] := by
  cases h <;> rfl

namespace Linked

variable {th : Thread} {p : Peer ι γ δ} {past : List (Past γ)} {now : Present γ}

/-- Each output was computed in its round. -/
theorem paired (h : Linked body shown th p past now) {r : ℕ} {m : Message}
    (hm : p.outputs[r]? = some m) :
    ∃ k x, th.keys[r]? = some k ∧ p.client.sent[r]? = some x ∧ m = body.transmit x k := by
  rw [h.keys, h.sent]
  rw [h.outputs] at hm
  have hpast : (past.map (Past.output body))[r]? = some m →
      ∃ k x, (past.map Past.keys ++ now.keys)[r]? = some k ∧
        (past.map Past.sent ++ now.sent)[r]? = some x ∧ m = body.transmit x k := by
    intro hm
    rw [List.getElem?_map] at hm
    obtain ⟨q, hq, rfl⟩ := Option.map_eq_some_iff.mp hm
    refine ⟨q.keys, q.sent, getElem?_of_append ?_ _, getElem?_of_append ?_ _, rfl⟩
    · rw [List.getElem?_map, hq, Option.map_some]
    · rw [List.getElem?_map, hq, Option.map_some]
  rcases h.phase.outputs_cases with hnone | ⟨k, x, hk, hx, hout⟩
  · rw [hnone, List.append_nil] at hm
    exact hpast hm
  · rw [hout] at hm
    rcases getElem?_append_cases hm with hold | ⟨rfl, rfl⟩
    · exact hpast hold
    · -- the present round
      refine ⟨k, x, ?_, ?_, rfl⟩
      · rw [hk]
        exact getElem?_append_of_length (by rw [List.length_map, List.length_map]) k
      · rw [hx]
        exact getElem?_append_of_length (by rw [List.length_map, List.length_map]) x

end Linked

namespace Network

variable {s : Network n ι γ δ} {labels : List (Label n)}

/-- What the threads have read, as the answers of clients that go on with `ACK`. -/
def answers (s : Network n ι γ δ)
    (h : ∀ t, ∀ m ∈ (s.peer t).outputs, m.message ≠ CommunicationProtocol.CLIENT_EXIT) :
    Answers n where
  output t r := ((s.peer t).outputs[r]?).getD ⟨CommunicationProtocol.ACK⟩
  ne_exit t r := by
    rcases hr : (s.peer t).outputs[r]? with _ | m
    · exact (by decide : CommunicationProtocol.ACK ≠ CommunicationProtocol.CLIENT_EXIT)
    · exact h t m (List.mem_of_getElem? hr)

theorem exists_heard (h : AllLinked body shown s) : ∃ answers : Answers n, Heard answers s := by
  have hexits : ∀ t, ∀ m ∈ (s.peer t).outputs,
      m.message ≠ CommunicationProtocol.CLIENT_EXIT := by
    intro t
    obtain ⟨past, now, ht⟩ := h t
    exact ht.noExit
  refine ⟨s.answers hexits, fun t r m hm => ?_⟩
  simp only [answers, hm, Option.getD_some]

/-- A round of all clients: who was handed which keyset, and what each has transmitted. -/
structure CommonRound (n : ℕ) (γ : Type) : Type where
  handOut : HandOut n
  sent : Fin n → γ

/-- The outputs of the round, in the order of the clients. -/
def CommonRound.outputs (body : LoopBody ι γ ρ δ) (c : CommonRound n γ) : List Message :=
  List.ofFn fun u => body.transmit (c.sent u) (c.handOut.held u)

/-- The connections go through the same rounds: every thread has been handed the keysets of
`rounds`, every client has transmitted in them, and every list sent in round `r` consists of the
outputs of round `r`, one of every client. -/
structure CommonRounds (body : LoopBody ι γ ρ δ) (s : Network n ι γ δ)
    (rounds : List (CommonRound n γ)) : Prop where
  keys : ∀ u, rounds.map (fun c => c.handOut.held u) <+: (s.server.thread u).keys
  sent : ∀ u, rounds.map (fun c => c.sent u) <+: (s.peer u).client.sent
  results : ∀ t (r : ℕ) l, (s.server.thread t).results[r]? = some l →
    ∃ c, rounds[r]? = some c ∧ l.Perm (c.outputs body)

theorem blind_orderly : Blind (n := n) Orderly := by
  rintro t s ⟨hroomy, hstarts⟩
  exact ⟨fun hadding => hroomy ((adding_stay _).symm.trans hadding),
    fun hstarting => hstarts ((starting_stay _).symm.trans hstarting)⟩

/-- What holds at the end of a run in which the threads keep to the conditions. -/
structure Sound (body : LoopBody ι γ ρ δ) (draw : ℕ → PairKeys n) (shown : δ)
    (s : Network n ι γ δ) : Prop where
  answered : Answered draw Orderly s
  linked : AllLinked body shown s

/-- What the server of a sound network has in common with the abstractions of it. -/
theorem Sound.follows (h : Sound body draw shown s) (t : Fin n) :
    ∃ (answers : Answers n) (b : Rendezvous (Fin n)) (round g : ℕ) (dealt : List (Fin n)),
      Heard answers s ∧ Follows answers s.server.stayed b ∧ Dealt draw s.server round g dealt ∧
        ∀ u, (s.server.thread u).Counted := by
  have : NeZero n := ⟨Nat.ne_of_gt (Nat.zero_lt_of_lt t.2)⟩
  obtain ⟨answers, hheard⟩ := exists_heard h.linked
  obtain ⟨schedule, hg, hserver⟩ := h.answered _ hheard
  have hroomy : Guarded (Server.step answers draw) Roomy schedule (Server.initial n) :=
    hg.mono (I := fun _ => True) (fun _ _ _ _ _ _ => trivial) (fun _ _ _ h => h.1) trivial
  obtain ⟨b, -, hfollows⟩ := follows_run hroomy hserver
  obtain ⟨round, g, dealt, hdealt⟩ := dealt_run (keysInStep_of_roomy hg) hserver
  refine ⟨answers, b, round, g, dealt, hheard, hfollows, ?_, fun u => ?_⟩
  · exact hdealt.frame rfl rfl (fun _ => rfl) fun u => (starting_stay _).symm
  · have hcount : (s.server.thread u).keys.length =
        (s.server.thread u).round + begun (stay (s.server.thread u).point) :=
      Server.counted_run hserver u
    rwa [begun_stay] at hcount

/-- When a list has been sent in round `r`, the keysets of the round are one complete hand-out,
every client has transmitted, and the list consists of the outputs, one of every client. -/
theorem Sound.round_of_results (h : Sound body draw shown s) {t : Fin n} {r : ℕ}
    {l : List Message} (hl : (s.server.thread t).results[r]? = some l) :
    ∃ c : CommonRound n γ,
      (∀ u, (s.server.thread u).keys[r]? = some (c.handOut.held u) ∧
        (s.peer u).client.sent[r]? = some (c.sent u)) ∧ l.Perm (c.outputs body) := by
  have : NeZero n := ⟨Nat.ne_of_gt (Nat.zero_lt_of_lt t.2)⟩
  obtain ⟨answers, b, _, _, _, hheard, hfollows, hdealt, hcount⟩ := h.follows t
  have hlt : r < (s.server.thread t).results.length := (List.getElem?_eq_some_iff.mp hl).1
  -- every client's output of the round has been read
  have hread : ∀ u, ∃ k x, (s.server.thread u).keys[r]? = some k ∧
      (s.peer u).client.sent[r]? = some x ∧
      answers.output u r = body.transmit x k := by
    intro u
    obtain ⟨past, now, hu⟩ := h.linked u
    have hadded : (s.server.thread t).results.length ≤
        (s.server.thread u).round + added (stay (s.server.thread u).point) :=
      hfollows.results_le t u
    rw [added_stay] at hadded
    have hr : r < (s.peer u).outputs.length :=
      hlt.trans_le (hadded.trans (hu.added_le_outputs (hcount u)))
    obtain ⟨k, x, hk, hx, hm⟩ := hu.paired (List.getElem?_eq_getElem hr)
    exact ⟨k, x, hk, hx, (hheard u r _ (List.getElem?_eq_getElem hr)).trans hm⟩
  choose k x hk hx hout using hread
  obtain ⟨g, σ, hσ⟩ := hdealt.oneRun_of_taken fun u => (List.getElem?_eq_some_iff.mp (hk u)).1
  have hheld : ∀ u, k u = keyset g n (draw g).draw (σ u) := fun u =>
    Option.some.inj ((hk u).symm.trans (hσ u))
  refine ⟨⟨⟨g, draw g, σ, k, fun u => hheld u ▸ List.Perm.refl _⟩, x⟩,
    fun u => ⟨hk u, hx u⟩, ?_⟩
  have hperm := (hfollows.fits t).results r l hl
  rwa [Answers.outputs, funext fun u => hout u] at hperm

theorem prefix_of_getElem? {α : Type} {l l' : List α}
    (h : ∀ (r : ℕ) (a : α), l[r]? = some a → l'[r]? = some a) : l <+: l' :=
  List.prefix_iff_getElem?.mpr fun r hr => h r l[r] (List.getElem?_eq_getElem hr)

/-- All connections go through the same rounds. -/
theorem Sound.rounds (h : Sound body draw shown s) : ∃ rounds, CommonRounds body s rounds := by
  -- the rounds in which somebody has been sent a list
  let R := Finset.univ.sup fun t => (s.server.thread t).results.length
  have hround : ∀ r < R, ∃ c : CommonRound n γ,
      (∀ u, (s.server.thread u).keys[r]? = some (c.handOut.held u) ∧
        (s.peer u).client.sent[r]? = some (c.sent u)) ∧
      ∀ t l, (s.server.thread t).results[r]? = some l → l.Perm (c.outputs body) := by
    intro r hr
    obtain ⟨t, -, ht⟩ := Finset.lt_sup_iff.mp hr
    obtain ⟨c, hc, -⟩ := h.round_of_results (List.getElem?_eq_getElem ht)
    refine ⟨c, hc, fun u l hl => ?_⟩
    obtain ⟨c', hc', hperm⟩ := h.round_of_results hl
    have houtputs : c'.outputs body = c.outputs body := by
      refine congrArg List.ofFn (funext fun u => ?_)
      rw [Option.some.inj ((hc' u).1.symm.trans (hc u).1),
        Option.some.inj ((hc' u).2.symm.trans (hc u).2)]
    exact houtputs ▸ hperm
  choose c hc hresults using hround
  have hget : ∀ (r : ℕ) (a : CommonRound n γ),
      (List.ofFn fun r : Fin R => c r r.2)[r]? = some a → ∃ hr : r < R, c r hr = a := by
    intro r a ha
    rw [List.getElem?_ofFn] at ha
    by_cases hr : r < R
    · rw [dif_pos hr] at ha
      exact ⟨hr, Option.some.inj ha⟩
    · rw [dif_neg hr] at ha
      cases ha
  refine ⟨List.ofFn fun r : Fin R => c r r.2, fun u => ?_, fun u => ?_, fun t r l hl => ?_⟩
  · refine prefix_of_getElem? fun r k hk => ?_
    rw [List.getElem?_map] at hk
    obtain ⟨a, ha, rfl⟩ := Option.map_eq_some_iff.mp hk
    obtain ⟨hr, rfl⟩ := hget r a ha
    exact (hc r hr u).1
  · refine prefix_of_getElem? fun r x hx => ?_
    rw [List.getElem?_map] at hx
    obtain ⟨a, ha, rfl⟩ := Option.map_eq_some_iff.mp hx
    obtain ⟨hr, rfl⟩ := hget r a ha
    exact (hc r hr u).2
  · have hr : r < R := (List.getElem?_eq_some_iff.mp hl).1.trans_le
      (Finset.le_sup (f := fun t => (s.server.thread t).results.length) (Finset.mem_univ t))
    refine ⟨c r hr, ?_, hresults r hr t l hl⟩
    rw [List.getElem?_ofFn, dif_pos hr]

theorem sound_run
    (hguard : Guarded (step body draw) (OnThreads Orderly) labels (initial n input shown))
    (hrun : Transition.run (step body draw) labels (initial n input shown) = some s) :
    Sound body draw shown s :=
  ⟨answered_run blind_orderly hguard hrun, linked_run hrun⟩

end Network

/-! ## The displays -/

/-- What a client has shown, when all its lists can be read. -/
theorem shownAfter_eq {past : List (Past γ)} {rs : List ρ} (shown : δ)
    (h : past.map (fun p => body.collate p.results) = rs.map some) :
    shownAfter body shown past = rs.foldl body.showResult shown := by
  induction past generalizing shown rs with
  | nil =>
    obtain rfl : rs = [] := List.map_eq_nil_iff.mp h.symm
    rfl
  | cons p past ih =>
    rcases rs with _ | ⟨r, rs⟩
    · cases h
    rw [List.map_cons, List.map_cons] at h
    obtain ⟨hr, hrest⟩ := List.cons.inj h
    rw [shownAfter, List.foldl_cons, List.foldl_cons, hr]
    exact ih (body.showResult shown r) hrest

/-- The display after further rounds in which the clients transmit `rounds`. -/
def Display.after (d : Display) (rounds : List (Fin n → JChar)) : Display :=
  (rounds.map fun x => BitVec.ofNat 16 (collated (total x))).foldl Display.showResult d

/-- A thread has sent the lists of a beginning of the common rounds: of each of them the outputs,
in some order. -/
theorem Network.CommonRounds.forall₂_past {s : Network n ι γ δ} {rounds : List (CommonRound n γ)}
    (h : CommonRounds body s rounds) {i : Fin n} {past : List (Past γ)} {now : Present γ}
    (hi : Linked body shown (s.server.thread i) (s.peer i) past now) :
    List.Forall₂ (fun p c => p.results.Perm (c.outputs body)) past
      (rounds.take past.length) := by
  have hget : ∀ (r : ℕ) p, past[r]? = some p →
      ∃ c, rounds[r]? = some c ∧ p.results.Perm (c.outputs body) := by
    intro r p hp
    have hl : (s.server.thread i).results[r]? = some p.results := by
      rw [hi.results]
      refine getElem?_of_append ?_ _
      rw [List.getElem?_map, hp, Option.map_some]
    exact h.results i r p.results hl
  have hlen : past.length ≤ rounds.length := by
    by_contra hlt
    obtain ⟨c, hc, -⟩ := hget _ _ (List.getElem?_eq_getElem (Nat.lt_of_not_le hlt))
    rw [List.getElem?_eq_none le_rfl] at hc
    cases hc
  refine List.forall₂_iff_get.mpr ⟨?_, fun r hr hr' => ?_⟩
  · rw [List.length_take, Nat.min_eq_left hlen]
  · obtain ⟨c, hc, hperm⟩ := hget r past[r] (List.getElem?_eq_getElem hr)
    rw [List.get_eq_getElem, List.get_eq_getElem, List.getElem_take]
    obtain ⟨hlt, rfl⟩ := List.getElem?_eq_some_iff.mp hc
    exact hperm

/-- What a client has made of its lists is what it makes of the common rounds. -/
theorem Network.CommonRounds.map_past {s : Network n ι γ δ} {rounds : List (CommonRound n γ)}
    (h : CommonRounds body s rounds) {i : Fin n} {past : List (Past γ)} {now : Present γ}
    (hi : Linked body shown (s.server.thread i) (s.peer i) past now) {α : Type}
    {f : List Message → α} {g : CommonRound n γ → α}
    (hfg : ∀ l c, l.Perm (c.outputs body) → f l = g c) :
    past.map (fun p => f p.results) = (rounds.take past.length).map g := by
  rw [← List.forall₂_eq_eq_eq, List.forall₂_map_left_iff, List.forall₂_map_right_iff]
  exact (h.forall₂_past hi).imp fun _ _ hperm => hfg _ _ hperm

theorem Network.CommonRounds.length_past {s : Network n ι γ δ}
    {rounds : List (CommonRound n γ)} (h : CommonRounds body s rounds) {i : Fin n}
    {past : List (Past γ)} {now : Present γ}
    (hi : Linked body shown (s.server.thread i) (s.peer i) past now) :
    past.length ≤ rounds.length := by
  have hlen := (h.forall₂_past hi).length_eq
  rw [List.length_take] at hlen
  omega

namespace Network

/-- A network of `DiningLoop` clients. -/
abbrev Dining (n : ℕ) : Type := Network n DiningLoop JChar Display

/-- Before anything has happened. -/
def Dining.initial (n : ℕ) : Dining n := Network.initial n DiningLoop.new Display.empty

/-- No `DiningLoop` sends the exit command. -/
theorem Dining.stays {s : Dining n} {shown : Display}
    (h : AllLinked DiningLoop.body shown s) : Stays s := by
  intro t ht
  obtain ⟨past, now, hlinked⟩ := h t
  obtain ⟨k, x, -, hexit⟩ := (ht ▸ hlinked.phase).sent_left
  exact DiningLoop.transmit_ne (by simp [CommunicationProtocol.controls]) _ _ hexit

variable {s : Dining n} {labels : List (Label n)}

theorem Dining.sound_run
    (hguard : Guarded (step DiningLoop.body draw) (OnThreads Orderly) labels (Dining.initial n))
    (hrun : Transition.run (step DiningLoop.body draw) labels (Dining.initial n) = some s) :
    Sound DiningLoop.body draw Display.empty s :=
  Network.sound_run hguard hrun

/-- A client has displayed the results of a beginning of the common rounds, and has
transmitted at most one round more than that. -/
theorem CommonRounds.display {rounds : List (CommonRound n JChar)}
    (h : CommonRounds DiningLoop.body s rounds)
    (hlinked : AllLinked DiningLoop.body Display.empty s) (i : Fin n) :
    ∃ d ≤ rounds.length,
      (s.peer i).client.shown = Display.empty.after ((rounds.map CommonRound.sent).take d) ∧
        (s.peer i).client.sent.length ≤ d + 1 ∧
        ((s.peer i).client.point = .receiveKeySet → (s.peer i).client.sent.length = d) := by
  obtain ⟨past, now, hi⟩ := hlinked i
  refine ⟨past.length, h.length_past hi, ?_, ?_, fun hpoint => ?_⟩
  · rw [hi.shown]
    refine shownAfter_eq Display.empty ?_
    rw [h.map_past hi (f := DiningLoop.body.collate)
      (g := fun c => some (BitVec.ofNat 16 (collated (total c.sent))))
      fun l c hperm => collate_outputs c.sent c.handOut hperm]
    rw [← List.map_take, List.map_map, List.map_map]
    rfl
  · rw [hi.sent, List.length_append, List.length_map]
    exact Nat.add_le_add_left hi.phase.atMostOne.2.1 _
  · have hphase := hi.phase
    rw [hpoint] at hphase
    rw [hi.sent, hphase.sent_top, List.append_nil, List.length_map]

theorem isSome_twoRounds :
    (Transition.run (step DiningLoop.body (0 : ℕ → PairKeys 2)) (twoRounds 0 1)
      (Dining.initial 2)).isSome := by
  decide +kernel

theorem guarded_twoRounds :
    Guarded (step DiningLoop.body (0 : ℕ → PairKeys 2)) (OnThreads Orderly) (twoRounds 0 1)
      (Dining.initial 2) := by
  decide +kernel

end Network

/-! ## One client -/

/-- `MAXCLIENTS`: the number of clients that `Server.main` waits for and starts threads for. -/
abbrev Server.MAXCLIENTS : ℕ := 1

/-- A thread that shares its object with nobody is never held up. -/
structure Alone (s : Server 1) : Prop where
  messages : s.shared.currentRoundMessages.length = added (s.thread 0).point
  unsent : s.shared.noSent = 0
  fresh : starting (s.thread 0).point = true → (s.thread 0).keys = []
  awake : (s.thread 0).point ≠ .waitFirst ∧ (s.thread 0).point ≠ .leaveFirst ∧
    (s.thread 0).point ≠ .waitSecond ∧ (s.thread 0).point ≠ .leaveSecond

namespace Alone

variable {draw : ℕ → PairKeys 1} {answers : Answers 1} {s s' : Server 1} {t : Fin 1}

theorem step (h : Alone s) (hstep : Server.step answers draw t s = some s') : Alone s' := by
  obtain rfl : t = 0 := Subsingleton.elim t 0
  obtain ⟨hmessages, hunsent, hfresh, hfirst, hleave, hsecond, hleave'⟩ := h
  -- what a move has to respect
  have put : ∀ {woken : Server 1} {shared : SharedServerInfo 1} {th : Thread},
      shared.currentRoundMessages.length = added th.point → shared.noSent = 0 →
      starting th.point = false → th.point ≠ .waitFirst ∧ th.point ≠ .leaveFirst ∧
        th.point ≠ .waitSecond ∧ th.point ≠ .leaveSecond → Alone (woken.put 0 shared th) := by
    intro woken shared th hm hn hs ha
    have hth : (woken.put 0 shared th).thread 0 = th := woken.thread_put_self shared
    refine ⟨hth ▸ hm, hn, fun hstart => ?_, hth ▸ ha⟩
    rw [hth, hs] at hstart
    cases hstart
  cases Server.step_effect answers draw hstep with
  | own hown =>
    cases hown with
    | leaveFirst hp => exact absurd hp hleave
    | leaveSecond hp => exact absurd hp hleave'
    | _ hp =>
      rw [hp] at hmessages
      exact put hmessages hunsent rfl (by simp)
  | generateKeySets hp =>
    rw [hp] at hmessages
    exact put hmessages hunsent rfl (by simp)
  | getKeySet hp hget =>
    obtain ⟨hsent, hsame⟩ := SharedServerInfo.getKeySet_frame hget
    rw [hp, ← hsame] at hmessages
    exact put hmessages (hsent.trans hunsent) rfl (by simp)
  | addOutput hp =>
    rw [hp] at hmessages
    refine put ?_ hunsent rfl (by simp)
    rw [SharedServerInfo.addOutput, List.length_append, hmessages]
    rfl
  | parkFirst hp hlt =>
    rw [hp] at hmessages
    rw [SharedServerInfo.getNoOfMessages, hmessages] at hlt
    exact absurd hlt (lt_irrefl 1)
  | passFirst hp _ =>
    rw [hp] at hmessages
    exact put hmessages hunsent rfl (by simp)
  | parkSecond hp hlt =>
    have hsent : s.shared.incrementSent.getSent = 1 := congrArg (· + 1) hunsent
    rw [hsent] at hlt
    exact absurd hlt (lt_irrefl 1)
  | finish hp _ => exact put rfl rfl rfl (by simp)

theorem run {schedule : List (Fin 1)}
    (hrun : Transition.run (Server.step answers draw) schedule (Server.initial 1) = some s) :
    Alone s := by
  have hstart : Alone (Server.initial 1) := ⟨rfl, rfl, fun _ => rfl, by simp [Server.initial,
    Thread.new]⟩
  exact invariant_of_run (fun _ _ _ h hstep => h.step hstep) hstart hrun

/-- Both conditions hold of its moves. -/
theorem orderly (h : Alone s) (t : Fin 1) : Orderly t s := by
  obtain rfl : t = 0 := Subsingleton.elim t 0
  constructor
  · intro hadding
    have hnone : added (s.thread 0).point = 0 := by
      revert hadding
      cases (s.thread 0).point <;> first | exact fun _ => rfl | nofun
    rw [SharedServerInfo.getNoOfMessages, h.messages, hnone]
    exact Nat.one_pos
  · intro hstarting u
    obtain rfl : u = 0 := Subsingleton.elim u 0
    rw [h.fresh hstarting]
    rfl

end Alone

namespace Network

/-- **One client needs no conditions.** Every run of the network that `Server.main` sets up
meets those under which the displays agree. -/
theorem orderly_of_one {draw : ℕ → PairKeys 1} (labels : List (Label 1)) :
    Guarded (step DiningLoop.body draw) (OnThreads Orderly) labels (Dining.initial 1) := by
  have hfree : Guarded (step DiningLoop.body draw) (OnThreads fun _ _ => True) labels
      (Dining.initial 1) := Guarded.of_forall fun label _ => by cases label <;> trivial
  refine hfree.mono
    (I := fun s => Answered draw (fun _ _ => True) s ∧
      AllLinked DiningLoop.body Display.empty s)
    ?_ ?_ ⟨fun _ _ => ⟨[], trivial, rfl⟩, fun _ => ⟨[], _, Linked.initial _ _ _⟩⟩
  · have hblind : Blind (n := 1) fun _ _ => True := fun _ _ _ => trivial
    exact fun _ _ _ h hg hstep => ⟨answered_step hblind h.1 h.2 hg hstep, allLinked_step h.2 hstep⟩
  · rintro label s ⟨hanswered, hlinked⟩ -
    obtain ⟨answers, hheard⟩ := exists_heard hlinked
    obtain ⟨schedule, -, hserver⟩ := hanswered answers hheard
    rw [(Dining.stays hlinked).stayed_eq] at hserver
    cases label with
    | thread t => exact (Alone.run hserver).orderly t
    | _ => trivial

end Network

end DiningCrypto
