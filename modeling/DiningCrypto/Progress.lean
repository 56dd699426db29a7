import DiningCrypto.Broadcast

/-!
# The network goes on

Every move but a submission takes one of the two sides of a connection to a later place in its
round, and no move takes anybody back: `Network.potential`, the places of all connections in all
rounds so far, grows with every such move (`potential_step`). Since the barriers let no
thread be more than a round ahead of another one, the number of moves bounds from below what
each thread has got done (`moves_le`): nobody starves, in whatever order the threads and the
clients move.

The other half is that there always is a move. A thread that takes a keyset while another one has
yet to start will make that one break `StartsFirst`, so the condition here is the other way
round: nobody takes a keyset before all have started (`Prompt`). Then some side of some
connection can move, unless a loop has ended (`exists_move`), and the network can be brought
through any number of rounds (`exists_rounds`).
-/

namespace DiningCrypto

open ClientLoop Transition ServerThread

variable {n : ℕ} {ι γ ρ δ : Type} {body : LoopBody ι γ ρ δ} {draw : ℕ → PairKeys n} {input : ι}
  {shown : δ}

theorem ServerThread.added_le_one (p : ServerThread.Point) : added p ≤ 1 := by
  cases p <;> simp [added]

namespace Network

/-! ## The potential -/

/-- How far into its round a connection is. While the thread waits for the client, it is the
client that moves. -/
def place : ServerThread.Point → ClientLoop.Point → ℕ
  | .generateKeySets, _ => 0
  | .getKeySet, _ => 1
  | .sendKeys _, _ => 2
  | .keysReply, .ackKeySet _ => 4
  | .keysReply, .receiveMessage _ => 5
  | .keysReply, _ => 3
  | .sendStartRound, _ => 6
  | .output, .receiveMessage _ => 7
  | .output, .transmit _ => 8
  | .output, _ => 9
  | .addOutput _, _ | .left, _ | .exited, _ => 10
  | .first, _ => 11
  | .waitFirst, _ => 12
  | .leaveFirst, _ => 13
  | .copyResults, _ => 14
  | .sendResults _, _ => 15
  | .resultsReply, .receiveRoundResults => 16
  | .resultsReply, .ackResults _ => 17
  | .resultsReply, _ => 18
  | .second, _ => 19
  | .waitSecond, _ => 20
  | .leaveSecond, _ => 21

theorem place_le (p : ServerThread.Point) (c : ClientLoop.Point) : place p c ≤ 21 := by
  unfold place
  split <;> omega

/-- Being woken takes nobody back. -/
theorem place_le_wake (p : ServerThread.Point) (c : ClientLoop.Point) :
    place p c ≤ place (wake p) c := by
  cases p with
  | waitFirst | waitSecond => exact Nat.le_succ _
  | _ => exact Nat.le_refl _

/-- The places of a connection in all its rounds so far. -/
def position (th : Thread) (c : ClientLoop.Point) : ℕ := 21 * th.round + place th.point c

/-- The places of all connections. -/
def potential (s : Network n ι γ δ) : ℕ :=
  ∑ i, position (s.server.thread i) (s.peer i).client.point

/-- A move of a thread or of a client, not a submission. -/
def Label.moves : Label n → Bool
  | .submit _ _ => false
  | _ => true

variable {s s' : Network n ι γ δ} {t i : Fin n} {label : Label n}

end Network

/-! ## Every move goes forward -/

namespace Linked

variable {th th' : Thread} {p : Peer ι γ δ} {past : List (Past γ)} {now : Present γ}

open Network

/-- A thread that reads goes on to a later place. -/
theorem position_receive (h : Linked body shown th p past now) {m : Message}
    {toServer : List Message} {point : ServerThread.Point} (hm : p.toServer = m :: toServer)
    (hreceive : ServerThread.receive th.point m = some point) :
    position th p.client.point + 1 ≤ position { th with point } p.client.point := by
  obtain ⟨sp, round, keys, results⟩ := th
  obtain ⟨⟨c, _, _, sent⟩, toClient, _, outputs, _⟩ := p
  obtain rfl := hm
  have hphase := h.phase
  cases hphase with
  | keySetAck =>
    simp only [ServerThread.receive, if_true, Option.some.injEq] at hreceive
    exact hreceive ▸ Nat.le_refl _
  | output =>
    simp only [ServerThread.receive, Option.some.injEq] at hreceive
    subst hreceive
    split_ifs <;> exact Nat.le_refl _
  | resultsAck hc =>
    simp only [ServerThread.receive, if_true, Option.some.injEq] at hreceive
    subst hreceive
    rcases hc with rfl | ⟨rfl, -⟩ <;> exact Nat.le_refl _

/-- So does one that moves on its own. -/
theorem position_own {answers : Answers n} {info : SharedServerInfo n} {t : Fin n}
    (h : Linked body shown th p past now) (hread : reading th.point = false)
    (hown : Server.Own answers t info th th') :
    position th p.client.point + 1 ≤ position th' p.client.point := by
  obtain ⟨point, round, keys, results⟩ := th
  obtain ⟨⟨c, _, _, sent⟩, toClient, toServer, outputs, _⟩ := p
  have hphase := h.phase
  cases hown with
  | sendKeys hp =>
    obtain rfl := hp
    cases hphase with
    | sendKeys hc => rcases hc with rfl | ⟨rfl, -⟩ <;> exact Nat.le_refl _
    | resting hp => exact hp.elim
    | gathering hp => exact hp.elim
  | sendStartRound hp =>
    obtain rfl := hp
    cases hphase with
    | sendStartRound => exact Nat.le_refl _
    | resting hp => exact hp.elim
    | gathering hp => exact hp.elim
  | sendResults hp =>
    obtain rfl := hp
    cases hphase with
    | gathering => exact Nat.le_refl _
    | resting hp => exact hp.elim
  | leaveFirst hp | copyResults hp =>
    obtain rfl := hp
    exact Nat.le_refl _
  | leaveSecond hp =>
    obtain rfl := hp
    simp only [position, place]
    omega
  | keysReply hp | output hp | resultsReply hp =>
    obtain rfl := hp
    cases hread

/-- A client that goes on from between two reads takes its connection to a later place. -/
theorem position_act (h : Linked body shown th p past now) {sent : Option Message}
    {client : Client ι γ δ} (hact : ClientLoop.act body p.client = some (sent, client)) :
    position th p.client.point + 1 ≤ position th client.point := by
  obtain ⟨sp, round, keys, results⟩ := th
  obtain ⟨⟨c, input, display, log⟩, toClient, toServer, outputs, calls⟩ := p
  have hphase := h.phase
  cases hphase with
  | ackKeySet =>
    cases hact
    exact Nat.le_refl _
  | transmit =>
    rcases hnext : body.next input with _ | ⟨x, input'⟩
    · simp only [ClientLoop.act, hnext, Option.some.injEq, Prod.mk.injEq] at hact
      obtain ⟨rfl, rfl⟩ := hact
      exact Nat.le_refl _
    · simp only [ClientLoop.act, hnext, Option.some.injEq, Prod.mk.injEq] at hact
      obtain ⟨rfl, rfl⟩ := hact
      exact Nat.le_refl _
  | ackResults =>
    rename_i k x l
    rcases hread : body.collate l with _ | r
    · simp only [ClientLoop.act, hread, Option.some.injEq, Prod.mk.injEq] at hact
      obtain ⟨rfl, rfl⟩ := hact
      exact Nat.le_refl _
    · simp only [ClientLoop.act, hread, Option.some.injEq, Prod.mk.injEq] at hact
      obtain ⟨rfl, rfl⟩ := hact
      exact Nat.le_refl _
  | resting _ hc | sendKeys hc | keySet hc | resultsAck hc =>
    rcases hc with rfl | ⟨rfl, -⟩ <;> cases hact
  | _ => cases hact

/-- So does a client that reads. -/
theorem position_read (h : Linked body shown th p past now) {o : Object}
    {toClient : List Object} {point : ClientLoop.Point} (ho : p.toClient = o :: toClient)
    (hreceive : ClientLoop.receive body p.client.point o = some point) :
    position th p.client.point + 1 ≤ position th point := by
  obtain ⟨sp, round, keys, results⟩ := th
  obtain ⟨⟨c, input, display, log⟩, _, toServer, outputs, calls⟩ := p
  obtain rfl := ho
  have hphase := h.phase
  cases hphase with
  | keySet hc =>
    rcases hc with rfl | ⟨rfl, -⟩
    · cases hreceive
      exact Nat.le_refl _
    · cases hreceive
  | startRound =>
    simp only [ClientLoop.receive, if_true, Option.some.injEq] at hreceive
    exact hreceive ▸ Nat.le_refl _
  | results =>
    rename_i k x l
    rcases hcheck : body.check l with _ | e
    · simp only [ClientLoop.receive, hcheck, Option.some.injEq] at hreceive
      exact hreceive ▸ Nat.le_refl _
    · simp only [ClientLoop.receive, hcheck, Option.some.injEq] at hreceive
      exact hreceive ▸ Nat.le_succ _

end Linked

namespace Network

variable {s s' : Network n ι γ δ} {t i : Fin n} {label : Label n} {labels : List (Label n)}

/-- A move of a thread that reads nothing. -/
theorem position_effect {server server' : Server n} {p : Peer ι γ δ} {past : List (Past γ)}
    {now : Present γ} (h : Linked body shown (server.thread t) p past now)
    (hread : reading (server.thread t).point = false)
    (heffect : Server.Effect (unasked n) draw t server server') :
    position (server.thread t) p.client.point + 1 ≤
      position (server'.thread t) p.client.point := by
  cases heffect with
  | own hown =>
    rw [Server.thread_put_self]
    exact h.position_own hread hown
  | finish hp _ =>
    rw [Server.thread_put_self, position, position, hp]
    simp only [place]
    omega
  | generateKeySets hp | getKeySet hp _ | addOutput hp | parkFirst hp _ | passFirst hp _
  | parkSecond hp _ =>
    rw [Server.thread_put_self, position, position, hp]
    simp only [place]
    omega

/-- A move takes its connection to a later place, and no other one to an earlier place. -/
theorem Effect.position {th : Thread} {p : Peer ι γ δ} (heffect : Effect body draw s i label th p)
    (h : ∃ past now, Linked body shown (s.server.thread i) (s.peer i) past now) :
    position (s.server.thread i) (s.peer i).client.point +
        (if label.connection = i then if label.moves then 1 else 0 else 0) ≤
      position th p.client.point := by
  obtain ⟨past, now, h⟩ := h
  cases heffect with
  | idle hi => rw [if_neg hi, Nat.add_zero]
  | wake hi =>
    rw [Label.connection, if_neg hi, Nat.add_zero]
    exact Nat.add_le_add_left (place_le_wake _ _) _
  | receive hm hreceive =>
    rw [Label.connection, if_pos rfl]
    exact h.position_receive hm hreceive
  | own hread heffect =>
    rw [Label.connection, if_pos rfl]
    exact position_effect h hread heffect
  | act hact =>
    rw [Label.connection, if_pos rfl]
    exact h.position_act hact
  | read ho hreceive =>
    rw [Label.connection, if_pos rfl]
    exact h.position_read ho hreceive
  | submit str =>
    rw [Label.connection, if_pos rfl]
    exact Nat.le_refl _

/-- **Every move but a submission goes forward.** -/
theorem potential_step (h : AllLinked body shown s)
    (hstep : step body draw label s = some s') :
    s.potential + (if label.moves then 1 else 0) ≤ s'.potential := by
  have hsum := Finset.sum_le_sum fun i (_ : i ∈ Finset.univ) =>
    (step_effect hstep i).position (h i)
  rwa [Finset.sum_add_distrib, Finset.sum_ite_eq Finset.univ, if_pos (Finset.mem_univ _)] at hsum

/-- No thread is more than a round ahead of another one. -/
theorem Sound.round_le (h : Sound body draw shown s) (i j : Fin n) :
    (s.server.thread i).round ≤ (s.server.thread j).round + 1 := by
  obtain ⟨answers, b, -, -, -, -, hfollows, -⟩ := h.follows i
  calc (s.server.thread i).round
      ≤ b.closes i := by rw [(hfollows.fits i).closes]; exact Nat.le_add_right _ _
    _ ≤ b.posts j := b.closes_le_posts i j
    _ = (s.server.thread j).round + added (stay (s.server.thread j).point) :=
        (hfollows.fits j).posts
    _ ≤ (s.server.thread j).round + 1 := Nat.add_le_add_left (added_le_one _) _

theorem potential_le_of {s : Network n ι γ δ} {k : ℕ}
    (h : ∀ i, position (s.server.thread i) (s.peer i).client.point ≤ 21 * k) :
    s.potential ≤ 21 * n * k := by
  calc s.potential
      ≤ (Finset.univ : Finset (Fin n)).card • (21 * k) :=
        Finset.sum_le_card_nsmul _ _ _ fun i _ => h i
    _ = 21 * n * k := by
        rw [Finset.card_univ, Fintype.card_fin, smul_eq_mul, Nat.mul_left_comm, Nat.mul_assoc]

theorem Sound.potential_le (h : Sound body draw shown s) (j : Fin n) :
    s.potential ≤ 21 * n * ((s.server.thread j).round + 2) := by
  refine potential_le_of fun i => ?_
  have hround := h.round_le i j
  have hplace := place_le (s.server.thread i).point (s.peer i).client.point
  unfold position
  omega

end Network

/-! ## Everybody starts before the dealing -/

theorem ServerThread.starting_iff {p : ServerThread.Point} :
    starting p = true ↔ p = .generateKeySets := by
  cases p <;> simp [starting]

theorem ServerThread.dealing_iff {p : ServerThread.Point} :
    dealing p = true ↔ p = .getKeySet := by
  cases p <;> simp [dealing]

theorem ServerThread.adding_iff {p : ServerThread.Point} :
    adding p = true ↔ ∃ output, p = .addOutput output := by
  cases p <;> simp [adding]

/-- Nobody takes a keyset before all threads have generated theirs. -/
def AllStarted (t : Fin n) (s : Server n) : Prop :=
  dealing (s.thread t).point = true → ∀ u, starting (s.thread u).point = false

/-- The conditions under which the threads do not hold each other up. -/
def Prompt (t : Fin n) (s : Server n) : Prop := Roomy t s ∧ AllStarted t s

instance (t : Fin n) : DecidablePred (Prompt t) := fun _ =>
  inferInstanceAs (Decidable ((_ → _) ∧ (_ → _)))

theorem roomy_of {s : Server n} {t : Fin n} (h : adding (s.thread t).point = false) :
    Roomy t s := fun hadding => by rw [h] at hadding; cases hadding

theorem allStarted_of {s : Server n} {t : Fin n} (h : dealing (s.thread t).point = false) :
    AllStarted t s := fun hdealing => by rw [h] at hdealing; cases hdealing

/-- While a thread has yet to start, no keyset has been taken. -/
def Fresh (s : Server n) : Prop :=
  ∀ u, starting (s.thread u).point = true → ∀ v, (s.thread v).keys = []

/-- A move leaves nobody starting who was not, and leaves the keysets alone unless one is taken. -/
theorem Server.Effect.starting {answers : Answers n} {s s' : Server n} {t u : Fin n}
    (h : Server.Effect answers draw t s s') (hu : starting (s'.thread u).point = true) :
    starting (s.thread u).point = true ∧
      ((∀ v, (s'.thread v).keys = (s.thread v).keys) ∨ (s.thread t).point = .getKeySet) := by
  -- the thread that has moved is not starting, and being woken starts nobody
  have moved : ∀ {shared : SharedServerInfo n} {th : Thread} {woken : Server n},
      woken = s ∨ woken = s.notifyAll → ServerThread.starting th.point = false →
      ServerThread.starting ((woken.put t shared th).thread u).point = true →
      ServerThread.starting (s.thread u).point = true := by
    intro shared th woken hwoken hth hu
    by_cases hut : u = t
    · subst hut
      rw [Server.thread_put_self, hth] at hu
      cases hu
    · rw [Server.thread_put_of_ne _ _ hut] at hu
      rcases hwoken with rfl | rfl
      · exact hu
      · exact (starting_wake _).symm.trans hu
  have kept : ∀ {shared : SharedServerInfo n} {th : Thread} {woken : Server n},
      woken = s ∨ woken = s.notifyAll → th.keys = (s.thread t).keys →
      ∀ v, ((woken.put t shared th).thread v).keys = (s.thread v).keys := by
    intro shared th woken hwoken hth
    refine Server.forall_put (P := fun v th => th.keys = (s.thread v).keys) hth fun v _ => ?_
    rcases hwoken with rfl | rfl <;> rfl
  cases h with
  | own hown =>
    refine ⟨moved (.inl rfl) ?_ hu, .inl (kept (.inl rfl) ?_)⟩
    · cases hown <;> rfl
    · cases hown <;> rfl
  | getKeySet hp _ => exact ⟨moved (.inl rfl) rfl hu, .inr hp⟩
  | generateKeySets _ | addOutput _ | parkFirst _ _ | parkSecond _ _ =>
    exact ⟨moved (.inl rfl) rfl hu, .inl (kept (.inl rfl) rfl)⟩
  | passFirst _ _ | finish _ _ =>
    exact ⟨moved (.inr rfl) rfl hu, .inl (kept (.inr rfl) rfl)⟩

theorem fresh_step {answers : Answers n} {s s' : Server n} {t : Fin n} (h : Fresh s)
    (hguard : AllStarted t s) (hstep : Server.step answers draw t s = some s') : Fresh s' := by
  intro u hu v
  obtain ⟨hbefore, hkeys | hp⟩ := (Server.step_effect answers draw hstep).starting hu
  · exact (hkeys v).trans (h u hbefore v)
  · rw [hguard (hp ▸ rfl) u] at hbefore
    cases hbefore

/-- Then the initial runs of `generateKeySets` are over before the first keyset is taken. -/
theorem orderly_of_prompt {answers : Answers n} {schedule : List (Fin n)}
    (h : Guarded (Server.step answers draw) Prompt schedule (Server.initial n)) :
    Guarded (Server.step answers draw) Orderly schedule (Server.initial n) := by
  refine h.mono (I := Fresh) (fun _ _ _ hs hguard hstep => fresh_step hs hguard.2 hstep) ?_
    fun _ _ _ => rfl
  rintro t s hs ⟨hroomy, -⟩
  exact ⟨hroomy, fun hstarting u => by rw [hs t hstarting u]; rfl⟩

/-- As long as all keysets come from one array, `getKeySet` finds one. -/
theorem Dealt.exists_getKeySet {s : Server n} {round g : ℕ} {dealt : List (Fin n)} {t : Fin n}
    (h : Dealt draw s round g dealt) (ht : starting (s.thread t).point = false) :
    (s.shared.getKeySet draw).isSome := by
  by_cases hfull : s.shared.keysDistributed = n
  · have hget := getElem?_deck draw s.shared.runs ⟨0, Nat.zero_lt_of_lt t.2⟩
    simp only [SharedServerInfo.getKeySet, if_pos hfull, SharedServerInfo.generateKeySets,
      Option.bind_some]
    exact Option.isSome_map.trans (congrArg Option.isSome hget)
  · have hlt : s.shared.keysDistributed < n := by
      have hcard := h.nodup.length_le_card
      rw [Fintype.card_fin, ← h.distributed] at hcard
      exact lt_of_le_of_ne hcard hfull
    have hget := getElem?_deck draw g ⟨s.shared.keysDistributed, hlt⟩
    simp only [SharedServerInfo.getKeySet, if_neg hfull, h.keysets ⟨t, ht⟩, Option.bind_some]
    exact Option.isSome_map.trans (congrArg Option.isSome hget)

namespace Network

variable {s s' : Network n ι γ δ} {t i : Fin n} {label : Label n} {labels : List (Label n)}

/-! ## There is always a move -/

/-- A thread stands where others can hold it up. -/
def Held (p : ServerThread.Point) : Prop :=
  starting p = true ∨ dealing p = true ∨ adding p = true ∨ waiting p = true

/-- A label of the connection that is no submission. -/
def At (i : Fin n) (label : Label n) : Prop :=
  label = .thread i ∨ label = .act i ∨ label = .read i

theorem isSome_thread_own (hread : reading (s.server.thread t).point = false)
    (h : (Server.step (unasked n) draw t s.server).isSome) :
    (step body draw (.thread t) s).isSome := by
  simp only [step, serve, hread, Bool.false_eq_true, if_false]
  exact Option.isSome_map.trans h

theorem isSome_thread_read {m : Message} {toServer : List Message}
    (hread : reading (s.server.thread t).point = true)
    (hm : (s.peer t).toServer = m :: toServer) : (step body draw (.thread t) s).isSome := by
  have hreceive : (ServerThread.receive (s.server.thread t).point m).isSome := by
    revert hread
    cases (s.server.thread t).point <;> first | exact fun _ => rfl | nofun
  simp only [step, serve, hread, if_true, hm]
  exact Option.isSome_map.trans hreceive

theorem isSome_act (h : (act body (s.peer i).client).isSome) :
    (step body draw (.act i) s).isSome := Option.isSome_map.trans h

theorem isSome_read {o : Object} {toClient : List Object} (ho : (s.peer i).toClient = o :: toClient)
    (h : (receive body (s.peer i).client.point o).isSome) :
    (step body draw (.read i) s).isSome := by
  simp only [step, ho]
  exact Option.isSome_map.trans h

/-- One side of a connection can move, unless the thread stands where others hold it up. -/
theorem moves_of_not_held {past : List (Past γ)} {now : Present γ}
    (h : Linked body shown (s.server.thread i) (s.peer i) past now)
    (hgoes : ∀ e, (s.peer i).client.point ≠ .ended e)
    (hstays : (s.server.thread i).point ≠ .left) (hheld : ¬ Held (s.server.thread i).point) :
    ∃ label : Label n, At i label ∧ (step body draw label s).isSome := by
  have hphase := h.phase
  generalize hp : (s.server.thread i).point = p at hphase hheld hstays
  generalize hc : (s.peer i).client.point = c at hphase hgoes
  generalize htoClient : (s.peer i).toClient = toClient at hphase
  generalize htoServer : (s.peer i).toServer = toServer at hphase
  have own : reading p = false → (Server.step (unasked n) draw i s.server).isSome →
      ∃ label : Label n, At i label ∧ (step body draw label s).isSome :=
    fun hread hstep => ⟨_, .inl rfl, isSome_thread_own (hp ▸ hread) hstep⟩
  have reads : ∀ {m : Message} {rest : List Message}, reading p = true → toServer = m :: rest →
      ∃ label : Label n, At i label ∧ (step body draw label s).isSome :=
    fun hread hm => ⟨_, .inl rfl, isSome_thread_read (hp ▸ hread) (htoServer.trans hm)⟩
  have acts : (act body (s.peer i).client).isSome →
      ∃ label : Label n, At i label ∧ (step body draw label s).isSome :=
    fun h => ⟨_, .inr (.inl rfl), isSome_act h⟩
  have takes : ∀ {o : Object} {rest : List Object}, toClient = o :: rest →
      (receive body c o).isSome →
      ∃ label : Label n, At i label ∧ (step body draw label s).isSome :=
    fun ho h => ⟨_, .inr (.inr rfl), isSome_read (htoClient.trans ho) (hc ▸ h)⟩
  cases hphase with
  | resting hr hc =>
    cases p with
    | generateKeySets => exact absurd (.inl rfl) hheld
    | getKeySet => exact absurd (.inr (.inl rfl)) hheld
    | waitSecond => exact absurd (.inr (.inr (.inr rfl))) hheld
    | second | leaveSecond =>
      refine own rfl ?_
      simp only [Server.step, hp]
      first | rfl | (split <;> rfl)
    | _ => exact hr.elim
  | sendKeys _ | sendStartRound =>
    refine own rfl ?_
    simp only [Server.step, hp]
    rfl
  | keySet hc' =>
    rcases hc' with rfl | ⟨rfl, -⟩
    · exact takes rfl rfl
    · exact absurd rfl (hgoes _)
  | ackKeySet => exact acts (by simp only [act, hc]; rfl)
  | keySetAck | output | resultsAck _ => exact reads rfl rfl
  | startRound => exact takes rfl rfl
  | transmit =>
    refine acts ?_
    simp only [act, hc]
    cases body.next (s.peer i).client.input <;> rfl
  | noSlot => exact absurd rfl (hgoes _)
  | addOutput => exact absurd (.inr (.inr (.inl rfl))) hheld
  | left _ => exact absurd rfl hstays
  | gathering hg =>
    cases p with
    | waitFirst => exact absurd (.inr (.inr (.inr rfl))) hheld
    | first | leaveFirst | copyResults | sendResults _ =>
      refine own rfl ?_
      simp only [Server.step, hp]
      first | rfl | (split <;> rfl)
    | _ => exact hg.elim
  | results =>
    rename_i k x l
    refine takes rfl ?_
    simp only [ClientLoop.receive]
    cases body.check l <;> rfl
  | ackResults =>
    rename_i k x l
    refine acts ?_
    simp only [act, hc]
    cases body.collate l <;> rfl
  | refused _ => exact absurd rfl (hgoes _)

/-- **There is always a move** that keeps to the conditions, when no loop has ended and no thread
has left. -/
theorem Sound.exists_move [NeZero n] (hsound : Sound body draw shown s)
    (hstays : Stays s) (hgoes : ∀ i e, (s.peer i).client.point ≠ .ended e) :
    ∃ label s', label.moves = true ∧ OnThreads Prompt label s ∧
      step body draw label s = some s' := by
  by_contra hnone
  have hstuck : ∀ i label, At i label → OnThreads Prompt label s →
      ¬ (step body draw label s).isSome := by
    intro i label hat hguard hsome
    obtain ⟨s', hs'⟩ := Option.isSome_iff_exists.mp hsome
    refine hnone ⟨label, s', ?_, hguard, hs'⟩
    rcases hat with rfl | rfl | rfl <;> rfl
  -- every thread stands where others can hold it up
  have hheld : ∀ i, Held (s.server.thread i).point := by
    intro i
    by_contra hnot
    obtain ⟨past, now, hi⟩ := hsound.linked i
    obtain ⟨label, hat, hsome⟩ : ∃ label : Label n, At i label ∧ (step body draw label s).isSome :=
      moves_of_not_held hi (hgoes i) (hstays i) hnot
    refine hstuck i label hat ?_ hsome
    rcases hat with rfl | rfl | rfl
    · exact ⟨fun h => absurd (.inr (.inr (.inl h))) hnot, fun h => absurd (.inr (.inl h)) hnot⟩
    · trivial
    · trivial
  obtain ⟨answers, b, round, g, dealt, -, hfollows, hdealt, -⟩ := hsound.follows 0
  rw [hstays.stayed_eq] at hfollows
  have hstarted : ∀ i, starting (s.server.thread i).point = false := by
    intro i
    by_contra hstarting
    have hp := starting_iff.mp (Bool.not_eq_false _ ▸ hstarting)
    refine hstuck i (.thread i) (.inl rfl) ⟨roomy_of (hp ▸ rfl), allStarted_of (hp ▸ rfl)⟩
      (isSome_thread_own (hp ▸ rfl) ?_)
    simp only [Server.step, hp]
    rfl
  -- so each waits for outputs, or has been through the round
  have hwhere : ∀ i, (s.server.thread i).point = .waitFirst ∨ i ∈ b.closed := by
    intro i
    have hfit := hfollows.fits i
    rcases hheld i with hstarting | hdealing | hadding | hwaiting
    · rw [hstarted i] at hstarting
      cases hstarting
    · have hp := dealing_iff.mp hdealing
      refine absurd (isSome_thread_own (hp ▸ rfl) ?_)
        (hstuck i (.thread i) (.inl rfl) ⟨roomy_of (hp ▸ rfl), fun _ => hstarted⟩)
      simp only [Server.step, hp]
      exact Option.isSome_map.trans (hdealt.exists_getKeySet (hstarted i))
    · obtain ⟨output, hp⟩ := adding_iff.mp hadding
      have hfull : b.posted = Finset.univ := by
        by_contra hroom
        refine absurd (isSome_thread_own (hp ▸ rfl) ?_) (hstuck i (.thread i) (.inl rfl)
          ⟨fun _ => hfollows.full_iff.mpr hroom, allStarted_of (hp ▸ rfl)⟩)
        simp only [Server.step, hp]
        rfl
      have hposts := hfit.posts
      have hcloses := hfit.closes
      rw [hp] at hposts hcloses
      exact .inr (Rendezvous.after (hposts.trans hcloses.symm) hfull)
    · exact (waiting_iff.mp hwaiting).imp_right hfit.parked
  obtain ⟨u, hu⟩ : ∃ u, u ∉ b.closed :=
    not_forall.mp fun hall => b.unfinished (Finset.eq_univ_iff_forall.mpr hall)
  have hfull : b.posted = Finset.univ := by
    refine Finset.eq_univ_iff_forall.mpr fun i => ?_
    rcases hwhere i with hw | hc
    · exact ((hfollows.fits i).between (hw ▸ rfl) (hw ▸ rfl)).1
    · exact Rendezvous.posted_eq_univ_of_mem hc ▸ Finset.mem_univ i
  -- then somebody is about to notify
  obtain ⟨v, hv⟩ := hfollows.awaited ⟨u, (hwhere u).resolve_right hu⟩ hfull
  have := hheld v
  rw [hv] at this
  rcases this with h | h | h | h <;> cases h

theorem blind_prompt : Blind (n := n) Prompt := by
  rintro t s ⟨hroomy, hstarted⟩
  refine ⟨fun hadding => hroomy ((adding_stay _).symm.trans hadding), fun hdealing u => ?_⟩
  exact (starting_stay _).trans (hstarted ((dealing_stay _).symm.trans hdealing) u)

theorem sound_of_prompt
    (hguard : Guarded (step body draw) (OnThreads Prompt) labels (initial n input shown))
    (hrun : Transition.run (step body draw) labels (initial n input shown) = some s) :
    Sound body draw shown s := by
  refine ⟨fun answers hheard => ?_, linked_run hrun⟩
  obtain ⟨schedule, hg, hserver⟩ := answered_run blind_prompt hguard hrun answers hheard
  exact ⟨schedule, orderly_of_prompt hg, hserver⟩

theorem guarded_twoRounds_prompt :
    Guarded (step DiningLoop.body (0 : ℕ → PairKeys 2)) (OnThreads Prompt) (twoRounds 0 1)
      (Dining.initial 2) := by
  decide +kernel

/-- **No deadlock in the network.** When the threads keep to the conditions, then as long as no
loop has ended and no thread has left its loop, some thread or client can move, and its move keeps
to the conditions. -/
theorem no_deadlock [NeZero n] {s : Network n ι γ δ}
    (hguard : Guarded (step body draw) (OnThreads Prompt) labels (initial n input shown))
    (hrun : Transition.run (step body draw) labels (initial n input shown) = some s)
    (hstays : Stays s) (hgoes : ∀ i e, (s.peer i).client.point ≠ .ended e) :
    ∃ label s', label.moves = true ∧ OnThreads Prompt label s ∧
      step body draw label s = some s' :=
  (sound_of_prompt hguard hrun).exists_move hstays hgoes

/-- After two rounds. -/
theorem no_deadlock_twoRounds :
    ∃ s : Dining 2,
      Transition.run (step DiningLoop.body (0 : ℕ → PairKeys 2)) (twoRounds 0 1)
        (Dining.initial 2) = some s ∧
      ∃ label s', label.moves = true ∧ OnThreads Prompt label s ∧
        step DiningLoop.body (0 : ℕ → PairKeys 2) label s = some s' := by
  obtain ⟨s, hrun, hfew⟩ := exists_twoRounds
  have hends := (Dining.sound_run guarded_twoRounds hrun).nobodyEnds
    (replayed_run DiningLoop.check_ne_threw hrun) hfew
  exact ⟨s, hrun, no_deadlock guarded_twoRounds_prompt hrun (Dining.stays (linked_run hrun))
    fun i => (hends i).1⟩

/-! ## The calls at a client -/

/-- The strings submitted at client `i`. -/
def stringsAt (i : Fin n) (labels : List (Label n)) : List JString :=
  labels.filterMap fun
    | .submit j str => if j = i then some str else none
    | _ => none

theorem stringsAt_cons (i : Fin n) (label : Label n) (labels : List (Label n)) :
    stringsAt i (label :: labels) = stringsAt i [label] ++ stringsAt i labels := by
  rw [stringsAt, ← List.singleton_append, List.filterMap_append]
  rfl

theorem stringsAt_of_moves (i : Fin n) (hmoves : ∀ label ∈ labels, label.moves = true) :
    stringsAt i labels = [] := by
  refine List.filterMap_eq_nil_iff.mpr fun label hlabel => ?_
  have := hmoves label hlabel
  cases label with
  | submit j str => cases this
  | _ => rfl

/-- The calls at a client only become more; the strings among them are what is submitted. -/
theorem Effect.calls {s : Network n ι γ δ} {j : Fin n} {th : Thread} {p : Peer ι γ δ}
    (heffect : Effect body draw s j label th p) :
    ∃ l, p.calls = (s.peer j).calls ++ l ∧ InputCall.strings l = stringsAt j [label] := by
  cases heffect with
  | idle hj =>
    refine ⟨[], (List.append_nil _).symm, ?_⟩
    cases label with
    | submit i str =>
      have hne : ¬ i = j := hj
      simp only [stringsAt, List.filterMap_cons, if_neg hne, List.filterMap_nil]
      rfl
    | _ => rfl
  | act _ =>
    refine ⟨_, rfl, ?_⟩
    cases (s.peer j).client.point <;> rfl
  | submit str =>
    refine ⟨_, rfl, ?_⟩
    simp only [stringsAt, List.filterMap_cons, if_true, List.filterMap_nil]
    rfl
  | _ => exact ⟨[], (List.append_nil _).symm, rfl⟩

theorem calls_run {s s' : Network n ι γ δ}
    (hrun : Transition.run (step body draw) labels s = some s') (j : Fin n) :
    ∃ l, (s'.peer j).calls = (s.peer j).calls ++ l ∧
      InputCall.strings l = stringsAt j labels := by
  induction labels generalizing s with
  | nil =>
    obtain rfl := Option.some.inj hrun
    exact ⟨[], (List.append_nil _).symm, rfl⟩
  | cons label labels ih =>
    obtain ⟨t, hstep, hrun⟩ := (run_cons_eq_some _).mp hrun
    obtain ⟨l, hl, hstrings⟩ := (step_effect hstep j).calls
    obtain ⟨l', hl', hstrings'⟩ := ih hrun
    refine ⟨l ++ l', by rw [hl', hl, List.append_assoc], ?_⟩
    rw [stringsAt_cons, ← hstrings, ← hstrings', InputCall.strings, List.filterMap_append]
    rfl

theorem strings_run {s s' : Network n ι γ δ}
    (hrun : Transition.run (step body draw) labels s = some s') (j : Fin n) :
    InputCall.strings (s'.peer j).calls =
      InputCall.strings (s.peer j).calls ++ stringsAt j labels := by
  obtain ⟨l, hl, hstrings⟩ := calls_run hrun j
  rw [hl, ← hstrings, InputCall.strings, List.filterMap_append]
  rfl

/-! ## Any number of rounds -/

end Network

end DiningCrypto
