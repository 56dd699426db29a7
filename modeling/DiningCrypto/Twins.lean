import DiningCrypto.KeyNames
import DiningCrypto.Progress

/-!
# Two runs side by side

What is drawn and what is said has no influence on the order of events. Two runs of the network
in which the same threads and clients move in the same order are twins (`Twin`): everybody
stands at the same point, keysets of the same names have been handed to the same threads, and
where a message stands in the one, a message of the same client and round stands in the other.
The submissions may be anywhere in either of them, as long as nobody's loop ends over them.

A step of one of two twins is a step of the other (`Twin.step`), and so a run of the one gives a
run of the other (`exists_twin`).
-/

namespace DiningCrypto

open ClientLoop Transition ServerThread

/-! ## Points with different contents -/

namespace ServerThread

/-- A point with local variables. -/
def loaded : Point → Bool
  | .sendKeys _ | .addOutput _ | .sendResults _ => true
  | _ => false

/-- The same point, with messages in the same place. -/
inductive Alike (M : Message → Message → Prop) : Point → Point → Prop where
  | plain {p : Point} (hp : loaded p = false) : Alike M p p
  | sendKeys (key key' : KeySet) : Alike M (.sendKeys key) (.sendKeys key')
  | addOutput {m m' : Message} (h : M m m') : Alike M (.addOutput m) (.addOutput m')
  | sendResults {l l' : List Message} (h : List.Forall₂ M l l') :
      Alike M (.sendResults l) (.sendResults l')

namespace Alike

variable {M M' : Message → Message → Prop} {p p' : Point}

theorem eq_of_plain (h : Alike M p p') (hp : loaded p = false) : p' = p := by
  cases h with
  | plain _ => rfl
  | _ => cases hp

theorem mono (hM : ∀ m m', M m m' → M' m m') (h : Alike M p p') : Alike M' p p' := by
  cases h with
  | plain hp => exact .plain hp
  | sendKeys key key' => exact .sendKeys key key'
  | addOutput h => exact .addOutput (hM _ _ h)
  | sendResults h => exact .sendResults (h.imp hM)

theorem wake (h : Alike M p p') : Alike M (wake p) (ServerThread.wake p') := by
  cases h with
  | plain hp => exact .plain (by cases p <;> first | rfl | exact hp)
  | sendKeys key key' => exact .sendKeys key key'
  | addOutput h => exact .addOutput h
  | sendResults h => exact .sendResults h

theorem adding_eq (h : Alike M p p') : adding p' = adding p := by
  cases h <;> rfl

theorem starting_eq (h : Alike M p p') : starting p' = starting p := by
  cases h <;> rfl

theorem dealing_eq (h : Alike M p p') : dealing p' = dealing p := by
  cases h <;> rfl

theorem reading_eq (h : Alike M p p') : reading p' = reading p := by
  cases h <;> rfl

end Alike

end ServerThread

namespace ClientLoop

/-- The same point of a loop that has not ended. -/
inductive Alike : Point → Point → Prop where
  | receiveKeySet : Alike .receiveKeySet .receiveKeySet
  | ackKeySet (keys keys' : KeySet) : Alike (.ackKeySet keys) (.ackKeySet keys')
  | receiveMessage (keys keys' : KeySet) : Alike (.receiveMessage keys) (.receiveMessage keys')
  | transmit (keys keys' : KeySet) : Alike (.transmit keys) (.transmit keys')
  | receiveRoundResults : Alike .receiveRoundResults .receiveRoundResults
  | ackResults (l l' : List Message) : Alike (.ackResults l) (.ackResults l')

variable {ι γ ρ δ : Type} {body : LoopBody ι γ ρ δ}

/-- Two clients go on together from between two reads. If their inputs are the same, they send the
same. -/
theorem Alike.act {c c' d : Client ι γ δ} {sent : Option Message} (h : Alike c.point c'.point)
    (hact : ClientLoop.act body c = some (sent, d)) (hgoes : ∀ e, d.point ≠ .ended e) :
    ∃ sent' d', ClientLoop.act body c' = some (sent', d') ∧
      ((∀ e, d'.point ≠ .ended e) → Alike d.point d'.point ∧
        (c.sent.length = c'.sent.length → d.sent.length = d'.sent.length) ∧
        (c.input = c'.input → c.sent = c'.sent → d.input = d'.input ∧ d.sent = d'.sent)) := by
  obtain ⟨point, input, shown, log⟩ := c
  obtain ⟨point', input', shown', log'⟩ := c'
  cases h with
  | ackKeySet keys keys' =>
    cases hact
    exact ⟨_, _, rfl, fun _ => ⟨.receiveMessage keys keys', id, fun hi hs => ⟨hi, hs⟩⟩⟩
  | transmit keys keys' =>
    rcases hnext : body.next input with _ | ⟨x, input₁⟩
    · simp only [ClientLoop.act, hnext, Option.some.injEq, Prod.mk.injEq] at hact
      obtain ⟨-, rfl⟩ := hact
      exact absurd rfl (hgoes _)
    simp only [ClientLoop.act, hnext, Option.some.injEq, Prod.mk.injEq] at hact
    obtain ⟨-, rfl⟩ := hact
    rcases hnext' : body.next input' with _ | ⟨x', input₁'⟩
    · refine ⟨none, ⟨.ended (.threw .ArrayIndexOutOfBoundsException), input', shown', log'⟩, ?_,
        fun hgoes' => absurd rfl (hgoes' _)⟩
      simp only [ClientLoop.act, hnext']
    · refine ⟨some (body.transmit x' keys'),
        ⟨.receiveRoundResults, input₁', shown', log' ++ [x']⟩, ?_,
        fun _ => ⟨.receiveRoundResults, fun hlen => ?_, fun hi hs => ?_⟩⟩
      · simp only [ClientLoop.act, hnext']
      · simpa only [List.length_append, List.length_singleton, Nat.add_right_cancel_iff] using hlen
      · obtain rfl : input = input' := hi
        obtain ⟨rfl, rfl⟩ := Prod.mk.inj (Option.some.inj (hnext.symm.trans hnext'))
        exact ⟨rfl, congrArg (· ++ [x]) hs⟩
  | ackResults l l' =>
    rcases hread : body.collate l with _ | r
    · simp only [ClientLoop.act, hread, Option.some.injEq, Prod.mk.injEq] at hact
      obtain ⟨-, rfl⟩ := hact
      exact absurd rfl (hgoes _)
    simp only [ClientLoop.act, hread, Option.some.injEq, Prod.mk.injEq] at hact
    obtain ⟨-, rfl⟩ := hact
    rcases hread' : body.collate l' with _ | r'
    · refine ⟨some ⟨CommunicationProtocol.ACK⟩,
        ⟨.ended (.threw .NumberFormatException), input', shown', log'⟩, ?_,
        fun hgoes' => absurd rfl (hgoes' _)⟩
      simp only [ClientLoop.act, hread']
    · refine ⟨some ⟨CommunicationProtocol.ACK⟩,
        ⟨.receiveKeySet, input', body.showResult shown' r', log'⟩, ?_,
        fun _ => ⟨.receiveKeySet, id, fun hi hs => ⟨hi, hs⟩⟩⟩
      simp only [ClientLoop.act, hread']
  | receiveKeySet | receiveMessage _ _ | receiveRoundResults => cases hact

end ClientLoop

/-! ## Two servers -/

/-- The same counters, and messages in the same places. -/
structure InfoTwin {n : ℕ} (M : Message → Message → Prop) (info info' : SharedServerInfo n) :
    Prop where
  noSent : info'.noSent = info.noSent
  keysDistributed : info'.keysDistributed = info.keysDistributed
  runs : info'.runs = info.runs
  keysets : info'.keysets.isSome = info.keysets.isSome
  messages : List.Forall₂ M info.currentRoundMessages info'.currentRoundMessages

structure ThreadTwin (M : Message → Message → Prop) (th th' : Thread) : Prop where
  point : ServerThread.Alike M th.point th'.point
  round : th'.round = th.round
  results : List.Forall₂ (List.Forall₂ M) th.results th'.results

structure ServerTwin {n : ℕ} (M : Message → Message → Prop) (s s' : Server n) : Prop where
  info : InfoTwin M s.shared s'.shared
  thread : ∀ t, ThreadTwin M (s.thread t) (s'.thread t)

section Server

variable {n : ℕ} {M M' : Message → Message → Prop} {s s' u : Server n} {t : Fin n}
  {info info' : SharedServerInfo n} {th th' : Thread} {K K' : ℕ → PairKeys n}
  {answers : Answers n}

theorem InfoTwin.mono (hM : ∀ m m', M m m' → M' m m') (h : InfoTwin M info info') :
    InfoTwin M' info info' := { h with messages := h.messages.imp hM }

theorem ThreadTwin.mono (hM : ∀ m m', M m m' → M' m m') (h : ThreadTwin M th th') :
    ThreadTwin M' th th' :=
  ⟨h.point.mono hM, h.round, h.results.imp fun _ _ hl => hl.imp hM⟩

theorem ServerTwin.mono (hM : ∀ m m', M m m' → M' m m') (h : ServerTwin M s s') :
    ServerTwin M' s s' := ⟨h.info.mono hM, fun t => (h.thread t).mono hM⟩

/-- Thread `t` moves. -/
theorem ServerTwin.put (h : ServerTwin M s s') (hinfo : InfoTwin M info info')
    (hth : ThreadTwin M th th') : ServerTwin M (s.put t info th) (s'.put t info' th') := by
  refine ⟨hinfo, fun u => ?_⟩
  by_cases hu : u = t
  · subst hu
    rw [Server.thread_put_self, Server.thread_put_self]
    exact hth
  · rw [Server.thread_put_of_ne _ _ hu, Server.thread_put_of_ne _ _ hu]
    exact h.thread u

theorem ServerTwin.notifyAll (h : ServerTwin M s s') : ServerTwin M s.notifyAll s'.notifyAll :=
  ⟨h.info, fun t => ⟨(h.thread t).point.wake, (h.thread t).round, (h.thread t).results⟩⟩

theorem InfoTwin.getNoOfMessages (h : InfoTwin M info info') :
    info'.getNoOfMessages = info.getNoOfMessages := h.messages.length_eq.symm

theorem InfoTwin.nextName (h : InfoTwin M info info') : info'.nextName = info.nextName := by
  rw [SharedServerInfo.nextName, SharedServerInfo.nextName, h.keysDistributed, h.runs]

/-- `getKeySet` hands out keysets of the same name, or throws, on both sides. -/
theorem ServerTwin.getKeySet (h : ServerTwin M s s') {name : Fin n → List (ℕ × ℕ)}
    (hname : Named K s name) (hname' : Named K' s' name) {key : KeySet}
    {shared : SharedServerInfo n} (hget : s.shared.getKeySet K = some (key, shared)) :
    ∃ key' shared', s'.shared.getKeySet K' = some (key', shared') ∧
      InfoTwin M shared shared' := by
  obtain ⟨hkey, hsets, hruns, hdistributed⟩ := hname.getKeySet hget
  obtain ⟨c, hc, -⟩ := hkey.eq_keyset
  have hsome : (s'.shared.getKeySet K').isSome := by
    refine hname'.isSome_getKeySet ?_ ?_
    · rw [h.info.nextName, hc]
      exact c.2
    · rw [h.info.keysDistributed, h.info.keysets]
      exact Named.keysets_of_getKeySet hget
  obtain ⟨⟨key', shared'⟩, hget'⟩ := Option.isSome_iff_exists.mp hsome
  obtain ⟨-, hsets', hruns', hdistributed'⟩ := hname'.getKeySet hget'
  obtain ⟨hsent, hmessages⟩ := SharedServerInfo.getKeySet_frame hget
  obtain ⟨hsent', hmessages'⟩ := SharedServerInfo.getKeySet_frame hget'
  rw [h.info.nextName] at hruns' hdistributed'
  refine ⟨key', shared', hget', ?_, ?_, ?_, ?_, ?_⟩
  · rw [hsent', hsent, h.info.noSent]
  · rw [hdistributed', hdistributed]
  · rw [hruns', hruns]
  · rw [hsets', hsets]
    rfl
  · rw [hmessages', hmessages]
    exact h.info.messages

/-- **One step** of a thread that does not read. -/
theorem ServerTwin.step {answers' : Answers n} (h : ServerTwin M s s')
    {name : Fin n → List (ℕ × ℕ)} (hname : Named K s name) (hname' : Named K' s' name)
    (hread : reading (s.thread t).point = false)
    (hstep : Server.step answers K t s = some u) :
    ∃ u', Server.step answers' K' t s' = some u' ∧ ServerTwin M u u' := by
  obtain ⟨hpoint, hround, hresults⟩ := h.thread t
  -- the thread goes on, and leaves this behind
  have go : ∀ {info info' : SharedServerInfo n} {p p' : ServerThread.Point},
      InfoTwin M info info' → ServerThread.Alike M p p' →
      ServerTwin M (s.put t info { s.thread t with point := p })
        (s'.put t info' { s'.thread t with point := p' }) :=
    fun hinfo hp => h.put hinfo ⟨hp, hround, hresults⟩
  cases Server.step_effect answers K hstep with
  | own hown =>
    cases hown with
    | sendKeys hp =>
      rw [hp] at hpoint
      generalize hp' : (s'.thread t).point = p' at hpoint
      cases hpoint with
      | plain hplain => cases hplain
      | sendKeys _ key' =>
        exact ⟨_, by simp only [Server.step, hp', send, Option.map_some], go h.info (.plain rfl)⟩
    | sendStartRound hp =>
      have hp' := (hp ▸ hpoint).eq_of_plain rfl
      exact ⟨_, by simp only [Server.step, hp', send, Option.map_some], go h.info (.plain rfl)⟩
    | leaveFirst hp =>
      have hp' := (hp ▸ hpoint).eq_of_plain rfl
      exact ⟨_, by simp only [Server.step, hp'], go h.info (.plain rfl)⟩
    | copyResults hp =>
      have hp' := (hp ▸ hpoint).eq_of_plain rfl
      refine ⟨_, by simp only [Server.step, hp']; rfl, ?_⟩
      exact go h.info (.sendResults h.info.messages)
    | sendResults hp =>
      rw [hp] at hpoint
      generalize hp' : (s'.thread t).point = p' at hpoint
      cases hpoint with
      | plain hplain => cases hplain
      | sendResults hl =>
        refine ⟨_, by simp only [Server.step, hp', send, Option.map_some]; rfl, ?_⟩
        exact h.put h.info ⟨.plain rfl, hround, List.rel_append hresults (.cons hl .nil)⟩
    | leaveSecond hp =>
      have hp' := (hp ▸ hpoint).eq_of_plain rfl
      refine ⟨_, by simp only [Server.step, hp']; rfl, ?_⟩
      exact h.put h.info ⟨.plain rfl, congrArg (· + 1) hround, hresults⟩
    | keysReply hp | output hp | resultsReply hp =>
      rw [hp] at hread
      cases hread
  | generateKeySets hp =>
    have hp' := (hp ▸ hpoint).eq_of_plain rfl
    refine ⟨_, by simp only [Server.step, hp']; rfl, ?_⟩
    exact go ⟨h.info.noSent, h.info.keysDistributed, congrArg (· + 1) h.info.runs, rfl,
      h.info.messages⟩ (.plain rfl)
  | getKeySet hp hget =>
    have hp' := (hp ▸ hpoint).eq_of_plain rfl
    obtain ⟨key', shared', hget', hinfo⟩ := h.getKeySet hname hname' hget
    refine ⟨_, by simp only [Server.step, hp', hget', Option.map_some]; rfl, ?_⟩
    exact h.put hinfo ⟨.sendKeys _ key', hround, hresults⟩
  | addOutput hp =>
    rw [hp] at hpoint
    generalize hp' : (s'.thread t).point = p' at hpoint
    cases hpoint with
    | plain hplain => cases hplain
    | addOutput hm =>
      refine ⟨_, by simp only [Server.step, hp']; rfl, ?_⟩
      exact go ⟨h.info.noSent, h.info.keysDistributed, h.info.runs, h.info.keysets,
        List.rel_append h.info.messages (.cons hm .nil)⟩ (.plain rfl)
  | parkFirst hp hlt =>
    have hp' := (hp ▸ hpoint).eq_of_plain rfl
    have hlt' : s'.shared.getNoOfMessages < s'.shared.getNumberClients :=
      lt_of_eq_of_lt h.info.getNoOfMessages hlt
    exact ⟨_, by simp only [Server.step, hp', if_pos hlt'], go h.info (.plain rfl)⟩
  | passFirst hp hlt =>
    have hp' := (hp ▸ hpoint).eq_of_plain rfl
    have hlt' : ¬ s'.shared.getNoOfMessages < s'.shared.getNumberClients := fun h' =>
      hlt (lt_of_eq_of_lt h.info.getNoOfMessages.symm h')
    refine ⟨_, by simp only [Server.step, hp', if_neg hlt']; rfl, ?_⟩
    exact h.notifyAll.put h.info ⟨.plain rfl, hround, hresults⟩
  | parkSecond hp hlt =>
    have hp' := (hp ▸ hpoint).eq_of_plain rfl
    have hlt' : s'.shared.incrementSent.getSent < s'.shared.incrementSent.getNumberClients :=
      lt_of_eq_of_lt (congrArg (· + 1) h.info.noSent) hlt
    refine ⟨_, by simp only [Server.step, hp', if_pos hlt']; rfl, ?_⟩
    exact go ⟨congrArg (· + 1) h.info.noSent, h.info.keysDistributed, h.info.runs,
      h.info.keysets, h.info.messages⟩ (.plain rfl)
  | finish hp hlt =>
    have hp' := (hp ▸ hpoint).eq_of_plain rfl
    have hlt' : ¬ s'.shared.incrementSent.getSent <
        s'.shared.incrementSent.getNumberClients := fun h' =>
      hlt (lt_of_eq_of_lt (congrArg (· + 1) h.info.noSent).symm h')
    refine ⟨_, by simp only [Server.step, hp', if_neg hlt']; rfl, ?_⟩
    exact h.notifyAll.put ⟨rfl, h.info.keysDistributed, h.info.runs, h.info.keysets, .nil⟩
      ⟨.plain rfl, congrArg (· + 1) hround, hresults⟩

end Server

/-! ## Two connections -/

namespace Linked

variable {n : ℕ} {ι γ ρ δ : Type} {body : LoopBody ι γ ρ δ} {shown : δ} {th th' : Thread}
  {p p' : Peer ι γ δ} {past past' : List (Past γ)} {now now' : Present γ}
  {M : Message → Message → Prop}

/-- Two clients read together. -/
theorem twin_read (h : Linked body shown th p past now) (h' : Linked body shown th' p' past' now')
    (hpoint : ServerThread.Alike M th.point th'.point)
    (hclient : ClientLoop.Alike p.client.point p'.client.point) {o : Object}
    {toClient : List Object} {point : ClientLoop.Point} (ho : p.toClient = o :: toClient)
    (hreceive : ClientLoop.receive body p.client.point o = some point)
    (hgoes : ∀ e, point ≠ .ended e) :
    ∃ o' toClient' point', p'.toClient = o' :: toClient' ∧
      ClientLoop.receive body p'.client.point o' = some point' ∧
      ((∀ e, point' ≠ .ended e) → ClientLoop.Alike point point') := by
  obtain ⟨sp, round, keys, results⟩ := th
  obtain ⟨sp', round', keys', results'⟩ := th'
  obtain ⟨⟨c, input, display, log⟩, _, toServer, outputs, calls⟩ := p
  obtain ⟨⟨c', input', display', log'⟩, queue', toServer', outputs', calls'⟩ := p'
  obtain rfl := ho
  have hphase := h.phase
  have hphase' := h'.phase
  simp only at hphase hphase' hpoint hclient hreceive ⊢
  cases hphase with
  | keySet hc =>
    obtain rfl := hpoint.eq_of_plain rfl
    rcases hc with rfl | ⟨rfl, -⟩
    · obtain rfl := Option.some.inj hreceive
      cases hclient
      cases hphase' with
      | keySet _ => exact ⟨_, [], _, rfl, rfl, fun _ => .ackKeySet _ _⟩
      | resting hp => exact hp.elim
    · cases hclient
  | startRound =>
    obtain rfl := hpoint.eq_of_plain rfl
    simp only [ClientLoop.receive, if_true, Option.some.injEq] at hreceive
    subst hreceive
    cases hclient with
    | receiveMessage keys keys' =>
      cases hphase' with
      | startRound =>
        refine ⟨_, [], .transmit keys', rfl, ?_, fun _ => .transmit _ _⟩
        simp only [ClientLoop.receive, if_true]
      | resting hp => exact hp.elim
  | results =>
    obtain rfl := hpoint.eq_of_plain rfl
    rename_i k x l
    rcases hcheck : body.check l with _ | e
    · simp only [ClientLoop.receive, hcheck, Option.some.injEq] at hreceive
      subst hreceive
      cases hclient
      cases hphase' with
      | results =>
        rename_i k' x' l'
        rcases hcheck' : body.check l' with _ | e'
        · refine ⟨_, [], .ackResults l', rfl, ?_, fun _ => .ackResults _ _⟩
          simp only [ClientLoop.receive, hcheck']
        · refine ⟨_, [], .ended e', rfl, ?_, fun hgoes' => absurd rfl (hgoes' e')⟩
          simp only [ClientLoop.receive, hcheck']
      | resting hp => exact hp.elim
      | gathering hp => exact hp.elim
      | resultsAck hc => rcases hc with hc | ⟨hc, -⟩ <;> cases hc
    · simp only [ClientLoop.receive, hcheck, Option.some.injEq] at hreceive
      exact absurd hreceive.symm (hgoes e)

/-- Two threads read together. When what they read are outputs, these are in the same place. -/
theorem twin_receive
    (hexit : ∀ x k, (body.transmit x k).message ≠ CommunicationProtocol.CLIENT_EXIT)
    (h : Linked body shown th p past now) (h' : Linked body shown th' p' past' now')
    (hpoint : ServerThread.Alike M th.point th'.point)
    (hclient : ClientLoop.Alike p.client.point p'.client.point) {m : Message}
    {toServer : List Message} {point : ServerThread.Point} (hm : p.toServer = m :: toServer)
    (hreceive : ServerThread.receive th.point m = some point) :
    ∃ m' toServer' point', p'.toServer = m' :: toServer' ∧
      ServerThread.receive th'.point m' = some point' ∧
      (Connection.outputOf point').length = (Connection.outputOf point).length ∧
      ∀ M', (∀ o o', Connection.outputOf point = [o] → Connection.outputOf point' = [o'] →
        M' o o') → ServerThread.Alike M' point point' := by
  obtain ⟨sp, round, keys, results⟩ := th
  obtain ⟨sp', round', keys', results'⟩ := th'
  obtain ⟨⟨c, input, display, log⟩, toClient, _, outputs, calls⟩ := p
  obtain ⟨⟨c', input', display', log'⟩, toClient', queue', outputs', calls'⟩ := p'
  obtain rfl := hm
  have hphase := h.phase
  have hphase' := h'.phase
  simp only at hphase hphase' hpoint hclient hreceive ⊢
  cases hphase with
  | keySetAck =>
    obtain rfl := hpoint.eq_of_plain rfl
    simp only [ServerThread.receive, if_true, Option.some.injEq] at hreceive
    subst hreceive
    cases hclient with
    | receiveMessage keys keys' =>
      cases hphase' with
      | keySetAck =>
        refine ⟨_, [], .sendStartRound, rfl, ?_, rfl, fun _ _ => .plain rfl⟩
        simp only [ServerThread.receive, if_true]
      | resting hp => exact hp.elim
      | keySet hc => rcases hc with hc | ⟨hc, -⟩ <;> cases hc
  | output =>
    obtain rfl := hpoint.eq_of_plain rfl
    simp only [ServerThread.receive, if_neg (hexit _ _), Option.some.injEq] at hreceive
    subst hreceive
    cases hclient
    cases hphase' with
    | output =>
      rename_i k' x'
      refine ⟨_, [], .addOutput (body.transmit x' k'), rfl, ?_, rfl, fun M' hM => ?_⟩
      · simp only [ServerThread.receive, if_neg (hexit _ _)]
      · exact .addOutput (hM _ _ rfl rfl)
    | resting hp => exact hp.elim
    | gathering hp => exact hp.elim
  | resultsAck hc =>
    obtain rfl := hpoint.eq_of_plain rfl
    simp only [ServerThread.receive, if_true, Option.some.injEq] at hreceive
    subst hreceive
    rcases hc with rfl | ⟨rfl, -⟩
    · cases hclient
      cases hphase' with
      | resultsAck _ =>
        refine ⟨_, [], .second, rfl, ?_, rfl, fun _ _ => .plain rfl⟩
        simp only [ServerThread.receive, if_true]
      | resting hp => exact hp.elim
    · cases hclient

end Linked

/-! ## Two networks -/

namespace Network

variable {n : ℕ} {ι γ ρ δ : Type} {body : LoopBody ι γ ρ δ} {K K' : ℕ → PairKeys n}
  {shown : δ} {s s' u : Network n ι γ δ} {i : Fin n} {label : Label n}
  {name : Fin n → List (ℕ × ℕ)}

/-- Outputs of the same client and round. -/
def Counterparts (s s' : Network n ι γ δ) (m m' : Message) : Prop :=
  ∃ (i : Fin n) (r : ℕ), (s.peer i).outputs[r]? = some m ∧ (s'.peer i).outputs[r]? = some m'

/-- The two networks have come the same way. -/
structure SameCourse (s s' : Network n ι γ δ) : Prop where
  server : ServerTwin (Counterparts s s') s.server s'.server
  client : ∀ i, ClientLoop.Alike (s.peer i).client.point (s'.peer i).client.point
  sent : ∀ i, (s.peer i).client.sent.length = (s'.peer i).client.sent.length
  outputs : ∀ i, (s.peer i).outputs.length = (s'.peer i).outputs.length

/-- They have also handed out keysets of the same names. -/
structure Twin (K K' : ℕ → PairKeys n) (name : Fin n → List (ℕ × ℕ)) (s s' : Network n ι γ δ) :
    Prop extends SameCourse s s' where
  named : Named K s.server name
  named' : Named K' s'.server name

/-- What has been in the same place stays there. -/
theorem Counterparts.put {server server' : Server n} {p p' : Peer ι γ δ} {l l' : List Message}
    (hl : p.outputs = (s.peer i).outputs ++ l) (hl' : p'.outputs = (s'.peer i).outputs ++ l')
    {m m' : Message} (h : Counterparts s s' m m') :
    Counterparts (s.put server i p) (s'.put server' i p') m m' := by
  obtain ⟨j, r, hm, hm'⟩ := h
  refine ⟨j, r, ?_, ?_⟩
  all_goals
    by_cases hj : j = i
    · subst hj
      rw [peer_put_self]
      first
        | exact hl ▸ getElem?_of_append hm l
        | exact hl' ▸ getElem?_of_append hm' l'
    · rw [peer_put_of_ne _ _ _ hj]
      assumption

/-- Connection `i` changes in both. Outputs that are read there are in the same place. -/
theorem SameCourse.put (h : SameCourse s s') {server server' : Server n} {p p' : Peer ι γ δ}
    {l l' : List Message} (hl : p.outputs = (s.peer i).outputs ++ l)
    (hl' : p'.outputs = (s'.peer i).outputs ++ l') (hlen : l'.length = l.length)
    (hserver : ∀ M : Message → Message → Prop, (∀ m m', Counterparts s s' m m' → M m m') →
      (∀ o o', l = [o] → l' = [o'] → M o o') → ServerTwin M server server')
    (hclient : ClientLoop.Alike p.client.point p'.client.point)
    (hsent : p.client.sent.length = p'.client.sent.length) :
    SameCourse (s.put server i p) (s'.put server' i p') := by
  refine ⟨hserver _ (fun _ _ hM => hM.put hl hl') fun o o' ho ho' => ?_, fun j => ?_,
    fun j => ?_, fun j => ?_⟩
  · refine ⟨i, (s.peer i).outputs.length, ?_, ?_⟩
    · rw [peer_put_self, hl, ho]
      exact getElem?_append_of_length rfl o
    · rw [peer_put_self, hl', ho']
      exact getElem?_append_of_length (h.outputs i).symm o'
  all_goals
    by_cases hj : j = i
    · subst hj
      rw [peer_put_self, peer_put_self]
      first
        | assumption
        | rw [hl, hl', List.length_append, List.length_append, hlen, h.outputs]
    · rw [peer_put_of_ne _ _ _ hj, peer_put_of_ne _ _ _ hj]
      first
        | exact h.client j
        | exact h.sent j
        | exact h.outputs j

/-- The same keysets are next. -/
theorem SameCourse.names_eq (h : SameCourse s s') : names label s' name = names label s name := by
  cases label with
  | thread t =>
    rw [names, names, nextNames, nextNames, (h.server.thread t).point.dealing_eq,
      h.server.info.nextName]
  | _ => rfl

/-- The inputs of the clients are the same, and what they have sent. -/
def SameInputs (s s' : Network n ι γ δ) : Prop :=
  ∀ i, (s.peer i).client.input = (s'.peer i).client.input ∧
    (s.peer i).client.sent = (s'.peer i).client.sent

theorem SameInputs.put (h : SameInputs s s') {server server' : Server n} {p p' : Peer ι γ δ}
    (hp : p.client.input = p'.client.input ∧ p.client.sent = p'.client.sent) :
    SameInputs (s.put server i p) (s'.put server' i p') := by
  intro j
  by_cases hj : j = i
  · subst hj
    rw [peer_put_self, peer_put_self]
    exact hp
  · rw [peer_put_of_ne _ _ _ hj, peer_put_of_ne _ _ _ hj]
    exact h j

/-- A thread's move, read off its point. -/
theorem serve_of_not_reading {t : Fin n} {server : Server n}
    (hread : reading (s.server.thread t).point = false)
    (hserver : Server.step (unasked n) K t s.server = some server) :
    serve K t s = some (s.put server t
      { s.peer t with
        toClient := (s.peer t).toClient ++ written (s.server.thread t).point }) := by
  simp only [serve, hread, Bool.false_eq_true, if_false, hserver, Option.map_some]

theorem serve_of_reading {t : Fin n} {m : Message} {toServer : List Message}
    {point : ServerThread.Point} (hread : reading (s.server.thread t).point = true)
    (hm : (s.peer t).toServer = m :: toServer)
    (hreceive : ServerThread.receive (s.server.thread t).point m = some point) :
    serve K t s = some (s.put
      (s.server.put t s.server.shared { s.server.thread t with point }) t
      { s.peer t with
        toServer
        outputs := (s.peer t).outputs ++ Connection.outputOf point }) := by
  simp only [serve, hread, if_true, hm, hreceive, Option.map_some]

/-- **One step** of one of two twins is one of the other. -/
theorem Twin.step (hexit : ∀ x k, (body.transmit x k).message ≠ CommunicationProtocol.CLIENT_EXIT)
    (h : Twin K K' name s s') (hlinked : AllLinked body shown s)
    (hlinked' : AllLinked body shown s')
    (hmoves : label.moves = true) (hstep : Network.step body K label s = some u)
    (hgoes : ∀ i e, (u.peer i).client.point ≠ .ended e) :
    ∃ u', Network.step body K' label s' = some u' ∧
      ((∀ i e, (u'.peer i).client.point ≠ .ended e) →
        Twin K K' (names label s name) u u' ∧ (SameInputs s s' → SameInputs u u')) := by
  suffices hcourse : ∃ u', Network.step body K' label s' = some u' ∧
      ((∀ i e, (u'.peer i).client.point ≠ .ended e) →
        SameCourse u u' ∧ (SameInputs s s' → SameInputs u u')) by
    obtain ⟨u', hstep', hcourse⟩ := hcourse
    have hnamed' := named_step h.named' hstep'
    rw [h.toSameCourse.names_eq] at hnamed'
    exact ⟨u', hstep', fun hgoes' =>
      ⟨⟨(hcourse hgoes').1, named_step h.named hstep, hnamed'⟩, (hcourse hgoes').2⟩⟩
  cases label with
  | submit i str => cases hmoves
  | thread t =>
    obtain ⟨past, now, ht⟩ := hlinked t
    obtain ⟨past', now', ht'⟩ := hlinked' t
    have hpoint := (h.server.thread t).point
    rcases serve_cases hstep with ⟨m, toServer, point, hread, hm, hreceive, rfl⟩ |
      ⟨server, hread, hserver, rfl⟩
    · obtain ⟨m', toServer', point', hm', hreceive', hlen, halike⟩ :=
        ht.twin_receive hexit ht' hpoint (h.client t) hm hreceive
      refine ⟨_, serve_of_reading (hpoint.reading_eq.trans hread) hm' hreceive', fun _ =>
        ⟨h.put rfl rfl hlen (fun M hM hnew => ?_) (h.client t) (h.sent t),
          fun hsame => hsame.put (hsame t)⟩⟩
      have hmono := h.server.mono hM
      exact hmono.put hmono.info ⟨halike M hnew, (hmono.thread t).round, (hmono.thread t).results⟩
    · obtain ⟨server', hserver', htwin⟩ := h.server.step h.named h.named' hread hserver
      exact ⟨_, serve_of_not_reading (hpoint.reading_eq.trans hread) hserver', fun _ =>
        ⟨h.put (List.append_nil _).symm (List.append_nil _).symm rfl
          (fun M hM _ => htwin.mono hM) (h.client t) (h.sent t),
          fun hsame => hsame.put (hsame t)⟩⟩
  | act i =>
    obtain ⟨⟨sent, client⟩, hact, rfl⟩ := Option.map_eq_some_iff.mp hstep
    have hgo : ∀ e, client.point ≠ .ended e := by
      have := hgoes i
      rwa [peer_put_self] at this
    obtain ⟨sent', client', hact', htwin⟩ := (h.client i).act hact hgo
    refine ⟨_, Option.map_eq_some_iff.mpr ⟨(sent', client'), hact', rfl⟩, fun hgoes' => ?_⟩
    have hgo' : ∀ e, client'.point ≠ .ended e := by
      have := hgoes' i
      rwa [peer_put_self] at this
    obtain ⟨hclient, hsent, hinput⟩ := htwin hgo'
    exact ⟨h.put (List.append_nil _).symm (List.append_nil _).symm rfl
      (fun M hM _ => h.server.mono hM) hclient (hsent (h.sent i)),
      fun hsame => hsame.put (hinput (hsame i).1 (hsame i).2)⟩
  | read i =>
    obtain ⟨past, now, hi⟩ := hlinked i
    obtain ⟨past', now', hi'⟩ := hlinked' i
    simp only [Network.step] at hstep
    rcases hq : (s.peer i).toClient with _ | ⟨o, toClient⟩
    · simp only [hq, reduceCtorEq] at hstep
    simp only [hq] at hstep
    obtain ⟨point, hreceive, rfl⟩ := Option.map_eq_some_iff.mp hstep
    have hgo : ∀ e, point ≠ .ended e := by
      have := hgoes i
      rwa [peer_put_self] at this
    obtain ⟨o', toClient', point', hq', hreceive', halike⟩ :=
      hi.twin_read hi' (h.server.thread i).point (h.client i) hq hreceive hgo
    have hstep' : Network.step body K' (.read i) s' = some (s'.put s'.server i
        { s'.peer i with
          client := { (s'.peer i).client with point := point' }
          toClient := toClient' }) := by
      simp only [Network.step, hq', hreceive', Option.map_some]
    refine ⟨_, hstep', fun hgoes' => ?_⟩
    have hgo' : ∀ e, point' ≠ .ended e := by
      have := hgoes' i
      rwa [peer_put_self] at this
    exact ⟨h.put (List.append_nil _).symm (List.append_nil _).symm rfl
      (fun M hM _ => h.server.mono hM) (halike hgo') (h.sent i),
      fun hsame => hsame.put (hsame i)⟩

/-- The conditions do not look at the contents. -/
theorem Twin.orderly (h : Twin K K' name s s') (hguard : OnThreads Orderly label s) :
    OnThreads Orderly label s' := by
  cases label with
  | thread t =>
    obtain ⟨hroomy, hstarts⟩ := hguard
    have hpoint := (h.server.thread t).point
    refine ⟨fun hadding => ?_, fun hstarting v => ?_⟩
    · exact lt_of_eq_of_lt h.server.info.getNoOfMessages (hroomy (hpoint.adding_eq ▸ hadding))
    · rw [(h.named'.keys v).length_eq, ← (h.named.keys v).length_eq]
      exact hstarts (hpoint.starting_eq ▸ hstarting) v
  | _ => trivial

theorem Twin.initial (K K' : ℕ → PairKeys n) (input : ι) (shown : δ) :
    Twin K K' (fun _ => []) (Network.initial n input shown : Network n ι γ δ)
      (Network.initial n input shown) where
  server := ⟨⟨rfl, rfl, rfl, rfl, .nil⟩, fun _ => ⟨.plain rfl, rfl, .nil⟩⟩
  client _ := .receiveKeySet
  sent _ := rfl
  outputs _ := rfl
  named := named_initial
  named' := named_initial

theorem put_self (s : Network n ι γ δ) (i : Fin n) : s.put s.server i (s.peer i) = s := by
  rw [put, Function.update_eq_self]

/-- What is not looked at may change on both sides. -/
theorem Twin.idle (h : Twin K K' name s s') {p p' : Peer ι γ δ}
    (hp : p.outputs = (s.peer i).outputs ∧ p.client.point = (s.peer i).client.point ∧
      p.client.sent = (s.peer i).client.sent)
    (hp' : p'.outputs = (s'.peer i).outputs ∧ p'.client.point = (s'.peer i).client.point ∧
      p'.client.sent = (s'.peer i).client.sent) :
    Twin K K' name (s.put s.server i p) (s'.put s'.server i p') := by
  obtain ⟨houtputs, hpoint, hsent⟩ := hp
  obtain ⟨houtputs', hpoint', hsent'⟩ := hp'
  refine ⟨h.put (houtputs.trans (List.append_nil _).symm)
    (houtputs'.trans (List.append_nil _).symm) rfl (fun M hM _ => h.server.mono hM) ?_ ?_,
    h.named, h.named'⟩
  · rw [hpoint, hpoint']
    exact h.client i
  · rw [hsent, hsent']
    exact h.sent i

/-- A string is submitted in one of the two. -/
theorem Twin.submit_left (h : Twin K K' name s s') {str : JString}
    (hstep : Network.step body K (.submit i str) s = some u) : Twin K K' name u s' := by
  obtain rfl := Option.some.inj hstep
  exact put_self s' i ▸ h.idle (i := i) ⟨rfl, rfl, rfl⟩ ⟨rfl, rfl, rfl⟩

theorem Twin.submit_right (h : Twin K K' name s s') {str : JString}
    (hstep : Network.step body K' (.submit i str) s' = some u) : Twin K K' name s u := by
  obtain rfl := Option.some.inj hstep
  exact put_self s i ▸ h.idle (i := i) ⟨rfl, rfl, rfl⟩ ⟨rfl, rfl, rfl⟩

theorem SameInputs.submit {u' : Network n ι γ δ} (h : SameInputs s s') {str : JString}
    (hstep : Network.step body K (.submit i str) s = some u)
    (hstep' : Network.step body K' (.submit i str) s' = some u') : SameInputs u u' := by
  obtain rfl := Option.some.inj hstep
  obtain rfl := Option.some.inj hstep'
  exact h.put ⟨congrArg (body.inputString · str) (h i).1, (h i).2⟩

end Network

/-! ## Two orders of events -/

section Filter

variable {α : Type*} {p : α → Bool} {as bs : List α} {a : α}

theorem filter_concat_pos (ha : p a = true) : (as ++ [a]).filter p = as.filter p ++ [a] := by
  rw [List.filter_append, List.filter_cons_of_pos ha, List.filter_nil]

theorem filter_concat_neg (ha : p a = false) : (as ++ [a]).filter p = as.filter p := by
  rw [List.filter_append, List.filter_cons_of_neg (ne_true_of_eq_false ha), List.filter_nil,
    List.append_nil]

/-- Two lists that differ only in what `p` leaves out have been built side by side. -/
theorem filter_induction {P : List α → List α → Prop} (nil : P [] [])
    (left : ∀ as bs a, p a = false → P as bs → P (as ++ [a]) bs)
    (right : ∀ as bs b, p b = false → P as bs → P as (bs ++ [b]))
    (both : ∀ as bs a, p a = true → P as bs → P (as ++ [a]) (bs ++ [a]))
    (h : as.filter p = bs.filter p) : P as bs := by
  induction as using List.reverseRecOn generalizing bs with
  | nil =>
    induction bs using List.reverseRecOn with
    | nil => exact nil
    | append_singleton bs b ih =>
      cases hb : p b with
      | true =>
        rw [filter_concat_pos hb] at h
        exact absurd h.symm (List.append_ne_nil_of_right_ne_nil _ (List.cons_ne_nil _ _))
      | false =>
        rw [filter_concat_neg hb] at h
        exact right [] bs b hb (ih h)
  | append_singleton as a ihas =>
    cases ha : p a with
    | false =>
      rw [filter_concat_neg ha] at h
      exact left as bs a ha (ihas h)
    | true =>
      -- the last of the other list that counts is `a`
      induction bs using List.reverseRecOn with
      | nil =>
        rw [filter_concat_pos ha] at h
        exact absurd h (List.append_ne_nil_of_right_ne_nil _ (List.cons_ne_nil _ _))
      | append_singleton bs b ihbs =>
        cases hb : p b with
        | false =>
          rw [show (bs ++ [b]).filter p = bs.filter p from filter_concat_neg hb] at h
          exact right _ bs b hb (ihbs h)
        | true =>
          rw [filter_concat_pos ha, filter_concat_pos hb] at h
          obtain ⟨hrest, hlast⟩ := List.append_inj' h rfl
          obtain rfl := List.singleton_inj.mp hlast
          exact both as bs a ha (ihas hrest)

end Filter

namespace Network

variable {n : ℕ} {ι γ ρ δ : Type} {body : LoopBody ι γ ρ δ} {K K' : ℕ → PairKeys n}

/-- No client is given more strings than its buffer has slots for. -/
def Few (labels : List (Label n)) : Prop := ∀ i, (stringsAt i labels).length ≤ 19

theorem Few.of_concat {labels : List (Label n)} {label : Label n} (h : Few (labels ++ [label])) :
    Few labels := by
  intro i
  have := h i
  rw [stringsAt, List.filterMap_append, List.length_append] at this
  exact (Nat.le_add_right _ _).trans this

/-- In the runs looked at here no loop ends. -/
theorem Dining.ne_ended {labels : List (Label n)} {s : Dining n}
    (hguard : Guarded (step DiningLoop.body K) (OnThreads Orderly) labels (Dining.initial n))
    (hrun : Transition.run (step DiningLoop.body K) labels (Dining.initial n) = some s)
    (hfew : Few labels) (i : Fin n) (e : Ending) : (s.peer i).client.point ≠ .ended e := by
  have hends := (Dining.sound_run hguard hrun).nobodyEnds
    (replayed_run DiningLoop.check_ne_threw hrun) fun i => ?_
  · exact (hends i).1 e
  · rw [strings_run hrun i]
    exact hfew i

/-- Two runs that end in twins. -/
structure TwinRuns (K K' : ℕ → PairKeys n) (name : Fin n → List (ℕ × ℕ))
    (labels labels' : List (Label n)) (s s' : Dining n) : Prop where
  guard : Guarded (step DiningLoop.body K) (OnThreads Orderly) labels (Dining.initial n)
  run : Transition.run (step DiningLoop.body K) labels (Dining.initial n) = some s
  guard' : Guarded (step DiningLoop.body K') (OnThreads Orderly) labels' (Dining.initial n)
  run' : Transition.run (step DiningLoop.body K') labels' (Dining.initial n) = some s'
  twin : Twin K K' name s s'

namespace TwinRuns

variable {labels labels' : List (Label n)} {label : Label n} {s s' u : Dining n}
  {name : Fin n → List (ℕ × ℕ)}

theorem nil (K K' : ℕ → PairKeys n) :
    TwinRuns K K' (fun _ => []) [] [] (Dining.initial n) (Dining.initial n) :=
  ⟨trivial, rfl, trivial, rfl, .initial K K' DiningLoop.new Display.empty⟩

/-- A move in both. -/
theorem move (h : TwinRuns K K' name labels labels' s s') (hmoves : label.moves = true)
    (hguard : OnThreads Orderly label s) (hstep : step DiningLoop.body K label s = some u)
    (hfew : Few (labels ++ [label])) (hfew' : Few (labels' ++ [label])) :
    ∃ u', TwinRuns K K' (names label s name) (labels ++ [label]) (labels' ++ [label]) u u' ∧
      (SameInputs s s' → SameInputs u u') := by
  have hg := h.guard.concat h.run hguard
  have hg' := h.guard'.concat h.run' (h.twin.orderly hguard)
  have hrun := run_concat _ h.run hstep
  obtain ⟨u', hstep', htwin⟩ := h.twin.step
    (DiningLoop.transmit_ne (by simp [CommunicationProtocol.controls])) (linked_run h.run)
    (linked_run h.run') hmoves hstep (Dining.ne_ended hg hrun hfew)
  have hrun' := run_concat _ h.run' hstep'
  obtain ⟨ht, hsame⟩ := htwin (Dining.ne_ended hg' hrun' hfew')
  exact ⟨u', ⟨hg, hrun, hg', hrun', ht⟩, hsame⟩

/-- A submission in one of the two. -/
theorem submit_left (h : TwinRuns K K' name labels labels' s s') {i : Fin n} {str : JString}
    (hstep : step DiningLoop.body K (.submit i str) s = some u) :
    TwinRuns K K' name (labels ++ [.submit i str]) labels' u s' :=
  ⟨h.guard.concat h.run trivial, run_concat _ h.run hstep, h.guard', h.run',
    h.twin.submit_left hstep⟩

theorem submit_right (h : TwinRuns K K' name labels labels' s s') {i : Fin n} {str : JString}
    (hstep : step DiningLoop.body K' (.submit i str) s' = some u) :
    TwinRuns K K' name labels (labels' ++ [.submit i str]) s u :=
  ⟨h.guard, h.run, h.guard'.concat h.run' trivial, run_concat _ h.run' hstep,
    h.twin.submit_right hstep⟩

end TwinRuns

variable {labels labels' : List (Label n)} {s s' : Dining n}

theorem exists_submit (K : ℕ → PairKeys n) (s : Network n ι γ δ) (i : Fin n) (str : JString) :
    ∃ u, step body K (.submit i str) s = some u := ⟨_, rfl⟩

/-- A run of the one is a run of the other, under any draws: with the same moves and any
submissions, and with the same submissions; in this case the clients transmit the same. The names
of the keysets do not depend on the draws. -/
theorem exists_twin (hmoves : labels.filter Label.moves = labels'.filter Label.moves)
    (hguard : Guarded (step DiningLoop.body K) (OnThreads Orderly) labels (Dining.initial n))
    (hrun : Transition.run (step DiningLoop.body K) labels (Dining.initial n) = some s)
    (hfew : Few labels) (hfew' : Few labels') :
    ∃ name, (∀ K', ∃ s', TwinRuns K K' name labels labels' s s') ∧
      ∀ K', ∃ u, TwinRuns K K' name labels labels s u ∧ SameInputs s u := by
  refine filter_induction (P := fun labels labels' => ∀ s,
    Guarded (step DiningLoop.body K) (OnThreads Orderly) labels (Dining.initial n) →
    Transition.run (step DiningLoop.body K) labels (Dining.initial n) = some s →
    Few labels → Few labels' →
    ∃ name, (∀ K', ∃ s', TwinRuns K K' name labels labels' s s') ∧
      ∀ K', ∃ u, TwinRuns K K' name labels labels s u ∧ SameInputs s u)
    ?_ ?_ ?_ ?_ hmoves s hguard hrun hfew hfew'
  · intro s _ hrun _ _
    obtain rfl := Option.some.inj hrun
    exact ⟨_, fun K' => ⟨_, .nil K K'⟩, fun K' => ⟨_, .nil K K', fun _ => ⟨rfl, rfl⟩⟩⟩
  · intro as bs a ha ih s hg hrun hfew hfew'
    obtain ⟨t, ht, hstep⟩ := exists_of_run_concat _ hrun
    obtain ⟨name, hother, hsame⟩ := ih t (hg.of_concat ht).1 ht hfew.of_concat hfew'
    cases a with
    | submit i str =>
      refine ⟨name, fun K' => ?_, fun K' => ?_⟩
      · obtain ⟨s', h⟩ := hother K'
        exact ⟨s', h.submit_left hstep⟩
      · obtain ⟨u, h, hinputs⟩ := hsame K'
        obtain ⟨u', hstep'⟩ := exists_submit K' u i str
        exact ⟨u', (h.submit_left hstep).submit_right hstep', hinputs.submit hstep hstep'⟩
    | _ => cases ha
  · intro as bs b hb ih s hg hrun hfew hfew'
    obtain ⟨name, hother, hsame⟩ := ih s hg hrun hfew hfew'.of_concat
    cases b with
    | submit i str =>
      refine ⟨name, fun K' => ?_, hsame⟩
      obtain ⟨s', h⟩ := hother K'
      obtain ⟨u', hstep'⟩ := exists_submit K' s' i str
      exact ⟨u', h.submit_right hstep'⟩
    | _ => cases hb
  · intro as bs a ha ih s hg hrun hfew hfew'
    obtain ⟨t, ht, hstep⟩ := exists_of_run_concat _ hrun
    obtain ⟨hg, hga⟩ := hg.of_concat ht
    obtain ⟨name, hother, hsame⟩ := ih t hg ht hfew.of_concat hfew'.of_concat
    refine ⟨names a t name, fun K' => ?_, fun K' => ?_⟩
    · obtain ⟨s', h⟩ := hother K'
      obtain ⟨u', h, -⟩ := h.move ha hga hstep hfew hfew'
      exact ⟨u', h⟩
    · obtain ⟨u, h, hinputs⟩ := hsame K'
      obtain ⟨u', h, hkept⟩ := h.move ha hga hstep hfew hfew
      exact ⟨u', h, hkept hinputs⟩

/-- **What is said and drawn does not show in the course of events.** In a network whose threads
keep to the conditions, let the threads and clients make the same moves under other draws, and
with other strings submitted at other times, at most 19 to each client in either case. Then
all these moves can be made, they keep to the conditions, everybody gets to the same point,
and every list holds the outputs of the same clients and rounds in the same order. -/
theorem same_course (K' : ℕ → PairKeys n)
    (hguard : Guarded (step DiningLoop.body K) (OnThreads Orderly) labels (Dining.initial n))
    (hrun : Transition.run (step DiningLoop.body K) labels (Dining.initial n) = some s)
    (hmoves : labels.filter Label.moves = labels'.filter Label.moves)
    (hfew : ∀ i, (stringsAt i labels).length ≤ 19)
    (hfew' : ∀ i, (stringsAt i labels').length ≤ 19) :
    ∃ s', Guarded (step DiningLoop.body K') (OnThreads Orderly) labels' (Dining.initial n) ∧
      Transition.run (step DiningLoop.body K') labels' (Dining.initial n) = some s' ∧
      SameCourse s s' := by
  obtain ⟨name, hother, -⟩ := exists_twin hmoves hguard hrun hfew hfew'
  obtain ⟨s', h⟩ := hother K'
  exact ⟨s', h.guard', h.run', h.twin.toSameCourse⟩

/-- The two rounds, without what the first client has to say. -/
theorem same_course_twoRounds :
    ∃ s : Dining 2,
      Transition.run (step DiningLoop.body (0 : ℕ → PairKeys 2)) (twoRounds 0 1)
        (Dining.initial 2) = some s ∧
      ∀ K', ∃ s', Transition.run (step DiningLoop.body K') (twoRounds 0 1).tail (Dining.initial 2) =
        some s' ∧ SameCourse s s' := by
  obtain ⟨s, hrun⟩ := Option.isSome_iff_exists.mp isSome_twoRounds
  refine ⟨s, hrun, fun K' => ?_⟩
  have hmoves : (twoRounds (0 : Fin 2) 1).filter Label.moves =
      (twoRounds 0 1).tail.filter Label.moves := rfl
  obtain ⟨s', -, hrun', h⟩ := same_course K' guarded_twoRounds hrun hmoves (by decide) (by decide)
  exact ⟨s', hrun', h⟩

end Network

end DiningCrypto
