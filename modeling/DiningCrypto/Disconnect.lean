import DiningCrypto.Shutdown
import DiningCrypto.Transition

/-!
# Losing the connection

A client whose stream ends. From then on every read raises an `EOFException`, and a send may
raise an `IOException`; the loop catches both inside its `while`, does nothing about them and
goes back to its first read. There the next `EOFException` is waiting.

So the loop is never left over a lost connection, wherever in a round it was lost
(`never_returns`): `run` does not return, and `Client.main` never gets to `disconnect`. With a
server that keeps to the protocol until then it does not end in any other way either, and
stands at its first read again after at most two of its own moves (`Healthy.back`). The
server's threads, by comparison, exit on an `EOFException`.
-/

namespace DiningCrypto

namespace ClientLoop

/-- What happens to a client: it does its next read, or its next send, which may fail; or a
string is submitted. -/
inductive Move : Type where
  | read
  | send
  | sendFails
  | submit (str : JString)

/-- The loop's own moves. -/
def Move.Own : Move → Prop
  | .submit _ => False
  | _ => True

/-- A client, and the objects of its stream that it has not read. Behind the last of them the
stream has ended. -/
structure Connected (ι γ δ : Type) : Type where
  client : Client ι γ δ
  incoming : List Object

variable {ι γ ρ δ : Type} (body : LoopBody ι γ ρ δ)

/-- At a read. -/
def reading : Point → Bool
  | .receiveKeySet => true
  | .receiveMessage _ => true
  | .receiveRoundResults => true
  | _ => false

/-- Between two reads, when the send raises an `IOException`: back to the first read. The
buffer has been polled by then, and a result list has not been collated. -/
def actFails (c : Client ι γ δ) : Option (Client ι γ δ) :=
  match c.point with
  | .ackKeySet _ => some { c with point := .receiveKeySet }
  | .transmit _ =>
    match body.next c.input with
    | some (_, input) => some { c with point := .receiveKeySet, input }
    | none => some { c with point := .ended (.threw .ArrayIndexOutOfBoundsException) }
  | .ackResults _ => some { c with point := .receiveKeySet }
  | _ => none

/-- One move. -/
def step : Move → Connected ι γ δ → Option (Connected ι γ δ)
  | .read, ⟨c, o :: os⟩ => (receive body c.point o).map fun point => ⟨{ c with point }, os⟩
  | .read, ⟨c, []⟩ =>
    -- `EOFException`
    if reading c.point then some ⟨{ c with point := .receiveKeySet }, []⟩ else none
  | .send, ⟨c, os⟩ => (act body c).map fun (_, c') => ⟨c', os⟩
  | .sendFails, ⟨c, os⟩ => (actFails body c).map fun c' => ⟨c', os⟩
  | .submit str, ⟨c, os⟩ => some ⟨{ c with input := body.inputString c.input str }, os⟩

/-- The loop has been left by one of its `break`s, and `run` has returned. -/
def Returned (p : Point) : Prop := p = .ended .shutdown ∨ p = .ended .unexpected

variable {body} {c c' : Client ι γ δ} {s s' t : Connected ι γ δ} {o : Object}
  {os : List Object} {p p' : Point} {a b : Move}

/-! ## The loop is not left -/

theorem not_returned_threw (e : Uncaught) : ¬ Returned (.ended (.threw e)) := by
  rintro (h | h)
  · cases h
  · cases h

/-- A loop that has returned has ended. -/
theorem Returned.ended (h : Returned p) : ∃ e, p = .ended e ∧ Returned (.ended e) := by
  rcases h with rfl | rfl
  · exact ⟨_, rfl, Or.inl rfl⟩
  · exact ⟨_, rfl, Or.inr rfl⟩

/-- Reading leaves the loop over a message only. -/
theorem not_returned_receive (hcheck : ∀ l e, body.check l = some e → ¬ Returned (.ended e))
    (ho : ∀ m, o = .message m → m.message = CommunicationProtocol.START_ROUND)
    (h : receive body p o = some p') : ¬ Returned p' := by
  intro hreturned
  obtain ⟨e, rfl, hended⟩ := hreturned.ended
  rcases receive_ended h with ⟨rfl, -⟩ | ⟨m, rfl, hstart, -⟩ | ⟨l, -, hc⟩ | rfl
  · exact absurd (ho _ rfl) (by decide)
  · exact hstart (ho m rfl)
  · exact hcheck l e hc hended
  · exact not_returned_threw _ hended

/-- Between two reads the loop can only be left by an exception. -/
theorem not_returned_act {sent : Option Message} (h : act body c = some (sent, c')) :
    ¬ Returned c'.point := by
  intro hreturned
  obtain ⟨e, hp, hended⟩ := hreturned.ended
  obtain ⟨u, rfl⟩ := act_ended h hp
  exact not_returned_threw u hended

/-- A send that fails takes the loop back to its first read, unless the poll before it throws. -/
theorem actFails_cases (h : actFails body c = some c') :
    (c'.point = .receiveKeySet ∧
        (c'.input = c.input ∨ ∃ x, body.next c.input = some (x, c'.input))) ∨
      c'.point = .ended (.threw .ArrayIndexOutOfBoundsException) ∧ body.next c.input = none := by
  obtain ⟨point, input, shown, log⟩ := c
  cases point with
  | ackKeySet keys =>
    obtain rfl := Option.some.inj h
    exact Or.inl ⟨rfl, Or.inl rfl⟩
  | transmit keys =>
    rcases hnext : body.next input with _ | ⟨x, input'⟩
    · simp only [actFails, hnext, Option.some.injEq] at h
      obtain rfl := h
      exact Or.inr ⟨rfl, rfl⟩
    · simp only [actFails, hnext, Option.some.injEq] at h
      obtain rfl := h
      exact Or.inl ⟨rfl, Or.inr ⟨x, rfl⟩⟩
  | ackResults results =>
    obtain rfl := Option.some.inj h
    exact Or.inl ⟨rfl, Or.inl rfl⟩
  | _ => cases h

theorem not_returned_actFails (h : actFails body c = some c') : ¬ Returned c'.point := by
  rcases actFails_cases h with ⟨hp, -⟩ | ⟨hp, -⟩
  · simp [hp, Returned]
  · rw [hp]
    exact not_returned_threw _

/-- The loop has not been left, and no message to come makes it leave. -/
structure Kept (s : Connected ι γ δ) : Prop where
  point : ¬ Returned s.client.point
  incoming : ∀ m, Object.message m ∈ s.incoming → m.message = CommunicationProtocol.START_ROUND

theorem Kept.step (hcheck : ∀ l e, body.check l = some e → ¬ Returned (.ended e)) (h : Kept s)
    (hstep : step body a s = some t) : Kept t := by
  obtain ⟨c, os⟩ := s
  obtain ⟨hpoint, hincoming⟩ := h
  cases a with
  | read =>
    cases os with
    | nil =>
      rw [ClientLoop.step] at hstep
      split_ifs at hstep
      obtain rfl := Option.some.inj hstep
      exact ⟨by simp [Returned], hincoming⟩
    | cons o os =>
      obtain ⟨p, hp, rfl⟩ := Option.map_eq_some_iff.mp hstep
      refine ⟨not_returned_receive hcheck (fun m hm => hincoming m ?_) hp,
        fun m hm => hincoming m (List.mem_cons_of_mem o hm)⟩
      rw [hm]
      exact List.mem_cons_self ..
  | send =>
    obtain ⟨⟨sent, c'⟩, hact, rfl⟩ := Option.map_eq_some_iff.mp hstep
    exact ⟨not_returned_act hact, hincoming⟩
  | sendFails =>
    obtain ⟨c', hact, rfl⟩ := Option.map_eq_some_iff.mp hstep
    exact ⟨not_returned_actFails hact, hincoming⟩
  | submit str =>
    obtain rfl := Option.some.inj hstep
    exact ⟨hpoint, hincoming⟩

/-- Every message of a round is the one that starts it. -/
theorem Served.message_mem_objects {r : Served} {m : Message} (h : Object.message m ∈ r.objects) :
    m.message = CommunicationProtocol.START_ROUND := by
  rw [Served.objects] at h
  simp only [List.mem_cons, List.not_mem_nil, reduceCtorEq, Object.message.injEq, or_false,
    false_or] at h
  rw [h]

theorem kept_client {rounds : List Served} {r : Served} {part : List Object}
    (hpart : part <+: r.objects) (hp : c.point = .receiveKeySet) :
    Kept ⟨c, rounds.flatMap Served.objects ++ part⟩ where
  point := by simp [hp, Returned]
  incoming := by
    intro m hm
    rcases List.mem_append.mp hm with h | h
    · obtain ⟨r', -, hr'⟩ := List.mem_flatMap.mp h
      exact Served.message_mem_objects hr'
    · exact Served.message_mem_objects (hpart.subset h)

/-! ## Back to the first read, for ever -/

/-- What the server sends next in a round. -/
inductive Phase : Type where
  | keySet
  | start
  | results

/-- What the client expects next. -/
def phase : Point → Phase
  | .receiveKeySet => .keySet
  | .ackKeySet _ => .start
  | .receiveMessage _ => .start
  | .transmit _ => .results
  | .receiveRoundResults => .results
  | .ackResults _ => .keySet
  | .ended _ => .keySet

/-- The objects come in protocol order, and the loop can take their result lists. -/
def InOrder (body : LoopBody ι γ ρ δ) : Phase → List Object → Prop
  | _, [] => True
  | .keySet, .keySet _ :: os => InOrder body .start os
  | .start, .message m :: os =>
    m.message = CommunicationProtocol.START_ROUND ∧ InOrder body .results os
  | .results, .results l :: os => Accepts body l ∧ InOrder body .keySet os
  | _, _ :: _ => False

theorem inOrder_part {r : Served} {part : List Object} (hpart : part <+: r.objects)
    (hr : Accepts body r.results) : InOrder body .keySet part := by
  rcases Served.parts hpart with rfl | rfl | rfl | rfl
  · trivial
  · trivial
  · exact ⟨rfl, trivial⟩
  · exact ⟨rfl, hr, trivial⟩

theorem inOrder_rounds {rounds : List Served} (hrounds : ∀ r ∈ rounds, Accepts body r.results)
    (hos : InOrder body .keySet os) :
    InOrder body .keySet (rounds.flatMap Served.objects ++ os) := by
  induction rounds with
  | nil => exact hos
  | cons r rounds ih =>
    obtain ⟨hr, hrest⟩ := List.forall_mem_cons.mp hrounds
    exact ⟨rfl, hr, ih hrest⟩

/-- A client in good health: it has not ended, the stream is in order for where it stands, it can
take the result list it holds, and its input side is in the state `F`. -/
structure Healthy (body : LoopBody ι γ ρ δ) (F : ι → Prop) (s : Connected ι γ δ) : Prop where
  point : ∀ e, s.client.point ≠ .ended e
  incoming : InOrder body (phase s.client.point) s.incoming
  held : ∀ l, s.client.point = .ackResults l → (body.collate l).isSome
  input : F s.client.input

/-- A send fails only when the stream has ended. -/
def FailsLate (a : Move) (s : Connected ι γ δ) : Prop := a = .sendFails → s.incoming = []

@[simp] theorem inOrder_nil (ph : Phase) : InOrder body ph [] := by
  rw [InOrder]
  trivial

namespace Healthy

variable {F : ι → Prop}

/-- The next read finds what it expects. -/
theorem receive (h : Healthy body F ⟨c, o :: os⟩) (hp : receive body c.point o = some p) :
    Healthy body F ⟨{ c with point := p }, os⟩ := by
  obtain ⟨point, input, shown, log⟩ := c
  obtain ⟨-, hincoming, -, hinput⟩ := h
  cases point with
  | receiveKeySet =>
    cases o with
    | keySet keys =>
      obtain rfl := Option.some.inj hp
      exact ⟨by simp, hincoming, by simp, hinput⟩
    | _ => exact hincoming.elim
  | receiveMessage keys =>
    cases o with
    | message m =>
      obtain ⟨hstart, hincoming⟩ := hincoming
      rw [ClientLoop.receive, if_pos hstart] at hp
      obtain rfl := Option.some.inj hp
      exact ⟨by simp, hincoming, by simp, hinput⟩
    | _ => exact hincoming.elim
  | receiveRoundResults =>
    cases o with
    | results l =>
      obtain ⟨⟨hcheck, hread⟩, hincoming⟩ := hincoming
      simp only [ClientLoop.receive, hcheck, Option.some.injEq] at hp
      obtain rfl := hp
      refine ⟨by simp, hincoming, fun l' hl' => ?_, hinput⟩
      obtain rfl := Point.ackResults.inj hl'
      exact hread
    | _ => exact hincoming.elim
  | _ => cases hp

/-- A send that succeeds. -/
theorem act (hnext : Pollable body F) (h : Healthy body F ⟨c, os⟩) {sent : Option Message}
    (hact : act body c = some (sent, c')) :
    Healthy body F ⟨c', os⟩ ∧ (reading c'.point = true) := by
  obtain ⟨point, input, shown, log⟩ := c
  obtain ⟨-, hincoming, hheld, hinput⟩ := h
  cases point with
  | ackKeySet keys =>
    obtain ⟨-, rfl⟩ := Prod.mk.inj (Option.some.inj hact)
    exact ⟨⟨by simp, hincoming, by simp, hinput⟩, rfl⟩
  | transmit keys =>
    obtain ⟨x, input', hx, hinput'⟩ := hnext input hinput
    simp only [ClientLoop.act, hx, Option.some.injEq, Prod.mk.injEq] at hact
    obtain ⟨-, rfl⟩ := hact
    exact ⟨⟨by simp, hincoming, by simp, hinput'⟩, rfl⟩
  | ackResults results =>
    obtain ⟨r, hr⟩ := Option.isSome_iff_exists.mp (hheld results rfl)
    simp only [ClientLoop.act, hr, Option.some.injEq, Prod.mk.injEq] at hact
    obtain ⟨-, rfl⟩ := hact
    exact ⟨⟨by simp, hincoming, by simp, hinput⟩, rfl⟩
  | _ => cases hact

/-- A send that fails takes the loop back to its first read. -/
theorem actFails (hnext : Pollable body F) (h : Healthy body F ⟨c, []⟩)
    (hact : actFails body c = some c') :
    Healthy body F ⟨c', []⟩ ∧ c'.point = .receiveKeySet := by
  obtain ⟨x, input', hx, hinput'⟩ := hnext c.input h.input
  rcases actFails_cases hact with ⟨hp, hinput⟩ | ⟨-, hnone⟩
  · have hfree : F c'.input := by
      rcases hinput with heq | ⟨y, hy⟩
      · rw [heq]
        exact h.input
      · obtain ⟨-, rfl⟩ := Prod.mk.inj (Option.some.inj (hx.symm.trans hy))
        exact hinput'
    exact ⟨⟨by simp [hp], inOrder_nil _, by simp [hp], hfree⟩, hp⟩
  · rw [hx] at hnone
    cases hnone

/-- The loop's own moves. When the stream has ended, each takes the loop to a read. -/
theorem own (hnext : Pollable body F) (h : Healthy body F s) (hown : a.Own)
    (hlate : FailsLate a s) (hstep : step body a s = some t) :
    Healthy body F t ∧
      (s.incoming = [] → reading t.client.point = true ∧ t.incoming = []) := by
  obtain ⟨c, os⟩ := s
  cases a with
  | read =>
    cases os with
    | nil =>
      rw [step] at hstep
      split_ifs at hstep
      obtain rfl := Option.some.inj hstep
      exact ⟨⟨by simp, inOrder_nil _, by simp, h.input⟩, fun _ => ⟨rfl, rfl⟩⟩
    | cons o os =>
      obtain ⟨p, hp, rfl⟩ := Option.map_eq_some_iff.mp hstep
      exact ⟨h.receive hp, fun hend => absurd hend (List.cons_ne_nil o os)⟩
  | send =>
    obtain ⟨⟨sent, c'⟩, hact, rfl⟩ := Option.map_eq_some_iff.mp hstep
    obtain ⟨hhealthy, hreading⟩ := h.act hnext hact
    exact ⟨hhealthy, fun hend => ⟨hreading, hend⟩⟩
  | sendFails =>
    obtain rfl : os = [] := hlate rfl
    obtain ⟨c', hact, rfl⟩ := Option.map_eq_some_iff.mp hstep
    obtain ⟨hhealthy, hpoint⟩ := h.actFails hnext hact
    refine ⟨hhealthy, fun _ => ⟨?_, rfl⟩⟩
    rw [hpoint]
    rfl
  | submit str => exact hown.elim

/-- A submission. -/
theorem submit {F' : ι → Prop} {str : JString}
    (hsubmit : ∀ input, F input → F' (body.inputString input str)) (h : Healthy body F s)
    (hstep : step body (.submit str) s = some t) : Healthy body F' t := by
  obtain rfl := Option.some.inj hstep
  exact ⟨h.point, h.incoming, h.held, hsubmit _ h.input⟩

end Healthy

/-- At a read nothing is sent. -/
theorem act_of_reading (body : LoopBody ι γ ρ δ) (hp : reading c.point = true) :
    act body c = none ∧ actFails body c = none := by
  obtain ⟨point, input, shown, log⟩ := c
  cases point with
  | receiveKeySet => exact ⟨rfl, rfl⟩
  | receiveMessage keys => exact ⟨rfl, rfl⟩
  | receiveRoundResults => exact ⟨rfl, rfl⟩
  | _ => cases hp

theorem receive_of_reading (hp : reading p = true) (o : Object) : (receive body p o).isSome := by
  cases p with
  | receiveKeySet => cases o <;> rfl
  | receiveMessage keys =>
    cases o with
    | message m =>
      rw [receive]
      split_ifs <;> rfl
    | _ => rfl
  | receiveRoundResults =>
    cases o with
    | results l =>
      rw [receive]
      rcases body.check l with _ | e
      · rfl
      · rfl
    | _ => rfl
  | _ => cases hp

/-- Between two reads something is sent. -/
theorem act_of_not_reading (hp : reading c.point ≠ true) (hopen : ∀ e, c.point ≠ .ended e) :
    (act body c).isSome := by
  obtain ⟨point, input, shown, log⟩ := c
  cases point with
  | ackKeySet keys => rfl
  | transmit keys =>
    rcases hnext : body.next input with _ | ⟨x, input'⟩
    · simp [act, hnext]
    · simp [act, hnext]
  | ackResults results =>
    rcases hread : body.collate results with _ | r
    · simp [act, hread]
    · simp [act, hread]
  | ended e => exact absurd rfl (hopen e)
  | _ => exact absurd rfl hp

/-- At a read, the end of the stream takes the loop back to its first read. -/
theorem point_of_end (hreading : reading s.client.point = true) (hend : s.incoming = [])
    (ha : a.Own) (hstep : step body a s = some t) :
    t.client.point = .receiveKeySet ∧ t.incoming = [] := by
  obtain ⟨c, os⟩ := s
  obtain rfl : os = [] := hend
  obtain ⟨hact, hfails⟩ := act_of_reading body hreading
  cases a with
  | read =>
    rw [step, if_pos hreading] at hstep
    obtain rfl := Option.some.inj hstep
    exact ⟨rfl, rfl⟩
  | send =>
    rw [step, hact] at hstep
    cases hstep
  | sendFails =>
    rw [step, hfails] at hstep
    cases hstep
  | submit str => exact ha.elim

/-- When the stream has ended, two moves of the loop take it back to its first read. -/
theorem Healthy.back {F : ι → Prop} (hnext : Pollable body F) (h : Healthy body F s)
    (hend : s.incoming = []) (ha : a.Own) (hb : b.Own)
    (hrun : Transition.run (step body) [a, b] s = some s') :
    s'.client.point = .receiveKeySet ∧ s'.incoming = [] := by
  obtain ⟨t, ht, hrest⟩ := (Transition.run_cons_eq_some _).mp hrun
  obtain ⟨u, hu, hdone⟩ := (Transition.run_cons_eq_some _).mp hrest
  obtain rfl : u = s' := Option.some.inj hdone
  obtain ⟨-, hback⟩ := h.own hnext ha (fun _ => hend) ht
  obtain ⟨hreading, hend'⟩ := hback hend
  exact point_of_end hreading hend' hb hu

/-- A loop that has not ended can move. -/
theorem exists_own (body : LoopBody ι γ ρ δ) (h : ∀ e, s.client.point ≠ .ended e) :
    ∃ a : Move, a.Own ∧ FailsLate a s ∧ (step body a s).isSome := by
  obtain ⟨c, os⟩ := s
  by_cases hp : reading c.point = true
  · refine ⟨.read, trivial, (by intro hfails; cases hfails), ?_⟩
    cases os with
    | nil => rw [step, if_pos hp, Option.isSome_some]
    | cons o os => rw [step, Option.isSome_map, receive_of_reading hp]
  · refine ⟨.send, trivial, (by intro hfails; cases hfails), ?_⟩
    rw [step, Option.isSome_map, act_of_not_reading hp h]

/-- The strings submitted. -/
def submits (moves : List Move) : List JString :=
  moves.filterMap fun
    | .submit str => some str
    | _ => none

/-- Health is kept over a run in which sends fail late, as long as the slots of the buffer last:
`F k` says of an input side that `k` strings can still be submitted to it. -/
theorem Healthy.run {F : ℕ → ι → Prop}
    (hsubmit : ∀ k input str, F (k + 1) input → F k (body.inputString input str))
    (hnext : ∀ k, Pollable body (F (k + 1)))
    {k : ℕ} {moves : List Move} (h : Healthy body (F k) s) (hfew : (submits moves).length < k)
    (hlate : Transition.Guarded (step body) FailsLate moves s)
    (hrun : Transition.run (step body) moves s = some s') :
    ∃ j, Healthy body (F (j + 1)) s' := by
  induction moves generalizing s k with
  | nil =>
    obtain rfl : s = s' := Option.some.inj hrun
    obtain ⟨j, rfl⟩ := Nat.exists_eq_add_one_of_ne_zero (Nat.ne_zero_of_lt hfew)
    exact ⟨j, h⟩
  | cons a moves ih =>
    obtain ⟨t, ht, hrest⟩ := (Transition.run_cons_eq_some _).mp hrun
    obtain ⟨k, rfl⟩ := Nat.exists_eq_add_one_of_ne_zero (Nat.ne_zero_of_lt hfew)
    have hown : a.Own → (submits moves).length < k + 1 → ∃ j, Healthy body (F (j + 1)) s' :=
      fun ha hfew' => ih (h.own (hnext k) ha hlate.1 ht).1 hfew' (hlate.tail ht) hrest
    cases a with
    | submit str =>
      exact ih (h.submit (hsubmit k · str) ht) (Nat.lt_of_succ_lt_succ hfew) (hlate.tail ht) hrest
    | read => exact hown trivial hfew
    | send => exact hown trivial hfew
    | sendFails => exact hown trivial hfew

end ClientLoop

open ClientLoop

/-! ## `DiningLoop` -/

theorem DiningLoop.not_returned_check (l : List Message) (e : Ending)
    (h : DiningLoop.body.check l = some e) : ¬ Returned (.ended e) := by
  simp only [DiningLoop.body] at h
  split_ifs at h
  obtain rfl := Option.some.inj h
  simp [Returned]

/-- **A lost connection does not end the loop.** The stream holds any number of rounds and a
part of a round, and then ends. Whatever the client does, and whichever of its sends fail, `run`
does not return. If the sends fail only at the end of the stream, the result lists can be taken
and the slots of the buffer last, the loop does not end at all: it can always move on, and from
the end of the stream on two moves take it back to its first read. -/
theorem never_returns {rounds : List Served} {r : Served} {part : List Object}
    (hpart : part <+: r.objects) {moves : List Move} {s' : Connected DiningLoop JChar Display}
    (hrun : Transition.run (ClientLoop.step DiningLoop.body) moves
      ⟨DiningLoop.client, rounds.flatMap Served.objects ++ part⟩ = some s') :
    ¬ Returned s'.client.point ∧
      ((∀ q ∈ r :: rounds, q.results ≠ [] ∧ (DiningLoop.collate q.results).isSome) →
        (submits moves).length ≤ 19 →
        Transition.Guarded (ClientLoop.step DiningLoop.body) FailsLate moves
          ⟨DiningLoop.client, rounds.flatMap Served.objects ++ part⟩ →
        (∀ e, s'.client.point ≠ .ended e) ∧
          (∃ a : Move, a.Own ∧ (ClientLoop.step DiningLoop.body a s').isSome) ∧
          (s'.incoming = [] → ∀ (a b : Move) (s'' : Connected DiningLoop JChar Display),
            a.Own → b.Own →
            Transition.run (ClientLoop.step DiningLoop.body) [a, b] s' = some s'' →
            s''.client.point = .receiveKeySet ∧ s''.incoming = [])) := by
  constructor
  · have hstart : Kept ⟨DiningLoop.client, rounds.flatMap Served.objects ++ part⟩ :=
      kept_client hpart rfl
    have hkept := Transition.invariant_of_run
      (fun _ _ _ h hstep => Kept.step DiningLoop.not_returned_check h hstep) hstart hrun
    exact hkept.point
  · intro haccepts hfew hlate
    simp only [← DiningLoop.accepts_iff] at haccepts
    obtain ⟨hr, hrounds⟩ := List.forall_mem_cons.mp haccepts
    have hstart : Healthy DiningLoop.body (DiningLoop.Free 20)
        ⟨DiningLoop.client, rounds.flatMap Served.objects ++ part⟩ := by
      refine ⟨?_, inOrder_rounds hrounds (inOrder_part hpart hr), ?_, DiningLoop.free_new⟩
      · intro e he
        cases he
      · intro l hl
        cases hl
    obtain ⟨j, hhealthy⟩ := hstart.run DiningLoop.free_inputString DiningLoop.free_next
      (Nat.lt_succ_of_le hfew) hlate hrun
    refine ⟨hhealthy.point, ?_, fun hend a b s'' ha hb hrun' => ?_⟩
    · obtain ⟨a, ha, -, hmove⟩ := exists_own DiningLoop.body hhealthy.point
      exact ⟨a, ha, hmove⟩
    · exact hhealthy.back (DiningLoop.free_next j) hend ha hb hrun'

/-- The connection is lost right after a keyset, and the acknowledgement fails: after the next
read the loop is at its first read. -/
theorem never_returns_afterKeySet :
    ∃ s' : Connected DiningLoop JChar Display,
      Transition.run (ClientLoop.step DiningLoop.body) [.read, .sendFails, .read]
          ⟨DiningLoop.client, [.keySet KeySet.empty]⟩ = some s' ∧
        ¬ Returned s'.client.point ∧ ∀ e, s'.client.point ≠ .ended e := by
  refine ⟨⟨DiningLoop.client, []⟩, rfl, ?_⟩
  have h := @never_returns [] ⟨KeySet.empty, [Message.output 0]⟩ [.keySet KeySet.empty]
    (List.prefix_append [_] _) [.read, .sendFails, .read] ⟨DiningLoop.client, []⟩ rfl
  refine ⟨h.1, (h.2 ?_ (by decide) ?_).1⟩
  · intro q hq
    obtain rfl := List.mem_singleton.mp hq
    refine ⟨List.cons_ne_nil _ _, ?_⟩
    rw [DiningLoop.collate, DiningLoop.addMessages, Message.parseInt_output]
    rfl
  · exact ⟨(by intro h; cases h), fun _ => rfl, (by intro h; cases h), trivial⟩

/-- The server has closed the connection before the first round: the client polls the end of
its stream and does not return, however often it does. -/
theorem not_returns_of_closed :
    ¬ ∃ (k : ℕ) (s' : Connected DiningLoop JChar Display),
      Transition.run (ClientLoop.step DiningLoop.body) (List.replicate k .read)
        ⟨DiningLoop.client, []⟩ = some s' ∧ Returned s'.client.point := by
  rintro ⟨k, s', hrun, hreturned⟩
  have hstays : ClientLoop.step DiningLoop.body .read ⟨DiningLoop.client, []⟩ =
      some ⟨DiningLoop.client, []⟩ := rfl
  rw [Transition.run_replicate _ hstays] at hrun
  obtain rfl := Option.some.inj hrun
  simp [Returned, DiningLoop.client, ClientState.client] at hreturned

end DiningCrypto
