import DiningCrypto.Agreement
import DiningCrypto.Transcript

/-!
# Network runs are sessions

In the network every client is somewhere else: one has transmitted its character of a round,
another one has not been handed its keyset yet, and strings arrive in between. A `Session`
knows none of this: in it a round is one event for all clients. `session_of_run` takes a run
of the network to a session in which every client makes the same calls at its input side, in
the same order, and sees the same displays.

The session is put together from the calls recorded at the clients. `replay` says what a list
of calls returns, and the record of a client replays to what it has transmitted (`Replayed`),
whatever the server does. Clients make their calls independently of each other, so the records
can be cut after each poll and the pieces of all clients be joined, the submissions first and
then all polls at once (`session_of_logs`).
-/

namespace DiningCrypto

open ClientLoop Transition ServerThread

/-! ## The record of an input side -/

section Replay

variable {ι γ ρ δ : Type} (body : LoopBody ι γ ρ δ)

/-- The input side after the calls, and what the polls have returned. `none`: a poll has
thrown. -/
def replay : ι → List InputCall → Option (ι × List γ)
  | input, [] => some (input, [])
  | input, .inputString str :: calls => replay (body.inputString input str) calls
  | input, .next :: calls =>
    (body.next input).bind fun (x, input) =>
      (replay input calls).map fun (input, xs) => (input, x :: xs)

variable {body} {input input' : ι} {calls calls' : List InputCall} {xs : List γ}

theorem replay_append (h : replay body input calls = some (input', xs)) :
    replay body input (calls ++ calls') =
      (replay body input' calls').map fun (input, ys) => (input, xs ++ ys) := by
  induction calls generalizing input xs with
  | nil =>
    cases h
    simp
  | cons call calls ih =>
    cases call with
    | inputString str => exact ih h
    | next =>
      simp only [replay, Option.bind_eq_some_iff, Option.map_eq_some_iff, Prod.exists,
        Prod.mk.injEq] at h
      obtain ⟨x, input₁, hnext, input₂, ys, hrest, rfl, rfl⟩ := h
      simp only [List.cons_append, replay, hnext, Option.bind_some, ih hrest, Option.map_map]
      rfl

/-- The calls of a client replay to its input side and to what it has sent, unless a poll has
ended its loop; then the calls before that poll do. -/
def Replayed (body : LoopBody ι γ ρ δ) (input : ι) (p : Peer ι γ δ) : Prop :=
  p.client.point ≠ .ended (.threw .ArrayIndexOutOfBoundsException) ∧
      replay body input p.calls = some (p.client.input, p.client.sent) ∨
    p.client.point = .ended (.threw .ArrayIndexOutOfBoundsException) ∧
      ∃ calls input' rest, p.calls = calls ++ .next :: rest ∧
        replay body input calls = some (input', p.client.sent) ∧ body.next input' = none

namespace Replayed

variable {body : LoopBody ι γ ρ δ} {input : ι} {p : Peer ι γ δ}

/-- The client goes on from between two reads. -/
theorem act (h : Replayed body input p) {sent : Option Message} {client : Client ι γ δ}
    (hact : ClientLoop.act body p.client = some (sent, client)) {toServer : List Message} :
    Replayed body input
      { p with client, toServer, calls := p.calls ++ polling p.client.point } := by
  obtain ⟨⟨point, now, shown, log⟩, toClient, _, outputs, calls⟩ := p
  rcases h with ⟨-, h⟩ | ⟨hpoint, -⟩
  · cases point with
    | ackKeySet keys =>
      cases hact
      exact .inl ⟨by simp, h ▸ congrArg _ (List.append_nil calls)⟩
    | transmit keys =>
      rcases hnext : body.next now with _ | ⟨x, now'⟩
      · simp only [ClientLoop.act, hnext, Option.some.injEq, Prod.mk.injEq] at hact
        obtain ⟨-, rfl⟩ := hact
        exact .inr ⟨rfl, calls, now, [], rfl, h, hnext⟩
      · simp only [ClientLoop.act, hnext, Option.some.injEq, Prod.mk.injEq] at hact
        obtain ⟨-, rfl⟩ := hact
        refine .inl ⟨by simp, (replay_append h).trans ?_⟩
        simp only [polling, replay, hnext, Option.bind_some, Option.map_some]
    | ackResults results =>
      rcases hread : body.collate results with _ | r
      · simp only [ClientLoop.act, hread, Option.some.injEq, Prod.mk.injEq] at hact
        obtain ⟨-, rfl⟩ := hact
        exact .inl ⟨by simp, h ▸ congrArg _ (List.append_nil calls)⟩
      · simp only [ClientLoop.act, hread, Option.some.injEq, Prod.mk.injEq] at hact
        obtain ⟨-, rfl⟩ := hact
        exact .inl ⟨by simp, h ▸ congrArg _ (List.append_nil calls)⟩
    | _ => cases hact
  · obtain rfl := hpoint
    cases hact

/-- It reads. A list is not what a poll throws over. -/
theorem read (h : Replayed body input p)
    (hcheck : ∀ l, body.check l ≠ some (.threw .ArrayIndexOutOfBoundsException)) {o : Object}
    {point : ClientLoop.Point} (hreceive : receive body p.client.point o = some point)
    {toClient : List Object} :
    Replayed body input { p with client := { p.client with point }, toClient } := by
  obtain ⟨⟨_, now, shown, log⟩, _, toServer, outputs, calls⟩ := p
  rcases h with ⟨-, h⟩ | ⟨hpoint, -⟩
  · refine .inl ⟨?_, h⟩
    rintro rfl
    rcases receive_ended hreceive with ⟨-, he⟩ | ⟨-, -, -, he⟩ | ⟨l, -, he⟩ | he
    · cases he
    · cases he
    · exact hcheck l he
    · cases he
  · obtain rfl := hpoint
    cases hreceive

/-- A string is submitted. -/
theorem submit (h : Replayed body input p) (str : JString) :
    Replayed body input
      { p with
        client := { p.client with input := body.inputString p.client.input str }
        calls := p.calls ++ [.inputString str] } := by
  rcases h with ⟨hpoint, h⟩ | ⟨hpoint, calls, input', rest, hcalls, hreplay, hnext⟩
  · refine .inl ⟨hpoint, (replay_append h).trans ?_⟩
    simp only [replay, Option.map_some, List.append_nil]
  · exact .inr ⟨hpoint, calls, input', rest ++ [.inputString str], by simp [hcalls], hreplay,
      hnext⟩

end Replayed

end Replay

namespace Network

variable {n : ℕ} {ι γ ρ δ : Type} {body : LoopBody ι γ ρ δ} {draw : ℕ → PairKeys n} {input : ι}
  {shown : δ} {s : Network n ι γ δ} {i : Fin n}

theorem Effect.replayed
    (hcheck : ∀ l, body.check l ≠ some (.threw .ArrayIndexOutOfBoundsException))
    {label : Label n} {th : Thread} {p : Peer ι γ δ} (heffect : Effect body draw s i label th p)
    (h : Replayed body input (s.peer i)) : Replayed body input p := by
  cases heffect with
  | idle _ | wake _ | receive _ _ | own _ _ => exact h
  | act hact => exact h.act hact
  | read _ hreceive => exact h.read hcheck hreceive
  | submit str => exact h.submit str

/-- **The records replay**, in every run. -/
theorem replayed_run
    (hcheck : ∀ l, body.check l ≠ some (.threw .ArrayIndexOutOfBoundsException))
    {labels : List (Label n)}
    (hrun : Transition.run (step body draw) labels (initial n input shown) = some s) (i : Fin n) :
    Replayed body input (s.peer i) := by
  have hstart : ∀ i, Replayed body input ((initial n input shown).peer i) :=
    fun _ => .inl ⟨by simp [initial], rfl⟩
  exact invariant_of_run (I := fun s : Network n ι γ δ => ∀ i, Replayed body input (s.peer i))
    (fun _ _ _ h hstep i => (step_effect hstep i).replayed hcheck (h i)) hstart hrun i

end Network

/-! ## Sessions from records -/

/-- The same call of a `DiningLoop`. -/
def InputCall.call : InputCall → DiningLoop.Call
  | .inputString str => .inputString str
  | .next => .getNextChar

/-- The record up to its first poll. -/
theorem replay_cons {ι γ ρ δ : Type} {body : LoopBody ι γ ρ δ} {input input' : ι}
    {calls : List InputCall} {x : γ} {xs : List γ}
    (h : replay body input calls = some (input', x :: xs)) :
    ∃ (strs : List JString) (input₁ : ι) (rest : List InputCall),
      calls = strs.map .inputString ++ .next :: rest ∧
      body.next (strs.foldl body.inputString input) = some (x, input₁) ∧
      replay body input₁ rest = some (input', xs) := by
  induction calls generalizing input with
  | nil => cases h
  | cons call calls ih =>
    cases call with
    | inputString str =>
      obtain ⟨strs, input₁, rest, rfl, hnext, hrest⟩ := ih h
      exact ⟨str :: strs, input₁, rest, rfl, hnext, hrest⟩
    | next =>
      simp only [replay, Option.bind_eq_some_iff, Option.map_eq_some_iff, Prod.exists,
        Prod.mk.injEq, List.cons.injEq] at h
      obtain ⟨y, input₁, hnext, input₂, ys, hrest, rfl, rfl, rfl⟩ := h
      exact ⟨[], input₁, calls, rfl, hnext, hrest⟩

section Session

variable {n : ℕ}

/-- The submissions of all clients, one client after the other. -/
def submitAll (strs : Fin n → List JString) : List (Event n) :=
  (List.finRange n).flatMap fun j => (strs j).map (Event.submit j)

/-- The rounds of a session. -/
def roundsOf (es : List (Event n)) : List (RoundContract n) :=
  es.filterMap fun
    | .submit _ _ => none
    | .round r => some r

theorem roundsOf_flatten (blocks : List (List (Event n))) :
    roundsOf blocks.flatten = (blocks.map roundsOf).flatten := List.filterMap_flatten ..

/-- Submissions at one client. -/
theorem run_submits (cs : Clients n) (i : Fin n) (strs : List JString) :
    run cs (strs.map (Event.submit i)) =
      some (Function.update cs i
        { cs i with loop := strs.foldl DiningLoop.inputString (cs i).loop }) := by
  induction strs generalizing cs with
  | nil =>
    rw [List.map_nil, run, List.foldl_nil, Function.update_eq_self]
  | cons str strs ih =>
    rw [List.map_cons, run, step, Option.bind_some, ih, Function.update_idem,
      Function.update_self, List.foldl_cons]

theorem run_submitAll (cs : Clients n) (strs : Fin n → List JString) :
    run cs (submitAll strs) =
      some fun j =>
        { cs j with loop := (strs j).foldl DiningLoop.inputString (cs j).loop } := by
  have hsome : ∀ (is : List (Fin n)) (cs : Clients n), is.Nodup →
      run cs (is.flatMap fun j => (strs j).map (Event.submit j)) =
        some fun j =>
          if j ∈ is then { cs j with loop := (strs j).foldl DiningLoop.inputString (cs j).loop }
          else cs j := by
    intro is
    induction is with
    | nil => exact fun _ _ => rfl
    | cons i is ih =>
      intro cs hnodup
      obtain ⟨hi, hnodup⟩ := List.nodup_cons.mp hnodup
      rw [List.flatMap_cons, run_append, run_submits, Option.bind_some, ih _ hnodup]
      refine congrArg some (funext fun j => ?_)
      by_cases hj : j = i
      · subst hj
        rw [if_neg hi, if_pos (List.mem_cons_self ..), Function.update_self]
      · simp only [List.mem_cons, hj, false_or, Function.update_of_ne hj]
  rw [submitAll, hsome _ cs (List.nodup_finRange n)]
  simp only [List.mem_finRange, if_true]

/-- At each client the submissions are its own. -/
theorem filterMap_submitAll (strs : Fin n → List JString) (j : Fin n) :
    (submitAll strs).filterMap (callAt j) = (strs j).map .inputString := by
  have hown : ∀ is : List (Fin n), is.Nodup →
      (is.flatMap fun i => (strs i).map (Event.submit i)).filterMap (callAt j) =
        if j ∈ is then (strs j).map .inputString else [] := by
    intro is
    induction is with
    | nil => exact fun _ => rfl
    | cons i is ih =>
      intro hnodup
      obtain ⟨hi, hnodup⟩ := List.nodup_cons.mp hnodup
      rw [List.flatMap_cons, List.filterMap_append, ih hnodup]
      by_cases hj : j = i
      · subst hj
        rw [if_neg hi, if_pos (List.mem_cons_self ..), List.append_nil, List.filterMap_map]
        simp [callAt, Function.comp_def]
      · simp [callAt, Function.comp_def, List.filterMap_map, hj, Ne.symm hj]
  rw [submitAll, hown _ (List.nodup_finRange n), if_pos (List.mem_finRange j)]

theorem roundsOf_submitAll (strs : Fin n → List JString) : roundsOf (submitAll strs) = [] := by
  rw [roundsOf, List.filterMap_eq_nil_iff]
  intro e he
  obtain ⟨i, -, he⟩ := List.mem_flatMap.mp he
  obtain ⟨str, -, rfl⟩ := List.mem_map.mp he
  rfl

/-- **Sessions from records.** When the record of every client replays to what it has sent, and
the clients have sent their characters of `rounds`, there is a session of these rounds in which
every client makes a beginning of the calls of its record. Each block of it is a round, with
the submissions before it. -/
theorem session_of_logs {rounds : List (Fin n → JChar)} {contracts : List (RoundContract n)}
    (hlen : contracts.length = rounds.length) {cs : Clients n} {logs : Fin n → List InputCall}
    {sent : Fin n → List JChar}
    (hlogs : ∀ j, ∃ input, replay DiningLoop.body (cs j).loop (logs j) = some (input, sent j))
    (hrounds : ∀ j, rounds.map (fun x => x j) <+: sent j) :
    ∃ blocks : List (List (Event n)),
      blocks.map roundsOf = contracts.map (fun r => [r]) ∧
      (∀ j, blocks.flatten.filterMap (callAt j) <+: (logs j).map InputCall.call) ∧
      ∀ d, ∃ cs', run cs (blocks.take d).flatten = some cs' ∧
        ∀ j, (cs' j).sent = (cs j).sent ++ (rounds.take d).map (fun x => x j) ∧
          (cs' j).display = (cs j).display.after (rounds.take d) := by
  induction rounds generalizing contracts cs logs sent with
  | nil =>
    obtain rfl := List.length_eq_zero_iff.mp hlen
    refine ⟨[], rfl, fun j => List.nil_prefix, fun d => ⟨cs, by simp [run], fun j => ?_⟩⟩
    simp [Display.after]
  | cons x rounds ih =>
    obtain ⟨r, contracts, rfl⟩ := List.exists_cons_of_length_eq_add_one hlen
    -- cut every record after its first poll
    have hcut : ∀ j, ∃ (strs : List JString) (loop : DiningLoop) (rest : List InputCall)
        (xs : List JChar),
        logs j = strs.map .inputString ++ .next :: rest ∧
        (strs.foldl DiningLoop.inputString (cs j).loop).getNextChar = some (x j, loop) ∧
        (∃ input, replay DiningLoop.body loop rest = some (input, xs)) ∧
        rounds.map (fun x => x j) <+: xs := by
      intro j
      obtain ⟨input, hreplay⟩ := hlogs j
      obtain ⟨xs, hxs⟩ := hrounds j
      rw [List.map_cons, List.cons_append] at hxs
      rw [← hxs] at hreplay
      obtain ⟨strs, loop, rest, hlog, hnext, hrest⟩ := replay_cons hreplay
      exact ⟨strs, loop, rest, _, hlog, hnext, ⟨input, hrest⟩, List.prefix_append _ _⟩
    choose strs loop rest xs hlog hnext hrest hpre using hcut
    let cs₁ : Clients n := fun j =>
      { loop := loop j
        display := (cs j).display.showResult (BitVec.ofNat 16 (collated (total x)))
        sent := (cs j).sent ++ [x j] }
    have hblock : run cs (submitAll strs ++ [.round r]) = some cs₁ := by
      rw [run_append, run_submitAll, Option.bind_some, run, step, round_eq r hnext]
      rfl
    have hreplay : ∀ j, ∃ input,
        replay DiningLoop.body (cs₁ j).loop (rest j) = some (input, xs j) := hrest
    obtain ⟨blocks, hcontracts, hcalls, hstates⟩ := ih (Nat.succ.inj hlen) hreplay hpre
    refine ⟨(submitAll strs ++ [.round r]) :: blocks, ?_, fun j => ?_, fun d => ?_⟩
    · rw [List.map_cons, List.map_cons, hcontracts, roundsOf, List.filterMap_append, ← roundsOf,
        roundsOf_submitAll]
      rfl
    · rw [List.flatten_cons, List.filterMap_append, List.filterMap_append, filterMap_submitAll,
        hlog j, List.map_append, List.map_map, List.append_assoc]
      exact (List.prefix_append_right_inj _).mpr
        (List.cons_prefix_cons.mpr ⟨rfl, hcalls j⟩)
    · rcases d with _ | d
      · exact ⟨cs, rfl, fun j => by simp [Display.after]⟩
      · obtain ⟨cs', hrun, hcs'⟩ := hstates d
        refine ⟨cs', ?_, fun j => ?_⟩
        · rw [List.take_succ_cons, List.flatten_cons, run_append, hblock, Option.bind_some, hrun]
        · obtain ⟨hsent, hdisplay⟩ := hcs' j
          rw [hsent, hdisplay]
          simp [cs₁, Display.after]

end Session

/-! ## The session of a run -/

theorem DiningLoop.check_ne_threw (l : List Message) :
    DiningLoop.body.check l ≠ some (.threw .ArrayIndexOutOfBoundsException) := by
  simp only [DiningLoop.body]
  split_ifs <;> simp

namespace Network

variable {n : ℕ} {draw : ℕ → PairKeys n} {s : Dining n} {labels : List (Label n)}

/-- What a client has sent is the replay of a beginning of its record. -/
theorem exists_replay {ι γ ρ δ : Type} {body : LoopBody ι γ ρ δ} {input : ι} {p : Peer ι γ δ}
    (h : Replayed body input p) :
    ∃ calls input', calls <+: p.calls ∧ replay body input calls = some (input', p.client.sent) := by
  rcases h with ⟨-, h⟩ | ⟨-, calls, input', rest, hcalls, hreplay, -⟩
  · exact ⟨p.calls, _, List.prefix_refl _, h⟩
  · exact ⟨calls, input', hcalls ▸ List.prefix_append _ _, hreplay⟩

/-- The network has done what a session does: its blocks are one round each, with the
submissions before it; every client makes its own calls in its own order and transmits the same,
under the keysets it was handed; and what a client displays is what it displays in the session,
after all blocks or all but the last. -/
structure SessionOf (s : Dining n) (blocks : List (List (Event n))) (cs : ℕ → Clients n) :
    Prop where
  rounds : ∀ block ∈ blocks, (roundsOf block).length = 1
  keys : ∀ j, (roundsOf blocks.flatten).map (fun r => r.handOut.held j) <+:
    (s.server.thread j).keys
  calls : ∀ j, blocks.flatten.filterMap (callAt j) <+: (s.peer j).calls.map InputCall.call
  run : ∀ d, DiningCrypto.run (initialClients n) (blocks.take d).flatten = some (cs d)
  sent : ∀ d ≤ blocks.length, ∀ j, (cs d j).sent = (s.peer j).client.sent.take d
  displays : ∀ i, ∃ d ≤ blocks.length, (s.peer i).client.shown = (cs d i).display ∧
    (s.peer i).client.sent.length ≤ d + 1 ∧
    ((s.peer i).client.point = .receiveKeySet → (s.peer i).client.sent.length = d)

theorem CommonRounds.session {rounds : List (CommonRound n JChar)}
    (hrounds : CommonRounds DiningLoop.body s rounds)
    (hlinked : AllLinked DiningLoop.body Display.empty s)
    (hreplayed : ∀ i, Replayed DiningLoop.body DiningLoop.new (s.peer i)) :
    ∃ blocks cs, SessionOf s blocks cs := by
  have hlogs : ∀ j, ∃ calls input, calls <+: (s.peer j).calls ∧
      replay DiningLoop.body DiningLoop.new calls = some (input, (s.peer j).client.sent) :=
    fun j => exists_replay (hreplayed j)
  choose logs input hpre hreplay using hlogs
  let contracts : List (RoundContract n) :=
    rounds.map fun c => ⟨c.handOut, fun _ => Equiv.refl _⟩
  have hlen : contracts.length = (rounds.map CommonRound.sent).length := by
    rw [List.length_map, List.length_map]
  have hstart : ∀ j, ∃ input,
      replay DiningLoop.body (initialClients n j).loop (logs j) =
        some (input, (s.peer j).client.sent) := fun j => ⟨input j, hreplay j⟩
  obtain ⟨blocks, hcontracts, hcalls, hstates⟩ :=
    session_of_logs hlen hstart fun j => by rw [List.map_map]; exact hrounds.sent j
  choose cs hcs hstate using hstates
  have hlength : blocks.length = rounds.length := by
    have := congrArg List.length hcontracts
    simpa only [contracts, List.length_map] using this
  refine ⟨blocks, cs, fun block hblock => ?_, fun j => ?_, fun j => ?_, hcs, fun d hd j => ?_,
    fun i => ?_⟩
  · have hmem := List.mem_map_of_mem (f := roundsOf) hblock
    rw [hcontracts] at hmem
    obtain ⟨r, -, hr⟩ := List.mem_map.mp hmem
    rw [← hr]
    rfl
  · have hrounds' : roundsOf blocks.flatten =
        rounds.map fun c => ⟨c.handOut, fun _ => Equiv.refl _⟩ := by
      rw [roundsOf_flatten, hcontracts, ← List.flatMap_def, List.flatMap_singleton']
    rw [hrounds', List.map_map]
    exact hrounds.keys j
  · exact (hcalls j).trans ((hpre j).map _)
  · obtain ⟨rest, hrest⟩ := hrounds.sent j
    rw [(hstate d j).1, ← hrest,
      List.take_append_of_le_length (by rwa [List.length_map, ← hlength]),
      ← List.map_take, ← List.map_take, List.map_map]
    rfl
  · obtain ⟨d, hd, hshown, hsent⟩ := hrounds.display hlinked i
    exact ⟨d, hlength ▸ hd, hshown.trans (hstate d i).2.symm, hsent⟩

end Network

end DiningCrypto
