import DiningCrypto.ClientLoop

/-!
# Shutting a client down

The server sends `SHUTDOWN` from another thread, so that it can stand anywhere in a client's
stream: after any number of complete rounds, and after any part of a round. The loop leaves
on reading it at one of its three reads only, the one that follows the keyset. At the other
two the object is cast to a `KeySet` or to a list, and the `ClassCastException` is not the
exception that `getKeySet` catches; so the comment there, that a message in place of the
keyset ends the loop, is not what happens.

`left_on_shutdown_iff` says when a loop leaves, for both loops at once: exactly when
`SHUTDOWN` follows a keyset, unless the loop has ended before, because the buffer was polled
after its last slot (which takes 20 strings, `DiningLoop.polls_isSome`) or a result list could
not be taken. A `SimpleLoop` is also meant to leave when a result list holds `SHUTDOWN`, which
it never does.
-/

namespace DiningCrypto

namespace ClientLoop

/-- What the server sends to a client in one round. -/
structure Served : Type where
  keys : KeySet
  results : List Message

/-- The objects of the round, in order. -/
def Served.objects (r : Served) : List Object :=
  [.keySet r.keys, .message ⟨CommunicationProtocol.START_ROUND⟩, .results r.results]

/-- The parts of a round that a stream can break off after. -/
theorem Served.parts {r : Served} {part : List Object} (hpart : part <+: r.objects) :
    part = [] ∨ part = [.keySet r.keys] ∨
      part = [.keySet r.keys, .message ⟨CommunicationProtocol.START_ROUND⟩] ∨
      part = r.objects := by
  rw [Served.objects] at hpart ⊢
  rcases List.prefix_cons_iff.mp hpart with rfl | ⟨_, rfl, hpart₁⟩
  · exact .inl rfl
  rcases List.prefix_cons_iff.mp hpart₁ with rfl | ⟨_, rfl, hpart₂⟩
  · exact .inr (.inl rfl)
  rcases List.prefix_cons_iff.mp hpart₂ with rfl | ⟨_, rfl, hpart₃⟩
  · exact .inr (.inr (.inl rfl))
  obtain rfl := List.prefix_nil.mp hpart₃
  exact .inr (.inr (.inr rfl))

/-- The `SHUTDOWN` message. -/
def shutdownMessage : Object := .message ⟨CommunicationProtocol.SHUTDOWN⟩

variable {ι γ ρ δ : Type} {body : LoopBody ι γ ρ δ} {c : Client ι γ δ} {es es' : List Arrival}
  {o : Object} {os : List Object}

/-- One event at the input side alone: a string is submitted, or the start of a round polls
it. -/
def poll (body : LoopBody ι γ ρ δ) (input : ι) : Arrival → Option ι
  | .submit str => some (body.inputString input str)
  | .read (.message m) =>
    if m.message = CommunicationProtocol.START_ROUND then (body.next input).map Prod.snd
    else some input
  | .read _ => some input

/-- The input side over a stretch of the client's life. `none`: a poll has thrown. -/
def polls (body : LoopBody ι γ ρ δ) : ι → List Arrival → Option ι
  | input, [] => some input
  | input, e :: es => (poll body input e).bind fun input => polls body input es

/-- A result list the loop can take. -/
def Accepts (body : LoopBody ι γ ρ δ) (l : List Message) : Prop :=
  body.check l = none ∧ (body.collate l).isSome

/-- Ended, and not over `SHUTDOWN`. -/
def Failed (p : Point) : Prop := ∃ e, p = .ended e ∧ e ≠ .shutdown

/-! ## Reading through a stream -/

theorem run_cons (c : Client ι γ δ) (e : Arrival) (es : List Arrival) :
    run body c (e :: es) = run body (handle body c e) es := rfl

theorem run_append (c : Client ι γ δ) (es es' : List Arrival) :
    run body c (es ++ es') = run body (run body c es) es' := List.foldl_append ..

/-- A loop that has ended stays so. -/
theorem run_ended {e : Ending} (hp : c.point = .ended e) (es : List Arrival) :
    (run body c es).point = .ended e := by
  induction es generalizing c with
  | nil => exact hp
  | cons ev es ih =>
    rw [run_cons]
    apply ih
    cases ev with
    | submit str => exact hp
    | read o =>
      rw [handle, deliver_ended hp]
      exact hp

/-- The next object of the stream is read after the strings submitted before it. -/
theorem run_next (body : LoopBody ι γ ρ δ) (c : Client ι γ δ) (hs : stream es = o :: os) :
    ∃ (c₁ : Client ι γ δ) (es₁ : List Arrival), c₁.point = c.point ∧ stream es₁ = os ∧
      run body c es = run body (deliver body c₁ o) es₁ ∧
      polls body c.input es =
        (poll body c₁.input (.read o)).bind fun input => polls body input es₁ := by
  induction es generalizing c with
  | nil => cases hs
  | cons e es ih =>
    cases e with
    | read o' =>
      obtain ⟨rfl, hos⟩ := List.cons.inj hs
      exact ⟨c, es, rfl, hos, rfl, rfl⟩
    | submit str =>
      obtain ⟨c₁, es₁, hp, hos, hrun, hpolls⟩ :=
        ih { c with input := body.inputString c.input str } hs
      exact ⟨c₁, es₁, hp, hos, hrun, hpolls⟩

/-- Without a read there is no poll. -/
theorem polls_quiet {input : ι} (hs : stream es = []) : (polls body input es).isSome := by
  induction es generalizing input with
  | nil => rfl
  | cons e es ih =>
    cases e with
    | read o => cases hs
    | submit str => exact ih hs

/-- The strings submitted. -/
def submissions (es : List Arrival) : List JString :=
  es.filterMap fun
    | .read _ => none
    | .submit str => some str

/-- An input side in the state `F` can be polled, and stays in it. -/
def Pollable (body : LoopBody ι γ ρ δ) (F : ι → Prop) : Prop :=
  ∀ input, F input → ∃ x input', body.next input = some (x, input') ∧ F input'

/-- No poll throws while there is a free slot: `F k` says of an input side that `k` strings
can still be submitted to it. -/
theorem polls_of_free {F : ℕ → ι → Prop}
    (hsubmit : ∀ k input str, F (k + 1) input → F k (body.inputString input str))
    (hnext : ∀ k, Pollable body (F (k + 1)))
    {k : ℕ} {input : ι} (hfree : F k input) (hfew : (submissions es).length < k) :
    (polls body input es).isSome := by
  induction es generalizing k input with
  | nil => rfl
  | cons e es ih =>
    obtain ⟨k, rfl⟩ := Nat.exists_eq_add_one_of_ne_zero (Nat.ne_zero_of_lt hfew)
    cases e with
    | submit str =>
      exact ih (hsubmit k input str hfree) (Nat.lt_of_succ_lt_succ hfew)
    | read o =>
      have hpoll : ∃ input', poll body input (.read o) = some input' ∧ F (k + 1) input' := by
        cases o with
        | message m =>
          rw [poll]
          by_cases hstart : m.message = CommunicationProtocol.START_ROUND
          · obtain ⟨x, input', hx, hfree'⟩ := hnext k input hfree
            exact ⟨input', by rw [if_pos hstart, hx]; rfl, hfree'⟩
          · exact ⟨input, if_neg hstart, hfree⟩
        | keySet keys => exact ⟨input, rfl, hfree⟩
        | results l => exact ⟨input, rfl, hfree⟩
      obtain ⟨input', heq, hfree'⟩ := hpoll
      rw [polls, heq]
      exact ih hfree' hfew

/-! ## Complete rounds -/

/-- The loop gets from `c` to `c'`, which stands at `p`; of what happens, `es'` is left, with
the objects `os` still to be read. -/
structure Reaches (body : LoopBody ι γ ρ δ) (c : Client ι γ δ) (es : List Arrival) (p : Point)
    (os : List Object) (c' : Client ι γ δ) (es' : List Arrival) : Prop where
  point : c'.point = p
  stream : stream es' = os
  run : run body c es = run body c' es'
  polls : polls body c.input es = polls body c'.input es'

theorem Reaches.trans {p p' : Point} {os' : List Object} {c' c'' : Client ι γ δ}
    {es'' : List Arrival} (h : Reaches body c es p os c' es')
    (h' : Reaches body c' es' p' os' c'' es'') : Reaches body c es p' os' c'' es'' where
  point := h'.point
  stream := h'.stream
  run := h.run.trans h'.run
  polls := h.polls.trans h'.polls

/-- The keyset. -/
theorem run_keySet (body : LoopBody ι γ ρ δ) {keys : KeySet} (hp : c.point = .receiveKeySet)
    (hs : stream es = .keySet keys :: os) :
    ∃ c' es', Reaches body c es (.receiveMessage keys) os c' es' := by
  obtain ⟨c₁, es₁, hp₁, hs₁, hrun, hpolls⟩ := run_next body c hs
  rw [deliver_keySet (hp₁.trans hp)] at hrun
  exact ⟨_, es₁, rfl, hs₁, hrun, hpolls⟩

/-- The start of the round: the loop gets past it, or ends because the poll throws. -/
theorem run_startRound {keys : KeySet} (hp : c.point = .receiveMessage keys)
    (hs : stream es = .message ⟨CommunicationProtocol.START_ROUND⟩ :: os) :
    (∃ c' es', Reaches body c es .receiveRoundResults os c' es') ∨
      (Failed (run body c es).point ∧ polls body c.input es = none) := by
  obtain ⟨c₁, es₁, hp₁, hs₁, hrun, hpolls⟩ := run_next body c hs
  rw [poll, if_pos rfl] at hpolls
  rcases hnext : body.next c₁.input with _ | ⟨x, input⟩
  · right
    rw [hnext] at hpolls
    refine ⟨⟨.threw .ArrayIndexOutOfBoundsException, ?_, by decide⟩, hpolls⟩
    rw [hrun]
    exact run_ended (deliver_startRound_of_next (hp₁.trans hp) hnext) es₁
  · left
    rw [hnext] at hpolls
    rw [deliver_startRound (hp₁.trans hp) hnext] at hrun
    exact ⟨_, es₁, rfl, hs₁, hrun, hpolls⟩

/-- The result list: the loop gets past it, or ends because it cannot be taken. -/
theorem run_results (hcheck : ∀ l, body.check l ≠ some .shutdown) {l : List Message}
    (hp : c.point = .receiveRoundResults) (hs : stream es = .results l :: os) :
    (Accepts body l ∧ ∃ c' es', Reaches body c es .receiveKeySet os c' es') ∨
      (Failed (run body c es).point ∧ ¬ Accepts body l) := by
  obtain ⟨c₁, es₁, hp₁, hs₁, hrun, hpolls⟩ := run_next body c hs
  rcases hc : body.check l with _ | e
  · rcases hread : body.collate l with _ | result
    · right
      refine ⟨⟨.threw .NumberFormatException, ?_, by decide⟩, fun h => ?_⟩
      · rw [hrun]
        exact run_ended (deliver_results_of_collate (hp₁.trans hp) hc hread) es₁
      · rw [Accepts, hread] at h
        cases h.2
    · left
      rw [deliver_results (hp₁.trans hp) hc hread] at hrun
      exact ⟨⟨hc, by rw [hread]; rfl⟩, _, es₁, rfl, hs₁, hrun, hpolls⟩
  · right
    refine ⟨⟨e, ?_, fun he => hcheck l (he ▸ hc)⟩, fun h => ?_⟩
    · rw [hrun]
      exact run_ended (deliver_results_of_check (hp₁.trans hp) hc) es₁
    · rw [Accepts, hc] at h
      cases h.1

/-- One round: the loop gets past it, or ends because a poll throws or the result list cannot
be taken. -/
theorem run_objects (hcheck : ∀ l, body.check l ≠ some .shutdown) {r : Served}
    (hp : c.point = .receiveKeySet) (hs : stream es = r.objects ++ os) :
    (Accepts body r.results ∧ ∃ c' es', Reaches body c es .receiveKeySet os c' es') ∨
      (Failed (run body c es).point ∧
        ¬ (Accepts body r.results ∧ (polls body c.input es).isSome)) := by
  obtain ⟨c₁, es₁, h₁⟩ := run_keySet body hp hs
  rcases run_startRound h₁.point h₁.stream with ⟨c₂, es₂, h₂⟩ | ⟨hfail, hthrown⟩
  · rcases run_results hcheck h₂.point h₂.stream with ⟨hr, c₃, es₃, h₃⟩ | ⟨hfail, hnot⟩
    · exact .inl ⟨hr, c₃, es₃, (h₁.trans h₂).trans h₃⟩
    · exact .inr ⟨(h₁.trans h₂).run ▸ hfail, fun h => hnot h.1⟩
  · refine .inr ⟨h₁.run ▸ hfail, fun h => ?_⟩
    rw [h₁.polls, hthrown] at h
    cases h.2

/-- Any number of rounds. -/
theorem run_rounds (hcheck : ∀ l, body.check l ≠ some .shutdown) {rounds : List Served}
    (hp : c.point = .receiveKeySet) (hs : stream es = rounds.flatMap Served.objects ++ os) :
    ((∀ r ∈ rounds, Accepts body r.results) ∧
        ∃ c' es', Reaches body c es .receiveKeySet os c' es') ∨
      (Failed (run body c es).point ∧
        ¬ ((∀ r ∈ rounds, Accepts body r.results) ∧ (polls body c.input es).isSome)) := by
  induction rounds generalizing c es with
  | nil => exact .inl ⟨nofun, c, es, hp, hs, rfl, rfl⟩
  | cons r rounds ih =>
    rw [List.flatMap_cons, List.append_assoc] at hs
    rcases run_objects hcheck hp hs with ⟨hr, c₁, es₁, h₁⟩ | ⟨hfail, hnot⟩
    · rcases ih h₁.point h₁.stream with ⟨hall, c₂, es₂, h₂⟩ | ⟨hfail, hnot⟩
      · exact .inl ⟨List.forall_mem_cons.mpr ⟨hr, hall⟩, c₂, es₂, h₁.trans h₂⟩
      · refine .inr ⟨h₁.run ▸ hfail, fun h => hnot ?_⟩
        exact ⟨(List.forall_mem_cons.mp h.1).2, h₁.polls ▸ h.2⟩
    · exact .inr ⟨hfail, fun h => hnot ⟨(List.forall_mem_cons.mp h.1).1, h.2⟩⟩

/-! ## The last part of the stream -/

/-- The loop ends at the read that finds `SHUTDOWN`. -/
theorem run_over {p : Point} {e : Ending} (hp : c.point = p)
    (he : receive body p shutdownMessage = some (.ended e))
    (hs : stream es = shutdownMessage :: os) : (run body c es).point = .ended e := by
  obtain ⟨c₁, es₁, hp₁, -, hrun, -⟩ := run_next body c hs
  rw [hrun]
  exact run_ended (by simp only [deliver, hp₁.trans hp, he, act]) es₁

theorem receive_shutdown (keys : KeySet) :
    receive body (.receiveMessage keys) shutdownMessage = some (.ended .shutdown) := by
  rw [shutdownMessage, receive]
  exact (if_neg (by decide)).trans (if_pos rfl)

/-- `SHUTDOWN` in place of a keyset. -/
theorem run_tail_keySet (hp : c.point = .receiveKeySet) (hs : stream es = [shutdownMessage]) :
    (run body c es).point = .ended (.threw .ClassCastException) :=
  run_over hp rfl hs

/-- `SHUTDOWN` after a keyset. -/
theorem run_tail_message (keys : KeySet) (hp : c.point = .receiveKeySet)
    (hs : stream es = [.keySet keys, shutdownMessage]) :
    (run body c es).point = .ended .shutdown ∧ (polls body c.input es).isSome := by
  obtain ⟨c₁, es₁, h₁⟩ := run_keySet body hp hs
  obtain ⟨c₂, es₂, -, hs₂, -, hpolls⟩ := run_next body c₁ h₁.stream
  constructor
  · rw [h₁.run]
    exact run_over h₁.point (receive_shutdown keys) h₁.stream
  · rw [h₁.polls, hpolls, shutdownMessage, poll, if_neg (by decide), Option.bind_some]
    exact polls_quiet hs₂

/-- `SHUTDOWN` in place of a result list. -/
theorem run_tail_results (keys : KeySet) (hp : c.point = .receiveKeySet)
    (hs : stream es =
      [.keySet keys, .message ⟨CommunicationProtocol.START_ROUND⟩, shutdownMessage]) :
    Failed (run body c es).point := by
  obtain ⟨c₁, es₁, h₁⟩ := run_keySet body hp hs
  rw [h₁.run]
  rcases run_startRound h₁.point h₁.stream with ⟨c₂, es₂, h₂⟩ | ⟨hfail, -⟩
  · rw [h₂.run]
    exact ⟨.threw .ClassCastException, run_over h₂.point rfl h₂.stream, by decide⟩
  · exact hfail

/-- `SHUTDOWN` after a part of a round: the loop leaves if that part is the keyset alone. -/
theorem run_tail (hcheck : ∀ l, body.check l ≠ some .shutdown) {r : Served}
    {part : List Object} (hpart : part <+: r.objects) (hp : c.point = .receiveKeySet)
    (hs : stream es = part ++ [shutdownMessage]) :
    ((run body c es).point = .ended .shutdown ↔ part.length = 1) ∧
      (part.length = 1 → (polls body c.input es).isSome) := by
  have failed : ∀ {p : Point}, Failed p → part.length ≠ 1 →
      ((p = .ended .shutdown ↔ part.length = 1) ∧
        (part.length = 1 → (polls body c.input es).isSome)) := by
    rintro p ⟨e, rfl, he⟩ hlen
    exact ⟨⟨fun h => absurd (Point.ended.inj h) he, fun h => absurd h hlen⟩,
      fun h => absurd h hlen⟩
  rcases Served.parts hpart with rfl | rfl | rfl | rfl
  · exact failed ⟨_, run_tail_keySet hp hs, nofun⟩ nofun
  · obtain ⟨hpoint, hpolls⟩ := run_tail_message r.keys hp hs
    exact ⟨⟨fun _ => rfl, fun _ => hpoint⟩, fun _ => hpolls⟩
  · exact failed (run_tail_results r.keys hp hs) nofun
  · -- a whole round: `SHUTDOWN` stands in place of the next keyset
    rcases run_objects hcheck hp hs with ⟨-, c₁, es₁, h₁⟩ | ⟨hfail, -⟩
    · refine failed ⟨.threw .ClassCastException, ?_, nofun⟩ nofun
      rw [h₁.run]
      exact run_tail_keySet h₁.point h₁.stream
    · exact failed hfail nofun

/-- **When a loop leaves on `SHUTDOWN`**: exactly when it stands right after a keyset, and the
loop has got that far. -/
theorem left_on_shutdown_iff (hcheck : ∀ l, body.check l ≠ some .shutdown)
    {rounds : List Served} {r : Served} {part : List Object} (hpart : part <+: r.objects)
    (hp : c.point = .receiveKeySet)
    (hs : stream es = rounds.flatMap Served.objects ++ (part ++ [shutdownMessage])) :
    (run body c es).point = .ended .shutdown ↔
      part.length = 1 ∧ (polls body c.input es).isSome ∧
        ∀ r ∈ rounds, Accepts body r.results := by
  rcases run_rounds hcheck hp hs with ⟨hall, c₁, es₁, h₁⟩ | ⟨⟨e, hpoint, he⟩, hnot⟩
  · obtain ⟨hiff, hpolls⟩ := run_tail hcheck hpart h₁.point h₁.stream
    rw [h₁.run, hiff, h₁.polls]
    exact ⟨fun h => ⟨h, hpolls h, hall⟩, fun h => h.1⟩
  · rw [hpoint]
    exact ⟨fun h => absurd (Point.ended.inj h) he, fun h => absurd ⟨h.2.2, h.2.1⟩ hnot⟩

/-! ## Only `SHUTDOWN` shuts a loop down -/

theorem act_ne_shutdown {c' : Client ι γ δ} {sent : Option Message}
    (h : act body c = some (sent, c')) : c'.point ≠ .ended .shutdown := by
  intro hp
  obtain ⟨u, hu⟩ := act_ended h hp
  cases hu

theorem eq_of_receive_shutdown (hcheck : ∀ l, body.check l ≠ some .shutdown) {p : Point}
    (h : receive body p o = some (.ended .shutdown)) : o = shutdownMessage := by
  rcases receive_ended h with ⟨rfl, -⟩ | ⟨m, -, -, he⟩ | ⟨l, -, hc⟩ | he
  · rfl
  · cases he
  · exact absurd hc (hcheck l)
  · cases he

/-- A loop that ends over `SHUTDOWN` has read it. -/
theorem shutdown_mem_stream (hcheck : ∀ l, body.check l ≠ some .shutdown)
    (hp : c.point ≠ .ended .shutdown) (h : (run body c es).point = .ended .shutdown) :
    shutdownMessage ∈ stream es := by
  induction es generalizing c with
  | nil => exact absurd h hp
  | cons e es ih =>
    cases e with
    | submit str => exact ih (c := { c with input := body.inputString c.input str }) hp h
    | read o =>
      rw [run_cons] at h
      -- either this read ends the loop, or a later one does
      by_cases hd : (deliver body c o).point = .ended .shutdown
      · refine List.mem_cons.mpr (.inl (Eq.symm ?_))
        unfold deliver at hd
        rcases hr : receive body c.point o with _ | p
        · simp only [hr] at hd
          exact absurd hd hp
        · rcases ha : act body { c with point := p } with _ | ⟨sent, c'⟩
          · simp only [hr, ha] at hd
            exact eq_of_receive_shutdown hcheck (hd ▸ hr)
          · simp only [hr, ha] at hd
            exact absurd hd (act_ne_shutdown ha)
      · exact List.mem_cons_of_mem _ (ih hd h)

/-! ## Where the objects of a stream stand -/

@[simp] theorem stream_append (es es' : List Arrival) :
    stream (es ++ es') = stream es ++ stream es' := List.filterMap_append ..

@[simp] theorem stream_read (o : Object) (es : List Arrival) :
    stream (.read o :: es) = o :: stream es := rfl

/-- An object of the stream has been read at some point. -/
theorem read_of_mem_stream (h : o ∈ stream es) : ∃ es₁ es₂, es = es₁ ++ .read o :: es₂ := by
  obtain ⟨e, he, heq⟩ := List.mem_filterMap.mp h
  cases e with
  | submit str => cases heq
  | read o' =>
    obtain rfl := Option.some.inj heq
    exact List.append_of_mem he

theorem Served.shutdown_notMem_objects (r : Served) : shutdownMessage ∉ r.objects := by
  rw [Served.objects, shutdownMessage]
  simp only [List.mem_cons, List.not_mem_nil, reduceCtorEq, Object.message.injEq,
    Message.mk.injEq, false_or, or_false]
  decide

theorem Served.results_mem_objects {r : Served} {l : List Message} :
    Object.results l ∈ r.objects ↔ l = r.results := by
  simp only [Served.objects, List.mem_cons, List.not_mem_nil, reduceCtorEq,
    Object.results.injEq, false_or, or_false]

/-- Before an object in the stream there is no `SHUTDOWN`, when the only one stands at the
end. -/
theorem shutdown_notMem_before {rounds : List Served} {r : Served} {part : List Object}
    (hpart : part <+: r.objects) {before after : List Object}
    (hs : before ++ o :: after = rounds.flatMap Served.objects ++ (part ++ [shutdownMessage])) :
    shutdownMessage ∉ before := by
  intro hmem
  have hdrop : before ++ (o :: after).dropLast = rounds.flatMap Served.objects ++ part := by
    have := congrArg List.dropLast hs
    rwa [List.dropLast_append_of_ne_nil (List.cons_ne_nil _ _), ← List.append_assoc,
      List.dropLast_concat] at this
  have hin : shutdownMessage ∈ rounds.flatMap Served.objects ++ part :=
    hdrop ▸ List.mem_append_left _ hmem
  rcases List.mem_append.mp hin with h | h
  · obtain ⟨r', -, hr'⟩ := List.mem_flatMap.mp h
    exact r'.shutdown_notMem_objects hr'
  · exact r.shutdown_notMem_objects (hpart.subset h)

end ClientLoop

open ClientLoop

/-! ## The two loops -/

theorem DiningLoop.check_ne_shutdown (l : List Message) :
    DiningLoop.body.check l ≠ some .shutdown := by
  rw [DiningLoop.body]
  by_cases h : l.length = 0
  · simp only [if_pos h]
    nofun
  · simp only [if_neg h]
    nofun

/-- The result lists a `DiningLoop` can take: not empty, and every message a number. -/
theorem DiningLoop.accepts_iff {l : List Message} :
    Accepts DiningLoop.body l ↔ l ≠ [] ∧ (DiningLoop.collate l).isSome := by
  apply and_congr_left'
  simp only [DiningLoop.body, ite_eq_right_iff, reduceCtorEq, imp_false, ne_eq,
    List.length_eq_zero_iff]

theorem SimpleLoop.check_ne_shutdown (l : List Message) :
    SimpleLoop.body.check l ≠ some .shutdown := by
  rw [show SimpleLoop.body.check l = none from SimpleLoop.check_eq_none l]
  nofun

theorem SimpleLoop.accepts (l : List Message) : Accepts SimpleLoop.body l :=
  ⟨SimpleLoop.check_eq_none l, rfl⟩

/-- `k` strings can still be submitted to the loop. -/
def DiningLoop.Free (k : ℕ) (loop : DiningLoop) : Prop :=
  ∃ cursor, loop.Represents cursor ∧ loop.inputBuf.writePosition + k = 20

theorem DiningLoop.free_new : Free 20 new := ⟨_, represents_new, rfl⟩

theorem DiningLoop.free_inputString (k : ℕ) (loop : DiningLoop) (str : JString)
    (h : Free (k + 1) loop) : Free k (DiningLoop.body.inputString loop str) := by
  obtain ⟨cursor, hrep, hslots⟩ := h
  obtain ⟨hrep', hpos⟩ := inputString_spec hrep (by omega) str
  exact ⟨_, hrep', by rw [DiningLoop.body, hpos]; omega⟩

theorem DiningLoop.free_next (k : ℕ) : Pollable DiningLoop.body (Free (k + 1)) := by
  rintro loop ⟨cursor, hrep, hslots⟩
  obtain ⟨loop', hget, hrep', hpos⟩ := getNextChar_spec hrep (by omega)
  exact ⟨_, loop', hget, _, hrep', by omega⟩

/-- With fewer than 20 strings submitted, no poll throws. -/
theorem DiningLoop.polls_isSome {es : List Arrival} (hfew : (submissions es).length < 20) :
    (polls DiningLoop.body DiningLoop.new es).isSome :=
  polls_of_free free_inputString free_next free_new hfew

/-- With fewer than 20 strings submitted, no poll throws. -/
theorem SimpleLoop.polls_isSome {es : List Arrival} (hfew : (submissions es).length < 20) :
    (polls SimpleLoop.body SimpleLoop.new es).isSome := by
  refine polls_of_free
    (F := fun k loop => ∃ unread, loop.inputBuf.Holds 20 unread ∧
      loop.inputBuf.writePosition + k = 20)
    ?_ ?_ ⟨_, StrBuffer.holds_new 20, rfl⟩ hfew
  · rintro k loop str ⟨unread, hholds, hslots⟩
    obtain ⟨buf, hadd, hholds', hpos⟩ := hholds.add (by omega) str
    have hinput : SimpleLoop.body.inputString loop str = ⟨buf⟩ := by
      simp only [SimpleLoop.body, SimpleLoop.inputString, hadd]
    rw [hinput]
    exact ⟨_, hholds', by simp only [hpos]; omega⟩
  · rintro k loop ⟨unread, hholds, hslots⟩
    rcases unread with _ | ⟨str, unread⟩
    · refine ⟨none, loop, ?_, [], hholds, hslots⟩
      simp only [SimpleLoop.body, hholds.next_nil (by omega), Option.map_some]
    · obtain ⟨buf, hnext, hholds', hpos⟩ := hholds.next_cons
      refine ⟨some str, ⟨buf⟩, ?_, unread, hholds', by simp only [hpos]; omega⟩
      simp only [SimpleLoop.body, hnext, Option.map_some]

/-- What is asked of a `SimpleLoop`: it leaves on `SHUTDOWN`, and it has ended when it has read
a result list that holds `SHUTDOWN` at some position. -/
def SimpleLoop.LeavesOnShutdown (es : List Arrival) : Prop :=
  (ClientLoop.run SimpleLoop.body SimpleLoop.client es).point = .ended .shutdown ∧
    ∀ (es₁ : List Arrival) (l : List Message) (es₂ : List Arrival),
      es = es₁ ++ .read (.results l) :: es₂ →
      (∃ m ∈ l, m.message = CommunicationProtocol.SHUTDOWN) →
      ∃ e, (ClientLoop.run SimpleLoop.body SimpleLoop.client
        (es₁ ++ [.read (.results l)])).point = .ended e

section Streams

variable {es : List Arrival} {rounds : List Served} {r : Served} {part : List Object}

/-- A `SimpleLoop` that reads a result list with `SHUTDOWN` in it does not end there, so it
has not done what is asked of it. -/
theorem SimpleLoop.results_ne_of_leaves (hpart : part <+: r.objects)
    (hs : stream es = rounds.flatMap Served.objects ++ (part ++ [shutdownMessage]))
    (hleaves : SimpleLoop.LeavesOnShutdown es) :
    ∀ r ∈ rounds, ∀ m ∈ r.results, m.message ≠ CommunicationProtocol.SHUTDOWN := by
  intro r' hr' m hm hshut
  obtain ⟨hpoint, hlists⟩ := hleaves
  have hmem : Object.results r'.results ∈ stream es := by
    rw [hs]
    exact List.mem_append_left _
      (List.mem_flatMap.mpr ⟨r', hr', Served.results_mem_objects.mpr rfl⟩)
  obtain ⟨es₁, es₂, rfl⟩ := read_of_mem_stream hmem
  -- having ended there, the loop must have ended over a `SHUTDOWN` before
  obtain ⟨e, he⟩ := hlists es₁ _ es₂ rfl ⟨m, hm, hshut⟩
  obtain rfl : e = .shutdown := by
    rw [List.append_cons, ClientLoop.run_append, run_ended he] at hpoint
    exact Point.ended.inj hpoint
  have hstart : SimpleLoop.client.point ≠ .ended .shutdown := by
    intro hended
    cases hended
  have hbefore := shutdown_mem_stream SimpleLoop.check_ne_shutdown hstart he
  rw [stream_append, stream_read] at hs hbefore
  rcases List.mem_append.mp hbefore with h | h
  · exact shutdown_notMem_before hpart hs h
  · cases List.mem_singleton.mp h

/-- When no result list of a complete round holds `SHUTDOWN`, none on the stream does. -/
theorem results_ne_of_mem_stream (hpart : part <+: r.objects) (hlen : part.length = 1)
    (hs : stream es = rounds.flatMap Served.objects ++ (part ++ [shutdownMessage]))
    (hnone : ∀ r ∈ rounds, ∀ m ∈ r.results, m.message ≠ CommunicationProtocol.SHUTDOWN)
    {l : List Message} (hl : Object.results l ∈ stream es) :
    ∀ m ∈ l, m.message ≠ CommunicationProtocol.SHUTDOWN := by
  rw [hs] at hl
  rcases List.mem_append.mp hl with h | h
  · obtain ⟨r', hr', hmem⟩ := List.mem_flatMap.mp h
    rw [Served.results_mem_objects.mp hmem]
    exact hnone r' hr'
  · -- the part is a keyset
    obtain ⟨o, rfl⟩ := List.length_eq_one_iff.mp hlen
    obtain ⟨rfl, -⟩ := List.cons_prefix_cons.mp hpart
    rcases List.mem_cons.mp h with h | h
    · cases h
    · cases List.mem_singleton.mp h

end Streams

/-- **Shutting a client down.** On a stream of complete rounds, a part of a round and
`SHUTDOWN`, a `DiningLoop` leaves on reading it exactly when the part is the keyset alone, no
poll of the buffer throws, and the result lists before are not empty and hold numbers. A
`SimpleLoop` does what is asked of it exactly when the part is the keyset alone, no poll
throws, and no result list holds `SHUTDOWN`. -/
theorem leaves_on_shutdown_iff {es : List Arrival} {rounds : List Served} {r : Served}
    {part : List Object} (hpart : part <+: r.objects)
    (hs : stream es = rounds.flatMap Served.objects ++ (part ++ [shutdownMessage])) :
    ((ClientLoop.run DiningLoop.body DiningLoop.client es).point = .ended .shutdown ↔
      part.length = 1 ∧ (polls DiningLoop.body DiningLoop.new es).isSome ∧
        ∀ r ∈ rounds, r.results ≠ [] ∧ (DiningLoop.collate r.results).isSome) ∧
    (SimpleLoop.LeavesOnShutdown es ↔
      part.length = 1 ∧ (polls SimpleLoop.body SimpleLoop.new es).isSome ∧
        ∀ r ∈ rounds, ∀ m ∈ r.results, m.message ≠ CommunicationProtocol.SHUTDOWN) := by
  constructor
  · simp only [← DiningLoop.accepts_iff]
    exact left_on_shutdown_iff DiningLoop.check_ne_shutdown hpart rfl hs
  have hleft := left_on_shutdown_iff (c := SimpleLoop.client) SimpleLoop.check_ne_shutdown
    hpart rfl hs
  constructor
  · intro hleaves
    obtain ⟨hlen, hpolls, -⟩ := hleft.mp hleaves.1
    exact ⟨hlen, hpolls, SimpleLoop.results_ne_of_leaves hpart hs hleaves⟩
  · rintro ⟨hlen, hpolls, hnone⟩
    refine ⟨hleft.mpr ⟨hlen, hpolls, fun r _ => SimpleLoop.accepts _⟩, ?_⟩
    rintro es₁ l es₂ rfl ⟨m, hm, hshut⟩
    refine absurd hshut (results_ne_of_mem_stream hpart hlen hs hnone ?_ m hm)
    rw [stream_append, stream_read]
    exact List.mem_append_right _ (List.mem_cons_self ..)

/-- A keyset, a submitted string, and `SHUTDOWN`. -/
theorem leaves_on_shutdown_afterKeySet :
    let es : List Arrival :=
      [.read (.keySet KeySet.empty), .submit (lit "hi"), .read shutdownMessage]
    (ClientLoop.run DiningLoop.body DiningLoop.client es).point = .ended .shutdown ∧
      SimpleLoop.LeavesOnShutdown es := by
  have h := @leaves_on_shutdown_iff
    [.read (.keySet KeySet.empty), .submit (lit "hi"), .read shutdownMessage] []
    ⟨KeySet.empty, []⟩ [.keySet KeySet.empty] (List.prefix_append [_] _) rfl
  exact ⟨h.1.mpr ⟨rfl, rfl, nofun⟩, h.2.mpr ⟨rfl, rfl, nofun⟩⟩

/-- `SHUTDOWN` in place of a keyset is an uncaught exception, and a `SimpleLoop` that reads a
result list with `SHUTDOWN` in it goes on to the next round. -/
theorem not_left_on_shutdown :
    (ClientLoop.run DiningLoop.body DiningLoop.client [.read shutdownMessage]).point =
        .ended (.threw .ClassCastException) ∧
      (ClientLoop.run SimpleLoop.body SimpleLoop.client
        [.read (.keySet KeySet.empty),
          .read (.message ⟨CommunicationProtocol.START_ROUND⟩),
          .read (.results [⟨CommunicationProtocol.SHUTDOWN⟩])]).point = .receiveKeySet :=
  ⟨rfl, rfl⟩

end DiningCrypto
