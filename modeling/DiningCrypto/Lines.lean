import DiningCrypto.Delivery
import DiningCrypto.Segments
import DiningCrypto.Transcript

/-!
# Lines of the display

Several clients send messages in turn, never two of them in one round. The display shows the
characters of a message on one line: `inMessageFlag` ends the line in the first round after it
in which nothing comes. That is the round in which the sender transmits the zero that
terminates the message, if the others are silent then. If another client transmits its first
character in just that round, nobody has collided, but no silence is seen, and two messages
share a line.

`marksOf` records where the characters on the display come from: client, number of the message
among those submitted to it, or a newline of the display itself. `Attributed` ties this record
to the state of the clients: the text displayed is the text of the marks, and a message is open
at a client exactly if the last mark is one of its characters. `lines_iff` is the result: each
line holds the characters of one message exactly if, in every round in which a message ends,
nobody else transmits.
-/

namespace DiningCrypto

open DiningLoop

/-! ## What a client is about to transmit -/

namespace DiningLoop

/-- The character that `getNextChar` returns next. -/
def upcoming (loop : DiningLoop) : JChar := (loop.getNextChar.map Prod.fst).getD 0

/-- The number of the message it belongs to, among those submitted. -/
def upcomingMessage (loop : DiningLoop) : ℕ :=
  ((loop.getNextChar.map fun p => p.2.inputBuf.readPosition).getD 0) - 1

/-- The number of the message that is being sent. -/
def openMessage (loop : DiningLoop) : Option ℕ :=
  loop.currentMessage.map fun _ => loop.inputBuf.readPosition - 1

/-- The message that is being sent has been sent to its end; the terminating zero is next. -/
def Ends (loop : DiningLoop) : Prop :=
  ∃ message, loop.currentMessage = some message ∧ message.length ≤ loop.currentMessageIndex

instance : DecidablePred Ends := fun loop =>
  match h : loop.currentMessage with
  | some message =>
    decidable_of_iff (message.length ≤ loop.currentMessageIndex) (by simp [Ends, h])
  | none => isFalse (by simp [Ends, h])

/-- The fields of a loop to which the strings `ms` have been submitted. The read position counts
the messages opened. -/
structure Tracks (loop : DiningLoop) (ms : List JString) : Prop where
  buffer : loop.inputBuf.Holds 20 (ms.drop loop.inputBuf.readPosition)
  written : loop.inputBuf.writePosition = ms.length
  opened : ∀ message, loop.currentMessage = some message →
    0 < loop.inputBuf.readPosition ∧ ms[loop.inputBuf.readPosition - 1]? = some message ∧
      0 < loop.currentMessageIndex
  closed : loop.currentMessage = none → loop.currentMessageIndex = 0

variable {loop : DiningLoop} {ms : List JString}

theorem tracks_new : new.Tracks [] where
  buffer := StrBuffer.holds_new 20
  written := rfl
  opened := fun _ h => by cases h
  closed := fun _ => rfl

theorem Tracks.submit (h : loop.Tracks ms) (hlen : ms.length < 20) (str : JString) :
    (loop.inputString str).Tracks (ms ++ [str]) := by
  have hwrite := h.buffer.write_eq
  have hwritten := h.written
  obtain ⟨buf, hadd, hholds, hpos⟩ := h.buffer.add (by omega) str
  have hread : buf.readPosition = loop.inputBuf.readPosition := by
    have := hholds.write_eq
    simp only [List.length_append, List.length_drop, List.length_singleton] at this hwrite
    omega
  rw [inputString, hadd]
  refine ⟨?_, ?_, fun message hm => ?_, h.closed⟩
  · simp only [hread]
    rw [List.drop_append_of_le_length]
    · exact hholds
    · rw [List.length_drop] at hwrite
      omega
  · simp only [hpos, hwritten, List.length_append, List.length_singleton]
  · obtain ⟨hpositive, hget, hindex⟩ := h.opened message hm
    simp only [hread]
    exact ⟨hpositive, getElem?_of_append hget [str], hindex⟩

/-- `readMessage` on an open message: its next character, or its end. -/
theorem readMessage_cases (loop : DiningLoop) {message : JString}
    (hm : loop.currentMessage = some message) :
    (message.length ≤ loop.currentMessageIndex ∧
        readMessage loop = (0, { loop with currentMessage := none, currentMessageIndex := 0 })) ∨
      ∃ c, message[loop.currentMessageIndex]? = some c ∧
        readMessage loop =
          (c, { loop with currentMessageIndex := loop.currentMessageIndex + 1 }) := by
  rcases hget : message[loop.currentMessageIndex]? with _ | c
  · refine Or.inl ⟨List.getElem?_eq_none_iff.mp hget, ?_⟩
    simp only [readMessage, hm, hget]
  · refine Or.inr ⟨c, rfl, ?_⟩
    simp only [readMessage, hm, hget]

/-- Reading an open message. -/
theorem Tracks.readMessage (h : loop.inputBuf.Holds 20 (ms.drop loop.inputBuf.readPosition))
    (hwritten : loop.inputBuf.writePosition = ms.length) {message : JString}
    (hm : loop.currentMessage = some message) (hpositive : 0 < loop.inputBuf.readPosition)
    (hget : ms[loop.inputBuf.readPosition - 1]? = some message) :
    ∃ c loop', readMessage loop = (c, loop') ∧ loop'.Tracks ms ∧
      loop'.inputBuf = loop.inputBuf ∧
      (message.length ≤ loop.currentMessageIndex ∧ loop'.currentMessage = none ∧ c = 0 ∨
        loop.currentMessageIndex < message.length ∧ loop'.currentMessage = some message ∧
          c ∈ message) := by
  rcases readMessage_cases loop hm with ⟨hend, hread⟩ | ⟨c, hc, hread⟩
  · refine ⟨_, _, hread, ⟨h, hwritten, fun _ h => ?_, fun _ => rfl⟩, rfl,
      Or.inl ⟨hend, rfl, rfl⟩⟩
    cases h
  · obtain ⟨hlt, -⟩ := List.getElem?_eq_some_iff.mp hc
    refine ⟨_, _, hread, ⟨h, hwritten, fun message' hm' => ?_, fun hnone => ?_⟩, rfl,
      Or.inr ⟨hlt, hm, List.mem_of_getElem? hc⟩⟩
    · obtain rfl : message = message' := Option.some.inj (hm.symm.trans hm')
      exact ⟨hpositive, hget, Nat.succ_pos _⟩
    · simp only [hm] at hnone
      cases hnone

/-- One call of `getNextChar`: afterwards a message is open exactly if a character of it has been
returned, and a message that was open before is continued or ended. -/
theorem Tracks.getNextChar (h : loop.Tracks ms) (hlen : ms.length < 20) :
    ∃ c loop', loop.getNextChar = some (c, loop') ∧ loop'.Tracks ms ∧
      (loop'.currentMessage = none ∧ c = 0 ∨
        ∃ message, loop'.currentMessage = some message ∧ c ∈ message) ∧
      ∀ message, loop.currentMessage = some message → loop'.inputBuf = loop.inputBuf ∧
        (message.length ≤ loop.currentMessageIndex ↔ loop'.currentMessage = none) := by
  obtain ⟨buf, cur, index⟩ := loop
  have hwrite := h.buffer.write_eq
  have hwritten := h.written
  rcases cur with _ | message
  · obtain rfl : index = 0 := h.closed rfl
    have hbuffer := h.buffer
    rcases hq : ms.drop buf.readPosition with _ | ⟨str, unread⟩
    · -- nothing to send
      rw [hq] at hbuffer
      have hpoll := hbuffer.next_nil (by omega)
      refine ⟨0, ⟨buf, none, 0⟩, ?_, h, Or.inl ⟨rfl, rfl⟩, fun _ hm => by cases hm⟩
      simp only [DiningLoop.getNextChar, pollBuffer, hpoll]
      rfl
    · -- the poll opens the next message
      rw [hq] at hbuffer
      obtain ⟨buf', hpoll, hholds, hpos⟩ := hbuffer.next_cons
      have hread : buf'.readPosition = buf.readPosition + 1 := by
        have hbefore : buf.writePosition = buf.readPosition + (unread.length + 1) :=
          hbuffer.write_eq
        have hafter : buf.writePosition = buf'.readPosition + unread.length :=
          hpos.symm.trans hholds.write_eq
        omega
      have hunread : ms.drop buf'.readPosition = unread := by
        rw [hread, ← List.tail_drop, hq, List.tail_cons]
      have hget : ms[buf'.readPosition - 1]? = some str := by
        rw [hread, Nat.add_sub_cancel, ← List.head?_drop, hq, List.head?_cons]
      rw [← hunread] at hholds
      obtain ⟨c, loop', hret, htracks, -, hcase⟩ :=
        @Tracks.readMessage ⟨buf', some str, 0⟩ ms hholds (hpos.trans hwritten) str rfl
          (hread.symm ▸ Nat.succ_pos _) hget
      refine ⟨c, loop', ?_, htracks, ?_, fun _ hm => by cases hm⟩
      · simp only [DiningLoop.getNextChar, pollBuffer, hpoll, Option.map_some]
        exact congrArg some hret
      · rcases hcase with ⟨-, hclosed, hc⟩ | ⟨-, hopen, hc⟩
        · exact Or.inl ⟨hclosed, hc⟩
        · exact Or.inr ⟨str, hopen, hc⟩
  · -- a message is open
    obtain ⟨hpositive, hget, -⟩ := h.opened message rfl
    obtain ⟨c, loop', hret, htracks, hbuf, hcase⟩ :=
      Tracks.readMessage h.buffer hwritten rfl hpositive hget
    refine ⟨c, loop', ?_, htracks, ?_, fun message' hm => ⟨hbuf, ?_⟩⟩
    · simp only [DiningLoop.getNextChar, pollBuffer, Option.map_some]
      exact congrArg some hret
    · rcases hcase with ⟨-, hclosed, hc⟩ | ⟨-, hopen, hc⟩
      · exact Or.inl ⟨hclosed, hc⟩
      · exact Or.inr ⟨message, hopen, hc⟩
    · obtain rfl : message = message' := Option.some.inj hm
      rcases hcase with ⟨hend, hclosed, -⟩ | ⟨hlt, hopen, -⟩
      · exact iff_of_true hend hclosed
      · refine iff_of_false (Nat.not_le_of_lt hlt) ?_
        rw [hopen]
        exact Option.some_ne_none message

/-- **The next character** of a client whose messages are free of `U+0000`: it transmits exactly
if a message is open afterwards, and then a character of it; and if a message is open before,
silence is its end. -/
theorem Tracks.next (h : loop.Tracks ms) (hlen : ms.length < 20)
    (hzero : ∀ m ∈ ms, (0 : JChar) ∉ m) :
    ∃ loop', loop.getNextChar = some (loop.upcoming, loop') ∧ loop'.Tracks ms ∧
      loop'.openMessage = (if loop.upcoming = 0 then none else some loop.upcomingMessage) ∧
      (loop.upcoming ≠ 0 → ∃ m, ms[loop.upcomingMessage]? = some m ∧ loop.upcoming ∈ m) ∧
      ∀ k, loop.openMessage = some k →
        (loop.Ends ↔ loop.upcoming = 0) ∧ loop.upcomingMessage = k := by
  obtain ⟨c, loop', hnext, htracks, hcase, hopen⟩ := h.getNextChar hlen
  have hchar : loop.upcoming = c := by rw [upcoming, hnext]; rfl
  have hmessage : loop.upcomingMessage = loop'.inputBuf.readPosition - 1 := by
    rw [upcomingMessage, hnext]
    rfl
  have hafter : (loop'.currentMessage = none ↔ c = 0) ∧
      (c ≠ 0 → ∃ m, ms[loop.upcomingMessage]? = some m ∧ c ∈ m) := by
    rcases hcase with ⟨hclosed, hc⟩ | ⟨message, hopened, hc⟩
    · exact ⟨iff_of_true hclosed hc, fun hne => absurd hc hne⟩
    · have hget := (htracks.opened message hopened).2.1
      have hne : c ≠ 0 := fun h0 => hzero message (List.mem_of_getElem? hget) (h0 ▸ hc)
      refine ⟨iff_of_false ?_ hne, fun _ => ⟨message, hmessage ▸ hget, hc⟩⟩
      rw [hopened]
      exact Option.some_ne_none message
  refine ⟨loop', hchar ▸ hnext, htracks, ?_, hchar ▸ hafter.2, fun k hk => ?_⟩
  · rw [hchar, openMessage]
    by_cases h0 : c = 0
    · rw [if_pos h0, hafter.1.mpr h0, Option.map_none]
    · obtain ⟨message, hm⟩ := Option.ne_none_iff_exists'.mp (hafter.1.not.mpr h0)
      rw [if_neg h0, hm, Option.map_some, hmessage]
  · obtain ⟨message, hm, rfl⟩ := Option.map_eq_some_iff.mp hk
    obtain ⟨hbuf, hends⟩ := hopen message hm
    refine ⟨?_, by rw [hmessage, hbuf]⟩
    rw [hchar, ← hafter.1, ← hends, Ends, hm]
    simp only [Option.some.injEq, exists_eq_left']

/-- Submitting does not touch the message that is being sent. -/
@[simp] theorem openMessage_inputString (loop : DiningLoop) (str : JString) :
    (loop.inputString str).openMessage = loop.openMessage := by
  rw [inputString, StrBuffer.add]
  by_cases hw : loop.inputBuf.writePosition < loop.inputBuf.array.length
  · rw [if_pos hw]
    rfl
  · rw [if_neg hw]

/-- A message that ends is open. -/
theorem Ends.isSome (h : loop.Ends) : loop.openMessage.isSome := by
  obtain ⟨message, hm, -⟩ := h
  rw [openMessage, hm]
  rfl

end DiningLoop

/-! ## Marks -/

/-- What one piece of the displayed text is: a character of a message, or a newline that the
display adds. -/
inductive Mark (n : ℕ) : Type where
  | char (c : JChar) (client : Fin n) (message : ℕ)
  | newline
  deriving DecidableEq

namespace Mark

variable {n : ℕ}

/-- What is displayed. -/
def toChar : Mark n → JChar
  | .char c _ _ => c
  | .newline => JChar.ofChar '\n'

/-- Whose message it comes from, and which. -/
def origin : Mark n → Option (Fin n × ℕ)
  | .char _ client message => some (client, message)
  | .newline => none

/-- A newline in the text, from wherever. -/
def IsNewline (m : Mark n) : Prop := m.toChar = JChar.ofChar '\n'

end Mark

section Session

variable {n : ℕ}

/-- The origin of the last mark. -/
def lastOrigin (marks : List (Mark n)) : Option (Fin n × ℕ) := marks.getLast?.bind Mark.origin

/-- Each line of the text, up to a newline or to its end, holds characters of one message. -/
def OneMessagePerLine (marks : List (Mark n)) : Prop :=
  Segments.Uniform Mark.IsNewline Mark.origin marks

/-- The client that transmits in the next round. -/
def speaker (cs : Clients n) : Option (Fin n) :=
  (List.finRange n).find? fun i => (cs i).loop.upcoming ≠ 0

/-- What the next round adds to the text. -/
def markRound (cs : Clients n) (marks : List (Mark n)) : List (Mark n) :=
  match speaker cs with
  | some s => [.char (cs s).loop.upcoming s (cs s).loop.upcomingMessage]
  | none => if (lastOrigin marks).isSome then [.newline] else []

/-- The marks at the end of a session that goes on from `cs` with the text `marks`. -/
def marksFrom (cs : Clients n) (marks : List (Mark n)) : List (Event n) → List (Mark n)
  | [] => marks
  | .submit i str :: es =>
    match step cs (.submit i str) with
    | some cs' => marksFrom cs' marks es
    | none => marks
  | .round r :: es =>
    match step cs (.round r) with
    | some cs' => marksFrom cs' (marks ++ markRound cs marks) es
    | none => marks

/-- The marks of a whole session. -/
def marksOf (es : List (Event n)) : List (Mark n) := marksFrom (initialClients n) [] es

/-- No two clients transmit in the next round. -/
def NoCollision (cs : Clients n) : Prop :=
  ∀ i j, (cs i).loop.upcoming ≠ 0 → (cs j).loop.upcoming ≠ 0 → i = j

/-- If the next round is the one in which a client's message ends, no other client transmits in
it. -/
def Separated (cs : Clients n) : Prop :=
  ∀ i j, (cs i).loop.Ends → (cs j).loop.upcoming = 0

instance : DecidablePred (NoCollision (n := n)) := fun cs =>
  inferInstanceAs (Decidable (∀ i j, (cs i).loop.upcoming ≠ 0 → (cs j).loop.upcoming ≠ 0 → i = j))

instance : DecidablePred (Separated (n := n)) := fun cs =>
  inferInstanceAs (Decidable (∀ i j, (cs i).loop.Ends → (cs j).loop.upcoming = 0))

/-- `P` holds before every round of the session. -/
def AtRounds (P : Clients n → Prop) (cs : Clients n) (es : List (Event n)) : Prop :=
  ∀ pre r post cs', es = pre ++ .round r :: post → run cs pre = some cs' → P cs'

variable {cs cs' : Clients n} {ms : Fin n → List JString} {marks : List (Mark n)}
  {es : List (Event n)} {P : Clients n → Prop}

@[simp] theorem lastOrigin_concat (marks : List (Mark n)) (m : Mark n) :
    lastOrigin (marks ++ [m]) = m.origin := by
  simp [lastOrigin]

theorem atRounds_nil (P : Clients n → Prop) (cs : Clients n) : AtRounds P cs [] := by
  intro pre r post cs' hes
  exact absurd hes.symm (by simp)

theorem atRounds_submit {i : Fin n} {str : JString} (hstep : step cs (.submit i str) = some cs') :
    AtRounds P cs (.submit i str :: es) ↔ AtRounds P cs' es := by
  constructor
  · intro h pre r post cs'' hes hrun
    refine h (.submit i str :: pre) r post cs'' (by rw [hes]; rfl) ?_
    rw [run, hstep]
    exact hrun
  · intro h pre r post cs'' hes hrun
    rcases pre with _ | ⟨e, pre⟩
    · cases hes
    · obtain ⟨rfl, hes'⟩ := List.cons.inj hes
      rw [run, hstep] at hrun
      exact h pre r post cs'' hes' hrun

theorem atRounds_round {r : RoundContract n} (hstep : step cs (.round r) = some cs') :
    AtRounds P cs (.round r :: es) ↔ P cs ∧ AtRounds P cs' es := by
  constructor
  · intro h
    refine ⟨h [] r es cs rfl rfl, fun pre r' post cs'' hes hrun => ?_⟩
    refine h (.round r :: pre) r' post cs'' (by rw [hes]; rfl) ?_
    rw [run, hstep]
    exact hrun
  · rintro ⟨hfirst, h⟩ pre r' post cs'' hes hrun
    rcases pre with _ | ⟨e, pre⟩
    · obtain rfl : cs = cs'' := Option.some.inj hrun
      exact hfirst
    · obtain ⟨rfl, hes'⟩ := List.cons.inj hes
      rw [run, hstep] at hrun
      exact h pre r' post cs'' hes' hrun

theorem marksFrom_submit {i : Fin n} {str : JString}
    (hstep : step cs (.submit i str) = some cs') :
    marksFrom cs marks (.submit i str :: es) = marksFrom cs' marks es := by
  simp only [marksFrom, hstep]

theorem marksFrom_round {r : RoundContract n} (hstep : step cs (.round r) = some cs') :
    marksFrom cs marks (.round r :: es) = marksFrom cs' (marks ++ markRound cs marks) es := by
  simp only [marksFrom, hstep]

theorem atRounds_round_of_none {r : RoundContract n} (hstep : step cs (.round r) = none) :
    AtRounds P cs (.round r :: es) ↔ P cs := by
  constructor
  · intro h
    exact h [] r es cs rfl rfl
  · rintro hfirst pre r' post cs'' hes hrun
    rcases pre with _ | ⟨e, pre⟩
    · obtain rfl : cs = cs'' := Option.some.inj hrun
      exact hfirst
    · obtain ⟨rfl, hes'⟩ := List.cons.inj hes
      rw [run, hstep] at hrun
      cases hrun

instance AtRounds.decidable [DecidablePred P] :
    ∀ (cs : Clients n) (es : List (Event n)), Decidable (AtRounds P cs es)
  | cs, [] => isTrue (atRounds_nil P cs)
  | cs, .submit i str :: es =>
    have := AtRounds.decidable
      (Function.update cs i { cs i with loop := (cs i).loop.inputString str }) es
    decidable_of_iff' _ (atRounds_submit rfl)
  | cs, .round r :: es =>
    match hstep : step cs (.round r) with
    | some cs' =>
      have := AtRounds.decidable cs' es
      decidable_of_iff' _ (atRounds_round hstep)
    | none => decidable_of_iff' _ (atRounds_round_of_none hstep)

theorem speaker_eq_some {s : Fin n} (h : speaker cs = some s) : (cs s).loop.upcoming ≠ 0 := by
  simpa using List.find?_some h

theorem speaker_eq_none (h : speaker cs = none) (i : Fin n) : (cs i).loop.upcoming = 0 := by
  simpa using List.find?_eq_none.mp h i (List.mem_finRange i)

/-- Without a collision everybody reads what the speaker transmits. -/
theorem collated_speaker (hno : NoCollision cs) :
    BitVec.ofNat 16 (collated (total fun i => (cs i).loop.upcoming)) =
      match speaker cs with
      | some s => (cs s).loop.upcoming
      | none => 0 := by
  rcases hs : speaker cs with _ | s
  · rw [total_of_silent (speaker_eq_none hs)]
    rfl
  · refine collated_only (x := fun i => (cs i).loop.upcoming) fun i hi => ?_
    by_contra hne
    exact hi (hno i s hne (speaker_eq_some hs))

/-- The strings submitted at client `i`, in order. -/
def submittedAt (i : Fin n) (es : List (Event n)) : List JString :=
  strings (es.filterMap (callAt i))

theorem submittedAt_round (i : Fin n) (r : RoundContract n) (es : List (Event n)) :
    submittedAt i (.round r :: es) = submittedAt i es := rfl

/-- A submission extends the list of the client where it happens. -/
theorem update_append_submittedAt (ms : Fin n → List JString) (i j : Fin n) (str : JString)
    (es : List (Event n)) :
    Function.update ms i (ms i ++ [str]) j ++ submittedAt j es =
      ms j ++ submittedAt j (.submit i str :: es) := by
  rcases eq_or_ne j i with rfl | hj
  · simp [submittedAt, callAt]
  · simp [submittedAt, callAt, hj, Ne.symm hj]

/-! ## The invariant -/

/-- The clients of a session in which `ms i` have been submitted at client `i` and the text is
that of `marks`. -/
structure Attributed (ms : Fin n → List JString) (cs : Clients n) (marks : List (Mark n)) :
    Prop where
  tracks : ∀ i, (cs i).loop.Tracks (ms i)
  display : ∀ i, (cs i).display = ⟨(lastOrigin marks).isSome, marks.map Mark.toChar⟩
  /-- a message is open exactly if the last mark is one of its characters -/
  opened : ∀ i k, (cs i).loop.openMessage = some k ↔ lastOrigin marks = some (i, k)
  genuine : ∀ c i k, Mark.char c i k ∈ marks → ∃ m, (ms i)[k]? = some m ∧ c ∈ m

namespace Attributed

theorem initial : Attributed (fun _ => []) (initialClients n) [] where
  tracks := fun _ => tracks_new
  display := fun _ => rfl
  opened := by
    intro i k
    simp [lastOrigin, initialClients, ClientState.initial, DiningLoop.new, openMessage]
  genuine := by simp

/-- A submission. -/
theorem submit (h : Attributed ms cs marks) {i : Fin n} (hlen : (ms i).length < 20)
    (str : JString) :
    Attributed (Function.update ms i (ms i ++ [str]))
      (Function.update cs i { cs i with loop := (cs i).loop.inputString str }) marks where
  tracks j := by
    rcases eq_or_ne j i with rfl | hj
    · simpa using (h.tracks j).submit hlen str
    · simpa [hj] using h.tracks j
  display j := by
    rcases eq_or_ne j i with rfl | hj
    · simpa using h.display j
    · simpa [hj] using h.display j
  opened j k := by
    rcases eq_or_ne j i with rfl | hj
    · simpa using h.opened j k
    · simpa [hj] using h.opened j k
  genuine c j k hmem := by
    obtain ⟨m, hm, hc⟩ := h.genuine c j k hmem
    refine ⟨m, ?_, hc⟩
    rcases eq_or_ne j i with rfl | hj
    · simpa using getElem?_of_append hm [str]
    · simpa [hj] using hm

/-- A round without a collision. -/
theorem round (h : Attributed ms cs marks) (hlen : ∀ i, (ms i).length < 20)
    (hzero : ∀ i, ∀ m ∈ ms i, (0 : JChar) ∉ m) (hno : NoCollision cs) (r : RoundContract n) :
    ∃ cs', DiningCrypto.round r cs = some cs' ∧
      Attributed ms cs' (marks ++ markRound cs marks) := by
  choose loop hnext htracks hopen hget _ using
    fun i => (h.tracks i).next (hlen i) (hzero i)
  refine ⟨_, round_eq r hnext, ?_⟩
  rw [collated_speaker hno, markRound]
  rcases hs : speaker cs with _ | s
  · -- silence: the line ends, if there is one
    have hsilent := speaker_eq_none hs
    have hclosed : ∀ i, (loop i).openMessage = none := fun i => by rw [hopen, if_pos (hsilent i)]
    have hlast : lastOrigin (marks ++ if (lastOrigin marks).isSome then [Mark.newline] else []) =
        none := by
      by_cases hline : (lastOrigin marks).isSome
      · rw [if_pos hline, lastOrigin_concat]
        rfl
      · rw [if_neg hline, List.append_nil]
        exact Option.not_isSome_iff_eq_none.mp hline
    refine ⟨htracks, fun i => ?_, fun i k => ?_, fun c i k hmem => ?_⟩
    · simp only [Display.showResult_zero, h.display i, hlast]
      by_cases hline : (lastOrigin marks).isSome
      · simp [hline, Mark.toChar]
      · simp [hline]
    · simp only [hclosed i, hlast, reduceCtorEq]
    · refine h.genuine c i k ?_
      split_ifs at hmem <;> simpa using hmem
  · -- the speaker's character
    have hspeaks := speaker_eq_some hs
    have hothers : ∀ i, i ≠ s → (cs i).loop.upcoming = 0 := by
      intro i hi
      by_contra hne
      exact hi (hno i s hne hspeaks)
    refine ⟨htracks, fun i => ?_, fun i k => ?_, fun c i k hmem => ?_⟩
    · simp [Display.showResult_char _ hspeaks, h.display i, Mark.toChar, Mark.origin]
    · rw [lastOrigin_concat, Mark.origin, Option.some.injEq, Prod.mk.injEq]
      rcases eq_or_ne i s with rfl | hi
      · rw [hopen, if_neg hspeaks]
        simp
      · rw [hopen, if_pos (hothers i hi)]
        simp [Ne.symm hi]
    · rcases List.mem_append.mp hmem with hmem | hmem
      · exact h.genuine c i k hmem
      · obtain ⟨rfl, rfl, rfl⟩ := Mark.char.inj (List.mem_singleton.mp hmem)
        exact hget i hspeaks

/-- A message that ends belongs to the last mark. -/
theorem lastOrigin_of_ends (h : Attributed ms cs marks) {i : Fin n} (hends : (cs i).loop.Ends) :
    ∃ k, (cs i).loop.openMessage = some k ∧ lastOrigin marks = some (i, k) := by
  obtain ⟨k, hk⟩ := Option.isSome_iff_exists.mp hends.isSome
  exact ⟨k, hk, (h.opened i k).mp hk⟩

/-- Characters of messages without a newline are not newlines. -/
theorem not_isNewline (h : Attributed ms cs marks)
    (hline : ∀ i, ∀ m ∈ ms i, JChar.ofChar '\n' ∉ m) {c : JChar} {i : Fin n} {k : ℕ}
    (hmem : Mark.char c i k ∈ marks) : ¬ (Mark.char c i k).IsNewline := by
  intro hnewline
  obtain ⟨m, hm, hc⟩ := h.genuine c i k hmem
  exact hline i m (List.mem_of_getElem? hm) (hnewline ▸ hc)

/-- **A round keeps the lines apart** exactly if nobody transmits while another client's message
ends. -/
theorem oneMessagePerLine_round (h : Attributed ms cs marks) (hlen : ∀ i, (ms i).length < 20)
    (hzero : ∀ i, ∀ m ∈ ms i, (0 : JChar) ∉ m)
    (hline : ∀ i, ∀ m ∈ ms i, JChar.ofChar '\n' ∉ m) (hno : NoCollision cs) :
    OneMessagePerLine (marks ++ markRound cs marks) ↔ OneMessagePerLine marks ∧ Separated cs := by
  choose loop hnext htracks hopen hget hcont using
    fun i => (h.tracks i).next (hlen i) (hzero i)
  rw [markRound]
  rcases hs : speaker cs with _ | s
  · -- silence: at most a newline is added
    have hsilent := speaker_eq_none hs
    have hseparated : Separated cs := fun _ j _ => hsilent j
    rw [and_iff_left hseparated]
    by_cases hlast : (lastOrigin marks).isSome
    · simp only [hlast, if_true]
      rw [OneMessagePerLine, Segments.uniform_concat_iff]
      exact and_iff_left fun _ _ _ hbreak => absurd rfl hbreak
    · simp only [hlast, Bool.false_eq_true, if_false, List.append_nil]
  · have hspeaks := speaker_eq_some hs
    have hnewline : ¬ (Mark.char (cs s).loop.upcoming s (cs s).loop.upcomingMessage).IsNewline := by
      obtain ⟨m, hm, hc⟩ := hget s hspeaks
      intro hbreak
      exact hline s m (List.mem_of_getElem? hm) (hbreak ▸ hc)
    simp only
    rw [OneMessagePerLine, Segments.uniform_concat_iff]
    refine and_congr_right fun _ =>
      ⟨fun hnextMark i j hends => ?_, fun hseparated last hlast hbreak _ => ?_⟩
    · -- the speaker would continue the line of the message that ends
      by_contra hne
      obtain rfl : j = s := hno j s hne hspeaks
      obtain ⟨k, hk, hlast⟩ := h.lastOrigin_of_ends hends
      obtain ⟨last, hlast', horigin⟩ := Option.bind_eq_some_iff.mp hlast
      have hopenLine : ¬ last.IsNewline := by
        cases last with
        | char c i' k' => exact h.not_isNewline hline (List.mem_of_getLast? hlast')
        | newline => cases horigin
      have hsame := hnextMark last hlast' hopenLine hnewline
      rw [horigin] at hsame
      obtain ⟨rfl, -⟩ := Prod.mk.inj (Option.some.inj hsame)
      exact hne (((hcont i k hk).1).mp hends)
    · -- whose message the last mark is from, its client is sending it
      cases last with
      | newline => exact absurd rfl hbreak
      | char c i k =>
        have hopened : (cs i).loop.openMessage = some k :=
          (h.opened i k).mpr (by rw [lastOrigin, hlast]; rfl)
        obtain ⟨hends, hmessage⟩ := hcont i k hopened
        obtain rfl : i = s := by
          by_contra his
          have hsilent : (cs i).loop.upcoming = 0 := by
            by_contra hne
            exact his (hno i s hne hspeaks)
          exact hspeaks (hseparated i s (hends.mpr hsilent))
        rw [Mark.origin, Mark.origin, hmessage]

/-- A session without collisions keeps the invariant, and keeps the lines apart exactly if all its
rounds do. -/
theorem run (h : Attributed ms cs marks)
    (hlen : ∀ i, (ms i ++ submittedAt i es).length ≤ 19)
    (hzero : ∀ i, ∀ m ∈ ms i ++ submittedAt i es, (0 : JChar) ∉ m)
    (hline : ∀ i, ∀ m ∈ ms i ++ submittedAt i es, JChar.ofChar '\n' ∉ m)
    (hno : AtRounds NoCollision cs es) :
    ∃ cs', DiningCrypto.run cs es = some cs' ∧
      Attributed (fun i => ms i ++ submittedAt i es) cs' (marksFrom cs marks es) ∧
      (OneMessagePerLine (marksFrom cs marks es) ↔
        OneMessagePerLine marks ∧ AtRounds Separated cs es) := by
  induction es generalizing cs ms marks with
  | nil =>
    have hnone : (fun i => ms i ++ submittedAt i ([] : List (Event n))) = ms :=
      funext fun i => List.append_nil (ms i)
    exact ⟨cs, rfl, hnone.symm ▸ h, (and_iff_left (atRounds_nil _ _)).symm⟩
  | cons e es ih =>
    have hfew : ∀ i, (ms i).length < 20 := by
      intro i
      have := hlen i
      rw [List.length_append] at this
      omega
    cases e with
    | submit i str =>
      have hstep : step cs (.submit i str) =
          some (Function.update cs i { cs i with loop := (cs i).loop.inputString str }) := rfl
      rw [atRounds_submit hstep] at hno ⊢
      simp only [← update_append_submittedAt] at hlen hzero hline ⊢
      obtain ⟨cs', hrun, hattributed, hiff⟩ := ih (h.submit (hfew i) str) hlen hzero hline hno
      rw [marksFrom_submit hstep]
      refine ⟨cs', ?_, hattributed, hiff⟩
      rw [DiningCrypto.run, hstep]
      exact hrun
    | round r =>
      have hzero' : ∀ i, ∀ m ∈ ms i, (0 : JChar) ∉ m := fun i m hm =>
        hzero i m (List.mem_append_left _ hm)
      have hline' : ∀ i, ∀ m ∈ ms i, JChar.ofChar '\n' ∉ m := fun i m hm =>
        hline i m (List.mem_append_left _ hm)
      have hfirst : NoCollision cs := hno [] r es cs rfl rfl
      obtain ⟨cs₁, hstep, hattributed₁⟩ := h.round hfew hzero' hfirst r
      have hstep' : step cs (.round r) = some cs₁ := hstep
      rw [atRounds_round hstep'] at hno ⊢
      simp only [submittedAt_round] at hlen hzero hline ⊢
      obtain ⟨cs', hrun, hattributed, hiff⟩ := ih hattributed₁ hlen hzero hline hno.2
      rw [marksFrom_round hstep', ← and_assoc,
        ← h.oneMessagePerLine_round hfew hzero' hline' hfirst]
      refine ⟨cs', ?_, hattributed, hiff⟩
      rw [DiningCrypto.run, hstep']
      exact hrun

end Attributed

/-- **Message boundaries.** Messages free of `U+0000` and newline, at most 19 at each client, are
submitted at any times, and no two clients ever transmit in the same round. Then no client
throws, every client displays the text of the marks, each mark is a character of the message it
names, and each line holds characters of one message exactly if in every round in which a
message ends nobody else transmits. -/
theorem lines_iff (es : List (Event n)) (hlen : ∀ i, (submittedAt i es).length ≤ 19)
    (hzero : ∀ i, ∀ m ∈ submittedAt i es, (0 : JChar) ∉ m)
    (hline : ∀ i, ∀ m ∈ submittedAt i es, JChar.ofChar '\n' ∉ m)
    (hno : AtRounds NoCollision (initialClients n) es) :
    ∃ cs, run (initialClients n) es = some cs ∧
      (∀ i, (cs i).display.text = (marksOf es).map Mark.toChar) ∧
      (∀ c i k, Mark.char c i k ∈ marksOf es → ∃ m, (submittedAt i es)[k]? = some m ∧ c ∈ m) ∧
      (OneMessagePerLine (marksOf es) ↔ AtRounds Separated (initialClients n) es) := by
  obtain ⟨cs, hrun, hattributed, hiff⟩ := Attributed.initial.run (by simpa using hlen)
    (by simpa using hzero) (by simpa using hline) hno
  refine ⟨cs, hrun, fun i => ?_, ?_, ?_⟩
  · rw [hattributed.display i]
    rfl
  · intro c i k hmem
    simpa using hattributed.genuine c i k hmem
  · rw [marksOf, hiff]
    exact and_iff_right (Segments.uniform_nil _ _)

end Session

/-- Two clients, the second of which waits until the first one's message has ended. -/
theorem lines_iff_waiting :
    OneMessagePerLine (marksOf (n := 2)
      [.submit 0 (lit "a"), .round (plainRound 2), .round (plainRound 2), .submit 1 (lit "b"),
        .round (plainRound 2), .round (plainRound 2)]) := by
  obtain ⟨cs, -, -, -, hiff⟩ := lines_iff (n := 2)
    [.submit 0 (lit "a"), .round (plainRound 2), .round (plainRound 2), .submit 1 (lit "b"),
      .round (plainRound 2), .round (plainRound 2)]
    (by decide) (by decide) (by decide) (by decide +kernel)
  exact hiff.mpr (by decide +kernel)

/-- Two clients, and the second one's message comes in just when the first one's ends: no two
characters collide, but both messages stand on one line. -/
theorem line_shared :
    let es : List (Event 2) :=
      [.submit 0 (lit "a"), .round (plainRound 2), .submit 1 (lit "b"), .round (plainRound 2),
        .round (plainRound 2)]
    AtRounds NoCollision (initialClients 2) es ∧
      (run (initialClients 2) es).map (fun cs => ((cs 0).display.text, (cs 1).display.text)) =
        some (lit "ab\n", lit "ab\n") ∧
      ¬ OneMessagePerLine (marksOf es) := by
  intro es
  have hmarks : marksOf es = [.char (JChar.ofChar 'a') 0 0, .char (JChar.ofChar 'b') 1 0,
      .newline] := by
    decide +kernel
  refine ⟨by decide +kernel, by decide +kernel, fun h => ?_⟩
  rw [hmarks] at h
  have hsame := h [.char (JChar.ofChar 'a') 0 0, .char (JChar.ofChar 'b') 1 0]
    ⟨[], [.newline], rfl⟩ (by unfold Mark.IsNewline; decide) (.char (JChar.ofChar 'a') 0 0)
    (by simp) (.char (JChar.ofChar 'b') 1 0) (by simp)
  exact absurd hsame (by decide)

end DiningCrypto
