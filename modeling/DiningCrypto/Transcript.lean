import DiningCrypto.Session

/-!
# The transcript of one client's input side

What `getNextChar` returns over the whole life of a `DiningLoop`, however its calls
interleave with those of `inputString` and whatever the other clients do: the submitted
strings in full and in order, each followed by one `0`, with idle zeros before a string only
as long as nothing is pending.

The queue of a `Cursor` is what is left to send, the rest of the open message included.
Whether the first message of the queue is already open makes no difference to the next
character (`Cursor.next_queue`), so a single induction on the calls suffices
(`Transcribes.of_calls`).
-/

namespace DiningCrypto

namespace Cursor

/-- What is left to send: the rest of the open message, and the messages not yet opened. -/
def queue (k : Cursor) : List JString := k.opened.toList ++ k.unread

@[simp] theorem queue_submit (k : Cursor) (str : JString) :
    (k.submit str).queue = k.queue ++ [str] := by
  simp only [queue, submit, List.append_assoc]

/-- The next character of a queue, and the queue afterwards. An empty rest is a message of
which only the terminating zero is left. -/
def pop : List JString → JChar × List JString
  | [] => (0, [])
  | [] :: q => (0, q)
  | (c :: m) :: q => (c, m :: q)

theorem advance_queue (rest : JString) (unread : List JString) :
    ((advance rest unread).1, (advance rest unread).2.queue) = pop (rest :: unread) := by
  rcases rest with _ | ⟨c, rest⟩
  · rfl
  · rfl

/-- The next character depends on the queue only. -/
theorem next_queue (k : Cursor) : (k.next.1, k.next.2.queue) = pop k.queue := by
  obtain ⟨_ | rest, unread⟩ := k
  · rcases unread with _ | ⟨str, unread⟩
    · rfl
    · exact advance_queue str unread
  · exact advance_queue rest unread

end Cursor

namespace DiningLoop

/-! ## Calls -/

/-- The two public operations that move the input side. -/
inductive Call : Type where
  | inputString (str : JString)
  | getNextChar

/-- What a call of `getNextChar` has returned, and how many strings had been submitted
before it. -/
structure Reply : Type where
  char : JChar
  submitted : ℕ
  deriving DecidableEq

/-- The strings submitted, in order. -/
def strings (cs : List Call) : List JString :=
  cs.filterMap fun
    | .inputString str => some str
    | .getNextChar => none

@[simp] theorem strings_inputString (str : JString) (cs : List Call) :
    strings (.inputString str :: cs) = str :: strings cs := rfl

@[simp] theorem strings_getNextChar (cs : List Call) :
    strings (.getNextChar :: cs) = strings cs := rfl

/-- The returns of a sequence of calls, when `count` strings have been submitted before.
`none`: one of the polls has thrown. -/
def calls : DiningLoop → ℕ → List Call → Option (List Reply)
  | _, _, [] => some []
  | loop, count, .inputString str :: cs => calls (loop.inputString str) (count + 1) cs
  | loop, count, .getNextChar :: cs =>
    loop.getNextChar.bind fun (c, loop') => (calls loop' count cs).map (⟨c, count⟩ :: ·)

/-! ## Layouts -/

/-- A string, and the number of idle calls before it. -/
structure Stretch : Type where
  idles : ℕ
  message : JString

/-- The zeros of the idle calls, the string, and its terminating zero. -/
def Stretch.chars (s : Stretch) : List JChar := List.replicate s.idles 0 ++ s.message ++ [0]

/-- The characters of all strings, one stretch after the other. -/
def layout (stretches : List Stretch) : List JChar := stretches.flatMap Stretch.chars

/-- The returns are in step with the submissions, `i` being the index of the first string of
the layout. Before string `i` and after the last string, calls are idle only while exactly
the strings before it have been submitted; string `i` is returned after its submission; and
if the next one is pending when the terminating zero is returned, it follows at once. -/
def Timely : ℕ → List Stretch → List Reply → Prop
  | i, [], log => ∀ r ∈ log, r.submitted = i
  | i, s :: rest, log =>
    (∀ r ∈ log.take s.idles, r.submitted = i) ∧
      (∀ r ∈ (log.drop s.idles).take (s.message.length + 1), i < r.submitted) ∧
      (∀ r, log[s.idles + s.message.length]? = some r → i + 1 < r.submitted →
        ∀ t ∈ rest.head?, t.idles = 0) ∧
      Timely (i + 1) rest (log.drop (s.idles + s.message.length + 1))

/-- The log `log` transmits the strings `ms`, the first of which is string `i`. -/
structure Transcribes (i : ℕ) (ms : List JString) (stretches : List Stretch) (tail : ℕ)
    (log : List Reply) : Prop where
  messages : stretches.map Stretch.message = ms
  chars : log.map Reply.char <+: layout stretches ++ List.replicate tail 0
  timely : Timely i stretches log

namespace Transcribes

variable {i : ℕ} {ms : List JString} {stretches : List Stretch} {s : Stretch} {tail : ℕ}
  {log : List Reply}

theorem nil (i : ℕ) (ms : List JString) :
    Transcribes i ms (ms.map fun m => ⟨0, m⟩) 0 [] where
  messages := by
    rw [List.map_map]
    exact List.map_id ms
  chars := List.nil_prefix
  timely := by
    induction ms generalizing i with
    | nil => simp [Timely]
    | cons m ms ih => simpa [Timely] using ih (i + 1)

/-- An idle call after the last string. -/
theorem idle_nil (h : Transcribes i [] [] tail log) :
    Transcribes i [] [] (tail + 1) (⟨0, i⟩ :: log) where
  messages := rfl
  chars := by
    simpa [layout, List.replicate_succ] using h.chars
  timely := by
    simpa [Timely] using h.timely

/-- An idle call before the first string. -/
theorem idle_cons (h : Transcribes i ms (s :: stretches) tail log) :
    Transcribes i ms (⟨s.idles + 1, s.message⟩ :: stretches) tail (⟨0, i⟩ :: log) where
  messages := h.messages
  chars := by
    simpa [layout, Stretch.chars, List.replicate_succ] using h.chars
  timely := by
    obtain ⟨hidle, hsent, hnext, hrest⟩ := h.timely
    have hskip : s.idles + 1 + s.message.length = s.idles + s.message.length + 1 := by omega
    refine ⟨by simpa using hidle, hsent, ?_, ?_⟩
    · rw [hskip, List.getElem?_cons_succ]
      exact hnext
    · rw [hskip, List.drop_succ_cons]
      exact hrest

/-- A character of the first string. -/
theorem char {m : JString} {count : ℕ} (hi : i < count) (c : JChar)
    (h : Transcribes i (m :: ms) (s :: stretches) tail log) (hs : s.idles = 0) :
    Transcribes i ((c :: m) :: ms) (⟨0, c :: m⟩ :: stretches) tail (⟨c, count⟩ :: log) := by
  obtain ⟨idles, message⟩ := s
  obtain rfl : idles = 0 := hs
  obtain ⟨rfl, hms⟩ : message = m ∧ stretches.map Stretch.message = ms := by
    simpa using h.messages
  obtain ⟨-, hsent, hnext, hrest⟩ := h.timely
  refine ⟨by simp [hms], ?_, ?_, ?_, ?_, ?_⟩
  · simpa [layout, Stretch.chars] using h.chars
  · simp
  · simpa [hi] using hsent
  · simpa using hnext
  · simpa using hrest

/-- The zero that ends the first string. -/
theorem stop {count : ℕ} (hi : i < count) (h : Transcribes (i + 1) ms stretches tail log)
    (hpending : i + 1 < count → ∀ t ∈ stretches.head?, t.idles = 0) :
    Transcribes i ([] :: ms) (⟨0, []⟩ :: stretches) tail (⟨0, count⟩ :: log) where
  messages := by simp [h.messages]
  chars := by
    simpa [layout, Stretch.chars] using h.chars
  timely := by
    refine ⟨by simp, by simpa using hi, ?_, by simpa using h.timely⟩
    simpa using hpending

/-- The returns of the calls `cs` transcribe the queue and the strings of `cs`; when the queue is
not empty, they start with it at once. -/
theorem of_calls {loop : DiningLoop} {k : Cursor} {count : ℕ} {cs : List Call}
    (h : loop.Represents k) (hcount : count = i + k.queue.length)
    (hfree : loop.inputBuf.writePosition + (strings cs).length ≤ 19) :
    ∃ log stretches tail, calls loop count cs = some log ∧
      Transcribes i (k.queue ++ strings cs) stretches tail log ∧
      (k.queue ≠ [] → ∀ s ∈ stretches.head?, s.idles = 0) := by
  induction cs generalizing loop k count i with
  | nil =>
    refine ⟨[], _, 0, rfl, Transcribes.nil i _, fun _ s hs => ?_⟩
    obtain ⟨m, -, rfl⟩ := List.mem_map.mp (List.mem_of_mem_head? hs)
    rfl
  | cons call cs ih =>
    cases call with
    | inputString str =>
      rw [strings_inputString, List.length_cons] at hfree
      obtain ⟨hrep, hpos⟩ := inputString_spec h (by omega) str
      have hcount' : count + 1 = i + (k.submit str).queue.length := by
        rw [Cursor.queue_submit, List.length_append, List.length_singleton, hcount, Nat.add_assoc]
      obtain ⟨log, stretches, tail, hlog, htrans, hfirst⟩ := ih hrep hcount' (by omega)
      rw [Cursor.queue_submit] at htrans hfirst
      refine ⟨log, stretches, tail, hlog, ?_, fun _ => hfirst (by simp)⟩
      rwa [strings_inputString, List.append_cons]
    | getNextChar =>
      rw [strings_getNextChar] at hfree ⊢
      obtain ⟨loop', hnext, hrep, hpos⟩ := getNextChar_spec h (by omega)
      have hchar : k.next.1 = (Cursor.pop k.queue).1 := congrArg Prod.fst (Cursor.next_queue k)
      have hqueue : k.next.2.queue = (Cursor.pop k.queue).2 :=
        congrArg Prod.snd (Cursor.next_queue k)
      rw [hchar] at hnext
      have hcalls : ∀ log, calls loop' count cs = some log →
          calls loop count (.getNextChar :: cs) =
            some (⟨(Cursor.pop k.queue).1, count⟩ :: log) := by
        intro log hlog
        rw [calls, hnext, Option.bind_some]
        simp only [hlog, Option.map_some]
      -- the state of the queue decides what is returned
      rcases hq : k.queue with _ | ⟨_ | ⟨c, m⟩, q⟩
      all_goals
        rw [hq] at hqueue hcalls hcount
        simp only [Cursor.pop] at hqueue hcalls
      · -- idle
        obtain rfl : i = count := hcount.symm
        have hcount' : i = i + k.next.2.queue.length := by rw [hqueue]; rfl
        obtain ⟨log, stretches, tail, hlog, htrans, -⟩ := ih hrep hcount' (by omega)
        rw [hqueue, List.nil_append] at htrans
        rcases stretches with _ | ⟨s, stretches⟩
        · have hnone : strings cs = [] := htrans.messages.symm
          rw [hnone] at htrans ⊢
          exact ⟨_, _, _, hcalls log hlog, htrans.idle_nil, fun hne => absurd rfl hne⟩
        · exact ⟨_, _, _, hcalls log hlog, htrans.idle_cons, fun hne => absurd rfl hne⟩
      · -- the terminating zero
        have hcount' : count = i + 1 + k.next.2.queue.length := by
          rw [hqueue, hcount, List.length_cons, Nat.add_right_comm, Nat.add_assoc]
        obtain ⟨log, stretches, tail, hlog, htrans, hfirst⟩ := ih hrep hcount' (by omega)
        rw [List.length_cons] at hcount
        rw [hqueue] at htrans hfirst
        refine ⟨_, _, tail, hcalls log hlog, htrans.stop (by omega) fun hlt => hfirst ?_, ?_⟩
        · rintro rfl
          simp only [List.length_nil] at hcount
          omega
        · simp
      · -- a character
        have hcount' : count = i + k.next.2.queue.length := by rwa [hqueue]
        obtain ⟨log, stretches, tail, hlog, htrans, hfirst⟩ := ih hrep hcount' (by omega)
        rw [hqueue] at htrans hfirst
        rcases stretches with _ | ⟨s, stretches⟩
        · cases htrans.messages
        · have hs : s.idles = 0 := hfirst (List.cons_ne_nil _ _) s rfl
          rw [List.length_cons] at hcount
          refine ⟨_, _, tail, hcalls log hlog, htrans.char (by omega) c hs, ?_⟩
          simp

theorem of_new (cs : List Call) (hlen : (strings cs).length ≤ 19) :
    ∃ log stretches tail, calls new 0 cs = some log ∧
      Transcribes 0 (strings cs) stretches tail log := by
  have hfree : new.inputBuf.writePosition + (strings cs).length ≤ 19 := by
    rwa [show new.inputBuf.writePosition = 0 from rfl, Nat.zero_add]
  have hcount : 0 = 0 + Cursor.idle.queue.length := rfl
  obtain ⟨log, stretches, tail, hlog, htrans, -⟩ := of_calls represents_new hcount hfree
  exact ⟨log, stretches, tail, hlog, htrans⟩

end Transcribes

/-- **The transmit cursor loses, repeats and reorders nothing.** For any interleaving of
`inputString` calls, at most 19, with `getNextChar` calls, no call throws, and the characters
returned are a beginning of the submitted strings in order, each in full and followed by one
zero, with idle zeros in between only while nothing is pending. -/
theorem calls_layout (cs : List Call) (hlen : (strings cs).length ≤ 19) :
    ∃ log stretches tail, calls new 0 cs = some log ∧
      stretches.map Stretch.message = strings cs ∧
      log.map Reply.char <+: layout stretches ++ List.replicate tail 0 ∧
      Timely 0 stretches log := by
  obtain ⟨log, stretches, tail, hlog, htrans⟩ := Transcribes.of_new cs hlen
  exact ⟨log, stretches, tail, hlog, htrans.messages, htrans.chars, htrans.timely⟩

/-- A poll, `"a"` with an empty string and `"\u0000b"` behind it, and polls until the second
string is cut short. -/
theorem calls_layout_pending :
    ∃ log stretches tail,
      calls new 0 [.getNextChar, .inputString (lit "a"), .getNextChar, .inputString [],
        .inputString [0, JChar.ofChar 'b'], .getNextChar, .getNextChar, .getNextChar] = some log ∧
      stretches.map Stretch.message = [lit "a", [], [0, JChar.ofChar 'b']] ∧
      log.map Reply.char <+: layout stretches ++ List.replicate tail 0 ∧
      Timely 0 stretches log :=
  calls_layout [.getNextChar, .inputString (lit "a"), .getNextChar, .inputString [],
    .inputString [0, JChar.ofChar 'b'], .getNextChar, .getNextChar, .getNextChar] (by decide)

end DiningLoop

/-! ## In a session -/

section Session

open DiningLoop

variable {n : ℕ} {cs cs' : Clients n} {es : List (Event n)}

theorem eq_some_of_allSome {α : Type} {f : Fin n → Option α} {g : Fin n → α}
    (h : allSome f = some g) (i : Fin n) : f i = some (g i) := by
  by_cases hf : ∀ i, (f i).isSome
  · rw [allSome, dif_pos hf, Option.some.injEq] at h
    rw [← h, Option.some_get]
  · rw [allSome, dif_neg hf] at h
    cases h

/-- What a round does to the input side of a client. -/
theorem round_sent {r : RoundContract n} (h : round r cs = some cs') (i : Fin n) :
    ∃ c loop, (cs i).loop.getNextChar = some (c, loop) ∧ (cs' i).loop = loop ∧
      (cs' i).sent = (cs i).sent ++ [c] := by
  obtain ⟨next, hnext, hread⟩ := Option.bind_eq_some_iff.mp h
  obtain ⟨read, -, rfl⟩ := Option.map_eq_some_iff.mp hread
  exact ⟨_, _, eq_some_of_allSome hnext i, rfl, rfl⟩

/-- The call an event makes at client `i`, if any. -/
def callAt (i : Fin n) : Event n → Option Call
  | .submit j str => if j = i then some (.inputString str) else none
  | .round _ => some .getNextChar

/-- The characters a client has sent in a session are the returns of the calls made at it. -/
theorem sent_eq_calls (hrun : run cs es = some cs') (i : Fin n) (count : ℕ) :
    ∃ log, calls (cs i).loop count (es.filterMap (callAt i)) = some log ∧
      (cs' i).sent = (cs i).sent ++ log.map Reply.char := by
  induction es generalizing cs count with
  | nil =>
    obtain rfl : cs = cs' := Option.some.inj hrun
    exact ⟨[], rfl, by simp⟩
  | cons e es ih =>
    rw [run] at hrun
    obtain ⟨cs₁, hstep, hrest⟩ := Option.bind_eq_some_iff.mp hrun
    cases e with
    | submit j str =>
      obtain rfl := Option.some.inj hstep
      by_cases hj : j = i
      · subst hj
        simpa [callAt, calls] using ih hrest (count + 1)
      · simpa [callAt, hj, Function.update_of_ne (Ne.symm hj)] using ih hrest count
    | round r =>
      obtain ⟨c, loop, hnext, hloop, hsent⟩ := round_sent hstep i
      obtain ⟨log, hlog, hsent'⟩ := ih hrest count
      rw [hloop] at hlog
      refine ⟨⟨c, count⟩ :: log, ?_, ?_⟩
      · simp [callAt, calls, hnext, hlog]
      · rw [hsent', hsent, List.map_cons, List.append_assoc, List.singleton_append]

/-- In a session, with collisions or without, what client `i` sends is laid out from the strings
submitted to it. -/
theorem sent_layout (hrun : run (initialClients n) es = some cs') {i : Fin n}
    (hlen : (strings (es.filterMap (callAt i))).length ≤ 19) :
    ∃ stretches tail, stretches.map Stretch.message = strings (es.filterMap (callAt i)) ∧
      (cs' i).sent <+: layout stretches ++ List.replicate tail 0 := by
  obtain ⟨log, hlog, hsent⟩ := sent_eq_calls hrun i 0
  obtain ⟨log', stretches, tail, hlog', htrans⟩ :=
    Transcribes.of_new (es.filterMap (callAt i)) hlen
  obtain rfl : log = log' := Option.some.inj (hlog.symm.trans hlog')
  refine ⟨stretches, tail, htrans.messages, ?_⟩
  rw [hsent]
  exact htrans.chars

end Session

end DiningCrypto
