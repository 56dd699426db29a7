import DiningCrypto.Round

/-!
# The state of a client

The two stateful halves of a `DiningLoop`. The **input side** turns the strings submitted
through `inputString` into one character a round: a `StrBuffer` and the cursor
`currentMessage` / `currentMessageIndex` that `getNextChar` moves. The **display side** turns
one character a round back into text: the local `inMessageFlag` of `run` and the calls of
`guiRef.outputString`.

The input side is specified by a `Cursor`: the rest of the message being sent, and the
queue of messages not yet opened. `Represents` relates a `DiningLoop` to its cursor, and the
two operations are those of the cursor (`inputString_spec`, `getNextChar_spec`) as long as
the buffer has a free slot left; `StrBuffer` never reuses a slot, so a loop can take in 20
strings in its lifetime and must not be polled after reading the last of them.
-/

namespace DiningCrypto

/-! ## `StrBuffer` -/

/-- `StrBuffer`: an array of slots with a read and a write position. -/
structure StrBuffer : Type where
  array : List (Option JString)
  readPosition : ℕ
  writePosition : ℕ
  deriving DecidableEq

namespace StrBuffer

/-- `new StrBuffer(length)`. -/
def new (length : ℕ) : StrBuffer := ⟨List.replicate length none, 0, 0⟩

/-- `add`. `none` is an `ArrayIndexOutOfBoundsException`. -/
def add (buf : StrBuffer) (str : JString) : Option StrBuffer :=
  if buf.writePosition < buf.array.length then
    some
      { buf with
        array := buf.array.set buf.writePosition (some str)
        writePosition := buf.writePosition + 1 }
  else none

/-- `next`: the string returned (`none` for `null`) and the buffer afterwards. The outer
`none` is an `ArrayIndexOutOfBoundsException`. -/
def next (buf : StrBuffer) : Option (Option JString × StrBuffer) :=
  match buf.array[buf.readPosition]? with
  | none => none
  | some ret =>
    let array := buf.array.set buf.readPosition none
    let readPosition := if ret ≠ none then buf.readPosition + 1 else buf.readPosition
    some (ret, { buf with array, readPosition })

/-- The buffer has `length` slots, and the strings of `unread` stand between the two
positions; every other slot is `null`. -/
structure Holds (buf : StrBuffer) (length : ℕ) (unread : List JString) : Prop where
  array_eq : buf.array = List.replicate buf.readPosition none ++ unread.map some ++
    List.replicate (length - buf.writePosition) none
  write_eq : buf.writePosition = buf.readPosition + unread.length
  write_le : buf.writePosition ≤ length

variable {buf : StrBuffer} {length : ℕ} {unread : List JString}

theorem holds_new (length : ℕ) : (new length).Holds length [] := ⟨rfl, rfl, Nat.zero_le _⟩

theorem Holds.length_array (h : buf.Holds length unread) : buf.array.length = length := by
  have := h.write_eq
  have := h.write_le
  rw [h.array_eq]
  simp only [List.length_append, List.length_replicate, List.length_map]
  omega

/-- With a slot left, `add` queues the string. -/
theorem Holds.add (h : buf.Holds length unread) (hw : buf.writePosition < length)
    (str : JString) :
    ∃ buf', buf.add str = some buf' ∧ buf'.Holds length (unread ++ [str]) ∧
      buf'.writePosition = buf.writePosition + 1 := by
  rw [StrBuffer.add, if_pos (h.length_array.symm ▸ hw)]
  refine ⟨_, rfl, ⟨?_, ?_, hw⟩, rfl⟩
  · have hlen : (List.replicate buf.readPosition none ++ unread.map some).length =
        buf.writePosition := by
      rw [List.length_append, List.length_replicate, List.length_map, h.write_eq]
    have hfree : length - buf.writePosition = length - (buf.writePosition + 1) + 1 := by omega
    simp only
    rw [h.array_eq, ← hlen, List.set_append_right _ _ (le_refl _), Nat.sub_self, hlen, hfree,
      List.replicate_succ, List.set_cons_zero, List.map_append, List.map_singleton]
    simp only [List.append_assoc, List.singleton_append]
  · have := h.write_eq
    simp only [List.length_append, List.length_singleton]
    omega

/-- `next` takes the oldest string out of a buffer that holds one. -/
theorem Holds.next_cons {str : JString} (h : buf.Holds length (str :: unread)) :
    ∃ buf', buf.next = some (some str, buf') ∧ buf'.Holds length unread ∧
      buf'.writePosition = buf.writePosition := by
  have hget : buf.array[buf.readPosition]? = some (some str) := by
    rw [h.array_eq, List.append_assoc, List.getElem?_append_right (by simp)]
    simp
  rw [StrBuffer.next, hget]
  refine ⟨_, rfl, ⟨?_, ?_, h.write_le⟩, rfl⟩
  · rw [if_pos (Option.some_ne_none str)]
    simp only
    rw [h.array_eq, List.append_assoc, List.set_append_right _ _ (by simp),
      List.length_replicate, Nat.sub_self, List.map_cons, List.cons_append, List.set_cons_zero,
      List.replicate_succ']
    simp only [List.append_assoc, List.cons_append, List.nil_append]
  · have := h.write_eq
    rw [if_pos (Option.some_ne_none str)]
    rw [List.length_cons] at this
    simp only
    omega

/-- `next` on an empty buffer returns `null` and changes nothing, unless every slot has been
used. -/
theorem Holds.next_nil (h : buf.Holds length []) (hw : buf.writePosition < length) :
    buf.next = some (none, buf) := by
  have hread : buf.readPosition = buf.writePosition := h.write_eq.symm
  have hget : buf.array[buf.readPosition]? = some none := by
    rw [h.array_eq, List.map_nil, List.append_nil, List.getElem?_append_right (by simp),
      List.length_replicate, Nat.sub_self, List.getElem?_replicate, if_pos (by omega)]
  have hset : buf.array.set buf.readPosition none = buf.array := by
    obtain ⟨hlt, hval⟩ := List.getElem?_eq_some_iff.mp hget
    rw [← hval, List.set_getElem_self]
  rw [StrBuffer.next, hget]
  simp only [hset, ne_eq, not_true_eq_false, if_false]

end StrBuffer

/-! ## The input side -/

/-- The fields of a `DiningLoop` object. -/
structure DiningLoop : Type where
  inputBuf : StrBuffer
  currentMessage : Option JString
  currentMessageIndex : ℕ
  deriving DecidableEq

namespace DiningLoop

/-- A new client. -/
def new : DiningLoop := ⟨StrBuffer.new 20, none, 0⟩

/-- `inputString`. When the buffer is full the exception is thrown to the caller, the
event thread of the GUI, and the loop keeps its state. -/
def inputString (loop : DiningLoop) (str : JString) : DiningLoop :=
  match loop.inputBuf.add str with
  | some buf => { loop with inputBuf := buf }
  | none => loop

/-- The first statement of `getNextChar`: poll the buffer when no message is open. -/
def pollBuffer (loop : DiningLoop) : Option DiningLoop :=
  match loop.currentMessage with
  | none =>
    loop.inputBuf.next.map fun (ret, buf) => { loop with currentMessage := ret, inputBuf := buf }
  | some _ => some loop

/-- The rest of `getNextChar`: move the cursor along the open message. -/
def readMessage (loop : DiningLoop) : JChar × DiningLoop :=
  match loop.currentMessage with
  | none => (0, loop)
  | some message =>
    match message[loop.currentMessageIndex]? with
    | some ret => (ret, { loop with currentMessageIndex := loop.currentMessageIndex + 1 })
    | none =>
      -- reached the end of the current message
      (0, { loop with currentMessage := none, currentMessageIndex := 0 })

/-- `getNextChar`: the character to transmit in this round. `none` is the exception of the
poll. -/
def getNextChar (loop : DiningLoop) : Option (JChar × DiningLoop) :=
  (pollBuffer loop).map readMessage

end DiningLoop

/-- What a client still has to send: the rest of the message being sent, if one is open, and
the messages not yet opened. -/
structure Cursor : Type where
  opened : Option JString
  unread : List JString

namespace Cursor

/-- Nothing to send. -/
def idle : Cursor := ⟨none, []⟩

/-- A message is queued. -/
def submit (k : Cursor) (str : JString) : Cursor := { k with unread := k.unread ++ [str] }

/-- The next character of an open message, or the `0` that ends it. -/
def advance (rest : JString) (unread : List JString) : JChar × Cursor :=
  match rest with
  | [] => (0, ⟨none, unread⟩)
  | c :: rest => (c, ⟨some rest, unread⟩)

/-- The next character: of the open message, else of the next queued one, else an idle
`0`. -/
def next : Cursor → JChar × Cursor
  | ⟨some rest, unread⟩ => advance rest unread
  | ⟨none, str :: unread⟩ => advance str unread
  | ⟨none, []⟩ => (0, idle)

end Cursor

namespace DiningLoop

/-- The fields of a loop stand for the cursor `k`. -/
structure Represents (loop : DiningLoop) (k : Cursor) : Prop where
  buffer : loop.inputBuf.Holds 20 k.unread
  opened : loop.currentMessage.map (·.drop loop.currentMessageIndex) = k.opened
  index : loop.currentMessage = none → loop.currentMessageIndex = 0

variable {loop : DiningLoop} {k : Cursor}

theorem represents_new : new.Represents Cursor.idle :=
  ⟨StrBuffer.holds_new 20, rfl, fun _ => rfl⟩

/-- `inputString` queues its argument while a slot is left. -/
theorem inputString_spec (h : loop.Represents k) (hw : loop.inputBuf.writePosition < 20)
    (str : JString) :
    (loop.inputString str).Represents (k.submit str) ∧
      (loop.inputString str).inputBuf.writePosition = loop.inputBuf.writePosition + 1 := by
  obtain ⟨buf, hadd, hholds, hpos⟩ := h.buffer.add hw str
  rw [inputString, hadd]
  exact ⟨⟨hholds, h.opened, h.index⟩, hpos⟩

/-- On an open message `readMessage` is the cursor's `advance`. -/
theorem readMessage_spec (loop : DiningLoop) {message : JString} {unread : List JString}
    (hm : loop.currentMessage = some message) (hbuf : loop.inputBuf.Holds 20 unread) :
    (readMessage loop).1 = (Cursor.advance (message.drop loop.currentMessageIndex) unread).1 ∧
      (readMessage loop).2.Represents
        (Cursor.advance (message.drop loop.currentMessageIndex) unread).2 ∧
      (readMessage loop).2.inputBuf = loop.inputBuf := by
  obtain ⟨buf, cur, index⟩ := loop
  obtain rfl : cur = some message := hm
  rcases hget : message[index]? with _ | c
  · -- the end of the message: the terminating zero
    have hread : readMessage ⟨buf, some message, index⟩ = (0, ⟨buf, none, 0⟩) := by
      simp only [readMessage, hget]
    rw [List.drop_eq_nil_of_le (List.getElem?_eq_none_iff.mp hget), hread]
    exact ⟨rfl, ⟨hbuf, rfl, fun _ => rfl⟩, rfl⟩
  · obtain ⟨hlt, hval⟩ := List.getElem?_eq_some_iff.mp hget
    have hread : readMessage ⟨buf, some message, index⟩ =
        (c, ⟨buf, some message, index + 1⟩) := by
      simp only [readMessage, hget]
    rw [List.drop_eq_getElem_cons hlt, hval, hread]
    exact ⟨rfl, ⟨hbuf, rfl, fun h => absurd h (Option.some_ne_none message)⟩, rfl⟩

/-- **The input side follows its cursor**: `getNextChar` does not throw and returns the
cursor's next character, while a slot of the buffer is unused. -/
theorem getNextChar_spec (h : loop.Represents k) (hw : loop.inputBuf.writePosition < 20) :
    ∃ loop', loop.getNextChar = some (k.next.1, loop') ∧ loop'.Represents k.next.2 ∧
      loop'.inputBuf.writePosition = loop.inputBuf.writePosition := by
  obtain ⟨buf, cur, index⟩ := loop
  obtain ⟨opened, unread⟩ := k
  obtain ⟨hbuf, hopened, hindex⟩ := h
  rcases cur with _ | message
  · obtain rfl : none = opened := hopened
    obtain rfl : index = 0 := hindex rfl
    rcases unread with _ | ⟨str, unread⟩
    · -- nothing to send
      refine ⟨⟨buf, none, 0⟩, ?_, ⟨hbuf, rfl, fun _ => rfl⟩, rfl⟩
      simp only [getNextChar, pollBuffer, hbuf.next_nil hw]
      rfl
    · -- the poll opens the next message
      obtain ⟨buf', hnext, hholds, hpos⟩ := hbuf.next_cons
      obtain ⟨hret, hrep, hsame⟩ := readMessage_spec ⟨buf', some str, 0⟩ rfl hholds
      refine ⟨_, ?_, hrep, ?_⟩
      · simp only [getNextChar, pollBuffer, hnext, Option.map_some]
        exact congrArg some (Prod.ext hret rfl)
      · rw [hsame]
        exact hpos
  · obtain rfl : some (message.drop index) = opened := hopened
    obtain ⟨hret, hrep, hsame⟩ := readMessage_spec ⟨buf, some message, index⟩ rfl hbuf
    refine ⟨_, ?_, hrep, by rw [hsame]⟩
    simp only [getNextChar, pollBuffer, Option.map_some]
    exact congrArg some (Prod.ext hret rfl)

end DiningLoop

/-! ## The display side -/

/-- What `run` keeps for the display: its local `inMessageFlag`, and everything it has
passed to `guiRef.outputString`. -/
structure Display : Type where
  inMessageFlag : Bool
  text : JString
  deriving DecidableEq, Repr

namespace Display

/-- When the loop starts. -/
def empty : Display := ⟨false, []⟩

/-- The end of `run`'s loop body: show a character, or end the line once. -/
def showResult (d : Display) (r : JChar) : Display :=
  if r ≠ 0 then { inMessageFlag := true, text := d.text ++ [r] }
  else if d.inMessageFlag then { inMessageFlag := false, text := d.text ++ [JChar.ofChar '\n'] }
  else d

theorem showResult_char (d : Display) {r : JChar} (hr : r ≠ 0) :
    d.showResult r = ⟨true, d.text ++ [r]⟩ := if_pos hr

theorem showResult_zero (d : Display) :
    d.showResult 0 =
      if d.inMessageFlag then ⟨false, d.text ++ [JChar.ofChar '\n']⟩ else d := by
  rw [showResult, if_neg (not_not_intro rfl)]

end Display

end DiningCrypto
