import DiningCrypto.DiningLoop
import DiningCrypto.Fifo

/-!
# `StrBuffer` as a queue

`StrBuffer` sets every slot it has read back to `null`, but its two positions only ever grow,
so no slot is used a second time: `StrBuffer(L)` is a queue for `L` strings in all
(`StrBuffer.oneShot`), whatever is unread at any one time. It serves a sequence of calls like
a queue exactly when at most `L` strings are added, and `next` is not called any more on an
empty buffer once all `L` have been added (`StrBuffer.isFifo_iff`).

For a client this means that the poll at the start of `getNextChar` throws out of `run` in
the first idle round after 20 strings (`DiningLoop.getNextChar_eq_none_iff`).
-/

namespace DiningCrypto

namespace StrBuffer

variable {buf : StrBuffer} {length : ℕ} {unread : List JString}

theorem Holds.add_full (h : buf.Holds length unread) (hw : buf.writePosition = length)
    (str : JString) : buf.add str = none := by
  rw [StrBuffer.add, if_neg]
  rw [h.length_array, hw]
  exact lt_irrefl length

theorem Holds.next_done (h : buf.Holds length []) (hw : buf.writePosition = length) :
    buf.next = none := by
  have hread : buf.array.length ≤ buf.readPosition := by
    have := h.write_eq
    rw [h.length_array]
    rw [List.length_nil] at this
    omega
  rw [StrBuffer.next, List.getElem?_eq_none hread]

/-- `StrBuffer(length)` takes in `length` strings in its whole life. -/
theorem oneShot (length : ℕ) :
    Fifo.OneShot length StrBuffer.add StrBuffer.next
      fun buf unread written => buf.Holds length unread ∧ buf.writePosition = written where
  bounded := by
    rintro buf unread _ ⟨h, rfl⟩
    exact h.write_le
  add_free := by
    rintro buf unread _ str ⟨h, rfl⟩ hw
    obtain ⟨buf', hadd, hholds, hpos⟩ := h.add hw str
    exact ⟨buf', hadd, hholds, hpos⟩
  add_full := by
    rintro buf unread str ⟨h, hw⟩
    exact h.add_full hw str
  next_cons := by
    rintro buf str unread _ ⟨h, rfl⟩
    obtain ⟨buf', hnext, hholds, hpos⟩ := h.next_cons
    exact ⟨buf', hnext, hholds, hpos⟩
  next_nil := by
    rintro buf _ ⟨h, rfl⟩ hw
    exact ⟨buf, h.next_nil hw, h, rfl⟩
  next_done := by
    rintro buf ⟨h, hw⟩
    exact h.next_done hw

/-- The calls `ops` on a new `StrBuffer(length)` behave like those on a queue. -/
def IsFifo (length : ℕ) (ops : List (Fifo.Op JString)) : Prop :=
  Fifo.IsFifo StrBuffer.add StrBuffer.next (new length) ops

/-- At no time are more than `length` of the strings added still unread. -/
def Bounded (length : ℕ) (ops : List (Fifo.Op JString)) : Prop :=
  ∀ pre ∈ ops.inits, (Fifo.contents [] pre).length ≤ length

/-- **`StrBuffer` is a queue exactly as long as its slots last**: for any capacity and any
sequence of calls. -/
theorem isFifo_iff (length : ℕ) (ops : List (Fifo.Op JString)) :
    IsFifo length ops ↔ Fifo.Lasts length 0 [] ops :=
  (oneShot length).serves_iff ⟨holds_new length, rfl⟩

/-- The string of a `StrBuffer(1)` is taken out before the next one is added: the second `add`
throws, although nothing is unread. And after the only string has been taken out, polling the
empty buffer throws. -/
theorem not_isFifo_of_reuse :
    (Bounded 1 [.add (lit "a"), .next, .add (lit "b")] ∧
        ¬ IsFifo 1 [.add (lit "a"), .next, .add (lit "b")]) ∧
      Bounded 1 [.add (lit "a"), .next, .next] ∧ ¬ IsFifo 1 [.add (lit "a"), .next, .next] := by
  refine ⟨⟨by simp [Bounded, Fifo.contents], fun h => ?_⟩,
    by simp [Bounded, Fifo.contents], fun h => ?_⟩
  · obtain ⟨buf, hcalls⟩ := h.served
    cases hcalls
  · obtain ⟨buf, hcalls⟩ := h.served
    cases hcalls

end StrBuffer

namespace DiningLoop

variable {loop : DiningLoop} {k : Cursor}

/-- When all 20 slots have been used, a client that has nothing to send throws. -/
theorem getNextChar_eq_none_iff (h : loop.Represents k) :
    loop.getNextChar = none ↔ k = Cursor.idle ∧ loop.inputBuf.writePosition = 20 := by
  rcases lt_or_eq_of_le h.buffer.write_le with hw | hw
  · obtain ⟨loop', hnext, -⟩ := getNextChar_spec h hw
    refine iff_of_false (by simp [hnext]) ?_
    rintro ⟨-, hfull⟩
    omega
  · obtain ⟨buf, cur, index⟩ := loop
    obtain ⟨opened, unread⟩ := k
    obtain ⟨hbuf, hopened, -⟩ := h
    rcases cur with _ | message
    · obtain rfl : none = opened := hopened
      rcases unread with _ | ⟨str, unread⟩
      · refine iff_of_true ?_ ⟨rfl, hw⟩
        simp only [getNextChar, pollBuffer, hbuf.next_done hw, Option.map_none]
      · obtain ⟨buf', hnext, -⟩ := hbuf.next_cons
        refine iff_of_false ?_ (by simp [Cursor.idle])
        simp [getNextChar, pollBuffer, hnext]
    · obtain rfl : some (message.drop index) = opened := hopened
      refine iff_of_false ?_ (by simp [Cursor.idle])
      simp [getNextChar, pollBuffer]

end DiningLoop

end DiningCrypto
