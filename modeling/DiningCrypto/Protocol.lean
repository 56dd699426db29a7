import DiningCrypto.Keys

/-!
# Messages and the strings of the protocol

`Message` carries a string: one of the control strings of `CommunicationProtocol`, or a
client's output for a round, written in decimal. The two kinds cannot be confused:
`parseInt` rejects every control string, so no encoded output equals one
(`Message.output_ne`), and different outputs are different messages.
-/

namespace DiningCrypto

/-- A `Message` object built from a string. -/
structure Message : Type where
  message : JString
  deriving DecidableEq, Repr

/-- What the server writes to a socket: a `KeySet`, a `Message`, or a list of messages. -/
inductive Object : Type where
  | keySet (keys : KeySet)
  | message (m : Message)
  | results (messages : List Message)

namespace CommunicationProtocol

/-- Acknowledges a keyset or a result list. -/
def ACK : JString := lit "OK"

/-- From the server: the round starts. -/
def START_ROUND : JString := lit "STARTROUND"

/-- From a client: it quits the session. -/
def CLIENT_EXIT : JString := lit "KILL"

/-- From the server: the clients should quit. -/
def SHUTDOWN : JString := lit "END"

/-- The strings with a meaning of their own in a round. -/
def controls : List JString := [ACK, START_ROUND, CLIENT_EXIT, SHUTDOWN]

/-- No control string is a decimal numeral. -/
theorem parseInt_control {s : JString} (hs : s ∈ controls) : parseInt s = none := by
  revert s
  decide +kernel

end CommunicationProtocol

namespace Message

/-- `new Message("" + output)`. -/
def output (i : JInt) : Message := ⟨intToString i⟩

theorem output_injective : Function.Injective output := fun _ _ h =>
  intToString_injective (congrArg Message.message h)

@[simp] theorem parseInt_output (i : JInt) : parseInt (output i).message = some i :=
  parseInt_intToString i

/-- An encoded output is not a control string. -/
theorem output_ne {s : JString} (hs : s ∈ CommunicationProtocol.controls) (i : JInt) :
    (output i).message ≠ s :=
  intToString_ne (CommunicationProtocol.parseInt_control hs) i

end Message

end DiningCrypto
