import DiningCrypto.Collate
import DiningCrypto.DiningLoop

/-!
# Sessions of `n` clients

Any number of rounds of `n` `DiningLoop` clients against a server that keeps its contract:
the `n` keysets of a round are one complete result of `generateKeySets`, and every client
receives the list of all `n` outputs, in an order of its own. Between the rounds strings are
submitted through `inputString`, at any client and at any time.

`round` runs the body of `DiningLoop.run` once at every client; `round_eq` is its
specification.
-/

namespace DiningCrypto

open DiningLoop

/-- A running client. `sent` records the characters it has transmitted. -/
structure ClientState : Type where
  loop : DiningLoop
  display : Display
  sent : List JChar

/-- A client before its first round. -/
def ClientState.initial : ClientState := ⟨DiningLoop.new, Display.empty, []⟩

/-- What the server does in one round. -/
structure RoundContract (n : ℕ) : Type where
  handOut : HandOut n
  /-- the order in which a client finds the outputs in its result list -/
  order : Fin n → Equiv.Perm (Fin n)

namespace RoundContract

variable {n : ℕ} (r : RoundContract n)

/-- The result list client `i` receives when the clients transmit `x`. -/
def results (x : Fin n → JChar) (i : Fin n) : List Message :=
  List.ofFn ((fun j => transmit (x j) (r.handOut.held j)) ∘ r.order i)

theorem results_perm (x : Fin n → JChar) (i : Fin n) :
    (r.results x i).Perm (r.handOut.outputs x) :=
  Equiv.Perm.ofFn_comp_perm (r.order i) _

end RoundContract

/-- The clients of a session. -/
abbrev Clients (n : ℕ) : Type := Fin n → ClientState

section Session

variable {n : ℕ}

/-- All values, when all are there. -/
def allSome {α : Type} (f : Fin n → Option α) : Option (Fin n → α) :=
  if h : ∀ i, (f i).isSome then some fun i => (f i).get (h i) else none

theorem allSome_eq_some {α : Type} {f : Fin n → Option α} {g : Fin n → α}
    (h : ∀ i, f i = some (g i)) : allSome f = some g := by
  have hsome : ∀ i, (f i).isSome := fun i => by rw [h i]; rfl
  rw [allSome, dif_pos hsome]
  refine congrArg some (funext fun i => ?_)
  simp only [h, Option.get_some]

/-- One round: every client transmits its next character and displays what it reads off its
result list. `none`: a client has thrown an exception. -/
def round (r : RoundContract n) (cs : Clients n) : Option (Clients n) :=
  (allSome fun i => (cs i).loop.getNextChar).bind fun next =>
    (allSome fun i => collate (r.results (fun j => (next j).1) i)).map fun read i =>
      { loop := (next i).2
        display := (cs i).display.showResult (read i)
        sent := (cs i).sent ++ [(next i).1] }

/-- What happens in a session. -/
inductive Event (n : ℕ) : Type where
  /-- `inputString` is called at a client -/
  | submit (i : Fin n) (str : JString)
  /-- the next round -/
  | round (r : RoundContract n)

/-- One event. -/
def step (cs : Clients n) : Event n → Option (Clients n)
  | .submit i str =>
    some (Function.update cs i { cs i with loop := (cs i).loop.inputString str })
  | .round r => round r cs

/-- A session from its first event on. -/
def run (cs : Clients n) : List (Event n) → Option (Clients n)
  | [] => some cs
  | e :: es => (step cs e).bind fun cs => run cs es

/-- The clients before the first round. -/
def initialClients (n : ℕ) : Clients n := fun _ => ClientState.initial

/-- The strings submitted, in order, at whichever client. -/
def submitted (es : List (Event n)) : List JString :=
  es.filterMap fun
    | .submit _ str => some str
    | .round _ => none

@[simp] theorem submitted_append (es es' : List (Event n)) :
    submitted (es ++ es') = submitted es ++ submitted es' := List.filterMap_append ..

theorem run_append (cs : Clients n) (es es' : List (Event n)) :
    run cs (es ++ es') = (run cs es).bind fun cs' => run cs' es' := by
  induction es generalizing cs with
  | nil => rfl
  | cons e es ih =>
    rw [List.cons_append, run, run]
    rcases step cs e with _ | cs'
    · rfl
    · exact ih cs'

/-- **One round.** When no client throws on its input side, every client reads the same
character, and it is the one determined by everything transmitted. -/
theorem round_eq (r : RoundContract n) {cs : Clients n} {x : Fin n → JChar}
    {loop : Fin n → DiningLoop} (h : ∀ i, (cs i).loop.getNextChar = some (x i, loop i)) :
    round r cs = some fun i =>
      { loop := loop i
        display := (cs i).display.showResult (BitVec.ofNat 16 (collated (total x)))
        sent := (cs i).sent ++ [x i] } := by
  have hread : ∀ i, collate (r.results x i) = some (BitVec.ofNat 16 (collated (total x))) :=
    fun i => collate_outputs x r.handOut (r.results_perm x i)
  rw [round, allSome_eq_some (g := fun i => (x i, loop i)) h, Option.bind_some,
    allSome_eq_some hread]
  rfl

end Session

end DiningCrypto
