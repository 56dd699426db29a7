import Mathlib.Data.List.Infix
import Mathlib.Data.List.ReduceOption

/-!
# First-in first-out queues

The behaviour of a queue under `add` and `next`: `answers` is what the calls of `next`
return, `contents` what is still unread. Everything added is either returned or unread, in
order (`conservation`).

An implementation is a pair of partial operations, `none` being an exception. `IsFifo` says
that it serves a sequence of calls like the queue, and that what is left unread comes out
under further calls of `next`.

`OneShot L` is the interface of a queue that can take in `L` elements in its whole life, and
is of no use once it has given out the last of them. For these, the sequences of calls that
are served correctly are exactly those of `Lasts L` (`OneShot.serves_iff`).
-/

namespace Fifo

/-- The two operations of a queue. -/
inductive Op (α : Type*) where
  | add (a : α)
  | next

variable {α : Type*}

/-- What the calls of `next` return when the queue holds `q`: the oldest element not yet
returned, or nothing. -/
def answers : List α → List (Op α) → List (Option α)
  | _, [] => []
  | q, .add a :: ops => answers (q ++ [a]) ops
  | [], .next :: ops => none :: answers [] ops
  | a :: q, .next :: ops => some a :: answers q ops

/-- What is unread after the calls. -/
def contents : List α → List (Op α) → List α
  | q, [] => q
  | q, .add a :: ops => contents (q ++ [a]) ops
  | [], .next :: ops => contents [] ops
  | _ :: q, .next :: ops => contents q ops

/-- Everything added, in order. -/
def added (ops : List (Op α)) : List α :=
  ops.filterMap fun
    | .add a => some a
    | .next => none

@[simp] theorem added_nil : added ([] : List (Op α)) = [] := rfl

@[simp] theorem added_add (a : α) (ops : List (Op α)) :
    added (.add a :: ops) = a :: added ops := rfl

@[simp] theorem added_next (ops : List (Op α)) : added (.next :: ops) = added ops := rfl

/-- **Conservation**: what was there or has been added is what has been returned, followed by
what is unread. -/
theorem conservation (q : List α) (ops : List (Op α)) :
    q ++ added ops = (answers q ops).reduceOption ++ contents q ops := by
  induction ops generalizing q with
  | nil => simp [answers, contents]
  | cons op ops ih =>
    rcases op with a | _
    · rw [added_add, List.append_cons]
      exact ih (q ++ [a])
    · rcases q with _ | ⟨a, q⟩
      · simpa [answers, contents] using ih []
      · simpa [answers, contents] using ih q

/-! ## Implementations -/

section Implementation

variable {σ : Type*} (add : σ → α → Option σ) (next : σ → Option (Option α × σ))

/-- The results of the calls of `next`, and the state after all calls. `none`: one of the calls
has thrown an exception. -/
def calls : σ → List (Op α) → Option (List (Option α) × σ)
  | s, [] => some ([], s)
  | s, .add a :: ops => (add s a).bind fun s' => calls s' ops
  | s, .next :: ops =>
    (next s).bind fun (ret, s') => (calls s' ops).map fun (rets, s'') => (ret :: rets, s'')

/-- From the state `s` the calls are served like those of an empty queue, and with enough
further calls of `next` everything added has been returned exactly once and in order. -/
structure IsFifo (s : σ) (ops : List (Op α)) : Prop where
  served : ∃ s', calls add next s ops = some (answers [] ops, s')
  drained : ∃ k rets s', calls add next s (ops ++ List.replicate k .next) = some (rets, s') ∧
    rets.reduceOption = added ops

variable {add next} {s s' : σ} {ops ops' : List (Op α)} {rets rets' : List (Option α)}

theorem calls_append {s'' : σ} (h : calls add next s ops = some (rets, s'))
    (h' : calls add next s' ops' = some (rets', s'')) :
    calls add next s (ops ++ ops') = some (rets ++ rets', s'') := by
  induction ops generalizing s rets with
  | nil =>
    obtain ⟨rfl, rfl⟩ := Prod.mk.inj (Option.some.inj h)
    exact h'
  | cons op ops ih =>
    rcases op with a | _
    · obtain ⟨t, hadd, hrest⟩ := Option.bind_eq_some_iff.mp h
      simp only [List.cons_append, calls, hadd, Option.bind_some]
      exact ih hrest
    · obtain ⟨⟨ret, t⟩, hnext, hrest⟩ := Option.bind_eq_some_iff.mp h
      obtain ⟨⟨rest, u⟩, hcalls, heq⟩ := Option.map_eq_some_iff.mp hrest
      obtain ⟨rfl, rfl⟩ := Prod.mk.inj heq
      simp only [List.cons_append, calls, hnext, Option.bind_some, ih hcalls, Option.map_some]

end Implementation

/-! ## Queues whose slots are used once -/

/-- With `w` elements taken in so far and `q` unread, no more than `L` elements are added in
all, and `next` is called on an empty queue only before the last of them. -/
structure Lasts (L w : ℕ) (q : List α) (ops : List (Op α)) : Prop where
  adds : w + (added ops).length ≤ L
  polls : ∀ pre post, ops = pre ++ .next :: post → contents q pre = [] →
    w + (added pre).length < L

theorem lasts_nil {L w : ℕ} {q : List α} : Lasts L w q [] ↔ w ≤ L := by
  constructor
  · intro h
    exact h.adds
  · intro h
    refine ⟨h, fun pre post hops => ?_⟩
    exact absurd hops.symm (by simp)

theorem lasts_add {L w : ℕ} {q : List α} {a : α} {ops : List (Op α)} :
    Lasts L w q (.add a :: ops) ↔ Lasts L (w + 1) (q ++ [a]) ops := by
  have hlen : ∀ pre : List (Op α), w + (added (.add a :: pre)).length =
      w + 1 + (added pre).length := by
    intro pre
    rw [added_add, List.length_cons]
    omega
  constructor
  · intro h
    refine ⟨hlen ops ▸ h.adds, fun pre post hops hempty => ?_⟩
    rw [← hlen]
    exact h.polls (.add a :: pre) post (by rw [hops]; rfl) hempty
  · intro h
    refine ⟨hlen ops ▸ h.adds, fun pre post hops hempty => ?_⟩
    rcases pre with _ | ⟨op, pre⟩
    · cases hops
    · obtain ⟨rfl, hops'⟩ := List.cons.inj hops
      rw [hlen]
      exact h.polls pre post hops' hempty

theorem lasts_next {L w : ℕ} {q : List α} {ops : List (Op α)} :
    Lasts L w q (.next :: ops) ↔ (q = [] → w < L) ∧ Lasts L w q.tail ops := by
  have hcontents : ∀ pre : List (Op α), contents q (.next :: pre) = contents q.tail pre := by
    intro pre
    rcases q with _ | ⟨a, q⟩
    · rfl
    · rfl
  constructor
  · intro h
    refine ⟨h.polls [] ops rfl, h.adds, fun pre post hops hempty => ?_⟩
    exact h.polls (.next :: pre) post (by rw [hops]; rfl) (by rwa [hcontents])
  · rintro ⟨hfirst, h⟩
    refine ⟨h.adds, fun pre post hops hempty => ?_⟩
    rcases pre with _ | ⟨op, pre⟩
    · exact hfirst hempty
    · obtain ⟨rfl, hops'⟩ := List.cons.inj hops
      rw [hcontents] at hempty
      exact h.polls pre post hops' hempty

/-- The operations of a queue that takes in at most `L` elements: `Holds s q w` says that in the
state `s` the elements of `q` are unread and `w` have been taken in. -/
structure OneShot {σ : Type*} (L : ℕ) (add : σ → α → Option σ)
    (next : σ → Option (Option α × σ)) (Holds : σ → List α → ℕ → Prop) : Prop where
  bounded : ∀ {s q w}, Holds s q w → w ≤ L
  add_free : ∀ {s q w} (a : α), Holds s q w → w < L →
    ∃ s', add s a = some s' ∧ Holds s' (q ++ [a]) (w + 1)
  add_full : ∀ {s q} (a : α), Holds s q L → add s a = none
  next_cons : ∀ {s a q w}, Holds s (a :: q) w → ∃ s', next s = some (some a, s') ∧ Holds s' q w
  next_nil : ∀ {s w}, Holds s [] w → w < L → ∃ s', next s = some (none, s') ∧ Holds s' [] w
  next_done : ∀ {s}, Holds s [] L → next s = none

namespace OneShot

variable {σ : Type*} {L w : ℕ} {add : σ → α → Option σ} {next : σ → Option (Option α × σ)}
  {Holds : σ → List α → ℕ → Prop} {s : σ} {q : List α} {ops : List (Op α)}

/-- A sequence within the limits is served like that of a queue. -/
theorem calls_of_lasts (h : OneShot L add next Holds) (hs : Holds s q w)
    (hlasts : Lasts L w q ops) :
    ∃ s' w', calls add next s ops = some (answers q ops, s') ∧ Holds s' (contents q ops) w' := by
  induction ops generalizing s q w with
  | nil => exact ⟨s, w, rfl, hs⟩
  | cons op ops ih =>
    rcases op with a | _
    · have hrest := lasts_add.mp hlasts
      obtain ⟨t, hadd, ht⟩ := h.add_free a hs (by have := hrest.adds; omega)
      obtain ⟨s', w', hcalls, hs'⟩ := ih ht hrest
      refine ⟨s', w', ?_, hs'⟩
      rw [calls, hadd]
      exact hcalls
    · obtain ⟨hfree, hrest⟩ := lasts_next.mp hlasts
      rcases q with _ | ⟨a, q⟩
      · obtain ⟨t, hnext, ht⟩ := h.next_nil hs (hfree rfl)
        obtain ⟨s', w', hcalls, hs'⟩ := ih ht hrest
        refine ⟨s', w', ?_, hs'⟩
        simp only [calls, hnext, Option.bind_some, hcalls, Option.map_some, answers]
      · obtain ⟨t, hnext, ht⟩ := h.next_cons hs
        obtain ⟨s', w', hcalls, hs'⟩ := ih ht hrest
        refine ⟨s', w', ?_, hs'⟩
        simp only [calls, hnext, Option.bind_some, hcalls, Option.map_some, answers]

/-- A sequence that is served at all is within the limits. -/
theorem lasts_of_calls (h : OneShot L add next Holds) (hs : Holds s q w)
    {result : List (Option α) × σ} (hcalls : calls add next s ops = some result) :
    Lasts L w q ops := by
  induction ops generalizing s q w result with
  | nil => exact lasts_nil.mpr (h.bounded hs)
  | cons op ops ih =>
    have hw := h.bounded hs
    rcases op with a | _
    · obtain ⟨t, hadd, hrest⟩ := Option.bind_eq_some_iff.mp hcalls
      have hfree : w < L := by
        refine lt_of_le_of_ne hw fun hfull => ?_
        rw [h.add_full a (hfull ▸ hs)] at hadd
        cases hadd
      obtain ⟨t', hadd', ht⟩ := h.add_free a hs hfree
      obtain rfl : t = t' := Option.some.inj (hadd.symm.trans hadd')
      exact lasts_add.mpr (ih ht hrest)
    · obtain ⟨⟨ret, t⟩, hnext, hrest⟩ := Option.bind_eq_some_iff.mp hcalls
      obtain ⟨rest, hrest, -⟩ := Option.map_eq_some_iff.mp hrest
      rcases q with _ | ⟨a, q⟩
      · have hfree : w < L := by
          refine lt_of_le_of_ne hw fun hfull => ?_
          rw [h.next_done (hfull ▸ hs)] at hnext
          cases hnext
        obtain ⟨t', hnext', ht⟩ := h.next_nil hs hfree
        obtain ⟨-, rfl⟩ := Prod.mk.inj (Option.some.inj (hnext.symm.trans hnext'))
        exact lasts_next.mpr ⟨fun _ => hfree, ih ht hrest⟩
      · obtain ⟨t', hnext', ht⟩ := h.next_cons hs
        obtain ⟨-, rfl⟩ := Prod.mk.inj (Option.some.inj (hnext.symm.trans hnext'))
        exact lasts_next.mpr ⟨fun hq => absurd hq (List.cons_ne_nil a q), ih ht hrest⟩

/-- What is unread comes out, whatever the limits say. -/
theorem drain (h : OneShot L add next Holds) (hs : Holds s q w) :
    ∃ s', calls add next s (List.replicate q.length .next) = some (q.map some, s') := by
  induction q generalizing s with
  | nil => exact ⟨s, rfl⟩
  | cons a q ih =>
    obtain ⟨t, hnext, ht⟩ := h.next_cons hs
    obtain ⟨s', hcalls⟩ := ih ht
    refine ⟨s', ?_⟩
    simp only [List.length_cons, List.replicate_succ, calls, hnext, Option.bind_some, hcalls,
      Option.map_some, List.map_cons]

/-- **A one-shot queue is a queue exactly as long as its slots last.** -/
theorem serves_iff (h : OneShot L add next Holds) (hs : Holds s [] 0) :
    IsFifo add next s ops ↔ Lasts L 0 [] ops := by
  constructor
  · rintro ⟨⟨s', hcalls⟩, -⟩
    exact h.lasts_of_calls hs hcalls
  · intro hlasts
    obtain ⟨t, w', hcalls, ht⟩ := h.calls_of_lasts hs hlasts
    obtain ⟨s', hdrain⟩ := h.drain ht
    refine ⟨⟨t, hcalls⟩, _, _, s', calls_append hcalls hdrain, ?_⟩
    have hrest : ((contents [] ops).map some).reduceOption = contents [] ops := by
      simp [List.reduceOption]
    calc (answers [] ops ++ (contents [] ops).map some).reduceOption
        = (answers [] ops).reduceOption ++ contents [] ops := by
          rw [List.reduceOption_append, hrest]
      _ = added ops := (conservation [] ops).symm

end OneShot

end Fifo
