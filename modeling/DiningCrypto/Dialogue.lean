import Mathlib.Data.List.Basic

/-!
# Dialogues over two queues

Two parties, a left and a right one, talk over two first-in first-out queues. What may be
said is given by a `Dialogue`: in a state of the dialogue at most one of the parties speaks,
and what it says leads to the next state. Each party keeps its own view of that state, moved
by what it sends and by what it reads; the views differ by what is still in the queues.

`Consistent` relates the two views and the two queues. It holds when nothing has been said,
and sending what the dialogue allows in one's own view preserves it (`send_left`,
`send_right`). Its use is in the reads: whatever stands at the head of a queue is something
the dialogue allows in the *reader's* view (`read_right`, `read_left`).
-/

/-- Who may say what. -/
structure Dialogue (π α β : Type*) where
  left : π → α → π → Prop
  right : π → β → π → Prop
  alternate : ∀ {p q r : π} {a : α} {b : β}, left p a q → ¬ right p b r

namespace Dialogue

variable {π α β : Type*}

/-- The utterances `as` lead from `p` to `q`. -/
inductive Leads (may : π → α → π → Prop) : π → List α → π → Prop where
  | nil (p : π) : Leads may p [] p
  | cons {p q r : π} {a : α} {as : List α} (h : may p a q) (hs : Leads may q as r) :
      Leads may p (a :: as) r

theorem Leads.append {may : π → α → π → Prop} {p q r : π} {as : List α} {a : α}
    (hs : Leads may p as q) (h : may q a r) : Leads may p (as ++ [a]) r := by
  induction hs with
  | nil p => exact .cons h (.nil r)
  | cons hfirst _ ih => exact .cons hfirst (ih h)

/-- The left party's view `l`, the right party's view `r` and the two queues fit together:
one queue is empty, and the other holds what leads from its reader's view to its writer's. -/
def Consistent (d : Dialogue π α β) (l r : π) (toRight : List α) (toLeft : List β) : Prop :=
  (toLeft = [] ∧ Leads d.left r toRight l) ∨ (toRight = [] ∧ Leads d.right l toLeft r)

/-- The same dialogue, seen from the other side. -/
def swap (d : Dialogue π α β) : Dialogue π β α where
  left := d.right
  right := d.left
  alternate h h' := d.alternate h' h

variable {d : Dialogue π α β} {p l l' r r' : π} {toRight : List α} {toLeft : List β}
  {a : α} {b : β}

theorem consistent_start (d : Dialogue π α β) (p : π) : d.Consistent p p [] [] :=
  .inl ⟨rfl, .nil p⟩

theorem Consistent.swap (h : d.Consistent l r toRight toLeft) :
    d.swap.Consistent r l toLeft toRight := Or.symm h

/-- Who may speak in its own view has read everything. -/
theorem Consistent.nothing_unread (h : d.Consistent l r toRight toLeft)
    (ha : d.left l a l') : toLeft = [] := by
  rcases h with ⟨hl, -⟩ | ⟨-, hlead⟩
  · exact hl
  · cases hlead with
    | nil => rfl
    | cons hb _ => exact absurd hb (d.alternate ha)

/-- The left party says what the dialogue allows it. -/
theorem Consistent.send_left (h : d.Consistent l r toRight toLeft) (ha : d.left l a l') :
    d.Consistent l' r (toRight ++ [a]) toLeft := by
  have hread := h.nothing_unread ha
  rcases h with ⟨-, hlead⟩ | ⟨rfl, hlead⟩
  · exact .inl ⟨hread, hlead.append ha⟩
  · subst hread
    cases hlead
    exact .inl ⟨rfl, .cons ha (.nil l')⟩

/-- The right party reads what the dialogue allows in its view; the rest of the queue leads
on to the left party's view. -/
theorem Consistent.read_right (h : d.Consistent l r (a :: toRight) toLeft) :
    ∃ r', d.left r a r' ∧ Leads d.left r' toRight l ∧ toLeft = [] := by
  rcases h with ⟨hl, hlead⟩ | ⟨hr, -⟩
  · cases hlead with
    | cons ha hrest => exact ⟨_, ha, hrest, hl⟩
  · cases hr

theorem Consistent.send_right (h : d.Consistent l r toRight toLeft) (hb : d.right r b r') :
    d.Consistent l r' toRight (toLeft ++ [b]) :=
  (h.swap.send_left (d := d.swap) hb).swap

theorem Consistent.read_left (h : d.Consistent l r toRight (b :: toLeft)) :
    ∃ l', d.right l b l' ∧ Leads d.right l' toLeft r ∧ toRight = [] :=
  h.swap.read_right

/-- A party that has nothing to say in a state has said nothing since. -/
theorem Leads.eq_of_silent {may : π → α → π → Prop} {p q : π} {as : List α}
    (h : Leads may p as q) (hp : ∀ a q, ¬ may p a q) : as = [] ∧ q = p := by
  cases h with
  | nil => exact ⟨rfl, rfl⟩
  | cons ha _ => exact absurd ha (hp _ _)

end Dialogue
