import Mathlib.Data.Fintype.Card
import Mathlib.Data.Fintype.EquivFin

/-!
# Rounds of a rendezvous

Finitely many parties go through rounds together. In a round every party posts once, and once
all have posted every party closes once; when the last one closes, the next round begins. This
is what two barriers in a row are for, stated without barriers: `posted` and `closed` are the
parties that have done so in the current round, and the two side conditions are fields, so
that a state in which a party has closed a round that is still being posted to cannot be
built.

The two counters `posts` and `closes`, how often a party has posted and closed in its
lifetime, change by one in the party that moves and in no other (`posts_post`,
`closes_close`), also when the round ends. A component that implements the rendezvous is
related to it through them.
-/

/-- A state of the rendezvous. -/
structure Rendezvous (ι : Type*) [Fintype ι] [DecidableEq ι] where
  round : ℕ
  posted : Finset ι
  closed : Finset ι
  full : closed.Nonempty → posted = Finset.univ
  unfinished : closed ≠ Finset.univ

namespace Rendezvous

variable {ι : Type*} [Fintype ι] [DecidableEq ι]

/-- The beginning of round `r`. -/
def start [Nonempty ι] (r : ℕ) : Rendezvous ι where
  round := r
  posted := ∅
  closed := ∅
  full h := absurd h Finset.not_nonempty_empty
  unfinished h := Finset.univ_nonempty.ne_empty h.symm

/-- Party `i` posts. -/
def post (b : Rendezvous ι) (i : ι) : Rendezvous ι where
  round := b.round
  posted := insert i b.posted
  closed := b.closed
  full h := by rw [b.full h]; exact Finset.insert_eq_of_mem (Finset.mem_univ i)
  unfinished := b.unfinished

/-- Party `i` closes. The last one to do so starts the next round. -/
def close (b : Rendezvous ι) (i : ι) (h : b.posted = Finset.univ) : Rendezvous ι :=
  if hlast : insert i b.closed = Finset.univ then
    have : Nonempty ι := ⟨i⟩
    start (b.round + 1)
  else
    { b with
      closed := insert i b.closed
      full := fun _ => h
      unfinished := hlast }

/-- A step of the rendezvous. -/
inductive Step : Rendezvous ι → Rendezvous ι → Prop where
  | post (b : Rendezvous ι) (i : ι) (hi : i ∉ b.posted) : Step b (b.post i)
  | close (b : Rendezvous ι) (i : ι) (hi : i ∉ b.closed) (h : b.posted = Finset.univ) :
      Step b (b.close i h)

/-- How often `i` has posted. -/
def posts (b : Rendezvous ι) (i : ι) : ℕ := b.round + if i ∈ b.posted then 1 else 0

/-- How often `i` has closed. -/
def closes (b : Rendezvous ι) (i : ι) : ℕ := b.round + if i ∈ b.closed then 1 else 0

variable {b : Rendezvous ι} {i j : ι}

/-! ## What the counters say -/

theorem posted_eq_univ_of_mem (hi : i ∈ b.closed) : b.posted = Finset.univ := b.full ⟨i, hi⟩

theorem closes_of_mem (hi : i ∈ b.closed) : b.closes i = b.round + 1 := by
  rw [closes, if_pos hi]

theorem closes_of_notMem (hi : i ∉ b.closed) : b.closes i = b.round := by
  rw [closes, if_neg hi, Nat.add_zero]

theorem posts_of_mem (hi : i ∈ b.posted) : b.posts i = b.round + 1 := by
  rw [posts, if_pos hi]

theorem posts_of_notMem (hi : i ∉ b.posted) : b.posts i = b.round := by
  rw [posts, if_neg hi, Nat.add_zero]

/-- **Nobody runs ahead**: when a party has closed a round, every party has posted to it. -/
theorem closes_le_posts (b : Rendezvous ι) (i j : ι) : b.closes i ≤ b.posts j := by
  by_cases hi : i ∈ b.closed
  · have hj : j ∈ b.posted := posted_eq_univ_of_mem hi ▸ Finset.mem_univ j
    rw [closes_of_mem hi, posts_of_mem hj]
  · rw [closes_of_notMem hi]
    exact Nat.le_add_right _ _

/-- A party that has posted once more than it has closed is in the middle of the round. -/
theorem between (h : b.posts i = b.closes i + 1) :
    i ∈ b.posted ∧ i ∉ b.closed ∧ b.round = b.closes i := by
  by_cases hi : i ∈ b.closed
  · have hp : i ∈ b.posted := posted_eq_univ_of_mem hi ▸ Finset.mem_univ i
    rw [posts_of_mem hp, closes_of_mem hi] at h
    omega
  · rw [closes_of_notMem hi] at h ⊢
    by_cases hp : i ∈ b.posted
    · exact ⟨hp, hi, rfl⟩
    · rw [posts_of_notMem hp] at h
      omega

/-- A party that has closed as often as it has posted, while somebody has not posted yet, is
before its post. -/
theorem before (h : b.posts i = b.closes i) (hfull : b.posted ≠ Finset.univ) :
    i ∉ b.posted ∧ b.round = b.closes i := by
  have hi : i ∉ b.closed := fun hi => hfull (posted_eq_univ_of_mem hi)
  rw [closes_of_notMem hi] at h ⊢
  refine ⟨fun hp => ?_, rfl⟩
  rw [posts_of_mem hp] at h
  omega

/-- A party that has closed as often as it has posted, when everybody has posted, has closed. -/
theorem after (h : b.posts i = b.closes i) (hfull : b.posted = Finset.univ) : i ∈ b.closed := by
  by_contra hi
  rw [closes_of_notMem hi, posts_of_mem (hfull ▸ Finset.mem_univ i)] at h
  omega

/-! ## How they change -/

@[simp] theorem round_post (b : Rendezvous ι) (i : ι) : (b.post i).round = b.round := rfl

@[simp] theorem posted_post (b : Rendezvous ι) (i : ι) :
    (b.post i).posted = insert i b.posted := rfl

theorem posts_post (hi : i ∉ b.posted) :
    (b.post i).posts j = b.posts j + if j = i then 1 else 0 := by
  by_cases hj : j = i
  · subst hj
    rw [posts_of_notMem hi, posts_of_mem (Finset.mem_insert_self j _), if_pos rfl]
    rfl
  · simp only [posts, round_post, posted_post, Finset.mem_insert, hj, false_or, if_false,
      Nat.add_zero]

theorem closes_post : (b.post i).closes j = b.closes j := rfl

theorem close_of_last {h : b.posted = Finset.univ} (hlast : insert i b.closed = Finset.univ) :
    (b.close i h).round = b.round + 1 ∧ (b.close i h).posted = ∅ ∧
      (b.close i h).closed = ∅ := by
  rw [close, dif_pos hlast]
  exact ⟨rfl, rfl, rfl⟩

theorem close_of_not_last {h : b.posted = Finset.univ}
    (hlast : insert i b.closed ≠ Finset.univ) :
    (b.close i h).round = b.round ∧ (b.close i h).posted = Finset.univ ∧
      (b.close i h).closed = insert i b.closed := by
  rw [close, dif_neg hlast]
  exact ⟨rfl, h, rfl⟩

theorem closes_close (hi : i ∉ b.closed) (h : b.posted = Finset.univ) :
    (b.close i h).closes j = b.closes j + if j = i then 1 else 0 := by
  by_cases hlast : insert i b.closed = Finset.univ
  · -- everybody else had closed, and the round is now one higher
    obtain ⟨hround, -, hclosed⟩ := close_of_last (h := h) hlast
    rw [closes_of_notMem (by rw [hclosed]; exact Finset.notMem_empty j), hround]
    by_cases hj : j = i
    · subst hj
      rw [closes_of_notMem hi, if_pos rfl]
    · have hmem : j ∈ insert i b.closed := hlast ▸ Finset.mem_univ j
      rw [closes_of_mem ((Finset.mem_insert.mp hmem).resolve_left hj), if_neg hj]
  · obtain ⟨hround, -, hclosed⟩ := close_of_not_last (h := h) hlast
    by_cases hj : j = i
    · subst hj
      rw [closes_of_notMem hi, closes_of_mem (hclosed ▸ Finset.mem_insert_self j _), hround,
        if_pos rfl]
    · simp only [closes, hround, hclosed, Finset.mem_insert, hj, false_or, if_false, Nat.add_zero]

theorem posts_close (h : b.posted = Finset.univ) : (b.close i h).posts j = b.posts j := by
  have hj : j ∈ b.posted := h ▸ Finset.mem_univ j
  rw [posts_of_mem hj]
  by_cases hlast : insert i b.closed = Finset.univ
  · obtain ⟨hround, hposted, -⟩ := close_of_last (h := h) hlast
    rw [posts_of_notMem (by rw [hposted]; exact Finset.notMem_empty j), hround]
  · obtain ⟨hround, hposted, -⟩ := close_of_not_last (h := h) hlast
    rw [posts_of_mem (by rw [hposted]; exact Finset.mem_univ j), hround]

end Rendezvous
