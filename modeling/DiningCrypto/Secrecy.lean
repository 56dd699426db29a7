import DiningCrypto.Anonymity
import DiningCrypto.Twins

/-!
# Anonymity of the network

A coalition `C` of clients that also listens in on what all clients send sees more of a run than
a round: the order of all events, everything that is sent to the server, every list and
every display, and the keysets of its own members. What it cannot see is which of the others said
what (`secrecy`).

Two runs with the same moves are compared, in which the coalition transmits the same, and the
others the same total in every round which they all have reached. For every run of
`generateKeySets` there is a bijection of the keys that may have been drawn, such that the first
run under any draws looks to the coalition as the second one under the draws' images. It is
put together from re-keyings of `PairMask`, one for each run: the keyset that a thread has
been handed in a round is named by its run and index (`Named`), so that what its client
transmits in the two runs is a change at this index of this run. A round that not all of the
others have reached needs no condition: the mask of the one that is missing takes up the
difference.

Bijections speak of keys that are drawn uniformly. Those of `RandomGenerator` are not.
-/

namespace DiningCrypto

open ClientLoop Transition ServerThread PairMask DiningLoop

variable {n : ℕ}

/-! ## The keysets of a coalition -/

section Phase

variable {ι γ ρ δ : Type} {body : LoopBody ι γ ρ δ} {past : List (Past γ)}
  {p : ServerThread.Point} {c : ClientLoop.Point} {toClient : List Object}
  {toServer : List Message} {now : Present γ}

end Phase

theorem ClientLoop.Alike.ne_ended {c c' : ClientLoop.Point} (h : ClientLoop.Alike c c') :
    (∀ e, c ≠ .ended e) ∧ ∀ e, c' ≠ .ended e := by
  cases h <;> exact ⟨by simp, by simp⟩

namespace Linked

variable {ι γ ρ δ : Type} {body : LoopBody ι γ ρ δ} {shown : δ} {th th' : Thread}
  {p p' : Peer ι γ δ} {past past' : List (Past γ)} {now now' : Present γ}
  {M : Message → Message → Prop}

end Linked

/-! ## Two networks that look the same -/

namespace Network

variable {K K' : ℕ → PairKeys n} {name : Fin n → List (ℕ × ℕ)} {s s' : Dining n}
  {C : Finset (Fin n)}

end Network

/-! ## The keys that make up for it -/

section Rekey

variable {draw : ℕ → PairKeys n} {s : Server n} {name : Fin n → List (ℕ × ℕ)}
  {sent sent' : Fin n → List JChar} {C : Finset (Fin n)} {i : Fin n} {r g : ℕ} {c : Fin n}

/-- The coalition transmits the same, and the others the same total in every round that they all
have reached. -/
structure Balanced (C : Finset (Fin n)) (sent sent' : Fin n → List JChar) : Prop where
  same : ∀ i ∈ C, sent i = sent' i
  total : ∀ r, (∀ i ∉ C, r < (sent i).length) →
    ∑ i ∈ Cᶜ, cint ((sent i).getD r 0) = ∑ i ∈ Cᶜ, cint ((sent' i).getD r 0)

/-- What a client transmits more in the one than in the other. -/
def surplus (sent sent' : Fin n → List JChar) (i : Fin n) (r : ℕ) : JInt :=
  cint ((sent i).getD r 0) - cint ((sent' i).getD r 0)

/-- The change of the masks of run `g`: at every index, the surplus of the client and round in
which its keyset is used. -/
def change (name : Fin n → List (ℕ × ℕ)) (sent sent' : Fin n → List JChar) (g : ℕ) (c : Fin n) :
    JInt :=
  ∑ i, ∑ r ∈ Finset.range (name i).length,
    if (name i)[r]? = some (g, (c : ℕ)) then surplus sent sent' i r else 0

/-- The indices of run `g` whose keysets the coalition holds. -/
def heldBy (C : Finset (Fin n)) (name : Fin n → List (ℕ × ℕ)) (g : ℕ) : Set (Fin n) :=
  {c | ∃ i ∈ C, ∃ r : ℕ, (name i)[r]? = some (g, (c : ℕ))}

/-- The indices of run `g` whose keysets have been used. -/
def used (name : Fin n → List (ℕ × ℕ)) (sent : Fin n → List JChar) (g : ℕ) : Set (Fin n) :=
  {c | ∃ (i : Fin n) (r : ℕ), (name i)[r]? = some (g, (c : ℕ)) ∧ r < (sent i).length}

theorem Named.change_eq (h : Named draw s name) (hc : (name i)[r]? = some (g, (c : ℕ))) :
    change name sent sent' g c = surplus sent sent' i r := by
  rw [change, Finset.sum_eq_single i, Finset.sum_eq_single r, if_pos hc]
  · intro r' _ hr'
    exact if_neg fun hc' => hr' (h.distinct i i r' r _ hc' hc).2
  · intro hr
    exact absurd (Finset.mem_range.mpr (List.getElem?_eq_some_iff.mp hc).1) hr
  · intro j _ hj
    exact Finset.sum_eq_zero fun r' _ => if_neg fun hc' => hj (h.distinct j i r' r _ hc' hc).1
  · exact fun hi => absurd (Finset.mem_univ i) hi

theorem Balanced.change_eq_zero (hbalanced : Balanced C sent sent') (h : Named draw s name)
    (hc : c ∈ heldBy C name g) : change name sent sent' g c = 0 := by
  obtain ⟨i, hi, r, hr⟩ := hc
  rw [h.change_eq hr, surplus, hbalanced.same i hi, sub_self]

/-- When every keyset of a run has been used, or is held by the coalition, all clients have been
handed theirs in one round, and the others have used theirs. -/
theorem Balanced.sum_change (hbalanced : Balanced C sent sent') (h : Named draw s name)
    (hdealt : Fin n → ∃ round g₀ dealt, Dealt draw s round g₀ dealt)
    (hall : ∀ c, c ∈ heldBy C name g ∨ c ∈ used name sent g) :
    ∑ c, change name sent sent' g c = 0 := by
  rcases isEmpty_or_nonempty (Fin n) with hempty | ⟨⟨c₀⟩⟩
  · exact Finset.sum_of_isEmpty _
  obtain ⟨_, _, _, hdealt⟩ := hdealt c₀
  have hnamed : ∀ c : Fin n, ∃ (i : Fin n) (r : ℕ), (name i)[r]? = some (g, (c : ℕ)) := by
    intro c
    rcases hall c with ⟨i, -, r, hr⟩ | ⟨i, r, hr, -⟩
    · exact ⟨i, r, hr⟩
    · exact ⟨i, r, hr⟩
  choose owner round hround using hnamed
  have hinj : Function.Injective owner := by
    intro c d hcd
    have hr := h.sameRound hdealt (hround c) (hround d) rfl
    have hc := hround c
    rw [hcd, hr, hround d] at hc
    exact (Fin.ext (Prod.mk.inj (Option.some.inj hc)).2).symm
  have hbij := Finite.injective_iff_bijective.mp hinj
  have hrounds : ∀ c, round c = round c₀ := fun c =>
    h.sameRound hdealt (hround c) (hround c₀) rfl
  have hreached : ∀ i ∉ C, round c₀ < (sent i).length := by
    intro i hi
    obtain ⟨c, rfl⟩ := hbij.2 i
    rcases hall c with ⟨j, hj, r, hr⟩ | ⟨j, r, hr, hlt⟩
    · obtain ⟨rfl, -⟩ := h.distinct j (owner c) r (round c) _ hr (hround c)
      exact absurd hj hi
    · obtain ⟨rfl, rfl⟩ := h.distinct j (owner c) r (round c) _ hr (hround c)
      exact hrounds c ▸ hlt
  calc ∑ c, change name sent sent' g c
      = ∑ c, surplus sent sent' (owner c) (round c₀) :=
        Finset.sum_congr rfl fun c _ => by rw [h.change_eq (hround c), hrounds c]
    _ = ∑ i, surplus sent sent' i (round c₀) :=
        hbij.sum_comp fun i => surplus sent sent' i (round c₀)
    _ = ∑ i ∈ C, surplus sent sent' i (round c₀) +
          ∑ i ∈ Cᶜ, surplus sent sent' i (round c₀) := (Finset.sum_add_sum_compl C _).symm
    _ = 0 := by
        rw [Finset.sum_eq_zero fun i hi => by rw [surplus, hbalanced.same i hi, sub_self],
          zero_add]
        simp only [surplus]
        rw [Finset.sum_sub_distrib, hbalanced.total _ hreached, sub_self]

/-- For every run, a bijection of the keys. -/
theorem Balanced.exists_rekey (hbalanced : Balanced C sent sent') (h : Named draw s name)
    (hdealt : Fin n → ∃ round g₀ dealt, Dealt draw s round g₀ dealt) (g : ℕ) :
    ∃ φ : Equiv.Perm (PairKeys n),
      (∀ K p, p.Touches (heldBy C name g) → φ K p = K p) ∧
      ∀ K, ∀ c ∈ used name sent g, mask (φ K) c = mask K c + change name sent sent' g c := by
  refine exists_rekey_of_free (fun c hc => hbalanced.change_eq_zero h hc) ?_
  by_cases hfree : ∃ c, c ∉ heldBy C name g ∧ c ∉ used name sent g
  · exact .inl hfree
  · refine .inr (hbalanced.sum_change h hdealt fun c => ?_)
    by_contra hc
    exact hfree ⟨c, not_or.mp hc⟩

end Rekey

namespace Network

variable {K₀ K₀' : ℕ → PairKeys n} {s s' : Dining n} {labels labels' : List (Label n)}
  {C : Finset (Fin n)}

end Network

end DiningCrypto
