import DiningCrypto.Rendezvous
import DiningCrypto.ServerThread

/-!
# The two barriers

The two `synchronized` blocks of `ServerThread.run` are meant to make the threads go through
rounds together: nobody passes the first before every output of the round is in the message
list, and nobody passes the second before every client has been sent that list. This is a
`Rendezvous`, in which adding an output is a post and counting a sent result list is a close.

The blocks implement it except for one thing. A thread that finds the list full notifies
everybody, also the threads parked at the *second* barrier; one of these may then add its
output of the next round to the list of the present one. `Roomy` excludes exactly the step
that does this damage. In the runs without it the threads refine the rendezvous
(`follows_run`), which gives agreement on every round's result list and freedom from
deadlock; with it, both fail.
-/

namespace DiningCrypto

open ServerThread Transition

/-! ## Program points as positions in the rendezvous -/

namespace ServerThread

/-- Whether the output of the current round has been added. -/
def added : Point → ℕ
  | .first | .waitFirst | .leaveFirst | .copyResults | .sendResults _ | .resultsReply
  | .second | .waitSecond | .leaveSecond => 1
  | _ => 0

/-- Whether the result list of the current round has been written to the socket. -/
def answered : Point → ℕ
  | .resultsReply | .second | .waitSecond | .leaveSecond => 1
  | _ => 0

/-- Whether the result list of the current round has been counted as sent. -/
def counted : Point → ℕ
  | .waitSecond | .leaveSecond => 1
  | _ => 0

/-- Between the two barriers. -/
def Opened : Point → Prop
  | .leaveFirst | .copyResults | .sendResults _ | .resultsReply | .second => True
  | _ => False

/-- The local variables of thread `t` in round `r`. -/
def Carries {n : ℕ} (answers : Answers n) (t : Fin n) (r : ℕ) : Point → Prop
  | .addOutput output => output = answers.output t r
  | .sendResults results => results.Perm (answers.outputs r)
  | _ => True

end ServerThread

theorem ServerThread.waiting_iff {p : Point} :
    waiting p = true ↔ p = .waitFirst ∨ p = .waitSecond := by
  cases p <;> simp [waiting]

theorem ServerThread.wake_ne_waitFirst (p : Point) : wake p ≠ .waitFirst := by
  cases p <;> nofun

theorem ServerThread.wake_ne_waitSecond (p : Point) : wake p ≠ .waitSecond := by
  cases p <;> nofun

theorem ServerThread.Opened.added_eq {p : Point} (h : Opened p) : added p = 1 := by
  cases p <;> first | rfl | exact h.elim

theorem ServerThread.Opened.counted_eq {p : Point} (h : Opened p) : counted p = 0 := by
  cases p <;> first | rfl | exact h.elim

variable {n : ℕ} {answers : Answers n} {draw : ℕ → PairKeys n} {b : Rendezvous (Fin n)}
  {s s' : Server n} {t : Fin n} {th th' : Thread}

/-- Thread `t` is where the rendezvous has it. -/
structure Thread.Fits (answers : Answers n) (b : Rendezvous (Fin n)) (t : Fin n)
    (th : Thread) : Prop where
  posts : b.posts t = th.round + added th.point
  closes : b.closes t = th.round + counted th.point
  opened : Opened th.point → b.posted = Finset.univ
  parked : th.point = .waitSecond → t ∈ b.closed
  carries : Carries answers t th.round th.point
  length : th.results.length = th.round + answered th.point
  results : ∀ (r : ℕ) (l : List Message), th.results[r]? = some l → l.Perm (answers.outputs r)

/-- The server is where the rendezvous has it. -/
structure Follows (answers : Answers n) (s : Server n) (b : Rendezvous (Fin n)) : Prop where
  fits : ∀ t, (s.thread t).Fits answers b t
  noSent : s.shared.noSent = b.closed.card
  messages : s.shared.currentRoundMessages.Perm
    (b.posted.toList.map fun t => answers.output t b.round)
  /-- When the last output has come in, somebody is still going to notify. -/
  awaited : (∃ t, (s.thread t).point = .waitFirst) → b.posted = Finset.univ →
    ∃ t, (s.thread t).point = .first

/-- No output is added to a message list that is already full. -/
def Roomy (t : Fin n) (s : Server n) : Prop :=
  adding (s.thread t).point = true →
    s.shared.getNoOfMessages < s.shared.getNumberClients

instance (t : Fin n) : DecidablePred (Roomy t) := fun _ => inferInstanceAs (Decidable (_ → _))

/-! ## One thread -/

/-- A thread between its post and its close is in the round of the rendezvous. -/
theorem Thread.Fits.between (h : th.Fits answers b t) (ha : added th.point = 1)
    (hc : counted th.point = 0) : t ∈ b.posted ∧ t ∉ b.closed ∧ b.round = th.round := by
  have hclose : b.closes t = th.round := by rw [h.closes, hc, Nat.add_zero]
  have hpost : b.posts t = b.closes t + 1 := by rw [h.posts, hclose, ha]
  obtain ⟨hp, hn, hr⟩ := Rendezvous.between hpost
  exact ⟨hp, hn, hr.trans hclose⟩

/-- A move of the thread that is no move of the rendezvous. -/
theorem Thread.Fits.move (h : th.Fits answers b t)
    (hposts : th'.round + added th'.point = th.round + added th.point)
    (hcloses : th'.round + counted th'.point = th.round + counted th.point)
    (hlength : th'.round + answered th'.point = th.round + answered th.point)
    (hresults : th'.results = th.results)
    (hopened : Opened th'.point → b.posted = Finset.univ)
    (hparked : th'.point ≠ .waitSecond)
    (hcarries : Carries answers t th'.round th'.point) : th'.Fits answers b t where
  posts := hposts ▸ h.posts
  closes := hcloses ▸ h.closes
  opened := hopened
  parked hp := absurd hp hparked
  carries := hcarries
  length := by rw [hresults, hlength, h.length]
  results := hresults ▸ h.results

/-- The rendezvous moves, but not in what concerns this thread. -/
theorem Thread.Fits.transfer {b' : Rendezvous (Fin n)} (h : th.Fits answers b t)
    (hposts : b'.posts t = b.posts t) (hcloses : b'.closes t = b.closes t)
    (hopened : Opened th.point → b'.posted = Finset.univ)
    (hparked : th.point = .waitSecond → t ∈ b'.closed) : th.Fits answers b' t where
  posts := hposts.trans h.posts
  closes := hcloses.trans h.closes
  opened := hopened
  parked := hparked
  carries := h.carries
  length := h.length
  results := h.results

/-- Waking a thread does not move it in the rendezvous. -/
theorem Thread.Fits.wake (h : th.Fits answers b t)
    (hfull : th.point = .waitFirst → b.posted = Finset.univ) :
    Thread.Fits answers b t { th with point := wake th.point } := by
  obtain ⟨point, round, keys, results⟩ := th
  cases point with
  | waitFirst => exact h.move rfl rfl rfl rfl (fun _ => hfull rfl) nofun trivial
  | waitSecond => exact h.move rfl rfl rfl rfl nofun nofun trivial
  | _ => exact h

/-! ## One step -/

/-- Every thread fits after a step if the one that moved does and the others do. -/
theorem Server.fits_put {shared : SharedServerInfo n} (ht : th.Fits answers b t)
    (hs : ∀ u, u ≠ t → (s.thread u).Fits answers b u) (u : Fin n) :
    ((s.put t shared th).thread u).Fits answers b u :=
  Server.forall_put (P := fun u th => th.Fits answers b u) ht hs u

/-- A step of thread `t` neither towards nor away from the first `wait` leaves to the waiting
threads the one that is going to notify them. -/
theorem Server.awaited_put {shared : SharedServerInfo n}
    (hawaited : (∃ u, (s.thread u).point = .waitFirst) → ∃ v, (s.thread v).point = .first)
    (hfirst : (s.thread t).point ≠ .first) (hwait : th.point ≠ .waitFirst) :
    (∃ u, ((s.put t shared th).thread u).point = .waitFirst) →
      ∃ v, ((s.put t shared th).thread v).point = .first := by
  rintro ⟨u, hu⟩
  have hut : u ≠ t := by
    rintro rfl
    rw [s.thread_put_self] at hu
    exact hwait hu
  rw [s.thread_put_of_ne shared hut] at hu
  obtain ⟨v, hv⟩ := hawaited ⟨u, hu⟩
  have hvt : v ≠ t := by
    rintro rfl
    exact hfirst hv
  exact ⟨v, by rw [s.thread_put_of_ne shared hvt]; exact hv⟩

/-- A step that is no step of the rendezvous: only thread `t` changes, neither towards nor
away from the first `wait`. -/
theorem Follows.stay (h : Follows answers s b) {shared : SharedServerInfo n}
    (hsent : shared.noSent = s.shared.noSent)
    (hmessages : shared.currentRoundMessages = s.shared.currentRoundMessages)
    (hfirst : (s.thread t).point ≠ .first) (hwait : th.point ≠ .waitFirst)
    (ht : th.Fits answers b t) : Follows answers (s.put t shared th) b where
  fits := Server.fits_put ht fun u _ => h.fits u
  noSent := hsent.trans h.noSent
  messages := hmessages ▸ h.messages
  awaited hwaiting hfull := Server.awaited_put (fun hw => h.awaited hw hfull) hfirst hwait hwaiting

/-- The message list is full exactly when every party has posted. -/
theorem Follows.full_iff (h : Follows answers s b) :
    s.shared.getNoOfMessages < s.shared.getNumberClients ↔ b.posted ≠ Finset.univ := by
  rw [SharedServerInfo.getNoOfMessages, SharedServerInfo.getNumberClients,
    h.messages.length_eq, List.length_map, Finset.length_toList,
    ← Finset.card_lt_iff_ne_univ, Fintype.card_fin]

/-- The count of sent lists is complete exactly when the last party closes. -/
theorem Follows.last_iff (h : Follows answers s b) (ht : t ∉ b.closed) :
    s.shared.incrementSent.getSent < s.shared.incrementSent.getNumberClients ↔
      insert t b.closed ≠ Finset.univ := by
  rw [← Finset.card_lt_iff_ne_univ, Finset.card_insert_of_notMem ht, ← h.noSent,
    Fintype.card_fin]
  rfl

/-- A full list is the outputs of the round. -/
theorem Follows.messages_perm_outputs (h : Follows answers s b)
    (hfull : b.posted = Finset.univ) :
    s.shared.currentRoundMessages.Perm (answers.outputs b.round) := by
  have hall : Finset.univ.toList.Perm (List.finRange n) :=
    (List.perm_ext_iff_of_nodup (Finset.nodup_toList _) (List.nodup_finRange n)).mpr
      fun t => by simp only [Finset.mem_toList, Finset.mem_univ, List.mem_finRange]
  rw [Answers.outputs, List.ofFn_eq_map]
  exact (hfull ▸ h.messages).trans (hall.map _)

/-- Adding an output with room in the list is a post. -/
theorem Follows.addOutput (h : Follows answers s b) {output : Message}
    (hp : (s.thread t).point = .addOutput output)
    (hroom : s.shared.currentRoundMessages.length < n) :
    t ∉ b.posted ∧
      Follows answers
        (s.put t (s.shared.addOutput output) { s.thread t with point := .first }) (b.post t) := by
  have hfit := h.fits t
  have hposts : b.posts t = (s.thread t).round := by rw [hfit.posts, hp]; rfl
  have hcloses : b.closes t = (s.thread t).round := by rw [hfit.closes, hp]; rfl
  -- with room in the list somebody has not posted, so the round is still this thread's
  obtain ⟨ht, hround⟩ :=
    Rendezvous.before (hposts.trans hcloses.symm) (h.full_iff.mp hroom)
  have hout : output = answers.output t b.round := by
    have hc := hfit.carries
    rw [hp] at hc
    rw [hround, hcloses]
    exact hc
  have hothers : ∀ u, u ≠ t → (s.thread u).Fits answers (b.post t) u := fun u hu =>
    (h.fits u).transfer (by rw [Rendezvous.posts_post ht, if_neg hu, Nat.add_zero]) rfl
      (fun ho => by
        rw [Rendezvous.posted_post, (h.fits u).opened ho]
        exact Finset.insert_eq_of_mem (Finset.mem_univ t))
      (h.fits u).parked
  refine ⟨ht, Server.fits_put ⟨?_, ?_, nofun, nofun, trivial, ?_, hfit.results⟩ hothers,
    h.noSent, ?_, ?_⟩
  · rw [Rendezvous.posts_post ht, if_pos rfl, hposts]
    rfl
  · rw [Rendezvous.closes_post, hcloses]
    rfl
  · rw [hfit.length, hp]
    rfl
  · rw [hout]
    refine ((h.messages.append_right _).trans (List.perm_append_singleton _ _)).trans ?_
    exact ((Finset.toList_insert ht).map fun u => answers.output u b.round).symm
  · exact fun _ _ => ⟨t, by rw [s.thread_put_self]⟩

/-- Waiting at the first barrier while outputs are missing. -/
theorem Follows.parkFirst (h : Follows answers s b) (hp : (s.thread t).point = .first)
    (hfull : b.posted ≠ Finset.univ) :
    Follows answers (s.put t s.shared { s.thread t with point := .waitFirst }) b where
  fits := by
    refine Server.fits_put ((h.fits t).move ?_ ?_ ?_ rfl nofun nofun trivial)
      fun u _ => h.fits u
    all_goals rw [hp]; rfl
  noSent := h.noSent
  messages := h.messages
  awaited _ hall := absurd hall hfull

/-- Passing the first barrier when all outputs are there. This wakes everybody, at whichever
barrier; all that a thread parked at the second one loses is its place there. -/
theorem Follows.passFirst (h : Follows answers s b) (hp : (s.thread t).point = .first)
    (hfull : b.posted = Finset.univ) :
    Follows answers (s.notifyAll.put t s.shared { s.thread t with point := .copyResults }) b where
  fits := by
    refine Server.fits_put ((h.fits t).move ?_ ?_ ?_ rfl (fun _ => hfull) nofun trivial)
      fun u _ => (h.fits u).wake fun _ => hfull
    all_goals rw [hp]; rfl
  noSent := h.noSent
  messages := h.messages
  awaited := by
    rintro ⟨u, hu⟩ -
    -- nobody is left in the first `wait`
    by_cases hut : u = t
    · subst hut
      rw [Server.thread_put_self] at hu
      cases hu
    · rw [Server.thread_put_of_ne _ _ hut] at hu
      exact absurd hu (wake_ne_waitFirst _)

/-- Counting a result list as sent, before the last one. -/
theorem Follows.parkSecond (h : Follows answers s b) (hp : (s.thread t).point = .second)
    (hfull : b.posted = Finset.univ) (ht : t ∉ b.closed)
    (hlast : insert t b.closed ≠ Finset.univ) :
    Follows answers
      (s.put t s.shared.incrementSent { s.thread t with point := .waitSecond })
      (b.close t hfull) := by
  obtain ⟨hround, hposted, hclosed⟩ := Rendezvous.close_of_not_last (h := hfull) hlast
  have hothers : ∀ u, u ≠ t → (s.thread u).Fits answers (b.close t hfull) u := fun u hu =>
    (h.fits u).transfer (Rendezvous.posts_close hfull)
      (by rw [Rendezvous.closes_close ht hfull, if_neg hu, Nat.add_zero]) (fun _ => hposted)
      (fun hw => hclosed ▸ Finset.mem_insert_of_mem ((h.fits u).parked hw))
  refine ⟨Server.fits_put ⟨?_, ?_, nofun, ?_, trivial, ?_, (h.fits t).results⟩ hothers,
    ?_, ?_, ?_⟩
  · rw [Rendezvous.posts_close hfull, (h.fits t).posts, hp]
    rfl
  · rw [Rendezvous.closes_close ht hfull, if_pos rfl, (h.fits t).closes, hp]
    rfl
  · exact fun _ => hclosed ▸ Finset.mem_insert_self t b.closed
  · rw [(h.fits t).length, hp]
    rfl
  · rw [hclosed, Finset.card_insert_of_notMem ht, ← h.noSent]
    rfl
  · rw [hround, hposted, ← hfull]
    exact h.messages
  · intro hwaiting _
    refine Server.awaited_put (fun hw => h.awaited hw hfull) ?_ ?_ hwaiting
    · rw [hp]
      intro hfirst
      cases hfirst
    · intro hwait
      cases hwait

/-- Counting the last result list as sent: the next round begins, and everybody who waited
at the second barrier is released into it. -/
theorem Follows.finish (h : Follows answers s b) (hp : (s.thread t).point = .second)
    (hfull : b.posted = Finset.univ) (ht : t ∉ b.closed)
    (hlast : insert t b.closed = Finset.univ) :
    Follows answers
      (s.notifyAll.put t s.shared.incrementSent.resetRoundMessages.resetSent
        { s.thread t with point := .getKeySet, round := (s.thread t).round + 1 })
      (b.close t hfull) := by
  obtain ⟨hround, hposted, hclosed⟩ := Rendezvous.close_of_last (h := hfull) hlast
  have hothers : ∀ u, u ≠ t → (s.notifyAll.thread u).Fits answers (b.close t hfull) u := by
    intro u hu
    -- the others have closed before
    have hmem : u ∈ b.closed :=
      (Finset.mem_insert.mp (hlast ▸ Finset.mem_univ u)).resolve_left hu
    have hwake := (h.fits u).wake fun _ => hfull
    refine hwake.transfer (Rendezvous.posts_close hfull) ?_ (fun ho => ?_)
      fun hw => absurd hw (wake_ne_waitSecond _)
    · rw [Rendezvous.closes_close ht hfull, if_neg hu, Nat.add_zero]
    · -- nobody is between the barriers any more
      exact absurd hmem (hwake.between ho.added_eq ho.counted_eq).2.1
  refine ⟨Server.fits_put ⟨?_, ?_, nofun, nofun, trivial, ?_, (h.fits t).results⟩ hothers,
    ?_, ?_, ?_⟩
  · rw [Rendezvous.posts_close hfull, (h.fits t).posts, hp]
    rfl
  · rw [Rendezvous.closes_close ht hfull, if_pos rfl, (h.fits t).closes, hp]
    rfl
  · rw [(h.fits t).length, hp]
    rfl
  · rw [hclosed]
    rfl
  · rw [hposted, Finset.toList_empty]
    exact List.Perm.nil
  · intro _ hall
    have : Nonempty (Fin n) := ⟨t⟩
    rw [hposted] at hall
    exact absurd hall.symm Finset.univ_nonempty.ne_empty

/-! ## Runs -/

/-- The thread's own moves. -/
theorem Thread.Fits.own {info : SharedServerInfo n} (h : th.Fits answers b t)
    (hmessages : b.posted = Finset.univ →
      info.currentRoundMessages.Perm (answers.outputs b.round))
    (hown : Server.Own answers t info th th') : th'.Fits answers b t := by
  obtain ⟨point, round, keys, results⟩ := th
  cases hown with
  | sendKeys hp | keysReply hp | sendStartRound hp =>
    obtain rfl := hp
    exact h.move rfl rfl rfl rfl nofun nofun trivial
  | output hp =>
    obtain rfl := hp
    exact h.move rfl rfl rfl rfl nofun nofun rfl
  | leaveFirst hp =>
    obtain rfl := hp
    exact h.move rfl rfl rfl rfl (fun _ => h.opened trivial) nofun trivial
  | copyResults hp =>
    obtain rfl := hp
    -- between the barriers the list is complete, and it is the list of this round
    have hfull := h.opened trivial
    have hround : b.round = round := (h.between rfl rfl).2.2
    exact h.move rfl rfl rfl rfl (fun _ => hfull) nofun (hround ▸ hmessages hfull)
  | sendResults hp =>
    rename_i sent
    obtain rfl := hp
    have hlength : results.length = round := h.length
    refine ⟨h.posts, h.closes, fun _ => h.opened trivial, nofun, trivial, ?_, ?_⟩
    · rw [List.length_append, hlength]
      rfl
    · intro r l hl
      rcases getElem?_append_cases hl with hold | ⟨rfl, rfl⟩
      · exact h.results r l hold
      · rw [hlength]
        exact h.carries
  | resultsReply hp =>
    obtain rfl := hp
    exact h.move rfl rfl rfl rfl (fun _ => h.opened trivial) nofun trivial
  | leaveSecond hp =>
    obtain rfl := hp
    exact h.move rfl rfl rfl rfl nofun nofun trivial

/-- Dealing with keys does not concern the barriers. -/
theorem SharedServerInfo.getKeySet_frame {info info' : SharedServerInfo n} {key : KeySet}
    (h : info.getKeySet draw = some (key, info')) :
    info'.noSent = info.noSent ∧
      info'.currentRoundMessages = info.currentRoundMessages := by
  unfold SharedServerInfo.getKeySet at h
  simp only [Option.bind_eq_some_iff, Option.map_eq_some_iff, Prod.mk.injEq] at h
  obtain ⟨_, -, _, -, -, rfl⟩ := h
  split_ifs <;> exact ⟨rfl, rfl⟩

/-- **One step.** A step with room for the output it may add is a step of the rendezvous, or
none at all. -/
theorem follows_step (h : Follows answers s b) (hroom : Roomy t s)
    (hstep : Server.step answers draw t s = some s') :
    ∃ b', Relation.ReflTransGen Rendezvous.Step b b' ∧ Follows answers s' b' := by
  have hfit := h.fits t
  cases Server.step_effect answers draw hstep with
  | own hown =>
    refine ⟨b, .refl, h.stay rfl rfl ?_ ?_ (hfit.own h.messages_perm_outputs hown)⟩
    · cases hown <;> simp only [*, ne_eq, reduceCtorEq, not_false_eq_true]
    · cases hown <;> nofun
  | generateKeySets hp =>
    refine ⟨b, .refl, h.stay rfl rfl (by rw [hp]; nofun) nofun
      (hfit.move ?_ ?_ ?_ rfl nofun nofun trivial)⟩
    all_goals rw [hp]; rfl
  | getKeySet hp hget =>
    obtain ⟨hsent, hmessages⟩ := SharedServerInfo.getKeySet_frame hget
    refine ⟨b, .refl, h.stay hsent hmessages (by rw [hp]; nofun) nofun
      (hfit.move ?_ ?_ ?_ rfl nofun nofun trivial)⟩
    all_goals rw [hp]; rfl
  | addOutput hp =>
    obtain ⟨ht, hfollows⟩ := h.addOutput hp (hroom (hp ▸ rfl))
    exact ⟨b.post t, .single (.post b t ht), hfollows⟩
  | parkFirst hp hlt => exact ⟨b, .refl, h.parkFirst hp (h.full_iff.mp hlt)⟩
  | passFirst hp hlt =>
    exact ⟨b, .refl, h.passFirst hp (not_not.mp (h.full_iff.not.mp hlt))⟩
  | parkSecond hp hlt =>
    have hfull : b.posted = Finset.univ := hfit.opened (hp ▸ trivial)
    have ht : t ∉ b.closed := (hfit.between (hp ▸ rfl) (hp ▸ rfl)).2.1
    exact ⟨b.close t hfull, .single (.close b t ht hfull),
      h.parkSecond hp hfull ht ((h.last_iff ht).mp hlt)⟩
  | finish hp hlt =>
    have hfull : b.posted = Finset.univ := hfit.opened (hp ▸ trivial)
    have ht : t ∉ b.closed := (hfit.between (hp ▸ rfl) (hp ▸ rfl)).2.1
    exact ⟨b.close t hfull, .single (.close b t ht hfull),
      h.finish hp hfull ht (not_not.mp ((h.last_iff ht).not.mp hlt))⟩

/-- Before any thread has started, the rendezvous is at the start of round `0`. -/
theorem follows_initial [NeZero n] :
    Follows answers (Server.initial n) (Rendezvous.start 0) where
  fits t := ⟨rfl, rfl, nofun, nofun, trivial, rfl, nofun⟩
  noSent := rfl
  messages := by
    rw [show (Rendezvous.start 0 : Rendezvous (Fin n)).posted = ∅ from rfl, Finset.toList_empty]
    exact List.Perm.nil
  awaited := fun ⟨_, ht⟩ => nomatch ht

/-- **The threads refine the rendezvous**, in every run that never adds an output to a full
list. -/
theorem follows_run [NeZero n] {schedule : List (Fin n)}
    (hroomy : Guarded (Server.step answers draw) Roomy schedule (Server.initial n))
    (hrun : Transition.run (Server.step answers draw) schedule (Server.initial n) = some s) :
    ∃ b, Relation.ReflTransGen Rendezvous.Step (Rendezvous.start 0) b ∧ Follows answers s b :=
  simulation (fun _ _ _ _ h hroom hstep => follows_step h hroom hstep) follows_initial
    hroomy hrun

/-! ## Agreement on the result lists -/

/-- Two clients whose outputs are all different. -/
def numbered : Answers 2 where
  output t r := Message.output (BitVec.ofNat 32 (2 * r + t))
  ne_exit _ _ := Message.output_ne (by decide) _

/-- Both threads add their outputs, and thread `0` goes on through the first barrier. -/
def inStep : List (Fin 2) :=
  [0, 1] ++ List.replicate 6 0 ++ List.replicate 6 1 ++ List.replicate 3 0

/-- Both threads add their outputs. Thread `0` goes through the first barrier and parks at
the second; thread `1`, passing the first, wakes it, and it adds its next output before
thread `1` copies the list. -/
def overtaking : List (Fin 2) :=
  [0, 1] ++ List.replicate 6 0 ++ List.replicate 6 1 ++ List.replicate 5 0 ++ [1] ++
    List.replicate 7 0 ++ [1, 1]

/-- **Round agreement.** In a run that never adds an output to a full message list, every
list a thread sends in a round consists of the outputs of that round, one of every client. -/
theorem results_perm_outputs {schedule : List (Fin n)}
    (hroomy : Guarded (Server.step answers draw) Roomy schedule (Server.initial n))
    (hrun : Transition.run (Server.step answers draw) schedule (Server.initial n) = some s)
    {r : ℕ} {l : List Message} (hl : (s.thread t).results[r]? = some l) :
    l.Perm (answers.outputs r) := by
  have : NeZero n := ⟨Nat.ne_of_gt (Nat.zero_lt_of_lt t.2)⟩
  obtain ⟨b, -, h⟩ := follows_run hroomy hrun
  exact (h.fits t).results r l hl

/-- Such a run. -/
theorem results_perm_outputs_inStep :
    ∃ s l, Transition.run (Server.step numbered 0) inStep (Server.initial 2) = some s ∧
      (s.thread 0).results[0]? = some l ∧ l.Perm (numbered.outputs 0) := by
  have hsent : ((Transition.run (Server.step numbered 0) inStep (Server.initial 2)).map
      fun s => (s.thread 0).results[0]?) = some (some (numbered.outputs 0)) := by rfl
  obtain ⟨s, hrun, hl⟩ := Option.map_eq_some_iff.mp hsent
  exact ⟨s, _, hrun, hl, results_perm_outputs (by decide) hrun hl⟩

/-- In the run where a thread is overtaken, its list for the first round has three messages,
one of them from the second. -/
theorem results_not_perm_overtaking :
    ∃ s l, Transition.run (Server.step numbered 0) overtaking (Server.initial 2) = some s ∧
      (s.thread 1).results[0]? = some l ∧
      l = [numbered.output 0 0, numbered.output 1 0, numbered.output 0 1] ∧
      ¬ l.Perm (numbered.outputs 0) := by
  have hsent : ((Transition.run (Server.step numbered 0) overtaking (Server.initial 2)).map
      fun s => (s.thread 1).results[0]?) =
      some (some [numbered.output 0 0, numbered.output 1 0, numbered.output 0 1]) := by rfl
  obtain ⟨s, hrun, hl⟩ := Option.map_eq_some_iff.mp hsent
  exact ⟨s, _, hrun, hl, rfl, fun h => absurd h.length_eq (by decide)⟩

/-! ## No deadlock -/

/-- The run goes on: thread `1` resets the list, which erases the output thread `0` has added
for the second round, and both wait for an output more than will come. -/
def erasing : List (Fin 2) := overtaking ++ [1, 1, 0] ++ List.replicate 7 1

/-- **No deadlock.** In a run that never adds an output to a full message list, the threads
are never all blocked in a `wait()`. -/
theorem not_stuck [NeZero n] {schedule : List (Fin n)}
    (hroomy : Guarded (Server.step answers draw) Roomy schedule (Server.initial n))
    (hrun : Transition.run (Server.step answers draw) schedule (Server.initial n) = some s) :
    ¬ s.Stuck := by
  intro hstuck
  obtain ⟨b, -, h⟩ := follows_run hroomy hrun
  have hwhere : ∀ t, (s.thread t).point = .waitFirst ∨ t ∈ b.closed := fun t =>
    (waiting_iff.mp (hstuck t)).imp_right (h.fits t).parked
  obtain ⟨u, hu⟩ : ∃ u, u ∉ b.closed :=
    not_forall.mp fun hall => b.unfinished (Finset.eq_univ_iff_forall.mpr hall)
  -- everybody has posted, so the thread that waits for outputs is about to be notified
  have hfull : b.posted = Finset.univ := by
    refine Finset.eq_univ_iff_forall.mpr fun t => ?_
    rcases hwhere t with hw | hc
    · exact ((h.fits t).between (hw ▸ rfl) (hw ▸ rfl)).1
    · exact Rendezvous.posted_eq_univ_of_mem hc ▸ Finset.mem_univ t
  obtain ⟨v, hv⟩ := h.awaited ⟨u, (hwhere u).resolve_right hu⟩ hfull
  have := hstuck v
  rw [hv] at this
  cases this

/-- Such a run. -/
theorem not_stuck_inStep :
    ∃ s, Transition.run (Server.step numbered 0) inStep (Server.initial 2) = some s ∧
      ¬ s.Stuck := by
  have hruns : (Transition.run (Server.step numbered 0) inStep (Server.initial 2)).isSome := by rfl
  obtain ⟨s, hrun⟩ := Option.isSome_iff_exists.mp hruns
  exact ⟨s, hrun, not_stuck (by decide) hrun⟩

/-- In the run where an output is erased, both threads end up waiting. -/
theorem stuck_erasing :
    ∃ s, Transition.run (Server.step numbered 0) erasing (Server.initial 2) = some s ∧
      s.Stuck := by
  have hwait : ((Transition.run (Server.step numbered 0) erasing (Server.initial 2)).map
      fun s => (waiting (s.thread 0).point, waiting (s.thread 1).point)) =
      some (true, true) := by rfl
  obtain ⟨s, hrun, hs⟩ := Option.map_eq_some_iff.mp hwait
  refine ⟨s, hrun, fun t => ?_⟩
  match t with
  | 0 => exact congrArg Prod.fst hs
  | 1 => exact congrArg Prod.snd hs

end DiningCrypto
