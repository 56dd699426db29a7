import DiningCrypto.Session

/-!
# Delivery of a sender's text

In a session in which one client submits messages and the others are silent, every client
displays the sender's messages, each non-empty one on a line of its own.

`Delivered` is the invariant that ties the sender's cursor to the text displayed: the
messages submitted are those that have been completed, the one being sent, split into the
part taken and the rest, and those not yet opened; the text is the lines of the completed
ones followed by the part taken. One step of the cursor and of the display keeps it
(`Delivered.next`), whatever the message looks like; a submission only extends the queue.
`Solo` carries it through the rounds of a whole session.
-/

namespace DiningCrypto

open DiningLoop

/-- The text of a list of messages: a line for each non-empty one. -/
def lines (ms : List JString) : JString :=
  (ms.filter (· ≠ [])).flatMap fun m => m ++ [JChar.ofChar '\n']

theorem lines_append (ms ms' : List JString) : lines (ms ++ ms') = lines ms ++ lines ms' := by
  rw [lines, List.filter_append, List.flatMap_append]
  rfl

theorem lines_nil_cons (ms : List JString) : lines ([] :: ms) = lines ms := by
  rw [lines, List.filter_cons_of_neg (by simp)]
  rfl

theorem lines_cons {m : JString} (hm : m ≠ []) (ms : List JString) :
    lines (m :: ms) = m ++ [JChar.ofChar '\n'] ++ lines ms := by
  rw [lines, List.filter_cons_of_pos (by simpa using hm), List.flatMap_cons]
  rfl

theorem lines_of_flatten_eq_nil {ms : List JString} (h : ms.flatten = []) : lines ms = [] := by
  have hnil : ∀ m ∈ ms, m = [] := List.flatten_eq_nil_iff.mp h
  rw [lines, List.filter_eq_nil_iff.mpr (fun m hm => by simp [hnil m hm])]
  rfl

/-! ## The invariant of a sender -/

/-- Nothing is left to send but empty messages, none of them open. -/
def Cursor.Quiet (k : Cursor) : Prop := k.opened = none ∧ k.unread.flatten = []

theorem Cursor.Quiet.submit {k : Cursor} (h : k.Quiet) {str : JString} (hstr : str = []) :
    (k.submit str).Quiet := by
  refine ⟨h.1, ?_⟩
  rw [Cursor.submit, List.flatten_append, h.2, hstr]
  rfl

theorem Cursor.Quiet.next {k : Cursor} (h : k.Quiet) : k.next.2.Quiet := by
  obtain ⟨opened, unread⟩ := k
  obtain ⟨rfl, hunread⟩ : opened = none ∧ unread.flatten = [] := h
  rcases unread with _ | ⟨str, unread⟩
  · exact ⟨rfl, rfl⟩
  · obtain ⟨rfl, hrest⟩ := List.append_eq_nil_iff.mp hunread
    exact ⟨rfl, hrest⟩

/-- `ms` have been submitted, `done` of them have been sent to the end, `taken` is what has
been sent of the next one. -/
structure Delivered (ms done : List JString) (taken : JString) (k : Cursor) (d : Display)
    (sent : List JChar) : Prop where
  opened : k.opened = none → taken = []
  split : ms = done ++ ((k.opened.map (taken ++ ·)).toList ++ k.unread)
  text : d.text = lines done ++ taken
  flag : d.inMessageFlag = decide (taken ≠ [])
  sent_eq : sent.filter (· ≠ 0) = done.flatten ++ taken

namespace Delivered

variable {ms done : List JString} {taken : JString} {k : Cursor} {d : Display}
  {sent : List JChar}

theorem initial : Delivered [] [] [] Cursor.idle Display.empty [] :=
  ⟨fun _ => rfl, rfl, rfl, rfl, rfl⟩

/-- A submission is queued. -/
theorem submit (h : Delivered ms done taken k d sent) (str : JString) :
    Delivered (ms ++ [str]) done taken (k.submit str) d sent where
  opened := h.opened
  split := by
    rw [h.split]
    simp only [Cursor.submit, List.append_assoc]
  text := h.text
  flag := h.flag
  sent_eq := h.sent_eq

/-- Opening the next message takes nothing of it yet. -/
theorem openNext {str : JString} {unread : List JString}
    (h : Delivered ms done taken ⟨none, str :: unread⟩ d sent) :
    Delivered ms done taken ⟨some str, unread⟩ d sent where
  opened := fun hnone => absurd hnone (Option.some_ne_none str)
  split := by
    have htaken : taken = [] := h.opened rfl
    rw [h.split, htaken]
    rfl
  text := h.text
  flag := h.flag
  sent_eq := h.sent_eq

/-- The zero that ends the open message, and its line if it is not empty. -/
theorem endMessage {unread : List JString} (h : Delivered ms done taken ⟨some [], unread⟩ d sent) :
    Delivered ms (done ++ [taken]) [] ⟨none, unread⟩ (d.showResult 0) (sent ++ [0]) := by
  obtain ⟨inMessageFlag, text⟩ := d
  have hflag : inMessageFlag = decide (taken ≠ []) := h.flag
  have htext : text = lines done ++ taken := h.text
  have hsplit : ms = done ++ ((taken ++ []) :: unread) := h.split
  rw [List.append_nil] at hsplit
  refine ⟨fun _ => rfl, ?_, ?_, ?_, ?_⟩
  · rw [hsplit]
    simp
  · rw [Display.showResult_zero, lines_append, List.append_nil]
    by_cases ht : taken = []
    · subst ht
      rw [hflag, if_neg (by simp), htext, lines_nil_cons]
      rfl
    · rw [hflag, if_pos (by simpa using ht), lines_cons ht, htext, List.append_assoc]
      simp [lines]
  · rw [Display.showResult_zero]
    by_cases ht : taken = []
    · rw [hflag, if_neg (by simpa using ht)]
      simpa using ht
    · rw [hflag, if_pos (by simpa using ht)]
      rfl
  · rw [List.filter_append, h.sent_eq]
    simp

/-- One character of the open message. -/
theorem takeChar {c : JChar} {rest : JString} {unread : List JString} (hc : c ≠ 0)
    (h : Delivered ms done taken ⟨some (c :: rest), unread⟩ d sent) :
    Delivered ms done (taken ++ [c]) ⟨some rest, unread⟩ (d.showResult c) (sent ++ [c]) where
  opened := fun hnone => absurd hnone (Option.some_ne_none rest)
  split := by
    have hsplit : ms = done ++ ((taken ++ c :: rest) :: unread) := h.split
    rw [hsplit]
    simp
  text := by rw [Display.showResult_char _ hc, h.text, List.append_assoc]
  flag := by
    rw [Display.showResult_char _ hc]
    simp
  sent_eq := by
    rw [List.filter_append, h.sent_eq, List.filter_cons_of_pos (by simpa using hc),
      List.filter_nil, List.append_assoc]

/-- One character of the open message, or the zero that ends it. -/
theorem advance {rest : JString} {unread : List JString} (hzero : ∀ m ∈ ms, (0 : JChar) ∉ m)
    (h : Delivered ms done taken ⟨some rest, unread⟩ d sent) :
    ∃ done' taken', Delivered ms done' taken' (Cursor.advance rest unread).2
      (d.showResult (Cursor.advance rest unread).1) (sent ++ [(Cursor.advance rest unread).1]) := by
  rcases rest with _ | ⟨c, rest⟩
  · exact ⟨_, _, h.endMessage⟩
  · have hc : c ≠ 0 := by
      have hmem : taken ++ c :: rest ∈ ms := by
        rw [h.split]
        exact List.mem_append_right _ (List.mem_cons_self ..)
      rintro rfl
      exact hzero _ hmem (List.mem_append_right _ (List.mem_cons_self ..))
    exact ⟨_, _, h.takeChar hc⟩

/-- **One round of the sender**: its next character, displayed. -/
theorem next (hzero : ∀ m ∈ ms, (0 : JChar) ∉ m) (h : Delivered ms done taken k d sent) :
    ∃ done' taken', Delivered ms done' taken' k.next.2 (d.showResult k.next.1)
      (sent ++ [k.next.1]) := by
  obtain ⟨opened, unread⟩ := k
  rcases opened with _ | rest
  · rcases unread with _ | ⟨str, unread⟩
    · -- an idle round: no message is open, so no line is
      have htaken : taken = [] := h.opened rfl
      refine ⟨done, taken, h.opened, h.split, ?_, ?_, ?_⟩
      · rw [Cursor.next, Display.showResult_zero, h.flag, if_neg (by simpa using htaken), h.text]
      · rw [Cursor.next, Display.showResult_zero, h.flag, if_neg (by simpa using htaken), h.flag]
      · rw [Cursor.next, List.filter_append, h.sent_eq]
        simp
    · exact h.openNext.advance hzero
  · exact h.advance hzero

/-- The text is a beginning of the lines of everything submitted. -/
theorem text_prefix (h : Delivered ms done taken k d sent) : d.text <+: lines ms := by
  rw [h.text, h.split, lines_append]
  apply (List.prefix_append_right_inj _).mpr
  by_cases ht : taken = []
  · rw [ht]
    exact List.nil_prefix
  · rcases hk : k.opened with _ | rest
    · exact absurd (h.opened hk) ht
    · have hne : taken ++ rest ≠ [] := fun h => ht (List.append_eq_nil_iff.mp h).1
      simp only [Option.map_some, Option.toList_some, List.singleton_append]
      rw [lines_cons hne, List.append_assoc, List.append_assoc]
      exact List.prefix_append _ _

/-- Only characters of the messages have been sent, in order. -/
theorem sent_prefix (h : Delivered ms done taken k d sent) :
    sent.filter (· ≠ 0) <+: ms.flatten := by
  rw [h.sent_eq, h.split, List.flatten_append]
  apply (List.prefix_append_right_inj _).mpr
  rcases hk : k.opened with _ | rest
  · rw [h.opened hk]
    exact List.nil_prefix
  · simp only [Option.map_some, Option.toList_some, List.singleton_append, List.flatten_cons,
      List.append_assoc]
    exact List.prefix_append _ _

/-- When every character has been sent of what has been submitted and of what is going to be,
the latter is empty. -/
theorem all_sent (h : Delivered ms done taken k d sent) {later : List JString}
    (hall : sent.filter (· ≠ 0) = (ms ++ later).flatten) :
    later.flatten = [] ∧ sent.filter (· ≠ 0) = ms.flatten := by
  obtain ⟨rest, hrest⟩ := h.sent_prefix
  rw [List.flatten_append, ← hrest, List.append_assoc, List.self_eq_append_right] at hall
  obtain ⟨hr, hlater⟩ := List.append_eq_nil_iff.mp hall
  rw [← hrest, hr, List.append_nil]
  exact ⟨hlater, rfl⟩

/-- When every character has been sent, a step of the cursor sends a zero and leaves nothing
but empty messages. -/
theorem quiet_next (h : Delivered ms done taken k d sent)
    (hall : sent.filter (· ≠ 0) = ms.flatten) : k.next.1 = 0 ∧ k.next.2.Quiet := by
  obtain ⟨opened, unread⟩ := k
  have hrest : ((opened.map (taken ++ ·)).toList ++ unread).flatten = taken := by
    have hsplit : ms.flatten = done.flatten ++
        ((opened.map (taken ++ ·)).toList ++ unread).flatten := by
      rw [h.split, List.flatten_append]
    exact List.append_cancel_left (hsplit.symm.trans (hall.symm.trans h.sent_eq))
  rcases opened with _ | rest
  · have htaken : taken = [] := h.opened rfl
    rw [htaken] at hrest
    rcases unread with _ | ⟨str, unread⟩
    · exact ⟨rfl, rfl, rfl⟩
    · obtain ⟨hstr, hunread⟩ : str = [] ∧ unread.flatten = [] := by simpa using hrest
      subst hstr
      exact ⟨rfl, rfl, hunread⟩
  · obtain ⟨hr, hunread⟩ : rest = [] ∧ unread.flatten = [] := by
      simpa [List.append_assoc] using hrest
    subst hr
    exact ⟨rfl, rfl, hunread⟩

/-- With nothing left but empty messages the text is complete. -/
theorem text_of_quiet (h : Delivered ms done taken k d sent) (hquiet : k.Quiet) :
    d.text = lines ms := by
  rw [h.text, h.opened hquiet.1, h.split, hquiet.1, lines_append, Option.map_none,
    Option.toList_none, List.nil_append, lines_of_flatten_eq_nil hquiet.2]

end Delivered

/-! ## Sessions with one sender -/

section Solo

variable {n : ℕ} {s : Fin n} {es : List (Event n)}

/-- Only `s` has submitted anything, the messages `ms`; its input side stands at `k`, and
all clients display the same. -/
structure Solo (s : Fin n) (ms : List JString) (cs : Clients n) (k : Cursor) (d : Display) :
    Prop where
  sender : (cs s).loop.Represents k
  writes : (cs s).loop.inputBuf.writePosition = ms.length
  others : ∀ i, i ≠ s → (cs i).loop.Represents Cursor.idle ∧
    (cs i).loop.inputBuf.writePosition = 0
  display : ∀ i, (cs i).display = d
  delivered : ∃ done taken, Delivered ms done taken k d (cs s).sent

variable {ms : List JString} {cs : Clients n} {k : Cursor} {d : Display}

theorem Solo.initial : Solo s [] (initialClients n) Cursor.idle Display.empty where
  sender := represents_new
  writes := rfl
  others _ _ := ⟨represents_new, rfl⟩
  display _ := rfl
  delivered := ⟨[], [], Delivered.initial⟩

/-- The sender submits a message. -/
theorem Solo.submit (h : Solo s ms cs k d) (hlen : ms.length < 20) (str : JString) :
    ∃ cs', step cs (.submit s str) = some cs' ∧ Solo s (ms ++ [str]) cs' (k.submit str) d := by
  obtain ⟨hrep, hpos⟩ := inputString_spec h.sender (h.writes.symm ▸ hlen) str
  obtain ⟨done, taken, hdel⟩ := h.delivered
  refine ⟨_, rfl, ?_, ?_, fun i hi => ?_, fun i => ?_, done, taken, ?_⟩
  · rw [Function.update_self]
    exact hrep
  · rw [Function.update_self, List.length_append, List.length_singleton]
    exact hpos.trans (congrArg (· + 1) h.writes)
  · rw [Function.update_of_ne hi]
    exact h.others i hi
  · by_cases hi : i = s
    · rw [hi, Function.update_self]
      exact h.display s
    · rw [Function.update_of_ne hi]
      exact h.display i
  · rw [Function.update_self]
    exact hdel.submit str

/-- A round: the sender's next character reaches every display. -/
theorem Solo.round (h : Solo s ms cs k d) (hlen : ms.length < 20)
    (hzero : ∀ m ∈ ms, (0 : JChar) ∉ m) (r : RoundContract n) :
    ∃ cs', step cs (.round r) = some cs' ∧ Solo s ms cs' k.next.2 (d.showResult k.next.1) := by
  have hside : ∀ i, ∃ c loop, (cs i).loop.getNextChar = some (c, loop) ∧
      (i = s → c = k.next.1 ∧ loop.Represents k.next.2 ∧
        loop.inputBuf.writePosition = ms.length) ∧
      (i ≠ s → c = 0 ∧ loop.Represents Cursor.idle ∧ loop.inputBuf.writePosition = 0) := by
    intro i
    by_cases hi : i = s
    · subst hi
      obtain ⟨loop, hget, hrep, hpos⟩ := getNextChar_spec h.sender (h.writes.symm ▸ hlen)
      exact ⟨_, loop, hget, fun _ => ⟨rfl, hrep, hpos.trans h.writes⟩, fun hne => absurd rfl hne⟩
    · obtain ⟨hidle, hw⟩ := h.others i hi
      obtain ⟨loop, hget, hrep, hpos⟩ := getNextChar_spec hidle (hw.symm ▸ by decide)
      exact ⟨_, loop, hget, fun he => absurd he hi, fun _ => ⟨rfl, hrep, hpos.trans hw⟩⟩
  choose x loop hget hsender hothers using hside
  have hread : BitVec.ofNat 16 (collated (total x)) = k.next.1 := by
    rw [collated_only (fun i hi => (hothers i hi).1), (hsender s rfl).1]
  obtain ⟨done, taken, hdel⟩ := h.delivered
  obtain ⟨done', taken', hdel'⟩ := hdel.next hzero
  have hx : x s = k.next.1 := (hsender s rfl).1
  refine ⟨_, round_eq r hget, (hsender s rfl).2.1, (hsender s rfl).2.2,
    fun i hi => (hothers i hi).2, fun i => ?_, done', taken', ?_⟩
  · simp only [hread, h.display i]
  · simp only [hx]
    exact hdel'

/-- The run lemma: a session in which only `s` submits, at most 19 messages and none with a
zero, does not throw and stays `Solo`; and once its cursor is quiet, it stays so while only
empty messages are submitted. -/
theorem solo_run (h : Solo s ms cs k d) (honly : ∀ i str, Event.submit i str ∈ es → i = s)
    (hlen : (ms ++ submitted es).length ≤ 19) (hzero : ∀ m ∈ ms ++ submitted es, (0 : JChar) ∉ m) :
    ∃ cs' k' d', run cs es = some cs' ∧ Solo s (ms ++ submitted es) cs' k' d' ∧
      (k.Quiet → (submitted es).flatten = [] → k'.Quiet) := by
  induction es generalizing ms cs k d with
  | nil => exact ⟨cs, k, d, rfl, by simpa [submitted] using h, fun hquiet _ => hquiet⟩
  | cons e es ih =>
    have honly' : ∀ i str, Event.submit i str ∈ es → i = s := fun i str hmem =>
      honly i str (List.mem_cons_of_mem _ hmem)
    have hlt : ms.length < 20 := by
      rw [List.length_append] at hlen
      omega
    cases e with
    | submit i str =>
      obtain rfl : s = i := (honly i str (List.mem_cons_self ..)).symm
      have hsub : submitted (.submit s str :: es) = str :: submitted es := rfl
      rw [hsub, List.append_cons] at hlen hzero ⊢
      obtain ⟨cs₁, hstep, hsolo⟩ := h.submit hlt str
      obtain ⟨cs', k', d', hrun, hsolo', hquiet⟩ := ih hsolo honly' hlen hzero
      refine ⟨cs', k', d', ?_, hsolo', fun hk hempty => ?_⟩
      · rw [run, hstep]
        exact hrun
      · obtain ⟨hstr, hrest⟩ := List.append_eq_nil_iff.mp hempty
        exact hquiet (hk.submit hstr) hrest
    | round r =>
      have hsub : submitted (.round r :: es) = submitted es := rfl
      rw [hsub] at hlen hzero ⊢
      obtain ⟨cs₁, hstep, hsolo⟩ :=
        h.round hlt (fun m hm => hzero m (List.mem_append_left _ hm)) r
      obtain ⟨cs', k', d', hrun, hsolo', hquiet⟩ := ih hsolo honly' hlen hzero
      refine ⟨cs', k', d', ?_, hsolo', fun hk hempty => hquiet hk.next hempty⟩
      rw [run, hstep]
      exact hrun

/-- When every character has been sent, one further round completes the text for good. -/
theorem Solo.finish (h : Solo s ms cs k d) (r : RoundContract n)
    (honly : ∀ i str, Event.submit i str ∈ es → i = s)
    (hlen : (ms ++ submitted es).length ≤ 19) (hzero : ∀ m ∈ ms ++ submitted es, (0 : JChar) ∉ m)
    (hall : (cs s).sent.filter (· ≠ 0) = (ms ++ submitted es).flatten) :
    ∃ cs', run cs (.round r :: es) = some cs' ∧
      ∀ i, (cs' i).display.text = lines (ms ++ submitted es) := by
  have hlt : ms.length < 20 := by
    rw [List.length_append] at hlen
    omega
  obtain ⟨done, taken, hdel⟩ := h.delivered
  -- everything has been sent, so whatever is submitted later is empty
  obtain ⟨hlater, hsent⟩ := hdel.all_sent hall
  -- the further round closes the last line; from then on the sender is quiet
  obtain ⟨-, hquiet⟩ := hdel.quiet_next hsent
  obtain ⟨cs₁, hstep, hsolo₁⟩ := h.round hlt (fun m hm => hzero m (List.mem_append_left _ hm)) r
  obtain ⟨cs', k', d', hrun, hsolo', hquiet'⟩ := solo_run hsolo₁ honly hlen hzero
  refine ⟨cs', ?_, fun i => ?_⟩
  · rw [run, hstep]
    exact hrun
  · obtain ⟨done', taken', hdel'⟩ := hsolo'.delivered
    rw [hsolo'.display i, hdel'.text_of_quiet (hquiet' hquiet hlater)]

/-- **Delivery.** One client submits at most 19 messages, none with a `U+0000`, at any times.
Then no client throws, at every point of the session every client displays a beginning of
the lines of the messages, and once all their characters have been sent and one further
round has passed, every client displays exactly these lines. -/
theorem delivery (s : Fin n) (es : List (Event n))
    (honly : ∀ i str, Event.submit i str ∈ es → i = s) (hlen : (submitted es).length ≤ 19)
    (hzero : ∀ m ∈ submitted es, (0 : JChar) ∉ m) :
    (∀ pre post, es = pre ++ post →
        ∃ cs, run (initialClients n) pre = some cs ∧
          ∀ i, (cs i).display.text <+: lines (submitted es)) ∧
      ∀ pre r post cs, es = pre ++ .round r :: post → run (initialClients n) pre = some cs →
        (cs s).sent.filter (· ≠ 0) = (submitted es).flatten →
        ∃ cs', run (initialClients n) es = some cs' ∧
          ∀ i, (cs' i).display.text = lines (submitted es) := by
  have hprefix : ∀ pre post, es = pre ++ post →
      ∃ cs k d, run (initialClients n) pre = some cs ∧ Solo s (submitted pre) cs k d := by
    rintro pre post rfl
    rw [submitted_append] at hlen hzero
    have hpre : ∀ i str, Event.submit i str ∈ pre → i = s := fun i str hmem =>
      honly i str (List.mem_append_left _ hmem)
    have hfew : ([] ++ submitted pre).length ≤ 19 := by
      rw [List.length_append] at hlen
      rw [List.nil_append]
      omega
    obtain ⟨cs, k, d, hrun, hsolo, -⟩ := solo_run (Solo.initial (s := s)) hpre hfew
      (fun m hm => hzero m (List.mem_append_left _ hm))
    exact ⟨cs, k, d, hrun, hsolo⟩
  constructor
  · intro pre post hes
    obtain ⟨cs, k, d, hrun, hsolo⟩ := hprefix pre post hes
    obtain ⟨done, taken, hdel⟩ := hsolo.delivered
    refine ⟨cs, hrun, fun i => ?_⟩
    rw [hsolo.display i, hes, submitted_append, lines_append]
    exact hdel.text_prefix.trans (List.prefix_append _ _)
  · rintro pre r post cs hes hrun hall
    obtain ⟨cs₀, k, d, hrun₀, hsolo⟩ := hprefix pre _ hes
    obtain rfl : cs₀ = cs := Option.some.inj (hrun₀.symm.trans hrun)
    have hsub : submitted es = submitted pre ++ submitted post := by
      rw [hes, submitted_append]
      rfl
    have hpost : ∀ i str, Event.submit i str ∈ post → i = s := fun i str hmem =>
      honly i str (hes ▸ List.mem_append_right _ (List.mem_cons_of_mem _ hmem))
    rw [hsub] at hlen hzero hall ⊢
    rw [hes, run_append, hrun]
    exact hsolo.finish r hpost hlen hzero hall

end Solo

/-- The contract with all keys zero and the results in the order of the clients. -/
def plainRound (n : ℕ) : RoundContract n := ⟨HandOut.direct 0 0, fun _ => Equiv.refl _⟩

/-- The second of two clients submits `"hi"` and an empty message; after three rounds both
display `"hi\n"`. -/
theorem delivery_hi :
    ∃ cs, run (initialClients 2)
        [.submit 1 (lit "hi"), .round (plainRound 2), .submit 1 [], .round (plainRound 2),
          .round (plainRound 2)] = some cs ∧
      ∀ i, (cs i).display.text = lit "hi\n" := by
  have hboth := delivery (1 : Fin 2)
    [.submit 1 (lit "hi"), .round (plainRound 2), .submit 1 [], .round (plainRound 2),
      .round (plainRound 2)] (by simp) (by decide) (by decide)
  obtain ⟨cs, hrun, -⟩ := hboth.1
    [.submit 1 (lit "hi"), .round (plainRound 2), .submit 1 [], .round (plainRound 2)]
    [.round (plainRound 2)] rfl
  refine hboth.2 _ (plainRound 2) [] cs rfl hrun ?_
  have hsent : (run (initialClients 2) [.submit 1 (lit "hi"), .round (plainRound 2),
      .submit 1 [], .round (plainRound 2)]).map (fun cs => (cs 1).sent) = some (lit "hi") := by
    decide +kernel
  rw [hrun, Option.map_some, Option.some.injEq] at hsent
  rw [hsent]
  decide

end DiningCrypto
