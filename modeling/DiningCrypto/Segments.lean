import Mathlib.Data.List.Infix

/-!
# Segments of a list

A list whose elements are labelled, and cut into segments by its breaks. `Uniform` says that
within a segment all labels are the same. It is decided where a list grows: an element may
follow another one of the same segment only with the same label (`uniform_concat_iff`).
-/

namespace Segments

variable {α β : Type*} (isBreak : α → Prop) (label : α → β)

/-- Elements of one segment, between two breaks, have the same label. -/
def Uniform (l : List α) : Prop :=
  ∀ segment, segment <:+: l → (∀ a ∈ segment, ¬ isBreak a) →
    ∀ a ∈ segment, ∀ b ∈ segment, label a = label b

theorem uniform_nil : Uniform isBreak label [] := by
  intro segment hin _ a ha
  rw [List.eq_nil_of_infix_nil hin] at ha
  cases ha

variable {isBreak label} {l : List α} {x : α}

/-- The element at the end of a segment carries the label of the segment. -/
theorem Uniform.label_getLast (h : Uniform isBreak label l) {segment : List α} {last a : α}
    (hin : segment <:+: l) (hopen : ∀ a ∈ segment, ¬ isBreak a)
    (hlast : segment.getLast? = some last) (ha : a ∈ segment) : label a = label last :=
  h segment hin hopen a ha last (List.mem_of_getLast? hlast)

/-- **Where a list grows**, the new element continues the last segment or is a break. -/
theorem uniform_concat_iff :
    Uniform isBreak label (l ++ [x]) ↔ Uniform isBreak label l ∧
      ∀ last, l.getLast? = some last → ¬ isBreak last → ¬ isBreak x → label last = label x := by
  constructor
  · intro h
    refine ⟨fun segment hin => h segment (hin.trans (List.prefix_append l [x]).isInfix),
      fun last hlast hbreak hx => ?_⟩
    -- the last two elements are a segment
    obtain ⟨init, rfl⟩ := List.getLast?_eq_some_iff.mp hlast
    refine h [last, x] ⟨init, [], by simp⟩ ?_ last (by simp) x (by simp)
    simp [hbreak, hx]
  · rintro ⟨h, hnext⟩ segment hin hopen
    rcases List.infix_concat_iff.mp hin with hsuffix | hinfix
    · rcases List.suffix_concat_iff.mp hsuffix with rfl | ⟨t, rfl, ht⟩
      · intro a ha
        cases ha
      · -- a segment `t` of the list, and the new element
        have hx : ¬ isBreak x := hopen x (by simp)
        have hopen' : ∀ a ∈ t, ¬ isBreak a := fun a ha => hopen a (List.mem_append_left _ ha)
        have hlabel : ∀ a ∈ t ++ [x], label a = label x := by
          intro a ha
          rcases List.mem_append.mp ha with ha | ha
          · rcases List.eq_nil_or_concat' t with rfl | ⟨init, last, rfl⟩
            · cases ha
            have hlast : (init ++ [last]).getLast? = some last := List.getLast?_concat
            have hlast' : l.getLast? = some last := by
              obtain ⟨pre, rfl⟩ := ht
              rw [← List.append_assoc, List.getLast?_concat]
            rw [h.label_getLast ht.isInfix hopen' hlast ha]
            exact hnext last hlast' (hopen' last (List.mem_of_getLast? hlast)) hx
          · rw [List.mem_singleton.mp ha]
        intro a ha b hb
        rw [hlabel a ha, hlabel b hb]
    · exact h segment hinfix hopen

end Segments
