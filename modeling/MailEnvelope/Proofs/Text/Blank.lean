import Mathlib.Data.List.TakeWhile
import MailEnvelope.Text

namespace MailEnvelope.Text

variable {s t w : Text}

theorem trimLeft_append_left (hw : ∀ u ∈ w, isBlank u) (t : Text) :
    trimLeft (w ++ t) = trimLeft t := by
  unfold trimLeft
  rw [List.dropWhile_append_of_pos]
  exact hw

theorem trimRight_append_right (hw : ∀ u ∈ w, isBlank u) (t : Text) :
    trimRight (t ++ w) = trimRight t := by
  unfold trimRight
  rw [List.reverse_append, List.dropWhile_append_of_pos]
  intro u hu
  exact hw u (List.mem_reverse.mp hu)

/-- What is blank around a text is not part of what trimming leaves. -/
theorem trim_append (hs : ∀ u ∈ s, isBlank u) (hw : ∀ u ∈ w, isBlank u) (t : Text) :
    trim (s ++ t ++ w) = trim t := by
  unfold trim
  rw [List.append_assoc, trimLeft_append_left hs]
  -- What follows a blank text is trimmed from the left too, and otherwise it is kept to the end.
  by_cases h : trimLeft t = []
  · have hb : ∀ u ∈ t, isBlank u := List.dropWhile_eq_nil_iff.mp h
    have hl := trimLeft_append_left hw []
    rw [List.append_nil] at hl
    rw [trimLeft_append_left hb, hl, h]
    rfl
  · have hl : trimLeft (t ++ w) = trimLeft t ++ w := by
      unfold trimLeft at h ⊢
      rw [List.dropWhile_append, if_neg]
      simpa using h
    rw [hl, trimRight_append_right hw]

theorem isBlank_of_trim_cons {u : Nat} (h : trim t = u :: s) : isBlank u = false := by
  have hprefix : trim t <+: trimLeft t := by
    have hsuffix :=
      List.reverse_prefix.mpr (List.dropWhile_suffix isBlank (l := (trimLeft t).reverse))
    rwa [List.reverse_reverse] at hsuffix
  obtain ⟨w, hw⟩ := hprefix
  have hhead := List.head?_dropWhile_not isBlank t
  rw [← trimLeft, ← hw, h] at hhead
  exact hhead

theorem trim_of_ends {u v : Nat} (hu : isBlank u = false) (hv : isBlank v = false) (t : Text) :
    trim (u :: (t ++ [v])) = u :: (t ++ [v]) := by
  have hl : trimLeft (u :: (t ++ [v])) = u :: (t ++ [v]) :=
    List.dropWhile_cons_of_neg (by simp [hu])
  rw [trim, hl, trimRight, ← List.cons_append, List.reverse_append, List.reverse_singleton,
    List.singleton_append, List.dropWhile_cons_of_neg (by simp [hv]), List.reverse_cons,
    List.reverse_reverse]

theorem trim_append_visible {u : Nat} (hu : isBlank u = false) (hw : w ≠ [])
    (hb : ∀ v ∈ w, isBlank v = false) (t : Text) : trim (u :: (t ++ w)) = u :: (t ++ w) := by
  obtain ⟨i, v, rfl⟩ := (List.eq_nil_or_concat w).resolve_left hw
  rw [List.concat_eq_append, ← List.append_assoc]
  exact trim_of_ends hu (hb v (by simp)) (t ++ i)

end MailEnvelope.Text
