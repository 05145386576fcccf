import Mathlib.Data.Set.List
import MailEnvelope.Proofs.Parameters.Values

namespace MailEnvelope
open Checks

namespace Text

theorem upperUnit_upper (u : Nat) : (upperUnit u).flatMap upperUnit = upperUnit u := by
  by_cases hlower : 97 ≤ u ∧ u ≤ 122
  · have letters : ∀ w < 123, (upperUnit w).flatMap upperUnit = upperUnit w := by decide
    exact letters u (by omega)
  · cases hlook : upperToAscii.lookup u with
    | none => simp [upperUnit, hlower, hlook]
    | some w =>
      have words : ∀ p ∈ upperToAscii, p.2.flatMap upperUnit = p.2 := by decide
      obtain ⟨front, back, hmem, -⟩ := List.lookup_eq_some_iff.mp hlook
      have hw : upperUnit u = w := by simp [upperUnit, hlower, hlook]
      rw [hw]
      exact words (u, w) (by simp [hmem])

theorem upper_upper (t : Text) : t.upper.upper = t.upper := by
  simp only [upper, List.flatMap_assoc, upperUnit_upper]

end Text

namespace NotifyValue

/-- What a list asks for, each value as its word. -/
def words (t : Text) : Except Refusal (List Text) := (parseList t).map fun xs => xs.map keyword

def written (ks : List Text) : Text := List.intercalate (Text.ofString ",") ks

/-- One or more of the four words; "NEVER" goes with no other, and not with itself. -/
structure CanBeAsked (ks : List Text) : Prop where
  ne_nil : ks ≠ []
  known : ∀ k ∈ ks, k = Text.ofString "NEVER" ∨ k = Text.ofString "SUCCESS" ∨
    k = Text.ofString "FAILURE" ∨ k = Text.ofString "DELAY"
  never_alone : Text.ofString "NEVER" ∈ ks → ks = [Text.ofString "NEVER"]

variable {v : Text} {ks : List Text}

theorem mem_range_keyword_iff {k : Text} : k ∈ Set.range keyword ↔
    k = Text.ofString "NEVER" ∨ k = Text.ofString "SUCCESS" ∨ k = Text.ofString "FAILURE" ∨
      k = Text.ofString "DELAY" := by
  constructor
  · rintro ⟨x, rfl⟩
    cases x <;> simp [keyword]
  · rintro (rfl | rfl | rfl | rfl)
    · exact ⟨never, rfl⟩
    · exact ⟨success, rfl⟩
    · exact ⟨failure, rfl⟩
    · exact ⟨delay, rfl⟩

theorem canBeAsked_map_iff {xs : List NotifyValue} :
    CanBeAsked (xs.map keyword) ↔ xs ≠ [] ∧ (never ∈ xs → xs = [never]) := by
  have hnever : Text.ofString "NEVER" ∈ xs.map keyword ↔ never ∈ xs :=
    List.mem_map_of_injective keyword_injective (a := never)
  have halone : xs.map keyword = [Text.ofString "NEVER"] ↔ xs = [never] :=
    (List.map_injective_iff.mpr keyword_injective).eq_iff (b := [never])
  constructor
  · intro h
    refine ⟨by simpa using h.ne_nil, ?_⟩
    rw [← hnever, ← halone]
    exact h.never_alone
  · rintro ⟨hne, h⟩
    refine ⟨by simpa using hne, ?_, ?_⟩
    · intro k hk
      obtain ⟨x, -, rfl⟩ := List.mem_map.mp hk
      exact mem_range_keyword_iff.mp ⟨x, rfl⟩
    · rwa [hnever, halone]

theorem CanBeAsked.exists_values (h : CanBeAsked ks) :
    ∃ xs, xs.map keyword = ks ∧ xs ≠ [] ∧ (never ∈ xs → xs = [never]) := by
  have hks : ks ∈ Set.range (List.map keyword) := by
    rw [Set.range_list_map]
    exact fun k hk => mem_range_keyword_iff.mpr (h.known k hk)
  obtain ⟨xs, rfl⟩ := hks
  exact ⟨xs, rfl, canBeAsked_map_iff.mp h⟩

theorem words_eq_ok_iff : words v = .ok ks ↔ CanBeAsked ks ∧ v.upper = written ks := by
  rw [words, map_eq_ok_iff]
  constructor
  · rintro ⟨xs, hxs, rfl⟩
    obtain ⟨hne, halone, hv⟩ := parseList_eq_ok_iff.mp hxs
    exact ⟨canBeAsked_map_iff.mpr ⟨hne, halone⟩, hv⟩
  · rintro ⟨hks, hv⟩
    obtain ⟨xs, rfl, hne, halone⟩ := hks.exists_values
    exact ⟨xs, parseList_eq_ok_iff.mpr ⟨hne, halone, hv⟩, rfl⟩

theorem responseCode_of_parseList {e : Refusal} (h : parseList v = .error e) :
    e.reply.responseCode = 501 := by
  by_cases hknown : ∃ xs : List NotifyValue,
    xs ≠ [] ∧ v.upper = List.intercalate (Text.ofString ",") (xs.map keyword)
  · obtain ⟨xs, hne, hv⟩ := hknown
    rw [parseList_of_known hne hv] at h
    split at h
    · cases h
      rfl
    · cases h
  · rw [parseList_of_unknown fun xs hne hv => hknown ⟨xs, hne, hv⟩] at h
    cases h
    rfl

/-- A list is read if upper case makes it the words of one that can be asked for, with commas
between them, and as that one, in its order and with all that it repeats. A character whose upper
case is not ASCII is in no word, whatever it becomes. -/
theorem list_read_as_written :
    (∀ v ks, words v = .ok ks ↔ CanBeAsked ks ∧ v.upper = written ks) ∧
    (∀ v : Text, (∀ ks, CanBeAsked ks → v.upper ≠ written ks) →
      ∃ e, words v = .error e ∧ e.reply.responseCode = 501) ∧
    (∀ v ks, words v = .ok ks → words (written ks) = .ok ks) := by
  refine ⟨fun v ks => words_eq_ok_iff, ?_, ?_⟩
  · intro v hv
    cases h : parseList v with
    | ok xs =>
      obtain ⟨hks, hxs⟩ := words_eq_ok_iff.mp (map_eq_ok_iff.mpr ⟨xs, h, rfl⟩)
      exact absurd hxs (hv _ hks)
    | error e => exact ⟨e, map_eq_error_iff.mpr h, responseCode_of_parseList h⟩
  · intro v ks h
    obtain ⟨hks, hv⟩ := words_eq_ok_iff.mp h
    refine words_eq_ok_iff.mpr ⟨hks, ?_⟩
    rw [← hv, Text.upper_upper]

/-- Two words that are "SUCCESS" in upper case only, and a list that says "NEVER" twice. -/
theorem list_read_as_written_letters :
    let ks : List Text := ["SUCCESS", "DELAY", "SUCCESS"]
    (words "ſucceß,Delay,success" = .ok ks ∧ words "SUCCESS,DELAY,SUCCESS" = .ok ks) ∧
    ∃ e, words "never,NEVER" = .error e ∧ e.reply.responseCode = 501 := by
  intro ks
  obtain ⟨hread, hrefused, hback⟩ := list_read_as_written
  have hks : words "ſucceß,Delay,success" = .ok ks := by decide
  have hnever : ∀ ks, CanBeAsked ks → (Text.ofString "never,NEVER").upper ≠ written ks := by
    intro ks h hks
    have hok := (hread _ _).mpr ⟨h, hks⟩
    have herror : words "never,NEVER" = .error .combinedNever := by decide
    rw [herror] at hok
    cases hok
  exact ⟨⟨hks, hback _ _ hks⟩, hrefused _ hnever⟩

end NotifyValue
end MailEnvelope
