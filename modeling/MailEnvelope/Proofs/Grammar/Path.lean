import MailEnvelope.Proofs.Grammar.Mailbox

namespace MailEnvelope.Grammar
open Rule

variable {a b t : Text}

theorem route_of_reads {ds : List Text} (h : Reads Path.sourceRoute a ds b) : Route a := by
  refine ⟨ds, separated_of_reads ?_ ?_ h⟩
  · intro u d c hr
    obtain ⟨_, w, rfl, ⟨_, ht⟩, hw⟩ := reads_before.mp hr
    obtain ⟨rfl, -⟩ := reads_text.mp ht
    obtain ⟨rfl, hd⟩ := domain_of_reads hw
    exact ⟨hd, rfl⟩
  · intro u v c hr
    exact (reads_text.mp hr).1

theorem reads_route (h : Route a) (hb : Outside (orUnit domainUnit ','.toNat) b) :
    ∃ ds, Reads Path.sourceRoute a ds b := by
  obtain ⟨ds, h⟩ := h
  obtain ⟨hb, hcomma⟩ := outside_orUnit.mp hb
  refine ⟨ds, reads_of_separated (F := Outside domainUnit) ?_ ?_ hb ?_ h⟩
  · rintro _ d c ⟨hd, rfl⟩ hc
    exact reads_before.mpr ⟨_, d, rfl, ⟨_, reads_text.mpr ⟨rfl, rfl⟩⟩, reads_domain hd hc⟩
  · rintro w u d c rfl -
    exact ⟨by decide, outside_cons.mpr (by decide), _, reads_text.mpr ⟨rfl, rfl⟩⟩
  · apply fails_before_text
    rintro c rfl
    exact hcomma rfl

theorem Route.exists_cons (h : Route t) : ∃ s, t = '@'.toNat :: s := by
  obtain ⟨ds, h⟩ := h
  cases h with
  | one hd => exact ⟨_, hd.2⟩
  | more hd _ _ =>
    obtain ⟨-, rfl⟩ := hd
    exact ⟨_, rfl⟩

/-- A route begins with an at sign and a mailbox does not, so whether there is one is decided by the
first unit. -/
theorem fails_route {m : Mailbox} (h : Mailbox.Derives t m) :
    Fails (followedBy Path.sourceRoute (text ":")) (t ++ b) := by
  apply fails_iff.mpr
  intro c ds d he hr
  obtain ⟨r, s, rfl, hr, -⟩ := reads_followedBy.mp hr
  obtain ⟨r, rfl⟩ := (route_of_reads hr).exists_cons
  obtain ⟨u, t, rfl, hu⟩ := mailbox_exists_cons h
  obtain ⟨rfl, -⟩ := List.cons.inj he
  exact absurd hu (by decide)

theorem reads_path {m : Mailbox} : Reads Path.rule a m b ↔ Path.Derives a m := by
  simp only [Path.rule, reads_between_text, reads_before, reads_optional, reads_followedBy,
    reads_text]
  constructor
  · rintro ⟨_, rfl, r, t, rfl, ⟨_, ⟨ds, -, r, _, rfl, hr, _, rfl, rfl⟩ | ⟨-, rfl, -⟩⟩, hm⟩
    · exact .routed (route_of_reads hr) (mailbox_of_reads hm)
    · exact .direct (mailbox_of_reads hm)
  · have hclose : ∀ c, Outside domainUnit (Text.ofString ">" ++ c) :=
      fun c => outside_cons.mpr (by decide)
    intro h
    cases h with
    | @direct t _ hm =>
      refine ⟨t, rfl, [], t, rfl, ⟨none, .inr ⟨rfl, rfl, fails_route hm⟩⟩, ?_⟩
      exact reads_mailbox hm (hclose b)
    | @routed r t _ hr hm =>
      obtain ⟨ds, hds⟩ := reads_route (b := Text.ofString ":" ++ (t ++ (Text.ofString ">" ++ b))) hr
        (outside_cons.mpr (by decide))
      refine ⟨_, rfl, _, t, rfl, ⟨some ds, .inl ⟨ds, rfl, r, _, rfl, hds, _, rfl, rfl⟩⟩, ?_⟩
      exact reads_mailbox hm (hclose b)

/-- Only an empty path has its closing bracket next to the opening one. -/
theorem path_exists_cons {m : Mailbox} (h : Path.Derives t m) :
    ∃ u s, t = Text.ofString "<" ++ u :: s ∧ u ≠ '>'.toNat := by
  cases h with
  | direct hm =>
    obtain ⟨u, s, rfl, hu⟩ := mailbox_exists_cons hm
    refine ⟨u, _, rfl, ?_⟩
    rintro rfl
    exact absurd hu (by decide)
  | routed hr _ =>
    obtain ⟨s, rfl⟩ := hr.exists_cons
    exact ⟨_, _, rfl, by decide⟩

theorem reads_reversePath {p : ReversePath} :
    Reads ReversePath.rule a p b ↔ ReversePath.Derives a p := by
  simp only [ReversePath.rule, reads_orElse, reads_map, reads_text, reads_path]
  constructor
  · rintro (⟨_, ⟨rfl, -⟩, rfl⟩ | ⟨-, m, hm, rfl⟩)
    · exact .null
    · exact .mailbox hm
  · intro h
    cases h with
    | null => exact .inl ⟨_, ⟨rfl, rfl⟩, rfl⟩
    | @mailbox _ m hm =>
      refine .inr ⟨fails_map.mpr (fails_iff.mpr ?_), m, hm, rfl⟩
      intro c w d he hr
      obtain ⟨rfl, -⟩ := reads_text.mp hr
      obtain ⟨u, s, rfl, hu⟩ := path_exists_cons hm
      exact hu (List.cons.inj (List.cons.inj he).2).1

theorem postmaster_iff : AnyCase "<postmaster>" t ↔
    ∃ k, t = Text.ofString "<" ++ k ++ Text.ofString ">" ∧ AnyCase "postmaster" k := by
  have hw : Text.ofString "<postmaster>" =
    Text.ofString "<" ++ Text.ofString "postmaster" ++ Text.ofString ">" := by decide
  rw [hw]
  constructor
  · intro h
    obtain ⟨_, z, rfl, h, hz⟩ := h.exists_append
    obtain ⟨x, k, rfl, hx, hk⟩ := h.exists_append
    obtain rfl := hx.eq_of_no_letter (by decide)
    obtain rfl := hz.eq_of_no_letter (by decide)
    exact ⟨k, rfl, hk⟩
  · rintro ⟨k, rfl, hk⟩
    exact List.rel_append (List.rel_append (anyCase_refl _) hk) (anyCase_refl _)

/-- An unquoted local part goes on to an at sign before it comes to any bracket. -/
theorem path_not_postmaster {m : Mailbox} {c d : Text} (h : Path.Derives a m)
    (hb : AnyCase "<postmaster>" b) : a ++ c ≠ b ++ d := by
  obtain ⟨k, rfl, hk⟩ := postmaster_iff.mp hb
  have letters := hk.all_letters (by decide)
  have dotted : ∀ u, CharClass.letter u → dottedUnit u := by
    intro u hu
    simp [CharClass.letter, dottedUnit, orUnit, CharClass.atomUnit, CharClass.ofRanges] at hu ⊢
    omega
  have hne : k ≠ [] := by
    rintro rfl
    cases hk
  obtain ⟨p, k, rfl⟩ := List.exists_cons_of_ne_nil hne
  intro he
  cases h with
  | @direct t _ hm =>
    obtain @⟨l, e, _, _, hl, hd⟩ := hm
    simp only [List.append_assoc] at he
    have he := List.append_cancel_left he
    cases hl with
    | atom hl =>
      -- Both texts begin with a run of units that an unquoted local part may hold.
      have stop := run_unique hl.mem (outside_cons.mpr (by decide))
        (fun u hu => dotted u (letters u hu)) (outside_cons.mpr (by decide)) he
      exact absurd (List.cons.inj stop.2).1 (by decide)
    | quoted _ =>
      obtain ⟨rfl, -⟩ := List.cons.inj he
      exact absurd (letters _ List.mem_cons_self) (by decide)
  | @routed r t _ hr hm =>
    obtain ⟨s, rfl⟩ := hr.exists_cons
    obtain ⟨rfl, -⟩ := List.cons.inj (List.cons.inj he).2
    exact absurd (letters _ List.mem_cons_self) (by decide)

theorem reads_forwardPath {p : ForwardPath} :
    Reads ForwardPath.rule a p b ↔ ForwardPath.Derives a p := by
  simp only [ForwardPath.rule, reads_orElse, reads_map, reads_anyCase, reads_path]
  constructor
  · rintro (⟨_, ⟨rfl, hk⟩, rfl⟩ | ⟨-, m, hm, rfl⟩)
    · exact .postmaster hk
    · exact .mailbox hm
  · intro h
    cases h with
    | postmaster hk => exact .inl ⟨a, ⟨rfl, hk⟩, rfl⟩
    | @mailbox m hm =>
      refine .inr ⟨fails_map.mpr (fails_iff.mpr ?_), m, hm, rfl⟩
      intro c w d he hr
      exact path_not_postmaster hm (reads_anyCase.mp hr).2 he

end MailEnvelope.Grammar
