import MailEnvelope.Proofs.FlatCommand.Address
import MailEnvelope.Proofs.FlatCommand.Args
import MailEnvelope.Proofs.Grammar.ParamList
import MailEnvelope.Proofs.Grammar.Splice
import MailEnvelope.Proofs.Parameters.Checks

namespace MailEnvelope
open Checks Grammar

namespace Args

variable {d : DecodeOption} {args lower upper both : Args} {v w : Option Text} {ps qs : List Param}

/-- What a record holds for a value that was sent, or for none. -/
inductive Holds (d : DecodeOption) : Option Text → Option Text → Prop
  | flag : Holds d none none
  | decoded {t} : d = .absent ∨ d = .given true → Holds d (some t) (some (Xtext.decode t))
  | asSent {t} : d = .given false → Holds d (some t) (some t)

theorem holds_iff (hd : d ≠ .empty) :
    Holds d v w ↔ w = if d.decodes then v.map Xtext.decode else v := by
  constructor
  · intro h
    cases h with
    | flag => cases d.decodes <;> rfl
    | decoded hd => rcases hd with rfl | rfl <;> rfl
    | asSent hd => rw [hd]; rfl
  · rintro rfl
    cases v with
    | none => cases d.decodes <;> exact .flag
    | some t =>
      cases d with
      | absent => exact .decoded (.inl rfl)
      | empty => exact absurd rfl hd
      | given decode =>
        cases decode with
        | false => exact .asSent rfl
        | true => exact .decoded (.inr rfl)

/-- The keywords of some parameters, each once and with what its last parameter says. -/
structure Records (d : DecodeOption) (ps : List Param) (args : Args) : Prop where
  once : (args.map Prod.fst).Nodup
  ordered : Ordered ps args
  mem_keys : ∀ k, (∃ v, (k, v) ∈ args) ↔ ∃ p ∈ ps, p.keyword = k
  mem_last : ∀ front p back, ps = front ++ p :: back → (∀ q ∈ back, q.keyword ≠ p.keyword) →
    ∀ v, (p.keyword, v) ∈ args ↔ Holds d p.value v

theorem records_nil : Records d [] [] where
  once := .nil
  ordered := .nil
  mem_keys k := by simp
  mem_last front p back he := by simp at he

theorem Records.ordered_insert (h : Records d ps args) (p : Param) (v : Option Text) :
    Ordered (ps ++ [p]) (args.insert p.keyword v) := by
  apply Ordered.insert (h.ordered.imp fun hde => hde.append [p])
  intro hno e he hlater
  have hnew : ∀ q ∈ ps, q.keyword ≠ p.keyword := by
    intro q hq hk
    obtain ⟨w, hw⟩ := (h.mem_keys p.keyword).mpr ⟨q, hq, hk⟩
    exact hno _ hw rfl
  exact (ComesBefore.of_new ((h.mem_keys e.1).mp ⟨e.2, he⟩) hnew hlater).append [p]

/-- One more parameter is the last one with its keyword, and leaves the last ones with the other
keywords what they are. -/
theorem Records.insertParam (hd : d ≠ .empty) (h : Records d ps args) (p : Param) :
    Records d (ps ++ [p]) (args.insertParam d.decodes p) where
  once := (h.ordered_insert p _).nodup
  ordered := h.ordered_insert p _
  mem_keys k := by
    simp only [Args.insertParam, mem_insert_iff h.ordered, List.mem_append, List.mem_singleton]
    constructor
    · rintro ⟨v, he | ⟨he, -⟩⟩
      · exact ⟨p, .inr rfl, (Prod.mk.inj he).1.symm⟩
      · obtain ⟨q, hq, hk⟩ := (h.mem_keys k).mp ⟨v, he⟩
        exact ⟨q, .inl hq, hk⟩
    · rintro ⟨q, hq, rfl⟩
      by_cases hk : q.keyword = p.keyword
      · exact ⟨_, .inl (congrArg (·, _) hk)⟩
      · have hmem : q ∈ ps := hq.resolve_right fun he => hk (congrArg Param.keyword he)
        obtain ⟨v, hv⟩ := (h.mem_keys q.keyword).mpr ⟨q, hmem, rfl⟩
        exact ⟨v, .inr ⟨hv, hk⟩⟩
  mem_last front q back he hback v := by
    rw [Args.insertParam, mem_insert_iff h.ordered]
    rcases List.eq_nil_or_concat back with rfl | ⟨back, r, rfl⟩
    · obtain ⟨-, hq⟩ := List.append_inj' he rfl
      obtain rfl : p = q := (List.cons.inj hq).1
      rw [holds_iff hd, or_iff_left fun hp => hp.2 rfl, Prod.mk.injEq, and_iff_right rfl]
    · rw [List.concat_eq_append, ← List.cons_append, ← List.append_assoc] at he
      obtain ⟨hps, hr⟩ := List.append_inj' he rfl
      obtain rfl : p = r := (List.cons.inj hr).1
      have hne : q.keyword ≠ p.keyword := (hback p (by simp)).symm
      have hlast := h.mem_last front q back hps (fun s hs => hback s (by simp [hs])) v
      rw [hlast, and_iff_left hne, or_iff_right fun hp => hne (Prod.mk.inj hp).1]

theorem records_foldl (hd : d ≠ .empty) (ps : List Param) :
    Records d ps (ps.foldl (insertParam d.decodes) []) := by
  -- The fold ends with the last parameter, so that one is taken off.
  induction ps using List.reverseRecOn with
  | nil => exact records_nil
  | append_singleton ps p ih =>
    rw [List.foldl_append]
    exact ih.insertParam hd p

theorem records_of_ofParams? (hd : d ≠ .empty) (h : ofParams? d.decodes ps = some args) :
    Records d ps args := by
  have hargs : args = ps.foldl (insertParam d.decodes) [] := by
    rw [← getD_ofParams?, h]
    rfl
  rw [hargs]
  exact records_foldl hd ps

/-- What the upper record holds for a keyword hides what the lower one holds for it. -/
def LaidOver (upper lower both : Args) : Prop :=
  ∀ k v, (k, v) ∈ both ↔ (k, v) ∈ upper ∨ (k, v) ∈ lower ∧ ∀ w, (k, w) ∉ upper

theorem Records.laidOver (hlower : Records d ps lower) (hupper : Records d qs upper)
    (hboth : Records d (ps ++ qs) both) : LaidOver upper lower both := by
  intro k v
  -- The last of all parameters with the keyword is in the second list, if one of that list has it.
  by_cases hq : ∃ q ∈ qs, q.keyword = k
  · obtain ⟨w, hw⟩ := (hupper.mem_keys k).mpr hq
    obtain ⟨front, q, back, rfl, rfl, hback⟩ := exists_last hq
    rw [or_iff_left fun hl => hl.2 w hw, hupper.mem_last front q back rfl hback,
      hboth.mem_last (ps ++ front) q back (List.append_assoc ..).symm hback]
  · have hno : ∀ w, (k, w) ∉ upper := not_exists.mp fun hk => hq ((hupper.mem_keys k).mp hk)
    rw [or_iff_right (hno v), and_iff_left hno]
    by_cases hp : ∃ p ∈ ps, p.keyword = k
    · obtain ⟨front, p, back, rfl, rfl, hback⟩ := exists_last hp
      rw [hlower.mem_last front p back rfl hback, hboth.mem_last front p (back ++ qs) (by simp)]
      intro r hr
      rcases List.mem_append.mp hr with hr | hr
      · exact hback r hr
      · exact fun hk => hq ⟨r, hr, hk⟩
    · have hneither : ¬ ∃ r ∈ ps ++ qs, r.keyword = k := by
        rintro ⟨r, hr, hk⟩
        rcases List.mem_append.mp hr with hr | hr
        · exact hp ⟨r, hr, hk⟩
        · exact hq ⟨r, hr, hk⟩
      exact iff_of_false (fun hb => hneither ((hboth.mem_keys k).mp ⟨v, hb⟩))
        fun hl => hp ((hlower.mem_keys k).mp ⟨v, hl⟩)

end Args

namespace Grammar

variable {s x t : Text} {ps : List Param}

theorem suffix_nil_iff : Param.DeriveSuffix s [] ↔ s = [] := by
  constructor
  · intro h
    cases h with
    | nil => rfl
    | params h => cases h
  · rintro rfl
    exact .nil

theorem read?_append {v : FlatCommand.Verb} {path : AnyPath} (h : v.read? x = some (path, []))
    (ht : t ≠ []) : v.read? (x ++ Text.ofString " " ++ t) =
      (Param.parseList? t).map fun ps => (path, ps) := by
  cases v with
  | mail =>
    obtain ⟨⟨p, ps⟩, hc, he⟩ := Option.map_eq_some_iff.mp h
    obtain ⟨rfl, rfl⟩ := Prod.mk.inj he
    obtain ⟨k, a, s, rfl, hk, hp, hs⟩ := mail_derives_iff.mp (parse?_mail_iff.mp hc)
    obtain rfl := suffix_nil_iff.mp hs
    rw [FlatCommand.Verb.read?, List.append_nil, List.append_assoc, parse?_mail_append hk hp,
      parse?_suffix_space ht, Option.map_map]
    rfl
  | rcpt =>
    obtain ⟨⟨p, ps⟩, hc, he⟩ := Option.map_eq_some_iff.mp h
    obtain ⟨rfl, rfl⟩ := Prod.mk.inj he
    obtain ⟨k, a, s, rfl, hk, hp, hs⟩ := rcpt_derives_iff.mp (parse?_rcpt_iff.mp hc)
    obtain rfl := suffix_nil_iff.mp hs
    rw [FlatCommand.Verb.read?, List.append_nil, List.append_assoc, parse?_rcpt_append hk hp,
      parse?_suffix_space ht, Option.map_map]
    rfl

theorem isBlank_of_paramUnit {u : Nat} (h : paramUnit u) : Text.isBlank u = false := by
  simp [paramUnit, orUnit, CharClass.paramValue, CharClass.ofRanges] at h
  simp [Text.isBlank, CharClass.ofRanges]
  omega

theorem read?_nil (v : FlatCommand.Verb) : v.read? [] = none := by
  cases v <;> decide

/-- Neither the beginning of a trimmed line nor the end of a parameter list is blank. -/
theorem trim_append_paramList (hx : x.trim ≠ []) (h : Param.DeriveList t ps) :
    (x.trim ++ Text.ofString " " ++ t).trim = x.trim ++ Text.ofString " " ++ t := by
  obtain ⟨s, w, rfl, hw⟩ := paramList_exists_concat h
  obtain ⟨u, y, hu⟩ := List.exists_cons_of_ne_nil hx
  have htrim := Text.trim_of_ends (Text.isBlank_of_trim_cons hu) (isBlank_of_paramUnit hw)
    (y ++ Text.ofString " " ++ s)
  rw [hu]
  simpa only [List.cons_append, List.append_assoc] using htrim

end Grammar

namespace FlatCommand

variable {o : FlatOptions} {d : DecodeOption} {name line t : Text} {f : FlatCommand}
  {ps : List Param}

/-- A command without parameters is accepted with any list after it, and then has the record of
that list. -/
theorem parse?_append (hd : d ≠ .empty) (hf : parse? (o.decoding d) name line = some f)
    (hnone : f.args = none) (ht : t ≠ []) (hps : Param.parseList? t = some ps) :
    ∃ args, parse? (o.decoding d) name (line.trim ++ Text.ofString " " ++ t) =
      some ⟨f.address, some args⟩ ∧ args.Records d ps := by
  obtain ⟨v, path, qs, hname, hline, hfits, rfl⟩ := parse?_eq_some_iff_read.mp hf
  obtain rfl := Args.ofParams?_eq_none_iff.mp hnone
  have hlist := (parse?_paramList_iff.mp hps).resolve_left fun h => ht h.1
  have htrim : line.trim ≠ [] := by
    intro hnil
    rw [hnil, read?_nil] at hline
    cases hline
  have hread := read?_append hline ht
  rw [hps, Option.map_some, ← trim_append_paramList htrim hlist] at hread
  obtain ⟨args, hargs⟩ :=
    Option.ne_none_iff_exists'.mp (Args.ofParams?_eq_none_iff.not.mpr hlist.ne_nil)
  refine ⟨args, parse?_eq_some_iff_read.mpr ⟨v, path, ps, hname, hread, hfits, ?_⟩,
    Args.records_of_ofParams? hd hargs⟩
  rw [← hargs]
  rfl

/-- The record of a command holds what the last parameter with each keyword says, so a list that
follows another one is laid over it. -/
theorem record_keeps_last (o : FlatOptions) (name : Text) (hd : d ≠ .empty) :
    (∀ line f, parse? (o.decoding d) name line = some f →
      ∃ (v : Verb) (path : AnyPath) (ps : List Param), name.trim.upper = v.text ∧
        v.read? line.trim = some (path, ps) ∧ (f.args = none ↔ ps = []) ∧
        ∀ args, f.args = some args → args.Records d ps) ∧
    (∀ line f, parse? (o.decoding d) name line = some f → f.args = none →
      ∀ p q ps qs, p ≠ [] → q ≠ [] →
        Param.parseList? p = some ps → Param.parseList? q = some qs →
        ∃ lower upper both,
          parse? (o.decoding d) name (line.trim ++ Text.ofString " " ++ p) =
            some ⟨f.address, some lower⟩ ∧
          parse? (o.decoding d) name (line.trim ++ Text.ofString " " ++ q) =
            some ⟨f.address, some upper⟩ ∧
          parse? (o.decoding d) name
            (line.trim ++ Text.ofString " " ++ (p ++ Text.ofString " " ++ q)) =
            some ⟨f.address, some both⟩ ∧
          Args.LaidOver upper lower both) := by
  constructor
  · intro line f hf
    obtain ⟨v, path, ps, hname, hline, -, rfl⟩ := parse?_eq_some_iff_read.mp hf
    exact ⟨v, path, ps, hname, hline, Args.ofParams?_eq_none_iff,
      fun _ => Args.records_of_ofParams? hd⟩
  · intro line f hf hnone p q ps qs hp hq hps hqs
    have hne : p ++ Text.ofString " " ++ q ≠ [] := by simp [hp]
    obtain ⟨lower, hline, hlower⟩ := parse?_append hd hf hnone hp hps
    obtain ⟨upper, hline', hupper⟩ := parse?_append hd hf hnone hq hqs
    obtain ⟨both, hline'', hboth⟩ :=
      parse?_append hd hf hnone hne (parseList?_append hp hq hps hqs)
    exact ⟨lower, upper, both, hline, hline', hline'', hlower.laidOver hupper hboth⟩

/-- A flag takes the place of a value, and a value that of an earlier one in another case. Numbers
stand in front. -/
theorem record_keeps_last_flag :
    let o : FlatOptions := {}
    let d := DecodeOption.absent
    let line := Text.ofString " mail from:<@r:a@b> "
    let p := Text.ofString "Size=1 x=+41 010 10"
    let q := Text.ofString "X=+2B\tSIZE 9=z"
    let lower : Args := [("10", none), ("SIZE", some "1"), ("X", some "A"), ("010", none)]
    let upper : Args := [("9", some "z"), ("X", some "+"), ("SIZE", none)]
    let both : Args :=
      [("9", some "z"), ("10", none), ("SIZE", none), ("X", some "+"), ("010", none)]
    let ps : List Param := [⟨"Size", some "1"⟩, ⟨"x", some "+41"⟩, ⟨"010", none⟩, ⟨"10", none⟩]
    let qs : List Param := [⟨"X", some "+2B"⟩, ⟨"SIZE", none⟩, ⟨"9", some "z"⟩]
    (d ≠ .empty ∧ parse? (o.decoding d) "MAIL FROM" line = some ⟨"a@b", none⟩ ∧ p ≠ [] ∧ q ≠ [] ∧
      Param.parseList? p = some ps ∧ Param.parseList? q = some qs) ∧
    parse? (o.decoding d) "MAIL FROM" "mail from:<@r:a@b> Size=1 x=+41 010 10 X=+2B\tSIZE 9=z" =
      some ⟨"a@b", some both⟩ ∧
    both.Records d (ps ++ qs) ∧ Args.LaidOver upper lower both := by
  intro o d line p q lower upper both ps qs
  have hd : d ≠ .empty := by decide
  have hline : parse? (o.decoding d) "MAIL FROM" line = some ⟨"a@b", none⟩ := by decide
  have hp : p ≠ [] := by decide
  have hq : q ≠ [] := by decide
  have hps : Param.parseList? p = some ps := by decide
  have hqs : Param.parseList? q = some qs := by decide
  have hboth : parse? (o.decoding d) "MAIL FROM"
      "mail from:<@r:a@b> Size=1 x=+41 010 10 X=+2B\tSIZE 9=z" = some ⟨"a@b", some both⟩ := by
    decide
  have hsame {t : Text} {a b : Args}
      (ha : parse? (o.decoding d) "MAIL FROM" t = some ⟨"a@b", some a⟩)
      (hb : parse? (o.decoding d) "MAIL FROM" t = some ⟨"a@b", some b⟩) : a = b :=
    Option.some.inj (FlatCommand.mk.inj (Option.some.inj (ha.symm.trans hb))).2
  obtain ⟨hrecord, hlists⟩ := record_keeps_last o "MAIL FROM" hd
  obtain ⟨v, path, rs, hv, hread, -, hrecords⟩ := hrecord _ _ hboth
  obtain rfl : .mail = v := verb_text_injective hv
  obtain ⟨-, rfl⟩ : .mailbox ⟨.atom "a", .domain "b"⟩ = path ∧ ps ++ qs = rs := by
    refine Prod.mk.inj (Option.some.inj (Eq.trans ?_ hread))
    decide
  obtain ⟨a, b, c, ha, hb, hc, hlaid⟩ := hlists line _ hline rfl p q ps qs hp hq hps hqs
  obtain rfl := hsame ha (b := lower) (by decide)
  obtain rfl := hsame hb (b := upper) (by decide)
  obtain rfl := hsame hc (b := both) (by decide)
  exact ⟨⟨hd, hline, hp, hq, hps, hqs⟩, hboth, hrecords _ rfl, hlaid⟩

/-- Keywords are not sorted, and an option without a value is not false and leaves values as they
were sent. -/
theorem record_not_sorted :
    let inOrder : Args := [("SIZE", some "100"), ("BODY", some "7BIT")]
    let asSent : Args := [("ENVID", some "x+2By")]
    (parse? {} "MAIL FROM" "MAIL FROM:<> SIZE=100 BODY=7BIT" = some ⟨[], some inOrder⟩ ∧
      ¬ inOrder.Pairwise fun d e => d.1 < e.1) ∧
    (DecodeOption.empty ≠ .given false ∧
      parse? (FlatOptions.decoding {} .empty) "MAIL FROM" "MAIL FROM:<> ENVID=x+2By" =
        some ⟨[], some asSent⟩ ∧
      Xtext.decode "x+2By" = "x+y") := by
  decide

end FlatCommand
end MailEnvelope
