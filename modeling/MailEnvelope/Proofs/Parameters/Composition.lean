import Mathlib.Data.List.Induction
import MailEnvelope.Proofs.Parameters.Settings

namespace MailEnvelope
open Checks

/-- A list is read part by part: a refused part decides, the first one if there are several, and
what a later part says is laid over what an earlier one says. -/
structure Compositional {α : Type} (read : List Param → Except Refusal α)
    (overlay : List Param → α → α → α) : Prop where
  append : ∀ p q, read (p ++ q) = do
    let a ← read p
    let b ← read q
    return overlay q a b
  error_iff : ∀ ps e, read ps = .error e ↔ ∃ front p back, ps = front ++ p :: back ∧
    (∀ x ∈ front, ∃ a, read [x] = .ok a) ∧ read [p] = .error e

/-- To make a setting after two results were laid over each other is to make it in the upper one,
which then also has the field of its keyword. -/
structure Overlays {κ σ α : Type} [DecidableEq κ] (keyword? : σ → Option κ) (set : α → σ → α)
    (start : α) (overlay : (κ → Bool) → α → α → α) : Prop where
  overlay_start : ∀ a, overlay (fun _ => false) a start = a
  overlay_set : ∀ among a b s,
    set (overlay among a b) s = overlay (fun k => among k || keyword? s = some k) a (set b s)

section Overlays
variable {κ σ α : Type} [DecidableEq κ] {keyword? : σ → Option κ} {set : α → σ → α} {start : α}
  {overlay : (κ → Bool) → α → α → α} {check : Param → Except Refusal σ} {sets : κ → Param → Bool}

theorem Overlays.foldl_set (h : Overlays keyword? set start overlay) (a : α) (ss : List σ) :
    ss.foldl set a =
      overlay (fun k => ss.any fun s => keyword? s = some k) a (ss.foldl set start) := by
  induction ss using List.reverseRecOn with
  | nil => exact (h.overlay_start a).symm
  | append_singleton ss s ih =>
    rw [List.foldl_concat, List.foldl_concat, ih, h.overlay_set]
    simp only [List.any_append, List.any_cons, List.any_nil, Bool.or_false]

theorem any_keyword? (hcheck : ∀ p s k, check p = .ok s → (keyword? s = some k ↔ sets k p))
    {ps : List Param} {ss : List σ} (h : ps.mapM check = .ok ss) (k : κ) :
    (ss.any fun s => keyword? s = some k) = ps.any (sets k) := by
  have hps := mapM_eq_ok_iff.mp h
  clear h
  induction hps with
  | nil => rfl
  | @cons p s ps ss hp _ ih =>
    have hs : decide (keyword? s = some k) = sets k p := by
      rw [Bool.eq_iff_iff, decide_eq_true_eq]
      exact hcheck p s k hp
    rw [List.any_cons, List.any_cons, ih, hs]

theorem Overlays.compositional (h : Overlays keyword? set start overlay)
    (hcheck : ∀ p s k, check p = .ok s → (keyword? s = some k ↔ sets k p)) :
    Compositional (Param.interpret check set start) (fun q => overlay fun k => q.any (sets k)) where
  append p q := by
    rw [Param.interpret_eq, Param.interpret_eq, Param.interpret_eq, List.mapM_append]
    cases hp : p.mapM check with
    | error e => rfl
    | ok ss =>
      cases hq : q.mapM check with
      | error e => rfl
      | ok rs =>
        change Except.ok ((ss ++ rs).foldl set start) = .ok (overlay _ (ss.foldl set start) _)
        rw [List.foldl_append, h.foldl_set]
        simp only [any_keyword? hcheck hq]
  error_iff ps e := by
    have accepted (x : Param) :
        (∃ a, (check x).map (set start) = .ok a) ↔ ∃ s, check x = .ok s := by
      cases check x <;> simp
    simp only [Param.interpret_singleton, accepted, map_eq_error_iff]
    rw [Param.interpret_eq, map_eq_error_iff, mapM_eq_error_iff]

end Overlays

/-- The fields of the keywords among those given are those of the second result. What is not
interpreted adds up. -/
def MailParameters.overlay (among : MailKeyword → Bool) (a b : MailParameters) :
    MailParameters where
  size := if among .size then b.size else a.size
  bodyType := if among .body then b.bodyType else a.bodyType
  smtpUtf8 := if among .smtpUtf8 then b.smtpUtf8 else a.smtpUtf8
  requireTls := if among .requireTls then b.requireTls else a.requireTls
  ret := if among .ret then b.ret else a.ret
  envid := if among .envid then b.envid else a.envid
  extra := a.extra ++ b.extra

def RcptParameters.overlay (among : RcptKeyword → Bool) (a b : RcptParameters) :
    RcptParameters where
  notify := if among .notify then b.notify else a.notify
  orcpt := if among .orcpt then b.orcpt else a.orcpt
  extra := a.extra ++ b.extra

theorem MailParameters.overlays :
    Overlays MailSetting.keyword? MailParameters.set {} MailParameters.overlay where
  overlay_start a := by simp [overlay]
  overlay_set among a b s := by
    cases s <;> simp [overlay, set, MailSetting.keyword?]

theorem RcptParameters.overlays :
    Overlays RcptSetting.keyword? RcptParameters.set {} RcptParameters.overlay where
  overlay_start a := by simp [overlay]
  overlay_set among a b s := by
    cases s <;> simp [overlay, set, RcptSetting.keyword?]

/-- Each parameter is checked on its own, and the last one with a keyword sets its field. -/
theorem parameters_compositional (o : EnvelopeOptions) :
    Compositional (MailParameters.ofParams o)
      (fun q => MailParameters.overlay fun k => q.any (k.sets o)) ∧
    Compositional (RcptParameters.ofParams o)
      (fun q => RcptParameters.overlay fun k => q.any (k.sets o)) :=
  ⟨MailParameters.overlays.compositional fun _ _ _ h =>
      (MailSetting.asked_of_ofParam h).keyword?_eq_some_iff,
    RcptParameters.overlays.compositional fun _ _ _ h =>
      (RcptSetting.asked_of_ofParam h).keyword?_eq_some_iff⟩

/-- A size that is given twice is the one given last; a parameter between the two stays. -/
example : MailParameters.ofParams {} [⟨"SIZE", some "1"⟩, ⟨"X", none⟩, ⟨"size", some "2"⟩] =
    .ok { size := some 2, extra := [⟨"X", none⟩] } := by decide

end MailEnvelope
