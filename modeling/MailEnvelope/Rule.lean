import MailEnvelope.Text

namespace MailEnvelope

/-- What a rule read: the value, and the position just past the text it read. -/
structure Match (α : Type) where
  value : α
  stop : Nat
  deriving DecidableEq

/-- A way to read a value at a position of a text. Choice is ordered and repetition is greedy:
neither is taken back when what follows does not match. -/
inductive Rule : Type → Type 1
  /-- This text. -/
  | text (t : Text) : Rule Text
  /-- This text, ASCII letters in either case; the value is the text as it was written. -/
  | textAnyCase (t : Text) : Rule Text
  /-- One unit of a class. -/
  | unit (c : CharClass) : Rule Text
  /-- The longest run of a class, cut at `max` units; at least `min` of them. -/
  | span (c : CharClass) (min : Nat) (max : Option Nat) : Rule Text
  /-- The end of the text. -/
  | atEnd : Rule Unit
  | never {α : Type} : Rule α
  | filterMap {α β : Type} (f : α → Option β) (r : Rule α) : Rule β
  /-- The value is the text that the rule read. -/
  | consumed {α : Type} (r : Rule α) : Rule Text
  | both {α β : Type} (a : Rule α) (b : Rule β) : Rule (α × β)
  | orElse {α : Type} (a b : Rule α) : Rule α
  | optional {α : Type} (r : Rule α) : Rule (Option α)
  /-- As many as there are, up to one that reads nothing. -/
  | many {α : Type} (r : Rule α) : Rule (List α)

namespace Rule

/-- Takes steps from a position while they advance, `fuel` of them at most. -/
def chain {α : Type} (step : Nat → Option (Match α)) : (fuel pos : Nat) → Match (List α)
  | 0, pos => ⟨[], pos⟩
  | fuel + 1, pos =>
    match step pos with
    | none => ⟨[], pos⟩
    | some m =>
      if m.stop = pos then ⟨[], pos⟩
      else
        let rest := chain step fuel m.stop
        ⟨m.value :: rest.value, rest.stop⟩

def slice (s : Text) (start stop : Nat) : Text := (s.drop start).take (stop - start)

/-- A repetition has fuel for one step per unit that is left, and each of its steps takes one. -/
def run : {α : Type} → Rule α → (s : Text) → (pos : Nat) → Option (Match α)
  | _, text t, s, pos => if t.isPrefixOf (s.drop pos) then some ⟨t, pos + t.length⟩ else none
  | _, textAnyCase t, s, pos =>
    let written := slice s pos (pos + t.length)
    if pos ≤ s.length ∧ written.fold = t.fold then some ⟨written, pos + t.length⟩ else none
  | _, unit c, s, pos =>
    match s.drop pos with
    | [] => none
    | u :: _ => if c u then some ⟨[u], pos + 1⟩ else none
  | _, span c min max, s, pos =>
    let longest := (s.drop pos).takeWhile c
    let taken := longest.take (max.getD longest.length)
    if min ≤ taken.length then some ⟨taken, pos + taken.length⟩ else none
  | _, atEnd, s, pos => if pos = s.length then some ⟨(), pos⟩ else none
  | _, never, _, _ => none
  | _, filterMap f r, s, pos =>
    (r.run s pos).bind fun m => (f m.value).map fun v => ⟨v, m.stop⟩
  | _, consumed r, s, pos => (r.run s pos).map fun m => ⟨slice s pos m.stop, m.stop⟩
  | _, both a b, s, pos =>
    (a.run s pos).bind fun m => (b.run s m.stop).map fun n => ⟨(m.value, n.value), n.stop⟩
  | _, orElse a b, s, pos => (a.run s pos).or (b.run s pos)
  | _, optional r, s, pos =>
    match r.run s pos with
    | none => some ⟨none, pos⟩
    | some m => some ⟨some m.value, m.stop⟩
  | _, many r, s, pos => some (chain (r.run s) (s.length - pos) pos)

/-- The value of a whole text: reading less than all of it does not count. -/
def parse? {α : Type} (r : Rule α) (s : Text) : Option α :=
  (r.run s 0).bind fun m => if m.stop = s.length then some m.value else none

def map {α β : Type} (f : α → β) (r : Rule α) : Rule β := filterMap (fun v => some (f v)) r

def filter {α : Type} (p : α → Bool) (r : Rule α) : Rule α :=
  filterMap (fun v => if p v then some v else none) r

/-- The second of two values. -/
def before {α β : Type} (a : Rule α) (b : Rule β) : Rule β := map Prod.snd (both a b)

/-- The first of two values. -/
def followedBy {α β : Type} (a : Rule α) (b : Rule β) : Rule α := map Prod.fst (both a b)

def between {α β γ : Type} (first : Rule α) (r : Rule β) (last : Rule γ) : Rule β :=
  before first (followedBy r last)

def oneOf {α : Type} (rs : List (Rule α)) : Rule α := rs.foldr orElse never

def spanOne (c : CharClass) : Rule Text := span c 1 none

def manyOne {α : Type} (r : Rule α) : Rule (List α) := filter (fun vs => !vs.isEmpty) (many r)

/-- Items with a separator between any two; one that no item follows is left unread. -/
def separatedBy {α β : Type} (item : Rule α) (separator : Rule β) : Rule (List α) :=
  map (fun v => v.1 :: v.2) (both item (many (before separator item)))

attribute [simp] run

variable {α β : Type} (s : Text) (pos : Nat)

@[simp] theorem run_map (f : α → β) (r : Rule α) :
    (map f r).run s pos = (r.run s pos).map fun m => ⟨f m.value, m.stop⟩ := by
  simp only [map, run]
  cases r.run s pos <;> rfl

@[simp] theorem run_filter (p : α → Bool) (r : Rule α) :
    (filter p r).run s pos = (r.run s pos).filter fun m => p m.value := by
  simp only [filter, run]
  cases r.run s pos with
  | none => rfl
  | some m => cases h : p m.value <;> simp [Option.filter, h]

@[simp] theorem run_before (a : Rule α) (b : Rule β) :
    (before a b).run s pos = (a.run s pos).bind fun m => b.run s m.stop := by
  simp only [before, run_map, run]
  cases a.run s pos with
  | none => rfl
  | some m => cases h : b.run s m.stop <;> simp [h]

@[simp] theorem run_followedBy (a : Rule α) (b : Rule β) :
    (followedBy a b).run s pos =
      (a.run s pos).bind fun m => (b.run s m.stop).map fun n => ⟨m.value, n.stop⟩ := by
  simp only [followedBy, run_map, run]
  cases a.run s pos with
  | none => rfl
  | some m => cases h : b.run s m.stop <;> simp [h]

@[simp] theorem run_oneOf_nil : (oneOf ([] : List (Rule α))).run s pos = none := rfl

@[simp] theorem run_oneOf_cons (r : Rule α) (rs : List (Rule α)) :
    (oneOf (r :: rs)).run s pos = (r.run s pos).or ((oneOf rs).run s pos) := rfl

theorem run_manyOne (r : Rule α) :
    (manyOne r).run s pos = ((many r).run s pos).filter fun m => !m.value.isEmpty :=
  run_filter ..

theorem run_separatedBy (item : Rule α) (separator : Rule β) :
    (separatedBy item separator).run s pos = (item.run s pos).bind fun m =>
      ((many (before separator item)).run s m.stop).map fun n => ⟨m.value :: n.value, n.stop⟩ := by
  simp only [separatedBy, run_map, run]
  cases item.run s pos <;> rfl

theorem parse?_eq_some_iff {r : Rule α} {s : Text} {v : α} :
    r.parse? s = some v ↔ r.run s 0 = some ⟨v, s.length⟩ := by
  rw [parse?]
  cases r.run s 0 with
  | none => simp
  | some m =>
    obtain ⟨w, stop⟩ := m
    by_cases h : stop = s.length <;> simp [h]

end Rule
end MailEnvelope
