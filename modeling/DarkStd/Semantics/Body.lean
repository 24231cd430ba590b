import Mathlib.Data.List.Basic

/-!
# Code that accesses a content step by step

A `Body` is a piece of code as the sequence of its accesses to some content. A
running piece is what is left of it, so that `run` of what is left, on the
content as it is now, is what the whole piece computes if nobody else changes
the content in between. `Chained` is the same for what is not known in advance:
a list of pairs of contents, each access starting from what the last one left.
-/

namespace DarkStd.Semantics

/-- Code that reads and changes a content of type `C` and computes a result. -/
inductive Body (C R : Type) where
  | done (result : R)
  | look (next : C → Body C R)
  | update (change : C → C) (next : Body C R)

namespace Body

variable {C R : Type}

/-- The whole code, with nobody else accessing the content. -/
def run : Body C R → C → C × R
  | done result, content => (content, result)
  | look next, content => (next content).run content
  | update change next, content => next.run (change content)

/-- One access: the content it leaves and the rest of the code. -/
def step : Body C R → C → Option (C × Body C R)
  | done _, _ => none
  | look next, content => some (content, next content)
  | update change next, content => some (change content, next)

/-- The code never changes the content. -/
def ReadOnly : Body C R → Prop
  | done _ => True
  | look next => ∀ content, (next content).ReadOnly
  | update _ _ => False

@[simp] theorem run_done (result : R) (content : C) :
    (done result : Body C R).run content = (content, result) := rfl
@[simp] theorem run_look (next : C → Body C R) (content : C) :
    (look next).run content = (next content).run content := rfl
@[simp] theorem run_update (change : C → C) (next : Body C R) (content : C) :
    (update change next).run content = next.run (change content) := rfl

variable {body rest : Body C R} {content after : C}

/-- One access does not change what the code will have computed. -/
theorem run_of_step (stepped : body.step content = some (after, rest)) :
    rest.run after = body.run content := by
  cases body with
  | done result => cases stepped
  | look next =>
      obtain ⟨rfl, rfl⟩ := Prod.mk.inj (Option.some.inj stepped)
      rfl
  | update change next =>
      obtain ⟨rfl, rfl⟩ := Prod.mk.inj (Option.some.inj stepped)
      rfl

/-- An access of read-only code leaves the content alone. -/
theorem ReadOnly.step (readOnly : body.ReadOnly)
    (stepped : body.step content = some (after, rest)) :
    after = content ∧ rest.ReadOnly := by
  cases body with
  | done result => cases stepped
  | look next =>
      obtain ⟨rfl, rfl⟩ := Prod.mk.inj (Option.some.inj stepped)
      exact ⟨rfl, readOnly content⟩
  | update change next => exact readOnly.elim

end Body

/-- A sequence of accesses, each of which starts from the content the one
before it left. -/
def Chained {C : Type} (first : C) : List (C × C) → C → Prop
  | [], last => first = last
  | access :: rest, last => access.1 = first ∧ Chained access.2 rest last

section Chained

variable {C : Type} {first middle last : C} {accesses : List (C × C)}

@[simp] theorem chained_nil : Chained first [] last ↔ first = last := Iff.rfl

theorem chained_append {before after : List (C × C)} :
    Chained first (before ++ after) last ↔
      ∃ middle, Chained first before middle ∧ Chained middle after last := by
  induction before generalizing first with
  | nil => simp
  | cons access rest inductionHypothesis =>
      simp only [List.cons_append, Chained, inductionHypothesis]
      constructor
      · rintro ⟨start, middle, before, after⟩
        exact ⟨middle, ⟨start, before⟩, after⟩
      · rintro ⟨middle, ⟨start, before⟩, after⟩
        exact ⟨start, middle, before, after⟩

/-- One more access starts from the content left so far. -/
theorem chained_concat {access : C × C} :
    Chained first (accesses ++ [access]) last ↔
      Chained first accesses access.1 ∧ access.2 = last := by
  rw [chained_append]
  constructor
  · rintro ⟨middle, before, rfl, after⟩
    exact ⟨before, after⟩
  · rintro ⟨before, after⟩
    exact ⟨access.1, before, rfl, after⟩

/-- Where an element of a longer list is: at the new end, or in the old part. -/
theorem concat_eq_append_cons {α : Type} {old before after : List α} {new element : α}
    (split : old ++ [new] = before ++ element :: after) :
    (old = before ∧ new = element ∧ after = []) ∨ ∃ rest, old = before ++ element :: rest := by
  rcases List.eq_nil_or_concat after with rfl | ⟨rest, last, rfl⟩
  · obtain ⟨same, single⟩ := List.append_inj' split rfl
    exact .inl ⟨same, List.singleton_inj.mp single, rfl⟩
  · have split : old ++ [new] = (before ++ element :: rest) ++ [last] := by simpa using split
    exact .inr ⟨rest, (List.append_inj' split rfl).1⟩

end Chained

end DarkStd.Semantics
