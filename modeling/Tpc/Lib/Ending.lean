/-! The ways a call of a function ends in a language with exceptions and undefined behaviour. -/

universe u v

inductive Ending (α : Type u)
  | returned (a : α)
  | threw
  | undefined
deriving DecidableEq, Repr

namespace Ending

variable {α : Type u} {β : Type v}

/-- Neither an exception nor undefined behaviour comes back from the rest of the function. -/
def andThen (x : Ending α) (f : α → Ending β) : Ending β :=
  match x with
  | returned a => f a
  | threw => threw
  | undefined => undefined

@[simp] theorem andThen_returned (a : α) (f : α → Ending β) : (returned a).andThen f = f a := rfl

@[simp] theorem andThen_threw (f : α → Ending β) : (threw : Ending α).andThen f = threw := rfl

@[simp] theorem andThen_undefined (f : α → Ending β) :
    (undefined : Ending α).andThen f = undefined := rfl

theorem andThen_eq_returned {x : Ending α} {f : α → Ending β} {b : β} :
    x.andThen f = returned b ↔ ∃ a, x = returned a ∧ f a = returned b := by
  cases x with
  | returned a => simp
  | threw => simp
  | undefined => simp

end Ending
