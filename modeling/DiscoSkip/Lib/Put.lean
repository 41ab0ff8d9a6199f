import Mathlib.Logic.Function.Basic

/-!
# Updating a map

`put f a b` is `Function.update f a b` for maps that are not dependent: without a cast
in it, long runs over it can be evaluated.
-/

namespace DiscoSkip.Lib

variable {α β : Type*} [DecidableEq α]

def put (f : α → β) (a : α) (b : β) : α → β := fun x => if x = a then b else f x

@[simp] theorem put_self (f : α → β) (a : α) (b : β) : put f a b a = b := if_pos rfl

theorem put_of_ne {f : α → β} {a x : α} {b : β} (h : x ≠ a) : put f a b x = f x := if_neg h

theorem put_eq_update (f : α → β) (a : α) (b : β) : put f a b = Function.update f a b := by
  funext x
  rw [put, Function.update_apply]

@[simp] theorem put_eq_self (f : α → β) (a : α) : put f a (f a) = f := by
  rw [put_eq_update, Function.update_eq_self]

@[simp] theorem put_put (f : α → β) (a : α) (b b' : β) : put (put f a b) a b' = put f a b' := by
  simp only [put_eq_update, Function.update_idem]

end DiscoSkip.Lib
