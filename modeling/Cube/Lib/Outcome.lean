import Mathlib

/-!
# Outcomes of C functions

A C function of the kind that signals an error by a negative value either
returns, or fails with an error, or *faults*: it does what the language leaves
undefined (it reads or writes outside an object, or uses a value never set).

* `bind_eq_done`, `bind_eq_fault`, `map_eq_done`: how a sequence of two steps comes to
  return and to fault.
* `Agree.bind`: two sequences of steps come out alike if their steps do.
-/

namespace Cube.Lib

universe u

/-- The value of `EINVAL`, the error of a wrong argument. -/
def EINVAL : Int := 22

/-- The value of `ENOMEM`, the error of exhausted memory. -/
def ENOMEM : Int := 12

/-- The outcome of a C function: a value, a negative error or a fault. -/
inductive Outcome (α : Type u)
  | done (a : α)
  | error (e : Int)
  | fault
  deriving DecidableEq, Repr

namespace Outcome

variable {α β : Type u}

/-- The outcome of a step followed by another. -/
def bind (x : Outcome α) (f : α → Outcome β) : Outcome β :=
  match x with
  | done a => f a
  | error e => error e
  | fault => fault

instance : Monad Outcome where
  pure := done
  bind := bind

/-- The value returned, if any. -/
def toOption : Outcome α → Option α
  | done a => some a
  | error _ => none
  | fault => none

@[simp] theorem pure_eq (a : α) : (pure a : Outcome α) = done a := rfl

@[simp] theorem done_bind (a : α) (f : α → Outcome β) : (done a >>= f) = f a := rfl

@[simp] theorem error_bind (e : Int) (f : α → Outcome β) : (error e >>= f) = error e := rfl

@[simp] theorem fault_bind (f : α → Outcome β) : (fault >>= f) = fault := rfl

@[simp] theorem map_done (f : α → β) (a : α) : f <$> (done a : Outcome α) = done (f a) := rfl

@[simp] theorem map_error (f : α → β) (e : Int) : f <$> (error e : Outcome α) = error e := rfl

@[simp] theorem map_fault (f : α → β) : f <$> (fault : Outcome α) = fault := rfl

theorem bind_eq_done {x : Outcome α} {f : α → Outcome β} {b : β} :
    (x >>= f) = done b ↔ ∃ a, x = done a ∧ f a = done b := by
  cases x <;> simp

theorem pair_inj {a c : α} {b d : β} (h : done (a, b) = done (c, d)) : a = c ∧ b = d :=
  Prod.mk.inj (done.inj h)

theorem bind_eq_fault {x : Outcome α} {f : α → Outcome β} :
    (x >>= f) = fault ↔ x = fault ∨ ∃ a, x = done a ∧ f a = fault := by
  cases x <;> simp

theorem map_eq_done {x : Outcome α} {f : α → β} {b : β} :
    f <$> x = done b ↔ ∃ a, x = done a ∧ f a = b := by
  cases x <;> simp

/-! ## Outcomes that agree -/

/-- Two outcomes are of the same kind: values in the relation, the same error, or
    faults. -/
def Agree (R : α → β → Prop) : Outcome α → Outcome β → Prop
  | done a, done b => R a b
  | error e, error e' => e = e'
  | fault, fault => True
  | _, _ => False

variable {γ δ : Type u} {R : α → β → Prop} {S : γ → δ → Prop}

theorem Agree.bind {x : Outcome α} {y : Outcome β} {f : α → Outcome γ} {g : β → Outcome δ}
    (h : Agree R x y) (hfg : ∀ a b, x = done a → y = done b → R a b → Agree S (f a) (g b)) :
    Agree S (x >>= f) (y >>= g) := by
  cases x <;> cases y <;> first | exact hfg _ _ rfl rfl h | exact h | exact h.elim

theorem Agree.imp {R' : α → β → Prop} {x : Outcome α} {y : Outcome β} (h : Agree R x y)
    (hR : ∀ a b, R a b → R' a b) : Agree R' x y := by
  cases x <;> cases y <;> first | exact hR _ _ h | exact h

theorem Agree.map_eq {x : Outcome α} {y : Outcome β} {f : α → γ} {g : β → γ}
    (h : Agree (fun a b => f a = g b) x y) : f <$> x = g <$> y := by
  cases x <;> cases y <;> first | exact congrArg _ h | exact h.elim | rfl

theorem Agree.of_map {x : Outcome α} {y : Outcome β} {f : α → γ} {g : β → γ}
    (h : f <$> x = g <$> y) : Agree (fun a b => f a = g b) x y := by
  cases x <;> cases y <;> simp_all [Agree]

end Outcome

end Cube.Lib
