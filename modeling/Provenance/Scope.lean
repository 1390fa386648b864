import Provenance.Term

/-!
# Scopes

The bindings in force, innermost first. An inner binding hides an outer one of
the same variable.
-/

namespace Provenance

abbrev Scope (α : Type) := List (VarId × α)

namespace Scope

variable {α : Type}

def push (s : Scope α) (x : VarId) (a : α) : Scope α :=
  (x, a) :: s

def pop? : Scope α → Option (α × Scope α)
  | [] => none
  | b :: rest => some (b.2, rest)

def popError : String :=
  "Cannot pop from empty scope stack"

def lookup? : Scope α → VarId → Option α
  | [], _ => none
  | b :: rest, x => if b.1 = x then some b.2 else lookup? rest x

@[simp] theorem lookup?_push (s : Scope α) (x : VarId) (a : α) :
    (s.push x a).lookup? x = some a := by
  simp [push, lookup?]

theorem lookup?_push_of_ne (s : Scope α) {x y : VarId} (a : α) (h : x ≠ y) :
    (s.push x a).lookup? y = s.lookup? y := by
  simp [push, lookup?, h]

@[simp] theorem pop?_push (s : Scope α) (x : VarId) (a : α) :
    (s.push x a).pop? = some (a, s) := rfl

end Scope

end Provenance
