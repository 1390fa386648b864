import Provenance.Eval.Evaluate

/-!
# Faults that concern no variable

Of all computations only the one that reads a variable can find it unbound:
neither operators, nor built-in functions, nor lookups report one.
-/

namespace Provenance

def Fault.unbound? : Fault → Option VarId
  | unboundVariable x => some x
  | _ => none

theorem Fault.unbound?_eq_some {f : Fault} {x : VarId} : f.unbound? = some x ↔ f = unboundVariable x := by
  cases f <;> simp [unbound?]

variable {f : Fault}

namespace Operate

theorem unbound?_of_map {α : Type} {r : Except Fault α} {g : α → Value} (hr : r = .error f → f.unbound? = none)
    (h : r.map g = .error f) : f.unbound? = none := by
  cases r with
  | error e =>
    cases h
    exact hr rfl
  | ok a => cases h

theorem unbound?_of_orMixed {r : Except TagMismatch Tagged} (h : orMixed r = .error f) : f.unbound? = none := by
  cases r <;> cases h
  rfl

theorem unbound?_of_onInts {o : Operator} {a b : Int64} (h : onInts o a b = .error f) : f.unbound? = none := by
  unfold onInts at h
  split at h
  case h_4 | h_5 =>
    split at h <;> cases h
    rfl
  all_goals cases h
  rfl

theorem unbound?_of_onFloats {o : Operator} {a b : Binary64} (h : onFloats o a b = .error f) : f.unbound? = none := by
  unfold onFloats at h
  split at h
  case h_4 | h_5 =>
    split at h <;> cases h
    rfl
  all_goals cases h
  rfl

theorem unbound?_of_arithmetic {o : Operator} {u v : Value} (h : arithmetic o u v = .error f) :
    f.unbound? = none := by
  unfold arithmetic at h
  split at h
  case h_1 => exact unbound?_of_map unbound?_of_onInts h
  case h_2 | h_3 | h_4 => exact unbound?_of_map unbound?_of_onFloats h
  case h_5 =>
    split at h
    · exact unbound?_of_orMixed h
    · cases h
      rfl
  case h_6 =>
    cases h
    rfl

theorem unbound?_of_precedes {o : Operator} {u v : Value} (h : precedes o u v = .error f) : f.unbound? = none := by
  unfold precedes at h
  split at h <;> cases h
  rfl

theorem unbound?_of_fitsPattern {engine : Glob.Engine} {o : Operator} {u v : Value}
    (h : fitsPattern engine o u v = .error f) : f.unbound? = none := by
  unfold fitsPattern at h
  split at h
  · split at h <;> cases h
    rfl
  · cases h
    rfl

theorem unbound?_of_contains {u v : Value} (h : contains u v = .error f) : f.unbound? = none := by
  unfold contains at h
  split at h
  · split at h
    · split at h <;> cases h
      rfl
    · cases h
  · cases h
  · cases h
    rfl

theorem unbound?_of_binary {engine : Glob.Engine} {o : Operator} {u v : Value} (h : binary engine o u v = .error f) :
    f.unbound? = none := by
  unfold binary at h
  split at h
  case h_1 | h_2 | h_3 | h_4 | h_5 => exact unbound?_of_arithmetic h
  case h_6 | h_7 => cases h
  case h_8 | h_9 | h_10 | h_11 => exact unbound?_of_map unbound?_of_precedes h
  case h_12 | h_13 => exact unbound?_of_map unbound?_of_fitsPattern h
  case h_14 => exact unbound?_of_map unbound?_of_contains h
  case h_15 =>
    unfold concat at h
    split at h
    · cases h
    · exact unbound?_of_orMixed h
    · cases h
      rfl
  case h_16 | h_17 =>
    split at h
    · exact unbound?_of_orMixed h
    · cases h
      rfl
  case h_18 =>
    cases h
    rfl

theorem unbound?_of_unary {o : Operator} {v : Value} (h : unary o v = .error f) : f.unbound? = none := by
  unfold unary at h
  split at h <;> cases h
  rfl

end Operate

namespace Eval

theorem unbound?_of_component {b : Builtin} {i : Nat} {v : Value} (h : component b i v = .error f) :
    f.unbound? = none := by
  unfold component at h
  split at h
  · split at h <;> cases h
    rfl
  · cases h
    rfl

theorem unbound?_of_ctime {calendar? : Int → Option String} {v : Value} (h : ctime calendar? v = .error f) :
    f.unbound? = none := by
  unfold ctime at h
  split at h <;> cases h
  rfl

theorem unbound?_of_mapError {r : Except Graph.KeyError Value} (h : r.mapError .badKey = .error f) :
    f.unbound? = none := by
  cases r <;> cases h
  rfl

end Eval

end Provenance
