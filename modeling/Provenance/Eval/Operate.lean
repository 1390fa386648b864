import Provenance.Eval.Fault
import Provenance.Glob

/-!
# Operators on values

What each operator makes of operands that have values. Whole numbers wrap at
64 bits; where one operand is a floating point number so is the result; a zero
divisor is a fault for either. Patterns are left to an engine for regular
expressions.
-/

namespace Provenance.Operate

def unsuited (o : Operator) (l r : Value) : Fault :=
  .invalidOperands o l.tag (some r.tag)

def orMixed (r : Except TagMismatch Tagged) : Except Fault Value :=
  match r with
  | .ok l => .ok l.value
  | .error m => .error (.mixedList m)

/-! ## Arithmetic -/

def onInts (o : Operator) (a b : Int64) : Except Fault Int64 :=
  match o with
  | .add => .ok (a + b)
  | .sub => .ok (a - b)
  | .mul => .ok (a * b)
  | .div => if b = 0 then .error .divisionByZero else .ok (a / b)
  | .mod => if b = 0 then .error .divisionByZero else .ok (a % b)
  | _ => .error (.invalidOperands o .int (some .int))

def onFloats (o : Operator) (a b : Binary64) : Except Fault Binary64 :=
  match o with
  | .add => .ok (a + b)
  | .sub => .ok (a - b)
  | .mul => .ok (a * b)
  | .div => if b.isZero then .error .divisionByZero else .ok (a / b)
  | .mod => if b.isZero then .error .divisionByZero else .ok (a % b)
  | _ => .error (.invalidOperands o .float (some .float))

def arithmetic (o : Operator) (l r : Value) : Except Fault Value :=
  match l, r with
  | .int a, .int b => (onInts o a b).map .int
  | .int a, .float b => (onFloats o (floatOfInt a) b).map .float
  | .float a, .int b => (onFloats o a (floatOfInt b)).map .float
  | .float a, .float b => (onFloats o a b).map .float
  | .list s a, .list t b =>
    if o = .sub then orMixed (Tagged.difference ⟨s, a⟩ ⟨t, b⟩) else .error (unsuited o l r)
  | _, _ => .error (unsuited o l r)

/-! ## Comparison -/

/-- The one order there is; the other three comparisons come from it. Numbers of the two kinds
are not compared. -/
def precedes (o : Operator) (l r : Value) : Except Fault Bool :=
  match l, r with
  | .int a, .int b => .ok (a < b)
  | .float a, .float b => .ok (a.less b)
  | .str a, .str b => .ok (a < b)
  | _, _ => .error (unsuited o l r)

def fitsPattern (engine : Glob.Engine) (o : Operator) (text pattern : Value) : Except Fault Bool :=
  match text, pattern with
  | .str t, .str p =>
    match engine.matches? p t with
    | some b => .ok b
    | none => .error (.badPattern p)
  | _, _ => .error (unsuited o text pattern)

/-! ## Sequences -/

/-- Looks for the needle, of which `pending` is still to come. A member that does not fit sends
the search back to the start of the needle, and is not looked at again. -/
def findRun (needle : List Value) : List Value → List Value → Bool
  | [], _ => true
  | _ :: _, [] => false
  | n :: pending, v :: rest =>
    if v.equals n then findRun needle pending rest else findRun needle needle rest

def hasRun (needle haystack : List Value) : Bool :=
  findRun needle needle haystack

def contains (h n : Value) : Except Fault Bool :=
  match h, n with
  | .list s hs, .list t ns =>
    match s, t with
    | some s, some t => if s = t then .ok (hasRun ns hs) else .error (unsuited .contains h n)
    | _, _ => .ok (hasRun ns hs)
  | .tuple hs, .tuple ns => .ok (hasRun ns hs)
  | _, _ => .error (unsuited .contains h n)

def concat (l r : Value) : Except Fault Value :=
  match l, r with
  | .str s, .str t => .ok (.str (s ++ t))
  | .list s a, .list t b => orMixed (Tagged.concat ⟨s, a⟩ ⟨t, b⟩)
  | _, _ => .error (unsuited .concat l r)

/-! ## All operators -/

def binary (engine : Glob.Engine) (o : Operator) (l r : Value) : Except Fault Value :=
  match o with
  | .add | .sub | .mul | .div | .mod => arithmetic o l r
  | .eq => .ok (.ofBool (l.equals r))
  | .ne => .ok (.ofBool !(l.equals r))
  | .lt => (precedes o l r).map .ofBool
  | .gt => (precedes o r l).map .ofBool
  | .le => (precedes o r l).map fun b => .ofBool !b
  | .ge => (precedes o l r).map fun b => .ofBool !b
  | .like => (fitsPattern engine o l r).map .ofBool
  | .unlike => (fitsPattern engine o l r).map fun b => .ofBool !b
  | .contains => (contains l r).map .ofBool
  | .concat => concat l r
  | .union =>
    match l, r with
    | .list s a, .list t b => orMixed (Tagged.union ⟨s, a⟩ ⟨t, b⟩)
    | _, _ => .error (unsuited o l r)
  | .intersect =>
    match l, r with
    | .list s a, .list t b => orMixed (Tagged.intersect ⟨s, a⟩ ⟨t, b⟩)
    | _, _ => .error (unsuited o l r)
  | _ => .error (unsuited o l r)

def unary (o : Operator) (v : Value) : Except Fault Value :=
  match o, v with
  | .logNot, v => .ok (.ofBool !v.isTrue)
  | .neg, .int n => .ok (.int (-n))
  | .neg, .float x => .ok (.float (-x))
  | o, v => .error (.invalidOperands o v.tag none)

theorem exists_of_map_eq_ok {α : Type} {r : Except Fault α} {f : α → Value} {w : Value} (h : r.map f = .ok w) :
    ∃ a, r = .ok a ∧ w = f a := by
  cases r with
  | error e => cases h
  | ok a =>
    cases h
    exact ⟨a, rfl, rfl⟩

end Provenance.Operate
