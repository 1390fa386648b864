import Provenance.Value.Basic

/-!
# Equality and order of values

Whole and floating point numbers compare by amount, across the two kinds; all
other values of different kinds are unequal and sort by kind. Closures are the
same if they carry the same identity. Lists are equal only if they keep the same
kind. Tuples and lists sort by length first and then by their first difference.
-/

namespace Provenance.Value

mutual

def equals : Value → Value → Bool
  | int a, int b => a == b
  | float a, float b => a.equals b
  | int a, float b => (floatOfInt a).equals b
  | float a, int b => (floatOfInt b).equals a
  | str a, str b => a == b
  | object a, object b => a == b
  | range a b, range c d => a == c && b == d
  | tuple xs, tuple ys => equalAll xs ys
  | list s xs, list t ys => s == t && equalAll xs ys
  | all, all => true
  | index a, index b => a == b
  | lambda a _ _, lambda b _ _ => a == b
  | builtin a, builtin b => a == b
  | _, _ => false

def equalAll : List Value → List Value → Bool
  | [], [] => true
  | x :: xs, y :: ys => x.equals y && equalAll xs ys
  | _, _ => false

end

mutual

def compare : Value → Value → Ordering
  | int a, int b => Ord.compare a.toInt b.toInt
  | float a, float b => a.compare b
  | int a, float b => (floatOfInt a).compare b
  | float a, int b => a.compare (floatOfInt b)
  | str a, str b => Ord.compare a b
  | object a, object b => Ord.compare a.toNat b.toNat
  | range a b, range c d => (Ord.compare a.toInt c.toInt).then (Ord.compare b.toInt d.toInt)
  | tuple xs, tuple ys => (Ord.compare xs.length ys.length).then (compareAll xs ys)
  | list _ xs, list _ ys => (Ord.compare xs.length ys.length).then (compareAll xs ys)
  | all, all => .eq
  | index a, index b => Ord.compare a.rank b.rank
  | lambda a _ _, lambda b _ _ => Ord.compare a.toNat b.toNat
  | builtin a, builtin b => Ord.compare a.name b.name
  | v, w => v.tag.order w.tag

def compareAll : List Value → List Value → Ordering
  | x :: xs, y :: ys => (x.compare y).then (compareAll xs ys)
  | _, _ => .eq

end

end Provenance.Value
