import Provenance.Eval.Call

/-!
# Loops and bindings

A loop binds its variable to each member of its source in turn and collects the
values of its body, less those of another kind than the first. A source that is
no collection is bound as it is, and the loop then yields what the body does.
-/

namespace Provenance.Eval

def guarded (ev : Expr → Eval (Option Value)) (x : Var) (guard body : Expr)
    (v : Option Value) : Eval (Option Value) := do
  note fun _ => x.text ++ " = " ++ Value.shown v
  binding x.id v do
    let g ← ev guard
    if truth g then ev body else return none

def gather (item : Value → Eval (Option Value)) (gathered : Tagged) (v : Value) :
    Eval Tagged := do
  let r ← item v
  keep gathered r none

def gatherAll (item : Value → Eval (Option Value)) : List Value → Tagged → Eval Tagged
  | [], gathered => pure gathered
  | v :: rest, gathered => do
    let gathered ← gather item gathered v
    gatherAll item rest gathered

def advance (up : Bool) (i : Int64) : Int64 :=
  if up then i + 1 else i - 1

/-- The steps from `i` to `last`, which go round at the limits of the numbers if `last` does not
lie ahead. -/
def stepsTo (up : Bool) (last i : Int64) : Nat :=
  (if up then last - i else i - last).toUInt64.toNat

theorem toNat_sub_one_lt {d : Int64} (h : d ≠ 0) : (d - 1).toUInt64.toNat < d.toUInt64.toNat := by
  have hd : d.toUInt64.toNat ≠ 0 := fun h0 => h (congrArg Int64.ofUInt64 (UInt64.toNat_inj.mp h0))
  have hle : (1 : UInt64) ≤ d.toUInt64 := by
    rw [UInt64.le_iff_toNat_le]
    exact Nat.one_le_iff_ne_zero.mpr hd
  rw [Int64.toUInt64_sub, show (1 : Int64).toUInt64 = 1 from rfl, UInt64.toNat_sub_of_le _ _ hle]
  exact Nat.sub_lt (Nat.pos_of_ne_zero hd) Nat.one_pos

theorem eq_of_sub_eq_zero {a b : Int64} (h : a - b = 0) : a = b := by
  rw [← Int64.sub_add_cancel a b, h, Int64.zero_add]

theorem stepsTo_advance_lt {up : Bool} {last i : Int64} (h : i ≠ last) :
    stepsTo up last (advance up i) < stepsTo up last i := by
  cases up with
  | false =>
    have hstep : i - 1 - last = i - last - 1 := by
      simp only [Int64.sub_eq_add_neg]
      ac_rfl
    simp only [stepsTo, advance, Bool.false_eq_true, if_false, hstep]
    exact toNat_sub_one_lt fun h0 => h (eq_of_sub_eq_zero h0)
  | true =>
    have hstep : last - (i + 1) = last - i - 1 := by
      simp only [Int64.sub_eq_add_neg, Int64.neg_add]
      ac_rfl
    simp only [stepsTo, advance, if_true, hstep]
    exact toNat_sub_one_lt fun h0 => h (eq_of_sub_eq_zero h0).symm

/-- Goes through the numbers from `i` to `last`, upwards or downwards. -/
def gatherRange (item : Value → Eval (Option Value)) (up : Bool) (last i : Int64)
    (gathered : Tagged) : Eval Tagged := do
  let gathered ← gather item gathered (.int i)
  if i = last then return gathered
  else gatherRange item up last (advance up i) gathered
termination_by stepsTo up last i
decreasing_by exact stepsTo_advance_lt ‹_›

def overSource (item : Value → Eval (Option Value)) : Value → Eval (Option Value)
  | .tuple fields => do
    let gathered ← gatherAll item fields .empty
    return some gathered.reverse.value
  | .list _ members => do
    let gathered ← gatherAll item members .empty
    return some gathered.reverse.value
  | .range first last => do
    let gathered ← gatherRange item (first ≤ last) last first .empty
    return some gathered.reverse.value
  | .all => do
    let g ← graph
    let gathered ← gatherAll item (g.ids.map .object) .empty
    return some gathered.reverse.value
  | v => item v

def forLoop (ev : Expr → Eval (Option Value)) (x : Var) (source guard body : Expr) :
    Eval (Option Value) := do
  match ← ev source with
  | none => return none
  | some v =>
    note fun _ => "for " ++ x.text ++ " in " ++ v.text
    let r ← indented (overSource (fun item => guarded ev x guard body (some item)) v)
    note fun _ => "for " ++ x.text ++ " => " ++ Value.shown r
    return r

def letBinding (ev : Expr → Eval (Option Value)) (x : Var) (bound guard body : Expr) :
    Eval (Option Value) := do
  let v ← ev bound
  note fun _ => "let " ++ x.text
  indented (guarded ev x guard body v)

end Provenance.Eval
