import Provenance.Guard.Access

/-!
# From scans to index lookups

A loop over all objects whose guard an index can answer is made a loop over
what the index yields. The guard stays, since an index may yield too much.
-/

namespace Provenance.Prepare

def scanSource (x : VarId) (source guard : Expr) : Expr :=
  match source, guard with
  | .val .all, .op _ _ _ _ => (Guard.source? x guard).getD source
  | _, _ => source

mutual

def indexScans : Expr → Expr
  | .val v => .val v
  | .ref id => .ref id
  | .op o left right span => .op o (indexScans left) (indexScansOpt right) span
  | .tuple fields => .tuple (indexScansAll fields)
  | .cond test yes no => .cond (indexScans test) (indexScansOpt yes) (indexScansOpt no)
  | .forIn x source guard body =>
    let guard' := indexScans guard
    .forIn x (scanSource x.id (indexScans source) guard') guard' (indexScans body)
  | .letIn x bound guard body => .letIn x (indexScans bound) (indexScans guard) (indexScans body)
  | .lambda x body => .lambda x (indexScans body)

def indexScansOpt : Option Expr → Option Expr
  | none => none
  | some e => some (indexScans e)

def indexScansAll : List (Option Expr) → List (Option Expr)
  | [] => []
  | e :: rest => indexScansOpt e :: indexScansAll rest

end

end Provenance.Prepare
