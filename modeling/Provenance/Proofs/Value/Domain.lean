import Provenance.Eval.Evaluate
import Provenance.Proofs.Expr.Parts
import Provenance.Proofs.Value.Everywhere

/-!
# Values that evaluation does not lead out of

A domain is a set of values together with a set of expressions. It is closed if
whatever evaluation puts together from values of the domain, or takes out of
them, is in the domain again: operators, built-in functions, lookups and the
lists of loops and paths then keep to it.
-/

namespace Provenance

/-! ## Domains -/

structure Domain where
  value : Value → Prop
  expr : Expr → Prop

namespace Domain

open Members (OfOneKind)

/-- Lists are put together only from members of one kind, and from other lists. -/
structure Closed (D : Domain) : Prop where
  literal : ∀ {v}, D.expr (.val v) → D.value v
  part : ∀ {e x a}, D.expr e → (x, a) ∈ e.parts → D.expr a
  body : ∀ {id x body}, D.value (.lambda id x body) → D.expr body
  int : ∀ n, D.value (.int n)
  float : ∀ x, D.value (.float x)
  str : ∀ s, D.value (.str s)
  object : ∀ p, D.value (.object p)
  tuple : ∀ {vs}, D.value (.tuple vs) ↔ ∀ v ∈ vs, D.value v
  member : ∀ {t vs}, D.value (.list t vs) → ∀ v ∈ vs, D.value v
  list : ∀ {vs}, (∀ v ∈ vs, D.value v) → OfOneKind vs → D.value (.listOf vs)
  concat : ∀ {s t vs ws l}, D.value (.list s vs) → D.value (.list t ws) →
    Tagged.concat ⟨s, vs⟩ ⟨t, ws⟩ = .ok l → D.value l.value

variable (D : Domain)

/-- The value, if there is one. -/
def result (v : Option Value) : Prop :=
  ∀ w ∈ v, D.value w

def scope (σ : Scope (Option Value)) : Prop :=
  ∀ b ∈ σ, D.result b.2

def graph (g : Graph) : Prop :=
  ∀ o ∈ g.objects, ∀ r ∈ o.2, D.value r.2

/-- The members are of the domain, and the tag that is kept is theirs. -/
def members (l : Tagged) : Prop :=
  (∀ v ∈ l.members, D.value v) ∧ l.Sound

/-- The expression that a segment tests objects with, if there is one. -/
def test : Path.Test → Prop
  | .any => True
  | .expr e => D.expr e

variable {D}

theorem result_none : D.result none := by
  intro w hw
  cases hw

theorem result_some {v : Value} : D.result (some v) ↔ D.value v := by
  simp [result]

theorem result_of_lookup? {x : VarId} {v : Option Value} : ∀ {σ : Scope (Option Value)}, D.scope σ →
    σ.lookup? x = some v → D.result v
  | b :: rest, hσ, h => by
    unfold Scope.lookup? at h
    split at h
    · cases h
      exact hσ b List.mem_cons_self
    · exact result_of_lookup? (fun c hc => hσ c (List.mem_cons_of_mem b hc)) h

theorem scope_nil : D.scope [] := by
  intro b hb
  cases hb

theorem scope_push {σ : Scope (Option Value)} {x : VarId} {v : Option Value} (hv : D.result v) (hσ : D.scope σ) :
    D.scope (σ.push x v) := by
  intro b hb
  rcases List.mem_cons.mp hb with rfl | hb
  · exact hv
  · exact hσ b hb

theorem members_empty : D.members .empty :=
  ⟨fun _ h => absurd h List.not_mem_nil, Tagged.sound_empty⟩

theorem members_push {l l' : Tagged} {v : Value} (hv : D.value v) (h : D.members l) (hpush : l.push v = .ok l') :
    D.members l' := by
  refine ⟨?_, Tagged.sound_push h.2 hpush⟩
  obtain ⟨rfl, -⟩ := (Tagged.push_eq_ok_iff h.2).mp hpush
  exact List.forall_mem_cons.mpr ⟨hv, h.1⟩

namespace Closed

variable (h : D.Closed)
include h

theorem ofBool (b : Bool) : D.value (.ofBool b) :=
  h.int _

theorem value {l : Tagged} (hl : D.members l) : D.value l.value := by
  rw [hl.2.eq_of, Tagged.value_of]
  exact h.list hl.1 hl.2.kind

theorem gathered {l : Tagged} (hl : D.members l) : D.value l.reverse.value :=
  h.value ⟨fun v hv => hl.1 v (List.mem_reverse.mp hv), hl.2.reverse⟩

theorem ofObjects (ps : List ObjectId) : D.value (Tagged.ofObjects ps).value := by
  refine h.value ⟨fun v hv => ?_, Tagged.sound_ofObjects ps⟩
  obtain ⟨p, -, rfl⟩ := List.mem_map.mp hv
  exact h.object p

theorem tupleOf {vs : List Value} (hvs : ∀ v ∈ vs, D.value v) : D.result (Eval.tupleOf vs) := by
  match vs with
  | [] => exact result_none
  | [v] => exact result_some.mpr (hvs v List.mem_cons_self)
  | v :: w :: rest => exact result_some.mpr (h.tuple.mpr hvs)

theorem resultOf (ps : List ObjectId) : D.result (Path.resultOf ps) := by
  match ps with
  | [] => exact result_none
  | [p] => exact result_some.mpr (h.object p)
  | p :: q :: rest =>
    refine result_some.mpr (h.tuple.mpr fun v hv => ?_)
    obtain ⟨r, -, rfl⟩ := List.mem_map.mp hv
    exact h.object r

/-! ## Lists -/

theorem merge {m : Members.Merge} {s t : Option Tag} {vs ws : Members} {l : Tagged} (ha : D.value (.list s vs))
    (hb : D.value (.list t ws)) (hl : Tagged.merge m ⟨s, vs⟩ ⟨t, ws⟩ = .ok l) : D.value l.value := by
  obtain ⟨hof, hkind⟩ := Tagged.merge_eq_ok_iff.mp hl
  have hsub := Tagged.merge_subset hl
  rw [hof] at hsub ⊢
  refine h.list (fun v hv => ?_) hkind
  rcases List.mem_append.mp (hsub hv) with hv | hv
  · exact h.member ha v hv
  · exact h.member hb v hv

omit h in
theorem orMixed {r : Except TagMismatch Tagged} {w : Value} (hw : Operate.orMixed r = .ok w)
    (hr : ∀ l, r = .ok l → D.value l.value) : D.value w := by
  cases r with
  | error m => cases hw
  | ok l =>
    cases hw
    exact hr l rfl

/-! ## Operators -/

theorem arithmetic {o : Operator} {u v w : Value} (hu : D.value u) (hv : D.value v)
    (hw : Operate.arithmetic o u v = .ok w) : D.value w := by
  unfold Operate.arithmetic at hw
  split at hw
  · obtain ⟨n, -, rfl⟩ := Operate.exists_of_map_eq_ok hw
    exact h.int n
  iterate 3
    obtain ⟨x, -, rfl⟩ := Operate.exists_of_map_eq_ok hw
    exact h.float x
  · split at hw
    · exact orMixed hw fun l hl => h.merge hu hv hl
    · cases hw
  · cases hw

theorem binary {engine : Glob.Engine} {o : Operator} {u v w : Value} (hu : D.value u) (hv : D.value v)
    (hw : Operate.binary engine o u v = .ok w) : D.value w := by
  unfold Operate.binary at hw
  split at hw
  case h_1 | h_2 | h_3 | h_4 | h_5 => exact h.arithmetic hu hv hw
  case h_6 | h_7 =>
    cases hw
    exact h.ofBool _
  case h_8 | h_9 | h_10 | h_11 | h_12 | h_13 | h_14 =>
    obtain ⟨b, -, rfl⟩ := Operate.exists_of_map_eq_ok hw
    exact h.ofBool _
  case h_15 =>
    unfold Operate.concat at hw
    split at hw
    · cases hw
      exact h.str _
    · exact orMixed hw fun l hl => h.concat hu hv hl
    · cases hw
  case h_16 | h_17 =>
    split at hw
    · exact orMixed hw fun l hl => h.merge hu hv hl
    · cases hw
  case h_18 => cases hw

theorem unary {o : Operator} {v w : Value} (hw : Operate.unary o v = .ok w) : D.value w := by
  unfold Operate.unary at hw
  split at hw
  · cases hw
    exact h.ofBool _
  · cases hw
    exact h.int _
  · cases hw
    exact h.float _
  · cases hw

/-! ## Functions and lookups -/

theorem component {b : Builtin} {i : Nat} {v w : Value} (hv : D.value v) (hw : Eval.component b i v = .ok w) :
    D.value w := by
  unfold Eval.component at hw
  split at hw
  · split at hw
    · rename_i fields u hfield
      cases hw
      exact h.tuple.mp hv w (List.mem_of_getElem? hfield)
    · cases hw
  · cases hw

theorem ctime {calendar? : Int → Option String} {v w : Value} (hw : Eval.ctime calendar? v = .ok w) : D.value w := by
  unfold Eval.ctime at hw
  split at hw
  · cases hw
    exact h.str _
  · cases hw

theorem lookup {g : Graph} {kind : IndexKind} {key w : Value} (hkey : D.value key) (hw : g.lookup kind key = .ok w) :
    D.value w := by
  unfold Graph.lookup at hw
  split at hw
  all_goals cases hw
  · exact hkey
  all_goals exact h.ofObjects _

theorem attribute? {g : Graph} (hg : D.graph g) (p : ObjectId) (name : String) : D.result (g.attribute? p name) := by
  intro w hw
  unfold Graph.attribute? at hw
  cases hrecords : g.records? p with
  | none =>
    rw [hrecords] at hw
    cases hw
  | some rs =>
    rw [hrecords] at hw
    simp only at hw
    split at hw
    · unfold Graph.number? at hw
      split at hw <;> cases hw
      exact h.int _
    · obtain ⟨r, hr, rfl⟩ := Option.map_eq_some_iff.mp hw
      obtain ⟨o, ho, rfl⟩ := Option.map_eq_some_iff.mp hrecords
      exact hg o (List.mem_of_find?_eq_some ho) r (List.mem_of_find?_eq_some hr)

end Closed

/-! ## Segments of a path -/

section
variable (hpart : ∀ {e a}, D.expr e → (none, a) ∈ e.parts → D.expr a)
include hpart

theorem test_ofExpr {e : Expr} (he : D.expr e) : D.test (Path.Segment.ofExpr e).test := by
  unfold Path.Segment.ofExpr
  split
  · exact hpart (hpart he Expr.left_mem_parts) Expr.left_mem_parts
  iterate 3 exact hpart he Expr.left_mem_parts
  exact he

theorem test_side : ∀ e, D.expr e → ∀ s ∈ Path.Segment.side e, D.test s.test := by
  refine Expr.parts_induction fun e ih he s hs => ?_
  have hone : Path.Segment.side e = [Path.Segment.ofExpr e] → D.test s.test := by
    intro heq
    rw [heq] at hs
    rw [List.mem_singleton.mp hs]
    exact test_ofExpr hpart he
  cases e with
  | op o left right span =>
    by_cases hjoin : o.isJoin = true
    · rw [Path.Segment.side, if_pos hjoin] at hs
      rcases (List.mem_append.mp hs).imp_right List.mem_append.mp with hs | hs | hs
      · exact ih none left Expr.left_mem_parts (hpart he Expr.left_mem_parts) s hs
      · -- The segments between the sides stand for any objects.
        cases o <;> simp [Path.Segment.ofJoin] at hs <;> subst hs <;> trivial
      · cases right with
        | none => cases hs
        | some right => exact ih none right Expr.right_mem_parts (hpart he Expr.right_mem_parts) s hs
    · exact hone (by rw [Path.Segment.side, if_neg hjoin])
  | _ => exact hone (by simp [Path.Segment.side])

theorem test_route (σ : Scope (Option Value)) {e : Expr} (he : D.expr e) (i : Nat) :
    D.test ((Path.route σ e).test i) := by
  rw [Path.Route.test]
  cases hs : (Path.route σ e).segments[i]? with
  | none => trivial
  | some s =>
    have hmem := List.mem_of_getElem? hs
    simp only [Path.route] at hmem
    split at hmem
    · exact test_side hpart e he s (List.mem_reverse.mp hmem)
    · exact test_side hpart e he s hmem

end

/-! ## Domains that grow -/

/-- A domain for each state of knowledge, in which the expressions stay the same. -/
structure Growing (W : Type) where
  value : W → Value → Prop
  expr : Expr → Prop

namespace Growing

variable {W : Type} (D : Growing W)

def stage (w : W) : Domain :=
  ⟨D.value w, D.expr⟩

abbrev result (w : W) : Option Value → Prop :=
  (D.stage w).result

abbrev members (w : W) : Tagged → Prop :=
  (D.stage w).members

abbrev scope (w : W) : Scope (Option Value) → Prop :=
  (D.stage w).scope

abbrev graph (w : W) : Graph → Prop :=
  (D.stage w).graph

end Growing

end Domain

end Provenance
