import Provenance.Proofs.Eval.Restores
import Provenance.Proofs.Path.Tests
import Provenance.Proofs.Prepare.ScanSound

/-!
# The objects that a segment stands for

The start of a walk asks a segment for all its objects, a later place asks it
about one object. Where no closure is involved both mean the same objects
(`Seeds.mem_iff`), also when a test takes the short way and does not go through
the loop it stands for (`passes_iff_mem_scan`). A closure stands for the objects
that it is true of at the start of a walk, and later for none
(`closure_starts_only`).
-/

namespace Provenance.Path

open Eval
open Provenance.Expr (Direct Inert)
open Members (ofObjects)

variable {c : Setting} {σ : Scope (Option Value)} {n : Nat} {p : ObjectId} {s s' t t' : Session}

/-! ## Seeds pass, and what passes is a seed -/

theorem equals_object_iff {v : Value} {p : ObjectId} : v.equals (.object p) = true ↔ v = .object p := by
  cases v <;> simp [Value.equals]

theorem has_object_iff {members : Members} {p : ObjectId} :
    members.has (.object p) = true ↔ p ∈ members.filterMap Value.object? := by
  rw [Members.has, List.any_eq_true, List.mem_filterMap]
  refine exists_congr fun v => and_congr_right fun _ => equals_object_iff.trans ?_
  cases v <;> simp [Value.object?]

theorem admits_iff {v : Option Value} {p : ObjectId} (hp : p ∈ c.graph.ids) :
    admits p v = true ↔ p ∈ objectsIn c.graph v := by
  cases v with
  | none => simp [admits, objectsIn]
  | some v =>
    cases v with
    | all => exact iff_of_true rfl hp
    | list kind members => exact has_object_iff
    | object q => exact equals_object_iff.trans (by simp [objectsIn, eq_comm])
    | _ => simp [admits, objectsIn, Value.equals]

theorem objectsIn_ofObjects (g : Graph) (ps : List ObjectId) : objectsIn g (some (.listOf (ofObjects ps))) = ps := by
  change (ofObjects ps).filterMap Value.object? = ps
  rw [ofObjects, List.filterMap_map]
  exact List.filterMap_some

theorem tame_val {v : Value} (h : v.tag ≠ .lambda) : (Test.expr (.val v)).Tame c σ := by
  have hi : Inert (.val v) := Expr.inert_val (by cases v <;> first | rfl | exact absurd rfl h)
  refine ⟨hi, fun n => (Ensures.of_steady (Steady.evaluateIn hi)).mono fun w hw => ?_⟩
  rw [eq_of_gives_val hi hw]
  exact noClosure_some h

theorem tame_scan {x : Var} {guard : Expr} (hg : Inert guard) : (Test.expr (Expr.scan x guard)).Tame c σ := by
  have hi : Inert (Expr.scan x guard) := Expr.inert_forIn (Expr.inert_val rfl) hg (Expr.inert_ref x.id)
  refine ⟨hi, fun n => (Ensures.of_steady (Steady.evaluateIn hi)).mono fun w hw => ?_⟩
  obtain ⟨k, rfl⟩ := Gives.exists_succ hw
  obtain ⟨rs, rfl, -⟩ := Prepare.gives_scan_all hg hw
  exact noClosure_some nofun

theorem eq_scan_of_isVar {x : Var} {guard body : Expr} (h : body.isVar x.id = true) :
    .forIn x (.val .all) guard body = Expr.scan x guard := by
  cases body with
  | ref y => rw [beq_iff_eq.mp h, Expr.scan, Expr.all, Expr.varRef]
  | _ => cases h

theorem Seeds.mem_iff {t : Test} {ps : List ObjectId} {p : ObjectId} (h : Seeds c σ t ps) (ht : t.Tame c σ)
    (hp : p ∈ c.graph.ids) : p ∈ ps ↔ Passes c σ t p := by
  cases t with
  | any =>
    rw [h]
    exact iff_of_true hp passes_any
  | expr e =>
    obtain ⟨n, v, hv, rfl⟩ := h
    by_cases hscan : ∃ x guard, e = Expr.scan x guard
    · -- The loop gives the objects that the guard is true of, and as a test its guard is asked.
      obtain ⟨x, guard, rfl⟩ := hscan
      have hguard : Inert guard := ht.1.part (x := some x.id) (by simp [Expr.parts, Expr.scan])
      obtain ⟨k, rfl⟩ := Gives.exists_succ hv
      obtain ⟨rs, rfl, hrs⟩ := Prepare.gives_scan_all hguard hv
      rw [objectsIn_ofObjects, hrs, and_iff_right hp]
      exact (passes_loop hguard).symm
    · by_cases hall : e = .val .all
      · subst hall
        rw [eq_of_gives_val ht.1 hv]
        exact iff_of_true hp passes_all
      · have hloop : ∀ x guard body, e = .forIn x (.val .all) guard body → body.isVar x.id = false := by
          intro x guard body he
          exact Bool.eq_false_iff.mpr fun hbody => hscan ⟨x, guard, he.trans (eq_scan_of_isVar hbody)⟩
        rw [passes_expr hall hloop ht.1, ← admits_iff hp]
        constructor
        · exact fun hadmits => ⟨n, v, hv, hadmits⟩
        · rintro ⟨m, w, hw, hadmits⟩
          rw [hv.unique_of_levels hw ht.1]
          exact hadmits

/-! ## The short way of a test -/

/-- An object passes a loop over all objects, of which the guard is all that is looked at, if and only
if it is in the list that the whole loop gives. -/
theorem passes_iff_mem_scan {x : Var} {guard : Expr} {m : Nat} {b : Bool} {v : Option Value} (hguard : Direct guard)
    (hp : p ∈ c.graph.ids) (hscope : t.scope = s.scope)
    (hpass : passes (evaluateIn n) p (.expr (Expr.scan x guard)) c s = (.ok b, s'))
    (hscan : evaluateIn m (Expr.scan x guard) c t = (.ok v, t')) :
    ∃ ps, v = some (.listOf (ofObjects ps)) ∧ (b = true ↔ p ∈ ps) ∧ b = admits p v := by
  obtain ⟨g, hg, rfl⟩ := (yields_passes_loop hguard).mp (Yields.of_run hpass)
  have hv : Gives false c s.scope m (Expr.scan x guard) v := hscope ▸ Yields.of_run hscan
  obtain ⟨k, rfl⟩ := hv.exists_succ
  obtain ⟨ps, rfl, hps⟩ := Prepare.gives_scan_all hguard hv
  have hmem : truth g = true ↔ p ∈ ps := by
    rw [hps, and_iff_right hp, Prepare.passes_iff hguard hg]
  have hadmits : admits p (some (.listOf (ofObjects ps))) = true ↔ p ∈ ps := by
    rw [admits_iff hp, objectsIn_ofObjects]
  exact ⟨ps, rfl, hmem, Bool.eq_iff_iff.mpr (hmem.trans hadmits.symm)⟩

/-- The guard `x.NAME == y`. -/
def nameIs : Expr :=
  .binary .eq (.field (.ref 0) "NAME") (.ref 1)

def partlyNamed : Setting :=
  ⟨⟨[(1, []), (2, [("INPUT", .object 1), ("NAME", .str "a")]), (3, [("NAME", .str "b")])], [⟨2, 1⟩]⟩, ⟨10, none, 10⟩, .standard⟩

/-- A session in which `y` is bound. -/
def given (y : Value) (trace : Bool) : Session :=
  { Session.new trace with scope := [(1, some y)] }

theorem inert_nameIs : Inert nameIs :=
  Expr.inert_binary rfl (Expr.inert_binary rfl (Expr.inert_ref 0) (Expr.inert_val rfl)) (Expr.inert_ref 1)

theorem passes_iff_mem_scan_nameIs :
    (passes (evaluateIn 3) 2 (.expr (Expr.scan ⟨0, "x"⟩ nameIs)) partlyNamed (given (.str "a") false)).1 = .ok true ∧
      (evaluateIn 4 (Expr.scan ⟨0, "x"⟩ nameIs) partlyNamed (given (.str "a") true)).1 =
        .ok (some (.listOf [.object 2])) ∧
      ∃ ps, some (.listOf [.object 2]) = some (Value.listOf (ofObjects ps)) ∧ (true = true ↔ 2 ∈ ps) ∧
        true = admits 2 (some (.listOf [.object 2])) := by
  have hpass : (passes (evaluateIn 3) 2 (.expr (Expr.scan ⟨0, "x"⟩ nameIs)) partlyNamed (given (.str "a") false)).1 =
      .ok true := rfl
  have hscan : (evaluateIn 4 (Expr.scan ⟨0, "x"⟩ nameIs) partlyNamed (given (.str "a") true)).1 =
      .ok (some (.listOf [.object 2])) := rfl
  refine ⟨hpass, hscan, ?_⟩
  exact passes_iff_mem_scan (s := given (.str "a") false) (t := given (.str "a") true) inert_nameIs (by decide) rfl
    (Prod.ext hpass rfl) (Prod.ext hscan rfl)

/-! ## Closures -/

section
variable {id : UInt64} {x : Var} {body : Expr} (hbody : Direct body)
include hbody

theorem steady_applyClosure (arg : Value) : Steady (applyClosure (evaluateIn n) id x body arg) :=
  respected_carriesOver.bind (respected_carriesOver.note _) fun _ =>
    respected_carriesOver.indented ((Steady.evaluateIn hbody).binding _ _)

theorem yields_applyClosure {q : Bool} {arg : Value} {v : Option Value} :
    Yields q c σ (applyClosure (evaluateIn n) id x body arg) v ↔ Gives q c (σ.push x.id (some arg)) n body v := by
  have hbind : Steady (binding x.id (some arg) (evaluateIn n body)) := (Steady.evaluateIn hbody).binding _ _
  rw [applyClosure, yields_note_bind (respected_carriesOver.indented hbind), yields_indented hbind,
    yields_binding (.evaluateIn hbody)]

theorem ensures_objectsWhere : ∀ {qs : List ObjectId}, Ensures c σ (objectsWhere (evaluateIn n) id x body qs)
    fun ps => ∀ p, p ∈ ps ↔ p ∈ qs ∧ Prepare.Passes c σ x body p
  | [] => .pure (by simp)
  | q :: qs => by
    have hcall : Ensures c σ (applyClosure (evaluateIn n) id x body (.object q)) fun r =>
        Prepare.Passes c σ x body q ↔ truth r = true :=
      (Ensures.of_steady (steady_applyClosure hbody _)).mono fun r hr =>
        Prepare.passes_iff hbody ((yields_applyClosure hbody).mp hr)
    refine hcall.bind fun r hr => ensures_objectsWhere.bind fun ps hps => .pure fun p => ?_
    by_cases htrue : truth r = true
    · have hq := hr.mpr htrue
      rw [if_pos htrue, List.mem_cons, List.mem_cons, hps]
      constructor
      · rintro (rfl | h)
        · exact ⟨Or.inl rfl, hq⟩
        · exact ⟨Or.inr h.1, h.2⟩
      · rintro ⟨rfl | h, hp⟩
        · exact Or.inl rfl
        · exact Or.inr ⟨h, hp⟩
    · rw [if_neg htrue, List.mem_cons, hps]
      constructor
      · exact fun h => ⟨Or.inr h.1, h.2⟩
      · rintro ⟨rfl | h, hp⟩
        · exact absurd (hr.mp hp) htrue
        · exact ⟨h, hp⟩

/-- The objects that a walk may start from at a closure are those that it is true of. -/
theorem mem_startObjects_closure {e : Expr} {ps : List ObjectId}
    (he : evaluateIn n e c s = (.ok (some (.lambda id x body)), s'))
    (h : startObjects (evaluateIn n) (.expr e) c s = (.ok ps, t)) :
    p ∈ ps ↔ p ∈ c.graph.ids ∧ Prepare.Passes c s.scope x body p := by
  have hkept := restores_evaluateIn n e c s
  rw [he] at hkept
  rw [startObjects, bind_of_ok he] at h
  exact (ensures_objectsWhere hbody s' ps t hkept.scope h).2 p

end

theorem exists_list_of_overAll {item : Value → Eval (Option Value)} {r : Option Value}
    (h : overSource item .all c s = (.ok r, s')) : ∃ kind vs, r = some (.list kind vs) := by
  obtain ⟨g, s₁, -, h⟩ := exists_of_bind_eq_ok h
  obtain ⟨gathered, s₂, -, h⟩ := exists_of_bind_eq_ok h
  cases h
  exact ⟨_, _, rfl⟩

theorem exists_list_of_loop {x : Var} {guard body : Expr} {v : Option Value}
    (h : evaluateIn n (.forIn x (.val .all) guard body) c s = (.ok v, s')) : ∃ kind vs, v = some (.list kind vs) := by
  cases n with
  | zero => cases h
  | succ n =>
    simp only [evaluateIn, deeper] at h
    obtain ⟨s₁, h, -⟩ := exists_of_between_eq_ok h
    rw [node, forLoop_eq] at h
    obtain ⟨a, s₂, ha, h⟩ := exists_of_bind_eq_ok h
    have hall : a = some .all := by
      cases n <;> cases ha
      rfl
    subst hall
    obtain ⟨-, s₃, -, h⟩ := exists_of_bind_eq_ok h
    obtain ⟨r, s₄, hr, h⟩ := exists_of_bind_eq_ok h
    cases h
    obtain ⟨s₅, hr, -⟩ := exists_of_between_eq_ok hr
    exact exists_list_of_overAll hr

theorem closure_admits_none {e : Expr} {id : UInt64} {x : Var} {body : Expr} {b : Bool}
    (he : evaluateIn n e c s = (.ok (some (.lambda id x body)), s'))
    (h : passes (evaluateIn n) p (.expr e) c s = (.ok b, t)) : b = false := by
  have hall : e ≠ .val .all := by
    rintro rfl
    cases n <;> cases he
  have hloop : ∀ y guard body, e = .forIn y (.val .all) guard body → body.isVar y.id = false := by
    rintro y guard body rfl
    obtain ⟨kind, vs, hvs⟩ := exists_list_of_loop he
    cases hvs
  rw [passes_eq_admits hall hloop, bind_of_ok he] at h
  cases h
  rfl

/-- A closure stands for the objects that it is true of at the start of a walk, and for none at a later
place. The two agree about the objects that it is not true of, and about no other. -/
theorem closure_starts_only {e : Expr} {m : Nat} {id id' : UInt64} {x x' : Var} {body body' : Expr}
    {ps : List ObjectId} {b : Bool} {s₁ s₂ t₁ t₂ : Session} (hbody : Direct body) (hp : p ∈ c.graph.ids)
    (hstart : evaluateIn n e c s = (.ok (some (.lambda id x body)), s₁))
    (hps : startObjects (evaluateIn n) (.expr e) c s = (.ok ps, s₂))
    (hlater : evaluateIn m e c t = (.ok (some (.lambda id' x' body')), t₁))
    (hb : passes (evaluateIn m) p (.expr e) c t = (.ok b, t₂)) :
    (p ∈ ps ↔ Prepare.Passes c s.scope x body p) ∧ b = false ∧
      ((p ∈ ps ↔ b = true) ↔ ¬ Prepare.Passes c s.scope x body p) := by
  have hmem : p ∈ ps ↔ Prepare.Passes c s.scope x body p := by
    rw [mem_startObjects_closure hbody hstart hps, and_iff_right hp]
  have hfalse : b = false := closure_admits_none hlater hb
  refine ⟨hmem, hfalse, ?_⟩
  rw [hmem, hfalse]
  simp

/-- The closure of `x.NAME == y`, of the variable `x`. -/
def isNamed : Expr :=
  .lambda ⟨0, "x"⟩ nameIs

theorem closure_starts_only_isNamed :
    (startObjects (evaluateIn 4) (.expr isNamed) partlyNamed (given (.str "a") false)).1 = .ok [2] ∧
      (passes (evaluateIn 4) 2 (.expr isNamed) partlyNamed (given (.str "a") true)).1 = .ok false ∧
      ((2 : ObjectId) ∈ [2] ↔ Prepare.Passes partlyNamed [(1, some (.str "a"))] ⟨0, "x"⟩ nameIs 2) ∧ false = false ∧
        (((2 : ObjectId) ∈ [2] ↔ false = true) ↔
          ¬ Prepare.Passes partlyNamed [(1, some (.str "a"))] ⟨0, "x"⟩ nameIs 2) := by
  have hvalue : ∀ trace, (evaluateIn 4 isNamed partlyNamed (given (.str "a") trace)).1 =
      .ok (some (.lambda 0 ⟨0, "x"⟩ nameIs)) := fun _ => rfl
  have hps : (startObjects (evaluateIn 4) (.expr isNamed) partlyNamed (given (.str "a") false)).1 = .ok [2] := rfl
  have hb : (passes (evaluateIn 4) 2 (.expr isNamed) partlyNamed (given (.str "a") true)).1 = .ok false := rfl
  refine ⟨hps, hb, ?_⟩
  exact closure_starts_only (s := given (.str "a") false) (t := given (.str "a") true) inert_nameIs (by decide)
    (Prod.ext (hvalue false) rfl) (Prod.ext hps rfl) (Prod.ext (hvalue true) rfl) (Prod.ext hb rfl)

/-- A walk may start from the second object, of which the closure is true, but the path `1 ->
extract(closure)` does not find it, although it comes from the first. -/
theorem closure_of_start_not_passed :
    (evaluateIn 4 isNamed partlyNamed (given (.str "a") false)).1 = .ok (some (.lambda 0 ⟨0, "x"⟩ nameIs)) ∧
      Direct nameIs ∧ 2 ∈ partlyNamed.graph.ids ∧
      (startObjects (evaluateIn 4) (.expr isNamed) partlyNamed (given (.str "a") false)).1 = .ok [2] ∧
      (passes (evaluateIn 4) 2 (.expr isNamed) partlyNamed (given (.str "a") false)).1 = .ok false ∧
      (Eval.evaluate (.binary .step (.object 1) (.unary .extract isNamed)) partlyNamed (given (.str "a") false)).1 =
        .ok (some (.listOf [])) :=
  ⟨rfl, inert_nameIs, by decide, rfl, rfl, rfl⟩

end Provenance.Path
