import Provenance.Expr.Build

/-!
# Parts of an expression

`parts` lists the expressions directly below a node, each with the variable that
the node binds for it. What an expression takes from around it (`freeVars`) and
whether it is `Inert` are passed on to the parts.
-/

namespace Provenance.Expr

/-- The expressions directly below a node, with the variable that it binds for them. -/
def parts : Expr → List (Option VarId × Expr)
  | val _ => []
  | ref _ => []
  | op _ left right _ => (none, left) :: right.toList.map (none, ·)
  | tuple fields => (fields.filterMap id).map (none, ·)
  | cond test yes no => (none, test) :: (yes.toList ++ no.toList).map (none, ·)
  | forIn x source guard body => [(none, source), (some x.id, guard), (some x.id, body)]
  | letIn x bound guard body => [(none, bound), (some x.id, guard), (some x.id, body)]
  | lambda x body => [(some x.id, body)]

section
variable {x : Option VarId} {a : Expr} {o : Operator} {l : Expr} {span : Option Span}

theorem mem_parts_op {r : Option Expr} : (x, a) ∈ (op o l r span).parts ↔ x = none ∧ (a = l ∨ r = some a) := by
  cases r <;> simp [parts, and_or_left, eq_comm]

theorem mem_parts_tuple {fields : List (Option Expr)} : (x, a) ∈ (tuple fields).parts ↔ x = none ∧ some a ∈ fields := by
  simp only [parts, List.mem_map, List.mem_filterMap, id_eq, exists_eq_right, Prod.mk.injEq, eq_comm (b := x)]
  exact ⟨fun ⟨_, hb, hx, hab⟩ => ⟨hx, hab ▸ hb⟩, fun ⟨hx, ha⟩ => ⟨a, ha, hx, rfl⟩⟩

theorem mem_parts_cond {test : Expr} {yes no : Option Expr} :
    (x, a) ∈ (cond test yes no).parts ↔ x = none ∧ (a = test ∨ yes = some a ∨ no = some a) := by
  cases yes <;> cases no <;> simp [parts, and_or_left, eq_comm]

theorem mem_parts_forIn {y : Var} {source guard body : Expr} :
    (x, a) ∈ (forIn y source guard body).parts ↔
      x = none ∧ a = source ∨ x = some y.id ∧ a = guard ∨ x = some y.id ∧ a = body := by
  simp [parts]

theorem mem_parts_letIn {y : Var} {bound guard body : Expr} :
    (x, a) ∈ (letIn y bound guard body).parts ↔
      x = none ∧ a = bound ∨ x = some y.id ∧ a = guard ∨ x = some y.id ∧ a = body := by
  simp [parts]

theorem mem_parts_lambda {y : Var} {body : Expr} : (x, a) ∈ (lambda y body).parts ↔ x = some y.id ∧ a = body := by
  simp [parts]

theorem left_mem_parts {r : Option Expr} : (none, l) ∈ (op o l r span).parts :=
  mem_parts_op.mpr ⟨rfl, Or.inl rfl⟩

theorem right_mem_parts {r : Expr} : (none, r) ∈ (op o l (some r) span).parts :=
  mem_parts_op.mpr ⟨rfl, Or.inr rfl⟩

end

theorem sizeOf_lt_of_mem_parts {e a : Expr} {x : Option VarId} (h : (x, a) ∈ e.parts) : sizeOf a < sizeOf e := by
  cases e with
  | val v => cases h
  | ref id => cases h
  | op o left right span =>
    rw [op.sizeOf_spec]
    obtain ⟨-, rfl | rfl⟩ := mem_parts_op.mp h
    · omega
    · rw [Option.some.sizeOf_spec]; omega
  | tuple fields =>
    have hlt := List.sizeOf_lt_of_mem (mem_parts_tuple.mp h).2
    rw [Option.some.sizeOf_spec] at hlt
    rw [tuple.sizeOf_spec]
    omega
  | cond test yes no =>
    rw [cond.sizeOf_spec]
    obtain ⟨-, rfl | rfl | rfl⟩ := mem_parts_cond.mp h
    · omega
    · rw [Option.some.sizeOf_spec]; omega
    · rw [Option.some.sizeOf_spec]; omega
  | forIn y source guard body =>
    rw [forIn.sizeOf_spec]
    obtain ⟨-, rfl⟩ | ⟨-, rfl⟩ | ⟨-, rfl⟩ := mem_parts_forIn.mp h <;> omega
  | letIn y bound guard body =>
    rw [letIn.sizeOf_spec]
    obtain ⟨-, rfl⟩ | ⟨-, rfl⟩ | ⟨-, rfl⟩ := mem_parts_letIn.mp h <;> omega
  | lambda y body =>
    rw [lambda.sizeOf_spec]
    obtain ⟨-, rfl⟩ := mem_parts_lambda.mp h
    omega

theorem parts_induction {P : Expr → Prop} (h : ∀ e, (∀ x a, (x, a) ∈ e.parts → P a) → P e) (e : Expr) : P e :=
  h e fun _ a _ => parts_induction h a
termination_by sizeOf e
decreasing_by exact sizeOf_lt_of_mem_parts ‹_›

theorem parts_tuple (es : List Expr) : (tuple (es.map some)).parts = es.map (none, ·) := by
  rw [parts, List.filterMap_map, Function.id_comp, List.filterMap_some]

theorem exists_map_some {fields : List (Option Expr)} (h : ∀ f ∈ fields, f.isSome = true) :
    ∃ es : List Expr, fields = es.map some := by
  induction fields with
  | nil => exact ⟨[], rfl⟩
  | cons f rest ih =>
    obtain ⟨e, rfl⟩ := Option.isSome_iff_exists.mp (h f List.mem_cons_self)
    obtain ⟨es, rfl⟩ := ih fun a ha => h a (List.mem_cons_of_mem _ ha)
    exact ⟨e :: es, rfl⟩

/-! ## The nodes of parts -/

theorem nodes_eq_cons (e : Expr) : e.nodes = e :: e.nodes.tail := by
  cases e <;> simp [nodes]

theorem self_mem_nodes (e : Expr) : e ∈ e.nodes := by
  rw [nodes_eq_cons]
  exact List.mem_cons_self

theorem nodes_sublist_nodesAll {a : Expr} : ∀ {fields : List (Option Expr)}, some a ∈ fields →
    a.nodes.Sublist (nodesAll fields)
  | [], h => by cases h
  | f :: rest, h => by
    rcases List.mem_cons.mp h with rfl | h
    · exact List.sublist_append_left _ _
    · exact (nodes_sublist_nodesAll h).trans (List.sublist_append_right _ _)

theorem nodes_sublist_of_mem_parts {e a : Expr} {x : Option VarId} (h : (x, a) ∈ e.parts) :
    a.nodes.Sublist e.nodes.tail := by
  cases e with
  | val v => cases h
  | ref id => cases h
  | op o left right span =>
    rw [nodes, List.tail_cons]
    obtain ⟨-, rfl | rfl⟩ := mem_parts_op.mp h
    · exact List.sublist_append_left _ _
    · exact List.sublist_append_right _ _
  | tuple fields => exact nodes_sublist_nodesAll (mem_parts_tuple.mp h).2
  | cond test yes no =>
    rw [nodes, List.tail_cons]
    obtain ⟨-, rfl | rfl | rfl⟩ := mem_parts_cond.mp h
    · exact List.sublist_append_left _ _
    · exact List.sublist_append_of_sublist_right (List.sublist_append_left _ _)
    · exact List.sublist_append_of_sublist_right (List.sublist_append_right _ _)
  | forIn y source guard body =>
    rw [nodes, List.tail_cons]
    obtain ⟨-, rfl⟩ | ⟨-, rfl⟩ | ⟨-, rfl⟩ := mem_parts_forIn.mp h
    · exact List.sublist_append_left _ _
    · exact List.sublist_append_of_sublist_right (List.sublist_append_left _ _)
    · exact List.sublist_append_of_sublist_right (List.sublist_append_right _ _)
  | letIn y bound guard body =>
    rw [nodes, List.tail_cons]
    obtain ⟨-, rfl⟩ | ⟨-, rfl⟩ | ⟨-, rfl⟩ := mem_parts_letIn.mp h
    · exact List.sublist_append_left _ _
    · exact List.sublist_append_of_sublist_right (List.sublist_append_left _ _)
    · exact List.sublist_append_of_sublist_right (List.sublist_append_right _ _)
  | lambda y body =>
    obtain ⟨-, rfl⟩ := mem_parts_lambda.mp h
    exact List.Sublist.refl _

theorem nodes_subset_of_mem_parts {e a : Expr} {x : Option VarId} (h : (x, a) ∈ e.parts) : a.nodes ⊆ e.nodes :=
  ((nodes_sublist_of_mem_parts h).trans (List.tail_sublist _)).subset

theorem mem_nodesOpt {b : Expr} {field : Option Expr} (h : b ∈ nodesOpt field) : ∃ a, field = some a ∧ b ∈ a.nodes := by
  cases field with
  | none => cases h
  | some a => exact ⟨a, rfl, h⟩

theorem mem_nodesAll {b : Expr} : ∀ {fields : List (Option Expr)}, b ∈ nodesAll fields →
    ∃ a, some a ∈ fields ∧ b ∈ a.nodes
  | f :: rest, h => by
    rcases List.mem_append.mp h with h | h
    · obtain ⟨a, rfl, hb⟩ := mem_nodesOpt h
      exact ⟨a, List.mem_cons_self, hb⟩
    · obtain ⟨a, ha, hb⟩ := mem_nodesAll h
      exact ⟨a, List.mem_cons_of_mem _ ha, hb⟩

theorem mem_nodes {b e : Expr} (h : b ∈ e.nodes) :
    b = e ∨ (∃ x a, (x, a) ∈ e.parts ∧ b ∈ a.nodes) ∨ ∃ v, e = val v ∧ b ∈ closureNodes v := by
  cases e with
  | val v => exact (List.mem_cons.mp h).imp_right fun h => Or.inr ⟨v, rfl, h⟩
  | ref x => exact Or.inl (List.mem_singleton.mp h)
  | op o left right span =>
    refine (List.mem_cons.mp h).imp_right fun h => Or.inl ?_
    rcases List.mem_append.mp h with h | h
    · exact ⟨none, left, left_mem_parts, h⟩
    · obtain ⟨r, rfl, hb⟩ := mem_nodesOpt h
      exact ⟨none, r, right_mem_parts, hb⟩
  | tuple fields =>
    refine (List.mem_cons.mp h).imp_right fun h => Or.inl ?_
    obtain ⟨a, ha, hb⟩ := mem_nodesAll h
    exact ⟨none, a, mem_parts_tuple.mpr ⟨rfl, ha⟩, hb⟩
  | cond test yes no =>
    refine (List.mem_cons.mp h).imp_right fun h => Or.inl ?_
    rcases (List.mem_append.mp h).imp_right List.mem_append.mp with h | h | h
    · exact ⟨none, test, mem_parts_cond.mpr ⟨rfl, Or.inl rfl⟩, h⟩
    · obtain ⟨a, rfl, hb⟩ := mem_nodesOpt h
      exact ⟨none, a, mem_parts_cond.mpr ⟨rfl, Or.inr (Or.inl rfl)⟩, hb⟩
    · obtain ⟨a, rfl, hb⟩ := mem_nodesOpt h
      exact ⟨none, a, mem_parts_cond.mpr ⟨rfl, Or.inr (Or.inr rfl)⟩, hb⟩
  | forIn y source guard body =>
    refine (List.mem_cons.mp h).imp_right fun h => Or.inl ?_
    rcases (List.mem_append.mp h).imp_right List.mem_append.mp with h | h | h
    · exact ⟨none, source, List.mem_cons_self, h⟩
    · exact ⟨some y.id, guard, mem_parts_forIn.mpr (Or.inr (Or.inl ⟨rfl, rfl⟩)), h⟩
    · exact ⟨some y.id, body, mem_parts_forIn.mpr (Or.inr (Or.inr ⟨rfl, rfl⟩)), h⟩
  | letIn y bound guard body =>
    refine (List.mem_cons.mp h).imp_right fun h => Or.inl ?_
    rcases (List.mem_append.mp h).imp_right List.mem_append.mp with h | h | h
    · exact ⟨none, bound, List.mem_cons_self, h⟩
    · exact ⟨some y.id, guard, mem_parts_letIn.mpr (Or.inr (Or.inl ⟨rfl, rfl⟩)), h⟩
    · exact ⟨some y.id, body, mem_parts_letIn.mpr (Or.inr (Or.inr ⟨rfl, rfl⟩)), h⟩
  | lambda y body =>
    exact (List.mem_cons.mp h).imp_right fun h => Or.inl ⟨some y.id, body, List.mem_cons_self, h⟩

theorem mentions_of_mem_parts {e a : Expr} {z : Option VarId} {y : VarId} (h : (z, a) ∈ e.parts)
    (hy : a.mentions y = true) : e.mentions y = true := by
  obtain ⟨node, hnode, hvar⟩ := List.any_eq_true.mp hy
  exact List.any_eq_true.mpr ⟨node, nodes_subset_of_mem_parts h hnode, hvar⟩

/-! ## Inert expressions -/

/-- Whether the node itself makes no closure, calls none, and walks no path. -/
def isInert : Expr → Bool
  | val (.lambda _ _ _) => false
  | lambda _ _ => false
  | op o _ _ _ => o != .call && !o.isJoin
  | _ => true

def Inert (e : Expr) : Prop :=
  ∀ a ∈ e.nodes, a.isInert = true

theorem Inert.self {e : Expr} (h : Inert e) : e.isInert = true :=
  h e (self_mem_nodes e)

theorem Inert.part {e a : Expr} {x : Option VarId} (h : Inert e) (ha : (x, a) ∈ e.parts) : Inert a :=
  fun b hb => h b (nodes_subset_of_mem_parts ha hb)

theorem inert_of_parts {e : Expr} (he : e.isInert = true) (hp : ∀ x a, (x, a) ∈ e.parts → Inert a) : Inert e := by
  intro b hb
  rcases mem_nodes hb with rfl | ⟨x, a, ha, hba⟩ | ⟨v, rfl, hbv⟩
  · exact he
  · exact hp x a ha b hba
  · cases v with
    | lambda id x body => cases he
    | _ => cases hbv

theorem inert_val {v : Value} (h : (val v).isInert = true) : Inert (val v) :=
  inert_of_parts h fun x a ha => by cases ha

theorem inert_ref (x : VarId) : Inert (ref x) :=
  inert_of_parts rfl fun x a ha => by cases ha

theorem inert_unary {o : Operator} {e : Expr} {span : Option Span} (ho : (op o e none span).isInert = true)
    (h : Inert e) : Inert (op o e none span) := by
  refine inert_of_parts ho fun x a ha => ?_
  obtain ⟨-, rfl | hr⟩ := mem_parts_op.mp ha
  · exact h
  · cases hr

theorem inert_binary {o : Operator} {l r : Expr} {span : Option Span} (ho : (op o l (some r) span).isInert = true)
    (hl : Inert l) (hr : Inert r) : Inert (op o l (some r) span) := by
  refine inert_of_parts ho fun x a ha => ?_
  obtain ⟨-, rfl | hb⟩ := mem_parts_op.mp ha
  · exact hl
  · exact Option.some.inj hb ▸ hr

theorem inert_cond {test yes no : Expr} (ht : Inert test) (hy : Inert yes) (hn : Inert no) :
    Inert (cond test (some yes) (some no)) := by
  refine inert_of_parts rfl fun x a ha => ?_
  obtain ⟨-, rfl | hb | hb⟩ := mem_parts_cond.mp ha
  · exact ht
  · exact Option.some.inj hb ▸ hy
  · exact Option.some.inj hb ▸ hn

theorem inert_tuple {es : List Expr} (h : ∀ e ∈ es, Inert e) : Inert (tuple (es.map some)) := by
  refine inert_of_parts rfl fun x a ha => ?_
  rw [parts_tuple] at ha
  obtain ⟨b, hb, heq⟩ := List.mem_map.mp ha
  cases heq
  exact h _ hb

theorem inert_letIn {x : Var} {bound guard body : Expr} (hb : Inert bound) (hg : Inert guard) (hbody : Inert body) :
    Inert (letIn x bound guard body) := by
  refine inert_of_parts rfl fun y a ha => ?_
  obtain ⟨-, rfl⟩ | ⟨-, rfl⟩ | ⟨-, rfl⟩ := mem_parts_letIn.mp ha
  · exact hb
  · exact hg
  · exact hbody

theorem inert_forIn {x : Var} {source guard body : Expr} (hs : Inert source) (hg : Inert guard) (hbody : Inert body) :
    Inert (forIn x source guard body) := by
  refine inert_of_parts rfl fun y a ha => ?_
  obtain ⟨-, rfl⟩ | ⟨-, rfl⟩ | ⟨-, rfl⟩ := mem_parts_forIn.mp ha
  · exact hs
  · exact hg
  · exact hbody

section
variable {o : Operator} {l : Expr} {span : Option Span}

theorem Inert.operator {r : Option Expr} (h : Inert (op o l r span)) : o ≠ .call ∧ o.isJoin = false := by
  simpa [isInert] using h.self

theorem Inert.left {r : Option Expr} (h : Inert (op o l r span)) : Inert l :=
  h.part left_mem_parts

theorem Inert.right {r : Expr} (h : Inert (op o l (some r) span)) : Inert r :=
  h.part right_mem_parts

end

/-! ## Direct expressions -/

/-- Whether the node itself makes no closure, calls none, and walks no path. Other than an inert node it
may be a literal closure, which stays a value as long as nothing calls it. -/
def isDirect : Expr → Bool
  | lambda _ _ => false
  | op o _ _ _ => o != .call && !o.isJoin
  | _ => true

/-- Every node that evaluation can come to is direct. -/
inductive Direct : Expr → Prop
  | of_parts {e : Expr} (self : e.isDirect = true) (parts : ∀ x a, (x, a) ∈ e.parts → Direct a) : Direct e

theorem Direct.self {e : Expr} (h : Direct e) : e.isDirect = true := by
  cases h with
  | of_parts self parts => exact self

theorem Direct.part {e a : Expr} {x : Option VarId} (h : Direct e) (ha : (x, a) ∈ e.parts) : Direct a := by
  cases h with
  | of_parts self parts => exact parts x a ha

theorem isDirect_of_isInert {e : Expr} (h : e.isInert = true) : e.isDirect = true := by
  cases e <;> first | exact h | rfl

theorem Inert.direct {e : Expr} (h : Inert e) : Direct e := by
  induction e using parts_induction with
  | h e ih => exact .of_parts (isDirect_of_isInert h.self) fun x a ha => ih x a ha (h.part ha)

instance {e : Expr} : Coe (Inert e) (Direct e) := ⟨Inert.direct⟩

theorem direct_ref (x : VarId) : Direct (ref x) :=
  inert_ref x

theorem direct_forIn {x : Var} {source guard body : Expr} (hs : Direct source) (hg : Direct guard)
    (hbody : Direct body) : Direct (forIn x source guard body) := by
  refine .of_parts rfl fun y a ha => ?_
  obtain ⟨-, rfl⟩ | ⟨-, rfl⟩ | ⟨-, rfl⟩ := mem_parts_forIn.mp ha
  · exact hs
  · exact hg
  · exact hbody

/-! ## Free variables -/

mutual

/-- The variables that an expression takes from around it, those inside literals aside. -/
def freeVars : Expr → List VarId
  | val _ => []
  | ref x => [x]
  | op _ left right _ => left.freeVars ++ freeVarsOpt right
  | tuple fields => freeVarsAll fields
  | cond test yes no => test.freeVars ++ (freeVarsOpt yes ++ freeVarsOpt no)
  | forIn x source guard body =>
    source.freeVars ++ (guard.freeVars ++ body.freeVars).filter (· != x.id)
  | letIn x bound guard body =>
    bound.freeVars ++ (guard.freeVars ++ body.freeVars).filter (· != x.id)
  | lambda x body => body.freeVars.filter (· != x.id)

def freeVarsOpt : Option Expr → List VarId
  | none => []
  | some e => e.freeVars

def freeVarsAll : List (Option Expr) → List VarId
  | [] => []
  | e :: rest => freeVarsOpt e ++ freeVarsAll rest

end

theorem freeVars_subset_freeVarsAll {a : Expr} : ∀ {fields : List (Option Expr)}, some a ∈ fields →
    a.freeVars ⊆ freeVarsAll fields
  | [], h => by cases h
  | f :: rest, h => by
    rcases List.mem_cons.mp h with rfl | h
    · exact List.subset_append_left _ _
    · exact fun _ hb => List.mem_append_right _ (freeVars_subset_freeVarsAll h hb)

theorem eq_or_mem_filter {z y : VarId} {ys : List VarId} (h : y ∈ ys) : some z = some y ∨ y ∈ ys.filter (· != z) := by
  by_cases hz : z = y
  · exact Or.inl (congrArg some hz)
  · exact Or.inr (List.mem_filter.mpr ⟨h, bne_iff_ne.mpr (Ne.symm hz)⟩)

theorem mem_freeVars_of_mem_parts {e a : Expr} {x : Option VarId} (h : (x, a) ∈ e.parts) {y : VarId}
    (hy : y ∈ a.freeVars) : x = some y ∨ y ∈ e.freeVars := by
  cases e with
  | val v => cases h
  | ref id => cases h
  | op o left right span =>
    obtain ⟨-, rfl | rfl⟩ := mem_parts_op.mp h
    · exact Or.inr (List.mem_append_left _ hy)
    · exact Or.inr (List.mem_append_right _ hy)
  | tuple fields => exact Or.inr (freeVars_subset_freeVarsAll (mem_parts_tuple.mp h).2 hy)
  | cond test yes no =>
    obtain ⟨-, rfl | rfl | rfl⟩ := mem_parts_cond.mp h
    · exact Or.inr (List.mem_append_left _ hy)
    · exact Or.inr (List.mem_append_right _ (List.mem_append_left _ hy))
    · exact Or.inr (List.mem_append_right _ (List.mem_append_right _ hy))
  | forIn z source guard body =>
    obtain ⟨-, rfl⟩ | ⟨rfl, rfl⟩ | ⟨rfl, rfl⟩ := mem_parts_forIn.mp h
    · exact Or.inr (List.mem_append_left _ hy)
    · exact (eq_or_mem_filter (List.mem_append_left _ hy)).imp_right (List.mem_append_right _)
    · exact (eq_or_mem_filter (List.mem_append_right _ hy)).imp_right (List.mem_append_right _)
  | letIn z bound guard body =>
    obtain ⟨-, rfl⟩ | ⟨rfl, rfl⟩ | ⟨rfl, rfl⟩ := mem_parts_letIn.mp h
    · exact Or.inr (List.mem_append_left _ hy)
    · exact (eq_or_mem_filter (List.mem_append_left _ hy)).imp_right (List.mem_append_right _)
    · exact (eq_or_mem_filter (List.mem_append_right _ hy)).imp_right (List.mem_append_right _)
  | lambda z body =>
    obtain ⟨rfl, rfl⟩ := mem_parts_lambda.mp h
    exact eq_or_mem_filter hy

theorem exists_of_mem_freeVarsOpt {y : VarId} {field : Option Expr} (h : y ∈ freeVarsOpt field) :
    ∃ a, field = some a ∧ y ∈ a.freeVars := by
  cases field with
  | none => cases h
  | some a => exact ⟨a, rfl, h⟩

theorem exists_of_mem_freeVarsAll {y : VarId} : ∀ {fields : List (Option Expr)}, y ∈ freeVarsAll fields →
    ∃ a, some a ∈ fields ∧ y ∈ a.freeVars
  | f :: rest, h => by
    rcases List.mem_append.mp h with h | h
    · obtain ⟨a, rfl, hy⟩ := exists_of_mem_freeVarsOpt h
      exact ⟨a, List.mem_cons_self, hy⟩
    · obtain ⟨a, ha, hy⟩ := exists_of_mem_freeVarsAll h
      exact ⟨a, List.mem_cons_of_mem _ ha, hy⟩

theorem mem_and_ne_of_mem_filter {z y : VarId} {ys : List VarId} (h : y ∈ ys.filter (· != z)) :
    y ∈ ys ∧ some z ≠ some y := by
  obtain ⟨hy, hne⟩ := List.mem_filter.mp h
  exact ⟨hy, fun heq => bne_iff_ne.mp hne (Option.some.inj heq).symm⟩

theorem exists_part_of_mem_freeVars {e : Expr} {y : VarId} (h : y ∈ e.freeVars) :
    e = ref y ∨ ∃ x a, (x, a) ∈ e.parts ∧ y ∈ a.freeVars ∧ x ≠ some y := by
  have hnone : none ≠ some y := (Option.some_ne_none y).symm
  cases e with
  | val v => cases h
  | ref x => exact Or.inl (by rw [List.mem_singleton.mp h])
  | op o left right span =>
    right
    rcases List.mem_append.mp h with h | h
    · exact ⟨none, left, left_mem_parts, h, hnone⟩
    · obtain ⟨r, rfl, hy⟩ := exists_of_mem_freeVarsOpt h
      exact ⟨none, r, right_mem_parts, hy, hnone⟩
  | tuple fields =>
    obtain ⟨a, ha, hy⟩ := exists_of_mem_freeVarsAll h
    exact Or.inr ⟨none, a, mem_parts_tuple.mpr ⟨rfl, ha⟩, hy, hnone⟩
  | cond test yes no =>
    right
    rcases (List.mem_append.mp h).imp_right List.mem_append.mp with h | h | h
    · exact ⟨none, test, mem_parts_cond.mpr ⟨rfl, Or.inl rfl⟩, h, hnone⟩
    · obtain ⟨a, rfl, hy⟩ := exists_of_mem_freeVarsOpt h
      exact ⟨none, a, mem_parts_cond.mpr ⟨rfl, Or.inr (Or.inl rfl)⟩, hy, hnone⟩
    · obtain ⟨a, rfl, hy⟩ := exists_of_mem_freeVarsOpt h
      exact ⟨none, a, mem_parts_cond.mpr ⟨rfl, Or.inr (Or.inr rfl)⟩, hy, hnone⟩
  | forIn x source guard body =>
    right
    rcases List.mem_append.mp h with h | h
    · exact ⟨none, source, List.mem_cons_self, h, hnone⟩
    · obtain ⟨hy, hne⟩ := mem_and_ne_of_mem_filter h
      rcases List.mem_append.mp hy with hy | hy
      · exact ⟨some x.id, guard, mem_parts_forIn.mpr (Or.inr (Or.inl ⟨rfl, rfl⟩)), hy, hne⟩
      · exact ⟨some x.id, body, mem_parts_forIn.mpr (Or.inr (Or.inr ⟨rfl, rfl⟩)), hy, hne⟩
  | letIn x bound guard body =>
    right
    rcases List.mem_append.mp h with h | h
    · exact ⟨none, bound, List.mem_cons_self, h, hnone⟩
    · obtain ⟨hy, hne⟩ := mem_and_ne_of_mem_filter h
      rcases List.mem_append.mp hy with hy | hy
      · exact ⟨some x.id, guard, mem_parts_letIn.mpr (Or.inr (Or.inl ⟨rfl, rfl⟩)), hy, hne⟩
      · exact ⟨some x.id, body, mem_parts_letIn.mpr (Or.inr (Or.inr ⟨rfl, rfl⟩)), hy, hne⟩
  | lambda x body =>
    obtain ⟨hy, hne⟩ := mem_and_ne_of_mem_filter h
    exact Or.inr ⟨some x.id, body, List.mem_cons_self, hy, hne⟩

def Within (X : VarId → Prop) (e : Expr) : Prop :=
  ∀ y ∈ e.freeVars, X y

/-- The variables at hand below a node that binds a variable, or none. -/
def under : Option VarId → (VarId → Prop) → VarId → Prop
  | none, X => X
  | some x, X => fun y => x = y ∨ X y

theorem Within.part {X : VarId → Prop} {e a : Expr} {x : Option VarId} (h : Within X e)
    (ha : (x, a) ∈ e.parts) : Within (under x X) a := by
  intro y hy
  have hm := mem_freeVars_of_mem_parts ha hy
  cases x with
  | none => exact h y (hm.resolve_left (by simp))
  | some x => exact hm.imp Option.some.inj (h y)

theorem within_of_parts {X : VarId → Prop} {e : Expr} (href : ∀ y, e = ref y → X y)
    (hparts : ∀ x a, (x, a) ∈ e.parts → Within (under x X) a) : Within X e := by
  intro y hy
  rcases exists_part_of_mem_freeVars hy with h | ⟨x, a, ha, hy, hne⟩
  · exact href y h
  · have h := hparts x a ha y hy
    cases x with
    | none => exact h
    | some x => exact h.resolve_left fun hxy => hne (congrArg some hxy)

end Provenance.Expr
