import Provenance.Proofs.Prepare.Intact

/-!
# References stay in scope

The rules remove bindings, put what is bound in the place of variables, and take
parts of an expression out of it. What is left refers to the variables the
expression referred to, and its closures among the literals take from around
them what they took (`Traversal.scoped`). Substitution does not look into these
closures, so they keep their bindings only if these are loops and functions,
which no rule removes from around them (`outerVars_of_simplify`). A binding that
only such a closure needs is lost (`simplify_loses_binding`).
-/

namespace Provenance

/-! ## Variables inside literals -/

mutual

/-- The variables that the closures in a value take from around them. -/
def Value.outerVars : Value → List VarId
  | .tuple vs => Value.outerVarsAll vs
  | .list _ vs => Value.outerVarsAll vs
  | .lambda _ x body => body.outerVars.filter (· != x.id)
  | _ => []

def Value.outerVarsAll : List Value → List VarId
  | [] => []
  | v :: vs => v.outerVars ++ Value.outerVarsAll vs

/-- The variables that an expression takes from around it, those inside literals included. -/
def Expr.outerVars : Expr → List VarId
  | .val v => v.outerVars
  | .ref x => [x]
  | .op _ left right _ => left.outerVars ++ Expr.outerVarsOpt right
  | .tuple fields => Expr.outerVarsAll fields
  | .cond test yes no => test.outerVars ++ (Expr.outerVarsOpt yes ++ Expr.outerVarsOpt no)
  | .forIn x source guard body =>
    source.outerVars ++ (guard.outerVars ++ body.outerVars).filter (· != x.id)
  | .letIn x bound guard body =>
    bound.outerVars ++ (guard.outerVars ++ body.outerVars).filter (· != x.id)
  | .lambda x body => body.outerVars.filter (· != x.id)

def Expr.outerVarsOpt : Option Expr → List VarId
  | none => []
  | some e => e.outerVars

def Expr.outerVarsAll : List (Option Expr) → List VarId
  | [] => []
  | e :: rest => Expr.outerVarsOpt e ++ Expr.outerVarsAll rest

end

namespace Expr

mutual

/-- The variables that the closures among the literals of an expression take from around them,
those of loops and functions aside. A binding counts as around the expression, for it may go. -/
def heldVars : Expr → List VarId
  | val v => v.outerVars
  | ref _ => []
  | op _ left right _ => left.heldVars ++ heldVarsOpt right
  | tuple fields => heldVarsAll fields
  | cond test yes no => test.heldVars ++ (heldVarsOpt yes ++ heldVarsOpt no)
  | forIn x source guard body => source.heldVars ++ (guard.heldVars ++ body.heldVars).filter (· != x.id)
  | letIn _ bound guard body => bound.heldVars ++ (guard.heldVars ++ body.heldVars)
  | lambda x body => body.heldVars.filter (· != x.id)

def heldVarsOpt : Option Expr → List VarId
  | none => []
  | some e => e.heldVars

def heldVarsAll : List (Option Expr) → List VarId
  | [] => []
  | e :: rest => heldVarsOpt e ++ heldVarsAll rest

end

section
variable {y z : VarId}

theorem mem_outerVarsOpt {e : Option Expr} : y ∈ outerVarsOpt e ↔ ∃ a ∈ e, y ∈ a.outerVars := by
  cases e <;> simp [outerVarsOpt]

theorem mem_outerVarsAll {es : List (Option Expr)} : y ∈ outerVarsAll es ↔ ∃ a, some a ∈ es ∧ y ∈ a.outerVars := by
  induction es with
  | nil => simp [outerVarsAll]
  | cons e es ih => simp [outerVarsAll, mem_outerVarsOpt, ih, or_and_right, exists_or, eq_comm]

theorem mem_heldVarsOpt {e : Option Expr} : y ∈ heldVarsOpt e ↔ ∃ a ∈ e, y ∈ a.heldVars := by
  cases e <;> simp [heldVarsOpt]

theorem mem_heldVarsAll {es : List (Option Expr)} : y ∈ heldVarsAll es ↔ ∃ a, some a ∈ es ∧ y ∈ a.heldVars := by
  induction es with
  | nil => simp [heldVarsAll]
  | cons e es ih => simp [heldVarsAll, mem_heldVarsOpt, ih, or_and_right, exists_or, eq_comm]

end

end Expr

theorem Value.mem_outerVarsAll {y : VarId} {vs : List Value} : y ∈ outerVarsAll vs ↔ ∃ v ∈ vs, y ∈ v.outerVars := by
  induction vs with
  | nil => simp [outerVarsAll]
  | cons v vs ih => simp [outerVarsAll, ih]

namespace Prepare

open Eval
open Provenance.Expr (under substitute substituteOpt substituteAll)

variable {Γ Γ' Δ Δ' : VarId → Prop} {e l : Expr} {r : Option Expr} {o : Operator} {span : Option Span}

/-! ## Scoped expressions -/

/-- A variable that is referred to is in `Γ` or bound around the reference. One that a closure among the literals takes
is in `Δ` or that of a loop or function around the closure. -/
inductive Scoped : (VarId → Prop) → (VarId → Prop) → Expr → Prop
  | val {Γ Δ : VarId → Prop} {v : Value} (h : ∀ y ∈ v.outerVars, Δ y) : Scoped Γ Δ (.val v)
  | ref {Γ Δ : VarId → Prop} {x : VarId} (hx : Γ x) : Scoped Γ Δ (.ref x)
  | op {Γ Δ : VarId → Prop} {o : Operator} {l : Expr} {r : Option Expr} {span : Option Span} (hl : Scoped Γ Δ l)
      (hr : ∀ a ∈ r, Scoped Γ Δ a) : Scoped Γ Δ (.op o l r span)
  | tuple {Γ Δ : VarId → Prop} {fields : List (Option Expr)} (h : ∀ a, some a ∈ fields → Scoped Γ Δ a) :
      Scoped Γ Δ (.tuple fields)
  | cond {Γ Δ : VarId → Prop} {test : Expr} {yes no : Option Expr} (ht : Scoped Γ Δ test)
      (hy : ∀ a ∈ yes, Scoped Γ Δ a) (hn : ∀ a ∈ no, Scoped Γ Δ a) : Scoped Γ Δ (.cond test yes no)
  | forIn {Γ Δ : VarId → Prop} {x : Var} {source guard body : Expr} (hs : Scoped Γ Δ source)
      (hg : Scoped (under (some x.id) Γ) (under (some x.id) Δ) guard)
      (hbody : Scoped (under (some x.id) Γ) (under (some x.id) Δ) body) : Scoped Γ Δ (.forIn x source guard body)
  | letIn {Γ Δ : VarId → Prop} {x : Var} {bound guard body : Expr} (hb : Scoped Γ Δ bound)
      (hg : Scoped (under (some x.id) Γ) Δ guard) (hbody : Scoped (under (some x.id) Γ) Δ body) :
      Scoped Γ Δ (.letIn x bound guard body)
  | lambda {Γ Δ : VarId → Prop} {x : Var} {body : Expr} (hbody : Scoped (under (some x.id) Γ) (under (some x.id) Δ) body) :
      Scoped Γ Δ (.lambda x body)

theorem under_mono {x : VarId} (h : ∀ y, Γ y → Γ' y) (y : VarId) : under (some x) Γ y → under (some x) Γ' y :=
  Or.imp_right (h y)

theorem Scoped.mono (h : Scoped Γ Δ e) : ∀ {Γ' Δ' : VarId → Prop}, (∀ y, Γ y → Γ' y) → (∀ y, Δ y → Δ' y) →
    Scoped Γ' Δ' e := by
  induction h with
  | val h => exact fun _ hΔ => .val fun y hy => hΔ y (h y hy)
  | ref hx => exact fun hΓ _ => .ref (hΓ _ hx)
  | op _ _ ihl ihr => exact fun hΓ hΔ => .op (ihl hΓ hΔ) fun a ha => ihr a ha hΓ hΔ
  | tuple _ ih => exact fun hΓ hΔ => .tuple fun a ha => ih a ha hΓ hΔ
  | cond _ _ _ iht ihy ihn =>
    exact fun hΓ hΔ => .cond (iht hΓ hΔ) (fun a ha => ihy a ha hΓ hΔ) fun a ha => ihn a ha hΓ hΔ
  | forIn _ _ _ ihs ihg ihbody =>
    exact fun hΓ hΔ => .forIn (ihs hΓ hΔ) (ihg (under_mono hΓ) (under_mono hΔ)) (ihbody (under_mono hΓ) (under_mono hΔ))
  | letIn _ _ _ ihb ihg ihbody =>
    exact fun hΓ hΔ => .letIn (ihb hΓ hΔ) (ihg (under_mono hΓ) hΔ) (ihbody (under_mono hΓ) hΔ)
  | lambda _ ih => exact fun hΓ hΔ => .lambda (ih (under_mono hΓ) (under_mono hΔ))

theorem mem_filter_ne {x y : VarId} {ys : List VarId} : y ∈ ys.filter (· != x) ↔ y ∈ ys ∧ x ≠ y := by
  rw [List.mem_filter, bne_iff_ne, ne_comm]

theorem under_of_mem {x y : VarId} {ys : List VarId} (h : ∀ y ∈ ys.filter (· != x), Γ y) (hy : y ∈ ys) :
    under (some x) Γ y := by
  by_cases hxy : x = y
  · exact Or.inl hxy
  · exact Or.inr (h y (mem_filter_ne.mpr ⟨hy, hxy⟩))

theorem scoped_of_outerVars : ∀ (e : Expr) {Γ Δ : VarId → Prop}, (∀ y ∈ e.outerVars, Γ y) → (∀ y ∈ e.heldVars, Δ y) →
    Scoped Γ Δ e := by
  refine Expr.parts_induction fun e ih Γ Δ hΓ hΔ => ?_
  cases e with
  | val v => exact .val hΔ
  | ref x => exact .ref (hΓ x (List.mem_singleton.mpr rfl))
  | op o l r span =>
    simp only [Expr.outerVars, Expr.heldVars, List.forall_mem_append, Expr.mem_outerVarsOpt, Expr.mem_heldVarsOpt] at hΓ hΔ
    refine .op (ih none l Expr.left_mem_parts hΓ.1 hΔ.1) fun a ha => ?_
    exact ih none a (Expr.mem_parts_op.mpr ⟨rfl, Or.inr ha⟩) (fun y hy => hΓ.2 y ⟨a, ha, hy⟩) fun y hy => hΔ.2 y ⟨a, ha, hy⟩
  | tuple fields =>
    simp only [Expr.outerVars, Expr.heldVars, Expr.mem_outerVarsAll, Expr.mem_heldVarsAll] at hΓ hΔ
    refine .tuple fun a ha => ?_
    exact ih none a (Expr.mem_parts_tuple.mpr ⟨rfl, ha⟩) (fun y hy => hΓ y ⟨a, ha, hy⟩) fun y hy => hΔ y ⟨a, ha, hy⟩
  | cond test yes no =>
    simp only [Expr.outerVars, Expr.heldVars, List.forall_mem_append, Expr.mem_outerVarsOpt, Expr.mem_heldVarsOpt] at hΓ hΔ
    refine .cond (ih none test (Expr.mem_parts_cond.mpr ⟨rfl, Or.inl rfl⟩) hΓ.1 hΔ.1) (fun a ha => ?_) fun a ha => ?_
    · exact ih none a (Expr.mem_parts_cond.mpr ⟨rfl, Or.inr (Or.inl ha)⟩) (fun y hy => hΓ.2.1 y ⟨a, ha, hy⟩)
        fun y hy => hΔ.2.1 y ⟨a, ha, hy⟩
    · exact ih none a (Expr.mem_parts_cond.mpr ⟨rfl, Or.inr (Or.inr ha)⟩) (fun y hy => hΓ.2.2 y ⟨a, ha, hy⟩)
        fun y hy => hΔ.2.2 y ⟨a, ha, hy⟩
  | forIn x source guard body =>
    simp only [Expr.outerVars, Expr.heldVars, List.forall_mem_append] at hΓ hΔ
    refine .forIn (ih none source (by simp [Expr.parts]) hΓ.1 hΔ.1) (ih (some x.id) guard (by simp [Expr.parts]) ?_ ?_)
      (ih (some x.id) body (by simp [Expr.parts]) ?_ ?_)
    · exact fun y hy => under_of_mem hΓ.2 (List.mem_append_left _ hy)
    · exact fun y hy => under_of_mem hΔ.2 (List.mem_append_left _ hy)
    · exact fun y hy => under_of_mem hΓ.2 (List.mem_append_right _ hy)
    · exact fun y hy => under_of_mem hΔ.2 (List.mem_append_right _ hy)
  | letIn x bound guard body =>
    simp only [Expr.outerVars, Expr.heldVars, List.forall_mem_append] at hΓ hΔ
    refine .letIn (ih none bound (by simp [Expr.parts]) hΓ.1 hΔ.1) (ih (some x.id) guard (by simp [Expr.parts]) ?_ hΔ.2.1)
      (ih (some x.id) body (by simp [Expr.parts]) ?_ hΔ.2.2)
    · exact fun y hy => under_of_mem hΓ.2 (List.mem_append_left _ hy)
    · exact fun y hy => under_of_mem hΓ.2 (List.mem_append_right _ hy)
  | lambda x body =>
    exact .lambda (ih (some x.id) body (by simp [Expr.parts]) (fun y hy => under_of_mem hΓ hy)
      fun y hy => under_of_mem hΔ hy)

theorem Scoped.outerVars (h : Scoped Γ Δ e) : ∀ y ∈ e.outerVars, Γ y ∨ Δ y := by
  have hbinder : ∀ {Γ Δ : VarId → Prop} {x : VarId} {ys : List VarId},
      (∀ y ∈ ys, under (some x) Γ y ∨ under (some x) Δ y) → ∀ y ∈ ys.filter (· != x), Γ y ∨ Δ y := by
    intro Γ Δ x ys h y hy
    obtain ⟨hy, hxy⟩ := mem_filter_ne.mp hy
    exact (h y hy).imp (Or.resolve_left · hxy) (Or.resolve_left · hxy)
  induction h with
  | val h => exact fun y hy => Or.inr (h y hy)
  | ref hx => simpa [Expr.outerVars] using Or.inl hx
  | op _ _ ihl ihr =>
    simp only [Expr.outerVars, List.forall_mem_append, Expr.mem_outerVarsOpt]
    exact ⟨ihl, fun y ⟨a, ha, hy⟩ => ihr a ha y hy⟩
  | tuple _ ih =>
    simp only [Expr.outerVars, Expr.mem_outerVarsAll]
    exact fun y ⟨a, ha, hy⟩ => ih a ha y hy
  | cond _ _ _ iht ihy ihn =>
    simp only [Expr.outerVars, List.forall_mem_append, Expr.mem_outerVarsOpt]
    exact ⟨iht, fun y ⟨a, ha, hy⟩ => ihy a ha y hy, fun y ⟨a, ha, hy⟩ => ihn a ha y hy⟩
  | forIn _ _ _ ihs ihg ihbody =>
    rw [Expr.outerVars, List.forall_mem_append]
    exact ⟨ihs, hbinder (List.forall_mem_append.mpr ⟨ihg, ihbody⟩)⟩
  | letIn _ _ _ ihb ihg ihbody =>
    rw [Expr.outerVars, List.forall_mem_append]
    refine ⟨ihb, hbinder fun y hy => ?_⟩
    exact (List.forall_mem_append.mpr ⟨ihg, ihbody⟩ y hy).imp_right Or.inr
  | lambda _ ih => exact hbinder ih

/-! ## Substitution -/

section
variable {x : VarId} {b : Expr}

theorem Scoped.substitute (h : Scoped Γ' Δ e) : ∀ {Γ : VarId → Prop}, (∀ y, Γ' y → x = y ∨ Γ y) → Scoped Γ Δ b →
    Scoped Γ Δ (substitute x b e) := by
  have hbelow : ∀ {Γ Γ' : VarId → Prop} {z : VarId}, (∀ y, Γ' y → x = y ∨ Γ y) →
      ∀ y, under (some z) Γ' y → x = y ∨ under (some z) Γ y := fun h y hy =>
    hy.elim (fun hzy => Or.inr (Or.inl hzy)) fun hy => (h y hy).imp_right Or.inr
  have hlift : ∀ {Γ Δ : VarId → Prop} {z : VarId}, Scoped Γ Δ b → Scoped (under (some z) Γ) (under (some z) Δ) b := fun h =>
    h.mono (fun _ => Or.inr) fun _ => Or.inr
  induction h with
  | val h => exact fun _ _ => .val h
  | @ref Γ' Δ z hz =>
    intro Γ hΓ hb
    rw [Expr.substitute]
    by_cases hzx : z = x
    · rw [if_pos hzx]
      exact hb
    · rw [if_neg hzx]
      exact .ref ((hΓ z hz).resolve_left (Ne.symm hzx))
  | op _ _ ihl ihr => exact fun hΓ hb => .op (ihl hΓ hb) (forall_mem_substituteOpt fun a ha => ihr a ha hΓ hb)
  | tuple _ ih =>
    intro Γ hΓ hb
    refine .tuple fun t ht => ?_
    rw [substituteAll_eq] at ht
    obtain ⟨a, ha, hat⟩ := List.mem_map.mp ht
    obtain ⟨a, rfl, rfl⟩ := Option.map_eq_some_iff.mp hat
    exact ih a ha hΓ hb
  | cond _ _ _ iht ihy ihn =>
    exact fun hΓ hb => .cond (iht hΓ hb) (forall_mem_substituteOpt fun a ha => ihy a ha hΓ hb)
      (forall_mem_substituteOpt fun a ha => ihn a ha hΓ hb)
  | forIn _ _ _ ihs ihg ihbody =>
    exact fun hΓ hb => .forIn (ihs hΓ hb) (ihg (hbelow hΓ) (hlift hb)) (ihbody (hbelow hΓ) (hlift hb))
  | @letIn Γ' Δ z _ _ _ _ _ _ ihb ihg ihbody =>
    intro Γ hΓ hb
    have hb' : Scoped (under (some z.id) Γ) Δ b := hb.mono (fun _ => Or.inr) fun _ => id
    exact .letIn (ihb hΓ hb) (ihg (hbelow hΓ) hb') (ihbody (hbelow hΓ) hb')
  | lambda _ ih => exact fun hΓ hb => .lambda (ih (hbelow hΓ) (hlift hb))

theorem Scoped.of_not_mentions (h : Scoped (under (some x) Γ) Δ e) (hx : e.mentions x = false) : Scoped Γ Δ e := by
  rw [← substitute_of_not_mentions (b := .int 0) e hx]
  exact h.substitute (fun _ => id) (.val fun _ hy => by cases hy)

end

/-! ## Rules -/

theorem ruleClosed_scoped : RuleClosed (Scoped Γ Δ) where
  val {v} h := .val fun _ hy => by cases v <;> first | cases hy | cases h
  unary _ he := .op he fun _ h => by cases h
  binary _ _ hl hr := .op hl fun _ h => by cases h; exact hr
  left _ h := by
    cases h with
    | op hl _ => exact hl
  right _ h := by
    cases h with
    | op _ hr => exact hr _ rfl

theorem scoped_simplifyOp {l r : Option Expr} (hl : ∀ a ∈ l, Scoped Γ Δ a) (hr : ∀ a ∈ r, Scoped Γ Δ a) :
    ∀ t ∈ simplifyOp o l r span, Scoped Γ Δ t :=
  ruleClosed_scoped.simplifyOp_of_binary (fun hl hr => .op hl fun _ ha => by cases ha; exact hr) hl hr

theorem scoped_simplifyLoop {x : Var} {source guard body : Option Expr} (hs : ∀ a ∈ source, Scoped Γ Δ a)
    (hg : ∀ a ∈ guard, Scoped (under (some x.id) Γ) (under (some x.id) Δ) a)
    (hbody : ∀ a ∈ body, Scoped (under (some x.id) Γ) (under (some x.id) Δ) a) :
    ∀ t ∈ simplifyLoop x source guard body, Scoped Γ Δ t := by
  intro t ht
  obtain ht | ⟨s, hsource, g, hguard, b, hb, rfl⟩ := mem_simplifyLoop ht
  · exact hs t ht
  · exact .forIn (hs s hsource) (hg g hguard) (hbody b hb)

theorem scoped_simplifyCond {test yes no : Option Expr} (ht : ∀ a ∈ test, Scoped Γ Δ a) (hy : ∀ a ∈ yes, Scoped Γ Δ a)
    (hn : ∀ a ∈ no, Scoped Γ Δ a) : ∀ t ∈ simplifyCond test yes no, Scoped Γ Δ t := by
  intro t h
  obtain h | h | ⟨e, he, rfl⟩ := mem_simplifyCond h
  · exact hy t h
  · exact hn t h
  · exact .cond (ht e he) hy hn

theorem scoped_simplifyTuple {fields : List (Option Expr)} (h : ∀ a, some a ∈ fields → Scoped Γ Δ a) :
    ∀ t ∈ simplifyTuple fields, Scoped Γ Δ t := by
  intro t ht
  obtain ht | ⟨vs, hvs, rfl⟩ | ⟨es, hes, rfl⟩ := mem_simplifyTuple ht
  · exact h t ht
  · refine .val fun y hy => ?_
    obtain ⟨v, hv, hy⟩ := Value.mem_outerVarsAll.mp hy
    cases h _ (hvs v hv) with
    | val h => exact h y hy
  · refine .tuple fun a ha => ?_
    obtain ⟨b, hb, heq⟩ := List.mem_map.mp ha
    cases heq
    exact h a (hes a hb)

/-! ## Bindings -/

/-- The passes keep references of expressions with fewer than `n` bindings in scope. -/
structure Pass.Scopes (n : Nat) (p : Pass) : Prop where
  simplify : ∀ {Γ Δ : VarId → Prop} {e : Expr}, letCount e < n → Scoped Γ Δ e → ∀ t ∈ p.simplify e, Scoped Γ Δ t
  eliminate : ∀ {Γ Δ : VarId → Prop} {x : VarId} {e : Expr}, letCount e < n → Scoped (under (some x) Γ) Δ e →
    ∀ t ∈ p.eliminate x e, Scoped Γ Δ t

theorem scoped_simplifyLet {p : Pass} {n : Nat} (hp : p.Scopes n) {x : Var} {bound guard body : Option Expr}
    (hb : ∀ a ∈ bound, Scoped Γ Δ a) (hg : ∀ a ∈ guard, Scoped (under (some x.id) Γ) Δ a)
    (hbody : ∀ a ∈ body, Scoped (under (some x.id) Γ) Δ a) (hn : letCountOpt body < n) :
    ∀ t ∈ simplifyLet p x bound guard body, Scoped Γ Δ t := by
  intro t ht
  obtain ⟨b, rfl, ⟨hmentions, rfl⟩ | ht | ⟨a, ha, hatom, ht⟩ | ht | ⟨a, ha, g, hguard, rfl⟩⟩ := mem_simplifyLet ht
  · exact (hbody t rfl).of_not_mentions hmentions
  · exact hp.eliminate hn (hbody b rfl) t ht
  · refine hp.simplify ?_ ((hbody b rfl).substitute (fun _ => id) (hb a ha)) t ht
    rwa [letCount_substitute (letCount_of_isAtom hatom)]
  · exact hb t ht
  · exact .letIn (hb a ha) (hg g hguard) (hbody b rfl)

/-! ## Passes -/

theorem Traversal.scoped {p : Pass} {f : Expr → Option Expr} {n : Nat} (hf : Traversal p f) (hadds : p.AddsNone)
    (hp : p.Scopes n) {X : VarId → Prop} (hgone : ∀ x, X x → f (.ref x) = none) (he : Scoped Γ' Δ e) :
    letCount e < n + 1 → ∀ {Γ : VarId → Prop}, (∀ y, Γ' y → X y ∨ Γ y) → ∀ t ∈ f e, Scoped Γ Δ t := by
  have hpart : ∀ {e a : Expr} {x : Option VarId}, letCount e < n + 1 → (x, a) ∈ e.parts → letCount a < n + 1 :=
    fun he ha => Nat.lt_of_le_of_lt (letCount_le_of_mem_parts ha) he
  have hbelow : ∀ {Γ Γ' : VarId → Prop} {z : VarId}, (∀ y, Γ' y → X y ∨ Γ y) →
      ∀ y, under (some z) Γ' y → X y ∨ under (some z) Γ y := fun h y hy =>
    hy.elim (fun hzy => Or.inr (Or.inl hzy)) fun hy => (h y hy).imp_right Or.inr
  have hbind : ∀ {Γ Δ : VarId → Prop} {a : Option Expr}, (∀ b ∈ a, ∀ t ∈ f b, Scoped Γ Δ t) →
      ∀ t ∈ a.bind f, Scoped Γ Δ t := by
    intro Γ Δ a h t ht
    obtain ⟨b, rfl, ht⟩ := Option.bind_eq_some_iff.mp ht
    exact h b rfl t ht
  induction he with
  | val h =>
    intro _ Γ _ t ht
    rw [hf.val] at ht
    cases ht
    exact .val h
  | @ref Γ' Δ x hx =>
    intro _ Γ hΓ t ht
    cases hf.ref x t ht
    refine .ref ((hΓ x hx).resolve_left fun hX => ?_)
    rw [hgone x hX] at ht
    cases ht
  | op _ _ ihl ihr =>
    intro hn Γ hΓ
    rw [hf.op]
    refine scoped_simplifyOp (ihl (hpart hn Expr.left_mem_parts) hΓ) (hbind fun a ha => ?_)
    exact ihr a ha (hpart hn (Expr.mem_parts_op.mpr ⟨rfl, Or.inr ha⟩)) hΓ
  | @tuple Γ' Δ fields _ ih =>
    intro hn Γ hΓ
    rw [hf.tuple]
    refine scoped_simplifyTuple fun t ht => ?_
    obtain ⟨field, hfield, ht⟩ := List.mem_map.mp ht
    obtain ⟨a, rfl, ht⟩ := Option.bind_eq_some_iff.mp ht
    exact ih a hfield (hpart hn (Expr.mem_parts_tuple.mpr ⟨rfl, hfield⟩)) hΓ t ht
  | cond _ _ _ iht ihy ihn =>
    intro hn Γ hΓ
    rw [hf.cond]
    refine scoped_simplifyCond (iht (hpart hn (Expr.mem_parts_cond.mpr ⟨rfl, Or.inl rfl⟩)) hΓ) (hbind fun a ha => ?_)
      (hbind fun a ha => ?_)
    · exact ihy a ha (hpart hn (Expr.mem_parts_cond.mpr ⟨rfl, Or.inr (Or.inl ha)⟩)) hΓ
    · exact ihn a ha (hpart hn (Expr.mem_parts_cond.mpr ⟨rfl, Or.inr (Or.inr ha)⟩)) hΓ
  | @forIn Γ' Δ x source guard body _ _ _ ihs ihg ihbody =>
    intro hn Γ hΓ
    rw [hf.forIn]
    rw [letCount] at hn
    exact scoped_simplifyLoop (ihs (by omega) hΓ) (ihg (by omega) (hbelow hΓ)) (ihbody (by omega) (hbelow hΓ))
  | @letIn Γ' Δ x bound guard body _ _ _ ihb ihg ihbody =>
    intro hn Γ hΓ
    rw [hf.letIn]
    rw [letCount] at hn
    have hcount := hf.letCountOpt_le hadds body
    exact scoped_simplifyLet hp (ihb (by omega) hΓ) (ihg (by omega) (hbelow hΓ)) (ihbody (by omega) (hbelow hΓ)) (by omega)
  | lambda _ ih =>
    intro hn Γ hΓ t ht
    rw [hf.lambda] at ht
    obtain ⟨a, ha, rfl⟩ := Option.map_eq_some_iff.mp ht
    exact .lambda (ih (hpart hn (Expr.mem_parts_lambda.mpr ⟨rfl, rfl⟩)) (hbelow hΓ) a ha)

theorem scopes_pass : ∀ n, (pass n).Scopes n
  | 0 => ⟨fun h => absurd h (Nat.not_lt_zero _), fun h => absurd h (Nat.not_lt_zero _)⟩
  | n + 1 => by
    constructor
    · intro Γ Δ e hn he
      exact (traversal_simplifyWith _).scoped (X := fun _ => False) (addsNone_pass n) (scopes_pass n)
        (fun _ h => h.elim) he hn fun _ => Or.inr
    · intro Γ Δ x e hn he
      refine (traversal_eliminateWith _ x).scoped (X := fun y => x = y) (addsNone_pass n) (scopes_pass n) (fun y hxy => ?_)
        he hn fun _ => id
      rw [eliminateWith, if_pos hxy.symm]

theorem scoped_simplify (he : Scoped Γ Δ e) : ∀ t ∈ simplify e, Scoped Γ Δ t :=
  (scopes_pass _).simplify (Nat.lt_succ_self _) he

theorem scoped_eliminate {x : VarId} (he : Scoped (under (some x) Γ) Δ e) : ∀ t ∈ eliminate x e, Scoped Γ Δ t :=
  (scopes_pass _).eliminate (Nat.lt_succ_self _) he

/-- An expression in which every reference is in scope, those of closures among the literals without the help of
a binding, simplifies to one in which every reference is in scope. -/
theorem outerVars_of_simplify {e e' : Expr} (hscoped : e.outerVars = []) (hheld : e.heldVars = [])
    (h : simplify e = some e') : e'.outerVars = [] := by
  have he : Scoped (fun _ => False) (fun _ => False) e :=
    scoped_of_outerVars e (fun y hy => by simp [hscoped] at hy) fun y hy => by simp [hheld] at hy
  have he' := (scoped_simplify he e' h).outerVars
  exact List.eq_nil_iff_forall_not_mem.mpr fun y hy => (he' y hy).elim id id

/-- The expression `let y = 1 in for x in (y, 2) do f(y)`, where `f` is a closure that returns `x`. -/
def heldByLoop : Expr :=
  .letAlways ⟨0, "y"⟩ (.int 1) (.forIn ⟨1, "x"⟩ (.tupleOf [.ref 0, .int 2]) (.int 1)
    (.call (.val (.lambda 0 ⟨2, "z"⟩ (.ref 1))) (.ref 0)))

theorem outerVars_of_simplify_heldByLoop : heldByLoop.outerVars = [] ∧ heldByLoop.heldVars = [] ∧
    ∃ e', simplify heldByLoop = some e' ∧ e'.outerVars = [] :=
  ⟨rfl, rfl, _, rfl, outerVars_of_simplify (e := heldByLoop) rfl rfl rfl⟩

/-- The expression `let x = 5 in f(1)`, where `f` is a closure that returns `x`. -/
def heldByBinding : Expr :=
  .letAlways ⟨0, "x"⟩ (.int 5) (.call (.val (.lambda 0 ⟨1, "z"⟩ (.ref 0))) (.int 1))

/-- The binding goes, and `f` finds no `x`. -/
theorem simplify_loses_binding : heldByBinding.outerVars = [] ∧
    (evaluate heldByBinding ⟨⟨[], []⟩, .standard, .standard⟩ (Session.new false)).1 = .ok (some (.int 5)) ∧
    ∃ e', simplify heldByBinding = some e' ∧ e'.outerVars = [0] ∧
      (evaluate e' ⟨⟨[], []⟩, .standard, .standard⟩ (Session.new false)).1 = .ok none :=
  ⟨rfl, rfl, _, rfl, rfl, rfl⟩

end Prepare

end Provenance
