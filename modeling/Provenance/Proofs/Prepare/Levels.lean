import Provenance.Proofs.Prepare.LetCount

/-!
# Passes with levels enough

More levels than an expression has bindings change nothing (`pass_eq`). So
eliminating goes through an expression node by node, and what it does with a node
is told without the levels (`traversal_eliminate`).
-/

namespace Provenance.Prepare

open Provenance.Expr (substitute)

variable {p p' : Pass} {f g : Expr → Option Expr} {n : Nat}

/-- The passes do the same to expressions with fewer than `n` bindings. -/
structure Pass.Agree (n : Nat) (p p' : Pass) : Prop where
  simplify : ∀ {e : Expr}, letCount e < n → p.simplify e = p'.simplify e
  eliminate : ∀ {x : VarId} {e : Expr}, letCount e < n → p.eliminate x e = p'.eliminate x e

theorem simplifyLet_congr (h : p.Agree n p') {x : Var} {bound guard body : Option Expr} (hn : letCountOpt body < n) :
    simplifyLet p x bound guard body = simplifyLet p' x bound guard body := by
  unfold simplifyLet
  split
  · rw [letCountOpt_some] at hn
    split
    · rfl
    · split
      · rfl
      · split
        · exact h.eliminate hn
        · split
          · exact h.simplify (by rwa [letCount_substitute (letCount_of_isAtom ‹_›)])
          · rfl
  · rfl

theorem bind_congr_of_mem {e : Option Expr} (h : ∀ a ∈ e, f a = g a) : e.bind f = e.bind g := by
  cases e with
  | none => rfl
  | some a => exact h a rfl

theorem map_bind_congr_of_mem {es : List (Option Expr)} (h : ∀ a, some a ∈ es → f a = g a) :
    es.map (·.bind f) = es.map (·.bind g) := by
  refine List.map_congr_left fun e he => bind_congr_of_mem fun a ha => h a ?_
  rwa [Option.mem_def.mp ha] at he

/-- Two traversals do the same to an expression if they do the same to the variables in it. -/
theorem Traversal.congr (hf : Traversal p f) (hg : Traversal p' g) (hadds : p.AddsNone) (h : p.Agree n p') :
    ∀ e, letCount e < n + 1 → (∀ x, e.mentions x = true → f (.ref x) = g (.ref x)) → f e = g e := by
  refine Expr.parts_induction fun e ih hn hvars => ?_
  have hpart : ∀ {x a}, (x, a) ∈ e.parts → f a = g a := fun ha =>
    ih _ _ ha (Nat.lt_of_le_of_lt (letCount_le_of_mem_parts ha) hn) fun y hy =>
      hvars y (Expr.mentions_of_mem_parts ha hy)
  cases e with
  | val v => rw [hf.val, hg.val]
  | ref x => exact hvars x (by simp [Expr.mentions, Expr.nodes, Expr.isVar])
  | op o l r span =>
    rw [hf.op, hg.op, hpart Expr.left_mem_parts,
      bind_congr_of_mem fun a ha => hpart (Expr.mem_parts_op.mpr ⟨rfl, Or.inr ha⟩)]
  | tuple fields =>
    rw [hf.tuple, hg.tuple, map_bind_congr_of_mem fun a ha => hpart (Expr.mem_parts_tuple.mpr ⟨rfl, ha⟩)]
  | cond test yes no =>
    rw [hf.cond, hg.cond, hpart (Expr.mem_parts_cond.mpr ⟨rfl, Or.inl rfl⟩),
      bind_congr_of_mem fun a ha => hpart (Expr.mem_parts_cond.mpr ⟨rfl, Or.inr (Or.inl ha)⟩),
      bind_congr_of_mem fun a ha => hpart (Expr.mem_parts_cond.mpr ⟨rfl, Or.inr (Or.inr ha)⟩)]
  | forIn x source guard body =>
    rw [hf.forIn, hg.forIn, hpart (x := none) (a := source) (by simp [Expr.parts]),
      hpart (x := some x.id) (a := guard) (by simp [Expr.parts]),
      hpart (x := some x.id) (a := body) (by simp [Expr.parts])]
  | letIn x bound guard body =>
    have hbody := hpart (x := some x.id) (a := body) (by simp [Expr.parts])
    rw [letCount] at hn
    have hcount := hf.letCountOpt_le hadds body
    rw [hf.letIn, hg.letIn, simplifyLet_congr h (by omega), hpart (x := none) (a := bound) (by simp [Expr.parts]),
      hpart (x := some x.id) (a := guard) (by simp [Expr.parts]), hbody]
  | lambda x body => rw [hf.lambda, hg.lambda, hpart (Expr.mem_parts_lambda.mpr ⟨rfl, rfl⟩)]

theorem agree_pass : ∀ n, (pass n).Agree n (pass (n + 1))
  | 0 => ⟨fun h => absurd h (Nat.not_lt_zero _), fun h => absurd h (Nat.not_lt_zero _)⟩
  | n + 1 => by
    refine ⟨fun {e} hn => ?_, fun {x e} hn => ?_⟩
    · exact (traversal_simplifyWith _).congr (traversal_simplifyWith _) (addsNone_pass n) (agree_pass n) e hn
        fun _ _ => rfl
    · exact (traversal_eliminateWith _ x).congr (traversal_eliminateWith _ x) (addsNone_pass n) (agree_pass n) e hn
        fun _ _ => rfl

theorem pass_eq {e : Expr} (h : letCount e < n) :
    (pass n).simplify e = simplify e ∧ ∀ x, (pass n).eliminate x e = eliminate x e := by
  induction h with
  | refl => exact ⟨rfl, fun _ => rfl⟩
  | step hn ih =>
    rw [← (agree_pass _).simplify hn]
    exact ⟨ih.1, fun x => by rw [← (agree_pass _).eliminate hn, ih.2]⟩

/-- What simplifying does with a binding, whatever the number of bindings. -/
def levelless : Pass :=
  ⟨simplify, eliminate⟩

theorem agree_levelless (n : Nat) : (pass n).Agree n levelless :=
  ⟨fun h => (pass_eq h).1, fun h => (pass_eq h).2 _⟩

theorem Traversal.of_levels {f : Nat → Expr → Option Expr} (hf : ∀ n, Traversal (pass n) (f n))
    (hfg : ∀ {n e}, letCount e ≤ n → f n e = g e) : Traversal levelless g where
  val v := by rw [← hfg (Nat.le_refl _), (hf _).val]
  ref x e h := by
    rw [← hfg (Nat.le_refl _)] at h
    exact (hf _).ref x e h
  op o l r span := by
    rw [← hfg (Nat.le_refl _), (hf _).op, hfg (letCount_le_of_mem_parts Expr.left_mem_parts),
      bind_congr_of_mem fun a ha => hfg (letCount_le_of_mem_parts (Expr.mem_parts_op.mpr ⟨rfl, Or.inr ha⟩))]
  tuple fields := by
    rw [← hfg (Nat.le_refl _), (hf _).tuple,
      map_bind_congr_of_mem fun a ha => hfg (letCount_le_of_mem_parts (Expr.mem_parts_tuple.mpr ⟨rfl, ha⟩))]
  cond test yes no := by
    rw [← hfg (Nat.le_refl _), (hf _).cond,
      hfg (letCount_le_of_mem_parts (Expr.mem_parts_cond.mpr ⟨rfl, Or.inl rfl⟩)),
      bind_congr_of_mem fun a ha => hfg (letCount_le_of_mem_parts (Expr.mem_parts_cond.mpr ⟨rfl, Or.inr (Or.inl ha)⟩)),
      bind_congr_of_mem fun a ha => hfg (letCount_le_of_mem_parts (Expr.mem_parts_cond.mpr ⟨rfl, Or.inr (Or.inr ha)⟩))]
  forIn x source guard body := by
    have hcount : letCount (.forIn x source guard body) = letCount source + (letCount guard + letCount body) := by
      rw [letCount]
    rw [← hfg (Nat.le_refl _), (hf _).forIn, hfg (by omega), hfg (by omega), hfg (by omega)]
  letIn x bound guard body := by
    have hcount : letCount (.letIn x bound guard body) = letCount bound + (letCount guard + letCount body) + 1 := by
      rw [letCount]
    rw [← hfg (Nat.le_refl _), (hf _).letIn, hfg (by omega), hfg (by omega)]
    have hbody : letCountOpt (f (letCount (.letIn x bound guard body)) body) < letCount (.letIn x bound guard body) :=
      Nat.lt_of_le_of_lt ((hf _).letCountOpt_le (addsNone_pass _) body) (by omega)
    rw [simplifyLet_congr (agree_levelless _) hbody, hfg (by omega)]
  lambda x body := by
    rw [← hfg (Nat.le_refl _), (hf _).lambda, hfg (letCount_le_of_mem_parts (Expr.mem_parts_lambda.mpr ⟨rfl, rfl⟩))]

theorem traversal_eliminate (x : VarId) : Traversal levelless (eliminate x) :=
  .of_levels (fun _ => traversal_eliminateWith _ x) fun h => (pass_eq (Nat.lt_succ_of_le h)).2 x

@[simp] theorem eliminate_ref (x : VarId) : eliminate x (.ref x) = none := by
  rw [eliminate]
  exact if_pos rfl

end Provenance.Prepare
