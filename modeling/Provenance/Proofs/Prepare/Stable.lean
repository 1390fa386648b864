import Provenance.Proofs.Prepare.ScanRules
import Provenance.Proofs.Prepare.ScanSound
import Provenance.Proofs.Prepare.Settled
import Provenance.Query

/-!
# Preparing twice

What takes the place of a scan is made of lookups (`Lookups`), in which there is
no scan and nothing for the rules to do. So a settled expression stays settled
when its scans are replaced (`settled_indexScans`), no scan is left to replace
after that (`indexScans_indexScans`), and preparing a prepared query changes
nothing (`Query.prepare_prepare`).
-/

namespace Provenance

namespace Guard

open Provenance.Expr (isLoop)

/-! ## What takes the place of a scan -/

/-- Lookups of words, of the given targets or of none, under the operators that join them. -/
inductive Lookups (T : Expr → Prop) : Expr → Prop
  | object (p : ObjectId) : Lookups T (.val (.listOf [.object p]))
  | word (s : String) : Lookups T (lookupIn .argv (.val (.str s)))
  | target (kind : IndexKind) {t : Expr} (h : T t) : Lookups T (lookupIn kind t)
  | join {o : Operator} (ho : o = .concat ∨ o = .intersect) {l r : Expr} (hl : Lookups T l) (hr : Lookups T r) :
    Lookups T (.binary o l r)

section
variable {T : Expr → Prop}

theorem lookups_source {o : Operator} {name : String} {target : Expr} {a : Access}
    (h : access? o name target = some a) (ht : T target) : Lookups T a.source := by
  rcases access?_eq_some h with ⟨rfl, ⟨-, t, r, rfl, -, rfl⟩ | ⟨-, ⟨m, rfl⟩, rfl⟩ | ⟨-, ⟨s, rfl⟩, rfl⟩⟩ |
    ⟨rfl, -, hwords, rfl⟩
  · exact .object _
  · exact .target .inode ht
  · exact .target .argv ht
  · show Lookups T ((joined .intersect ((words target).map (lookupIn .argv))).getD (lookupIn .argv target))
    cases hjoin : joined .intersect ((words target).map (lookupIn .argv)) with
    | none => exact .target .argv ht
    | some src =>
      refine joined_closed (Lookups.join (Or.inr rfl)) (fun e he => ?_) hjoin
      obtain ⟨w, hw, rfl⟩ := List.mem_map.mp he
      rcases words_of_isWordList hwords with ⟨s, rfl⟩ | ⟨ss, hss, -⟩
      · cases hw
      · rw [hss] at hw
        obtain ⟨s, -, rfl⟩ := List.mem_map.mp hw
        exact .word s

theorem lookups_source? {x : VarId} {guard src : Expr} (h : source? x guard = some src)
    (hT : ∀ e ∈ (Formula.build #[] guard).2, ∀ o name target a, (none, target) ∈ e.parts →
      access? o name target = some a → T target) : Lookups T src := by
  obtain ⟨g, -, cl, -, branches, hbr, hsrc⟩ := source?_eq_some h
  refine joined_closed (Lookups.join (Or.inl rfl)) (fun e he => ?_) hsrc
  obtain ⟨a, ha, rfl⟩ := List.mem_map.mp he
  have hmem : some a ∈ branches.map some := List.mem_map_of_mem ha
  rw [← hbr] at hmem
  obtain ⟨l, -, hl⟩ := List.mem_map.mp hmem
  obtain ⟨leaf, hleaf, hl⟩ := Option.bind_eq_some_iff.mp hl
  obtain ⟨o, name, target, hreads, hacc⟩ := literalAccess?_eq_some hl
  exact lookups_source hacc (hT leaf (Array.mem_of_getElem? hleaf) o name target a hreads.mem_parts hacc)

end

end Guard

namespace Prepare

open Provenance.Expr (isLoop)
open Guard (Lookups)

variable {e : Expr} {T : Expr → Prop}

theorem isLoop_of_lookups (hT : ∀ t, T t → ∀ a ∈ t.nodes, isLoop a = false) (h : Lookups T e) :
    ∀ a ∈ e.nodes, isLoop a = false := by
  induction h with
  | object p => simp [Value.listOf, Expr.nodes, Expr.closureNodes, isLoop]
  | word s =>
    simp [Guard.lookupIn, Expr.binary, Expr.index, Expr.nodes, Expr.nodesOpt, Expr.closureNodes, isLoop]
  | target kind ht =>
    simp only [Guard.lookupIn, Expr.binary, Expr.index, Expr.nodes, Expr.nodesOpt, Expr.closureNodes, List.forall_mem_cons,
      List.cons_append, List.nil_append]
    exact ⟨rfl, rfl, hT _ ht⟩
  | join ho _ _ ihl ihr =>
    simp only [Expr.binary, Expr.nodes, Expr.nodesOpt, List.forall_mem_cons, List.forall_mem_append]
    exact ⟨rfl, ihl, ihr⟩

theorem settled_of_lookups (hT : ∀ t, T t → Settled t) (h : Lookups T e) : Settled e := by
  induction h with
  | object p => exact settled_val _
  | word s => exact settled_of_binary (settled_val _) (settled_val _) rfl (Or.inl rfl)
  | target kind ht => exact settled_of_binary (settled_val _) (hT _ ht) rfl (Or.inl rfl)
  | join ho hl hr ihl ihr =>
    refine settled_of_binary ihl ihr ?_ (Or.inl rfl)
    rcases ho with rfl | rfl
    · -- No side is a text, so there is nothing to join.
      cases hl <;> cases hr <;> rfl
    · rfl

theorem isLoop_of_access? {o : Operator} {name : String} {target : Expr} {a : Guard.Access}
    (h : Guard.access? o name target = some a) : ∀ b ∈ target.nodes, isLoop b = false := by
  have hval : ∀ v, Expr.closureNodes v = [] → ∀ b ∈ (Expr.val v).nodes, isLoop b = false := by
    intro v hv
    simp [Expr.nodes, hv, isLoop]
  rcases Guard.access?_eq_some h with ⟨-, ⟨-, t, r, rfl, hr, -⟩ | ⟨-, ⟨m, rfl⟩, -⟩ | ⟨-, ⟨s, rfl⟩, -⟩⟩ | ⟨-, -, hwords, -⟩
  · refine hval t ?_
    cases t with
    | lambda id x body => cases hr
    | _ => rfl
  · exact hval _ rfl
  · exact hval _ rfl
  · rcases Guard.words_of_isWordList hwords with ⟨s, rfl⟩ | ⟨ss, -, rfl | rfl⟩
    · exact hval _ rfl
    · exact hval _ rfl
    · intro b hb
      rcases List.mem_cons.mp hb with rfl | hb
      · rfl
      · obtain ⟨a, ha, hb⟩ := Expr.mem_nodesAll hb
        obtain ⟨s, -, hs⟩ := List.mem_map.mp ha
        cases hs
        exact hval _ rfl b hb

/-! ## Idempotence -/

theorem map_map_eq {f : Expr → Expr} {e : Option Expr} (h : ∀ a, e = some a → f (f a) = f a) :
    (e.map f).map f = e.map f := by
  cases e with
  | none => rfl
  | some a => exact congrArg some (h a rfl)

theorem scanSource_eq_self {x : VarId} {source guard : Expr} (h : source ≠ .val .all) :
    scanSource x source guard = source := by
  unfold scanSource
  split
  · exact absurd rfl h
  · rfl

/-- A source is chosen once: what takes the place of a scan is no scan, and has none in it. -/
theorem scanSource_scanSource {x : VarId} {source guard : Expr} (hs : indexScans source = source) :
    scanSource x (indexScans (scanSource x source guard)) guard = scanSource x source guard := by
  by_cases hall : source = .val .all
  · subst hall
    rcases scanSource_eq x guard with h | h
    · rw [h, indexScans_val, h]
    · have hl := Guard.lookups_source? (T := fun t => ∀ b ∈ t.nodes, isLoop b = false) h
        fun e _ o name target a _ ha => isLoop_of_access? ha
      rw [indexScans_eq_self (isLoop_of_lookups (fun _ ht => ht) hl)]
      generalize scanSource x (.val .all) guard = src at hl
      cases hl <;> rfl
  · rw [scanSource_eq_self hall, hs, scanSource_eq_self hall]

theorem indexScans_indexScans : ∀ e, indexScans (indexScans e) = indexScans e := by
  refine Expr.parts_induction fun e ih => ?_
  cases e with
  | val v => simp
  | ref x => simp
  | op o l r span =>
    simp only [indexScans_op]
    rw [ih none l Expr.left_mem_parts, map_map_eq fun a ha => ih none a (Expr.mem_parts_op.mpr ⟨rfl, Or.inr ha⟩)]
  | tuple fields =>
    simp only [indexScans_tuple, List.map_map]
    refine congrArg Expr.tuple (List.map_congr_left fun f hf => map_map_eq fun a ha => ?_)
    exact ih none a (Expr.mem_parts_tuple.mpr ⟨rfl, ha ▸ hf⟩)
  | cond test yes no =>
    simp only [indexScans_cond]
    rw [ih none test (Expr.mem_parts_cond.mpr ⟨rfl, Or.inl rfl⟩),
      map_map_eq fun a ha => ih none a (Expr.mem_parts_cond.mpr ⟨rfl, Or.inr (Or.inl ha)⟩),
      map_map_eq fun a ha => ih none a (Expr.mem_parts_cond.mpr ⟨rfl, Or.inr (Or.inr ha)⟩)]
  | forIn x source guard body =>
    simp only [indexScans]
    rw [ih (some x.id) guard (by simp [Expr.parts]), ih (some x.id) body (by simp [Expr.parts]),
      scanSource_scanSource (ih none source (by simp [Expr.parts]))]
  | letIn x bound guard body =>
    simp only [indexScans]
    rw [ih none bound (by simp [Expr.parts]), ih (some x.id) guard (by simp [Expr.parts]),
      ih (some x.id) body (by simp [Expr.parts])]
  | lambda x body =>
    simp only [indexScans]
    rw [ih (some x.id) body (by simp [Expr.parts])]

/-! ## Settled expressions -/

theorem settled_scanSource {x : VarId} {source guard : Expr} (hs : Settled source) (hg : Settled guard) :
    Settled (scanSource x source guard) := by
  by_cases hall : source = .val .all
  · subst hall
    rcases scanSource_eq x guard with h | h
    · rw [h]
      exact hs
    · refine settled_of_lookups (fun _ ht => ht) (Guard.lookups_source? h fun e he _ _ target _ htarget _ => ?_)
      have he := Guard.Formula.forall_mem_build (P := Settled) (fun _ he x a ha => he.part ha) #[] guard
        (fun a ha => absurd ha (Array.not_mem_empty a)) hg e he
      exact he.part htarget
  · rwa [scanSource_eq_self hall]

theorem mem_parts_indexScans {e a : Expr} {x : Option VarId} (h : (x, a) ∈ e.parts) :
    (x, indexScans a) ∈ (indexScans e).parts ∨ indexScans a = .val .all := by
  cases e with
  | val v => cases h
  | ref y => cases h
  | op o l r span =>
    rw [indexScans_op]
    obtain ⟨rfl, rfl | rfl⟩ := Expr.mem_parts_op.mp h
    · exact Or.inl Expr.left_mem_parts
    · exact Or.inl Expr.right_mem_parts
  | tuple fields =>
    rw [indexScans_tuple]
    obtain ⟨rfl, ha⟩ := Expr.mem_parts_tuple.mp h
    exact Or.inl (Expr.mem_parts_tuple.mpr ⟨rfl, List.mem_map_of_mem (f := Option.map indexScans) ha⟩)
  | cond test yes no =>
    rw [indexScans_cond]
    obtain ⟨rfl, rfl | rfl | rfl⟩ := Expr.mem_parts_cond.mp h
    · exact Or.inl (Expr.mem_parts_cond.mpr ⟨rfl, Or.inl rfl⟩)
    · exact Or.inl (Expr.mem_parts_cond.mpr ⟨rfl, Or.inr (Or.inl rfl)⟩)
    · exact Or.inl (Expr.mem_parts_cond.mpr ⟨rfl, Or.inr (Or.inr rfl)⟩)
  | forIn y source guard body =>
    rw [indexScans]
    obtain ⟨rfl, rfl⟩ | ⟨rfl, rfl⟩ | ⟨rfl, rfl⟩ := Expr.mem_parts_forIn.mp h
    · by_cases hall : indexScans a = .val .all
      · exact Or.inr hall
      · rw [scanSource_eq_self hall]
        exact Or.inl (Expr.mem_parts_forIn.mpr (Or.inl ⟨rfl, rfl⟩))
    · exact Or.inl (Expr.mem_parts_forIn.mpr (Or.inr (Or.inl ⟨rfl, rfl⟩)))
    · exact Or.inl (Expr.mem_parts_forIn.mpr (Or.inr (Or.inr ⟨rfl, rfl⟩)))
  | letIn y bound guard body =>
    rw [indexScans]
    obtain ⟨rfl, rfl⟩ | ⟨rfl, rfl⟩ | ⟨rfl, rfl⟩ := Expr.mem_parts_letIn.mp h
    · exact Or.inl (Expr.mem_parts_letIn.mpr (Or.inl ⟨rfl, rfl⟩))
    · exact Or.inl (Expr.mem_parts_letIn.mpr (Or.inr (Or.inl ⟨rfl, rfl⟩)))
    · exact Or.inl (Expr.mem_parts_letIn.mpr (Or.inr (Or.inr ⟨rfl, rfl⟩)))
  | lambda y body =>
    rw [indexScans]
    obtain ⟨rfl, rfl⟩ := Expr.mem_parts_lambda.mp h
    exact Or.inl (Expr.mem_parts_lambda.mpr ⟨rfl, rfl⟩)

/-- No reference is lost, for a scan has none in its source. -/
theorem mentions_indexScans {y : VarId} : ∀ e, e.mentions y = true → (indexScans e).mentions y = true := by
  refine Expr.parts_induction fun e ih h => ?_
  obtain ⟨node, hnode, hvar⟩ := List.any_eq_true.mp h
  rcases Expr.mem_nodes hnode with rfl | ⟨x, a, ha, hmem⟩ | ⟨v, rfl, -⟩
  · cases node with
    | ref z => rwa [indexScans_ref]
    | _ => cases hvar
  · have hmentions := ih x a ha (List.any_eq_true.mpr ⟨node, hmem, hvar⟩)
    rcases mem_parts_indexScans ha with hpart | hall
    · exact Expr.mentions_of_mem_parts hpart hmentions
    · rw [hall] at hmentions
      cases hmentions
  · rwa [indexScans_val]

theorem atRest_letIn_indexScans {x : Var} {bound guard body : Expr} (h : AtRest (.letIn x bound guard body)) :
    AtRest (.letIn x (indexScans bound) (indexScans guard) (indexScans body)) := by
  intro p
  have hp := h ⟨fun _ => none, fun _ _ => none⟩
  simp only [simplifyLet, isTrueLiteral_indexScans, isAtom_indexScans, isVar_indexScans] at hp ⊢
  by_cases htrue : guard.isTrueLiteral = true
  · by_cases hmentions : body.mentions x.id = true
    · simp only [htrue, hmentions, mentions_indexScans body hmentions, Bool.not_true, Bool.false_eq_true, if_false] at hp ⊢
      by_cases hatom : isAtom bound = true
      · rw [if_pos hatom] at hp
        cases hp
      · rw [if_neg hatom] at hp ⊢
        by_cases hvar : body.isVar x.id = true
        · rw [if_pos hvar] at hp
          exact absurd (congrArg sizeOf hp) (by simp; omega)
        · rw [if_neg hvar]
    · simp only [htrue, hmentions, Bool.not_true, Bool.not_false, Bool.false_eq_true, if_false, if_true] at hp
      exact absurd (congrArg sizeOf hp) (by simp)
  · simp [htrue]

theorem atRest_forIn_indexScans {x : Var} {source guard body source' : Expr} (h : AtRest (.forIn x source guard body)) :
    AtRest (.forIn x source' (indexScans guard) (indexScans body)) := by
  have hloop : simplifyLoop x (some source) (some guard) (some body) = some (.forIn x source guard body) := h
  simp only [simplifyLoop] at hloop
  show simplifyLoop x (some source') (some (indexScans guard)) (some (indexScans body)) = _
  simp only [simplifyLoop, isFalseLiteral_indexScans, isTrueLiteral_indexScans, isVar_indexScans]
  split at hloop
  · cases hloop
  · split at hloop
    · exact absurd (congrArg sizeOf hloop) (by simp; omega)
    · rw [if_neg ‹_›, if_neg ‹_›]

theorem settled_indexScans : ∀ e, Settled e → Settled (indexScans e) := by
  refine Expr.parts_induction fun e ih he => ?_
  have hpart : ∀ x a, (x, a) ∈ e.parts → Settled (indexScans a) := fun x a ha => ih x a ha (he.part ha)
  have hrest := he.atRest
  cases e with
  | val v => rwa [indexScans_val]
  | ref x => rwa [indexScans_ref]
  | op o l r span =>
    rw [indexScans_op]
    refine .of_parts _ ?_ fun x a ha => ?_
    · have hop := congrArg (Option.map indexScans) hrest
      rwa [← simplifyOp_indexScans, Option.map_some, Option.map_some, indexScans_op] at hop
    · obtain ⟨-, rfl | ha⟩ := Expr.mem_parts_op.mp ha
      · exact hpart none l Expr.left_mem_parts
      · obtain ⟨r, rfl, rfl⟩ := Option.map_eq_some_iff.mp ha
        exact hpart none r Expr.right_mem_parts
  | tuple fields =>
    rw [indexScans_tuple]
    refine .of_parts _ ?_ fun x a ha => ?_
    · have htuple := congrArg (Option.map indexScans) hrest
      rwa [← simplifyTuple_indexScans, Option.map_some, indexScans_tuple] at htuple
    · obtain ⟨-, ha⟩ := Expr.mem_parts_tuple.mp ha
      obtain ⟨f, hf, ha⟩ := List.mem_map.mp ha
      obtain ⟨b, rfl, rfl⟩ := Option.map_eq_some_iff.mp ha
      exact hpart none b (Expr.mem_parts_tuple.mpr ⟨rfl, hf⟩)
  | cond test yes no =>
    rw [indexScans_cond]
    refine .of_parts _ ?_ fun x a ha => ?_
    · have hcond := congrArg (Option.map indexScans) hrest
      rwa [← simplifyCond_indexScans, Option.map_some, Option.map_some, indexScans_cond] at hcond
    · obtain ⟨-, rfl | ha | ha⟩ := Expr.mem_parts_cond.mp ha
      · exact hpart none test (Expr.mem_parts_cond.mpr ⟨rfl, Or.inl rfl⟩)
      · obtain ⟨b, rfl, rfl⟩ := Option.map_eq_some_iff.mp ha
        exact hpart none b (Expr.mem_parts_cond.mpr ⟨rfl, Or.inr (Or.inl rfl)⟩)
      · obtain ⟨b, rfl, rfl⟩ := Option.map_eq_some_iff.mp ha
        exact hpart none b (Expr.mem_parts_cond.mpr ⟨rfl, Or.inr (Or.inr rfl)⟩)
  | forIn x source guard body =>
    have hguard := hpart (some x.id) guard (by simp [Expr.parts])
    rw [indexScans]
    refine .of_parts _ (atRest_forIn_indexScans hrest) fun y a ha => ?_
    obtain ⟨-, rfl⟩ | ⟨-, rfl⟩ | ⟨-, rfl⟩ := Expr.mem_parts_forIn.mp ha
    · exact settled_scanSource (hpart none source (by simp [Expr.parts])) hguard
    · exact hguard
    · exact hpart (some x.id) body (by simp [Expr.parts])
  | letIn x bound guard body =>
    rw [indexScans]
    exact settled_letIn (hpart none bound (by simp [Expr.parts])) (hpart (some x.id) guard (by simp [Expr.parts]))
      (hpart (some x.id) body (by simp [Expr.parts])) (atRest_letIn_indexScans hrest)
  | lambda x body =>
    rw [indexScans]
    refine .of_parts _ trivial fun y a ha => ?_
    obtain ⟨-, rfl⟩ := Expr.mem_parts_lambda.mp ha
    exact hpart (some x.id) body (by simp [Expr.parts])

theorem simplify_indexScans {e : Expr} (h : simplify e = some e) : simplify (indexScans e) = some (indexScans e) :=
  simplify_of_settled (settled_indexScans e (settled_simplify h))

end Prepare

namespace Query

open Prepare (simplify indexScans simplify_indexScans simplify_of_settled settled_simplify indexScans_indexScans)

variable {dump trace : Bool} {limits : Limits} {e : Expr}

theorem prepare_simplify : (prepare ⟨true, false, dump, trace, limits⟩ e).expr = simplify e :=
  rfl

theorem prepare_indexScans : (prepare ⟨false, true, dump, trace, limits⟩ e).expr = some (indexScans e) :=
  rfl

/-- The second round of simplification finds nothing to do. -/
theorem prepare_both : (prepare ⟨true, true, dump, trace, limits⟩ e).expr = (simplify e).map indexScans := by
  show (((some e).bind simplify).bind fun e => some (indexScans e)).bind simplify = _
  rw [Option.bind_some]
  cases h : simplify e with
  | none => rfl
  | some t => exact simplify_indexScans (simplify_of_settled (settled_simplify h))

theorem prepare_prepare (o : Options) (e : Expr) :
    (prepare o e).expr.bind (fun t => (prepare o t).expr) = (prepare o e).expr := by
  match o with
  | ⟨false, false, _, _, _⟩ => rfl
  | ⟨false, true, _, _, _⟩ => rw [prepare_indexScans, Option.bind_some, prepare_indexScans, indexScans_indexScans]
  | ⟨true, false, _, _, _⟩ =>
    rw [prepare_simplify]
    cases h : simplify e with
    | none => rfl
    | some t => exact simplify_of_settled (settled_simplify h)
  | ⟨true, true, _, _, _⟩ =>
    rw [prepare_both]
    cases h : simplify e with
    | none => rfl
    | some t =>
      have ht : simplify (indexScans t) = some (indexScans t) :=
        simplify_indexScans (simplify_of_settled (settled_simplify h))
      rw [Option.map_some, Option.bind_some, prepare_both, ht, Option.map_some, indexScans_indexScans]

/-- Preparation is stable: by its parts, in its last stage and as a whole. -/
theorem prepare_stable :
    (∀ t, simplify t = some t → simplify (indexScans t) = some (indexScans t)) ∧
      (∀ dump trace limits e, (prepare ⟨true, true, dump, trace, limits⟩ e).expr = (simplify e).map indexScans) ∧
      (∀ e, indexScans (indexScans e) = indexScans e) ∧
      ∀ o e, (prepare o e).expr.bind (fun t => (prepare o t).expr) = (prepare o e).expr :=
  ⟨fun _ => simplify_indexScans, fun _ _ _ _ => prepare_both, indexScans_indexScans, prepare_prepare⟩

/-- The guard `x.INODE == 5 && x.NAME like "a*"`. -/
def inodeAndName : Expr :=
  .binary .logAnd (.binary .eq (.field (.ref 0) "INODE") (.int 5))
    (.binary .like (.field (.ref 0) "NAME") (.str "a*"))

def inodeLookup : Expr :=
  .forIn ⟨0, "x"⟩ (.binary .lookup (.index .inode) (.int 5)) inodeAndName (.ref 0)

theorem prepare_stable_inodeLookup :
    simplify (Expr.scan ⟨0, "x"⟩ inodeAndName) = some (Expr.scan ⟨0, "x"⟩ inodeAndName) ∧
      indexScans (Expr.scan ⟨0, "x"⟩ inodeAndName) = inodeLookup ∧ simplify inodeLookup = some inodeLookup :=
  ⟨rfl, rfl, prepare_stable.1 (Expr.scan ⟨0, "x"⟩ inodeAndName) rfl⟩

end Query

end Provenance
