import Provenance.Prepare.IndexScan
import Provenance.Proofs.Eval.Gather
import Provenance.Proofs.Guard.AccessSound
import Provenance.Proofs.Guard.Reading

/-!
# Index lookups in the place of a scan

`scanSource` may replace the objects that a loop goes through by what an index
yields. A guard that is true has a true literal in each clause of its normal
form, so the objects that it lets pass are among those that the accesses of the
chosen clause find (`fetches_source?`); and no more pass than before, since the
guard stays. `indexScans_scan`: the loop yields the same set of objects.
-/

namespace Provenance

/-! ## The chosen clause -/

namespace Guard

open Eval
open Provenance.Expr (Inert)

variable {c : Setting} {σ : Scope (Option Value)}

theorem allSome_eq_some : ∀ {as : List (Option Access)} {bs : List Access}, allSome as = some bs → as = bs.map some
  | [], _, h => by
    cases h
    rfl
  | some a :: as, _, h => by
    obtain ⟨bs, hbs, rfl⟩ := Option.map_eq_some_iff.mp h
    rw [allSome_eq_some hbs, List.map_cons]

theorem mem_of_foldl_better {plan : Plan} : ∀ (ps : List (Option Plan)) {best : Option Plan},
    ps.foldl better best = some plan → best = some plan ∨ some plan ∈ ps
  | [], _, h => Or.inl h
  | p :: ps, best, h => by
    rcases mem_of_foldl_better ps h with h | h
    · unfold better at h
      split at h
      · exact Or.inr (h ▸ List.mem_cons_self)
      · exact Or.inl h
      · split at h
        · exact Or.inr (h ▸ List.mem_cons_self)
        · exact Or.inl h
    · exact Or.inr (List.mem_cons_of_mem _ h)

theorem branches_of_clausePlan? {leaves : Array Expr} {x : VarId} {cl : Clause} {plan : Plan}
    (h : clausePlan? leaves x cl = some plan) :
    cl.map (fun l => leaves[l.leaf]?.bind (literalAccess? x l.negated)) = plan.branches.map some := by
  unfold clausePlan? at h
  split at h
  · cases h
  · cases h
  · cases h
    exact allSome_eq_some ‹_›

theorem source?_eq_some {x : VarId} {guard src : Expr} (h : source? x guard = some src) :
    ∃ g, (Formula.build #[] guard).1.normalize? = some g ∧ ∃ cl ∈ g.clauses, ∃ branches : List Access,
      cl.map (fun l => (Formula.build #[] guard).2[l.leaf]?.bind (literalAccess? x l.negated)) = branches.map some ∧
        joined .concat (branches.map Access.source) = some src := by
  unfold source? at h
  dsimp only at h
  split at h
  · cases h
  · rename_i g hg
    split at h
    · cases h
    · rename_i plan hplan
      refine ⟨g, hg, ?_⟩
      rcases mem_of_foldl_better _ hplan with hb | hm
      · cases hb
      · obtain ⟨cl, hcl, hp⟩ := List.mem_map.mp hm
        exact ⟨cl, hcl, plan.branches, branches_of_clausePlan? hp, h⟩

/-! ## What the source finds -/

theorem inert_leaf {guard e : Expr} {i : Nat} (hi : Inert guard) (he : (Formula.build #[] guard).2[i]? = some e) :
    Inert e :=
  Formula.inert_of_mem_build #[] guard (fun a ha => absurd ha (Array.not_mem_empty a)) hi e (Array.mem_of_getElem? he)

theorem exists_access {leaves : Array Expr} {x : VarId} {cl : Clause} {branches : List Access}
    (h : cl.map (fun l => leaves[l.leaf]?.bind (literalAccess? x l.negated)) = branches.map some) {l : Literal}
    (hl : l ∈ cl) : ∃ e a, leaves[l.leaf]? = some e ∧ literalAccess? x l.negated e = some a := by
  have hmem := List.mem_map_of_mem (f := fun l => leaves[l.leaf]?.bind (literalAccess? x l.negated)) hl
  rw [h] at hmem
  obtain ⟨a, -, ha⟩ := List.mem_map.mp hmem
  obtain ⟨e, he, ha⟩ := Option.bind_eq_some_iff.mp ha.symm
  exact ⟨e, a, he, ha⟩

section
variable {x : VarId} {guard : Expr} (hi : Inert guard)
  (hsafe : Formula.nilSafe true false (Formula.build #[] guard).1 = true)
include hi hsafe

/-- A guard that holds of an object has a leaf, or the negation of one, that holds of it and that an
index answers. -/
theorem exists_literal_of_holdsOf {g : Formula} (hg : (Formula.build #[] guard).1.normalize? = some g) {cl : Clause}
    (hcl : cl ∈ g.clauses) {p : ObjectId} (hp : HoldsOf c x false guard p) :
    ∃ l ∈ cl, ∀ e, (Formula.build #[] guard).2[l.leaf]? = some e → HoldsOf c x l.negated e p := by
  obtain ⟨q, τ, n, w, hx, hv, hw⟩ := hp
  have hleaves := Formula.inert_of_mem_build #[] guard (fun a ha => absurd ha (Array.not_mem_empty a)) hi
  obtain ⟨ν, hν⟩ := exists_isReading (c := c) (σ := τ) hleaves
  have hvalue := Formula.value_build hν #[] guard (fun _ _ h => h) hi hv.weaken
  rw [Option.map_some, hw] at hvalue
  have hstrong := Formula.strong_of_nilSafe ν hsafe hvalue
  obtain ⟨l, hl, htrue⟩ := (Formula.clausesHold_normalize ν hg).mpr hstrong cl hcl
  refine ⟨l, hl, fun e he => ?_⟩
  have hleaf : ν l.leaf = some (!l.negated) := by
    unfold Literal.value at htrue
    cases hneg : l.negated with
    | true =>
      rw [hneg, if_pos rfl] at htrue
      exact (map_not_eq _ _).mp htrue
    | false =>
      rw [hneg, if_neg Bool.false_ne_true] at htrue
      exact htrue
  obtain ⟨m, u, hu, htruth⟩ := (hν l.leaf e he _).mp hleaf
  exact ⟨false, τ, m, u, hx, hu, htruth⟩

theorem mem_ids_of_holdsOf_guard {src : Expr} (h : source? x guard = some src) {p : ObjectId}
    (hp : HoldsOf c x false guard p) : p ∈ c.graph.ids := by
  obtain ⟨g, hg, cl, hcl, branches, hbr, -⟩ := source?_eq_some h
  obtain ⟨l, hl, hholds⟩ := exists_literal_of_holdsOf hi hsafe hg hcl hp
  obtain ⟨e, a, he, ha⟩ := exists_access hbr hl
  exact mem_ids_of_holdsOf ha (inert_leaf hi he) (hholds e he)

/-- The source of a guard finds every object of which the guard holds. -/
theorem fetches_source? {src : Expr} (h : source? x guard = some src) (hw : WholeInodes c.graph)
    (hempty : ∀ e ∈ (Formula.build #[] guard).2, testsEmptyTuple e = false) :
    Fetches c σ (HoldsOf c x false guard) src := by
  obtain ⟨g, hg, cl, hcl, branches, hbr, hsrc⟩ := source?_eq_some h
  have hsources : branches.map Access.source = cl.map (fun l => (((Formula.build #[] guard).2[l.leaf]?.bind
      (literalAccess? x l.negated)).map Access.source).getD src) := by
    have hmap := congrArg (List.map fun o : Option Access => (o.map Access.source).getD src) hbr
    rw [List.map_map, List.map_map] at hmap
    exact hmap.symm
  rw [hsources] at hsrc
  refine (fetches_joined_concat (R := fun l p => ∀ e, (Formula.build #[] guard).2[l.leaf]? = some e →
    HoldsOf c x l.negated e p) (fun l hl => ?_) hsrc).mono fun p hp => exists_literal_of_holdsOf hi hsafe hg hcl hp
  obtain ⟨e, a, he, ha⟩ := exists_access hbr hl
  rw [he, Option.bind_some, ha, Option.map_some, Option.getD_some]
  exact (fetches_literal ha (inert_leaf hi he) hw (hempty e (Array.mem_of_getElem? he))).mono fun p hp => hp e rfl

end

end Guard

/-! ## Scans -/

namespace Expr

def isLoop : Expr → Bool
  | forIn _ _ _ _ => true
  | _ => false

def scan (x : Var) (guard : Expr) : Expr :=
  forIn x all guard (varRef x)

end Expr

namespace Prepare

open Eval
open Provenance.Expr (Direct Inert direct_forIn direct_ref isLoop scan)
open Guard (Formula HoldsOf)
open Members (ofObjects)

mutual

theorem indexScans_eq_self : ∀ {e : Expr}, (∀ a ∈ e.nodes, isLoop a = false) → indexScans e = e
  | .val _, _ => by rw [indexScans]
  | .ref _, _ => by rw [indexScans]
  | .op o l r span, h => by
    simp only [Expr.nodes, List.forall_mem_cons, List.forall_mem_append] at h
    rw [indexScans, indexScans_eq_self h.2.1, indexScansOpt_eq_self h.2.2]
  | .tuple fields, h => by
    simp only [Expr.nodes, List.forall_mem_cons] at h
    rw [indexScans, indexScansAll_eq_self h.2]
  | .cond test yes no, h => by
    simp only [Expr.nodes, List.forall_mem_cons, List.forall_mem_append] at h
    rw [indexScans, indexScans_eq_self h.2.1, indexScansOpt_eq_self h.2.2.1, indexScansOpt_eq_self h.2.2.2]
  | .forIn _ _ _ _, h => by
    simp only [Expr.nodes, List.forall_mem_cons] at h
    cases h.1
  | .letIn x bound guard body, h => by
    simp only [Expr.nodes, List.forall_mem_cons, List.forall_mem_append] at h
    rw [indexScans, indexScans_eq_self h.2.1, indexScans_eq_self h.2.2.1, indexScans_eq_self h.2.2.2]
  | .lambda x body, h => by
    simp only [Expr.nodes, List.forall_mem_cons] at h
    rw [indexScans, indexScans_eq_self h.2]

theorem indexScansOpt_eq_self : ∀ {e : Option Expr}, (∀ a ∈ Expr.nodesOpt e, isLoop a = false) → indexScansOpt e = e
  | none, _ => by rw [indexScansOpt]
  | some e, h => by
    rw [Expr.nodesOpt] at h
    rw [indexScansOpt, indexScans_eq_self h]

theorem indexScansAll_eq_self : ∀ {es : List (Option Expr)}, (∀ a ∈ Expr.nodesAll es, isLoop a = false) →
    indexScansAll es = es
  | [], _ => by rw [indexScansAll]
  | e :: es, h => by
    rw [Expr.nodesAll, List.forall_mem_append] at h
    rw [indexScansAll, indexScansOpt_eq_self h.1, indexScansAll_eq_self h.2]

end

variable {c : Setting} {σ : Scope (Option Value)} {x : Var} {guard source : Expr} {n : Nat} {v : Option Value}

def Passes (c : Setting) (σ : Scope (Option Value)) (x : Var) (guard : Expr) (p : ObjectId) : Prop :=
  ∃ n g, Gives false c (σ.push x.id (some (.object p))) n guard g ∧ truth g = true

theorem passes_iff {p : ObjectId} {g : Option Value} (hi : Direct guard)
    (hg : Gives false c (σ.push x.id (some (.object p))) n guard g) : Passes c σ x guard p ↔ truth g = true := by
  constructor
  · intro h
    obtain ⟨m, g', hg', htrue⟩ := h
    rw [hg.unique_of_levels hg' hi]
    exact htrue
  · exact fun htrue => ⟨n, g, hg, htrue⟩

theorem Passes.holdsOf {p : ObjectId} (h : Passes c σ x guard p) : HoldsOf c x.id false guard p := by
  obtain ⟨n, g, hg, htrue⟩ := h
  cases g with
  | none => cases htrue
  | some w => exact ⟨false, _, n, w, Scope.lookup?_push _ _ _, hg, htrue⟩

theorem gives_scanned {p : ObjectId} (hi : Direct guard)
    (h : Yields false c σ (guarded (evaluateIn n) x guard (.ref x.id) (some (.object p))) v) :
    v = some (.object p) ∧ Passes c σ x guard p ∨ v = none ∧ ¬ Passes c σ x guard p := by
  obtain ⟨g, hg, hv⟩ := (yields_guarded (Steady.evaluateIn hi) (Steady.evaluateIn (direct_ref x.id))).mp h
  rw [passes_iff hi hg]
  by_cases hpass : truth g = true
  · rw [if_pos hpass] at hv
    obtain ⟨n, rfl⟩ := Gives.exists_succ hv
    exact Or.inl ⟨(gives_ref (Scope.lookup?_push _ _ _)).mp hv, hpass⟩
  · rw [if_neg hpass] at hv
    exact Or.inr ⟨hv, hpass⟩

/-- A loop that returns its variable gives those of the objects of its source that pass. -/
theorem gives_scan (hg : Direct guard) (hs : Direct source) {Q : List ObjectId → Prop}
    (hsource : ∀ {u}, Gives false c σ n source u →
      ∃ ps, (u = some (.listOf (ofObjects ps)) ∨ u = some .all ∧ c.graph.ids = ps) ∧ Q ps)
    (h : Gives false c σ (n + 1) (.forIn x source guard (.ref x.id)) v) :
    ∃ ps rs, Q ps ∧ v = some (.listOf (ofObjects rs)) ∧ ∀ p, p ∈ rs ↔ p ∈ ps ∧ Passes c σ x guard p := by
  have hi : Direct (.forIn x source guard (.ref x.id)) := direct_forIn hs hg (direct_ref x.id)
  have hitem : ∀ item : Value, Steady (guarded (evaluateIn n) x guard (.ref x.id) (some item)) := fun item =>
    respected_carriesOver.guarded _ ((Steady.evaluateIn hg).mono fun _ _ => Or.inr trivial)
      ((Steady.evaluateIn (direct_ref x.id)).mono fun _ _ => Or.inr trivial)
  have hgather : ∀ ps l, Yields false c σ (gatherAll (fun item => guarded (evaluateIn n) x guard (.ref x.id)
      (some item)) (ofObjects ps) .empty) l →
      ∃ rs, l.reverse.value = .listOf (ofObjects rs) ∧ ∀ p, p ∈ rs ↔ p ∈ ps ∧ Passes c σ x guard p := by
    intro ps l hl
    obtain ⟨rs, rfl, hrs⟩ := yields_gatherObjects hitem (fun p r hr => gives_scanned hg hr) ps [] hl
    refine ⟨rs.reverse, by rw [Tagged.reverse_ofObjects, Tagged.value_of], fun p => ?_⟩
    rw [List.mem_reverse, hrs]
    simp
  rw [gives_succ hi] at h
  obtain ⟨hn, -⟩ | ⟨a, ha, hover⟩ := (yields_forLoop (Steady.evaluateIn hs) (Steady.evaluateIn hg)
    (Steady.evaluateIn (direct_ref x.id))).mp h
  · obtain ⟨ps, h | ⟨h, -⟩, -⟩ := hsource hn <;> cases h
  · obtain ⟨ps, h | ⟨h, hids⟩, hQ⟩ := hsource ha
    · cases h
      obtain ⟨l, hl, rfl⟩ := (yields_overList hitem).mp hover
      obtain ⟨rs, hrev, hrs⟩ := hgather ps l hl
      exact ⟨ps, rs, hQ, by rw [hrev], hrs⟩
    · cases h
      obtain ⟨l, hl, rfl⟩ := (yields_overAll hitem).mp hover
      rw [hids] at hl
      obtain ⟨rs, hrev, hrs⟩ := hgather ps l hl
      exact ⟨ps, rs, hQ, by rw [hrev], hrs⟩

theorem gives_scan_all (hg : Direct guard) (h : Gives false c σ (n + 1) (scan x guard) v) :
    ∃ rs, v = some (.listOf (ofObjects rs)) ∧ ∀ p, p ∈ rs ↔ p ∈ c.graph.ids ∧ Passes c σ x guard p := by
  have hall : Inert (.val .all) := Expr.inert_val rfl
  obtain ⟨ps, rs, rfl, hv, hrs⟩ := gives_scan (Q := (c.graph.ids = ·)) hg hall
    (fun hu => ⟨_, Or.inr ⟨eq_of_gives_val hall hu, rfl⟩, rfl⟩) h
  exact ⟨rs, hv, hrs⟩

theorem scanSource_eq (x : VarId) (guard : Expr) :
    scanSource x (.val .all) guard = .val .all ∨ Guard.source? x guard = some (scanSource x (.val .all) guard) := by
  unfold scanSource
  split
  · rename_i hall _
    cases hs : Guard.source? x _ with
    | none => exact Or.inl rfl
    | some src => exact Or.inr rfl
  · exact Or.inl rfl

/-- Index lookups in the place of a scan leave the set of objects that the loop yields as it is. -/
theorem indexScans_scan {s s₁ s₂ : Session} {w : Option Value} (hi : Inert guard)
    (hloop : ∀ a ∈ guard.nodes, isLoop a = false)
    (hpos : (Formula.build #[] guard).1.isPositive = true)
    (hempty : ∀ e ∈ (Formula.build #[] guard).2, Guard.testsEmptyTuple e = false)
    (hw : Guard.WholeInodes c.graph)
    (h₁ : evaluate (scan x guard) c s = (.ok v, s₁))
    (h₂ : evaluate (indexScans (scan x guard)) c s = (.ok w, s₂)) :
    ∃ ps qs, v = some (.listOf (ofObjects ps)) ∧ w = some (.listOf (ofObjects qs)) ∧ ∀ p, p ∈ ps ↔ p ∈ qs := by
  have hv : Gives false c s.scope _ (scan x guard) v := Yields.of_run h₁
  have hw' : Gives false c s.scope _ (indexScans (scan x guard)) w := Yields.of_run h₂
  have hindex : indexScans (scan x guard) = .forIn x (scanSource x.id (.val .all) guard) guard (.ref x.id) := by
    simp only [scan, indexScans, indexScans_eq_self hloop, Expr.all, Expr.varRef]
  rw [hindex] at hw'
  obtain ⟨n, hn⟩ := Gives.exists_succ hv
  rw [hn] at hv hw'
  obtain ⟨ps, hps, hpass⟩ := gives_scan_all hi hv
  rcases scanSource_eq x.id guard with hs | hs
  · rw [hs] at hw'
    obtain ⟨qs, hqs, hpass'⟩ := gives_scan_all hi hw'
    exact ⟨ps, qs, hps, hqs, fun p => (hpass p).trans (hpass' p).symm⟩
  · have hsafe := Formula.nilSafe_of_isPositive hpos
    have hfetch := Guard.fetches_source? (c := c) (σ := s.scope) hi hsafe hs hw hempty
    obtain ⟨found, qs, hfound, hqs, hpass'⟩ := gives_scan
      (Q := fun ps => ∀ p, HoldsOf c x.id false guard p → p ∈ ps) hi hfetch.inert
      (fun hu => by
        obtain ⟨ps, hps, hfound⟩ := hfetch.gives hu
        exact ⟨ps, Or.inl hps, hfound⟩) hw'
    refine ⟨ps, qs, hps, hqs, fun p => ?_⟩
    rw [hpass, hpass']
    -- What passes is in the graph, and the source finds it.
    refine and_congr_left fun hp => ⟨fun _ => hfound p hp.holdsOf, fun _ => ?_⟩
    exact Guard.mem_ids_of_holdsOf_guard hi hsafe hs hp.holdsOf

/-- The guard `5 == x.INODE || x.ARGV contains ("ls", "-l")`. -/
def inodeOrListing : Expr :=
  .binary .logOr (.binary .eq (.int 5) (.field (.ref 0) "INODE"))
    (.binary .contains (.field (.ref 0) "ARGV") (.val (.tuple [.str "ls", .str "-l"])))

def fileAndListing : Setting :=
  ⟨⟨[(1, [("INODE", .int 5)]), (2, [("ARGV", .tuple [.str "ls", .str "-l"])]), (3, [])], []⟩, ⟨10, none, 10⟩, .standard⟩

theorem indexScans_scan_inodeOrListing :
    (evaluate (scan ⟨0, "x"⟩ inodeOrListing) fileAndListing (.new false)).1 = .ok (some (.listOf (ofObjects [1, 2]))) ∧
      (evaluate (indexScans (scan ⟨0, "x"⟩ inodeOrListing)) fileAndListing (.new false)).1 =
        .ok (some (.listOf (ofObjects [1, 2]))) ∧
      ∃ ps qs, some (Value.listOf (ofObjects [1, 2])) = some (.listOf (ofObjects ps)) ∧
        some (Value.listOf (ofObjects [1, 2])) = some (.listOf (ofObjects qs)) ∧ ∀ p, p ∈ ps ↔ p ∈ qs := by
  have hi : Inert inodeOrListing := by
    unfold Inert
    decide
  refine ⟨rfl, rfl, indexScans_scan (x := ⟨0, "x"⟩) (c := fileAndListing) (s := .new false) hi ?_ rfl ?_ ?_ rfl rfl⟩
  · decide
  · decide
  · unfold Guard.WholeInodes
    simp [fileAndListing]

end Prepare

end Provenance
