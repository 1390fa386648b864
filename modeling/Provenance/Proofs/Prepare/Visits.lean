import Mathlib.Data.List.Nodup
import Provenance.Proofs.Guard.Finds
import Provenance.Proofs.Prepare.ScanSound

/-!
# How often a loop over an index comes to an object

The source in the place of a scan is the concatenation of one lookup for each
literal of a clause. A lookup gives an object once, and nothing is dropped where
they are joined, so the source gives an object as often as there are lookups
that find it (`count_of_indexScans`). The loop comes to each object at most once
exactly if no two of them find the same, whereas a scan always does.
-/

namespace Provenance

namespace Guard

open Eval
open Provenance.Expr (Inert inert_binary)
open Members (ofObjects)

variable {c : Setting} {σ : Scope (Option Value)}

/-- Whatever the source gives, if anything, is a list with each object that many times. -/
structure Stocks (c : Setting) (σ : Scope (Option Value)) (k : ObjectId → Nat) (e : Expr) : Prop where
  inert : Inert e
  gives : ∀ {q n v}, Gives q c σ n e v → v = none ∨ ∃ ps, v = some (.listOf (ofObjects ps)) ∧ ∀ p, ps.count p = k p

theorem Shows.stocks {e : Expr} (h : Shows c σ e) : Stocks c σ (fun p => if finds c.graph p e then 1 else 0) e where
  inert := h.inert
  gives hv := by
    rcases h.gives hv with ⟨hnone, -⟩ | ⟨ps, hps, hnodup, hmem⟩
    · exact Or.inl hnone
    · exact Or.inr ⟨ps, hps, fun p => by rw [hnodup.count, if_congr (hmem p) rfl rfl]⟩

theorem stocks_concat {k k' : ObjectId → Nat} {e e' : Expr} (h : Stocks c σ k e) (h' : Stocks c σ k' e') :
    Stocks c σ (fun p => k p + k' p) (.binary .concat e e') where
  inert := inert_binary rfl h.inert h'.inert
  gives {q n v} hv := by
    have hin : Inert (.binary .concat e e') := inert_binary rfl h.inert h'.inert
    obtain ⟨m, ⟨-, hv⟩ | ⟨a, ha, ⟨-, hv⟩ | ⟨b, hb, hv⟩⟩⟩ := operands_of_gives hin rfl hv
    · exact Or.inl hv
    · exact Or.inl hv
    · obtain hnone | ⟨ps, hps, hcount⟩ := h.gives ha
      · cases hnone
      obtain hnone | ⟨qs, hqs, hcount'⟩ := h'.gives hb
      · cases hnone
      cases hps
      cases hqs
      have hboth : Operate.binary c.library.engine .concat (.listOf (ofObjects ps)) (.listOf (ofObjects qs)) =
          .ok (.listOf (ofObjects (ps ++ qs))) := congrArg Operate.orMixed (Members.concat_ofObjects ps qs)
      rw [applyBinary_of_isComputed _ rfl, yields_operate, hboth] at hv
      refine Or.inr ⟨ps ++ qs, yields_pure.mp hv, fun p => ?_⟩
      rw [List.count_append, hcount, hcount']

theorem stocks_joined_concat {es : List Expr} (hes : ∀ e ∈ es, Shows c σ e) {e : Expr}
    (h : joined .concat es = some e) : Stocks c σ (fun p => es.countP (finds c.graph p)) e := by
  refine joined_induction (P := fun es e => (∀ a ∈ es, Shows c σ a) →
    Stocks c σ (fun p => es.countP (finds c.graph p)) e) (fun e hes => ?_) (fun es e a ih hes => ?_) h hes
  · simp only [List.countP_singleton]
    exact (hes e List.mem_cons_self).stocks
  · simp only [List.countP_append, List.countP_singleton]
    have ha : Shows c σ a := hes a (List.mem_append_right _ List.mem_cons_self)
    exact stocks_concat (ih fun b hb => hes b (List.mem_append_left _ hb)) ha.stocks

/-- The accesses are those of the literals of a clause in the normal form of the guard. -/
def Answers (x : VarId) (guard : Expr) (branches : List Access) : Prop :=
  ∃ g, (Formula.build #[] guard).1.normalize? = some g ∧ ∃ cl ∈ g.clauses,
    cl.map (fun l => (Formula.build #[] guard).2[l.leaf]?.bind (literalAccess? x l.negated)) = branches.map some

theorem Answers.exists_literal {x : VarId} {guard : Expr} {branches : List Access} (h : Answers x guard branches)
    {a : Access} (ha : a ∈ branches) : ∃ negated e, literalAccess? x negated e = some a := by
  obtain ⟨g, -, cl, -, hbranches⟩ := h
  have hmem := List.mem_map_of_mem (f := some) ha
  rw [← hbranches] at hmem
  obtain ⟨l, -, hl⟩ := List.mem_map.mp hmem
  obtain ⟨e, -, he⟩ := Option.bind_eq_some_iff.mp hl
  exact ⟨l.negated, e, he⟩

theorem Answers.shows {x : VarId} {guard : Expr} {branches : List Access} (h : Answers x guard branches)
    (hg : c.graph.Stored) : ∀ e ∈ branches.map Access.source, Shows c σ e := by
  intro e he
  obtain ⟨a, ha, rfl⟩ := List.mem_map.mp he
  obtain ⟨negated, leaf, hleaf⟩ := h.exists_literal ha
  obtain ⟨o, name, target, -, haccess⟩ := literalAccess?_eq_some hleaf
  exact shows_source hg haccess

end Guard

namespace Prepare

open Eval
open Provenance.Expr (scan)
open Guard (Access Answers finds joined source?)
open Members (ofObjects)

theorem source?_of_indexScans {x : Var} {guard body source guard' body' : Expr}
    (h : indexScans (.forIn x (.val .all) guard body) = .forIn x source guard' body') (hsource : source ≠ .val .all) :
    source? x.id guard' = some source := by
  simp only [indexScans, Expr.forIn.injEq, true_and] at h
  obtain ⟨rfl, rfl, -⟩ := h
  exact (scanSource_eq x.id _).resolve_left hsource

/-- Where a scan is replaced, the source that takes its place joins the accesses of a clause of the guard.
It has each object as often as they find it, and so each at most once exactly if no two find the same. -/
theorem count_of_indexScans {x : Var} {guard body source guard' body' : Expr}
    (h : indexScans (.forIn x (.val .all) guard body) = .forIn x source guard' body') (hsource : source ≠ .val .all) :
    ∃ branches, Answers x.id guard' branches ∧ joined .concat (branches.map Access.source) = some source ∧
      ∀ (c : Setting) (s s' : Session) (kind : Option Tag) (l : Members), c.graph.Stored →
        evaluate source c s = (.ok (some (.list kind l)), s') →
          ∃ ps, l = ofObjects ps ∧ (∀ p, ps.count p = branches.countP fun a => finds c.graph p a.source) ∧
            (ps.Nodup ↔ ∀ p, (branches.countP fun a => finds c.graph p a.source) ≤ 1) := by
  obtain ⟨g, hg, cl, hcl, branches, hbranches, hjoin⟩ := Guard.source?_eq_some (source?_of_indexScans h hsource)
  have hanswers : Answers x.id guard' branches := ⟨g, hg, cl, hcl, hbranches⟩
  refine ⟨branches, hanswers, hjoin, fun c s s' kind l hstored hrun => ?_⟩
  obtain hnone | ⟨ps, hps, hcount⟩ :=
    (Guard.stocks_joined_concat (hanswers.shows hstored) hjoin).gives (Yields.of_run hrun)
  · cases hnone
  · cases hps
    have hfound : ∀ p, ps.count p = branches.countP fun a => finds c.graph p a.source := fun p => by
      rw [hcount, List.countP_map]
      rfl
    exact ⟨ps, rfl, hfound, List.nodup_iff_count_le_one.trans (forall_congr' fun p => by rw [hfound])⟩

/-- The guard `x.PNODE == 1 || x.INODE == 5`. -/
def oneOrFive : Expr :=
  .binary .logOr (.binary .eq (.field (.ref 0) "PNODE") (.int 1)) (.binary .eq (.field (.ref 0) "INODE") (.int 5))

def oneOrFiveSource : Expr :=
  .binary .concat (.val (.listOf [.object 1])) (Guard.lookupIn .inode (.int 5))

theorem count_of_indexScans_apart :
    indexScans (scan ⟨0, "x"⟩ oneOrFive) = .forIn ⟨0, "x"⟩ oneOrFiveSource oneOrFive (.ref 0) ∧
      (Graph.empty.set 2 "INODE" (.int 5)).Stored ∧
      (evaluate oneOrFiveSource ⟨Graph.empty.set 2 "INODE" (.int 5), .standard, .standard⟩ (.new false)).1 =
        .ok (some (.listOf (ofObjects [1, 2]))) ∧
      ∃ branches, Answers 0 oneOrFive branches ∧ ∃ ps, ofObjects [1, 2] = ofObjects ps ∧
        (∀ p, ps.count p =
          branches.countP fun a => finds (Graph.empty.set 2 "INODE" (.int 5)) p a.source) ∧
        (ps.Nodup ↔ ∀ p,
          (branches.countP fun a => finds (Graph.empty.set 2 "INODE" (.int 5)) p a.source) ≤ 1) := by
  have hindex : indexScans (scan ⟨0, "x"⟩ oneOrFive) = .forIn ⟨0, "x"⟩ oneOrFiveSource oneOrFive (.ref 0) := rfl
  have hstored : (Graph.empty.set 2 "INODE" (.int 5)).Stored := Graph.Stored.empty.set 2 _ _
  have hlist : (evaluate oneOrFiveSource ⟨Graph.empty.set 2 "INODE" (.int 5), .standard, .standard⟩ (.new false)).1 =
      .ok (some (.listOf (ofObjects [1, 2]))) := rfl
  obtain ⟨branches, hanswers, -, hcount⟩ := count_of_indexScans hindex fun h => by cases h
  exact ⟨hindex, hstored, hlist, branches, hanswers, hcount _ _ _ _ _ hstored (Prod.ext hlist rfl)⟩

/-- The object 1 is the one with the inode number 5, so both lookups find it. -/
theorem indexScans_revisits :
    indexScans (scan ⟨0, "x"⟩ oneOrFive) = .forIn ⟨0, "x"⟩ oneOrFiveSource oneOrFive (.ref 0) ∧
      oneOrFiveSource ≠ .val .all ∧
      (evaluate oneOrFiveSource ⟨Graph.empty.set 1 "INODE" (.int 5), .standard, .standard⟩ (.new false)).1 =
        .ok (some (.listOf (ofObjects [1, 1]))) ∧
      (evaluate (indexScans (scan ⟨0, "x"⟩ oneOrFive)) ⟨Graph.empty.set 1 "INODE" (.int 5), .standard, .standard⟩
          (.new false)).1 =
        .ok (some (.listOf (ofObjects [1, 1]))) ∧
      (evaluate (scan ⟨0, "x"⟩ oneOrFive) ⟨Graph.empty.set 1 "INODE" (.int 5), .standard, .standard⟩ (.new false)).1 =
        .ok (some (.listOf (ofObjects [1]))) :=
  ⟨rfl, (fun h => by cases h), rfl, rfl, rfl⟩

end Prepare

end Provenance
