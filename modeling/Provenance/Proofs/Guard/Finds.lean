import Provenance.Proofs.Eval.Finishing
import Provenance.Proofs.Graph.Stored
import Provenance.Proofs.Guard.AccessSound

/-!
# What a source finds

Which objects the source of an access gives can be told without evaluating it:
those that the index has under the key, or under each of the words (`finds`).
The source gives each of them once and no others, or else it gives nothing and
there are none to find (`shows_source`). The levels that it takes are those of
its words (`fitsIn_source`), so with as many it is known what it evaluates to.
-/

namespace Provenance.Guard

open Eval
open Provenance.Expr (FitsIn Inert inert_val inert_binary fitsIn_val fitsIn_binary)
open Members (ofObjects)

/-! ## Sources without evaluation -/

/-- Whether the index has the object under the key. -/
def hasUnder (g : Graph) (p : ObjectId) (kind : IndexKind) (key : Value) : Bool :=
  match g.lookup kind key with
  | .ok (.list _ l) => Members.has l (.object p)
  | _ => false

/-- Whether the object is among those that the source stands for. -/
def finds (g : Graph) (p : ObjectId) : Expr → Bool
  | .val (.list _ l) => Members.has l (.object p)
  | .op .lookup (.val (.index kind)) (some (.val key)) _ => hasUnder g p kind key
  | .op .intersect l (some r) _ => finds g p l && finds g p r
  | _ => false

theorem has_object_iff_mem {l : Members} {p : ObjectId} : l.has (.object p) = true ↔ .object p ∈ l := by
  rw [Members.has, List.any_eq_true]
  constructor
  · intro h
    obtain ⟨v, hv, heq⟩ := h
    cases v <;> simp [Value.equals] at heq
    exact heq ▸ hv
  · exact fun h => ⟨_, h, by simp [Value.equals]⟩

theorem has_ofObjects {p : ObjectId} {ps : List ObjectId} : (ofObjects ps).has (.object p) = true ↔ p ∈ ps :=
  has_object_iff_mem.trans Members.mem_ofObjects

variable {c : Setting} {σ : Scope (Option Value)}

/-- What the source gives, if anything, is a list of the objects that are found, each of them once. -/
structure Shows (c : Setting) (σ : Scope (Option Value)) (e : Expr) : Prop where
  inert : Inert e
  gives : ∀ {q n v}, Gives q c σ n e v → v = none ∧ (∀ p, finds c.graph p e = false) ∨
    ∃ ps, v = some (.listOf (ofObjects ps)) ∧ ps.Nodup ∧ ∀ p, p ∈ ps ↔ finds c.graph p e = true

theorem shows_object (r : ObjectId) : Shows c σ (.val (.listOf (ofObjects [r]))) where
  inert := inert_val rfl
  gives hv := Or.inr ⟨[r], eq_of_gives_val (inert_val rfl) hv, List.pairwise_singleton _ r, fun _ => has_ofObjects.symm⟩

theorem shows_lookupIn (hg : c.graph.Stored) {kind : IndexKind} (hk : kind ≠ .identity) {key : Value}
    (hi : (Expr.val key).isInert = true) : Shows c σ (lookupIn kind (.val key)) where
  inert := inert_binary rfl (inert_val rfl) (inert_val hi)
  gives hv := by
    rw [lookup_of_gives hi hv]
    change _ ∧ (∀ p, hasUnder c.graph p kind key = false) ∨
      ∃ ps, _ ∧ _ ∧ ∀ p, p ∈ ps ↔ hasUnder c.graph p kind key = true
    unfold hasUnder
    rcases Graph.lookup_objects hg hk key with ⟨e, he⟩ | ⟨ps, hps, hnodup⟩
    · rw [he]
      exact Or.inl ⟨rfl, fun _ => rfl⟩
    · rw [hps]
      exact Or.inr ⟨ps, rfl, hnodup, fun _ => has_ofObjects.symm⟩

theorem inert_emptyTuple : Inert (.tuple []) :=
  Expr.inert_of_parts rfl fun x a ha => by cases ha

/-- A tuple without fields has no value, so there is nothing to look up. -/
theorem shows_lookupIn_emptyTuple (kind : IndexKind) : Shows c σ (lookupIn kind (.tuple [])) where
  inert := inert_binary rfl (inert_val rfl) inert_emptyTuple
  gives {q n v} hv := by
    have hin : Inert (lookupIn kind (.tuple [])) := inert_binary rfl (inert_val rfl) inert_emptyTuple
    refine Or.inl ⟨?_, fun _ => rfl⟩
    obtain ⟨k, ⟨-, hv⟩ | ⟨a, -, ⟨-, hv⟩ | ⟨b, hb, -⟩⟩⟩ := operands_of_gives hin rfl hv
    · exact hv
    · exact hv
    · obtain ⟨k, rfl⟩ := hb.exists_succ
      have hnone : Yields q c σ (pure none) (some b) := (gives_succ inert_emptyTuple).mp hb
      cases yields_pure.mp hnone

theorem shows_intersect {e e' : Expr} (h : Shows c σ e) (h' : Shows c σ e') : Shows c σ (.binary .intersect e e') where
  inert := inert_binary rfl h.inert h'.inert
  gives {q n v} hv := by
    have hin : Inert (.binary .intersect e e') := inert_binary rfl h.inert h'.inert
    change _ ∧ (∀ p, (finds c.graph p e && finds c.graph p e') = false) ∨
      ∃ ps, _ ∧ _ ∧ ∀ p, p ∈ ps ↔ (finds c.graph p e && finds c.graph p e') = true
    obtain ⟨k, ⟨ha, rfl⟩ | ⟨a, ha, ⟨hb, rfl⟩ | ⟨b, hb, hv⟩⟩⟩ := operands_of_gives hin rfl hv
    · obtain ⟨-, hnone⟩ | ⟨ps, hps, -⟩ := h.gives ha
      · exact Or.inl ⟨rfl, fun p => by rw [hnone, Bool.false_and]⟩
      · cases hps
    · obtain ⟨-, hnone⟩ | ⟨ps, hps, -⟩ := h'.gives hb
      · exact Or.inl ⟨rfl, fun p => by rw [hnone, Bool.and_false]⟩
      · cases hps
    · obtain ⟨hnone, -⟩ | ⟨ps, hps, -, hmem⟩ := h.gives ha
      · cases hnone
      obtain ⟨hnone, -⟩ | ⟨qs, hqs, -, hmem'⟩ := h'.gives hb
      · cases hnone
      cases hps
      cases hqs
      obtain ⟨rs, hrs, hnodup, hboth⟩ := Members.intersect_ofObjects ps qs
      have hboth' : Operate.binary c.library.engine .intersect (.listOf (ofObjects ps)) (.listOf (ofObjects qs)) =
          .ok (.listOf (ofObjects rs)) := congrArg Operate.orMixed hrs
      rw [applyBinary_of_isComputed _ rfl, yields_operate, hboth'] at hv
      exact Or.inr ⟨rs, yields_pure.mp hv, hnodup, fun p => by rw [hboth, hmem, hmem', Bool.and_eq_true]⟩

/-! ## The source of an access -/

theorem eq_nil_of_joined {ss : List String} {target : Expr} (hss : words target = ss.map (fun s => .val (.str s)))
    (h : joined .intersect ((words target).map (lookupIn .argv)) = none) : ss = [] := by
  cases ss with
  | nil => rfl
  | cons s ss =>
    rw [hss] at h
    cases h

/-- A source is an object, a lookup of a value or of a tuple without fields, or the intersection of a
lookup for each word. -/
theorem source_cases {o : Operator} {name : String} {target : Expr} {a : Access}
    (ha : access? o name target = some a) :
    (∃ r, a.source = .val (.listOf (ofObjects [r]))) ∨
      (∃ kind key, kind ≠ .identity ∧ (Expr.val key).isInert = true ∧ a.source = lookupIn kind (.val key)) ∨
      a.source = lookupIn .argv (.tuple []) ∨
      ∃ es, joined .intersect es = some a.source ∧ es.length = (words a.target).length ∧
        ∀ e ∈ es, ∃ s, e = lookupIn .argv (.val (.str s)) := by
  have hinode : IndexKind.inode ≠ .identity := fun h => by cases h
  have hargv : IndexKind.argv ≠ .identity := fun h => by cases h
  rcases access?_eq_some ha with ⟨rfl, ⟨rfl, t, r, rfl, hr, rfl⟩ | ⟨rfl, ⟨m, rfl⟩, rfl⟩ | ⟨rfl, ⟨s, rfl⟩, rfl⟩⟩ |
    ⟨rfl, rfl, hwords, rfl⟩
  · exact Or.inl ⟨r, rfl⟩
  · exact Or.inr (Or.inl ⟨.inode, .int m, hinode, rfl, rfl⟩)
  · exact Or.inr (Or.inl ⟨.argv, .str s, hargv, rfl, rfl⟩)
  · rcases words_of_isWordList hwords with ⟨s, rfl⟩ | ⟨ss, hss, htarget⟩
    · exact Or.inr (Or.inl ⟨.argv, .str s, hargv, rfl, rfl⟩)
    · cases hjoin : joined .intersect ((words target).map (lookupIn .argv)) with
      | none =>
        obtain rfl := eq_nil_of_joined hss hjoin
        rcases htarget with rfl | rfl
        · exact Or.inr (Or.inl ⟨.argv, .tuple [], hargv, rfl, rfl⟩)
        · exact Or.inr (Or.inr (Or.inl rfl))
      | some e =>
        refine Or.inr (Or.inr (Or.inr ⟨(words target).map (lookupIn .argv), ?_, List.length_map _, fun e he => ?_⟩))
        · simp only [Access.source, hjoin, Option.getD_some]
        · rw [hss, List.map_map] at he
          obtain ⟨s, -, rfl⟩ := List.mem_map.mp he
          exact ⟨s, rfl⟩

theorem shows_source (hg : c.graph.Stored) {o : Operator} {name : String} {target : Expr} {a : Access}
    (ha : access? o name target = some a) : Shows c σ a.source := by
  rcases source_cases ha with ⟨r, h⟩ | ⟨kind, key, hk, hi, h⟩ | h | ⟨es, h, -, hes⟩
  · rw [h]
    exact shows_object r
  · rw [h]
    exact shows_lookupIn hg hk hi
  · rw [h]
    exact shows_lookupIn_emptyTuple .argv
  · refine joined_closed shows_intersect (fun e he => ?_) h
    obtain ⟨s, rfl⟩ := hes e he
    exact shows_lookupIn hg (fun h => by cases h) rfl

/-! ## The levels of a source -/

theorem fitsIn_joined {n : Nat} {o : Operator} {es : List Expr} (hes : ∀ e ∈ es, e.FitsIn n) {e : Expr}
    (h : joined o es = some e) : e.FitsIn (n + es.length) := by
  refine joined_induction (P := fun es e => (∀ a ∈ es, a.FitsIn n) → e.FitsIn (n + es.length)) ?_ ?_ h hes
  · exact fun e hes => (hes e List.mem_cons_self).mono (Nat.le_succ n)
  · intro es e a ih hes
    rw [List.length_append, ← Nat.add_assoc]
    refine fitsIn_binary (ih fun b hb => hes b (List.mem_append_left _ hb)) ?_
    exact (hes a (List.mem_append_right _ List.mem_cons_self)).mono (Nat.le_add_right n _)

theorem fitsIn_lookupIn (kind : IndexKind) {key : Expr} (h : key.FitsIn 1) : (lookupIn kind key).FitsIn 2 :=
  fitsIn_binary (fitsIn_val _) h

/-- A level for each word, and two for a lookup. -/
theorem fitsIn_source {o : Operator} {name : String} {target : Expr} {a : Access}
    (ha : access? o name target = some a) : a.source.FitsIn ((words a.target).length + 2) := by
  have htwo : 2 ≤ (words a.target).length + 2 := Nat.le_add_left 2 _
  rcases source_cases ha with ⟨r, h⟩ | ⟨kind, key, -, -, h⟩ | h | ⟨es, h, hlength, hes⟩
  · rw [h]
    exact (fitsIn_val _).mono (Nat.le_of_succ_le htwo)
  · rw [h]
    exact (fitsIn_lookupIn kind (fitsIn_val _)).mono htwo
  · rw [h]
    exact (fitsIn_lookupIn .argv fun x a ha => by cases ha).mono htwo
  · rw [← hlength, Nat.add_comm]
    refine fitsIn_joined (fun e he => ?_) h
    obtain ⟨s, rfl⟩ := hes e he
    exact fitsIn_lookupIn .argv (fitsIn_val _)

/-- With levels enough the source comes to a list that has the object exactly if it is found. -/
theorem evaluate_source_iff {x : VarId} {negated : Bool} {e : Expr} {a : Access}
    (h : literalAccess? x negated e = some a) (hg : c.graph.Stored) {s : Session}
    (hlevels : s.depth + (words a.target).length + 2 ≤ c.limits.maxDepth) {p : ObjectId} :
    (∃ kind l, (evaluate a.source c s).1 = .ok (some (.list kind l)) ∧ .object p ∈ l) ↔ finds c.graph p a.source = true := by
  obtain ⟨o, name, target, -, ha⟩ := literalAccess?_eq_some h
  have hshows : Shows c s.scope a.source := shows_source hg ha
  obtain ⟨v, s', hrun⟩ := exists_outcome_of_fitsIn (c := c) (s := s) hshows.inert ((fitsIn_source ha).mono (by omega))
  rw [hrun]
  rcases hshows.gives (Yields.of_run hrun) with ⟨rfl, hnone⟩ | ⟨ps, rfl, -, hmem⟩
  · rw [hnone p]
    constructor
    · intro hp
      obtain ⟨kind, l, hl, -⟩ := hp
      cases hl
    · intro hp
      cases hp
  · rw [← hmem p]
    constructor
    · intro hp
      obtain ⟨kind, l, hl, hp⟩ := hp
      cases hl
      exact Members.mem_ofObjects.mp hp
    · exact fun hp => ⟨_, _, rfl, Members.mem_ofObjects.mpr hp⟩

end Provenance.Guard
