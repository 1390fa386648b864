import Provenance.Proofs.Guard.Finds

/-!
# What an access covers

An object of which a literal holds is among those that the source of its access
gives, with two exceptions (`source_covers_iff`). A comparison takes the number
5.0 for 5, but the index of inode numbers holds whole numbers only. And every
argument vector contains the empty row of words, but there is no word to look it
up by. No other comparison loses an object, on whichever side the attribute
stands and whether or not it is negated.
-/

namespace Provenance.Guard

open Eval
open Provenance.Expr (Inert inert_val inert_ref inert_unary inert_binary)
open Members (ofObjects)

variable {c : Setting} {x : VarId} {negated : Bool} {e : Expr} {a : Access} {p : ObjectId}

/-! ## Literals as they are asked -/

def asked (negated : Bool) (e : Expr) (span : Option Span) : Expr :=
  if negated then .op .logNot e none span else e

theorem inert_of_access? {o : Operator} {name : String} {target : Expr} (h : access? o name target = some a) :
    Inert target := by
  rcases access?_eq_some h with ⟨-, ⟨-, t, r, rfl, hr, -⟩ | ⟨-, ⟨m, rfl⟩, -⟩ | ⟨-, ⟨s, rfl⟩, -⟩⟩ | ⟨-, -, hwords, -⟩
  · cases t <;> first | exact inert_val rfl | cases hr
  · exact inert_val rfl
  · exact inert_val rfl
  · rcases words_of_isWordList hwords with ⟨s, rfl⟩ | ⟨ss, -, rfl | rfl⟩
    · exact inert_val rfl
    · exact inert_val rfl
    · exact inert_words ss

theorem inert_of_fieldOf? {name : String} (h : fieldOf? x e = some name) : Inert e := by
  obtain ⟨span, rfl⟩ := fieldOf?_eq_some h
  exact inert_binary rfl (inert_ref x) (inert_val rfl)

theorem inert_of_literalAccess? (h : literalAccess? x negated e = some a) : Inert e := by
  obtain ⟨o, name, target, hr, ha⟩ := literalAccess?_eq_some h
  have ht : Inert target := inert_of_access? ha
  rcases hr with ⟨-, l, r, span, rfl, ⟨hl, rfl⟩ | ⟨hr, rfl⟩⟩ | ⟨-, -, l, span, rfl, hl⟩
  · exact inert_binary (by cases negated <;> rfl) (inert_of_fieldOf? hl) ht
  · exact inert_binary (by cases negated <;> rfl) ht (inert_of_fieldOf? hr)
  · exact inert_binary rfl (inert_of_fieldOf? hl) ht

theorem holdsOf_of_asked (h : literalAccess? x negated e = some a) {span : Option Span} {s s' : Session} {w : Value}
    (hx : s.scope.lookup? x = some (some (.object p))) (hrun : evaluate (asked negated e span) c s = (.ok (some w), s'))
    (hw : w.isTrue = true) : HoldsOf c x negated e p := by
  have hi : Inert e := inert_of_literalAccess? h
  cases negated with
  | false => exact ⟨false, s.scope, _, w, hx, Yields.of_run hrun, hw⟩
  | true =>
    have hin : Inert (.op .logNot e none span) := inert_unary rfl hi
    have hv : Gives false c s.scope _ (.op .logNot e none span) (some w) := Yields.of_run hrun
    obtain ⟨n, hn⟩ := hv.exists_succ
    rw [hn, gives_op hin, operation_of_isStrict _ rfl, yields_strict_unary (Steady.evaluateIn hi)] at hv
    rcases hv with ⟨-, hv⟩ | ⟨u, hu, hv⟩
    · cases hv
    · change Yields false c s.scope (orReport (.ok (.ofBool !u.isTrue)) span) (some w) at hv
      cases yields_orReport.mp hv
      rw [Value.isTrue_ofBool] at hw
      exact ⟨false, s.scope, n, u, hx, hu, by simpa using hw⟩

/-! ## What is found -/

theorem finds_joined {g : Graph} {es : List Expr} (h : joined .intersect es = some e) :
    finds g p e = es.all (finds g p) := by
  refine joined_induction (P := fun es e => finds g p e = es.all (finds g p)) (fun e => ?_) (fun es e a ih => ?_) h
  · rw [List.all_cons, List.all_nil, Bool.and_true]
  · have hpair : finds g p (.binary .intersect e a) = (finds g p e && finds g p a) := rfl
    rw [hpair, ih, List.all_append, List.all_cons, List.all_nil, Bool.and_true]

theorem testsEmptyTuple_of_eq {name : String} {target : Expr} (h : Reads x negated e .eq name target) :
    testsEmptyTuple e = false := by
  rcases h with ⟨-, l, r, span, rfl, -⟩ | ⟨h, -⟩
  · cases negated <;> rfl
  · cases h

theorem isEmptyTuple_of_words {ss : List String} {target : Expr} (hss : words target = ss.map (fun s => .val (.str s)))
    (htarget : target = .val (.tuple (ss.map .str)) ∨ target = .tuple (ss.map fun s => some (.val (.str s)))) :
    isEmptyTuple target = ss.isEmpty := by
  cases ss <;> rcases htarget with rfl | rfl <;> rfl

/-- A row of words is found under all of them, unless there are none. -/
theorem finds_words {ss : List String} {target : Expr} {score : Nat} (ht : Inert target)
    (hss : words target = ss.map (fun s => .val (.str s)))
    (htarget : target = .val (.tuple (ss.map .str)) ∨ target = .tuple (ss.map fun s => some (.val (.str s))))
    (hp : Admits c .contains "ARGV" target p) :
    finds c.graph p (Access.source ⟨score, .argv, .contains, target⟩) = !isEmptyTuple target := by
  cases hjoin : joined .intersect ((words target).map (lookupIn .argv)) with
  | none =>
    obtain rfl := eq_nil_of_joined hss hjoin
    simp only [Access.source, hjoin, Option.getD_none]
    rcases htarget with rfl | rfl <;> rfl
  | some e =>
    have hne : ss.isEmpty = false := by
      cases ss with
      | nil =>
        rw [hss] at hjoin
        cases hjoin
      | cons s ss => rfl
    have hall : ((words target).map (lookupIn .argv)).all (finds c.graph p) = true := by
      rw [List.all_eq_true, hss, List.map_map]
      intro e he
      obtain ⟨s, hs, rfl⟩ := List.mem_map.mp he
      exact has_object_iff_mem.mpr (findArgv_of_admits ht htarget hp hs)
    simp only [Access.source, hjoin, Option.getD_some]
    rw [finds_joined hjoin, hall, isEmptyTuple_of_words hss htarget, hne, Bool.not_false]

theorem finds_iff_of_holdsOf (h : literalAccess? x negated e = some a) (hg : c.graph.Stored)
    (hp : HoldsOf c x negated e p) :
    finds c.graph p a.source = true ↔ testsEmptyTuple e = false ∧
      (a.index = .inode → ∃ m, a.target = .val (.int m) ∧ ("INODE", .int m) ∈ c.graph.records p) := by
  obtain ⟨o, name, target, hr, ha⟩ := literalAccess?_eq_some h
  have ht : Inert target := inert_of_access? ha
  obtain ⟨q, τ, n, w, hx, hv, hw⟩ := hp
  have hadmits : Admits c o name target p := hr.admits hx (inert_of_literalAccess? h) hv hw
  rcases access?_eq_some ha with ⟨rfl, ⟨rfl, t, r, rfl, hobject, rfl⟩ | ⟨rfl, ⟨m, rfl⟩, rfl⟩ | ⟨rfl, ⟨s, rfl⟩, rfl⟩⟩ |
    ⟨rfl, rfl, hwords, rfl⟩
  · obtain ⟨b, t', q, τ, k, hb, hgives, hrel⟩ := hadmits
    cases eq_of_gives_val ht hgives
    obtain rfl := eq_of_number hb hobject hrel
    refine iff_of_true (has_ofObjects.mpr (List.mem_singleton.mpr rfl)) ⟨testsEmptyTuple_of_eq hr, fun h => ?_⟩
    cases h
  · refine (has_object_iff_mem.trans (Graph.mem_findInode_iff hg)).trans ⟨fun hm => ?_, fun hm => ?_⟩
    · exact ⟨testsEmptyTuple_of_eq hr, fun _ => ⟨m, rfl, hm⟩⟩
    · obtain ⟨m', hm', hrecord⟩ := hm.2 rfl
      cases hm'
      exact hrecord
  · obtain ⟨b, t', q, τ, k, hb, hgives, hrel⟩ := hadmits
    cases eq_of_gives_val ht hgives
    have hfound := findArgv_of_mentions hb (argvMentions_of_relates hrel)
    refine iff_of_true (has_object_iff_mem.mpr hfound) ⟨testsEmptyTuple_of_eq hr, fun h => ?_⟩
    cases h
  · obtain ⟨ho, -⟩ | ⟨-, -, l, span, rfl, -⟩ := hr
    · cases ho
    · have hindex : IndexKind.argv ≠ .inode := fun h => by cases h
      rcases words_of_isWordList hwords with ⟨s, rfl⟩ | ⟨ss, hss, htarget⟩
      · -- A text contains nothing, so the literal does not hold.
        obtain ⟨b, t', q, τ, k, hb, hgives, hrel⟩ := hadmits
        cases eq_of_gives_val ht hgives
        cases b <;> cases hrel
      · rw [finds_words ht hss htarget hadmits, Bool.not_eq_true']
        exact ⟨fun hne => ⟨hne, fun h => absurd h hindex⟩, And.left⟩

/-! ## What is covered -/

/-- Of an object for which the literal is true the source of its access gives a list with the object in
it, unless the literal asks for the empty row of words, or for an inode number that the object has no
record of as a whole number. -/
theorem source_covers_iff {span : Option Span} (h : literalAccess? x negated e = some a) (hg : c.graph.Stored)
    {s s' t : Session} {w : Value} (hx : s.scope.lookup? x = some (some (.object p)))
    (hrun : evaluate (asked negated e span) c s = (.ok (some w), s')) (hw : w.isTrue = true)
    (hlevels : t.depth + (words a.target).length + 2 ≤ c.limits.maxDepth) :
    (∃ kind l, (evaluate a.source c t).1 = .ok (some (.list kind l)) ∧ .object p ∈ l) ↔ testsEmptyTuple e = false ∧
      (a.index = .inode → ∃ m, a.target = .val (.int m) ∧ ("INODE", .int m) ∈ c.graph.records p) :=
  (evaluate_source_iff h hg hlevels).trans (finds_iff_of_holdsOf h hg (holdsOf_of_asked h hx hrun hw))

/-- The negated literal `5 != x.INODE`. -/
def otherThanFive : Expr :=
  .binary .ne (.int 5) (.field (.ref 0) "INODE")

def numbered : Setting :=
  ⟨(Graph.empty.set 1 "INODE" (.float (floatOfInt 5))).set 1 "INODE" (.int 5), ⟨10, none, 10⟩, .standard⟩

def boundToOne : Session :=
  { Session.new false with scope := [(0, some (.object 1))] }

theorem source_covers_iff_notOtherThanFive :
    literalAccess? 0 true otherThanFive = some ⟨80, .inode, .eq, .int 5⟩ ∧ numbered.graph.Stored ∧
      (evaluate (asked true otherThanFive none) numbered boundToOne).1 = .ok (some (.int 1)) ∧
      ∃ kind l, (evaluate (lookupIn .inode (.int 5)) numbered (.new false)).1 = .ok (some (.list kind l)) ∧
        .object 1 ∈ l := by
  have haccess : literalAccess? 0 true otherThanFive = some ⟨80, .inode, .eq, .int 5⟩ := rfl
  have hstored : numbered.graph.Stored := (Graph.Stored.empty.set 1 _ _).set 1 _ _
  have htrue : (evaluate (asked true otherThanFive none) numbered boundToOne).1 = .ok (some (.int 1)) := rfl
  refine ⟨haccess, hstored, htrue, ?_⟩
  refine (source_covers_iff haccess hstored rfl (Prod.ext htrue rfl) rfl (by decide)).mpr ⟨rfl, fun _ => ⟨5, rfl, ?_⟩⟩
  exact List.mem_cons_of_mem _ List.mem_cons_self

/-- The literals `x.INODE == 5` and `x.ARGV contains ()`. -/
def isFive : Expr :=
  .binary .eq (.field (.ref 0) "INODE") (.int 5)

def containsNothing : Expr :=
  .binary .contains (.field (.ref 0) "ARGV") (.val (.tuple []))

/-- One object, whose inode number is the floating point number 5. -/
def floating : Setting :=
  ⟨(Graph.empty.set 1 "INODE" (.float (floatOfInt 5))).set 1 "ARGV" (.tuple [.str "ls"]), ⟨10, none, 10⟩, .standard⟩

theorem sources_miss_floating :
    (∃ a, literalAccess? 0 false isFive = some a ∧
      (evaluate isFive floating boundToOne).1 = .ok (some (.int 1)) ∧
      (evaluate a.source floating boundToOne).1 = .ok (some (.listOf []))) ∧
    ∃ a, literalAccess? 0 false containsNothing = some a ∧
      (evaluate containsNothing floating boundToOne).1 = .ok (some (.int 1)) ∧
      (evaluate a.source floating boundToOne).1 = .ok none :=
  ⟨⟨_, rfl, rfl, rfl⟩, _, rfl, rfl, rfl⟩

end Provenance.Guard
