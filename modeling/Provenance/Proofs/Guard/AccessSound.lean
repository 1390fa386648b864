import Provenance.Proofs.Graph.Lookup
import Provenance.Proofs.Guard.Fetch

/-!
# An access finds what its literal admits

`fetches_literal`: what the source of an access gives is a list of objects, and
every object of which the literal holds is in it. For this the literal is first
read back from the access (`Reads`): it compares an attribute of the object with
a value that does not depend on the object.
-/

namespace Provenance.Guard

open Eval
open Provenance.Expr (Inert inert_val)
open Members (ofObjects)

variable {q : Bool} {c : Setting} {σ : Scope (Option Value)} {n : Nat}

/-! ## The literal that is recognized -/

theorem fieldOf?_eq_some {x : VarId} {e : Expr} {name : String} (h : fieldOf? x e = some name) :
    ∃ span, e = .op .field (.ref x) (some (.val (.str name))) span := by
  unfold fieldOf? at h
  split at h
  · rename_i left e span
    split at h
    · rename_i hvar
      cases left <;> simp [Expr.isVar] at hvar
      subst hvar
      cases e <;> simp only [Expr.literal?, Option.bind_some, Option.bind_none, reduceCtorEq] at h
      rename_i v
      cases v <;> simp [Value.str?] at h
      subst h
      exact ⟨span, rfl⟩
    · cases h
  · cases h

theorem attribute_of_field {x : VarId} {e : Expr} {name : String} (h : fieldOf? x e = some name) {p : ObjectId}
    (hx : σ.lookup? x = some (some (.object p))) {w : Value} (hi : Inert e) (hv : Gives q c σ n e (some w)) :
    c.graph.attribute? p name = some w := by
  obtain ⟨span, rfl⟩ := fieldOf?_eq_some h
  obtain ⟨n, rfl⟩ := hv.exists_succ
  obtain ⟨a, b, ha, hb, hf⟩ := (gives_strict hi rfl).mp hv
  cases hx.symm.trans (lookup?_of_gives ha)
  cases eq_of_gives_val hi.right hb
  change Yields q c σ (graph >>= fun g => pure (g.attribute? p name)) (some w) at hf
  rw [yields_bind respected_carriesOver.graph fun _ => respected_carriesOver.pure _] at hf
  obtain ⟨g, hg, hf⟩ := hf
  rw [yields_graph.mp hg] at hf
  exact (yields_pure.mp hf).symm

theorem operands?_eq_some {x : VarId} {o o' : Operator} {l r target : Expr} {name : String}
    (h : operands? x o l r = some (o', name, target)) :
    o' = o ∧ fieldOf? x l = some name ∧ target = r ∨ o.converse? = some o' ∧ fieldOf? x r = some name ∧ target = l := by
  unfold operands? at h
  split at h
  · cases h
    exact Or.inl ⟨rfl, ‹_›, rfl⟩
  · obtain ⟨o₁, ho, heq⟩ := Option.map_eq_some_iff.mp h
    cases heq
    exact Or.inr ⟨ho, ‹_›, rfl⟩
  · cases h

theorem exists_int_of_isInt {e : Expr} (h : e.literal?.any isInt = true) : ∃ m, e = .val (.int m) := by
  match e, h with
  | .val (.int m), _ => exact ⟨m, rfl⟩

theorem exists_str_of_isWord {e : Expr} (h : e.literal?.any isWord = true) : ∃ s, e = .val (.str s) := by
  match e, h with
  | .val (.str s), _ => exact ⟨s, rfl⟩

theorem access?_eq_some {o : Operator} {name : String} {target : Expr} {a : Access}
    (h : access? o name target = some a) :
    o = .eq ∧ (name = "PNODE" ∧ (∃ t r, target = .val t ∧ objectOf? t = some r ∧ a = ⟨100, .identity, o, .object r⟩) ∨
        name = "INODE" ∧ (∃ m, target = .val (.int m)) ∧ a = ⟨80, .inode, o, target⟩ ∨
        name = "ARGV" ∧ (∃ s, target = .val (.str s)) ∧ a = ⟨60, .argv, o, target⟩) ∨
      o = .contains ∧ name = "ARGV" ∧ isWordList target = true ∧ a = ⟨40, .argv, o, target⟩ := by
  unfold access? at h
  split at h
  · refine Or.inl ⟨rfl, ?_⟩
    by_cases hp : name = "PNODE"
    · rw [if_pos hp] at h
      obtain ⟨r, hr, rfl⟩ := Option.map_eq_some_iff.mp h
      obtain ⟨t, ht, hr⟩ := Option.bind_eq_some_iff.mp hr
      cases target <;> cases ht
      exact Or.inl ⟨hp, t, r, rfl, hr, rfl⟩
    · rw [if_neg hp] at h
      by_cases hi : name = "INODE"
      · rw [if_pos hi, Option.ite_none_right_eq_some] at h
        exact Or.inr (Or.inl ⟨hi, exists_int_of_isInt h.1, (Option.some.inj h.2).symm⟩)
      · rw [if_neg hi, Option.ite_none_right_eq_some, Option.ite_none_right_eq_some] at h
        exact Or.inr (Or.inr ⟨h.1, exists_str_of_isWord h.2.1, (Option.some.inj h.2.2).symm⟩)
  · rw [Option.ite_none_right_eq_some, Bool.and_eq_true, decide_eq_true_iff] at h
    exact Or.inr ⟨rfl, h.1.1, h.1.2, (Option.some.inj h.2).symm⟩
  · cases h

/-- The literal compares an attribute of the variable with the target: by `==`, on either side, or
by `!=` where it is negated, or by `contains`. -/
def Reads (x : VarId) (negated : Bool) (e : Expr) (o : Operator) (name : String) (target : Expr) : Prop :=
  (o = .eq ∧ ∃ l r span, e = .op (if negated then .ne else .eq) l (some r) span ∧
      (fieldOf? x l = some name ∧ target = r ∨ fieldOf? x r = some name ∧ target = l)) ∨
    (o = .contains ∧ negated = false ∧ ∃ l span, e = .op .contains l (some target) span ∧ fieldOf? x l = some name)

theorem literalAccess?_eq_some {x : VarId} {negated : Bool} {e : Expr} {a : Access}
    (h : literalAccess? x negated e = some a) :
    ∃ o name target, Reads x negated e o name target ∧ access? o name target = some a := by
  unfold literalAccess? at h
  split at h
  · rename_i o l r span
    split at h
    · cases h
    · rename_i o₁ ho
      split at h
      · cases h
      · rename_i o₂ name target hop
        split at h
        · cases h
        · refine ⟨o₂, name, target, ?_, h⟩
          have hop' := operands?_eq_some hop
          rcases access?_eq_some h with ⟨rfl, -⟩ | ⟨rfl, -⟩
          · -- Only `==` is its own converse, and only `!=` its complement.
            have ho₁ : o₁ = .eq := by
              rcases hop' with ⟨h, -⟩ | ⟨h, -⟩
              · exact h.symm
              · exact (Option.some.inj (Operator.converse?_of_converse? h)).symm
            subst ho₁
            refine Or.inl ⟨rfl, l, r, span, ?_, hop'.imp And.right And.right⟩
            cases negated with
            | false =>
              cases ho
              rfl
            | true =>
              cases Operator.complement?_of_complement? ho
              rfl
          · rcases hop' with ⟨rfl, hl, rfl⟩ | ⟨h, -⟩
            · cases negated with
              | false =>
                cases ho
                exact Or.inr ⟨rfl, rfl, l, span, rfl, hl⟩
              | true => cases Operator.complement?_of_complement? ho
            · cases Operator.converse?_of_converse? h
  · cases h

theorem Reads.mem_parts {x : VarId} {negated : Bool} {e target : Expr} {o : Operator} {name : String}
    (h : Reads x negated e o name target) : (none, target) ∈ e.parts := by
  rcases h with ⟨-, l, r, span, rfl, ⟨-, rfl⟩ | ⟨-, rfl⟩⟩ | ⟨-, -, l, span, rfl, -⟩
  · exact Expr.right_mem_parts
  · exact Expr.left_mem_parts
  · exact Expr.right_mem_parts

theorem Reads.inert {x : VarId} {negated : Bool} {e target : Expr} {o : Operator} {name : String}
    (h : Reads x negated e o name target) (hi : Inert e) : Inert target :=
  hi.part h.mem_parts

def Relates (o : Operator) (b t : Value) : Prop :=
  match o with
  | .eq => b.equals t = true ∨ t.equals b = true
  | .contains => Operate.contains b t = .ok true
  | _ => False

def Admits (c : Setting) (o : Operator) (name : String) (target : Expr) (p : ObjectId) : Prop :=
  ∃ b t q τ k, c.graph.attribute? p name = some b ∧ Gives q c τ k target (some t) ∧ Relates o b t

theorem contains_of_isTrue {engine : Glob.Engine} {u v w : Value} (h : Operate.binary engine .contains u v = .ok w) (hw : w.isTrue = true) :
    Operate.contains u v = .ok true := by
  obtain ⟨b, hb, rfl⟩ := Operate.exists_of_map_eq_ok h
  rw [Value.isTrue_ofBool] at hw
  rw [hb, hw]

theorem Reads.admits {x : VarId} {negated : Bool} {e target : Expr} {o : Operator} {name : String}
    (h : Reads x negated e o name target) {p : ObjectId} (hx : σ.lookup? x = some (some (.object p))) {w : Value}
    (hi : Inert e) (hv : Gives q c σ n e (some w)) (hw : w.isTrue = !negated) : Admits c o name target p := by
  obtain ⟨n, rfl⟩ := hv.exists_succ
  rcases h with ⟨rfl, l, r, span, rfl, hside⟩ | ⟨rfl, rfl, l, span, rfl, hl⟩
  · obtain ⟨u, v, hu, hr, hf⟩ := (gives_computed hi (by cases negated <;> rfl) (by cases negated <;> rfl)).mp hv
    have heq : u.equals v = true := by
      cases negated with
      | false =>
        cases hf
        rwa [Value.isTrue_ofBool] at hw
      | true =>
        cases hf
        simpa [Value.isTrue_ofBool] using hw
    rcases hside with ⟨hname, rfl⟩ | ⟨hname, rfl⟩
    · exact ⟨u, v, q, σ, n, attribute_of_field hname hx hi.left hu, hr, Or.inl heq⟩
    · exact ⟨v, u, q, σ, n, attribute_of_field hname hx hi.right hr, hu, Or.inr heq⟩
  · obtain ⟨u, v, hu, hr, hf⟩ := (gives_computed hi rfl rfl).mp hv
    exact ⟨u, v, q, σ, n, attribute_of_field hl hx hi.left hu, hr, contains_of_isTrue hf hw⟩

/-! ## The source of an access -/

def isEmptyTuple : Expr → Bool
  | .val (.tuple []) => true
  | .tuple [] => true
  | _ => false

theorem exists_strs : ∀ {ws : List Value}, ws.all isWord = true → ∃ ss : List String, ws = ss.map .str
  | [], _ => ⟨[], rfl⟩
  | w :: ws, h => by
    rw [List.all_cons, Bool.and_eq_true] at h
    obtain ⟨ss, rfl⟩ := exists_strs h.2
    cases w with
    | str s => exact ⟨s :: ss, rfl⟩
    | _ => cases h.1

theorem exists_fields : ∀ {ws : List (Option Expr)}, (ws.all fun w => (w.bind Expr.literal?).any isWord) = true →
    ∃ ss : List String, ws = ss.map fun s => some (.val (.str s))
  | [], _ => ⟨[], rfl⟩
  | w :: ws, h => by
    rw [List.all_cons, Bool.and_eq_true] at h
    obtain ⟨ss, rfl⟩ := exists_fields h.2
    match w, h.1 with
    | some (.val (.str s)), _ => exact ⟨s :: ss, rfl⟩

theorem words_of_isWordList {target : Expr} (h : isWordList target = true) :
    (∃ s, target = .val (.str s)) ∨ ∃ ss : List String, words target = ss.map (fun s => .val (.str s)) ∧
      (target = .val (.tuple (ss.map .str)) ∨ target = .tuple (ss.map fun s => some (.val (.str s)))) := by
  unfold isWordList at h
  split at h
  · exact Or.inl ⟨_, rfl⟩
  · obtain ⟨ss, rfl⟩ := exists_strs h
    exact Or.inr ⟨ss, by simp [words], Or.inl rfl⟩
  · obtain ⟨ss, rfl⟩ := exists_fields h
    exact Or.inr ⟨ss, by simp [words, List.filterMap_map], Or.inr rfl⟩
  · cases h

theorem reduceOption_of_words : ∀ {ss : List String} {rs : List (Option Value)},
    List.Forall₂ (fun e r => Gives q c σ n e r) (ss.map fun s => .val (.str s)) rs → rs.reduceOption = ss.map .str
  | [], _, .nil => rfl
  | s :: ss, _, .cons hr hrs => by
    have hval := eq_of_gives_val (inert_val rfl) hr
    subst hval
    rw [List.reduceOption_cons_of_some, reduceOption_of_words hrs, List.map_cons]

theorem map_some_words (ss : List String) :
    (ss.map fun s => some (Expr.val (.str s))) = (ss.map fun s => Expr.val (.str s)).map some := by
  rw [List.map_map]
  rfl

theorem inert_of_mem_words {ss : List String} {e : Expr} (h : e ∈ ss.map fun s => Expr.val (.str s)) : Inert e := by
  obtain ⟨s, -, rfl⟩ := List.mem_map.mp h
  exact inert_val rfl

theorem inert_words (ss : List String) : Inert (.tuple (ss.map fun s => some (.val (.str s)))) := by
  rw [map_some_words]
  exact Expr.inert_tuple fun _ => inert_of_mem_words

theorem value_of_words {ss : List String} {t : Value}
    (h : Gives q c σ n (.tuple (ss.map fun s => some (.val (.str s)))) (some t)) :
    t = .tuple (ss.map .str) ∨ ∃ s, t = .str s := by
  have hi := inert_words ss
  rw [map_some_words] at h hi
  obtain ⟨n, rfl⟩ := h.exists_succ
  have hsteady : ∀ e ∈ ss.map (fun s => Expr.val (.str s)), Steady (evaluateIn n e) := fun e he =>
    Steady.evaluateIn (inert_of_mem_words he)
  have hfields : Steady (fieldValues (evaluateIn n) ((ss.map fun s => Expr.val (.str s)).map some)) :=
    respected_carriesOver.fieldValues (respected_carriesOver.sameFields fun a ha => hsteady a (by simpa using ha))
  rw [gives_succ hi, node, yields_bind hfields fun _ => respected_carriesOver.pure _] at h
  obtain ⟨vs, hvs, h⟩ := h
  obtain ⟨rs, hrs, rfl⟩ := (yields_fieldValues hsteady).mp hvs
  rw [reduceOption_of_words hrs] at h
  have ht := yields_pure.mp h
  rcases ss with - | ⟨s, - | ⟨s', ss⟩⟩
  · cases ht
  · exact Or.inr ⟨s, Option.some.inj ht⟩
  · exact Or.inl (Option.some.inj ht)

/-- No object gives its inode number as a floating point number. -/
def WholeInodes (g : Graph) : Prop :=
  ∀ o ∈ g.objects, ∀ r ∈ o.2, r.1 = "INODE" → ∀ x, r.2 ≠ .float x

section
variable {p : ObjectId} {b : Value}

theorem eq_of_number {t : Value} {r : ObjectId} (h : c.graph.attribute? p "PNODE" = some b) (ht : objectOf? t = some r)
    (hr : Relates .eq b t) : p = r := by
  obtain rfl := Graph.number_of_attribute? h
  cases t with
  | int m =>
    have hm : m = p.toInt64 := by
      rcases hr with hr | hr
      · exact (by simpa [Value.equals] using hr : p.toInt64 = m).symm
      · simpa [Value.equals] using hr
    simp only [objectOf?] at ht
    split at ht
    · cases ht
      rw [hm, UInt64.toUInt64_toInt64]
    · cases ht
  | object s => rcases hr with hr | hr <;> simp [Value.equals] at hr
  | _ => cases ht

theorem findInode_of_relates {m : Int64} (hw : WholeInodes c.graph) (h : c.graph.attribute? p "INODE" = some b)
    (hr : Relates .eq b (.int m)) : .object p ∈ (c.graph.findInode m).members := by
  refine Graph.mem_matching h (by decide) ?_
  have hb : b = .int m := by
    cases b with
    | int k =>
      have : k = m := by
        rcases hr with hr | hr
        · simpa [Value.equals] using hr
        · exact (by simpa [Value.equals] using hr : m = k).symm
      rw [this]
    | float x =>
      obtain ⟨rs, hrs, hmem⟩ := Graph.record_of_attribute? h (by decide)
      exact absurd rfl (hw _ hrs _ hmem rfl x)
    | _ => rcases hr with hr | hr <;> simp [Value.equals] at hr
  rw [hb]
  simp [Value.int?]

theorem findArgv_of_mentions {s : String} (h : c.graph.attribute? p "ARGV" = some b)
    (hs : Graph.argvMentions s b = true) : .object p ∈ (c.graph.findArgv s).members :=
  Graph.mem_matching h (by decide) (by simpa using hs)

theorem argvMentions_of_relates {s : String} (hr : Relates .eq b (.str s)) : Graph.argvMentions s b = true := by
  have hb : b = .str s := by
    rcases hr with hr | hr
    · exact Graph.eq_str_of_equals hr
    · cases b <;> simp [Value.equals] at hr
      rw [hr]
  rw [hb]
  exact Graph.argvMentions_self s

end

theorem findArgv_of_admits {ss : List String} {target : Expr} (ht : Inert target)
    (htarget : target = .val (.tuple (ss.map .str)) ∨ target = .tuple (ss.map fun s => some (.val (.str s))))
    {p : ObjectId} (h : Admits c .contains "ARGV" target p) {s : String} (hs : s ∈ ss) :
    .object p ∈ (c.graph.findArgv s).members := by
  obtain ⟨b, t, q, τ, k, hb, hg, hrel⟩ := h
  have htuple : t = .tuple (ss.map .str) := by
    rcases htarget with rfl | rfl
    · exact Option.some.inj (eq_of_gives_val ht hg)
    · refine (value_of_words hg).resolve_right ?_
      intro h
      obtain ⟨s, rfl⟩ := h
      cases b <;> cases hrel
  subst htuple
  exact findArgv_of_mentions hb (Graph.argvMentions_of_contains hrel hs)

/-- Each word is looked up by itself, and an object is to be found under all of them. -/
theorem fetches_words {ss : List String} {target : Expr} {score : Nat} (ht : Inert target)
    (hss : words target = ss.map (fun s => .val (.str s)))
    (htarget : target = .val (.tuple (ss.map .str)) ∨ target = .tuple (ss.map fun s => some (.val (.str s))))
    (hempty : isEmptyTuple target = false) :
    Fetches c σ (Admits c .contains "ARGV" target) (Access.source ⟨score, .argv, .contains, target⟩) := by
  have hall : ∀ e ∈ (words target).map (lookupIn .argv), Fetches c σ (Admits c .contains "ARGV" target) e := by
    intro e he
    rw [hss, List.map_map, List.mem_map] at he
    obtain ⟨s, hs, rfl⟩ := he
    exact fetches_lookupIn rfl rfl fun p h => findArgv_of_admits ht htarget h hs
  have hjoin : ∃ e, joined .intersect ((words target).map (lookupIn .argv)) = some e := by
    rw [hss]
    cases ss with
    | nil => rcases htarget with rfl | rfl <;> cases hempty
    | cons s ss => exact ⟨_, rfl⟩
  obtain ⟨e, he⟩ := hjoin
  have hsource : Access.source ⟨score, .argv, .contains, target⟩ = e := by
    simp only [Access.source, he, Option.getD_some]
  rw [hsource]
  exact joined_closed fetches_intersect hall he

/-- The source of an access gives every object that the comparison admits. -/
theorem fetches_source {o : Operator} {name : String} {target : Expr} {a : Access}
    (ha : access? o name target = some a) (hw : WholeInodes c.graph)
    (hempty : o = .contains → isEmptyTuple target = false) (ht : Inert target) :
    Fetches c σ (Admits c o name target) a.source := by
  rcases access?_eq_some ha with ⟨rfl, ⟨rfl, t, r, rfl, hr, rfl⟩ | ⟨rfl, ⟨m, rfl⟩, rfl⟩ | ⟨rfl, ⟨s, rfl⟩, rfl⟩⟩ |
    ⟨rfl, rfl, hwords, rfl⟩
  · refine fetches_objects [r] ?_
    intro p h
    obtain ⟨b, t', q, τ, k, hb, hg, hrel⟩ := h
    cases eq_of_gives_val ht hg
    rw [List.mem_singleton]
    exact eq_of_number hb hr hrel
  · refine fetches_lookupIn rfl rfl ?_
    intro p h
    obtain ⟨b, t', q, τ, k, hb, hg, hrel⟩ := h
    cases eq_of_gives_val ht hg
    exact findInode_of_relates hw hb hrel
  · refine fetches_lookupIn rfl rfl ?_
    intro p h
    obtain ⟨b, t', q, τ, k, hb, hg, hrel⟩ := h
    cases eq_of_gives_val ht hg
    exact findArgv_of_mentions hb (argvMentions_of_relates hrel)
  · rcases words_of_isWordList hwords with ⟨s, rfl⟩ | ⟨ss, hss, htarget⟩
    · -- A text contains nothing, so nothing has to be found.
      refine fetches_lookupIn rfl rfl ?_
      intro p h
      obtain ⟨b, t', q, τ, k, hb, hg, hrel⟩ := h
      cases eq_of_gives_val ht hg
      cases b <;> cases hrel
    · exact fetches_words ht hss htarget (hempty rfl)

def testsEmptyTuple : Expr → Bool
  | .op .contains _ (some r) _ => isEmptyTuple r
  | _ => false

def HoldsOf (c : Setting) (x : VarId) (negated : Bool) (e : Expr) (p : ObjectId) : Prop :=
  ∃ q τ n w, τ.lookup? x = some (some (.object p)) ∧ Gives q c τ n e (some w) ∧ w.isTrue = !negated

section
variable {x : VarId} {negated : Bool} {e : Expr} {a : Access} (h : literalAccess? x negated e = some a) (hi : Inert e)
include h hi

theorem mem_ids_of_holdsOf {p : ObjectId} (hp : HoldsOf c x negated e p) : p ∈ c.graph.ids := by
  obtain ⟨o, name, target, hr, -⟩ := literalAccess?_eq_some h
  obtain ⟨q, τ, n, w, hx, hv, hw⟩ := hp
  obtain ⟨b, -, -, -, -, hb, -⟩ := hr.admits hx hi hv hw
  exact Graph.mem_ids_of_attribute? hb

theorem fetches_literal (hw : WholeInodes c.graph) (hempty : testsEmptyTuple e = false) :
    Fetches c σ (HoldsOf c x negated e) a.source := by
  obtain ⟨o, name, target, hr, ha⟩ := literalAccess?_eq_some h
  refine (fetches_source ha hw (fun ho => ?_) (hr.inert hi)).mono fun p ⟨q, τ, n, w, hx, hv, htrue⟩ =>
    hr.admits hx hi hv htrue
  rcases hr with ⟨rfl, -⟩ | ⟨-, -, l, span, rfl, -⟩
  · cases ho
  · exact hempty

end

end Provenance.Guard
