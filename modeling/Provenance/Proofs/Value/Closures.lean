import Mathlib.Order.Defs.PartialOrder
import Provenance.Proofs.Value.Domain

/-!
# Closures inside values

A registry lists what closures were made from, in the order in which they were
made, so the number of a closure is its place there. It `Holds` a value if
every closure inside the value has its entry. As long as there is a number for
every entry, the number alone tells closures apart that a registry holds
(`Registry.Holds.distinguished`).
-/

namespace Provenance

/-- Neither a closure, nor is there one inside. -/
def Value.isClosureFree (v : Value) : Bool :=
  v.everywhere fun w => w.tag != .lambda

theorem Value.isClosureFree_tuple {vs : List Value} :
    (tuple vs).isClosureFree = true ↔ ∀ v ∈ vs, v.isClosureFree = true :=
  everywhere_tuple rfl

theorem Value.isClosureFree_list {t : Option Tag} {vs : List Value} :
    (list t vs).isClosureFree = true ↔ ∀ v ∈ vs, v.isClosureFree = true :=
  everywhere_list rfl

/-- The values without closures, as long as no literal has one. -/
theorem Domain.closed_closureFree {fits : Expr → Prop} (hliteral : ∀ v, fits (.val v) → v.isClosureFree = true)
    (hpart : ∀ e x a, fits e → (x, a) ∈ e.parts → fits a) :
    Domain.Closed ⟨fun v => v.isClosureFree = true, fits⟩ where
  literal := hliteral _
  part := hpart _ _ _
  body h := by cases h
  int _ := rfl
  float _ := rfl
  str _ := rfl
  object _ := rfl
  tuple := Value.isClosureFree_tuple
  member h := Value.isClosureFree_list.mp h
  list h _ := Value.isClosureFree_list.mpr h
  concat ha hb h := Value.isClosureFree_list.mpr
    (Tagged.forall_concat h (Value.isClosureFree_list.mp ha) (Value.isClosureFree_list.mp hb))

namespace Expr

def isNative : Expr → Bool
  | val v => v.isClosureFree
  | _ => true

/-- No literal of the expression is a closure or has one inside: closures come about only as it is evaluated. -/
def Native (e : Expr) : Prop :=
  ∀ a ∈ e.nodes, a.isNative = true

theorem Native.literal {v : Value} (h : (val v).Native) : v.isClosureFree = true :=
  h _ (self_mem_nodes _)

theorem Native.part {e a : Expr} {x : Option VarId} (h : e.Native) (ha : (x, a) ∈ e.parts) : a.Native :=
  fun b hb => h b (nodes_subset_of_mem_parts ha hb)

end Expr

/-! ## What is inside -/

@[ext]
structure Closure where
  id : UInt64
  x : Var
  body : Expr

namespace Value

mutual

def closures : Value → List Closure
  | tuple vs => closuresAll vs
  | list _ vs => closuresAll vs
  | lambda id x body => [⟨id, x, body⟩]
  | _ => []

def closuresAll : List Value → List Closure
  | [] => []
  | v :: vs => v.closures ++ closuresAll vs

end

theorem mem_closuresAll {p : Closure} : ∀ {vs : List Value}, p ∈ closuresAll vs ↔ ∃ v ∈ vs, p ∈ v.closures
  | [] => by simp [closuresAll]
  | v :: vs => by simp [closuresAll, mem_closuresAll]

mutual

theorem closures_eq_nil : ∀ {v : Value}, v.isClosureFree = true → v.closures = []
  | tuple _, h => closuresAll_eq_nil (isClosureFree_tuple.mp h)
  | list _ _, h => closuresAll_eq_nil (isClosureFree_list.mp h)
  | lambda _ _ _, h => by cases h
  | int _, _ | float _, _ | str _, _ | object _, _ | range _ _, _ | all, _ | index _, _ | builtin _, _ => by
    simp [closures]

theorem closuresAll_eq_nil : ∀ {vs : List Value}, (∀ v ∈ vs, v.isClosureFree = true) → closuresAll vs = []
  | [], _ => by simp [closuresAll]
  | v :: vs, h => by
    rw [closuresAll, closures_eq_nil (h v List.mem_cons_self),
      closuresAll_eq_nil fun w hw => h w (List.mem_cons_of_mem v hw), List.nil_append]

end

/-- The numbers of the closures tell them apart. -/
def Distinguished (cs ds : List Closure) : Prop :=
  ∀ p ∈ cs, ∀ q ∈ ds, p.id = q.id → p = q

mutual

theorem closures_eq_of_equals : ∀ {v w : Value}, Distinguished v.closures w.closures → v.equals w = true →
    v.closures = w.closures
  | tuple vs, w, hid, h => by
    cases w <;> simp only [equals, Bool.false_eq_true] at h
    exact closuresAll_eq_of_equalAll hid h
  | list _ vs, w, hid, h => by
    cases w <;> simp only [equals, Bool.false_eq_true, Bool.and_eq_true] at h
    exact closuresAll_eq_of_equalAll hid h.2
  | lambda id x body, w, hid, h => by
    cases w <;> simp only [equals, Bool.false_eq_true, beq_iff_eq] at h
    exact congrArg ([·]) (hid _ (by simp [closures]) _ (by simp [closures]) h)
  | int _, w, _, h | float _, w, _, h | str _, w, _, h | object _, w, _, h | range _ _, w, _, h | all, w, _, h
  | index _, w, _, h | builtin _, w, _, h => by
    cases w <;> simp [equals] at h <;> simp [closures]

theorem closuresAll_eq_of_equalAll : ∀ {vs ws : List Value}, Distinguished (closuresAll vs) (closuresAll ws) →
    equalAll vs ws = true → closuresAll vs = closuresAll ws
  | [], ws, _, h => by
    cases ws with
    | nil => rfl
    | cons w ws => cases h
  | v :: vs, ws, hid, h => by
    cases ws with
    | nil => cases h
    | cons w ws =>
      rw [equalAll, Bool.and_eq_true] at h
      simp only [closuresAll] at hid ⊢
      rw [closures_eq_of_equals (fun p hp q hq => hid p (by simp [hp]) q (by simp [hq])) h.1,
        closuresAll_eq_of_equalAll (fun p hp q hq => hid p (by simp [hp]) q (by simp [hq])) h.2]

end

end Value

/-! ## Registries -/

/-- The variable and the body of each closure made so far. No closure is written into a body. -/
structure Registry where
  made : List (Var × Expr)
  native : ∀ p ∈ made, p.2.Native

namespace Registry

def empty : Registry :=
  ⟨[], fun _ hp => absurd hp List.not_mem_nil⟩

def file (R : Registry) (x : Var) (body : Expr) (h : body.Native) : Registry where
  made := R.made ++ [(x, body)]
  native p hp := by
    rcases List.mem_append.mp hp with hp | hp
    · exact R.native p hp
    · rwa [List.mem_singleton.mp hp]

/-- What the registry was when so many closures had been made. -/
def upTo (R : Registry) (n : Nat) : Registry :=
  ⟨R.made.take n, fun p hp => R.native p (List.mem_of_mem_take hp)⟩

def size (R : Registry) : Nat :=
  R.made.length

instance : Preorder Registry where
  le R S := R.made <+: S.made
  le_refl _ := List.prefix_refl _
  le_trans _ _ _ := List.IsPrefix.trans

theorem size_le {R S : Registry} (h : R ≤ S) : R.size ≤ S.size :=
  List.IsPrefix.length_le h

theorem le_file (R : Registry) {x : Var} {body : Expr} (h : body.Native) : R ≤ R.file x body h :=
  List.prefix_append _ _

theorem size_file (R : Registry) {x : Var} {body : Expr} (h : body.Native) : (R.file x body h).size = R.size + 1 := by
  simp [size, file]

theorem upTo_size {R S : Registry} (h : R ≤ S) : S.upTo R.size = R := by
  cases R
  simp only [upTo, size, mk.injEq]
  exact (List.prefix_iff_eq_take.mp h).symm

theorem upTo_le (R : Registry) (n : Nat) : R.upTo n ≤ R :=
  List.take_prefix n R.made

def Entry (R : Registry) (p : Closure) : Prop :=
  ∃ i, R.made[i]? = some (p.x, p.body) ∧ p.id = UInt64.ofNat i

/-- Each closure inside the value has its entry. -/
def Holds (R : Registry) (v : Value) : Prop :=
  ∀ p ∈ v.closures, R.Entry p

variable {R S : Registry} {p q : Closure}

theorem ofNat_injOn {i j : Nat} (hi : i < UInt64.size) (hj : j < UInt64.size) (h : UInt64.ofNat i = UInt64.ofNat j) :
    i = j := by
  have hnat := congrArg UInt64.toNat h
  rwa [UInt64.toNat_ofNat_of_lt' hi, UInt64.toNat_ofNat_of_lt' hj] at hnat

theorem lt_size {i : Nat} {e : Var × Expr} (h : R.made[i]? = some e) : i < R.size :=
  (List.getElem?_eq_some_iff.mp h).1

theorem Entry.mono (h : R.Entry p) (hRS : R ≤ S) : S.Entry p := by
  obtain ⟨i, hi, hid⟩ := h
  have hS := List.prefix_iff_getElem?.mp hRS i (lt_size hi)
  rw [← List.getElem?_eq_getElem (lt_size hi), hi] at hS
  exact ⟨i, hS, hid⟩

theorem Entry.id_ne (h : R.Entry p) (hsize : R.size < UInt64.size) : p.id ≠ UInt64.ofNat R.size := by
  obtain ⟨i, hi, hid⟩ := h
  intro heq
  have hlt := lt_size hi
  have := ofNat_injOn (Nat.lt_trans hlt hsize) hsize (hid.symm.trans heq)
  omega

theorem Entry.eq_of_id_eq (hp : R.Entry p) (hq : R.Entry q) (hsize : R.size ≤ UInt64.size) (hid : p.id = q.id) :
    p = q := by
  obtain ⟨i, hi, hpi⟩ := hp
  obtain ⟨j, hj, hqj⟩ := hq
  have hij : i = j := ofNat_injOn (Nat.lt_of_lt_of_le (lt_size hi) hsize) (Nat.lt_of_lt_of_le (lt_size hj) hsize)
    (hpi.symm.trans (hid.trans hqj))
  subst hij
  obtain ⟨hx, hbody⟩ := Prod.mk.inj (Option.some.inj (hi.symm.trans hj))
  exact Closure.ext hid hx hbody

theorem Holds.mono {v : Value} (h : R.Holds v) (hRS : R ≤ S) : S.Holds v :=
  fun p hp => (h p hp).mono hRS

theorem holds_of_isClosureFree {v : Value} (h : v.isClosureFree = true) : R.Holds v := by
  intro p hp
  rw [Value.closures_eq_nil h] at hp
  cases hp

theorem holds_tuple {vs : List Value} : R.Holds (.tuple vs) ↔ ∀ v ∈ vs, R.Holds v := by
  simp only [Holds, Value.closures, Value.mem_closuresAll]
  exact ⟨fun h v hv p hp => h p ⟨v, hv, hp⟩, fun h p ⟨v, hv, hp⟩ => h v hv p hp⟩

theorem holds_list {t : Option Tag} {vs : List Value} : R.Holds (.list t vs) ↔ ∀ v ∈ vs, R.Holds v := by
  simp only [Holds, Value.closures, Value.mem_closuresAll]
  exact ⟨fun h v hv p hp => h p ⟨v, hv, hp⟩, fun h p ⟨v, hv, hp⟩ => h v hv p hp⟩

theorem holds_lambda {id : UInt64} {x : Var} {body : Expr} : R.Holds (.lambda id x body) ↔ R.Entry ⟨id, x, body⟩ := by
  simp [Holds, Value.closures]

theorem file_holds (R : Registry) {x : Var} {body : Expr} (h : body.Native) :
    (R.file x body h).Holds (.lambda (UInt64.ofNat R.size) x body) :=
  holds_lambda.mpr ⟨R.size, List.getElem?_concat_length, rfl⟩

theorem native_of_holds {id : UInt64} {x : Var} {body : Expr} (h : R.Holds (.lambda id x body)) : body.Native := by
  obtain ⟨i, hi, -⟩ := holds_lambda.mp h
  exact R.native _ (List.mem_of_getElem? hi)

/-- Values in which a registry holds the closures are told apart by their numbers, also where they are compared. -/
theorem Holds.distinguished {v w : Value} (hv : R.Holds v) (hw : R.Holds w) (hsize : R.size ≤ UInt64.size) :
    Value.Distinguished v.closures w.closures :=
  fun p hp q hq => (hv p hp).eq_of_id_eq (hw q hq) hsize

end Registry

/-- The values in which the registry holds the closures. There are more of them with each closure made. -/
def Domain.filed : Domain.Growing Registry where
  value R v := R.Holds v
  expr := Expr.Native

open Registry in
theorem Domain.closed_filed (R : Registry) : (Domain.filed.stage R).Closed where
  literal h := holds_of_isClosureFree h.literal
  part h ha := h.part ha
  body := native_of_holds
  int _ := holds_of_isClosureFree rfl
  float _ := holds_of_isClosureFree rfl
  str _ := holds_of_isClosureFree rfl
  object _ := holds_of_isClosureFree rfl
  tuple := holds_tuple
  member h := holds_list.mp h
  list h _ := holds_list.mpr h
  concat ha hb h := holds_list.mpr (Tagged.forall_concat h (holds_list.mp ha) (holds_list.mp hb))

end Provenance
