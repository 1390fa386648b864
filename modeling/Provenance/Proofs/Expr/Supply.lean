import Provenance.Expr.Build
import Provenance.Proofs.Value.Closures

/-!
# Variables that occur nowhere

A supply of variables for an expression starts above the largest variable of its
nodes. The nodes take in the closures that stand as literals by themselves, not
those inside tuple and list literals, whose variables may then be handed out
again: what a supply hands out is fresh exactly if no such `Hidden` variable is
larger than all those of the nodes (`fresh_iff`).
-/

namespace Provenance

namespace Expr

/-! ## Where a variable occurs -/

/-- The variable is bound or referred to somewhere in the expression, be it in a closure inside a literal. -/
inductive Occurs (y : VarId) : Expr → Prop
  | here {e : Expr} (self : e.varId? = some y) : Occurs y e
  | part {e a : Expr} {x : Option VarId} (mem : (x, a) ∈ e.parts) (inside : Occurs y a) : Occurs y e
  | closureVar {v : Value} {p : Closure} (mem : p ∈ v.closures) (self : p.x.id = y) : Occurs y (val v)
  | closureBody {v : Value} {p : Closure} (mem : p ∈ v.closures) (inside : Occurs y p.body) : Occurs y (val v)

def Visited (y : VarId) (e : Expr) : Prop :=
  y ∈ e.nodes.filterMap varId?

/-- The variable occurs in a closure inside a tuple or list literal, which has no nodes of its own. -/
def Hidden (y : VarId) (e : Expr) : Prop :=
  ∃ v, val v ∈ e.nodes ∧ v.tag ≠ .lambda ∧ ∃ p ∈ v.closures, p.x.id = y ∨ Occurs y p.body

section
variable {y : VarId} {e a : Expr}

theorem Visited.mono (h : Visited y a) (hsub : a.nodes ⊆ e.nodes) : Visited y e := by
  obtain ⟨b, hb, hy⟩ := List.mem_filterMap.mp h
  exact List.mem_filterMap.mpr ⟨b, hsub hb, hy⟩

theorem Hidden.mono (h : Hidden y a) (hsub : a.nodes ⊆ e.nodes) : Hidden y e := by
  obtain ⟨v, hv, hrest⟩ := h
  exact ⟨v, hsub hv, hrest⟩

theorem body_nodes_subset (id : UInt64) (x : Var) (body : Expr) : body.nodes ⊆ (val (.lambda id x body)).nodes := by
  simp [nodes, closureNodes]

theorem occurs_of_mem_nodes : ∀ {e : Expr}, a ∈ e.nodes → Occurs y a → Occurs y e
  | e, ha, h => by
    rcases mem_nodes ha with rfl | ⟨x, b, hb, hab⟩ | ⟨v, rfl, hav⟩
    · exact h
    · have := sizeOf_lt_of_mem_parts hb
      exact .part hb (occurs_of_mem_nodes hab h)
    · cases v with
      | lambda id x body => exact .closureBody (List.mem_singleton.mpr rfl) (occurs_of_mem_nodes (e := body) hav h)
      | _ => exact (List.not_mem_nil hav).elim
termination_by e => sizeOf e

theorem occurs_iff : Occurs y e ↔ Visited y e ∨ Hidden y e := by
  constructor
  · intro h
    induction h with
    | here self => exact Or.inl (List.mem_filterMap.mpr ⟨_, self_mem_nodes _, self⟩)
    | part mem inside ih =>
      have hsub := nodes_subset_of_mem_parts mem
      exact ih.imp (·.mono hsub) (·.mono hsub)
    | @closureVar v p mem self =>
      by_cases hv : v.tag = .lambda
      · cases v <;> cases hv
        cases List.mem_singleton.mp mem
        exact Or.inl (List.mem_filterMap.mpr ⟨_, self_mem_nodes _, congrArg some self⟩)
      · exact Or.inr ⟨v, self_mem_nodes _, hv, p, mem, Or.inl self⟩
    | @closureBody v p mem inside ih =>
      by_cases hv : v.tag = .lambda
      · cases v with
        | lambda id x body =>
          cases List.mem_singleton.mp mem
          have hsub := body_nodes_subset id x body
          exact ih.imp (·.mono hsub) (·.mono hsub)
        | _ => cases hv
      · exact Or.inr ⟨v, self_mem_nodes _, hv, p, mem, Or.inr inside⟩
  · intro h
    rcases h with h | ⟨v, hv, -, p, hp, h | h⟩
    · obtain ⟨b, hb, hy⟩ := List.mem_filterMap.mp h
      exact occurs_of_mem_nodes hb (.here hy)
    · exact occurs_of_mem_nodes hv (.closureVar hp h)
    · exact occurs_of_mem_nodes hv (.closureBody hp h)

end

/-! ## The largest variable -/

/-- One above the largest variable of the nodes. -/
def firstFree (e : Expr) : Nat :=
  match e.largestVar? with
  | none => 0
  | some k => k.toNat + 1

def larger (m : Option VarId) (id : VarId) : Option VarId :=
  some (match m with | none => id | some k => if k < id then id else k)

theorem le_larger {m : Option VarId} {id y : VarId} (h : m = some y ∨ y = id) : ∃ k, larger m id = some k ∧ y ≤ k := by
  cases m with
  | none => exact ⟨id, rfl, UInt32.le_of_eq (h.resolve_left nofun)⟩
  | some k =>
    refine ⟨if k < id then id else k, rfl, ?_⟩
    by_cases hlt : k < id
    · rw [if_pos hlt]
      rcases h with h | rfl
      · exact Option.some.inj h ▸ UInt32.le_of_lt hlt
      · exact UInt32.le_refl _
    · rw [if_neg hlt]
      rcases h with h | rfl
      · exact UInt32.le_of_eq (Option.some.inj h).symm
      · exact UInt32.not_lt.mp hlt

theorem le_foldl_larger {y : VarId} : ∀ (ids : List VarId) {m : Option VarId}, m = some y ∨ y ∈ ids →
    ∃ k, ids.foldl larger m = some k ∧ y ≤ k
  | [], _, h => ⟨y, h.resolve_right List.not_mem_nil, UInt32.le_refl y⟩
  | id :: ids, m, h => by
    by_cases hy : y ∈ ids
    · exact le_foldl_larger ids (Or.inr hy)
    · have hid : m = some y ∨ y = id := h.imp_right fun h => (List.mem_cons.mp h).resolve_right hy
      obtain ⟨k, hk, hle⟩ := le_larger hid
      obtain ⟨l, hl, hkl⟩ := le_foldl_larger ids (Or.inl hk)
      exact ⟨l, hl, UInt32.le_trans hle hkl⟩

theorem Visited.lt_firstFree {y : VarId} {e : Expr} (h : Visited y e) : y.toNat < e.firstFree := by
  obtain ⟨k, hk, hle⟩ := le_foldl_larger _ (m := none) (Or.inr h)
  have hlargest : e.largestVar? = some k := hk
  rw [firstFree, hlargest]
  exact Nat.lt_succ_of_le hle

end Expr

/-! ## What a supply hands out -/

namespace VarSupply

/-- A variable for every name, one after the other. -/
def take : VarSupply → List String → List Var
  | _, [] => []
  | s, name :: names => (s.fresh name).1 :: (s.fresh name).2.take names

theorem ids_take : ∀ {s : VarSupply} {names : List String},
    (s.take names).map Var.id = (List.range names.length).map fun i => s.next + UInt32.ofNat i
  | _, [] => rfl
  | s, name :: names => by
    rw [List.length_cons, List.range_succ_eq_map, take, List.map_cons, List.map_cons, ids_take, List.map_map]
    congr 1
    · exact (UInt32.add_zero s.next).symm
    · refine List.map_congr_left fun i _ => ?_
      show s.next + 1 + UInt32.ofNat i = s.next + UInt32.ofNat (i + 1)
      rw [UInt32.ofNat_add, UInt32.add_assoc, UInt32.add_comm 1]
      rfl

theorem next_after (e : Expr) : (after e).next = UInt32.ofNat e.firstFree := by
  unfold after Expr.firstFree
  cases e.largestVar? with
  | none => rfl
  | some k => simp

/-- Before the numbers run out, they are handed out in order. -/
theorem mem_ids_after {e : Expr} {names : List String} (h : e.firstFree + names.length ≤ UInt32.size) {y : VarId} :
    y ∈ ((after e).take names).map Var.id ↔ e.firstFree ≤ y.toNat ∧ y.toNat < e.firstFree + names.length := by
  simp only [ids_take, next_after, List.mem_map, List.mem_range, ← UInt32.ofNat_add]
  constructor
  · rintro ⟨i, hi, rfl⟩
    rw [UInt32.toNat_ofNat_of_lt' (by omega)]
    omega
  · rintro ⟨hle, hlt⟩
    refine ⟨y.toNat - e.firstFree, by omega, ?_⟩
    rw [Nat.add_sub_cancel' hle, UInt32.ofNat_toNat]

section
variable {e : Expr} {names : List String} {x : Var} (hroom : e.firstFree + names.length ≤ UInt32.size)
  (hx : x ∈ (after e).take names)
include hroom hx

theorem not_occurs_of_hidden_lt (h : ∀ y, Expr.Hidden y e → y.toNat < e.firstFree) : ¬ Expr.Occurs x.id e := by
  intro hocc
  have hle := ((mem_ids_after hroom).mp (List.mem_map_of_mem hx)).1
  rcases Expr.occurs_iff.mp hocc with hv | hh
  · exact Nat.not_lt.mpr hle hv.lt_firstFree
  · exact Nat.not_lt.mpr hle (h _ hh)

end

theorem fresh_iff (e : Expr) :
    (∀ names : List String, e.firstFree + names.length ≤ UInt32.size →
      ∀ x ∈ (after e).take names, ¬ Expr.Occurs x.id e) ↔
    ∀ y, Expr.Hidden y e → y.toNat < e.firstFree := by
  constructor
  · intro h y hy
    refine Nat.lt_of_not_le fun hle => ?_
    -- as many variables as it takes to reach `y`
    let names := List.replicate (y.toNat + 1 - e.firstFree) "v"
    have hroom : e.firstFree + names.length = y.toNat + 1 := by
      rw [List.length_replicate]
      omega
    have hmem : y ∈ ((after e).take names).map Var.id :=
      (mem_ids_after (hroom ▸ y.toNat_lt)).mpr (by omega)
    obtain ⟨x, hx, rfl⟩ := List.mem_map.mp hmem
    exact h names (hroom ▸ x.id.toNat_lt) x hx (Expr.occurs_iff.mpr (Or.inr hy))
  · exact fun h names hroom x hx => not_occurs_of_hidden_lt hroom hx h

/-- The closure in the tuple has no node, so the first variable handed out is its own. -/
theorem fresh_collides :
    ¬ ∀ (e : Expr) (names : List String), e.firstFree + names.length ≤ UInt32.size →
      ∀ x ∈ (after e).take names, ¬ Expr.Occurs x.id e := by
  intro h
  let e : Expr := .val (.tuple [.lambda 0 ⟨0, "x"⟩ (.ref 0)])
  exact h e ["v"] (by decide) ⟨0, "v"⟩ (List.mem_singleton.mpr rfl)
    (.closureVar (p := ⟨0, ⟨0, "x"⟩, .ref 0⟩) (List.mem_singleton.mpr rfl) rfl)

end VarSupply

end Provenance
