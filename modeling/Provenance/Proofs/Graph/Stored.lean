import Mathlib.Data.List.Count
import Provenance.Proofs.Graph.Lookup
import Provenance.Proofs.Value.ObjectLists

/-!
# Graphs as they are stored

A graph that has grown object by object and record by record keeps its objects
in rising order, and its edges agree with the records that they come from: an
object is among the children of another as often as that is among its parents
(`Stored.count_children`).
-/

namespace Provenance.Graph

/-- The graph has grown from the empty one. -/
inductive Stored : Graph → Prop
  | empty : Stored empty
  | addObject {g : Graph} (h : Stored g) (p : ObjectId) : Stored (g.addObject p)
  | set {g : Graph} (h : Stored g) (p : ObjectId) (name : String) (v : Value) : Stored (g.set p name v)

/-- Loading makes no other graphs. -/
theorem Stored.load {g : Graph} (h : Stored g) (p : ObjectId) (records : List Record) : Stored (g.load p records) := by
  have hfold : ∀ (records : List Record) {g : Graph}, Stored g →
      Stored (records.foldl (fun g r => g.set p r.1 r.2) g) := by
    intro records
    induction records with
    | nil => exact fun h => h
    | cons r rest ih => exact fun h => ih (h.set p r.1 r.2)
  exact hfold records (h.addObject p)

/-! ## Objects in rising order -/

abbrev Objects := List (ObjectId × List Record)

def Rising (objects : Objects) : Prop :=
  objects.Pairwise fun o o' => o.1 < o'.1

def recordsIn (objects : Objects) (q : ObjectId) : Option (List Record) :=
  (objects.find? fun o => o.1 == q).map Prod.snd

variable {objects : Objects} {p q : ObjectId} {rs : List Record}

theorem mem_ids_extend : q ∈ (extend p rs objects).map Prod.fst ↔ q = p ∨ q ∈ objects.map Prod.fst := by
  induction objects with
  | nil => simp [extend]
  | cons o rest ih =>
    rw [extend]
    split
    · rename_i h
      simp [← h]
    · split
      · simp
      · rw [List.map_cons, List.mem_cons, ih, List.map_cons, List.mem_cons, or_left_comm]

theorem lt_of_mem_extend {q : ObjectId} (hp : q < p) (h : ∀ o ∈ objects, q < o.1) :
    ∀ o ∈ extend p rs objects, q < o.1 := by
  intro o ho
  rcases mem_ids_extend.mp (List.mem_map_of_mem (f := Prod.fst) ho) with heq | hmem
  · rw [heq]
    exact hp
  · obtain ⟨o', ho', heq⟩ := List.mem_map.mp hmem
    rw [← heq]
    exact h o' ho'

theorem rising_extend (h : Rising objects) : Rising (extend p rs objects) := by
  induction objects with
  | nil => exact List.pairwise_singleton _ _
  | cons o rest ih =>
    obtain ⟨ho, hrest⟩ := List.pairwise_cons.mp h
    rw [extend]
    split
    · exact List.pairwise_cons.mpr ⟨ho, hrest⟩
    · split
      · rename_i hlt
        refine List.pairwise_cons.mpr ⟨fun o' ho' => ?_, h⟩
        rcases List.mem_cons.mp ho' with rfl | ho'
        · exact hlt
        · exact UInt64.lt_trans hlt (ho o' ho')
      · rename_i hne hlt
        have hgt : o.1 < p := UInt64.lt_of_le_of_ne (UInt64.not_lt.mp hlt) fun heq => hne heq.symm
        exact List.pairwise_cons.mpr ⟨lt_of_mem_extend hgt ho, ih hrest⟩

theorem recordsIn_cons (o : ObjectId × List Record) :
    recordsIn (o :: objects) q = if o.1 = q then some o.2 else recordsIn objects q := by
  rw [recordsIn, List.find?_cons]
  by_cases h : o.1 = q
  · rw [beq_iff_eq.mpr h, if_pos h]
    rfl
  · rw [beq_false_of_ne h, if_neg h]
    rfl

theorem recordsIn_eq_none (h : ∀ o ∈ objects, q < o.1) : recordsIn objects q = none := by
  rw [recordsIn, Option.map_eq_none_iff, List.find?_eq_none]
  intro o ho heq
  have hlt := h o ho
  rw [beq_iff_eq.mp heq] at hlt
  exact UInt64.lt_irrefl q hlt

theorem recordsIn_of_mem {objects : Objects} (h : Rising objects) {o : ObjectId × List Record} (ho : o ∈ objects) :
    recordsIn objects o.1 = some o.2 := by
  induction objects with
  | nil => cases ho
  | cons o' rest ih =>
    obtain ⟨hlt, hrest⟩ := List.pairwise_cons.mp h
    rw [recordsIn_cons]
    rcases List.mem_cons.mp ho with rfl | ho
    · exact if_pos rfl
    · rw [if_neg (UInt64.ne_of_lt (hlt o ho)), ih hrest ho]

theorem recordsIn_extend (h : Rising objects) :
    recordsIn (extend p rs objects) q =
      if q = p then some ((recordsIn objects p).getD [] ++ rs) else recordsIn objects q := by
  induction objects with
  | nil =>
    rw [extend, recordsIn_cons]
    simp only [eq_comm (a := p)]
    rfl
  | cons o rest ih =>
    obtain ⟨ho, hrest⟩ := List.pairwise_cons.mp h
    rw [extend]
    split
    · rename_i heq
      subst heq
      simp only [recordsIn_cons, eq_comm (a := o.1)]
      split <;> simp
    · rename_i hne
      split
      · rename_i hlt
        have hnone : recordsIn (o :: rest) p = none := recordsIn_eq_none fun o' ho' => by
          rcases List.mem_cons.mp ho' with rfl | ho'
          · exact hlt
          · exact UInt64.lt_trans hlt (ho o' ho')
        rw [recordsIn_cons, hnone]
        simp only [eq_comm (a := p)]
        rfl
      · simp only [recordsIn_cons, ih hrest, if_neg fun heq : o.1 = p => hne heq.symm]
        by_cases hq : o.1 = q
        · rw [if_pos hq, if_neg fun heq => hne (heq.symm.trans hq.symm), if_pos hq]
        · rw [if_neg hq, if_neg hq]

theorem Stored.rising {g : Graph} (h : Stored g) : Rising g.objects := by
  induction h with
  | empty => exact List.Pairwise.nil
  | addObject _ _ ih => exact rising_extend ih
  | set _ _ _ _ ih => exact rising_extend ih

theorem Stored.rising_ids {g : Graph} (h : Stored g) : g.ids.Pairwise (· < ·) :=
  List.pairwise_map.mpr h.rising

theorem Stored.nodup_ids {g : Graph} (h : Stored g) : g.ids.Nodup :=
  h.rising_ids.imp UInt64.ne_of_lt

/-! ## Edges -/

def childOf (p : ObjectId) (e : Edge) : Option ObjectId :=
  if e.parent = p then some e.child else none

def parentOf (q : ObjectId) (e : Edge) : Option ObjectId :=
  if e.child = q then some e.parent else none

def input? (r : Record) : Option ObjectId :=
  if r.1 = "INPUT" then r.2.object? else none

theorem parents_eq (g : Graph) (q : ObjectId) : g.parents q = ((recordsIn g.objects q).getD []).filterMap input? :=
  rfl

theorem filterMap_parentOf_recordEdge (p q : ObjectId) (name : String) (v : Value) :
    (recordEdge p name v).filterMap (parentOf q) = if q = p then [(name, v)].filterMap input? else [] := by
  cases v with
  | object o =>
    by_cases hname : name = "INPUT" <;> by_cases hq : p = q <;>
      simp [recordEdge, input?, Value.object?, parentOf, hname, hq, eq_comm (a := q)]
  | _ => simp [recordEdge, input?, Value.object?]

/-- The parents in the records are those in the edges, in the same order. -/
theorem Stored.parents_eq_filterMap {g : Graph} (h : Stored g) (q : ObjectId) :
    g.parents q = g.edges.filterMap (parentOf q) := by
  induction h with
  | empty => rfl
  | addObject h p ih =>
    rw [parents_eq] at ih ⊢
    rw [Graph.addObject, recordsIn_extend h.rising, List.append_nil]
    split
    · rename_i heq
      rw [← heq]
      exact ih
    · exact ih
  | set h p name v ih =>
    rw [parents_eq] at ih ⊢
    rw [Graph.set, recordsIn_extend h.rising, List.filterMap_append, filterMap_parentOf_recordEdge, ← ih]
    split
    · rename_i heq
      rw [heq, Option.getD_some, List.filterMap_append]
    · rw [List.append_nil]

theorem count_filterMap_childOf (p q : ObjectId) (edges : List Edge) :
    (edges.filterMap (childOf p)).count q = (edges.filterMap (parentOf q)).count p := by
  induction edges with
  | nil => rfl
  | cons e rest ih =>
    simp only [List.filterMap_cons]
    by_cases hp : e.parent = p <;> by_cases hq : e.child = q <;> simp [hp, hq, ih, childOf, parentOf]

/-- An object is among the children of another as often as that is among its parents. -/
theorem Stored.count_children {g : Graph} (h : Stored g) (p q : ObjectId) :
    (g.children p).count q = (g.parents q).count p := by
  rw [h.parents_eq_filterMap]
  exact count_filterMap_childOf p q g.edges

theorem Stored.mem_children {g : Graph} (h : Stored g) {p q : ObjectId} : q ∈ g.children p ↔ p ∈ g.parents q := by
  rw [← List.count_pos_iff, h.count_children, List.count_pos_iff]

theorem mem_ids_of_mem_parents {g : Graph} (h : p ∈ g.parents q) : q ∈ g.ids := by
  cases hr : g.records? q with
  | none =>
    rw [parents, records, hr] at h
    cases h
  | some rs => exact List.mem_map_of_mem (f := Prod.fst) (mem_objects_of_records? hr)

/-! ## Indexes -/

theorem mem_matching_iff {g : Graph} (h : Stored g) {test : String → Value → Bool} :
    .object p ∈ (g.matching test).members ↔ ∃ r ∈ g.records p, test r.1 r.2 = true := by
  rw [matching, Tagged.ofObjects, Members.mem_ofObjects, List.mem_map]
  constructor
  · intro hp
    obtain ⟨o, ho, rfl⟩ := hp
    obtain ⟨hmem, hany⟩ := List.mem_filter.mp ho
    have hrecords : g.records o.1 = o.2 := by
      change (recordsIn g.objects o.1).getD [] = o.2
      rw [recordsIn_of_mem h.rising hmem, Option.getD_some]
    rw [hrecords]
    exact List.any_eq_true.mp hany
  · intro hr
    cases hrecords : g.records? p with
    | none =>
      obtain ⟨r, hr, -⟩ := hr
      rw [records, hrecords] at hr
      cases hr
    | some rs =>
      rw [records, hrecords, Option.getD_some] at hr
      exact ⟨(p, rs), List.mem_filter.mpr ⟨mem_objects_of_records? hrecords, List.any_eq_true.mpr hr⟩, rfl⟩

theorem exists_matching {g : Graph} (h : Stored g) (test : String → Value → Bool) :
    ∃ ps : List ObjectId, g.matching test = .of (Members.ofObjects ps) ∧ ps.Nodup :=
  ⟨_, Tagged.ofObjects_eq _, (List.filter_sublist.map Prod.fst).nodup h.nodup_ids⟩

/-- An index gives objects, each once, unless the key is not of its kind. -/
theorem lookup_objects {g : Graph} (h : Stored g) {kind : IndexKind} (hk : kind ≠ .identity) (key : Value) :
    (∃ e, g.lookup kind key = .error e) ∨ ∃ ps, g.lookup kind key = .ok (.listOf (Members.ofObjects ps)) ∧ ps.Nodup := by
  cases kind with
  | identity => exact absurd rfl hk
  | _ =>
    cases key <;> first
      | exact Or.inl ⟨_, rfl⟩
      | obtain ⟨ps, hps, hnodup⟩ := exists_matching h _
        exact Or.inr ⟨ps, congrArg (fun l : Tagged => Except.ok l.value) hps, hnodup⟩

theorem mem_findInode_iff {g : Graph} (h : Stored g) {m : Int64} :
    .object p ∈ (g.findInode m).members ↔ ("INODE", .int m) ∈ g.records p := by
  rw [findInode, mem_matching_iff h]
  constructor
  · intro hr
    obtain ⟨⟨name, v⟩, hr, htest⟩ := hr
    cases v <;> simp [Value.int?] at htest
    obtain ⟨rfl, rfl⟩ := htest
    exact hr
  · intro hr
    exact ⟨_, hr, by simp [Value.int?]⟩

end Provenance.Graph
