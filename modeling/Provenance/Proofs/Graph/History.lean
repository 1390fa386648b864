import Mathlib.Data.List.Dedup
import Provenance.Proofs.Graph.Stored

/-!
# Graphs by their history

A graph grows by changes: an object is added, a record is set, an input is
added. What it shows at the end can be read off the changes
(`reflects_history`): its objects are those that some change was made to, the
records of an object are those that were set on it, in the order of the changes,
and its children and parents agree. Loading an object is a series of changes too.
-/

namespace Provenance.Graph

inductive Change
  | addObject (p : ObjectId)
  | set (p : ObjectId) (name : String) (v : Value)
  | addInput (child parent : ObjectId)

namespace Change

/-- The object that the change is made to. -/
def subject : Change → ObjectId
  | addObject p => p
  | set p _ _ => p
  | addInput child _ => child

def record? : Change → Option Record
  | addObject _ => none
  | set _ name v => some (name, v)
  | addInput _ parent => some ("INPUT", .object parent)

def recordOf (p : ObjectId) (ch : Change) : Option Record :=
  if ch.subject = p then ch.record? else none

def apply (g : Graph) : Change → Graph
  | addObject p => g.addObject p
  | set p name v => g.set p name v
  | addInput child parent => g.addInput child parent

/-- The changes that load an object with its records. -/
def loading (o : ObjectId × List Record) : List Change :=
  addObject o.1 :: o.2.map fun r => set o.1 r.1 r.2

end Change

def grow (g : Graph) (changes : List Change) : Graph :=
  changes.foldl Change.apply g

def loaded (objects : List (ObjectId × List Record)) : Graph :=
  objects.foldl (fun g o => g.load o.1 o.2) empty

/-- What the graph shows is what the changes have made. -/
structure Reflects (g : Graph) (changes : List Change) : Prop where
  children : ∀ p q, (g.children p).count q = (g.parents q).count p
  rising : g.ids.Pairwise (· < ·)
  ids : ∀ p, p ∈ g.ids ↔ ∃ ch ∈ changes, ch.subject = p
  size : g.size = (changes.map Change.subject).dedup.length
  records : ∀ p, g.records p = changes.filterMap (Change.recordOf p)
  attributes : ∀ p name, name ≠ "PNODE" →
    g.attribute? p name = ((changes.filterMap (Change.recordOf p)).find? fun r => r.1 == name).map Prod.snd

variable {g : Graph} {p q : ObjectId}

/-! ## One change -/

theorem objects_apply (g : Graph) (ch : Change) :
    (ch.apply g).objects = extend ch.subject ch.record?.toList g.objects := by
  cases ch <;> rfl

theorem Stored.apply (h : Stored g) (ch : Change) : Stored (ch.apply g) := by
  cases ch with
  | addObject p => exact h.addObject p
  | set p name v => exact h.set p name v
  | addInput child parent => exact h.set child _ _

theorem mem_ids_apply {ch : Change} : p ∈ (ch.apply g).ids ↔ p ∈ g.ids ∨ ch.subject = p := by
  rw [ids, objects_apply, mem_ids_extend, or_comm, eq_comm, ids]

theorem records_apply (h : Stored g) (ch : Change) (p : ObjectId) :
    (ch.apply g).records p = g.records p ++ (ch.recordOf p).toList := by
  change (recordsIn (ch.apply g).objects p).getD [] = (recordsIn g.objects p).getD [] ++ _
  rw [objects_apply, recordsIn_extend h.rising, Change.recordOf]
  by_cases heq : ch.subject = p
  · rw [heq, if_pos rfl, if_pos rfl, Option.getD_some]
  · rw [if_neg (Ne.symm heq), if_neg heq, Option.toList_none, List.append_nil]

/-! ## A history of changes -/

theorem Stored.grow (h : Stored g) (changes : List Change) : Stored (g.grow changes) := by
  induction changes generalizing g with
  | nil => exact h
  | cons ch rest ih => exact ih (h.apply ch)

theorem mem_ids_grow {changes : List Change} :
    p ∈ (g.grow changes).ids ↔ p ∈ g.ids ∨ ∃ ch ∈ changes, ch.subject = p := by
  induction changes generalizing g with
  | nil => simp [grow]
  | cons ch rest ih =>
    rw [grow, List.foldl_cons, ← grow, ih, mem_ids_apply, List.exists_mem_cons_iff, or_assoc]

theorem records_grow (h : Stored g) (changes : List Change) (p : ObjectId) :
    (g.grow changes).records p = g.records p ++ changes.filterMap (Change.recordOf p) := by
  induction changes generalizing g with
  | nil => rw [grow, List.foldl_nil, List.filterMap_nil, List.append_nil]
  | cons ch rest ih =>
    rw [grow, List.foldl_cons, ← grow, ih (h.apply ch), records_apply h, List.append_assoc]
    cases hr : ch.recordOf p with
    | none => rw [List.filterMap_cons_none hr, Option.toList_none, List.nil_append]
    | some r => rw [List.filterMap_cons_some hr, Option.toList_some, List.singleton_append]

/-! ## Reading -/

theorem attribute?_eq_find? (g : Graph) (p : ObjectId) {name : String} (h : name ≠ "PNODE") :
    g.attribute? p name = ((g.records p).find? fun r => r.1 == name).map Prod.snd := by
  unfold attribute? records
  cases g.records? p with
  | none => rfl
  | some rs => exact if_neg h

/-- Objects in rising order are as many as there are different ones. -/
theorem size_eq_of_mem_ids (h : Stored g) {ps : List ObjectId} (hmem : ∀ p, p ∈ g.ids ↔ p ∈ ps) :
    g.size = ps.dedup.length := by
  have hperm : g.ids.Perm ps.dedup :=
    (List.perm_ext_iff_of_nodup h.nodup_ids ps.nodup_dedup).mpr fun p => by rw [hmem, List.mem_dedup]
  rw [← hperm.length_eq, ids, List.length_map, size]

/-! ## Loading -/

theorem load_eq_grow (g : Graph) (o : ObjectId × List Record) : g.load o.1 o.2 = g.grow (Change.loading o) := by
  rw [load, grow, Change.loading, List.foldl_cons, List.foldl_map]
  rfl

theorem loaded_eq_grow (objects : List (ObjectId × List Record)) :
    loaded objects = empty.grow (objects.flatMap Change.loading) := by
  rw [loaded, grow, List.foldl_flatMap]
  simp only [load_eq_grow, grow]

theorem reflects_grow (changes : List Change) : Reflects (empty.grow changes) changes := by
  have hstored : Stored (empty.grow changes) := Stored.empty.grow changes
  have hids : ∀ p, p ∈ (empty.grow changes).ids ↔ ∃ ch ∈ changes, ch.subject = p := fun p => by
    rw [mem_ids_grow]
    exact or_iff_right List.not_mem_nil
  have hrecords : ∀ p, (empty.grow changes).records p = changes.filterMap (Change.recordOf p) := fun p => by
    rw [records_grow .empty]
    rfl
  exact {
    children := hstored.count_children
    rising := hstored.rising_ids
    ids := hids
    size := size_eq_of_mem_ids hstored fun p => (hids p).trans List.mem_map.symm
    records := hrecords
    attributes := fun p name hname => by rw [attribute?_eq_find? _ p hname, hrecords] }

/-- Whatever is loaded to begin with, and whatever changes are made then: what the graph shows is what
all of them have made in turn. -/
theorem reflects_history (objects : List (ObjectId × List Record)) (changes : List Change) :
    Reflects ((loaded objects).grow changes) (objects.flatMap Change.loading ++ changes) := by
  have hgrow : (loaded objects).grow changes = empty.grow (objects.flatMap Change.loading ++ changes) := by
    rw [loaded_eq_grow, grow, grow, grow, List.foldl_append]
  rw [hgrow]
  exact reflects_grow _

end Provenance.Graph
