import Mathlib.Data.List.Sort
import Provenance.Proofs.Path.Skipping
import Provenance.Proofs.Path.Tests

/-!
# Walks that match a path

A walk is a list of stops, each an object that stands for a segment. Which of
several edges to the same object was taken, and which of several equal seeds,
belongs to the stop, so walks are counted as often as they can be taken.
-/

namespace Provenance.Path

/-- An object on a walk, the segment that it stands for, and its place among the neighbours of the
object before it, or among the seeds. -/
structure Stop where
  segment : Nat
  object : ObjectId
  choice : Nat
  deriving DecidableEq

namespace Route

variable (r : Route)

section
variable (c : Setting) (σ : Scope (Option Value))

/-- A walk may start here: with a seed of a segment all before which may be left out. -/
def CanStart (s : Stop) : Prop :=
  s.segment < r.repetitions.length ∧ Skips r.repetitions 0 s.segment ∧
    ∃ ps, Seeds c σ (r.test s.segment) ps ∧ ps[s.choice]? = some s.object

/-- From one stop a walk may go on to the other, along an edge. -/
def CanGo (s t : Stop) : Prop :=
  MayFollow r.repetitions s.segment t.segment ∧
    (r.direction.neighbours c.graph s.object)[t.choice]? = some t.object ∧ Passes c σ (r.test t.segment) t.object

/-- A walk may end here: all segments behind may be left out. -/
def CanEnd (s : Stop) : Prop :=
  Skips r.repetitions (s.segment + 1) r.repetitions.length

structure Matches (w : List Stop) : Prop where
  two_le : 2 ≤ w.length
  start : ∀ s ∈ w.head?, r.CanStart c σ s
  go : w.IsChain (r.CanGo c σ)
  stop : ∀ s ∈ w.getLast?, r.CanEnd s

end

/-! ## Results -/

def extracts (i : Nat) : Bool :=
  r.segments[i]?.any Segment.extract

def extracted : List Nat :=
  (List.range r.segments.length).filter r.extracts

/-- The same in the order in which the path is written. -/
def extractedAsWritten : List Nat :=
  match r.direction with
  | .forward => r.extracted
  | .backward => r.extracted.reverse

def objectFor (w : List Stop) (i : Nat) : Option ObjectId :=
  (w.find? fun s => s.segment == i).map Stop.object

/-- The object for the only extracted segment, or a tuple if there are several. -/
def resultFor (w : List Stop) : Option Value :=
  match r.extractedAsWritten with
  | [] => none
  | [i] => (objectFor w i).map .object
  | is => some (.tuple (is.filterMap fun i => (objectFor w i).map .object))

end Route

/-! ## Segments of a path -/

theorem repetition_of_extract_ofExpr {e : Expr} (h : (Segment.ofExpr e).extract = true) :
    (Segment.ofExpr e).repetition = .one := by
  unfold Segment.ofExpr at *
  split at h <;> first | rfl | cases h

theorem repetition_of_extract_ofJoin {o : Operator} {s : Segment} (hs : s ∈ Segment.ofJoin o) : s.extract = false := by
  cases o <;> simp_all [Segment.ofJoin, Segment.ofRepetition]

mutual

theorem repetition_of_mem_side : ∀ {e : Expr} {s : Segment}, s ∈ Segment.side e → s.extract = true → s.repetition = .one
  | .op o left right span, s, hs, h => by
    rw [Segment.side] at hs
    split at hs
    · rcases List.mem_append.mp hs with hs | hs
      · exact repetition_of_mem_side hs h
      · rcases List.mem_append.mp hs with hs | hs
        · rw [repetition_of_extract_ofJoin hs] at h
          cases h
        · exact repetition_of_mem_sideOpt hs h
    · cases List.mem_singleton.mp hs
      exact repetition_of_extract_ofExpr h
  | .val _, s, hs, h | .ref _, s, hs, h | .tuple _, s, hs, h | .cond _ _ _, s, hs, h | .forIn _ _ _ _, s, hs, h
  | .letIn _ _ _ _, s, hs, h | .lambda _ _, s, hs, h => by
    cases List.mem_singleton.mp hs
    cases h

theorem repetition_of_mem_sideOpt : ∀ {e : Option Expr} {s : Segment}, s ∈ Segment.sideOpt e → s.extract = true →
    s.repetition = .one
  | some _, _, hs, h => repetition_of_mem_side hs h

end

/-- The automaton is that of the segments, and what is extracted is one object. -/
structure Route.Proper (r : Route) : Prop where
  compiled : r.Compiled
  single : ∀ s ∈ r.segments, s.extract = true → s.repetition = .one

theorem proper_route (scope : Scope (Option Value)) (e : Expr) : (route scope e).Proper where
  compiled := rfl
  single s hs h := by
    refine repetition_of_mem_side (e := e) ?_ h
    simp only [route] at hs
    split at hs
    · exact List.mem_reverse.mp hs
    · exact hs

namespace Route

variable {r : Route} {c : Setting} {σ : Scope (Option Value)} {w : List Stop} {i : Nat}

theorem extracts_iff : r.extracts i = true ↔ ∃ s, r.segments[i]? = some s ∧ s.extract = true := by
  rw [extracts, Option.any_eq_true]

theorem mem_extracted : i ∈ r.extracted ↔ r.extracts i = true := by
  rw [extracted, List.mem_filter, List.mem_range, and_iff_right_iff_imp, extracts_iff]
  intro h
  obtain ⟨s, hs, -⟩ := h
  exact (List.getElem?_eq_some_iff.mp hs).1

theorem Proper.repetition (hr : r.Proper) (h : r.extracts i = true) : r.repetitions[i]? = some .one := by
  obtain ⟨s, hs, hex⟩ := extracts_iff.mp h
  rw [repetitions, List.getElem?_map, hs, Option.map_some, hr.single s (List.mem_of_getElem? hs) hex]

/-! ## The order of the stops -/

/-- Stops come in the order of their segments, and an extracted segment has no second one. -/
def Before (r : Route) (s t : Stop) : Prop :=
  s.segment ≤ t.segment ∧ (r.extracts s.segment = true → s.segment < t.segment)

instance : Trans r.Before r.Before r.Before where
  trans h h' := ⟨Nat.le_trans h.1 h'.1, fun hs => Nat.lt_of_lt_of_le (h.2 hs) h'.1⟩

theorem Proper.not_repeats (hr : r.Proper) (h : r.extracts i = true) :
    ¬ ∃ m, r.repetitions[i]? = some m ∧ m.repeats = true := by
  rintro ⟨m, hm, hrep⟩
  rw [hr.repetition h] at hm
  cases hm
  cases hrep

theorem CanGo.before {s t : Stop} (h : r.CanGo c σ s t) (hr : r.Proper) : r.Before s t := by
  rcases h.1 with ⟨heq, hrep⟩ | ⟨hlt, -, -⟩
  · exact ⟨Nat.le_of_eq heq.symm, fun hs => absurd hrep (hr.not_repeats hs)⟩
  · exact ⟨Nat.le_of_lt hlt, fun _ => hlt⟩

theorem Matches.pairwise (h : r.Matches c σ w) (hr : r.Proper) : w.Pairwise r.Before :=
  (h.go.imp fun _ _ hgo => hgo.before hr).pairwise

theorem not_skips {i j k : Nat} (hr : r.Proper) (hk : r.extracts k = true) (hik : i ≤ k) (hkj : k < j) :
    ¬ Skips r.repetitions i j := by
  intro h
  obtain ⟨m, hm, hskip⟩ := h k hik hkj
  rw [hr.repetition hk] at hm
  cases hm
  cases hskip

theorem exists_stop_of_isChain (hr : r.Proper) (hi : r.extracts i = true) : ∀ {w : List Stop} {s : Stop},
    (s :: w).IsChain (r.CanGo c σ) → (∀ t ∈ (s :: w).getLast?, r.CanEnd t) → s.segment ≤ i →
    ∃ t ∈ s :: w, t.segment = i
  | [], s, _, hend, hle => by
    rcases Nat.eq_or_lt_of_le hle with heq | hlt
    · exact ⟨s, List.mem_cons_self, heq⟩
    · have hlen : i < r.repetitions.length := (List.getElem?_eq_some_iff.mp (hr.repetition hi)).1
      exact absurd (hend s rfl) (not_skips hr hi hlt hlen)
  | t :: w, s, hgo, hend, hle => by
    rcases Nat.eq_or_lt_of_le hle with heq | hlt
    · exact ⟨s, List.mem_cons_self, heq⟩
    · obtain ⟨hst, hrest⟩ := List.isChain_cons_cons.mp hgo
      have hti : t.segment ≤ i := by
        rcases hst.1 with ⟨heq, -⟩ | ⟨-, -, hs⟩
        · rw [heq]
          exact hle
        · exact Nat.not_lt.mp fun hit => not_skips hr hi hlt hit hs
      obtain ⟨u, hu, hui⟩ := exists_stop_of_isChain hr hi hrest (by rwa [List.getLast?_cons_cons] at hend) hti
      exact ⟨u, List.mem_cons_of_mem s hu, hui⟩

theorem Matches.exists_stop (h : r.Matches c σ w) (hr : r.Proper) (hi : r.extracts i = true) :
    ∃ s ∈ w, s.segment = i := by
  match w with
  | [] => exact absurd h.two_le (by decide)
  | s :: w =>
    refine exists_stop_of_isChain hr hi h.go h.stop ?_
    exact Nat.not_lt.mp fun hlt => not_skips hr hi (Nat.zero_le i) hlt (h.start s rfl).2.1

/-! ## The objects of the result -/

def picked (r : Route) (w : List Stop) : List ObjectId :=
  (w.filter fun s => r.extracts s.segment).map Stop.object

theorem Matches.map_segment (h : r.Matches c σ w) (hr : r.Proper) :
    (w.filter fun s => r.extracts s.segment).map Stop.segment = r.extracted := by
  refine List.Pairwise.eq_of_mem_iff (r := (· < ·)) ?_ (List.pairwise_lt_range.filter _) fun i => ?_
  · refine List.pairwise_map.mpr (List.pairwise_filter.mpr ((h.pairwise hr).imp fun hst hs _ => hst.2 hs))
  · simp only [List.mem_map, List.mem_filter, mem_extracted]
    constructor
    · intro h
      obtain ⟨s, ⟨-, hs⟩, rfl⟩ := h
      exact hs
    · intro hi
      obtain ⟨s, hs, rfl⟩ := h.exists_stop hr hi
      exact ⟨s, ⟨hs, hi⟩, rfl⟩

theorem objectFor_of_mem : ∀ {w : List Stop} {s : Stop}, w.Pairwise r.Before → s ∈ w → r.extracts s.segment = true →
    objectFor w s.segment = some s.object
  | t :: w, s, h, hs, hex => by
    obtain ⟨ht, hw⟩ := List.pairwise_cons.mp h
    rw [objectFor, List.find?_cons]
    rcases List.mem_cons.mp hs with rfl | hs
    · rw [beq_self_eq_true]
      rfl
    · have hne : (t.segment == s.segment) = false := by
        refine beq_eq_false_iff_ne.mpr fun heq => ?_
        exact absurd ((ht s hs).2 (heq ▸ hex)) (by omega)
      rw [hne]
      exact objectFor_of_mem hw hs hex

theorem Matches.filterMap_extracted (h : r.Matches c σ w) (hr : r.Proper) :
    r.extracted.filterMap (objectFor w) = r.picked w := by
  rw [← h.map_segment hr, List.filterMap_map, picked, ← List.filterMap_eq_map]
  refine List.filterMap_congr fun s hs => ?_
  obtain ⟨hs, hex⟩ := List.mem_filter.mp hs
  exact objectFor_of_mem (h.pairwise hr) hs hex

theorem Matches.exists_objectFor (h : r.Matches c σ w) (hr : r.Proper) (hi : r.extracts i = true) :
    ∃ p, objectFor w i = some p := by
  obtain ⟨s, hs, rfl⟩ := h.exists_stop hr hi
  exact ⟨s.object, objectFor_of_mem (h.pairwise hr) hs hi⟩

theorem Matches.resultOf_picked (h : r.Matches c σ w) (hr : r.Proper) :
    resultOf (inOrder r.direction (r.picked w).reverse) = r.resultFor w := by
  have hmem : ∀ i ∈ r.extractedAsWritten, r.extracts i = true := by
    intro i hi
    rw [extractedAsWritten] at hi
    split at hi
    · exact mem_extracted.mp hi
    · exact mem_extracted.mp (List.mem_reverse.mp hi)
  have hobjects : inOrder r.direction (r.picked w).reverse = r.extractedAsWritten.filterMap (objectFor w) := by
    rw [extractedAsWritten]
    cases r.direction with
    | forward => rw [h.filterMap_extracted hr, inOrder, List.reverse_reverse]
    | backward => rw [List.filterMap_reverse, h.filterMap_extracted hr, inOrder]
  rw [hobjects, resultFor]
  generalize r.extractedAsWritten = places at hmem
  rcases places with - | ⟨i, - | ⟨j, rest⟩⟩
  · rfl
  · obtain ⟨p, hp⟩ := h.exists_objectFor hr (hmem i List.mem_cons_self)
    simp [hp, resultOf]
  · obtain ⟨p, hp⟩ := h.exists_objectFor hr (hmem i List.mem_cons_self)
    obtain ⟨q, hq⟩ := h.exists_objectFor hr (hmem j (List.mem_cons_of_mem _ List.mem_cons_self))
    simp [hp, hq, resultOf, List.map_filterMap]

end Route

end Provenance.Path
