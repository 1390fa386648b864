import Mathlib.Data.Nat.Basic
import Provenance.Proofs.Value.Sorting

/-!
# Lists of objects

Sorting, dropping duplicates and merging leave lists of objects, and which
objects are in them is what one expects: those of both sides are in the
intersection, once each (`intersect_ofObjects`).
-/

namespace Provenance.Members

theorem mem_ofObjects {p : ObjectId} {ps : List ObjectId} : .object p ∈ ofObjects ps ↔ p ∈ ps := by
  simp [ofObjects]

theorem exists_of_mem_ofObjects {v : Value} {ps : List ObjectId} (hv : v ∈ ofObjects ps) : ∃ p, v = .object p := by
  obtain ⟨p, -, rfl⟩ := List.mem_map.mp hv
  exact ⟨p, rfl⟩

theorem exists_ofObjects : ∀ {l : Members}, (∀ v ∈ l, ∃ p, v = .object p) → ∃ ps, l = ofObjects ps
  | [], _ => ⟨[], rfl⟩
  | v :: l, h => by
    obtain ⟨⟨p, rfl⟩, hl⟩ := List.forall_mem_cons.mp h
    obtain ⟨ps, rfl⟩ := exists_ofObjects hl
    exact ⟨p :: ps, rfl⟩

theorem compare_object (p q : ObjectId) : (Value.object p).compare (.object q) = Ord.compare p.toNat q.toNat :=
  Value.keyed_object.compare p q

theorem covers_ofObjects {p : ObjectId} {ps : List ObjectId} : Covers (ofObjects ps) (.object p) ↔ p ∈ ps := by
  simp [Covers, ofObjects, compare_object, UInt64.toNat_inj]

theorem nodup_of_rising {ps : List ObjectId} (h : Rising (ofObjects ps)) : ps.Nodup := by
  refine (List.pairwise_map.mp h).imp fun hlt heq => ?_
  rw [heq, compare_object, Std.compare_self] at hlt
  cases hlt

theorem intersect_ofObjects (ps qs : List ObjectId) : ∃ rs,
    Tagged.intersect (.of (ofObjects ps)) (.of (ofObjects qs)) = .ok (.of (ofObjects rs)) ∧ rs.Nodup ∧
      ∀ r, r ∈ rs ↔ r ∈ ps ∧ r ∈ qs := by
  obtain ⟨hrise, hcovers⟩ := rising_merge Value.keyed_object.ordered ⟨false, false, true⟩
    (fun _ => exists_of_mem_ofObjects) (fun _ => exists_of_mem_ofObjects)
  obtain ⟨rs, hrs⟩ : ∃ rs,
      Merge.run ⟨false, false, true⟩ (ofObjects ps).sortedSet (ofObjects qs).sortedSet = ofObjects rs := by
    refine exists_ofObjects fun v hv => ?_
    rcases List.mem_append.mp (run_subset _ hv) with hv | hv
    · exact exists_of_mem_ofObjects (sortedSet_subset _ hv)
    · exact exists_of_mem_ofObjects (sortedSet_subset _ hv)
  rw [hrs] at hrise hcovers
  refine ⟨rs, ?_, nodup_of_rising hrise, fun r => ?_⟩
  · refine Tagged.merge_eq_ok_iff.mpr ?_
    rw [Tagged.members_of, Tagged.members_of, hrs]
    exact ⟨rfl, ofOneKind_ofObjects rs⟩
  · rw [← covers_ofObjects, hcovers _ ⟨r, rfl⟩, covers_ofObjects, covers_ofObjects]
    simp [Merge.Keeps]

theorem concat_ofObjects (ps qs : List ObjectId) :
    Tagged.concat (.of (ofObjects ps)) (.of (ofObjects qs)) = .ok (.of (ofObjects (ps ++ qs))) := by
  have happend : ofObjects ps ++ ofObjects qs = ofObjects (ps ++ qs) := (List.map_append ..).symm
  refine (Tagged.concat_eq_ok_iff (Tagged.sound_of (ofOneKind_ofObjects ps))
    (Tagged.sound_of (ofOneKind_ofObjects qs))).mpr ?_
  rw [Tagged.members_of, Tagged.members_of, happend]
  exact ⟨rfl, ofOneKind_ofObjects _⟩

end Provenance.Members
