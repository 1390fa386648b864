import Mathlib.Data.List.Perm.Basic
import Provenance.Proofs.Path.Match

/-!
# Listing the ways on

All continuations of a walk by at most `n` stops (`onward`), each listed once,
and all walks that match a path (`mem_matching`).
-/

namespace Provenance.Path

def stopsAt (i : Nat) (ps : List ObjectId) : List Stop :=
  ps.zipIdx.map fun q => ⟨i, q.1, q.2⟩

theorem mem_stopsAt {i : Nat} {ps : List ObjectId} {s : Stop} :
    s ∈ stopsAt i ps ↔ s.segment = i ∧ ps[s.choice]? = some s.object := by
  rw [stopsAt, List.mem_map]
  constructor
  · intro h
    obtain ⟨q, hq, rfl⟩ := h
    exact ⟨rfl, List.mem_zipIdx_iff_getElem?.mp hq⟩
  · intro h
    obtain ⟨rfl, h⟩ := h
    exact ⟨(s.object, s.choice), List.mem_zipIdx_iff_getElem?.mpr h, rfl⟩

theorem nodup_stopsAt (i : Nat) (ps : List ObjectId) : (stopsAt i ps).Nodup := by
  have hinj : Function.Injective fun q : ObjectId × Nat => (⟨i, q.1, q.2⟩ : Stop) := by
    rintro ⟨p, k⟩ ⟨p', k'⟩ h
    cases h
    rfl
  exact (List.Nodup.of_map Prod.snd (by rw [List.zipIdx_map_snd]; exact List.nodup_range')).map hinj

theorem nodup_flatMap_of_mark {α β : Type} {l : List α} {f : α → List β} (mark : β → Option α) (hl : l.Nodup)
    (hf : ∀ a ∈ l, (f a).Nodup) (hmark : ∀ a ∈ l, ∀ b ∈ f a, mark b = some a) : (l.flatMap f).Nodup := by
  refine List.nodup_flatMap.mpr ⟨hf, hl.imp_of_mem fun {a a'} ha ha' hne => ?_⟩
  intro b hb hb'
  exact hne (Option.some.inj ((hmark a ha b hb).symm.trans (hmark a' ha' b hb')))

namespace Route

variable (r : Route) (neighbours : ObjectId → List ObjectId) (pass : Nat → ObjectId → Bool)

/-- The continuations by at most `n` stops of a walk that came to `p` and goes on with segment `i`. -/
def onward : Nat → Nat → ObjectId → List (List Stop)
  | 0, _, _ => []
  | n + 1, i, p => (stopsAt i (neighbours p)).flatMap fun s =>
    if pass i s.object then
      (if r.accepting i then [[s]] else []) ++ (r.next i).flatMap fun j => (onward n j s.object).map (s :: ·)
    else []

/-- The stops lead from `p` to where a walk may end, the first of them for segment `i`. -/
def Onward : Nat → ObjectId → List Stop → Prop
  | _, _, [] => False
  | i, p, s :: w => (s.segment = i ∧ (neighbours p)[s.choice]? = some s.object) ∧ pass i s.object = true ∧
    (w = [] ∧ r.accepting i = true ∨ ∃ j ∈ r.next i, Onward j s.object w)

variable {r neighbours pass} {n i : Nat} {p : ObjectId}

theorem mem_onward : ∀ {n i : Nat} {p : ObjectId} {w : List Stop},
    w ∈ r.onward neighbours pass n i p ↔ r.Onward neighbours pass i p w ∧ w.length ≤ n
  | 0, i, p, w => by
    cases w with
    | nil => simp [onward, Onward]
    | cons s w => simp [onward]
  | n + 1, i, p, w => by
    have hstep : w ∈ r.onward neighbours pass (n + 1) i p ↔
        ∃ s, (s.segment = i ∧ (neighbours p)[s.choice]? = some s.object) ∧
        pass i s.object = true ∧ (w = [s] ∧ r.accepting i = true ∨
          ∃ j ∈ r.next i, ∃ v, (r.Onward neighbours pass j s.object v ∧ v.length ≤ n) ∧ s :: v = w) := by
      simp only [onward, List.mem_flatMap, mem_stopsAt]
      refine exists_congr fun s => and_congr_right fun _ => ?_
      split
      · rename_i hpass
        simp only [hpass, true_and, List.mem_append, List.mem_flatMap, List.mem_map, mem_onward]
        refine or_congr_left ?_
        split <;> simp_all
      · rename_i hpass
        simp [hpass]
    rw [hstep]
    cases w with
    | nil => simp [Onward]
    | cons s w =>
      rw [Onward]
      constructor
      · intro h
        obtain ⟨s', hs, hpass, ⟨h, hacc⟩ | ⟨j, hj, v, ⟨hv, hlen⟩, h⟩⟩ := h
        · cases h
          exact ⟨⟨hs, hpass, Or.inl ⟨rfl, hacc⟩⟩, by simp⟩
        · cases h
          exact ⟨⟨hs, hpass, Or.inr ⟨j, hj, hv⟩⟩, Nat.succ_le_succ hlen⟩
      · intro h
        obtain ⟨⟨hs, hpass, ⟨rfl, hacc⟩ | ⟨j, hj, hv⟩⟩, hlen⟩ := h
        · exact ⟨s, hs, hpass, Or.inl ⟨rfl, hacc⟩⟩
        · exact ⟨s, hs, hpass, Or.inr ⟨j, hj, w, ⟨hv, Nat.le_of_succ_le_succ hlen⟩, rfl⟩⟩

theorem segment_of_mem_onward {w : List Stop} (h : w ∈ r.onward neighbours pass n i p) :
    w.head?.map Stop.segment = some i := by
  have h := (mem_onward.mp h).1
  cases w with
  | nil => exact h.elim
  | cons s w =>
    rw [List.head?_cons, Option.map_some, h.1.1]

theorem nodup_continued (hr : r.Proper) (s : Stop) (h : ∀ j, (r.onward neighbours pass n j s.object).Nodup) :
    ((r.next i).flatMap fun j => (r.onward neighbours pass n j s.object).map (s :: ·)).Nodup := by
  refine nodup_flatMap_of_mark (fun w => w.tail.head?.map Stop.segment) (nodup_next hr.compiled)
    (fun j _ => (h j).map (List.cons_injective)) fun j _ w hw => ?_
  obtain ⟨v, hv, rfl⟩ := List.mem_map.mp hw
  exact segment_of_mem_onward hv

theorem nodup_onward (hr : r.Proper) : ∀ (n i : Nat) (p : ObjectId), (r.onward neighbours pass n i p).Nodup
  | 0, _, _ => List.nodup_nil
  | n + 1, i, p => by
    rw [onward]
    refine nodup_flatMap_of_mark List.head? (nodup_stopsAt _ _) (fun s _ => ?_) fun s _ w hw => ?_
    · split
      · refine List.nodup_append.mpr ⟨by split <;> simp, nodup_continued hr s fun j => nodup_onward hr n j _, ?_⟩
        intro a ha b hb hab
        obtain ⟨j, -, hb⟩ := List.mem_flatMap.mp hb
        obtain ⟨v, hv, rfl⟩ := List.mem_map.mp hb
        split at ha
        · cases (List.mem_singleton.mp ha).symm.trans hab
          exact (mem_onward.mp hv).1
        · cases ha
      · exact List.nodup_nil
    · split at hw
      · rcases List.mem_append.mp hw with hw | hw
        · split at hw
          · rw [List.mem_singleton.mp hw]
            rfl
          · cases hw
        · obtain ⟨j, -, hw⟩ := List.mem_flatMap.mp hw
          obtain ⟨v, -, rfl⟩ := List.mem_map.mp hw
          rfl
      · cases hw

/-! ## Whole walks -/

section
variable {c : Setting} {σ : Scope (Option Value)} (hr : r.Proper)
  (hpass : ∀ i q, pass i q = true ↔ Passes c σ (r.test i) q)
include hr hpass

theorem exists_onward_iff : ∀ {w : List Stop} {s : Stop}, s.segment < r.repetitions.length →
    ((∃ j ∈ r.next s.segment, r.Onward (r.direction.neighbours c.graph) pass j s.object w) ↔
      w ≠ [] ∧ (s :: w).IsChain (r.CanGo c σ) ∧ ∀ t ∈ (s :: w).getLast?, r.CanEnd t)
  | [], s, _ => by simp [Onward]
  | t :: w, s, hs => by
    rw [List.isChain_cons_cons, List.getLast?_cons_cons]
    have hrest : t.segment < r.repetitions.length →
        ((w = [] ∧ r.accepting t.segment = true ∨
            ∃ k ∈ r.next t.segment, r.Onward (r.direction.neighbours c.graph) pass k t.object w) ↔
          (t :: w).IsChain (r.CanGo c σ) ∧ ∀ u ∈ (t :: w).getLast?, r.CanEnd u) := by
      intro ht
      rw [exists_onward_iff ht, accepting_iff hr.compiled]
      cases w with
      | nil => simp [CanEnd, ht]
      | cons u w => simp
    constructor
    · intro h
      obtain ⟨j, hj, ⟨rfl, hedge⟩, hp, h⟩ := h
      obtain ⟨-, hfollow⟩ := (mem_next hr.compiled).mp hj
      obtain ⟨hgo, hend⟩ := (hrest hfollow.lt).mp h
      exact ⟨List.cons_ne_nil _ _, ⟨⟨hfollow, hedge, (hpass _ _).mp hp⟩, hgo⟩, hend⟩
    · intro h
      obtain ⟨-, ⟨⟨hfollow, hedge, hp⟩, hgo⟩, hend⟩ := h
      exact ⟨t.segment, (mem_next hr.compiled).mpr ⟨hs, hfollow⟩, ⟨rfl, hedge⟩, (hpass _ _).mpr hp,
        (hrest hfollow.lt).mpr ⟨hgo, hend⟩⟩

end

/-- The walks with at most `n` stops after a seed. -/
def matching (r : Route) (neighbours : ObjectId → List ObjectId) (pass : Nat → ObjectId → Bool)
    (seeds : Nat → List ObjectId) (n : Nat) : List (List Stop) :=
  r.automaton.starts.flatMap fun i => (stopsAt i (seeds i)).flatMap fun s =>
    (r.next i).flatMap fun j => (r.onward neighbours pass n j s.object).map (s :: ·)

theorem nodup_matching (hr : r.Proper) (seeds : Nat → List ObjectId) (n : Nat) :
    (r.matching neighbours pass seeds n).Nodup := by
  refine nodup_flatMap_of_mark (fun w => w.head?.map Stop.segment) (nodup_starts hr.compiled) (fun i _ => ?_)
    fun i _ w hw => ?_
  · refine nodup_flatMap_of_mark List.head? (nodup_stopsAt _ _)
      (fun s _ => nodup_continued hr s fun j => nodup_onward hr n j _) fun s _ w hw => ?_
    obtain ⟨j, -, hw⟩ := List.mem_flatMap.mp hw
    obtain ⟨v, -, rfl⟩ := List.mem_map.mp hw
    rfl
  · obtain ⟨s, hs, hw⟩ := List.mem_flatMap.mp hw
    obtain ⟨j, -, hw⟩ := List.mem_flatMap.mp hw
    obtain ⟨v, -, rfl⟩ := List.mem_map.mp hw
    rw [List.head?_cons, Option.map_some, (mem_stopsAt.mp hs).1]

theorem mem_matching {c : Setting} {σ : Scope (Option Value)} (hr : r.Proper)
    (hpass : ∀ i q, pass i q = true ↔ Passes c σ (r.test i) q) {seeds : Nat → List ObjectId}
    (hseeds : ∀ i ∈ r.automaton.starts, ∀ ps, Seeds c σ (r.test i) ps ↔ ps = seeds i) {w : List Stop} :
    w ∈ r.matching (r.direction.neighbours c.graph) pass seeds n ↔ r.Matches c σ w ∧ w.length ≤ n + 1 := by
  simp only [matching, List.mem_flatMap, mem_stopsAt, List.mem_map, mem_onward]
  constructor
  · intro h
    obtain ⟨i, hi, s, ⟨rfl, hchoice⟩, j, hj, v, ⟨hv, hlen⟩, rfl⟩ := h
    obtain ⟨hlt, hskips⟩ := (mem_starts hr.compiled).mp hi
    obtain ⟨hne, hgo, hend⟩ := (exists_onward_iff hr hpass hlt).mp ⟨j, hj, hv⟩
    refine ⟨⟨?_, ?_, hgo, hend⟩, Nat.succ_le_succ hlen⟩
    · exact Nat.succ_le_succ (List.length_pos_iff.mpr hne)
    · rintro _ ⟨⟩
      exact ⟨hlt, hskips, _, (hseeds _ hi _).mpr rfl, hchoice⟩
  · intro h
    obtain ⟨h, hlen⟩ := h
    match w with
    | [] => exact absurd h.two_le (by decide)
    | s :: v =>
      obtain ⟨hlt, hskips, ps, hps, hchoice⟩ := h.start s rfl
      have hi : s.segment ∈ r.automaton.starts := (mem_starts hr.compiled).mpr ⟨hlt, hskips⟩
      have hne : v ≠ [] := List.length_pos_iff.mp (Nat.le_of_succ_le_succ h.two_le)
      obtain ⟨j, hj, hv⟩ := (exists_onward_iff hr hpass hlt).mpr ⟨hne, h.go, h.stop⟩
      rw [(hseeds _ hi ps).mp hps] at hchoice
      exact ⟨s.segment, hi, s, ⟨rfl, hchoice⟩, j, hj, v, ⟨hv, Nat.le_of_succ_le_succ hlen⟩, rfl⟩

end Route

end Provenance.Path
