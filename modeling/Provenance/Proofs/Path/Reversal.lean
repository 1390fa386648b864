import Mathlib.Data.List.Chain
import Provenance.Proofs.Graph.Stored
import Provenance.Proofs.Path.Denotation
import Provenance.Proofs.Path.Evaluation

/-!
# Paths walked from the other end

A walk leaves a trail of objects, each with the segment that it stands for. An
object of the graph is a seed of a segment if and only if it passes it
(`Seeds.mem_iff`), so whether a walk can leave a trail (`Fits`) can be told from
either end, and a trail that fits a path fits the reversed path from the other
end (`Fits.reverse`). The walks from both ends therefore extract the same.
-/

namespace Provenance.Path

open Eval
open Provenance.Expr (Inert)
open Members (ofObjects)

variable {c : Setting} {σ : Scope (Option Value)} {n : Nat}

/-! ## Trails -/

/-- The segments and the objects of a walk, in the order in which it is taken. -/
abbrev Trail := List (Nat × ObjectId)

def Stop.mark (s : Stop) : Nat × ObjectId :=
  (s.segment, s.object)

namespace Route

section
variable (r : Route) (c : Setting) (σ : Scope (Option Value))

def Holds (s : Nat × ObjectId) : Prop :=
  s.1 < r.repetitions.length ∧ Passes c σ (r.test s.1) s.2

def Linked (s t : Nat × ObjectId) : Prop :=
  MayFollow r.repetitions s.1 t.1 ∧ t.2 ∈ r.direction.neighbours c.graph s.2

/-- A walk that matches the path can leave this trail. -/
structure Fits (t : Trail) : Prop where
  two_le : 2 ≤ t.length
  holds : ∀ s ∈ t, r.Holds c σ s
  start : ∀ s ∈ t.head?, Skips r.repetitions 0 s.1
  linked : t.IsChain (r.Linked c)
  stop : ∀ s ∈ t.getLast?, Skips r.repetitions (s.1 + 1) r.repetitions.length

end

def chosen (r : Route) (t : Trail) : List ObjectId :=
  (t.filter fun s => r.extracts s.1).map Prod.snd

variable {r : Route} {w : List Stop} {t : Trail}

theorem picked_eq : r.picked w = r.chosen (w.map Stop.mark) := by
  rw [picked, chosen, List.filter_map, List.map_map]
  rfl

theorem holds_of_isChain : ∀ {w : List Stop} {s : Stop}, (s :: w).IsChain (r.CanGo c σ) → ∀ t ∈ w, r.Holds c σ t.mark
  | [], _, _, t, ht => absurd ht List.not_mem_nil
  | u :: w, s, h, t, ht => by
    obtain ⟨hgo, hrest⟩ := List.isChain_cons_cons.mp h
    rcases List.mem_cons.mp ht with rfl | ht
    · exact ⟨hgo.1.lt, hgo.2.2⟩
    · exact holds_of_isChain hrest t ht

theorem exists_isChain : ∀ {t : Trail} {s : Stop}, (s.mark :: t).IsChain (r.Linked c) → (∀ u ∈ t, r.Holds c σ u) →
    ∃ w, (s :: w).IsChain (r.CanGo c σ) ∧ w.map Stop.mark = t
  | [], _, _, _ => ⟨[], List.isChain_singleton _, rfl⟩
  | u :: t, s, hlinked, hholds => by
    obtain ⟨⟨hfollow, hedge⟩, hrest⟩ := List.isChain_cons_cons.mp hlinked
    obtain ⟨k, hk⟩ := List.getElem?_of_mem hedge
    obtain ⟨w, hw, hmarks⟩ := exists_isChain (s := ⟨u.1, u.2, k⟩) hrest fun u' hu' =>
      hholds u' (List.mem_cons_of_mem u hu')
    refine ⟨⟨u.1, u.2, k⟩ :: w, List.isChain_cons_cons.mpr ⟨⟨hfollow, hk, ?_⟩, hw⟩, ?_⟩
    · exact (hholds u List.mem_cons_self).2
    · rw [List.map_cons, hmarks]
      rfl

section
variable (htame : ∀ i, (r.test i).Tame c σ)
  (hids : ∀ p q, q ∈ r.direction.neighbours c.graph p → p ∈ c.graph.ids)
include htame hids

theorem Matches.fits (h : r.Matches c σ w) : r.Fits c σ (w.map Stop.mark) := by
  match w with
  | [] | [_] => exact absurd h.two_le (by simp)
  | s :: u :: w =>
    obtain ⟨hlt, hskips, ps, hps, hchoice⟩ := h.start s rfl
    have hfirst : s.object ∈ c.graph.ids :=
      hids _ u.object (List.mem_of_getElem? (List.isChain_cons_cons.mp h.go).1.2.1)
    refine ⟨by simp, ?_, ?_, ?_, ?_⟩
    · intro m hm
      obtain ⟨t, ht, rfl⟩ := List.mem_map.mp hm
      rcases List.mem_cons.mp ht with rfl | ht
      · exact ⟨hlt, (hps.mem_iff (htame _) hfirst).mp (List.mem_of_getElem? hchoice)⟩
      · exact holds_of_isChain h.go t ht
    · rintro _ ⟨⟩
      exact hskips
    · refine List.isChain_map_of_isChain Stop.mark (fun s t hgo => ?_) h.go
      exact ⟨hgo.1, List.mem_of_getElem? hgo.2.1⟩
    · intro m hm
      rw [List.getLast?_map] at hm
      obtain ⟨t, ht, rfl⟩ := Option.map_eq_some_iff.mp hm
      exact h.stop t ht

theorem Fits.exists_matches (hr : r.Compiled) (hseeds : ∀ i ∈ r.automaton.starts, ∃ ps, Seeds c σ (r.test i) ps)
    (h : r.Fits c σ t) : ∃ w, r.Matches c σ w ∧ w.map Stop.mark = t := by
  match t with
  | [] | [_] => exact absurd h.two_le (by simp)
  | s :: u :: t =>
    obtain ⟨hlt, hpass⟩ := h.holds s List.mem_cons_self
    have hskips := h.start s rfl
    have hfirst : s.2 ∈ c.graph.ids := hids _ u.2 (List.isChain_cons_cons.mp h.linked).1.2
    obtain ⟨ps, hps⟩ := hseeds s.1 ((mem_starts hr).mpr ⟨hlt, hskips⟩)
    obtain ⟨k, hk⟩ := List.getElem?_of_mem ((hps.mem_iff (htame _) hfirst).mpr hpass)
    obtain ⟨w, hgo, hmarks⟩ := exists_isChain (s := ⟨s.1, s.2, k⟩) h.linked fun u' hu' =>
      h.holds u' (List.mem_cons_of_mem s hu')
    have hmark : List.map Stop.mark (⟨s.1, s.2, k⟩ :: w) = s :: u :: t := by
      rw [List.map_cons, hmarks]
      rfl
    refine ⟨_, ⟨?_, ?_, hgo, ?_⟩, hmark⟩
    · rw [← List.length_map Stop.mark, hmark]
      exact h.two_le
    · rintro _ ⟨⟩
      exact ⟨hlt, hskips, ps, hps, hk⟩
    · intro v hv
      refine h.stop v.mark ?_
      rw [← hmark, List.getLast?_map]
      exact Option.map_eq_some_iff.mpr ⟨v, hv, rfl⟩

theorem ensures_walks_fit (hr : r.Proper) : Ensures c σ (walks (evaluateIn n) r) fun found =>
    ∀ ps, ps ∈ found ↔ ∃ t, r.Fits c σ t ∧ (r.chosen t).reverse = ps := by
  refine (ensures_walks htame hr).mono fun found ⟨hseeds, ws, _, hws, hfound⟩ ps => ?_
  rw [hfound.mem_iff, List.mem_map]
  constructor
  · intro h
    obtain ⟨w, hw, rfl⟩ := h
    exact ⟨_, ((hws w).mp hw).fits htame hids, by rw [picked_eq]⟩
  · intro h
    obtain ⟨t, ht, rfl⟩ := h
    obtain ⟨w, hw, rfl⟩ := ht.exists_matches htame hids hr.compiled hseeds
    exact ⟨w, (hws w).mpr hw, by rw [picked_eq]⟩

end

end Route

/-! ## The other end -/

section
variable {ms : List Repetition} {i j : Nat}

theorem Skips.reverse (h : Skips ms i j) (hj : j ≤ ms.length) :
    Skips ms.reverse (ms.length - j) (ms.length - i) := by
  intro k hk hki
  rw [List.getElem?_reverse (by omega)]
  exact h (ms.length - 1 - k) (by omega) (by omega)

theorem MayFollow.reverse (h : MayFollow ms i j) :
    MayFollow ms.reverse (ms.length - 1 - j) (ms.length - 1 - i) := by
  rcases h with ⟨rfl, m, hm, hrep⟩ | ⟨hij, hj, hskips⟩
  · have hlt : j < ms.length := (List.getElem?_eq_some_iff.mp hm).1
    refine Or.inl ⟨rfl, m, ?_, hrep⟩
    rw [List.getElem?_reverse (by omega), ← hm]
    congr 1
    omega
  · refine Or.inr ⟨by omega, by rw [List.length_reverse]; omega, ?_⟩
    have hrev := hskips.reverse (Nat.le_of_lt hj)
    rwa [show ms.length - j = ms.length - 1 - j + 1 by omega, show ms.length - (i + 1) = ms.length - 1 - i by omega]
      at hrev

end

def Direction.opposite : Direction → Direction
  | forward => backward
  | backward => forward

theorem mem_neighbours_opposite {g : Graph} (hg : g.Stored) (d : Direction) {p q : ObjectId} :
    p ∈ d.opposite.neighbours g q ↔ q ∈ d.neighbours g p := by
  cases d with
  | forward => exact hg.mem_children.symm
  | backward => exact hg.mem_children

namespace Route

/-- The way along the segments in one direction. -/
def along (d : Direction) (segments : List Segment) : Route :=
  ⟨segments, .compile segments, d⟩

def reverse (r : Route) : Route :=
  along r.direction.opposite r.segments.reverse

/-- The trail from the other end of a path with `k` segments. -/
def mirror (k : Nat) (t : Trail) : Trail :=
  (t.map fun s => (k - 1 - s.1, s.2)).reverse

variable {r : Route} {t : Trail} {i : Nat}

theorem reverse_along (d : Direction) (segments : List Segment) :
    (along d segments).reverse = along d.opposite segments.reverse := rfl

theorem repetitions_reverse : r.reverse.repetitions = r.repetitions.reverse :=
  List.map_reverse

theorem segments_reverse (hi : i < r.repetitions.length) :
    r.reverse.segments[r.repetitions.length - 1 - i]? = r.segments[i]? := by
  rw [repetitions, List.length_map] at *
  refine (List.getElem?_reverse (by omega)).trans ?_
  congr 1
  omega

theorem test_reverse (hi : i < r.repetitions.length) :
    r.reverse.test (r.repetitions.length - 1 - i) = r.test i := by
  rw [test, segments_reverse hi, test]

theorem extracts_reverse (hi : i < r.repetitions.length) :
    r.reverse.extracts (r.repetitions.length - 1 - i) = r.extracts i := by
  rw [extracts, segments_reverse hi, extracts]

theorem chosen_mirror (h : ∀ s ∈ t, s.1 < r.repetitions.length) :
    r.reverse.chosen (mirror r.repetitions.length t) = (r.chosen t).reverse := by
  have hfilter : (t.filter fun s => r.reverse.extracts (r.repetitions.length - 1 - s.1)) =
      t.filter fun s => r.extracts s.1 :=
    List.filter_congr fun s hs => extracts_reverse (h s hs)
  rw [chosen, mirror, List.filter_reverse, List.map_reverse, List.filter_map, List.map_map, chosen, ← hfilter]
  rfl

theorem Fits.reverse (hg : c.graph.Stored) (h : r.Fits c σ t) :
    r.reverse.Fits c σ (mirror r.repetitions.length t) where
  two_le := by
    rw [mirror, List.length_reverse, List.length_map]
    exact h.two_le
  holds := by
    intro s hs
    obtain ⟨u, hu, rfl⟩ := List.mem_map.mp (List.mem_reverse.mp hs)
    obtain ⟨hlt, hpass⟩ := h.holds u hu
    refine ⟨?_, ?_⟩
    · rw [repetitions_reverse, List.length_reverse]
      dsimp only
      omega
    · rw [test_reverse hlt]
      exact hpass
  start := by
    intro s hs
    rw [mirror, List.head?_reverse, List.getLast?_map] at hs
    obtain ⟨u, hu, rfl⟩ := Option.map_eq_some_iff.mp hs
    have hskips := (h.stop u hu).reverse (Nat.le_refl _)
    rwa [Nat.sub_self, Nat.add_comm, Nat.sub_add_eq, ← repetitions_reverse] at hskips
  linked := by
    rw [mirror, List.isChain_reverse]
    refine List.isChain_map_of_isChain _ (fun s u hlinked => ?_) h.linked
    refine ⟨?_, (mem_neighbours_opposite hg r.direction).mpr hlinked.2⟩
    rw [repetitions_reverse]
    exact hlinked.1.reverse
  stop := by
    intro s hs
    rw [mirror, List.getLast?_reverse, List.head?_map] at hs
    obtain ⟨u, hu, rfl⟩ := Option.map_eq_some_iff.mp hs
    have hlt : u.1 < r.repetitions.length := (h.holds u (List.mem_of_mem_head? hu)).1
    have hskips := (h.start u hu).reverse (Nat.le_of_lt hlt)
    rw [repetitions_reverse, List.length_reverse]
    rwa [Nat.sub_zero, show r.repetitions.length - u.1 = r.repetitions.length - 1 - u.1 + 1 by omega] at hskips

theorem exists_fits_reverse (hg : c.graph.Stored) {ps : List ObjectId} (h : ∃ t, r.Fits c σ t ∧ r.chosen t = ps) :
    ∃ t, r.reverse.Fits c σ t ∧ r.reverse.chosen t = ps.reverse := by
  obtain ⟨t, ht, rfl⟩ := h
  exact ⟨_, ht.reverse hg, chosen_mirror fun s hs => (ht.holds s hs).1⟩

end Route

/-! ## Both ways -/

section
variable {segments : List Segment} {d : Direction} {s s' : Session} {found : List (List ObjectId)}

theorem tame_along (h : ∀ s ∈ segments, s.test.Tame c σ) (i : Nat) : ((Route.along d segments).test i).Tame c σ := by
  rw [Route.test]
  cases hs : (Route.along d segments).segments[i]? with
  | none => trivial
  | some s => exact h s (List.mem_of_getElem? hs)

theorem mem_ids_of_mem_neighbours {g : Graph} (hinputs : ∀ e ∈ g.edges, e.parent ∈ g.ids) {p q : ObjectId}
    (h : q ∈ d.neighbours g p) : p ∈ g.ids := by
  cases d with
  | forward =>
    obtain ⟨e, he, hchild⟩ := List.mem_filterMap.mp h
    split at hchild
    · rename_i hparent
      rw [← hparent]
      exact hinputs e he
    · cases hchild
  | backward => exact Graph.mem_ids_of_mem_parents h

theorem mem_walks_iff (hinputs : ∀ e ∈ c.graph.edges, e.parent ∈ c.graph.ids)
    (hextract : ∀ e ∈ segments, e.extract = true → e.repetition = .one)
    (htests : ∀ e ∈ segments, e.test.Tame c s.scope)
    (h : walks (evaluateIn n) (.along d segments) c s = (.ok found, s')) (ps : List ObjectId) :
    ps ∈ found ↔ ∃ t, (Route.along d segments).Fits c s.scope t ∧ (Route.along d segments).chosen t = ps.reverse := by
  have hr : (Route.along d segments).Proper := ⟨rfl, hextract⟩
  have hfound := (Route.ensures_walks_fit (n := n) (tame_along htests)
    (fun p q => mem_ids_of_mem_neighbours hinputs) hr s found s' rfl h).2 ps
  simpa only [List.reverse_eq_iff] using hfound

/-- The walks along the children that match a path and those along the parents that match it
reversed extract the same, in the order in which the path is written. A test may be any in which no
closure is involved: of a value that is no closure (`tame_val`), such as an object, a list of
objects or `ALL`, or of a loop over all objects (`tame_scan`). -/
theorem mem_walks_reverse {k : Nat} {t t' : Session} {found' : List (List ObjectId)} (hg : c.graph.Stored)
    (hinputs : ∀ e ∈ c.graph.edges, e.parent ∈ c.graph.ids)
    (hextract : ∀ e ∈ segments, e.extract = true → e.repetition = .one)
    (htests : ∀ e ∈ segments, e.test.Tame c s.scope) (hscope : t.scope = s.scope)
    (hforward : walks (evaluateIn n) (.along .forward segments) c s = (.ok found, s'))
    (hbackward : walks (evaluateIn k) (.along .backward segments.reverse) c t = (.ok found', t'))
    (ps : List ObjectId) : ps ∈ found.map (inOrder .forward) ↔ ps ∈ found'.map (inOrder .backward) := by
  have hiff := mem_walks_iff hinputs hextract htests hforward ps.reverse
  have hiff' := mem_walks_iff hinputs (fun e he => hextract e (List.mem_reverse.mp he))
    (fun e he => hscope ▸ htests e (List.mem_reverse.mp he)) hbackward ps
  have hback : (Route.along .backward segments.reverse).reverse = .along .forward segments := by
    rw [Route.reverse_along, List.reverse_reverse]
    rfl
  rw [List.reverse_reverse] at hiff
  rw [hscope] at hiff'
  have hleft : ps ∈ found.map (inOrder .forward) ↔ ps.reverse ∈ found := by
    simp [inOrder, List.reverse_eq_iff]
  have hright : ps ∈ found'.map (inOrder .backward) ↔ ps ∈ found' := by
    simp [inOrder]
  rw [hleft, hright, hiff, hiff']
  constructor
  · exact Route.exists_fits_reverse hg
  · intro h
    have h := Route.exists_fits_reverse hg h
    rwa [hback, List.reverse_reverse] at h

end

/-- Every object but the second. -/
def notSecond : Expr :=
  Expr.scan ⟨0, "x"⟩ (.binary .ne (.ref 0) (.object 2))

/-- From the first object to another, by way of the second or not, and at most one step further. -/
def crossing : List Segment :=
  [⟨.one, .expr (.object 1), true⟩, ⟨.star, .any, false⟩, ⟨.optional, .expr (.val (.listOf (ofObjects [2]))), false⟩,
    ⟨.one, .expr notSecond, true⟩, ⟨.optional, .expr Expr.all, false⟩]

def grown : Setting :=
  ⟨((Graph.empty.addObject 1).addInput 2 1).addInput 3 2, ⟨5, none, 5⟩, .standard⟩

theorem mem_walks_reverse_crossing :
    (walks (evaluateIn 4) (.along .forward crossing) grown (.new false)).1 = .ok [[3, 1], [3, 1]] ∧
      (walks (evaluateIn 4) (.along .backward crossing.reverse) grown (.new false)).1 = .ok [[1, 3], [1, 3]] ∧
      ∀ ps, ps ∈ [[3, 1], [3, 1]].map (inOrder .forward) ↔ ps ∈ [[1, 3], [1, 3]].map (inOrder .backward) := by
  have hforward : (walks (evaluateIn 4) (.along .forward crossing) grown (.new false)).1 = .ok [[3, 1], [3, 1]] := by
    cbv
  have hbackward : (walks (evaluateIn 4) (.along .backward crossing.reverse) grown (.new false)).1 =
      .ok [[1, 3], [1, 3]] := by
    cbv
  have hrun : walks (evaluateIn 4) (.along .forward crossing) grown (.new false) =
      (.ok [[3, 1], [3, 1]], (walks (evaluateIn 4) (.along .forward crossing) grown (.new false)).2) := by
    rw [← hforward]
  have hrun' : walks (evaluateIn 4) (.along .backward crossing.reverse) grown (.new false) =
      (.ok [[1, 3], [1, 3]], (walks (evaluateIn 4) (.along .backward crossing.reverse) grown (.new false)).2) := by
    rw [← hbackward]
  have hgrown : grown.graph.Stored := ((Graph.Stored.empty.addObject 1).set 2 _ _).set 3 _ _
  have hguard : Inert (.binary .ne (.ref 0) (.object 2)) :=
    Expr.inert_binary rfl (Expr.inert_ref 0) (Expr.inert_val rfl)
  have htests : ∀ e ∈ crossing, e.test.Tame grown (Session.new false).scope := by
    simp only [crossing, List.forall_mem_cons]
    exact ⟨tame_val (by decide), trivial, tame_val (by decide), tame_scan hguard, tame_val (by decide),
      List.forall_mem_nil _⟩
  exact ⟨hforward, hbackward, mem_walks_reverse hgrown (by decide) (by decide) htests rfl hrun hrun'⟩

end Provenance.Path
