import Mathlib.Data.Finset.Card
import Mathlib.Data.List.Dedup
import Mathlib.Logic.Relation
import Provenance.Proofs.Eval.Budget
import Provenance.Proofs.Graph.Stored
import Provenance.Proofs.Path.Skipping

/-!
# Paths that end by themselves

Without a limit on steps nothing stops the generations of a path but that there
is nowhere to go on from. A path without repetitions comes to that since each
generation goes on with later segments, and every path does if the graph has no
cycle, since from the objects of each generation fewer can be reached than from
those of the one before (`walks_end`).

Both are ranks that fall from walker to walker (`run_ends`).
-/

namespace Provenance

/-! ## Graphs without cycles -/

namespace Graph

/-- The objects with records and those at the ends of edges. -/
def occurring (g : Graph) : Finset ObjectId :=
  (g.ids ++ g.edges.map Edge.child ++ g.edges.map Edge.parent).toFinset

def Acyclic (g : Graph) : Prop :=
  ∀ p, ¬ Relation.TransGen (fun child parent => ⟨child, parent⟩ ∈ g.edges) p p

variable {g : Graph} {p q : ObjectId}

theorem mem_occurring_of_edge (h : ⟨q, p⟩ ∈ g.edges) : q ∈ g.occurring ∧ p ∈ g.occurring := by
  simp only [occurring, List.mem_toFinset, List.mem_append]
  exact ⟨.inl (.inr (List.mem_map_of_mem (f := Edge.child) h)), .inr (List.mem_map_of_mem (f := Edge.parent) h)⟩

theorem mem_children_iff : q ∈ g.children p ↔ ⟨q, p⟩ ∈ g.edges := by
  rw [children, List.mem_filterMap]
  constructor
  · intro h
    obtain ⟨e, he, hchild⟩ := h
    obtain ⟨rfl, rfl⟩ : e.parent = p ∧ e.child = q := by simpa using hchild
    exact he
  · intro h
    exact ⟨_, h, if_pos rfl⟩

theorem Stored.mem_parents_iff (h : g.Stored) : p ∈ g.parents q ↔ ⟨q, p⟩ ∈ g.edges :=
  h.mem_children.symm.trans mem_children_iff

/-- It is enough that every object has a greater number than its inputs. -/
theorem acyclic_of_lt (h : ∀ e ∈ g.edges, e.parent < e.child) : g.Acyclic := by
  have hlt : ∀ {p q}, Relation.TransGen (fun child parent => ⟨child, parent⟩ ∈ g.edges) p q → q < p := fun hpq => by
    induction hpq with
    | single he => exact h _ he
    | tail _ he ih => exact UInt64.lt_trans (h _ he) ih
  exact fun p hp => UInt64.lt_irrefl p (hlt hp)

end Graph

namespace Path

open Eval

variable {g : Graph} {p q : ObjectId} {d : Direction}

theorem mem_occurring_of_mem_neighbours (hg : g.Stored) (h : p ∈ d.neighbours g q) :
    q ∈ g.occurring ∧ p ∈ g.occurring := by
  cases d with
  | forward => exact (Graph.mem_occurring_of_edge (Graph.mem_children_iff.mp h)).symm
  | backward => exact Graph.mem_occurring_of_edge (hg.mem_parents_iff.mp h)

/-- On the way of a path too there is no cycle. -/
theorem not_transGen_neighbours (hg : g.Stored) (hacyclic : g.Acyclic) (d : Direction) (p : ObjectId) :
    ¬ Relation.TransGen (fun q p => p ∈ d.neighbours g q) p p := by
  intro h
  cases d with
  | forward =>
    exact hacyclic p (Relation.transGen_swap.mp (Relation.TransGen.mono (fun _ _ => Graph.mem_children_iff.mp) _ _ h))
  | backward => exact hacyclic p (Relation.TransGen.mono (fun _ _ => hg.mem_parents_iff.mp) _ _ h)

open Classical in
/-- The objects that a walk can still come to. -/
noncomputable def ahead (d : Direction) (g : Graph) (q : ObjectId) : Finset ObjectId :=
  g.occurring.filter fun p => Relation.TransGen (fun q p => p ∈ d.neighbours g q) q p

open Classical in
theorem mem_ahead : p ∈ ahead d g q ↔ p ∈ g.occurring ∧ Relation.TransGen (fun q p => p ∈ d.neighbours g q) q p := by
  rw [ahead, Finset.mem_filter]

theorem ahead_ssubset (hg : g.Stored) (hacyclic : g.Acyclic) (h : p ∈ d.neighbours g q) :
    ahead d g p ⊂ ahead d g q := by
  refine Finset.ssubset_iff_subset_ne.mpr ⟨fun x hx => ?_, fun heq => ?_⟩
  · obtain ⟨hx, hpx⟩ := mem_ahead.mp hx
    exact mem_ahead.mpr ⟨hx, .head h hpx⟩
  · have hp : p ∈ ahead d g q := mem_ahead.mpr ⟨(mem_occurring_of_mem_neighbours hg h).2, .single h⟩
    rw [← heq] at hp
    exact not_transGen_neighbours hg hacyclic d p (mem_ahead.mp hp).2

theorem card_ahead_lt (hg : g.Stored) (hacyclic : g.Acyclic) (q : ObjectId) :
    (ahead d g q).card < max 1 g.occurring.card := by
  rcases (ahead d g q).eq_empty_or_nonempty with hempty | ⟨x, hx⟩
  · rw [hempty, Finset.card_empty]
    exact Nat.lt_of_lt_of_le Nat.zero_lt_one (Nat.le_max_left _ _)
  · obtain ⟨p, hp, -⟩ := Relation.TransGen.head'_iff.mp (mem_ahead.mp hx).2
    have hq := (mem_occurring_of_mem_neighbours hg hp).1
    have hlt : ahead d g q ⊂ g.occurring := by
      refine Finset.ssubset_iff_subset_ne.mpr ⟨fun x hx => (mem_ahead.mp hx).1, fun heq => ?_⟩
      rw [← heq] at hq
      exact not_transGen_neighbours hg hacyclic d q (mem_ahead.mp hq).2
    exact Nat.lt_of_lt_of_le (Finset.card_lt_card hlt) (Nat.le_max_right _ _)

/-! ## Outcomes and aborts -/

variable {α β : Type}

/-- In every session after `s₀`, the computation has an outcome as `P` says or is aborted as `A` says. -/
def Leads (c : Setting) (s₀ : Session) (A : Abort → Prop) (m : Eval α) (P : α → Prop) : Prop :=
  ∀ s, s₀.Restored s →
    s₀.Restored (m c s).2 ∧ (∀ a, (m c s).1 = .ok a → P a) ∧ ∀ e, (m c s).1 = .error e → A e

variable {c : Setting} {s₀ : Session} {A : Abort → Prop}

theorem Leads.pure {a : α} {P : α → Prop} (h : P a) : Leads c s₀ A (pure a) P :=
  fun _ hs => ⟨hs, fun _ hb => (by cases hb; exact h), fun _ he => (by cases he)⟩

theorem Leads.bind {m : Eval α} {f : α → Eval β} {P : α → Prop} {Q : β → Prop} (hm : Leads c s₀ A m P)
    (hf : ∀ a, P a → Leads c s₀ A (f a) Q) : Leads c s₀ A (m >>= f) Q := by
  intro s hs
  obtain ⟨hs₁, hP, hA⟩ := hm s hs
  rw [bind_apply]
  rcases h : m c s with ⟨e | a, s₁⟩
  all_goals rw [h] at hs₁ hP hA
  · exact ⟨hs₁, fun _ hb => (by cases hb), fun _ he => (by cases he; exact hA e rfl)⟩
  · exact hf a (hP a rfl) s₁ hs₁

/-- For a computation that restores the session. -/
theorem Leads.of_restores {m : Eval α} (hm : Restores m)
    (hA : ∀ s, s₀.Restored s → ∀ e, (m c s).1 = .error e → A e) : Leads c s₀ A m fun _ => True :=
  fun s hs => ⟨hs.trans (hm c s), fun _ _ => trivial, hA s hs⟩

/-- For a computation that restores the session and always has an outcome. -/
theorem Leads.always_bind {m : Eval α} {f : α → Eval β} {Q : β → Prop} (hm : Restores m)
    (hok : ∀ s e, (m c s).1 ≠ .error e) (hf : ∀ a, Leads c s₀ A (f a) Q) : Leads c s₀ A (m >>= f) Q :=
  (Leads.of_restores hm fun s _ e he => absurd he (hok s e)).bind fun a _ => hf a

theorem Leads.note_bind {line : Unit → String} {f : Unit → Eval β} {Q : β → Prop} (hf : Leads c s₀ A (f ()) Q) :
    Leads c s₀ A (note line >>= f) Q :=
  .always_bind (restores_note line) (fun _ _ h => by cases h) fun _ => hf

theorem Leads.graph_bind {f : Graph → Eval β} {Q : β → Prop} (hf : Leads c s₀ A (f c.graph) Q) :
    Leads c s₀ A (graph >>= f) Q :=
  hf

/-! ## Walks -/

/-- In a session after `s`, a test of the route is aborted that way. -/
def Route.Aborts (r : Route) (ev : Expr → Eval (Option Value)) (c : Setting) (s : Session) (e : Abort) : Prop :=
  ∃ i s', s.Restored s' ∧
    ((startObjects ev (r.test i) c s').1 = .error e ∨ ∃ p, (passes ev p (r.test i) c s').1 = .error e)

/-- The walks of a route, which may run for that many generations. -/
def walksFor (ev : Expr → Eval (Option Value)) (r : Route) (n : Nat) : Eval (List (List ObjectId)) := do
  let live ← launch ev r r.automaton.starts
  run ev r n live []

/-- After that many generations no walker is left, however many more there may be, unless a test is aborted before. -/
def Route.EndsWithin (r : Route) (ev : Expr → Eval (Option Value)) (c : Setting) (s : Session) (m : Nat) : Prop :=
  ∃ a s', (∀ k, m ≤ k → walksFor ev r k c s = (a, s')) ∧ ∀ e, a = .error e → r.Aborts ev c s e

theorem Route.EndsWithin.eq {r : Route} {ev : Expr → Eval (Option Value)} {s : Session} {m k : Nat}
    (h : r.EndsWithin ev c s m) (hk : m ≤ k) : walksFor ev r k c s = walksFor ev r m c s := by
  obtain ⟨a, s', hends, -⟩ := h
  rw [hends k hk, hends m (Nat.le_refl m)]

theorem walks_eq_walksFor (hlimit : c.limits.maxPathSteps = none) (ev : Expr → Eval (Option Value)) (r : Route)
    (s : Session) : walks ev r c s = walksFor ev r c.limits.patience c s := by
  have hgenerations : ∀ s, generations c s = (.ok c.limits.patience, s) := fun s => by simp only [generations, hlimit]
  rw [walks, walksFor, bind_apply, bind_apply]
  rcases launch ev r r.automaton.starts c s with ⟨e | live, s₁⟩
  · rfl
  · exact bind_of_ok (hgenerations s₁) _

section
variable {ev : Expr → Eval (Option Value)} (hev : ∀ e, Restores (ev e)) {r : Route}
include hev

/-- All walkers go on from a seed, whichever objects these are. -/
theorem leads_launch {Q : Walker → Prop} (hseed : ∀ i p kept, ∀ v ∈ r.successors i p kept, Q v) :
    ∀ starts : List Nat, Leads c s₀ (r.Aborts ev c s₀) (launch ev r starts) fun live => ∀ v ∈ live, Q v
  | [] => .pure fun _ h => by cases h
  | i :: rest => by
    have hstart : Leads c s₀ (r.Aborts ev c s₀) (indented (startObjects ev (r.test i))) fun _ => True :=
      .of_restores (.indented (@Compositional.startObjects _ ev ev congruence_restores.toCompositional hev _))
        fun s hs e he => ⟨i, enter s, hs.trans (restored_enter s), .inl he⟩
    refine .note_bind (hstart.bind fun ps _ => .note_bind ((leads_launch hseed rest).bind fun later hlater => .pure ?_))
    intro v hv
    rcases List.mem_append.mp hv with hv | hv
    · obtain ⟨p, -, hv⟩ := List.mem_flatMap.mp hv
      exact hseed i p _ v hv
    · exact hlater v hv

variable (hlimit : c.limits.maxPathSteps = none)
include hlimit

/-- What holds of the walkers so far, and of those that go on from the object, holds of all that are left. -/
theorem leads_visit {Q : Walker → Prop} {w : Walker} {f : Frontier} (hf : ∀ v ∈ f.next, Q v)
    (hw : ∀ v ∈ r.successors w.state p (r.extend w.state p w.kept), Q v) :
    Leads c s₀ (r.Aborts ev c s₀) (visit ev r w f p) fun f' => ∀ v ∈ f'.next, Q v := by
  have hpasses : Leads c s₀ (r.Aborts ev c s₀) (passes ev p (r.test w.state)) fun _ => True :=
    .of_restores (@Compositional.passes _ ev ev congruence_restores.toCompositional hev p _)
      fun s hs e he => ⟨w.state, s, hs, .inr ⟨p, he⟩⟩
  have hnext : ∀ v ∈ (r.successors w.state p (r.extend w.state p w.kept)).foldl (fun ws w => w :: ws) f.next, Q v := by
    intro v hv
    simp only [List.foldl_flip_cons_eq_append', List.mem_append, List.mem_reverse] at hv
    exact hv.elim (hw v) (hf v)
  refine .always_bind restores_countStep (fun _ _ h => by simp [countStep, hlimit] at h) fun _ => ?_
  refine hpasses.bind fun ok _ => ?_
  split
  · split
    · exact .note_bind (.pure hnext)
    · exact .pure hnext
  · exact .pure hf

theorem leads_visitAll {Q : Walker → Prop} {w : Walker} : ∀ {ps : List ObjectId} {f : Frontier}, (∀ v ∈ f.next, Q v) →
    (∀ p ∈ ps, ∀ v ∈ r.successors w.state p (r.extend w.state p w.kept), Q v) →
    Leads c s₀ (r.Aborts ev c s₀) (visitAll ev r w ps f) fun f' => ∀ v ∈ f'.next, Q v
  | [], _, hf, _ => .pure hf
  | p :: _, _, hf, hw =>
    (leads_visit hev hlimit hf (hw p List.mem_cons_self)).bind fun _ hf' =>
      leads_visitAll hf' fun q hq => hw q (List.mem_cons_of_mem p hq)

theorem leads_exploreAll {Q : Walker → Prop} : ∀ {ws : List Walker} {f : Frontier}, (∀ v ∈ f.next, Q v) →
    (∀ w ∈ ws, ∀ p ∈ r.direction.neighbours c.graph w.last,
      ∀ v ∈ r.successors w.state p (r.extend w.state p w.kept), Q v) →
    Leads c s₀ (r.Aborts ev c s₀) (exploreAll ev r ws f) fun f' => ∀ v ∈ f'.next, Q v
  | [], _, hf, _ => .pure hf
  | w :: _, f, hf, hws => by
    have hexplore : Leads c s₀ (r.Aborts ev c s₀) (explore ev r w f) fun f' => ∀ v ∈ f'.next, Q v :=
      .graph_bind (.note_bind (leads_visitAll hev hlimit hf (hws w List.mem_cons_self)))
    exact hexplore.bind fun _ hf' => leads_exploreAll hf' fun v hv => hws v (List.mem_cons_of_mem w hv)

theorem leads_generation {Q : Walker → Prop} {live : List Walker} {found : List (List ObjectId)}
    (hlive : ∀ w ∈ live, ∀ p ∈ r.direction.neighbours c.graph w.last,
      ∀ v ∈ r.successors w.state p (r.extend w.state p w.kept), Q v) :
    Leads c s₀ (r.Aborts ev c s₀) (generation ev r live found) fun f => ∀ v ∈ f.next, Q v := by
  refine .note_bind (.always_bind (fun _ => restored_enter) (fun _ _ h => by cases h) fun _ => ?_)
  refine (leads_exploreAll hev hlimit (fun _ h => by cases h) hlive).bind fun f hf => ?_
  exact .always_bind (fun _ => restored_leave) (fun _ _ h => by cases h) fun _ => .pure hf

/-! ## Ranks -/

variable {rank : Nat → ObjectId → Nat}
  (hfall : ∀ i j q p, j ∈ r.next i → p ∈ r.direction.neighbours c.graph q → rank j p < rank i q)
include hfall

/-- By induction on a bound for the ranks, which the next generation has one less of. -/
theorem run_ends : ∀ (m : Nat) {live : List Walker} {found : List (List ObjectId)} {s : Session}, s₀.Restored s →
    (∀ w ∈ live, rank w.state w.last < m) →
    ∃ a s', (∀ k, m ≤ k → run ev r k live found c s = (a, s')) ∧ ∀ e, a = .error e → r.Aborts ev c s₀ e
  | m, [], found, s, _, _ => by
    refine ⟨.ok found.reverse, s, fun k _ => ?_, fun _ h => by cases h⟩
    rw [run_nil]
    rfl
  | 0, w :: _, _, _, _, hlive => absurd (hlive w List.mem_cons_self) (Nat.not_lt_zero _)
  | m + 1, w :: live, found, s, hs, hlive => by
    have hgoing : ∀ u ∈ w :: live, ∀ p ∈ r.direction.neighbours c.graph u.last,
        ∀ v ∈ r.successors u.state p (r.extend u.state p u.kept), rank v.state v.last < m := by
      intro u hu p hp v hv
      obtain ⟨j, hj, rfl⟩ := List.mem_map.mp hv
      exact Nat.lt_of_lt_of_le (hfall u.state j u.last p hj hp) (Nat.le_of_lt_succ (hlive u hu))
    have hsucc : ∀ k, m + 1 ≤ k → ∃ k', k = k' + 1 ∧ m ≤ k' := fun k hk => ⟨k - 1, by omega, by omega⟩
    have hgeneration : Leads c s₀ (r.Aborts ev c s₀) (generation ev r (w :: live) found) fun f =>
        ∀ v ∈ f.next, rank v.state v.last < m := leads_generation hev hlimit hgoing
    obtain ⟨hs₁, hnext, haborts⟩ := hgeneration s hs
    rcases h : generation ev r (w :: live) found c s with ⟨e | f, s₁⟩
    all_goals rw [h] at hs₁ hnext haborts
    · refine ⟨.error e, s₁, fun k hk => ?_, fun _ he => by cases he; exact haborts e rfl⟩
      obtain ⟨k, rfl, -⟩ := hsucc k hk
      rw [run_succ, bind_of_abort h]
    · have hranks : ∀ v ∈ f.next.reverse, rank v.state v.last < m := fun v hv =>
        hnext f rfl v (List.mem_reverse.mp hv)
      obtain ⟨a, s', hrun, ha⟩ := run_ends m hs₁ hranks
      refine ⟨a, s', fun k hk => ?_, ha⟩
      obtain ⟨k, rfl, hmk⟩ := hsucc k hk
      rw [run_succ, bind_of_ok h]
      exact hrun k hmk

theorem endsWithin_of_rank {m : Nat} (hseed : ∀ i j p, j ∈ r.next i → rank j p < m) (s : Session) :
    r.EndsWithin ev c s m := by
  have hseeds : ∀ i p kept, ∀ v ∈ r.successors i p kept, rank v.state v.last < m := by
    intro i p kept v hv
    obtain ⟨j, hj, rfl⟩ := List.mem_map.mp hv
    exact hseed i j p hj
  have hlaunch : Leads c s (r.Aborts ev c s) (launch ev r r.automaton.starts) fun live =>
      ∀ w ∈ live, rank w.state w.last < m := leads_launch hev hseeds r.automaton.starts
  obtain ⟨hs₁, hlive, haborts⟩ := hlaunch s (.refl s)
  rcases h : launch ev r r.automaton.starts c s with ⟨e | live, s₁⟩
  all_goals rw [h] at hs₁ hlive haborts
  · exact ⟨.error e, s₁, fun k _ => bind_of_abort h _, fun _ he => by cases he; exact haborts e rfl⟩
  · obtain ⟨a, s', hrun, ha⟩ := run_ends hev hlimit hfall m hs₁ (hlive live rfl)
    exact ⟨a, s', fun k hk => (bind_of_ok h _).trans (hrun k hk), ha⟩

end

theorem Route.lt_of_mem_next {r : Route} (hr : r.Compiled) (hrepeats : ∀ m ∈ r.repetitions, m.repeats = false)
    {i j : Nat} (h : j ∈ r.next i) : i < j ∧ j < r.segments.length := by
  obtain ⟨-, hfollow⟩ := (Route.mem_next hr).mp h
  rcases hfollow with ⟨-, m, hm, hrepeat⟩ | ⟨hlt, hj, -⟩
  · rw [hrepeats m (List.mem_of_getElem? hm)] at hrepeat
    cases hrepeat
  · rw [repetitions, List.length_map] at hj
    exact ⟨hlt, hj⟩

/-- Without a limit on steps there is only the patience. The walks of a path without repetitions are at an end after
fewer generations than there are segments, in every graph. If the graph has no cycle, those of every path are at an end
after no more generations than there are objects, or one if the seed is none of these. -/
theorem walks_end {n : Nat} {r : Route} {s : Session} (hlimit : c.limits.maxPathSteps = none) (hr : r.Compiled) :
    walks (evaluateIn n) r c s = walksFor (evaluateIn n) r c.limits.patience c s ∧
    ((∀ m ∈ r.repetitions, m.repeats = false) → r.EndsWithin (evaluateIn n) c s (r.segments.length - 1)) ∧
    (c.graph.Stored → c.graph.Acyclic → r.EndsWithin (evaluateIn n) c s (max 1 c.graph.occurring.card)) := by
  refine ⟨walks_eq_walksFor hlimit _ r s, fun hrepeats => ?_, fun hg hacyclic => ?_⟩
  · have hlt : ∀ {i j}, j ∈ r.next i → i < j ∧ j < r.segments.length := Route.lt_of_mem_next hr hrepeats
    have hfall : ∀ i j q p, j ∈ r.next i → p ∈ r.direction.neighbours c.graph q →
        r.segments.length - 1 - j < r.segments.length - 1 - i := fun i j q p hj _ => by
      have := hlt hj
      omega
    refine endsWithin_of_rank (restores_evaluateIn n) hlimit hfall (fun i j p hj => ?_) s
    have := hlt hj
    omega
  · have hfall : ∀ i j q p, j ∈ r.next i → p ∈ r.direction.neighbours c.graph q →
        (ahead r.direction c.graph p).card < (ahead r.direction c.graph q).card := fun i j q p _ hp =>
      Finset.card_lt_card (ahead_ssubset hg hacyclic hp)
    exact endsWithin_of_rank (restores_evaluateIn n) hlimit hfall (fun _ _ p _ => card_ahead_lt hg hacyclic p) s

/-- Two objects, each the input of the other. -/
def roundabout : Graph :=
  ⟨[(1, [("INPUT", .object 2)]), (2, [("INPUT", .object 1)])], [⟨1, 2⟩, ⟨2, 1⟩]⟩

/-- From the object 1 to one or two more. -/
def shortcut : Route :=
  let segments : List Segment := [⟨.one, .expr (.object 1), false⟩, ⟨.optional, .any, true⟩, ⟨.one, .any, true⟩]
  ⟨segments, .compile segments, .forward⟩

theorem walks_end_roundabout :
    let c : Setting := ⟨roundabout, ⟨3, none, 0⟩, .standard⟩
    let c' : Setting := ⟨lineage, ⟨3, none, 0⟩, .standard⟩
    (∀ k, 2 ≤ k → (walksFor (evaluateIn 2) shortcut k c (.new false)).1 = .ok [[2], [1, 2]]) ∧
    ∀ k, 3 ≤ k → (walksFor (evaluateIn 2) (route [] descendants) k c' (.new false)).1 = .ok [[2], [3]] := by
  intro c c'
  have hstored : c'.graph.Stored := .set (.set (.addObject .empty 1) 2 "INPUT" (.object 1)) 3 "INPUT" (.object 2)
  have hacyclic : c'.graph.Acyclic := Graph.acyclic_of_lt (by decide)
  have hends : shortcut.EndsWithin (evaluateIn 2) c (.new false) 2 :=
    (walks_end (r := shortcut) rfl rfl).2.1 (by decide)
  have hends' : (route [] descendants).EndsWithin (evaluateIn 2) c' (.new false) 3 :=
    (walks_end (r := route [] descendants) rfl rfl).2.2 hstored hacyclic
  have hvalue : (walksFor (evaluateIn 2) shortcut 2 c (.new false)).1 = .ok [[2], [1, 2]] := by cbv
  have hvalue' : (walksFor (evaluateIn 2) (route [] descendants) 3 c' (.new false)).1 = .ok [[2], [3]] := by cbv
  exact ⟨fun k hk => by rw [hends.eq hk, hvalue], fun k hk => by rw [hends'.eq hk, hvalue']⟩

end Path

end Provenance
