import Provenance.Proofs.Eval.Gives
import Provenance.Proofs.Value.Everywhere

/-!
# What loops gather

A loop over objects that returns its variable gives a list of objects: those
that its guard lets pass (`yields_gatherObjects`). Every loop either goes through
a list of values (`itemsOf?`) or has its source for its only value; one that
returns each of these values lists them (`yields_listed`).
-/

namespace Provenance.Eval

open Members (ofObjects)

variable {q : Bool} {c : Setting} {σ : Scope (Option Value)} {ev : Expr → Eval (Option Value)}

section
variable {item : Value → Eval (Option Value)} (hi : ∀ v, Steady (item v)) {v : Option Value}
include hi

theorem yields_overList {t : Option Tag} {members : List Value} :
    Yields q c σ (overSource item (.list t members)) v ↔
      ∃ l, Yields q c σ (gatherAll item members .empty) l ∧ v = some l.reverse.value := by
  rw [overSource, yields_bind (respected_carriesOver.gatherAll hi _ _) fun _ => respected_carriesOver.pure _]
  simp only [yields_pure]

theorem yields_overAll :
    Yields q c σ (overSource item .all) v ↔
      ∃ l, Yields q c σ (gatherAll item (ofObjects c.graph.ids) .empty) l ∧ v = some l.reverse.value := by
  have hrest : ∀ g : Graph, Steady (gatherAll item (g.ids.map .object) .empty >>= fun l =>
      pure (some l.reverse.value)) := fun g =>
    respected_carriesOver.bind (respected_carriesOver.gatherAll hi _ _) fun _ => respected_carriesOver.pure _
  rw [overSource, yields_bind respected_carriesOver.graph hrest]
  simp only [yields_graph, exists_eq_left]
  rw [yields_bind (respected_carriesOver.gatherAll hi _ _) fun _ => respected_carriesOver.pure _]
  simp only [yields_pure, ofObjects]

theorem yields_gatherObjects {T : ObjectId → Prop}
    (hT : ∀ p r, Yields q c σ (item (.object p)) r → r = some (.object p) ∧ T p ∨ r = none ∧ ¬ T p) :
    ∀ (ps gathered : List ObjectId) {l : Tagged},
      Yields q c σ (gatherAll item (ofObjects ps) (.of (ofObjects gathered))) l →
      ∃ rs, l = .of (ofObjects rs) ∧ ∀ p, p ∈ rs ↔ p ∈ gathered ∨ p ∈ ps ∧ T p
  | [], gathered, l, h => ⟨gathered, yields_pure.mp h, by simp⟩
  | p :: ps, gathered, l, h => by
    have hrest : ∀ l, Steady (gatherAll item (ofObjects ps) l) := respected_carriesOver.gatherAll hi _
    change Yields q c σ (gather item (.of (ofObjects gathered)) (.object p) >>= fun l => gatherAll item (ofObjects ps) l)
      l at h
    rw [yields_bind (respected_carriesOver.gather hi _ _) hrest] at h
    obtain ⟨l', hl', h⟩ := h
    rw [gather, yields_bind (hi _) fun r => respected_carriesOver.keep _ r _] at hl'
    obtain ⟨r, hr, hl'⟩ := hl'
    rcases hT p r hr with ⟨rfl, hp⟩ | ⟨rfl, hp⟩
    · have hkeep : keep (.of (ofObjects gathered)) (some (.object p)) none = pure (.of (ofObjects (p :: gathered))) :=
        keep_of_push (Tagged.push_of (Members.ofOneKind_ofObjects (p :: gathered)))
      rw [hkeep] at hl'
      rw [yields_pure.mp hl'] at h
      obtain ⟨rs, rfl, hrs⟩ := yields_gatherObjects hT _ _ h
      refine ⟨rs, rfl, fun p' => ?_⟩
      rw [hrs, List.mem_cons, List.mem_cons]
      constructor
      · intro h
        rcases h with (rfl | h) | h
        · exact Or.inr ⟨Or.inl rfl, hp⟩
        · exact Or.inl h
        · exact Or.inr ⟨Or.inr h.1, h.2⟩
      · intro h
        rcases h with h | ⟨rfl | h, hp'⟩
        · exact Or.inl (Or.inr h)
        · exact Or.inl (Or.inl rfl)
        · exact Or.inr ⟨h, hp'⟩
    · rw [yields_pure.mp hl'] at h
      obtain ⟨rs, rfl, hrs⟩ := yields_gatherObjects hT _ _ h
      refine ⟨rs, rfl, fun p' => ?_⟩
      rw [hrs, List.mem_cons]
      constructor
      · intro h
        rcases h with h | h
        · exact Or.inl h
        · exact Or.inr ⟨Or.inr h.1, h.2⟩
      · intro h
        rcases h with h | ⟨rfl | h, hp'⟩
        · exact Or.inl h
        · exact absurd hp' hp
        · exact Or.inr ⟨h, hp'⟩

end

theorem forLoop_eq (ev : Expr → Eval (Option Value)) (x : Var) (source guard body : Expr) :
    forLoop ev x source guard body = ev source >>= whenSome fun a =>
      note (fun _ => "for " ++ x.text ++ " in " ++ a.text) >>= fun _ =>
        indented (overSource (fun item => guarded ev x guard body (some item)) a) >>= fun r =>
          note (fun _ => "for " ++ x.text ++ " => " ++ Value.shown r) >>= fun _ => pure r :=
  rfl

theorem yields_forLoop {x : Var} {source guard body : Expr} (hs : Steady (ev source)) (hg : Steady (ev guard))
    (hb : Steady (ev body)) {v : Option Value} :
    Yields q c σ (forLoop ev x source guard body) v ↔
      Yields q c σ (ev source) none ∧ v = none ∨
        ∃ a, Yields q c σ (ev source) (some a) ∧
          Yields q c σ (overSource (fun item => guarded ev x guard body (some item)) a) v := by
  have hguarded : ∀ item : Value, Steady (guarded ev x guard body (some item)) := fun item =>
    respected_carriesOver.guarded _ (hg.mono fun _ _ => Or.inr trivial) (hb.mono fun _ _ => Or.inr trivial)
  have hover : ∀ a : Value, Steady (overSource (fun item => guarded ev x guard body (some item)) a) :=
    respected_carriesOver.overSource hguarded
  have hrun : ∀ a : Value, Steady (indented (overSource (fun item => guarded ev x guard body (some item)) a) >>=
      fun r => note (fun _ => "for " ++ x.text ++ " => " ++ Value.shown r) >>= fun _ => pure r) := fun a =>
    respected_carriesOver.bind (respected_carriesOver.indented (hover a)) fun _ =>
      respected_carriesOver.bind (respected_carriesOver.note _) fun _ => respected_carriesOver.pure _
  rw [forLoop_eq, yields_whenSome hs fun a => respected_carriesOver.bind (respected_carriesOver.note _) fun _ => hrun a]
  refine or_congr_right (exists_congr fun a => and_congr_right fun _ => ?_)
  rw [yields_note_bind (hrun a), yields_bind_note (respected_carriesOver.indented (hover a)), yields_indented (hover a)]

/-! ## What a loop goes through -/

/-- The values that a loop goes through, if its source is a collection. -/
def itemsOf? (g : Graph) : Value → Option (List Value)
  | .tuple fields => some fields
  | .list _ members => some members
  | .range first last => some ((numbers first last).map .int)
  | .all => some (ofObjects g.ids)
  | _ => none

/-- A collection as the list of its members; another value as it is. -/
def listed (g : Graph) (source : Value) : Value :=
  match itemsOf? g source with
  | some items => .listOf items
  | none => source

theorem isPlain_itemsOf {g : Graph} {source : Value} {items : List Value} (h : source.isPlain = true)
    (hitems : itemsOf? g source = some items) : ∀ v ∈ items, v.isPlain = true := by
  cases source with
  | tuple fields =>
    cases hitems
    exact Value.isPlain_tuple.mp h
  | list kind members =>
    cases hitems
    exact Value.isPlain_list.mp h
  | range first last =>
    cases hitems
    intro v hv
    obtain ⟨n, -, rfl⟩ := List.mem_map.mp hv
    rfl
  | all =>
    cases hitems
    intro v hv
    obtain ⟨p, -, rfl⟩ := List.mem_map.mp hv
    rfl
  | _ => cases hitems

section
variable {item : Value → Eval (Option Value)} (hi : ∀ v, Steady (item v))
include hi

theorem yields_gatherAll_cons {a : Value} {vs : List Value} {gathered l : Tagged} :
    Yields q c σ (gatherAll item (a :: vs) gathered) l ↔
      ∃ r, Yields q c σ (item a) r ∧
        ∃ gathered', Yields q c σ (keep gathered r none) gathered' ∧ Yields q c σ (gatherAll item vs gathered') l := by
  rw [gatherAll, yields_bind (respected_carriesOver.gather hi _ _) (respected_carriesOver.gatherAll hi _)]
  simp only [gather, yields_bind (hi _) fun r => respected_carriesOver.keep _ r _]
  constructor
  · rintro ⟨gathered', ⟨r, hr, hk⟩, h⟩
    exact ⟨r, hr, gathered', hk, h⟩
  · rintro ⟨r, hr, gathered', hk, h⟩
    exact ⟨gathered', ⟨r, hr, hk⟩, h⟩

theorem yields_overSource {source : Value} {v : Option Value} :
    Yields q c σ (overSource item source) v ↔
      match itemsOf? c.graph source with
      | some items => ∃ l, Yields q c σ (gatherAll item items .empty) l ∧ v = some l.reverse.value
      | none => Yields q c σ (item source) v := by
  cases source with
  | all => exact yields_overAll hi
  | list kind members => exact yields_overList hi
  | tuple fields => exact yields_overList (t := none) hi
  | range first last =>
    rw [overSource_range]
    exact yields_overList (t := none) hi
  | _ => exact Iff.rfl

variable {item' : Value → Eval (Option Value)} (hi' : ∀ v, Steady (item' v))
include hi'

theorem yields_gatherAll_mono : ∀ {vs : List Value} {gathered l : Tagged},
    (∀ a ∈ vs, ∀ r, Yields q c σ (item a) r → Yields q c σ (item' a) r) →
      Yields q c σ (gatherAll item vs gathered) l → Yields q c σ (gatherAll item' vs gathered) l
  | [], _, _, _, h => h
  | a :: vs, gathered, l, hitem, h => by
    obtain ⟨r, hr, gathered', hk, h⟩ := (yields_gatherAll_cons hi).mp h
    refine (yields_gatherAll_cons hi').mpr ⟨r, hitem a List.mem_cons_self r hr, gathered', hk, ?_⟩
    exact yields_gatherAll_mono (fun a ha => hitem a (List.mem_cons_of_mem _ ha)) h

/-- What is done with each value of a plain source may be replaced by something with the same outcomes. -/
theorem yields_overSource_mono {source : Value} {v : Option Value} (hplain : source.isPlain = true)
    (hitem : ∀ a, a.isPlain = true → ∀ r, Yields q c σ (item a) r → Yields q c σ (item' a) r)
    (h : Yields q c σ (overSource item source) v) : Yields q c σ (overSource item' source) v := by
  rw [yields_overSource hi] at h
  rw [yields_overSource hi']
  cases hitems : itemsOf? c.graph source with
  | none =>
    rw [hitems] at h
    exact hitem source hplain v h
  | some items =>
    rw [hitems] at h
    obtain ⟨l, hl, hv⟩ := h
    exact ⟨l, yields_gatherAll_mono hi hi' (fun a ha => hitem a (isPlain_itemsOf hplain hitems a ha)) hl, hv⟩

end

/-- What is kept without a report fits the members before it. -/
theorem eq_of_yields_keep {a : Value} {gathered l : Tagged} {span : Option Span} (hg : gathered.Sound)
    (h : Yields true c σ (keep gathered (some a) span) l) : l = .of (a :: gathered.members) ∧ l.Sound := by
  cases hpush : gathered.push a with
  | ok l' =>
    rw [keep_of_push hpush] at h
    rw [yields_pure.mp h]
    exact ⟨((Tagged.push_eq_ok_iff hg).mp hpush).1, Tagged.sound_push hg hpush⟩
  | error m =>
    simp only [keep, hpush] at h
    rw [yields_bind (respected_carriesOver.report _ _) fun _ => respected_carriesOver.pure _] at h
    obtain ⟨_, hreport, -⟩ := h
    cases (yields_report.mp hreport).1

section
variable {item : Value → Eval (Option Value)} (hi : ∀ v, Steady (item v))
include hi

theorem eq_of_yields_gatherAll : ∀ {vs : List Value} {gathered l : Tagged}, gathered.Sound →
    (∀ a ∈ vs, ∀ r, Yields true c σ (item a) r → r = some a) → Yields true c σ (gatherAll item vs gathered) l →
      l = .of (vs.reverse ++ gathered.members) ∧ l.Sound
  | [], _, _, hg, _, h => by
    rw [yields_pure.mp h]
    exact ⟨hg.eq_of, hg⟩
  | a :: vs, gathered, l, hg, hitem, h => by
    obtain ⟨r, hr, gathered', hk, h⟩ := (yields_gatherAll_cons hi).mp h
    cases hitem a List.mem_cons_self r hr
    obtain ⟨rfl, hg'⟩ := eq_of_yields_keep hg hk
    obtain ⟨hl, hsound⟩ := eq_of_yields_gatherAll hg' (fun a ha => hitem a (List.mem_cons_of_mem _ ha)) h
    refine ⟨?_, hsound⟩
    rw [hl, Tagged.members_of, List.reverse_cons, List.append_assoc, List.singleton_append]

/-- A loop that returns every value it goes through lists them, or reports that they are of several kinds. -/
theorem yields_listed {source : Value} {v : Option Value} (hplain : source.isPlain = true)
    (hitem : ∀ a, a.isPlain = true → ∀ r, Yields true c σ (item a) r → r = some a)
    (h : Yields true c σ (overSource item source) v) : v = some (listed c.graph source) := by
  rw [yields_overSource hi] at h
  unfold listed
  cases hitems : itemsOf? c.graph source with
  | none =>
    rw [hitems] at h
    exact hitem source hplain v h
  | some items =>
    rw [hitems] at h
    obtain ⟨l, hl, rfl⟩ := h
    obtain ⟨hl, hsound⟩ := eq_of_yields_gatherAll hi Tagged.sound_empty
      (fun a ha => hitem a (isPlain_itemsOf hplain hitems a ha)) hl
    rw [hsound.value_reverse, hl, Tagged.members_of, Tagged.empty, List.append_nil, List.reverse_reverse]

end

end Provenance.Eval
