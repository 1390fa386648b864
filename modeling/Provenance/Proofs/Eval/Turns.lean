import Provenance.Proofs.Eval.Gather
import Provenance.Proofs.Eval.Restores

/-!
# The turns of a loop

A loop takes a turn for each value it goes through: the variable is bound to the
value, the guard decides, and the body gives the outcome (`Turn`). One turn goes
on in the session that the one before has left (`Turns`), where a value of
another kind than the first has been reported. Over a range there is a turn for
every number from one end to the other, and none is left out or taken for
another at the limits of the numbers (`evaluate_forIn_range`).
-/

namespace Provenance.Eval

/-! ## One turn -/

/-- The session in which a guard is looked at. -/
def bindTo (x : Var) (v : Value) (s : Session) : Session :=
  { s with log := s.log.step fun _ => x.text ++ " = " ++ v.text, scope := s.scope.push x.id (some v) }

section
variable (ev : Expr → Eval (Option Value)) (c : Setting) (x : Var) (guard body : Expr)

/-- With its variable bound to the value the loop gives `r`: nothing where the guard is not true, and what the
body gives where it is. Either goes on in the session that the guard has left. -/
inductive Turn (v : Value) (s : Session) : Option Value → Session → Prop
  | refused {g : Option Value} {s₁ : Session} (tested : ev guard c (bindTo x v s) = (.ok g, s₁))
      (answer : truth g = false) : Turn v s none (unbind s₁)
  | passed {g r : Option Value} {s₁ s₂ : Session} (tested : ev guard c (bindTo x v s) = (.ok g, s₁))
      (answer : truth g = true) (given : ev body c s₁ = (.ok r, s₂)) : Turn v s r (unbind s₂)

variable {ev c x guard body}

theorem guarded_apply (v : Value) (s : Session) :
    guarded ev x guard body (some v) c s =
      between (bindTo x v) unbind (ev guard >>= fun g => if truth g then ev body else pure none) c s :=
  rfl

theorem guarded_eq_ok_iff {v : Value} {s s' : Session} {r : Option Value} :
    guarded ev x guard body (some v) c s = (.ok r, s') ↔ Turn ev c x guard body v s r s' := by
  rw [guarded_apply]
  constructor
  · intro h
    obtain ⟨s₂, hinner, rfl⟩ := exists_of_between_eq_ok h
    obtain ⟨g, s₁, htest, hrest⟩ := exists_of_bind_eq_ok hinner
    by_cases hg : truth g = true
    · rw [if_pos hg] at hrest
      exact .passed htest hg hrest
    · rw [if_neg hg] at hrest
      cases hrest
      exact .refused htest (Bool.eq_false_iff.mpr hg)
  · intro h
    rw [between_apply]
    cases h with
    | refused htest hg =>
      rw [bind_of_ok htest, if_neg (by simp [hg])]
      rfl
    | passed htest hg hbody => rw [bind_of_ok htest, if_pos hg, hbody]

end

/-! ## What a loop keeps -/

/-- The values that are of the kind of the first. -/
def ofFirstKind (vs : List Value) : List Value :=
  vs.filter fun v => Members.tag? vs == some v.tag

def reported (f : Fault) (s : Session) : Session :=
  { s with
    log := s.log.step fun _ => "error: " ++ f.message
    diagnostics := s.diagnostics.push ⟨f, none⟩ }

/-- After a turn that gives `r` where earlier ones have given some values: a value of another kind than the first
of them is reported. -/
def settle (given : List Value) (r : Option Value) (s : Session) : Session :=
  match Members.tag? given, r with
  | some t, some v => if t = v.tag then s else reported (.mixedList ⟨t, v.tag⟩) s
  | _, _ => s

theorem ofOneKind_ofFirstKind (vs : List Value) : Members.OfOneKind (ofFirstKind vs) := by
  cases vs with
  | nil => exact Members.ofOneKind_nil
  | cons v vs =>
    refine Members.ofOneKind_of_forall (t := v.tag) fun w hw => ?_
    have htag := (List.mem_filter.mp hw).2
    rw [Members.tag?_cons, beq_iff_eq, Option.some.injEq] at htag
    exact htag.symm

theorem tag?_ofFirstKind (vs : List Value) : Members.tag? (ofFirstKind vs) = Members.tag? vs := by
  cases vs <;> simp [ofFirstKind]

theorem ofFirstKind_concat {w v : Value} {rest : List Value} :
    ofFirstKind (w :: rest ++ [v]) = ofFirstKind (w :: rest) ++ if w.tag = v.tag then [v] else [] := by
  simp only [ofFirstKind, List.cons_append, Members.tag?_cons]
  rw [← List.cons_append, List.filter_append]
  by_cases h : w.tag = v.tag <;> simp [h]

/-- What is kept has the tag of the first value given, so the check is one against that value. -/
theorem keep_ofFirstKind (given : List Value) (r : Option Value) (c : Setting) (s : Session) :
    keep (.of (ofFirstKind given).reverse) r none c s =
      (.ok (.of (ofFirstKind (given ++ r.toList)).reverse), settle given r s) := by
  have htag : Members.tag? (ofFirstKind given).reverse = Members.tag? given := by
    rw [Members.tag?_reverse (ofOneKind_ofFirstKind given), tag?_ofFirstKind]
  cases r with
  | none => simp [keep, settle]
  | some v =>
    cases given with
    | nil => simp [keep, settle, ofFirstKind, Tagged.push, Tagged.of]
    | cons w rest =>
      rw [Members.tag?_cons] at htag
      rw [Option.toList_some, ofFirstKind_concat]
      by_cases h : w.tag = v.tag
      · simp [keep, settle, Tagged.push, Tagged.of, htag, h]
      · simp only [keep, settle, Tagged.push, Tagged.of, Members.tag?_cons, htag, h, if_false, List.append_nil]
        rfl

/-! ## Turn after turn -/

section
variable (ev : Expr → Eval (Option Value)) (c : Setting) (x : Var) (guard body : Expr)

/-- One turn for each of the values, with what it gives, where the turns before have given some values. -/
inductive Turns : List Value → Session → List (Value × Option Value) → Session → Prop
  | done {given : List Value} {s : Session} : Turns given s [] s
  | turn {given : List Value} {v : Value} {r : Option Value} {turns : List (Value × Option Value)} {s s₁ s' : Session}
      (first : Turn ev c x guard body v s r s₁) (more : Turns (given ++ r.toList) (settle given r s₁) turns s') :
      Turns given s ((v, r) :: turns) s'

variable {ev c x guard body}

theorem gatherAll_eq_ok_iff : ∀ {items : List Value} (given : List Value) {l : Tagged} {s s' : Session},
    gatherAll (fun v => guarded ev x guard body (some v)) items (.of (ofFirstKind given).reverse) c s = (.ok l, s') ↔
      ∃ turns, turns.map Prod.fst = items ∧ Turns ev c x guard body given s turns s' ∧
        l = .of (ofFirstKind (given ++ turns.filterMap Prod.snd)).reverse
  | [], given, l, s, s' => by
    constructor
    · intro h
      cases h
      exact ⟨[], rfl, .done, by simp⟩
    · rintro ⟨turns, hitems, hturns, rfl⟩
      cases List.map_eq_nil_iff.mp hitems
      cases hturns
      simp [gatherAll]
  | v :: items, given, l, s, s' => by
    constructor
    · intro h
      obtain ⟨kept, s₂, hgather, h⟩ := exists_of_bind_eq_ok h
      obtain ⟨r, s₁, hturn, hkeep⟩ := exists_of_bind_eq_ok hgather
      rw [keep_ofFirstKind] at hkeep
      cases hkeep
      obtain ⟨turns, rfl, hturns, rfl⟩ := (gatherAll_eq_ok_iff _).mp h
      refine ⟨(v, r) :: turns, rfl, .turn (guarded_eq_ok_iff.mp hturn) hturns, ?_⟩
      cases r <;> simp
    · rintro ⟨_ | ⟨⟨u, r⟩, turns⟩, hitems, hturns, rfl⟩
      · cases hitems
      · cases hitems
        cases hturns with
        | turn first more =>
          rw [gatherAll, gather, bind_assoc, bind_of_ok (guarded_eq_ok_iff.mpr first),
            bind_of_ok (keep_ofFirstKind given r c _)]
          refine (gatherAll_eq_ok_iff _).mpr ⟨turns, rfl, more, ?_⟩
          cases r <;> simp

end

/-! ## The whole loop -/

def loopOpened (x : Var) (source : Value) (s : Session) : Session :=
  enter { s with log := s.log.step fun _ => "for " ++ x.text ++ " in " ++ source.text }

def loopClosed (x : Var) (v : Option Value) (s : Session) : Session :=
  { leave s with log := (leave s).log.step fun _ => "for " ++ x.text ++ " => " ++ Value.shown v }

theorem overSource_apply {item : Value → Eval (Option Value)} {source : Value} {items : List Value} {c : Setting}
    (h : itemsOf? c.graph source = some items) (s : Session) :
    overSource item source c s = (gatherAll item items .empty >>= fun l => pure (some l.reverse.value)) c s := by
  cases source with
  | range first last =>
    cases h
    rw [overSource_range]
  | tuple fields | list kind members | all =>
    cases h
    rfl
  | _ => cases h

section
variable {ev : Expr → Eval (Option Value)} {c : Setting} {x : Var} {source guard body : Expr} {a : Value}
  {items : List Value} {s s₀ s' : Session} {v : Option Value}

theorem overSource_eq_ok_iff (hitems : itemsOf? c.graph a = some items) :
    overSource (fun item => guarded ev x guard body (some item)) a c s = (.ok v, s') ↔
      ∃ turns, turns.map Prod.fst = items ∧ Turns ev c x guard body [] s turns s' ∧
        v = some (.listOf (ofFirstKind (turns.filterMap Prod.snd))) := by
  have hvalue : ∀ vs : List Value, (Tagged.of (ofFirstKind vs).reverse).reverse.value = .listOf (ofFirstKind vs) := by
    intro vs
    rw [Tagged.reverse_of (Tagged.ofOneKind_reverse_iff.mpr (ofOneKind_ofFirstKind vs)), List.reverse_reverse,
      Tagged.value_of]
  rw [overSource_apply hitems]
  constructor
  · intro h
    obtain ⟨l, s₁, hgather, hlist⟩ := exists_of_bind_eq_ok h
    obtain ⟨turns, hfst, hturns, rfl⟩ := (gatherAll_eq_ok_iff []).mp hgather
    rw [hvalue] at hlist
    cases hlist
    exact ⟨turns, hfst, hturns, rfl⟩
  · rintro ⟨turns, hfst, hturns, rfl⟩
    have hgather := (gatherAll_eq_ok_iff []).mpr ⟨turns, hfst, hturns, rfl⟩
    rw [← hvalue]
    exact bind_of_ok hgather _

/-- The loop over a collection comes to an outcome exactly if each of its turns does. -/
theorem forLoop_eq_ok_iff (hsource : ev source c s = (.ok (some a), s₀)) (hitems : itemsOf? c.graph a = some items) :
    forLoop ev x source guard body c s = (.ok v, s') ↔
      ∃ turns s₁, turns.map Prod.fst = items ∧ Turns ev c x guard body [] (loopOpened x a s₀) turns s₁ ∧
        v = some (.listOf (ofFirstKind (turns.filterMap Prod.snd))) ∧ s' = loopClosed x v s₁ := by
  have hloop : forLoop ev x source guard body c s =
      (indented (overSource (fun item => guarded ev x guard body (some item)) a) >>= fun r =>
        note (fun _ => "for " ++ x.text ++ " => " ++ Value.shown r) >>= fun _ => pure r) c
        { s₀ with log := s₀.log.step fun _ => "for " ++ x.text ++ " in " ++ a.text } := by
    rw [forLoop, bind_of_ok hsource]
    rfl
  rw [hloop]
  constructor
  · intro h
    obtain ⟨r, s₂, hrun, hclose⟩ := exists_of_bind_eq_ok h
    cases hclose
    obtain ⟨s₁, hover, rfl⟩ := exists_of_between_eq_ok hrun
    obtain ⟨turns, hfst, hturns, hv⟩ := (overSource_eq_ok_iff hitems).mp hover
    exact ⟨turns, s₁, hfst, hturns, hv, rfl⟩
  · rintro ⟨turns, s₁, hfst, hturns, hv, rfl⟩
    have hover := (overSource_eq_ok_iff hitems).mpr ⟨turns, hfst, hturns, hv⟩
    have hrun : indented (overSource (fun item => guarded ev x guard body (some item)) a) c
        { s₀ with log := s₀.log.step fun _ => "for " ++ x.text ++ " in " ++ a.text } = (.ok v, leave s₁) :=
      congrArg (fun r => (r.1, leave r.2)) hover
    rw [bind_of_ok hrun]
    rfl

end

/-! ## Levels -/

/-- The computations do the same to every session that has `n` levels left, and leave it as many. -/
def SameAt (n : Nat) {α : Type} (m m' : Eval α) : Prop :=
  ∀ c s, c.limits.maxDepth - s.depth = n → m c s = m' c s ∧ (m c s).2.depth = s.depth

theorem SameAt.bind {n : Nat} {α β : Type} {m m' : Eval α} {f f' : α → Eval β} (hm : SameAt n m m')
    (hf : ∀ a, SameAt n (f a) (f' a)) : SameAt n (m >>= f) (m' >>= f') := by
  intro c s hn
  obtain ⟨heq, hdepth⟩ := hm c s hn
  rw [bind_apply, bind_apply, ← heq]
  cases hms : m c s with
  | mk r s₁ =>
    rw [hms] at hdepth
    cases r with
    | error e => exact ⟨rfl, hdepth⟩
    | ok a =>
      obtain ⟨heq', hdepth'⟩ := hf a c s₁ (by rw [hdepth, hn])
      exact ⟨heq', hdepth'.trans hdepth⟩

theorem SameAt.between {n : Nat} {α : Type} {m m' : Eval α} {before after : Session → Session} (hm : SameAt n m m')
    (hbefore : ∀ s, (before s).depth = s.depth) (hafter : ∀ s, (after s).depth = s.depth) :
    SameAt n (between before after m) (between before after m') := by
  intro c s hn
  obtain ⟨heq, hdepth⟩ := hm c (before s) (by rw [hbefore, hn])
  rw [between_apply, between_apply, heq]
  refine ⟨rfl, ?_⟩
  rw [hafter, ← heq, hdepth, hbefore]

theorem SameAt.of_restores {n : Nat} {α : Type} {m : Eval α} (h : Restores m) : SameAt n m m :=
  fun c s _ => ⟨rfl, (h c s).depth⟩

theorem depth_unbind (s : Session) : (unbind s).depth = s.depth := by
  unfold unbind
  split <;> rfl

theorem respected_sameAt (n : Nat) : Respected fun _ {_} => SameAt n where
  pure _ _ _ _ := ⟨rfl, rfl⟩
  bind := SameAt.bind
  note _ := .of_restores (restores_note _)
  report _ _ := .of_restores (restores_report _ _)
  graph _ _ _ := ⟨rfl, rfl⟩
  library _ _ _ := ⟨rfl, rfl⟩
  readVar _ := .of_restores (congruence_restores.readVar _)
  indented hm := hm.between (fun _ => rfl) fun _ => rfl
  binding _ _ hm := hm.between (fun _ => rfl) depth_unbind

theorem sameAt_evaluate (n : Nat) (e : Expr) : SameAt n (evaluateIn n e) (evaluate e) := by
  intro c s hn
  refine ⟨?_, (restores_evaluateIn n e c s).depth⟩
  rw [evaluate, hn]

theorem lt_of_evaluate_eq_ok {e : Expr} {c : Setting} {s s' : Session} {v : Option Value}
    (h : evaluate e c s = (.ok v, s')) : s.depth < c.limits.maxDepth := by
  by_contra hdepth
  rw [evaluate, Nat.sub_eq_zero_of_le (Nat.le_of_not_lt hdepth)] at h
  cases h

/-- Where there is a level for it, a node is evaluated with its parts one level deeper. -/
theorem evaluate_apply {e : Expr} {c : Setting} {s : Session} (h : s.depth < c.limits.maxDepth) :
    evaluate e c s = deeper (node (evaluateIn (c.limits.maxDepth - (s.depth + 1))) e) c s := by
  rw [evaluate, show c.limits.maxDepth - s.depth = c.limits.maxDepth - (s.depth + 1) + 1 by omega]
  rfl

theorem evaluate_forIn {x : Var} {source guard body : Expr} {c : Setting} {s : Session}
    (h : s.depth < c.limits.maxDepth) :
    evaluate (.forIn x source guard body) c s = deeper (forLoop evaluate x source guard body) c s := by
  have hev := sameAt_evaluate (c.limits.maxDepth - (s.depth + 1))
  have hloop := (respected_sameAt _).forLoop (X := fun _ => True) (x := x) (hev source) (hev guard) (hev body)
  rw [evaluate_apply h]
  exact congrArg (fun r => (r.1, { r.2 with depth := r.2.depth - 1 })) (hloop c { s with depth := s.depth + 1 } rfl).1

theorem evaluate_val {v : Value} {c : Setting} {s : Session} (h : s.depth < c.limits.maxDepth) :
    evaluate (.val v) c s = (.ok (some v), s) := by
  rw [evaluate_apply h]
  rfl

theorem Turn.lt_maxDepth {c : Setting} {x : Var} {guard body : Expr} {v : Value} {s s' : Session} {r : Option Value}
    (h : Turn evaluate c x guard body v s r s') : s.depth < c.limits.maxDepth := by
  cases h with
  | refused tested => exact lt_of_evaluate_eq_ok (s := bindTo x v s) tested
  | passed tested => exact lt_of_evaluate_eq_ok (s := bindTo x v s) tested

/-! ## Loops over a range -/

/-- A loop over a range comes to an outcome exactly if its turns do, one for each number from one end to the other
in this order; the step from a number to the next stays within the limits. The outcome is the list of what the turns
have given, less what is of another kind than the first; each value that is left out has been reported once, after
its turn. -/
theorem evaluate_forIn_range (x : Var) (first last : Int64) (guard body : Expr) (c : Setting) (s s' : Session)
    (v : Option Value) :
    evaluate (.forIn x (.val (.range first last)) guard body) c s = (.ok v, s') ↔
      ∃ (numbers : List Int64) (turns : List (Value × Option Value)) (s₁ : Session),
        numbers.map Int64.toInt = countTo first.toInt last.toInt ∧ turns.map Prod.fst = numbers.map .int ∧
        (∀ i ∈ numbers, i ≠ last → (advance (first ≤ last) i).toInt = away (first ≤ last) i.toInt 1) ∧
        Turns evaluate c x guard body [] (loopOpened x (.range first last) { s with depth := s.depth + 1 }) turns s₁ ∧
        v = some (.listOf (ofFirstKind (turns.filterMap Prod.snd))) ∧
        s' = { loopClosed x v s₁ with depth := s₁.depth - 1 } := by
  have hints := map_toInt_numbers first last
  have hitems : itemsOf? c.graph (.range first last) = some ((numbers first last).map .int) := rfl
  constructor
  · intro h
    rw [evaluate_forIn (lt_of_evaluate_eq_ok h)] at h
    obtain ⟨s₂, hloop, rfl⟩ := exists_of_between_eq_ok h
    obtain ⟨a, s₁, hsource, hrest⟩ := exists_of_bind_eq_ok hloop
    have hval := evaluate_val (v := .range first last) (lt_of_evaluate_eq_ok hsource)
    obtain ⟨turns, s₃, hfst, hturns, hv, rfl⟩ := (forLoop_eq_ok_iff hval hitems).mp hloop
    exact ⟨numbers first last, turns, s₃, hints, hfst, fun i => toInt_advance_of_mem_numbers, hturns, hv, rfl⟩
  · rintro ⟨numbers', turns, s₁, hints', hfst, -, hturns, hv, rfl⟩
    have hsame : numbers' = numbers first last :=
      List.map_injective_iff.mpr (fun _ _ => Int64.toInt_inj.mp) (hints'.trans hints.symm)
    rw [hsame] at hfst
    have hdepth : s.depth + 1 < c.limits.maxDepth := by
      cases hturns with
      | done =>
        have := congrArg List.length hfst
        simp [numbers, countTo] at this
      | turn first more => exact first.lt_maxDepth
    have hloop := (forLoop_eq_ok_iff (evaluate_val hdepth) hitems).mpr ⟨turns, s₁, hfst, hturns, hv, rfl⟩
    rw [evaluate_forIn (Nat.lt_of_succ_lt hdepth)]
    exact congrArg (fun r => (r.1, { r.2 with depth := r.2.depth - 1 })) hloop

end Provenance.Eval
