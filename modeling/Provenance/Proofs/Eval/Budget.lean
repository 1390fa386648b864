import Mathlib.Data.List.Permutation
import Provenance.Proofs.Eval.Restores

/-!
# Limits only abort

What an evaluation makes of a session under some limits it makes of it under all
limits that admit as many levels and as many steps, and under all that admit
fewer steps it is aborted for that reason (`evaluate_within_limits`).

For most of an evaluation it is enough that the limits are looked at where a
step is counted and nowhere else (`Scales`). The loop over the generations of a
path also runs out of generations; it has as many as it needs, as each but the
last counts a step.
-/

namespace Provenance

/-- Evaluation may count that many steps. Without a limit there are fewer than the patience. -/
def Limits.Admits (l : Limits) (n : Nat) : Prop :=
  match l.maxPathSteps with
  | some k => n ≤ k
  | none => n < l.patience

theorem Limits.Admits.mono {l : Limits} {m n : Nat} (h : l.Admits n) (hmn : m ≤ n) : l.Admits m := by
  unfold Limits.Admits at h ⊢
  split at h <;> omega

namespace Eval

open Provenance.Path

variable {α β : Type}

/-- An outcome of the first computation is one of the second under all limits that admit the steps
counted, and under all others the second exceeds them. -/
structure Scales (m m' : Eval α) : Prop where
  grows : ∀ {c s a s'}, m c s = (.ok a, s') → s.pathSteps ≤ s'.pathSteps
  within : ∀ {c s a s'}, m c s = (.ok a, s') → ∀ k, c.limits.maxPathSteps = some k → s.pathSteps ≤ k →
    s'.pathSteps ≤ k
  admitted : ∀ {c s a s'}, m c s = (.ok a, s') → ∀ l : Limits, l.Admits s'.pathSteps →
    m' { c with limits := l } s = (.ok a, s')
  exceeded : ∀ {c s a s'}, m c s = (.ok a, s') → ∀ (l : Limits) (k : Nat), l.maxPathSteps = some k →
    s.pathSteps ≤ k → k < s'.pathSteps → (m' { c with limits := l } s).1 = .error (.pathStepsExceeded k)

theorem admits_of_some {l : Limits} {k n : Nat} (hl : l.maxPathSteps = some k) : l.Admits n ↔ n ≤ k := by
  rw [Limits.Admits, hl]

/-- For a computation that neither counts steps nor looks at the limits. -/
theorem Scales.of_silent {m : Eval α} (hlimits : ∀ c l s, m { c with limits := l } s = m c s)
    (hsteps : ∀ c s, (m c s).2.pathSteps = s.pathSteps) : Scales m m := by
  have hsame : ∀ {c s a s'}, m c s = (.ok a, s') → s'.pathSteps = s.pathSteps := fun {c s a s'} h => by
    rw [← hsteps c s, h]
  refine ⟨fun h => Nat.le_of_eq (hsame h).symm, fun h k _ hk => hsame h ▸ hk, fun h l _ => ?_,
    fun h l k _ hk hlt => ?_⟩
  · rw [← h]
    exact hlimits _ _ _
  · have := hsame h
    omega

theorem Scales.bind {m m' : Eval α} {f f' : α → Eval β} (hm : Scales m m') (hf : ∀ a, Scales (f a) (f' a)) :
    Scales (m >>= f) (m' >>= f') where
  grows h := by
    obtain ⟨a, s₁, h₁, h₂⟩ := exists_of_bind_eq_ok h
    exact Nat.le_trans (hm.grows h₁) ((hf a).grows h₂)
  within h k hl hk := by
    obtain ⟨a, s₁, h₁, h₂⟩ := exists_of_bind_eq_ok h
    exact (hf a).within h₂ k hl (hm.within h₁ k hl hk)
  admitted h l hl := by
    obtain ⟨a, s₁, h₁, h₂⟩ := exists_of_bind_eq_ok h
    rw [bind_of_ok (hm.admitted h₁ l (hl.mono ((hf a).grows h₂)))]
    exact (hf a).admitted h₂ l hl
  exceeded h l k hl hk hlt := by
    obtain ⟨a, s₁, h₁, h₂⟩ := exists_of_bind_eq_ok h
    by_cases hk₁ : k < s₁.pathSteps
    · rw [bind_fst_of_error (hm.exceeded h₁ l k hl hk hk₁)]
    · rw [bind_of_ok (hm.admitted h₁ l ((admits_of_some hl).mpr (Nat.le_of_not_lt hk₁)))]
      exact (hf a).exceeded h₂ l k hl (Nat.le_of_not_lt hk₁) hlt

theorem Scales.between {m m' : Eval α} {before after : Session → Session} (hm : Scales m m')
    (hbefore : ∀ s, (before s).pathSteps = s.pathSteps) (hafter : ∀ s, (after s).pathSteps = s.pathSteps) :
    Scales (Eval.between before after m) (Eval.between before after m') := by
  refine ⟨fun {c s a s'} h => ?_, fun {c s a s'} h k hl hk => ?_, fun {c s a s'} h l hl => ?_,
    fun {c s a s'} h l k hl hk hlt => ?_⟩
  · obtain ⟨s₁, h₁, rfl⟩ := exists_of_between_eq_ok h
    rw [hafter, ← hbefore s]
    exact hm.grows h₁
  · obtain ⟨s₁, h₁, rfl⟩ := exists_of_between_eq_ok h
    rw [← hbefore s] at hk
    rw [hafter]
    exact hm.within h₁ k hl hk
  · obtain ⟨s₁, h₁, rfl⟩ := exists_of_between_eq_ok h
    rw [hafter] at hl
    rw [between_apply, hm.admitted h₁ l hl]
  · obtain ⟨s₁, h₁, rfl⟩ := exists_of_between_eq_ok h
    rw [← hbefore s] at hk
    rw [hafter] at hlt
    exact hm.exceeded h₁ l k hl hk hlt

theorem eq_of_countStep {c : Setting} {s s' : Session} {r : Except Abort Unit} (h : countStep c s = (r, s')) :
    s' = { s with pathSteps := s.pathSteps + 1 } := by
  rw [← countStep_snd c s, h]

theorem scales_countStep : Scales countStep countStep := by
  refine ⟨fun {c s a s'} h => ?_, fun {c s a s'} h k hl hk => ?_, fun {c s a s'} h l hl => ?_,
    fun {c s a s'} h l k hl hk hlt => ?_⟩
  · rw [eq_of_countStep h]
    exact Nat.le_succ _
  · cases eq_of_countStep h
    simp only [countStep, hl] at h
    split at h
    · cases h
    · exact Nat.le_of_not_lt ‹_›
  · cases eq_of_countStep h
    unfold Limits.Admits at hl
    simp only [countStep]
    split at hl
    · rename_i k hk
      simp only [hk, if_neg (Nat.not_lt.mpr hl)]
    · rename_i hnone
      simp only [hnone]
  · cases eq_of_countStep h
    simp only [countStep, hl, if_pos hlt]

theorem congruence_scales : Congruence @Scales where
  pure _ := .of_silent (fun _ _ _ => rfl) fun _ _ => rfl
  bind := Scales.bind
  note _ := .of_silent (fun _ _ _ => rfl) fun _ _ => rfl
  report _ _ := .of_silent (fun _ _ _ => rfl) fun _ _ => rfl
  graph := .of_silent (fun _ _ _ => rfl) fun _ _ => rfl
  library := .of_silent (fun _ _ _ => rfl) fun _ _ => rfl
  readVar _ := by
    refine .bind (.of_silent (fun _ _ _ => rfl) fun _ _ => rfl) fun σ => ?_
    split <;> exact .of_silent (fun _ _ _ => rfl) fun _ _ => rfl
  routed _ hf := .bind (.of_silent (fun _ _ _ => rfl) fun _ _ => rfl) fun _ => hf _
  noteRoute := relates_noteRoute @Scales (.of_silent (fun _ _ _ => rfl) fun _ _ => rfl) Scales.bind
    (fun _ => .of_silent (fun _ _ _ => rfl) fun _ _ => rfl) (.of_silent (fun _ _ _ => rfl) fun _ _ => rfl)
  freshClosure := .of_silent (fun _ _ _ => rfl) fun _ _ => rfl
  countStep := scales_countStep
  enter := .of_silent (fun _ _ _ => rfl) fun _ _ => rfl
  leave := .of_silent (fun _ _ _ => rfl) fun _ _ => rfl
  indented hm := hm.between (fun _ => rfl) fun _ => rfl
  binding _ _ hm := hm.between (fun _ => rfl) pathSteps_unbind
  deeper hm := hm.between (fun _ => rfl) fun _ => rfl

/-! ## Generations -/

section
variable {ev ev' : Expr → Eval (Option Value)} (hev : ∀ e, Scales (ev e) (ev' e)) {r : Route}
include hev

theorem lt_of_visit {w : Walker} {f f' : Frontier} {p : ObjectId} {c : Setting} {s s' : Session}
    (h : visit ev r w f p c s = (.ok f', s')) : s.pathSteps < s'.pathSteps := by
  obtain ⟨u, s₁, h₁, h⟩ := exists_of_bind_eq_ok h
  obtain ⟨ok, s₂, h₂, h⟩ := exists_of_bind_eq_ok h
  have hcount : s₁.pathSteps = s.pathSteps + 1 := by rw [eq_of_countStep h₁]
  have hpasses := (congruence_scales.passes hev p _).grows h₂
  have hrest : s'.pathSteps = s₂.pathSteps := by
    split at h
    · split at h <;> cases h <;> rfl
    · cases h
      rfl
  omega

/-- As long as nothing is visited there is nowhere to go on from. -/
theorem eq_or_lt_of_visitAll {w : Walker} : ∀ {ps : List ObjectId} {f f' : Frontier} {c : Setting} {s s' : Session},
    visitAll ev r w ps f c s = (.ok f', s') → f' = f ∨ s.pathSteps < s'.pathSteps
  | [], _, _, _, _, _, h => by
    cases h
    exact Or.inl rfl
  | _ :: _, _, _, _, _, _, h => by
    obtain ⟨f₁, s₁, h₁, h₂⟩ := exists_of_bind_eq_ok h
    exact Or.inr (Nat.lt_of_lt_of_le (lt_of_visit hev h₁) ((congruence_scales.visitAll hev r _ _ _).grows h₂))

theorem eq_or_lt_of_explore {w : Walker} {f f' : Frontier} {c : Setting} {s s' : Session}
    (h : explore ev r w f c s = (.ok f', s')) : f' = f ∨ s.pathSteps < s'.pathSteps := by
  obtain ⟨g, s₁, hgraph, h⟩ := exists_of_bind_eq_ok h
  obtain ⟨u, s₂, hnote, h⟩ := exists_of_bind_eq_ok h
  cases hgraph
  cases hnote
  exact (eq_or_lt_of_visitAll hev h :)

theorem eq_or_lt_of_exploreAll : ∀ {ws : List Walker} {f f' : Frontier} {c : Setting} {s s' : Session},
    exploreAll ev r ws f c s = (.ok f', s') → f' = f ∨ s.pathSteps < s'.pathSteps
  | [], _, _, _, _, _, h => by
    cases h
    exact Or.inl rfl
  | w :: ws, f, f', c, s, s', h => by
    obtain ⟨f₁, s₁, h₁, h₂⟩ := exists_of_bind_eq_ok h
    have hgrows₁ := (congruence_scales.explore hev r w f).grows h₁
    have hgrows₂ := (congruence_scales.exploreAll hev r ws f₁).grows h₂
    obtain rfl | hlt := eq_or_lt_of_explore hev h₁
    · exact (eq_or_lt_of_exploreAll h₂).imp_right fun hlt => Nat.lt_of_le_of_lt hgrows₁ hlt
    · exact Or.inr (Nat.lt_of_lt_of_le hlt hgrows₂)

end

/-- One generation, of which the walkers of the next are left. -/
def generation (ev : Expr → Eval (Option Value)) (r : Route) (live : List Walker) (found : List (List ObjectId)) :
    Eval Frontier := do
  note fun _ => "step: " ++ toString live.length ++ " live hypotheses"
  change enter
  let f ← exploreAll ev r live ⟨found, []⟩
  change leave
  return f

theorem run_succ (ev : Expr → Eval (Option Value)) (r : Route) (n : Nat) (w : Walker) (live : List Walker)
    (found : List (List ObjectId)) :
    run ev r (n + 1) (w :: live) found =
      generation ev r (w :: live) found >>= fun f => run ev r n f.next.reverse f.found := by
  simp only [generation, bind_assoc, pure_bind]
  rfl

section
variable {ev ev' : Expr → Eval (Option Value)} (hev : ∀ e, Scales (ev e) (ev' e)) {r : Route}
include hev

theorem scales_generation (live : List Walker) (found : List (List ObjectId)) :
    Scales (generation ev r live found) (generation ev' r live found) := by
  have h := congruence_scales
  exact h.bind (h.note _) fun _ => h.bind h.enter fun _ => h.bind (h.exploreAll hev r _ _) fun _ =>
    h.bind h.leave fun _ => h.pure _

theorem lt_of_generation {live : List Walker} {found : List (List ObjectId)} {f : Frontier} {c : Setting}
    {s s' : Session} (h : generation ev r live found c s = (.ok f, s')) (hf : f.next ≠ []) :
    s.pathSteps < s'.pathSteps := by
  obtain ⟨_, s₁, hnote, h⟩ := exists_of_bind_eq_ok h
  obtain ⟨_, s₂, henter, h⟩ := exists_of_bind_eq_ok h
  obtain ⟨f', s₃, hexplore, h⟩ := exists_of_bind_eq_ok h
  obtain ⟨_, s₄, hleave, h⟩ := exists_of_bind_eq_ok h
  cases hnote
  cases henter
  cases hleave
  cases h
  obtain rfl | hlt := eq_or_lt_of_exploreAll hev hexplore
  · exact absurd rfl hf
  · exact hlt

omit hev in
theorem run_nil (n : Nat) (found : List (List ObjectId)) : run ev r n [] found = pure found.reverse := by
  cases n <;> rfl

/-- So many generations are enough to count up to `steps`. -/
def Lasts (n : Nat) (live : List Walker) (s : Session) (steps : Nat) : Prop :=
  live = [] ∨ steps < n + s.pathSteps

theorem Lasts.next {n : Nat} {live : List Walker} {found : List (List ObjectId)} {f : Frontier} {c : Setting}
    {s s₁ : Session} {steps : Nat} (h : generation ev r live found c s = (.ok f, s₁))
    (hn : steps < n + 1 + s.pathSteps) : Lasts n f.next.reverse s₁ steps := by
  by_cases hf : f.next = []
  · exact Or.inl (by rw [hf, List.reverse_nil])
  · have := lt_of_generation hev h hf
    exact Or.inr (by omega)

/-- By induction on the generations of the first run; the second may have more or fewer to go. -/
theorem run_scales : ∀ {n : Nat} {live : List Walker} {found : List (List ObjectId)} {c : Setting} {s s' : Session}
    {a : List (List ObjectId)}, run ev r n live found c s = (.ok a, s') →
    s.pathSteps ≤ s'.pathSteps ∧
    (∀ k, c.limits.maxPathSteps = some k → s.pathSteps ≤ k → s'.pathSteps ≤ k) ∧
    (∀ (l : Limits) (n' : Nat), l.Admits s'.pathSteps → Lasts n' live s s'.pathSteps →
      run ev' r n' live found { c with limits := l } s = (.ok a, s')) ∧
    ∀ (l : Limits) (n' k : Nat), l.maxPathSteps = some k → s.pathSteps ≤ k → k < s'.pathSteps → Lasts n' live s k →
      (run ev' r n' live found { c with limits := l } s).1 = .error (.pathStepsExceeded k)
  | n, [], found, c, s, s', a, h => by
    rw [run_nil] at h
    cases h
    refine ⟨Nat.le_refl _, fun _ _ hk => hk, fun l n' _ _ => ?_, fun l n' k _ hk hlt => absurd hlt (Nat.not_lt.mpr hk)⟩
    rw [run_nil]
    rfl
  | 0, w :: live, found, c, s, s', a, h => by cases h
  | n + 1, w :: live, found, c, s, s', a, h => by
    rw [run_succ] at h
    obtain ⟨f, s₁, hgen, hrest⟩ := exists_of_bind_eq_ok h
    have hg := scales_generation hev (r := r) (w :: live) found
    obtain ⟨ihgrows, ihwithin, ihadmitted, ihexceeded⟩ := run_scales hrest
    have hgrows := hg.grows hgen
    refine ⟨Nat.le_trans hgrows ihgrows, fun k hl hk => ihwithin k hl (hg.within hgen k hl hk),
      fun l n' hl hlasts => ?_, fun l n' k hl hk hlt hlasts => ?_⟩
    · have hn := hlasts.resolve_left (List.cons_ne_nil _ _)
      obtain ⟨n', rfl⟩ : ∃ m, n' = m + 1 := ⟨n' - 1, by omega⟩
      rw [run_succ, bind_of_ok (hg.admitted hgen l (hl.mono ihgrows))]
      exact ihadmitted l n' hl (Lasts.next hev hgen hn)
    · have hn := hlasts.resolve_left (List.cons_ne_nil _ _)
      obtain ⟨n', rfl⟩ : ∃ m, n' = m + 1 := ⟨n' - 1, by omega⟩
      rw [run_succ]
      by_cases hk₁ : k < s₁.pathSteps
      · exact bind_fst_of_error (hg.exceeded hgen l k hl hk hk₁) _
      · rw [bind_of_ok (hg.admitted hgen l ((admits_of_some hl).mpr (Nat.le_of_not_lt hk₁)))]
        exact ihexceeded l n' k hl (Nat.le_of_not_lt hk₁) hlt (Lasts.next hev hgen hn)

omit hev in
theorem exists_generations {l : Limits} {steps : Nat} (hl : l.Admits steps) (c : Setting) (s : Session) :
    ∃ n, generations { c with limits := l } s = (.ok n, s) ∧ steps < n + s.pathSteps := by
  unfold Limits.Admits at hl
  split at hl
  · rename_i k hk
    exact ⟨k - s.pathSteps + 2, by simp only [generations, hk], by omega⟩
  · rename_i hnone
    exact ⟨l.patience, by simp only [generations, hnone], by omega⟩

theorem scales_generationLoop (live : List Walker) (found : List (List ObjectId)) :
    Scales (generationLoop ev r live found) (generationLoop ev' r live found) := by
  have hfirst : ∀ {c s a s'}, generationLoop ev r live found c s = (Except.ok a, s') →
      ∃ n, run ev r n live found c s = (.ok a, s') := by
    intro c s a s' h
    obtain ⟨n, s₁, hn, hrun⟩ := exists_of_bind_eq_ok h
    have hs := generations_snd c s
    rw [hn] at hs
    cases hs
    exact ⟨n, hrun⟩
  refine ⟨fun {c s a s'} h => ?_, fun {c s a s'} h k hl hk => ?_, fun {c s a s'} h l hl => ?_,
    fun {c s a s'} h l k hl hk hlt => ?_⟩
  · obtain ⟨n, hn⟩ := hfirst h
    exact (run_scales hev hn).1
  · obtain ⟨n, hn⟩ := hfirst h
    exact (run_scales hev hn).2.1 k hl hk
  · obtain ⟨n, hn⟩ := hfirst h
    obtain ⟨n', hn', hlasts⟩ := exists_generations hl c s
    rw [generationLoop, bind_of_ok hn']
    exact (run_scales hev hn).2.2.1 l n' hl (Or.inr hlasts)
  · obtain ⟨n, hn⟩ := hfirst h
    obtain ⟨n', hn', hlasts⟩ := exists_generations ((admits_of_some hl).mpr (Nat.le_refl k)) c s
    rw [generationLoop, bind_of_ok hn']
    exact (run_scales hev hn).2.2.2 l n' k hl hk hlt (Or.inr hlasts)

end

/-! ## Whole evaluations -/

theorem scales_evaluateIn (d n : Nat) (e : Expr) : Scales (evaluateIn n e) (evaluateIn (n + d) e) := by
  have hzero : ∀ e, Scales (evaluateIn 0 e) (evaluateIn d e) := by
    intro e
    have habort : ∀ {c s a s'}, evaluateIn 0 e c s ≠ (.ok a, s') := fun h => by cases h
    exact ⟨fun h => absurd h habort, fun h => absurd h habort, fun h => absurd h habort, fun h => absurd h habort⟩
  exact congruence_scales.evaluateIn hzero (fun hev r => scales_generationLoop hev) n e

/-- In a new session the limit on steps bounds those counted, limits that admit as much change nothing,
and a lower limit on steps aborts the evaluation. -/
theorem evaluate_within_limits {e : Expr} {g : Graph} {l : Limits} {lib : Library} {trace : Bool} {v : Option Value}
    {s' : Session} (h : evaluate e ⟨g, l, lib⟩ (.new trace) = (.ok v, s')) :
    (∀ k, l.maxPathSteps = some k → s'.pathSteps ≤ k) ∧
    ∀ l' : Limits, l.maxDepth ≤ l'.maxDepth →
      (l'.Admits s'.pathSteps → evaluate e ⟨g, l', lib⟩ (.new trace) = (.ok v, s')) ∧
      ∀ k, l'.maxPathSteps = some k → k < s'.pathSteps →
        (evaluate e ⟨g, l', lib⟩ (.new trace)).1 = .error (.pathStepsExceeded k) := by
  refine ⟨fun k hk => (scales_evaluateIn 0 l.maxDepth e).within h k hk (Nat.zero_le k), fun l' hd => ?_⟩
  have hscales := scales_evaluateIn (l'.maxDepth - l.maxDepth) l.maxDepth e
  rw [Nat.add_sub_cancel' hd] at hscales
  exact ⟨fun hl => hscales.admitted h l' hl, fun k hk hlt => hscales.exceeded h l' k hk (Nat.zero_le k) hlt⟩

/-- The path `1 ->* extract(ALL)`. -/
def descendants : Expr :=
  .binary .stepsZ (.object 1) (.unary .extract Expr.all)

/-- Each object but the first comes from the one before it. -/
def lineage : Graph :=
  ⟨[(1, []), (2, [("INPUT", .object 1)]), (3, [("INPUT", .object 2)])], [⟨2, 1⟩, ⟨3, 2⟩]⟩

theorem evaluate_within_limits_lineage :
    let r := evaluate descendants ⟨lineage, ⟨3, some 5, 0⟩, .standard⟩ (.new false)
    r.1 = .ok (some (.list (some .object) [.object 2, .object 3])) ∧ r.2.pathSteps ≤ 5 ∧
      evaluate descendants ⟨lineage, ⟨9, none, 100⟩, .standard⟩ (.new false) = r ∧
      (evaluate descendants ⟨lineage, ⟨3, some 3, 0⟩, .standard⟩ (.new false)).1 = .error (.pathStepsExceeded 3) := by
  intro r
  have hvalue : r.1 = .ok (some (.list (some .object) [.object 2, .object 3])) := by cbv
  have hsteps : r.2.pathSteps = 4 := by cbv
  have h : evaluate descendants ⟨lineage, ⟨3, some 5, 0⟩, .standard⟩ (.new false) = (_, r.2) := Prod.ext hvalue rfl
  obtain ⟨hwithin, hothers⟩ := evaluate_within_limits h
  refine ⟨hvalue, hwithin 5 rfl, ?_, ?_⟩
  · rw [(hothers ⟨9, none, 100⟩ (by decide)).1 (by simp [Limits.Admits, hsteps])]
    exact Prod.ext hvalue.symm rfl
  · exact (hothers ⟨3, some 3, 0⟩ (by decide)).2 3 rfl (by omega)

end Eval

end Provenance
