import Mathlib.Order.Defs.PartialOrder
import Provenance.Proofs.Eval.Congruence
import Provenance.Proofs.Eval.Faults
import Provenance.Proofs.Value.Domain

/-!
# Relations with a condition on the outcome

`R X w Q m m'` is to say that a computation goes along with each of a family of
others in a state of knowledge `w`, and that an outcome of it satisfies `Q` in
the state that it leads to. A domain may grow with what is known. The place `X`
says what is at hand of the variables: a node puts the parts that it binds a
variable for in a place of their own. If such a relation is `Situated`, it
relates the evaluations of every node that fits its place, with an outcome in
the domain, provided it relates those of the expressions that the node asks for
where they stand (`Situated.node`).
-/

namespace Provenance.Eval

open Provenance.Path

variable {V W ι : Type}

/-- No condition on the outcome. -/
abbrev Any {α : Type} : W → α → Prop := fun _ _ => True

/-- Nothing is learned. -/
abbrev Settled (w : W) {α : Type} (Q : α → Prop) : W → α → Prop := fun w' a => w' = w ∧ Q a

def makeClosure (x : Var) (body : Expr) : Eval (Option Value) := do
  let id ← freshClosure
  return some (.lambda id x body)

/-- What the paths need besides. -/
structure Roaming (R : W → ∀ {α : Type}, (W → α → Prop) → Eval α → (ι → Eval α) → Prop) : Prop where
  isTracing : ∀ {w}, R w Any isTracing fun _ => isTracing
  enter : ∀ {w}, R w Any (change enter) fun _ => change enter
  leave : ∀ {w}, R w Any (change leave) fun _ => change leave
  countStep : ∀ {w}, R w Any countStep fun _ => countStep
  generations : ∀ {w}, R w Any generations fun _ => generations
  unending : ∀ {w} {α : Type}, R w (Any : W → α → Prop) unending fun _ => unending

/-- Which expressions fit a place, and the place below a node that binds a variable. -/
structure Places (V : Type) where
  fits : V → Expr → Prop
  under : VarId → V → V

/-- The domain as far as it fits a place. -/
def Places.domain (places : Places V) (D : Domain.Growing W) (X : V) (w : W) : Domain :=
  ⟨D.value w, places.fits X⟩

/-- Variables are read, closures made and paths walked only if there are expressions for that. -/
structure Situated [Preorder W] (D : Domain.Growing W) (places : Places V)
    (R : V → W → ∀ {α : Type}, (W → α → Prop) → Eval α → (ι → Eval α) → Prop) : Prop where
  closed : ∀ w, (D.stage w).Closed
  grow : ∀ {w w' v}, w ≤ w' → D.value w v → D.value w' v
  expr : ∀ {X e}, places.fits X e → D.expr e
  part : ∀ {X e a}, places.fits X e → (none, a) ∈ e.parts → places.fits X a
  bound : ∀ {X e x a}, places.fits X e → (some x, a) ∈ e.parts → places.fits (places.under x X) a
  body : ∀ {X w id x body}, D.value w (.lambda id x body) → places.fits (places.under x.id X) body
  pure : ∀ {X w} {α : Type} {Q : W → α → Prop} {a : α}, Q w a → R X w Q (pure a) fun _ => pure a
  bind : ∀ {X w} {α β : Type} {Q : W → α → Prop} {P : W → β → Prop} {m : Eval α} {m' : ι → Eval α}
    {f : α → Eval β} {f' : ι → α → Eval β}, R X w Q m m' →
      (∀ w' a, w ≤ w' → Q w' a → R X w' P (f a) fun i => f' i a) → R X w P (m >>= f) fun i => m' i >>= f' i
  note : ∀ {X w} (line : Unit → String), R X w (Settled w fun _ => True) (note line) fun _ => note line
  report : ∀ {X w} {f : Fault} (span : Option Span), f.unbound? = none →
    R X w (Settled w (· = none)) (report f span) fun _ => report f span
  graph : ∀ {X w}, R X w (Settled w (D.graph w)) graph fun _ => graph
  library : ∀ {X w}, R X w (Settled w fun _ => True) library fun _ => library
  readVar : ∀ {X w x}, places.fits X (.ref x) → R X w D.result (readVar x) fun _ => readVar x
  routed : ∀ {X w e} {α : Type} {Q : W → α → Prop} {f : Route → Eval α} {f' : ι → Route → Eval α}, places.fits X e →
    (∀ σ, R X w Q (f (route σ e)) fun i => f' i (route σ e)) →
      R X w Q (currentScope >>= fun σ => f (route σ e)) fun i => currentScope >>= fun σ => f' i (route σ e)
  indented : ∀ {X w} {α : Type} {Q : W → α → Prop} {m : Eval α} {m' : ι → Eval α}, R X w Q m m' →
    R X w Q (indented m) fun i => indented (m' i)
  binding : ∀ {X w} {α : Type} {Q : W → α → Prop} {m : Eval α} {m' : ι → Eval α} (x : VarId) {v : Option Value},
    D.result w v → R (places.under x X) w Q m m' → R X w Q (binding x v m) fun i => binding x v (m' i)
  closure : ∀ {X w x body}, places.fits X (.lambda x body) →
    R X w D.result (makeClosure x body) fun _ => makeClosure x body
  roaming : ∀ {X o left right span}, places.fits X (.op o left right span) → o.isJoin = true → Roaming (R X)

namespace Situated

variable [Preorder W] {D : Domain.Growing W} {places : Places V}
  {R : V → W → ∀ {α : Type}, (W → α → Prop) → Eval α → (ι → Eval α) → Prop} (h : Situated D places @R)
  {ev : Expr → Eval (Option Value)} {ev' : ι → Expr → Eval (Option Value)} {X : V} {w : W}

include h

theorem mono {α : Type} {Q P : W → α → Prop} {m : Eval α} {m' : ι → Eval α} (hm : R X w Q m m')
    (hQP : ∀ w' a, w ≤ w' → Q w' a → P w' a) : R X w P m m' := by
  have hbind : R X w P (m >>= Pure.pure) fun i => m' i >>= Pure.pure :=
    h.bind hm fun w' a hw ha => h.pure (hQP w' a hw ha)
  simpa only [bind_pure] using hbind

/-- After a computation from which nothing is learned. -/
theorem after {α β : Type} {Q : α → Prop} {P : W → β → Prop} {m : Eval α} {m' : ι → Eval α} {f : α → Eval β}
    {f' : ι → α → Eval β} (hm : R X w (Settled w Q) m m') (hf : ∀ a, Q a → R X w P (f a) fun i => f' i a) :
    R X w P (m >>= f) fun i => m' i >>= f' i := by
  refine h.bind hm fun w' a _ ha => ?_
  obtain ⟨rfl, ha⟩ := ha
  exact hf a ha

theorem noted {α : Type} {Q : W → α → Prop} {m : Eval α} {m' : ι → Eval α} (line : Unit → String) (hm : R X w Q m m') :
    R X w Q (Eval.note line >>= fun _ => m) fun i => Eval.note line >>= fun _ => m' i :=
  h.after (h.note line) fun _ _ => hm

theorem reported {f : Fault} (hf : f.unbound? = none) (span : Option Span) :
    R X w D.result (Eval.report f span) fun _ => Eval.report f span :=
  h.mono (h.report span hf) fun _ _ _ hv => hv.2 ▸ Domain.result_none

theorem orReport {r : Except Fault Value} (hr : ∀ v, r = .ok v → D.value w v)
    (hf : ∀ f, r = .error f → f.unbound? = none) (span : Option Span) :
    R X w D.result (orReport r span) fun _ => orReport r span := by
  cases r with
  | ok v => exact h.pure (Domain.result_some.mpr (hr v rfl))
  | error f => exact h.reported (hf f rfl) span

theorem keep {gathered : Tagged} (hg : D.members w gathered) {v : Option Value} (hv : D.result w v)
    (span : Option Span) : R X w D.members (keep gathered v span) fun _ => keep gathered v span := by
  cases v with
  | none => exact h.pure hg
  | some v =>
    simp only [Eval.keep]
    cases hpush : gathered.push v with
    | ok l => exact h.pure (Domain.members_push (Domain.result_some.mp hv) hg hpush)
    | error m => exact h.after (h.report _ rfl) fun _ _ => h.pure hg

/-! ## Lists that loops gather -/

theorem growAll {w' : W} (hw : w ≤ w') {vs : List Value} (hvs : ∀ v ∈ vs, D.value w v) : ∀ v ∈ vs, D.value w' v :=
  fun v hv => h.grow hw (hvs v hv)

theorem growMembers {w' : W} (hw : w ≤ w') {l : Tagged} (hl : D.members w l) : D.members w' l :=
  ⟨h.growAll hw hl.1, hl.2⟩

section
variable {item : Value → Eval (Option Value)} {item' : ι → Value → Eval (Option Value)}
  (hi : ∀ {w v}, D.value w v → R X w D.result (item v) fun i => item' i v)
include hi

theorem gather {gathered : Tagged} (hg : D.members w gathered) {v : Value} (hv : D.value w v) :
    R X w D.members (gather item gathered v) fun i => gather (item' i) gathered v :=
  h.bind (hi hv) fun _ _ hw hr => h.keep (h.growMembers hw hg) hr none

theorem gatherAll : ∀ {vs : List Value} {gathered : Tagged} {w : W}, (∀ v ∈ vs, D.value w v) → D.members w gathered →
    R X w D.members (gatherAll item vs gathered) fun i => gatherAll (item' i) vs gathered
  | [], _, _, _, hg => h.pure hg
  | v :: _, _, _, hvs, hg => h.bind (gather h hi hg (hvs v List.mem_cons_self)) fun _ _ hw hg' =>
      gatherAll (h.growAll hw fun u hu => hvs u (List.mem_cons_of_mem v hu)) hg'

theorem overSource {v : Value} (hv : D.value w v) :
    R X w D.result (overSource item v) fun i => overSource (item' i) v := by
  have hlist : ∀ {vs : List Value}, (∀ v ∈ vs, D.value w v) →
      R X w D.result (Eval.gatherAll item vs .empty >>= fun l => Pure.pure (some l.reverse.value))
        fun i => Eval.gatherAll (item' i) vs .empty >>= fun l => Pure.pure (some l.reverse.value) := fun hvs =>
    h.bind (h.gatherAll hi hvs Domain.members_empty) fun w' _ _ hl =>
      h.pure (Domain.result_some.mpr ((h.closed w').gathered hl))
  cases v with
  | tuple fields => exact hlist ((h.closed w).tuple.mp hv)
  | list kind members => exact hlist ((h.closed w).member hv)
  | range first last =>
    simp only [overSource_range]
    refine hlist fun v hv => ?_
    obtain ⟨n, -, rfl⟩ := List.mem_map.mp hv
    exact (h.closed w).int n
  | all =>
    refine h.after h.graph fun g _ => ?_
    have hids : ∀ v ∈ g.ids.map Value.object, D.value w v := by
      intro v hv
      obtain ⟨p, -, rfl⟩ := List.mem_map.mp hv
      exact (h.closed w).object p
    exact hlist hids
  | _ => exact hi hv

end

section
variable (hev : ∀ {X w e}, places.fits X e → R X w D.result (ev e) fun i => ev' i e)
include hev

theorem guarded (x : Var) {guard body : Expr} (hg : places.fits (places.under x.id X) guard)
    (hb : places.fits (places.under x.id X) body) {v : Option Value} (hv : D.result w v) :
    R X w D.result (guarded ev x guard body v) fun i => guarded (ev' i) x guard body v := by
  refine h.noted _ (h.binding x.id hv (h.bind (hev hg) fun w' g _ _ => ?_))
  by_cases htrue : truth g = true
  · simp only [if_pos htrue]
    exact hev hb
  · simp only [if_neg htrue]
    exact h.pure Domain.result_none

theorem forLoop (x : Var) {source guard body : Expr} (hs : places.fits X source)
    (hg : places.fits (places.under x.id X) guard) (hb : places.fits (places.under x.id X) body) :
    R X w D.result (forLoop ev x source guard body) fun i => forLoop (ev' i) x source guard body := by
  refine h.bind (hev hs) fun w' v _ hv => ?_
  cases v with
  | none => exact h.pure Domain.result_none
  | some v =>
    have hitem : ∀ {w u}, D.value w u → R X w D.result (Eval.guarded ev x guard body (some u))
        fun i => Eval.guarded (ev' i) x guard body (some u) := fun hu =>
      h.guarded hev x hg hb (Domain.result_some.mpr hu)
    exact h.noted _ (h.bind (h.indented (h.overSource hitem (Domain.result_some.mp hv))) fun _ _ _ hr =>
      h.noted _ (h.pure hr))

theorem letBinding (x : Var) {bound guard body : Expr} (hbound : places.fits X bound)
    (hg : places.fits (places.under x.id X) guard) (hb : places.fits (places.under x.id X) body) :
    R X w D.result (letBinding ev x bound guard body) fun i => letBinding (ev' i) x bound guard body :=
  h.bind (hev hbound) fun _ _ _ hv => h.noted _ (h.indented (h.guarded hev x hg hb hv))

/-! ## Calls -/

section
variable (id : UInt64) (x : Var) {body : Expr} (hb : places.fits (places.under x.id X) body)
include hb

theorem applyClosure {arg : Value} (ha : D.value w arg) :
    R X w D.result (applyClosure ev id x body arg) fun i => applyClosure (ev' i) id x body arg :=
  h.noted _ (h.indented (h.binding x.id (Domain.result_some.mpr ha) (hev hb)))

theorem keepWhere (span : Option Span) : ∀ {vs : List Value} {kept : Tagged} {w : W},
    (∀ v ∈ vs, D.value w v) → D.members w kept → R X w D.members (keepWhere ev id x body span vs kept)
      fun i => keepWhere (ev' i) id x body span vs kept
  | [], _, _, _, hk => h.pure hk
  | v :: rest, kept, w, hvs, hk => by
    refine h.bind (h.applyClosure hev id x hb (hvs v List.mem_cons_self)) fun w' r hw _ => ?_
    have hvs' := h.growAll hw hvs
    have hkept : D.result w' (if truth r then some v else none) := by
      split
      · exact Domain.result_some.mpr (hvs' v List.mem_cons_self)
      · exact Domain.result_none
    exact h.bind (h.keep (h.growMembers hw hk) hkept span) fun _ _ hw' hk' =>
      keepWhere span (h.growAll hw' fun u hu => hvs' u (List.mem_cons_of_mem v hu)) hk'

end

theorem filterList {arg : Value} (ha : D.value w arg) (span : Option Span) :
    R X w D.result (filterList ev arg span) fun i => filterList (ev' i) arg span := by
  unfold Eval.filterList
  split
  · rename_i id x body kind members
    have hpair := (h.closed w).tuple.mp ha
    have hbody := h.body (X := X) (hpair (.lambda id x body) (by simp))
    have hmembers := (h.closed w).member (hpair (.list kind members) (by simp))
    exact h.bind (h.keepWhere hev id x hbody span hmembers Domain.members_empty) fun w' _ _ hk =>
      h.pure (Domain.result_some.mpr ((h.closed w').gathered hk))
  · exact h.reported rfl _

theorem applyBuiltin (b : Builtin) {arg : Value} (ha : D.value w arg) (span : Option Span) :
    R X w D.result (applyBuiltin ev b arg span) fun i => applyBuiltin (ev' i) b arg span := by
  refine h.noted _ ?_
  cases b with
  | filter => exact h.filterList hev ha span
  | ctime =>
    exact h.after h.library fun _ _ => h.orReport (fun _ hu => (h.closed w).ctime hu) (fun _ => unbound?_of_ctime) span
  | _ => exact h.orReport (fun _ hu => (h.closed w).component ha hu) (fun _ => unbound?_of_component) span

theorem applyFunction {f arg : Value} (hf : D.value w f) (ha : D.value w arg) (span : Option Span) :
    R X w D.result (applyFunction ev f arg span) fun i => applyFunction (ev' i) f arg span := by
  cases f with
  | lambda id x body => exact h.applyClosure hev id x (h.body hf) ha
  | builtin b => exact h.applyBuiltin hev b ha span
  | _ => exact h.reported rfl _

/-! ## Operator applications -/

omit hev in
theorem lookupIndex (i : Value) {k : Value} (hk : D.value w k) (span : Option Span) :
    R X w D.result (lookupIndex i k span) fun _ => lookupIndex i k span := by
  cases i with
  | index kind =>
    refine h.after h.graph fun g _ => h.orReport (fun u hu => ?_) (fun _ => unbound?_of_mapError) span
    cases hlookup : g.lookup kind k with
    | error e =>
      rw [hlookup] at hu
      cases hu
    | ok v =>
      rw [hlookup] at hu
      cases hu
      exact (h.closed w).lookup hk hlookup
  | _ => exact h.reported rfl _

omit hev in
theorem readField (o n : Value) (span : Option Span) :
    R X w D.result (readField o n span) fun _ => readField o n span := by
  cases o with
  | object p =>
    cases n with
    | str s => exact h.after h.graph fun g hg => h.pure ((h.closed w).attribute? hg p s)
    | _ => exact h.reported rfl _
  | _ => exact h.reported rfl _

omit hev in
theorem applyUnary (o : Operator) {v : Value} (hv : D.value w v) (span : Option Span) :
    R X w D.result (applyUnary o v span) fun _ => applyUnary o v span := by
  unfold Eval.applyUnary
  split
  iterate 3 exact h.pure (Domain.result_some.mpr hv)
  exact h.orReport (fun _ hu => (h.closed w).unary hu) (fun _ => Operate.unbound?_of_unary) span

omit hev in
theorem operate (o : Operator) {l r : Value} (hl : D.value w l) (hr : D.value w r) (span : Option Span) :
    R X w D.result (operate o l r span) fun _ => operate o l r span :=
  h.after h.library fun _ _ => h.orReport (fun _ hu => (h.closed w).binary hl hr hu)
    (fun _ => Operate.unbound?_of_binary) span

theorem applyBinary (o : Operator) {l r : Value} (hl : D.value w l) (hr : D.value w r) (span : Option Span) :
    R X w D.result (applyBinary ev o l r span) fun i => applyBinary (ev' i) o l r span := by
  unfold Eval.applyBinary
  split
  · exact h.applyFunction hev hl hr span
  · exact h.lookupIndex l hr span
  · exact h.readField l r span
  · exact h.operate o hl hr span

theorem orNothing {e : Option Expr} (he : ∀ a ∈ e, places.fits X a) :
    R X w D.result (orNothing ev e) fun i => orNothing (ev' i) e := by
  cases e with
  | none => exact h.pure Domain.result_none
  | some a => exact hev (he a rfl)

theorem operandTruth {e : Option Expr} (he : ∀ a ∈ e, places.fits X a) :
    R X w Any (operandTruth ev e) fun i => operandTruth (ev' i) e := by
  cases e with
  | none => exact h.pure trivial
  | some a => exact h.bind (hev (he a rfl)) fun _ _ _ _ => h.pure trivial

section
variable {left : Expr} {right : Option Expr} (hl : places.fits X left) (hr : ∀ a ∈ right, places.fits X a)
  (span : Option Span)
include hl hr

theorem connective (goOn : Bool) :
    R X w D.result (connective ev goOn left right) fun i => connective (ev' i) goOn left right := by
  have hbool : ∀ (w : W) (b : Bool), D.result w (some (.ofBool b)) := fun w b =>
    Domain.result_some.mpr ((h.closed w).ofBool b)
  refine h.bind (h.operandTruth hev (e := some left) (by simpa using hl)) fun w' l _ _ => ?_
  by_cases hgo : l = goOn
  · simp only [if_pos hgo]
    exact h.bind (h.operandTruth hev hr) fun _ _ _ _ => h.pure (hbool _ _)
  · simp only [if_neg hgo]
    exact h.pure (hbool _ _)

theorem unite : R X w D.result (unite ev left right span) fun i => unite (ev' i) left right span := by
  refine h.bind (hev hl) fun _ l _ hlv => h.bind (h.orNothing hev hr) fun w' r hw hrv => ?_
  cases l with
  | none => exact h.pure hrv
  | some l =>
    have hlv' := h.grow hw (Domain.result_some.mp hlv)
    cases r with
    | none => exact h.pure (Domain.result_some.mpr hlv')
    | some r => exact h.operate .union hlv' (Domain.result_some.mp hrv) span

theorem strict (o : Operator) :
    R X w D.result (strict ev o left right span) fun i => strict (ev' i) o left right span := by
  refine h.bind (hev hl) fun _ l _ hlv => ?_
  cases l with
  | none => exact h.pure Domain.result_none
  | some l =>
    have hlv := Domain.result_some.mp hlv
    cases right with
    | none => exact h.applyUnary o hlv span
    | some right =>
      refine h.bind (hev (hr right rfl)) fun _ r hw hrv => ?_
      cases r with
      | none => exact h.pure Domain.result_none
      | some r => exact h.applyBinary hev o (h.grow hw hlv) (Domain.result_some.mp hrv) span

theorem operation (o : Operator) :
    R X w D.result (operation ev o left right span) fun i => operation (ev' i) o left right span := by
  cases o with
  | logAnd => exact h.connective hev hl hr true
  | logOr => exact h.connective hev hl hr false
  | union => exact h.unite hev hl hr span
  | _ => exact h.strict hev hl hr span _

end

/-! ## Conditions and tuples -/

theorem condition {test : Expr} {yes no : Option Expr} (ht : places.fits X test) (hy : ∀ a ∈ yes, places.fits X a)
    (hn : ∀ a ∈ no, places.fits X a) :
    R X w D.result (condition ev test yes no) fun i => condition (ev' i) test yes no := by
  refine h.bind (hev ht) fun _ t _ _ => h.noted _ (h.orNothing hev ?_)
  split
  · exact hy
  · exact hn

theorem fieldValues : ∀ {fields : List (Option Expr)} {w : W}, (∀ a, some a ∈ fields → places.fits X a) →
    R X w (fun w' vs => ∀ v ∈ vs, D.value w' v) (fieldValues ev fields) fun i => fieldValues (ev' i) fields
  | [], _, _ => h.pure fun _ hv => absurd hv List.not_mem_nil
  | e :: rest, _, hf => by
    refine h.bind (h.orNothing hev (e := e) fun a ha => hf a ?_) fun _ v _ hv =>
      h.bind (fieldValues fun a ha => hf a (List.mem_cons_of_mem _ ha)) fun _ vs hw hvs => h.pure fun u hu => ?_
    · rw [← Option.mem_def.mp ha]
      exact List.mem_cons_self
    · rcases List.mem_append.mp hu with hu | hu
      · exact h.grow hw (hv u (Option.mem_toList.mp hu))
      · exact hvs u hu

/-! ## Objects for a segment -/

omit hev in
theorem objectsAmong : ∀ {w : W} (vs : List Value), R X w Any (objectsAmong vs) fun _ => objectsAmong vs
  | _, [] => h.pure trivial
  | _, v :: rest => by
    cases v with
    | object p => exact h.bind (objectsAmong rest) fun _ _ _ _ => h.pure trivial
    | _ => exact h.bind (h.report _ rfl) fun _ _ _ _ => objectsAmong rest

theorem objectsWhere (id : UInt64) (x : Var) {body : Expr} (hb : places.fits (places.under x.id X) body) :
    ∀ {w : W} (ps : List ObjectId), R X w Any (objectsWhere ev id x body ps) fun i => objectsWhere (ev' i) id x body ps
  | _, [] => h.pure trivial
  | w, p :: rest => h.bind (h.applyClosure hev id x hb ((h.closed w).object p)) fun _ _ _ _ =>
      h.bind (objectsWhere id x hb rest) fun _ _ _ _ => h.pure trivial

theorem startObjects {t : Test} (ht : (places.domain D X w).test t) :
    R X w Any (startObjects ev t) fun i => startObjects (ev' i) t := by
  cases t with
  | any => exact h.after h.graph fun _ _ => h.pure trivial
  | expr e =>
    refine h.bind (hev ht) fun w' v _ hv => ?_
    split
    · exact h.pure trivial
    · exact h.pure trivial
    · exact h.objectsAmong _
    · exact h.after h.graph fun _ _ => h.pure trivial
    · exact h.after h.graph fun _ _ => h.objectsWhere hev _ _ (h.body (Domain.result_some.mp hv)) _
    · exact h.after (h.report _ rfl) fun _ _ => h.pure trivial

theorem passes (p : ObjectId) {t : Test} (ht : (places.domain D X w).test t) :
    R X w Any (passes ev p t) fun i => passes (ev' i) p t := by
  unfold Path.passes
  split
  · exact h.pure trivial
  · exact h.pure trivial
  · rename_i x guard body
    have hguard : places.fits (places.under x.id X) guard := h.bound (e := .forIn x (.val .all) guard body) ht
      (Expr.mem_parts_forIn.mpr (Or.inr (Or.inl ⟨rfl, rfl⟩)))
    split
    · exact h.bind (h.binding x.id (Domain.result_some.mpr ((h.closed w).object p)) (hev hguard)) fun _ _ _ _ =>
        h.pure trivial
    · exact h.bind (hev ht) fun _ _ _ _ => h.pure trivial
  · exact h.bind (hev ht) fun _ _ _ _ => h.pure trivial

/-! ## Walks -/

section
variable (hroam : Roaming (R X)) {r : Route} (hr : ∀ w i, (places.domain D X w).test (r.test i))
include hroam hr

theorem visit (a : Walker) (f : Frontier) (p : ObjectId) :
    R X w Any (visit ev r a f p) fun i => visit (ev' i) r a f p := by
  refine h.bind hroam.countStep fun w' _ _ _ => h.bind (h.passes hev p (hr w' _)) fun _ ok _ _ => ?_
  split
  · split
    · exact h.noted _ (h.pure trivial)
    · exact h.pure trivial
  · exact h.pure trivial

theorem visitAll (a : Walker) : ∀ {w : W} (ps : List ObjectId) (f : Frontier),
    R X w Any (visitAll ev r a ps f) fun i => visitAll (ev' i) r a ps f
  | _, [], _ => h.pure trivial
  | _, p :: rest, f => h.bind (h.visit hev hroam hr a f p) fun _ _ _ _ => visitAll a rest _

theorem exploreAll : ∀ {w : W} (as : List Walker) (f : Frontier),
    R X w Any (exploreAll ev r as f) fun i => exploreAll (ev' i) r as f
  | _, [], _ => h.pure trivial
  | _, a :: rest, f => h.bind (h.after h.graph fun _ _ => h.noted _ (h.visitAll hev hroam hr a _ f)) fun _ _ _ _ =>
      exploreAll rest _

theorem run : ∀ {w : W} (n : Nat) (live : List Walker) (found : List (List ObjectId)),
    R X w Any (run ev r n live found) fun i => run (ev' i) r n live found
  | _, 0, [], _ => h.pure trivial
  | _, _ + 1, [], _ => h.pure trivial
  | _, 0, _ :: _, _ => hroam.unending
  | _, n + 1, _ :: _, _ => h.noted _ (h.bind hroam.enter fun _ _ _ _ => h.bind (h.exploreAll hev hroam hr _ _)
      fun _ _ _ _ => h.bind hroam.leave fun _ _ _ _ => run n _ _)

omit hroam in
theorem launch : ∀ {w : W} (starts : List Nat), R X w Any (launch ev r starts) fun i => launch (ev' i) r starts
  | _, [] => h.pure trivial
  | w, s :: rest => h.noted _ (h.bind (h.indented (h.startObjects hev (hr w s))) fun _ _ _ _ => h.noted _
      (h.bind (launch rest) fun _ _ _ _ => h.pure trivial))

theorem walks : R X w Any (walks ev r) fun i => walks (ev' i) r :=
  h.bind (h.launch hev hr _) fun _ live _ _ => h.bind hroam.generations fun _ n _ _ => h.run hev hroam hr n live []

end

omit hev in
theorem noteAll : ∀ lines : List String, R X w Any (noteAll lines) fun _ => noteAll lines
  | [] => h.pure trivial
  | _ :: rest => h.noted _ (noteAll rest)

omit hev in
theorem gatherResults (d : Direction) (span : Option Span) : ∀ {w : W} (found : List (List ObjectId))
    {gathered : Tagged}, D.members w gathered →
      R X w D.members (gatherResults d span found gathered) fun _ => gatherResults d span found gathered
  | _, [], _, hg => h.pure hg
  | w, _ :: rest, _, hg => h.bind (h.keep hg ((h.closed w).resultOf _) span) fun _ _ _ hg' =>
      gatherResults d span rest hg'

theorem evaluatePath (hroam : Roaming (R X)) {e : Expr} (he : places.fits X e) :
    R X w D.result (Path.evaluate ev e) fun i => Path.evaluate (ev' i) e := by
  simp only [evaluatePath_eq]
  refine h.routed he fun σ => h.noted _ ?_
  have hnote : R X w Any (noteRoute (route σ e)) fun _ => noteRoute (route σ e) := by
    refine h.bind hroam.isTracing fun _ tracing _ _ => ?_
    split
    · exact h.noteAll _
    · exact h.pure trivial
  have hwalks : ∀ {w}, R X w Any (Path.walks ev (route σ e)) fun i => Path.walks (ev' i) (route σ e) :=
    h.walks hev hroam fun w => Domain.test_route (D := places.domain D X w) h.part σ he
  refine h.bind (h.indented (h.bind hnote fun _ _ _ _ => hwalks)) fun _ found _ _ => ?_
  exact h.bind (h.gatherResults _ _ found Domain.members_empty) fun w' _ _ hg =>
    h.noted _ (h.pure (Domain.result_some.mpr ((h.closed w').gathered hg)))

/-! ## Nodes -/

theorem node {e : Expr} (he : places.fits X e) : R X w D.result (node ev e) fun i => node (ev' i) e := by
  cases e with
  | val v => exact h.pure (Domain.result_some.mpr ((h.closed w).literal (h.expr he)))
  | ref x => exact h.readVar he
  | lambda x body => exact h.closure he
  | forIn x source guard body =>
    exact h.forLoop hev x (h.part he (by simp [Expr.parts])) (h.bound he (by simp [Expr.parts]))
      (h.bound he (by simp [Expr.parts]))
  | letIn x bound guard body =>
    exact h.letBinding hev x (h.part he (by simp [Expr.parts])) (h.bound he (by simp [Expr.parts]))
      (h.bound he (by simp [Expr.parts]))
  | cond test yes no =>
    exact h.condition hev (h.part he (Expr.mem_parts_cond.mpr ⟨rfl, Or.inl rfl⟩))
      (fun a ha => h.part he (Expr.mem_parts_cond.mpr ⟨rfl, Or.inr (Or.inl ha)⟩))
      (fun a ha => h.part he (Expr.mem_parts_cond.mpr ⟨rfl, Or.inr (Or.inr ha)⟩))
  | tuple fields =>
    exact h.bind (h.fieldValues hev fun a ha => h.part he (Expr.mem_parts_tuple.mpr ⟨rfl, ha⟩)) fun w' _ _ hvs =>
      h.pure ((h.closed w').tupleOf hvs)
  | op o left right span =>
    simp only [Eval.node]
    by_cases hjoin : o.isJoin = true
    · simp only [if_pos hjoin]
      exact h.evaluatePath hev (h.roaming he hjoin) he
    · simp only [if_neg hjoin]
      exact h.bind (h.operation hev (h.part he Expr.left_mem_parts)
        (fun a ha => h.part he (Expr.mem_parts_op.mpr ⟨rfl, Or.inr ha⟩)) span o) fun _ _ _ hr =>
          h.noted _ (h.pure hr)

end

end Situated

end Provenance.Eval
