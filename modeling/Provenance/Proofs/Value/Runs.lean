import Provenance.Eval.Operate
import Provenance.Library
import Provenance.Proofs.Value.Tagged

/-!
# Runs of members

`contains` looks for a run of members that are equal to those of the needle one
by one. It goes through the haystack once: a member that breaks a run is not
tried as the start of another. What it finds is described by `Scan`. So it finds
nothing that is not there, and what is there it finds for certain only where
the first candidate is the start of it (`contains_run`).
-/

namespace Provenance

namespace Value

theorem equalAll_append {us ws : List Value} : ∀ {xs ys : List Value}, equalAll xs ys = true →
    equalAll (xs ++ us) (ys ++ ws) = equalAll us ws
  | [], [], _ => rfl
  | [], _ :: _, h | _ :: _, [], h => by cases h
  | x :: xs, y :: ys, h => by
    rw [equalAll, Bool.and_eq_true] at h
    simp only [List.cons_append, equalAll, h.1, Bool.true_and]
    exact equalAll_append h.2

theorem exists_of_equalAll {n : Value} : ∀ {vs ns : List Value}, equalAll vs ns = true → n ∈ ns →
    ∃ v ∈ vs, v.equals n = true
  | [], _ :: _, h, _ => by cases h
  | v :: vs, m :: ns, h, hn => by
    rw [equalAll, Bool.and_eq_true] at h
    rcases List.mem_cons.mp hn with rfl | hn
    · exact ⟨v, List.mem_cons_self, h.1⟩
    · obtain ⟨w, hw, heq⟩ := exists_of_equalAll h.2 hn
      exact ⟨w, List.mem_cons_of_mem v hw, heq⟩

/-- Behind the members `before`, the haystack goes on with a run like the needle. -/
def RunBehind (before needle haystack : List Value) : Prop :=
  ∃ run after, haystack = before ++ (run ++ after) ∧ equalAll run needle = true

def Occurs (needle haystack : List Value) : Prop :=
  ∃ before, RunBehind before needle haystack

/-- There is a run like the needle, and no member in front of it is like the needle's head. -/
def StartsAtFirst (needle haystack : List Value) : Prop :=
  ∃ before, RunBehind before needle haystack ∧ ∀ n ∈ needle.head?, ∀ v ∈ before, v.equals n = false

theorem Occurs.exists_equals {needle haystack : List Value} {n : Value} (h : Occurs needle haystack) (hn : n ∈ needle) :
    ∃ v ∈ haystack, v.equals n = true := by
  obtain ⟨before, run, after, rfl, hrun⟩ := h
  obtain ⟨v, hv, heq⟩ := exists_of_equalAll hrun hn
  exact ⟨v, List.mem_append_right _ (List.mem_append_left _ hv), heq⟩

/-- One way through the haystack: runs that break off are left behind, each with the member that broke it, until
one goes to the end of the needle. -/
inductive Scan (needle : List Value) : List Value → Prop
  | found (run after : List Value) (whole : equalAll run needle = true) : Scan needle (run ++ after)
  | broken (part front : List Value) {later rest : List Value} {n v : Value} (cut : needle = front ++ n :: later)
      (begun : equalAll part front = true) (breaks : v.equals n = false) (more : Scan needle rest) :
      Scan needle (part ++ v :: rest)

theorem Scan.occurs {needle haystack : List Value} (h : Scan needle haystack) : Occurs needle haystack := by
  induction h with
  | found run after whole => exact ⟨[], run, after, rfl, whole⟩
  | @broken part front later rest n v cut begun breaks more ih =>
    obtain ⟨before, run, after, rfl, hrun⟩ := ih
    exact ⟨part ++ v :: before, run, after, by simp, hrun⟩

/-- Members in front that are not like the head of the needle are runs that break off at once. -/
theorem scan_of_startsAtFirst {needle haystack : List Value} (h : StartsAtFirst needle haystack) :
    Scan needle haystack := by
  obtain ⟨before, ⟨run, after, rfl, hrun⟩, hbefore⟩ := h
  cases needle with
  | nil => exact .found [] _ rfl
  | cons n later =>
    induction before with
    | nil => exact .found run after hrun
    | cons v before ih =>
      have hv : v.equals n = false := hbefore n rfl v List.mem_cons_self
      exact .broken [] [] rfl rfl hv
        (ih fun m hm u hu => hbefore m hm u (List.mem_cons_of_mem v hu))

end Value

namespace Operate

open Value (Occurs Scan StartsAtFirst equalAll equalAll_append scan_of_startsAtFirst)

/-! ## The search -/

theorem findRun_append (needle pending rest : List Value) : ∀ {part front : List Value}, equalAll part front = true →
    findRun needle (front ++ pending) (part ++ rest) = findRun needle pending rest
  | [], [], _ => rfl
  | [], _ :: _, h | _ :: _, [], h => by cases h
  | v :: part, n :: front, h => by
    rw [equalAll, Bool.and_eq_true] at h
    rw [List.cons_append, List.cons_append, findRun, if_pos h.1]
    exact findRun_append needle pending rest h.2

/-- The members seen last are the part of the needle that is not pending. -/
theorem scan_of_findRun {needle : List Value} : ∀ {haystack pending : List Value} (part front : List Value),
    needle = front ++ pending → equalAll part front = true → findRun needle pending haystack = true →
      Scan needle (part ++ haystack)
  | haystack, [], part, front, hneedle, hpart, _ => by
    rw [List.append_nil] at hneedle
    exact .found part haystack (hneedle ▸ hpart)
  | [], _ :: _, _, _, _, _, h => by cases h
  | v :: haystack, n :: pending, part, front, hneedle, hpart, h => by
    unfold findRun at h
    by_cases hv : v.equals n = true
    · rw [if_pos hv] at h
      have hpart' : equalAll (part ++ [v]) (front ++ [n]) = true := by
        rw [equalAll_append hpart]
        simp [equalAll, hv]
      have hscan := scan_of_findRun (part ++ [v]) (front ++ [n]) (by simp [hneedle]) hpart' h
      rwa [List.append_assoc] at hscan
    · rw [if_neg hv] at h
      have hscan := scan_of_findRun [] [] rfl rfl h
      exact .broken part front hneedle hpart (Bool.eq_false_iff.mpr hv) hscan

theorem hasRun_iff_scan {needle haystack : List Value} : hasRun needle haystack = true ↔ Scan needle haystack := by
  constructor
  · exact scan_of_findRun [] [] rfl rfl
  · intro h
    unfold hasRun
    induction h with
    | found run after whole =>
      have hrest := findRun_append needle [] after whole
      rw [List.append_nil] at hrest
      rw [hrest]
      cases after <;> rfl
    | @broken part front later rest n v cut begun breaks more ih =>
      have hrest : findRun needle needle (part ++ v :: rest) = findRun needle (n :: later) (v :: rest) := by
        conv => lhs; arg 2; rw [cut]
        exact findRun_append _ _ _ begun
      rw [hrest, findRun, if_neg (by simp [breaks])]
      exact ih

/-! ## The operator -/

/-- Two lists of one kind, of which either may have no members and so no kind, or two tuples. -/
inductive Sequences : Value → Value → List Value → List Value → Prop
  | lists {s t : Option Tag} {hs ns : List Value} (kinds : s = none ∨ t = none ∨ s = t) :
      Sequences (.list s hs) (.list t ns) hs ns
  | tuples {hs ns : List Value} : Sequences (.tuple hs) (.tuple ns) hs ns

variable {engine : Glob.Engine} {h n : Value} {hs ns : List Value}

theorem contains_eq (hseq : Sequences h n hs ns) : binary engine .contains h n = .ok (.ofBool (hasRun ns hs)) := by
  cases hseq with
  | tuples => rfl
  | @lists s t _ _ kinds =>
    unfold binary contains
    cases s with
    | none => rfl
    | some s =>
      cases t with
      | none => rfl
      | some t =>
        have hkind : s = t := by simpa using kinds
        simp only [hkind, if_true]
        rfl

/-- What `contains` finds is there. It finds an empty needle, and every needle of which a run starts at the first
member that is like the needle's head. -/
theorem contains_run (hseq : Sequences h n hs ns) :
    ∃ found, binary engine .contains h n = .ok (.ofBool found) ∧ (found = true → Occurs ns hs) ∧
      (ns = [] ∨ StartsAtFirst ns hs → found = true) := by
  refine ⟨hasRun ns hs, contains_eq hseq, fun hfound => (hasRun_iff_scan.mp hfound).occurs, fun hfirst => ?_⟩
  rw [hasRun_iff_scan]
  rcases hfirst with rfl | hfirst
  · exact .found [] _ rfl
  · exact scan_of_startsAtFirst hfirst

theorem contains_run_ints :
    Sequences (.listOf [.int 1, .int 2, .int 3]) (.listOf [.int 2, .int 3]) [.int 1, .int 2, .int 3]
        [.int 2, .int 3] ∧
      StartsAtFirst [.int 2, .int 3] [.int 1, .int 2, .int 3] ∧
      binary Library.standard.engine .contains (.listOf [.int 1, .int 2, .int 3]) (.listOf [.int 2, .int 3]) =
        .ok (.ofBool true) ∧
      Occurs [.int 2, .int 3] [.int 1, .int 2, .int 3] := by
  have hseq : Sequences (.listOf [.int 1, .int 2, .int 3]) (.listOf [.int 2, .int 3]) [.int 1, .int 2, .int 3]
      [.int 2, .int 3] := .lists (Or.inr (Or.inr rfl))
  have hfirst : StartsAtFirst [.int 2, .int 3] [.int 1, .int 2, .int 3] := by
    refine ⟨[.int 1], ⟨[.int 2, .int 3], [], rfl, rfl⟩, ?_⟩
    intro n hn v hv
    cases hn
    cases List.mem_singleton.mp hv
    rfl
  obtain ⟨found, hvalue, hoccurs, hfound⟩ := contains_run hseq
  have htrue := hfound (Or.inr hfirst)
  rw [htrue] at hvalue
  exact ⟨hseq, hfirst, hvalue, hoccurs htrue⟩

/-- The 1 that breaks the first run is not tried as the start of another. -/
example : binary engine .contains (.listOf [.int 1, .int 1, .int 2]) (.listOf [.int 1, .int 2]) = .ok (.ofBool false) :=
  rfl

end Operate

end Provenance
