import Provenance.Proofs.Glob.Splits

/-!
# How a glob pattern is read

`Reads` says which tokens a pattern stands for. Every pattern has exactly one
reading (`exists_reads`, `Reads.unique`).
-/

namespace Provenance.Glob

/-! ## Brackets -/

def mark (negated : Bool) : List Char :=
  if negated then ['!'] else []

/-- What follows an opening bracket begins with a set, and the bracket that closes it. -/
structure Closed (inside : List Char) (negated : Bool) (members after : List Char) : Prop where
  split : inside = mark negated ++ members ++ ']' :: after
  nonempty : members ≠ []
  -- in first place it is a member
  later : ']' ∉ members.tail
  front : negated = false → members.head? ≠ some '!'

/-- Splits off the members of a set, of which there is at least one, and the bracket that closes it. -/
def closed? : List Char → Option (List Char × List Char)
  | [] => none
  | c :: rest =>
    match rest.dropWhile (· != ']') with
    | [] => none
    | _ :: after => some (c :: rest.takeWhile (· != ']'), after)

def bracket? : List Char → Option (Bool × List Char × List Char)
  | '!' :: rest => (closed? rest).map fun p => (true, p.1, p.2)
  | rest => (closed? rest).map fun p => (false, p.1, p.2)

theorem closed?_eq_some_iff {inside members after : List Char} :
    closed? inside = some (members, after) ↔ inside = members ++ ']' :: after ∧ members ≠ [] ∧ ']' ∉ members.tail := by
  constructor
  · intro h
    cases inside with
    | nil => cases h
    | cons c rest =>
      rw [closed?] at h
      cases hdrop : rest.dropWhile (· != ']') with
      | nil => rw [hdrop] at h; cases h
      | cons d tail =>
        rw [hdrop] at h
        obtain ⟨rfl, rfl⟩ := Prod.mk.inj (Option.some.inj h)
        have hd : d = ']' := by
          have := List.head?_dropWhile_not (· != ']') rest
          rw [hdrop] at this
          simpa using this
        have hrest : rest = rest.takeWhile (· != ']') ++ ']' :: tail := by
          rw [← hd, ← hdrop, hd, List.takeWhile_append_dropWhile]
        refine ⟨congrArg (c :: ·) hrest, List.cons_ne_nil _ _, fun hmem => ?_⟩
        exact absurd (List.all_eq_true.mp List.all_takeWhile _ hmem) (by decide)
  · rintro ⟨rfl, hne, hlater⟩
    obtain ⟨c, rest, rfl⟩ := List.exists_cons_of_ne_nil hne
    have hall : ∀ d ∈ rest, (d != ']') = true := fun d hd => bne_iff_ne.mpr fun heq => hlater (heq ▸ hd)
    rw [List.cons_append, closed?, List.dropWhile_append_of_pos hall, List.takeWhile_append_of_pos hall]
    simp

theorem bracket?_of_head?_ne {inside : List Char} (h : inside.head? ≠ some '!') :
    bracket? inside = (closed? inside).map fun p => (false, p.1, p.2) := by
  rw [bracket?]
  rintro rest rfl
  exact h rfl

theorem bracket?_eq_some_iff {inside members after : List Char} {negated : Bool} :
    bracket? inside = some (negated, members, after) ↔ Closed inside negated members after := by
  by_cases hmark : inside.head? = some '!'
  · obtain ⟨rest, rfl⟩ := List.head?_eq_some_iff.mp hmark
    rw [bracket?, Option.map_eq_some_iff]
    constructor
    · rintro ⟨⟨_, _⟩, hclosed, heq⟩
      obtain ⟨rfl, rfl, rfl⟩ := by simpa using heq
      obtain ⟨rfl, hne, hlater⟩ := closed?_eq_some_iff.mp hclosed
      exact ⟨rfl, hne, hlater, fun h => absurd h (by decide)⟩
    · intro h
      cases negated with
      | true => exact ⟨_, closed?_eq_some_iff.mpr ⟨(List.cons.inj h.split).2, h.nonempty, h.later⟩, rfl⟩
      | false =>
        obtain ⟨c, members, rfl⟩ := List.exists_cons_of_ne_nil h.nonempty
        exact absurd (congrArg some (List.cons.inj h.split).1.symm) (h.front rfl)
  · rw [bracket?_of_head?_ne hmark, Option.map_eq_some_iff]
    constructor
    · rintro ⟨⟨_, _⟩, hclosed, heq⟩
      obtain ⟨rfl, rfl, rfl⟩ := by simpa using heq
      obtain ⟨rfl, hne, hlater⟩ := closed?_eq_some_iff.mp hclosed
      obtain ⟨c, members, rfl⟩ := List.exists_cons_of_ne_nil hne
      exact ⟨rfl, hne, hlater, fun _ => hmark⟩
    · intro h
      cases negated with
      | true => exact absurd (congrArg List.head? h.split) hmark
      | false => exact ⟨_, closed?_eq_some_iff.mpr ⟨h.split, h.nonempty, h.later⟩, rfl⟩

theorem bracket?_eq_none_iff {inside : List Char} :
    bracket? inside = none ↔ ∀ negated members after, ¬ Closed inside negated members after := by
  simp only [← bracket?_eq_some_iff, Option.eq_none_iff_forall_ne_some, Prod.forall, ne_eq]

/-! ## Readings -/

/-- The tokens that a pattern stands for. -/
inductive Reads : List Char → List Token → Prop
  | done : Reads [] []
  | anyText {rest ts} : Reads rest ts → Reads ('*' :: rest) (.anyText :: ts)
  | anyChar {rest ts} : Reads rest ts → Reads ('?' :: rest) (.anyChar :: ts)
  | escaped {c rest ts} : Reads rest ts → Reads ('\\' :: c :: rest) (.exact c :: ts)
  | backslash : Reads ['\\'] [.exact '\\']
  | set {inside negated members after ts} : Closed inside negated members after → Reads after ts →
      Reads ('[' :: inside) (.oneOf negated members :: ts)
  | bracket {rest ts} : (∀ negated members after, ¬ Closed rest negated members after) → Reads rest ts →
      Reads ('[' :: rest) (.exact '[' :: ts)
  | plain {c rest ts} : c ∉ ['*', '?', '\\', '['] → Reads rest ts → Reads (c :: rest) (.exact c :: ts)

theorem Closed.unique {inside : List Char} {negated negated' : Bool} {members members' after after' : List Char}
    (h : Closed inside negated members after) (h' : Closed inside negated' members' after') :
    negated = negated' ∧ members = members' ∧ after = after' := by
  rw [← bracket?_eq_some_iff] at h h'
  simpa using Option.some.inj (h.symm.trans h')

theorem Closed.length_lt {inside : List Char} {negated : Bool} {members after : List Char}
    (h : Closed inside negated members after) : after.length < inside.length := by
  rw [h.split, List.length_append, List.length_cons]
  omega

theorem Reads.unique {pattern : List Char} {ts ts' : List Token} (h : Reads pattern ts) (h' : Reads pattern ts') : ts = ts' := by
  induction h generalizing ts' with
  | done => cases h'; rfl
  | anyText _ ih =>
    cases h' with
    | anyText h' => rw [ih h']
    | plain hc => simp at hc
  | anyChar _ ih =>
    cases h' with
    | anyChar h' => rw [ih h']
    | plain hc => simp at hc
  | escaped _ ih =>
    cases h' with
    | escaped h' => rw [ih h']
    | plain hc => simp at hc
  | backslash =>
    cases h' with
    | backslash => rfl
    | plain hc => simp at hc
  | set hclosed _ ih =>
    cases h' with
    | set hclosed' h' =>
      obtain ⟨rfl, rfl, rfl⟩ := hclosed.unique hclosed'
      rw [ih h']
    | bracket hopen => exact absurd hclosed (hopen _ _ _)
    | plain hc => simp at hc
  | bracket hopen _ ih =>
    cases h' with
    | set hclosed => exact absurd hclosed (hopen _ _ _)
    | bracket _ h' => rw [ih h']
    | plain hc => simp at hc
  | plain hc _ ih =>
    cases h' with
    | plain _ h' => rw [ih h']
    | _ => simp at hc

theorem exists_reads (pattern : List Char) : ∃ ts, Reads pattern ts := by
  match pattern with
  | [] => exact ⟨[], .done⟩
  | c :: rest =>
    obtain ⟨ts, hts⟩ := exists_reads rest
    by_cases hplain : c ∉ ['*', '?', '\\', '[']
    · exact ⟨_, .plain hplain hts⟩
    simp only [List.mem_cons, List.not_mem_nil, or_false, not_not] at hplain
    rcases hplain with rfl | rfl | rfl | rfl
    · exact ⟨_, .anyText hts⟩
    · exact ⟨_, .anyChar hts⟩
    · match rest with
      | [] => exact ⟨_, .backslash⟩
      | d :: rest =>
        obtain ⟨ts, hts⟩ := exists_reads rest
        exact ⟨_, .escaped hts⟩
    · by_cases hclosed : ∃ negated members after, Closed rest negated members after
      · obtain ⟨negated, members, after, hclosed⟩ := hclosed
        have := hclosed.length_lt
        obtain ⟨ts, hts⟩ := exists_reads after
        exact ⟨_, .set hclosed hts⟩
      · exact ⟨_, .bracket (by simpa using hclosed) hts⟩
termination_by pattern.length
decreasing_by all_goals (simp only [List.length_cons]; omega)

end Provenance.Glob
