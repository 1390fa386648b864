import Provenance.Eval.Operate
import Provenance.Proofs.Glob.Reading

/-!
# Glob patterns as regular expressions

A pattern is written as a regular expression, for an engine that reads the
documented syntax of regular expressions (`Engine.Documented`). As long as no set
of the pattern has a dash, what is written denotes what the pattern stands for, so
the texts that are like the pattern are those that split along it
(`like_iff_splits`). The engine that is at hand is such an engine (`documented_engine`).
-/

namespace Provenance.Glob

open Regex (ClassItem operators fits)

/-! ## Documented syntax -/

/-- The characters that can have a meaning of their own in a class. -/
def classOperators : List Char :=
  ['\\', '[', ']', '^', '-', '&', '~']

/-- How a class is spelled that has no ranges and no operations on sets. -/
inductive Spells : List Char → List Char → Prop
  | done : Spells [] []
  | escaped {c text members} : c ∈ operators → Spells text members → Spells ('\\' :: c :: text) (c :: members)
  | plain {c text members} : c ∉ classOperators → Spells text members → Spells (c :: text) (c :: members)

def caret (negated : Bool) : List Char :=
  if negated then ['^'] else []

/-- The documented syntax of regular expressions, as far as a sequence of tokens can be written in it. -/
inductive Denotes (escape : Char → String) : List Char → List Token → Prop
  | done : Denotes escape [] []
  | anyText {body ts} : Denotes escape body ts → Denotes escape ('.' :: '*' :: body) (.anyText :: ts)
  | anyChar {body ts} : Denotes escape body ts → Denotes escape ('.' :: body) (.anyChar :: ts)
  | literal {c body ts} : Denotes escape body ts → Denotes escape ((escape c).toList ++ body) (.exact c :: ts)
  | escaped {c body ts} : c ∈ operators → Denotes escape body ts → Denotes escape ('\\' :: c :: body) (.exact c :: ts)
  | set {negated text members body ts} : members ≠ [] → Spells text members → Denotes escape body ts →
      Denotes escape ('[' :: caret negated ++ text ++ ']' :: body) (.oneOf negated members :: ts)

/-- Within its limits the engine keeps to the documented syntax. -/
def Engine.Documented (engine : Engine) (withinLimits : String → Prop) : Prop :=
  ∀ {body : List Char} {ts : List Token}, Denotes engine.escape body ts → withinLimits (anchored body) →
    ∀ text, ∃ b, engine.search? (anchored body) text = some b ∧ (b = true ↔ Splits ts text.toList)

/-! ## Classes -/

def byteLength : List Char → Nat
  | [] => 0
  | c :: text => c.utf8Size + byteLength text

theorem byteLength_append : ∀ a b : List Char, byteLength (a ++ b) = byteLength a + byteLength b
  | [], _ => (Nat.zero_add _).symm
  | c :: a, b => by rw [List.cons_append, byteLength, byteLength, byteLength_append a b, Nat.add_assoc]

theorem dropBytes?_byteLength (rest : List Char) : ∀ text : List Char, dropBytes? (byteLength text) (text ++ rest) = some rest
  | [] => by cases rest <;> rfl
  | c :: text => by
    obtain ⟨n, hn⟩ : ∃ n, byteLength (c :: text) = n + 1 :=
      Nat.exists_eq_succ_of_ne_zero (by have := c.utf8Size_pos; rw [byteLength]; omega)
    have hsplit : n + 1 = c.utf8Size + byteLength text := by rw [← hn, byteLength]
    rw [hn, List.cons_append, dropBytes?, if_pos (by omega), hsplit, Nat.add_sub_cancel_left,
      dropBytes?_byteLength rest text]

theorem spells_flatMap : ∀ {members : List Char}, '-' ∉ members → Spells (members.flatMap classMember) members
  | [], _ => .done
  | c :: members, h => by
    rw [List.mem_cons, not_or] at h
    rw [List.flatMap_cons, classMember]
    split
    · rename_i hc
      have hoperator : ∀ c ∈ classEscapes, c ∈ operators := by simp [classEscapes, operators]
      exact .escaped (hoperator c hc) (spells_flatMap h.2)
    · rename_i hc
      have hescape : ∀ c ∈ classOperators, c ≠ '-' → c ∈ classEscapes := by simp [classOperators, classEscapes]
      exact .plain (fun hmem => hc (hescape c hmem (Ne.symm h.1))) (spells_flatMap h.2)

theorem classMembers?_later : ∀ rest : List Char, classMembers? false rest = match rest.dropWhile (· != ']') with
    | [] => none
    | _ :: _ => some ((rest.takeWhile (· != ']')).flatMap classMember ++ [']'], byteLength (rest.takeWhile (· != ']')) + 1)
  | [] => rfl
  | c :: rest => by
    by_cases hc : c = ']'
    · subst hc; rfl
    · rw [classMembers?, if_neg (fun h => hc h.1), classMembers?_later rest,
        List.dropWhile_cons_of_pos (by simpa using hc), List.takeWhile_cons_of_pos (by simpa using hc)]
      cases rest.dropWhile (· != ']') with
      | nil => rfl
      | cons d after => simp only [Option.map_some, List.flatMap_cons, List.append_assoc, byteLength, Nat.add_assoc]

theorem classMembers?_first (inside : List Char) : classMembers? true inside =
    (closed? inside).map fun p => (p.1.flatMap classMember ++ [']'], byteLength p.1 + 1) := by
  cases inside with
  | nil => rfl
  | cons c rest =>
    rw [classMembers?, if_neg (by simp), classMembers?_later, closed?]
    cases rest.dropWhile (· != ']') with
    | nil => rfl
    | cons d after => simp only [Option.map_some, List.flatMap_cons, List.append_assoc, byteLength, Nat.add_assoc]

/-- A class is written for every set that is read. -/
theorem class?_eq (inside : List Char) : class? inside = (bracket? inside).map fun p =>
    ('[' :: caret p.1 ++ p.2.1.flatMap classMember ++ [']'], byteLength (mark p.1 ++ p.2.1 ++ [']'])) := by
  by_cases hmark : inside.head? = some '!'
  · obtain ⟨rest, rfl⟩ := List.head?_eq_some_iff.mp hmark
    rw [class?, bracket?, classMembers?_first, Option.map_map, Option.map_map]
    refine congrArg (Option.map · _) (funext fun p => ?_)
    simp only [Function.comp_apply, caret, mark, if_true, byteLength_append]
    rw [Nat.add_assoc]
    rfl
  · have hclass : class? inside = (classMembers? true inside).map fun p => ('[' :: p.1, p.2) := by
      rw [class?]
      rintro rest rfl
      exact hmark rfl
    rw [hclass, bracket?_of_head?_ne hmark, classMembers?_first, Option.map_map, Option.map_map]
    refine congrArg (Option.map · _) (funext fun p => ?_)
    simp only [Function.comp_apply, caret, mark, Bool.false_eq_true, if_false, byteLength_append]
    rw [show byteLength [] = 0 from rfl, Nat.zero_add]
    rfl

theorem Closed.dropBytes? {inside : List Char} {negated : Bool} {members after : List Char}
    (h : Closed inside negated members after) :
    Glob.dropBytes? (byteLength (mark negated ++ members ++ [']'])) inside = some after := by
  have hsplit : inside = mark negated ++ members ++ [']'] ++ after := by rw [h.split, List.append_assoc _ [']']]; rfl
  rw [hsplit, dropBytes?_byteLength]

/-! ## The engine at hand -/

/-- Members without dashes between them are ranges of one character each. -/
theorem parts?_members : ∀ (members : List Char) (part : List CharRange),
    Regex.parts? (members.map .member) part = some [part.reverse ++ members.map fun c => ⟨c, c⟩]
  | [], part => by simp [Regex.parts?]
  | c :: members, part => by
    have hstep : Regex.parts? (.member c :: members.map .member) part =
        Regex.parts? (members.map .member) (⟨c, c⟩ :: part) := by
      cases members with
      | nil => rfl
      | cons d members => rfl
    rw [List.map_cons, hstep, parts?_members members]
    simp

theorem set?_members (negated : Bool) (members : List Char) :
    Regex.set? negated (members.map .member) = some ⟨negated, members.map fun c => ⟨c, c⟩, []⟩ := by
  have hfront : (members.map ClassItem.member).takeWhile (· == .dash) = [] ∧
      (members.map ClassItem.member).dropWhile (· == .dash) = members.map .member := by
    cases members <;> exact ⟨rfl, rfl⟩
  rw [Regex.set?, hfront.1, hfront.2, List.map_nil, parts?_members]
  rfl

theorem Spells.items? {text members : List Char} (h : Spells text members) (after : List Char) :
    Regex.items? (text ++ ']' :: after) = some (members.map .member, after) := by
  induction h with
  | done => rfl
  | escaped _ _ ih => rw [List.cons_append, List.cons_append, Regex.items?, ih]; rfl
  | @plain c _ _ hc _ ih =>
    have hclass : c ≠ ']' ∧ c ≠ '\\' ∧ c ≠ '-' := by
      refine ⟨?_, ?_, ?_⟩ <;> rintro rfl <;> exact hc (by decide)
    rw [List.cons_append, Regex.items?, ih]
    · rfl
    all_goals grind

/-- A class without a mark is not read as one with a mark. -/
theorem Spells.head?_ne {text members : List Char} (h : Spells text members) (after : List Char) :
    (text ++ ']' :: after).head? ≠ some '^' := by
  cases h with
  | done => simp
  | escaped => simp
  | plain hc => exact fun heq => hc (Option.some.inj heq ▸ by decide)

theorem escape_of_mem {c : Char} (h : c ∈ operators) : (Regex.escape c).toList = ['\\', c] := by
  rw [Regex.escape, if_pos h, String.toList_ofList]

theorem escape_of_not_mem {c : Char} (h : c ∉ operators) : (Regex.escape c).toList = [c] := by
  rw [Regex.escape, if_neg h, String.toList_ofList]

/-- A dot in front is not read as part of what comes after it. -/
theorem Denotes.head?_ne {body : List Char} {ts : List Token} (h : Denotes Regex.escape body ts) :
    (body ++ ['$']).head? ≠ some '*' := by
  cases h with
  | @literal c body =>
    by_cases hc : c ∈ operators
    · simp [escape_of_mem hc]
    · rw [escape_of_not_mem hc]
      exact fun heq => hc (Option.some.inj heq ▸ by decide)
  | _ => simp

theorem Denotes.pieces? {body : List Char} {ts : List Token} (h : Denotes Regex.escape body ts) {n : Nat}
    (hn : body.length < n) : Regex.pieces? n (body ++ ['$']) = some (ts.map (·.piece)) := by
  induction h generalizing n with
  | done =>
    match n, hn with
    | n + 1, _ => rfl
  | anyText _ ih =>
    match n, hn with
    | n + 1, hn =>
      rw [List.cons_append, List.cons_append, Regex.pieces?, ih (Nat.lt_of_succ_lt (Nat.lt_of_succ_lt_succ hn))]
      rfl
  | anyChar hbody ih =>
    match n, hn with
    | n + 1, hn =>
      rw [List.cons_append, Regex.pieces?, ih (Nat.lt_of_succ_lt_succ hn)]
      · rfl
      · exact fun rest heq => hbody.head?_ne (congrArg List.head? heq)
  | @literal c body _ _ ih =>
    by_cases hc : c ∈ operators
    · rw [escape_of_mem hc] at hn ⊢
      match n, hn with
      | n + 1, hn =>
        change Regex.pieces? (n + 1) ('\\' :: c :: (body ++ ['$'])) = _
        rw [Regex.pieces?, ih (Nat.lt_of_succ_lt (Nat.lt_of_succ_lt_succ hn))]
        rfl
    · rw [escape_of_not_mem hc] at hn ⊢
      match n, hn with
      | n + 1, hn =>
        change Regex.pieces? (n + 1) (c :: (body ++ ['$'])) = _
        rw [Regex.pieces?, if_neg hc, ih (Nat.lt_of_succ_lt_succ hn)]
        · rfl
        -- no other case of the reader is for a character that is not an operator
        all_goals (intros; subst_vars; exact absurd (by decide) hc)
  | escaped _ _ ih =>
    match n, hn with
    | n + 1, hn =>
      rw [List.cons_append, List.cons_append, Regex.pieces?, ih (Nat.lt_of_succ_lt (Nat.lt_of_succ_lt_succ hn))]
      rfl
  | @set negated text members body _ _ hspells _ ih =>
    match n, hn with
    | n + 1, hn =>
      have hsplit : '[' :: caret negated ++ text ++ ']' :: body ++ ['$'] =
          '[' :: (caret negated ++ (text ++ ']' :: (body ++ ['$']))) := by simp
      have hlt : body.length < n := by simp only [List.length_append, List.length_cons] at hn; omega
      rw [hsplit]
      cases negated with
      | true =>
        rw [caret, if_pos rfl, List.cons_append, List.nil_append, Regex.pieces?, hspells.items?]
        simp only [Option.bind_eq_bind, Option.bind_some, set?_members, ih hlt]
        rfl
      | false =>
        rw [caret, if_neg (by decide), List.nil_append, Regex.pieces?, hspells.items?]
        · simp only [Option.bind_eq_bind, Option.bind_some, set?_members, ih hlt]
          rfl
        · exact fun rest heq => hspells.head?_ne _ (congrArg List.head? heq)

/-- It has no limits. -/
theorem documented_engine : Regex.engine.Documented fun _ => True := by
  intro body ts h _ text
  have hlist : (anchored body).toList = '(' :: '?' :: 's' :: ')' :: '^' :: (body ++ ['$']) := by
    simp only [anchored, String.toList_append, String.toList_ofList, List.append_assoc]
    rfl
  refine ⟨fits (ts.map (·.piece)) text, ?_, fits_iff_splits ts text⟩
  simp only [Regex.engine, Regex.search?, hlist]
  rw [h.pieces? (by rw [List.length_append]; exact Nat.lt_succ_self _), Option.map_some]

/-! ## Patterns -/

def Token.DashFree : Token → Prop
  | oneOf _ members => '-' ∉ members
  | _ => True

instance : DecidablePred Token.DashFree
  | .oneOf _ members => inferInstanceAs (Decidable ('-' ∉ members))
  | .anyText | .anyChar | .exact _ => isTrue trivial

/-- The expression that is written for a pattern denotes the tokens that the pattern stands for. -/
theorem body?_of_reads (escape : Char → String) {pattern : List Char} {ts : List Token} (h : Reads pattern ts)
    (hdash : ∀ t ∈ ts, t.DashFree) {n : Nat} (hn : pattern.length ≤ n) :
    ∃ body, body? escape n pattern = some body ∧ Denotes escape body ts := by
  induction h generalizing n with
  | done => exact ⟨[], by cases n <;> rfl, .done⟩
  | backslash =>
    match n, hn with
    | n + 1, _ => exact ⟨_, rfl, .escaped (by decide) .done⟩
  | anyText _ ih =>
    match n, hn with
    | n + 1, hn =>
      obtain ⟨body, hbody, hdenotes⟩ := ih (List.forall_mem_cons.mp hdash).2 (Nat.le_of_succ_le_succ hn)
      exact ⟨_, by rw [body?, hbody]; rfl, hdenotes.anyText⟩
  | anyChar _ ih =>
    match n, hn with
    | n + 1, hn =>
      obtain ⟨body, hbody, hdenotes⟩ := ih (List.forall_mem_cons.mp hdash).2 (Nat.le_of_succ_le_succ hn)
      exact ⟨_, by rw [body?, hbody]; rfl, hdenotes.anyChar⟩
  | escaped _ ih =>
    match n, hn with
    | n + 1, hn =>
      have hrest := Nat.le_of_succ_le (Nat.le_of_succ_le_succ hn)
      obtain ⟨body, hbody, hdenotes⟩ := ih (List.forall_mem_cons.mp hdash).2 hrest
      exact ⟨_, by rw [body?, hbody]; rfl, hdenotes.literal⟩
  | set hclosed _ ih =>
    match n, hn with
    | n + 1, hn =>
      obtain ⟨hmembers, hdash⟩ := List.forall_mem_cons.mp hdash
      have hafter := Nat.le_trans (Nat.le_of_lt hclosed.length_lt) (Nat.le_of_succ_le_succ hn)
      obtain ⟨body, hbody, hdenotes⟩ := ih hdash hafter
      refine ⟨_, ?_, hdenotes.set hclosed.nonempty (spells_flatMap hmembers)⟩
      rw [body?, class?_eq, bracket?_eq_some_iff.mpr hclosed]
      dsimp only [Option.map_some]
      rw [hclosed.dropBytes?, Option.bind_some, hbody]
      simp
  | bracket hopen _ ih =>
    match n, hn with
    | n + 1, hn =>
      obtain ⟨body, hbody, hdenotes⟩ := ih (List.forall_mem_cons.mp hdash).2 (Nat.le_of_succ_le_succ hn)
      refine ⟨_, ?_, hdenotes.escaped (by decide)⟩
      rw [body?, class?_eq, bracket?_eq_none_iff.mpr hopen]
      dsimp only [Option.map_none]
      rw [hbody]
      rfl
  | plain hc _ ih =>
    match n, hn with
    | n + 1, hn =>
      obtain ⟨body, hbody, hdenotes⟩ := ih (List.forall_mem_cons.mp hdash).2 (Nat.le_of_succ_le_succ hn)
      refine ⟨_, ?_, hdenotes.literal⟩
      simp only [List.mem_cons, List.not_mem_nil, or_false, not_or] at hc
      rw [body?, hbody]
      · rfl
      all_goals grind

/-- A pattern has one reading. Unless one of its sets has a dash, the expression that is written for it is valid for an
engine that keeps to the documented syntax, and what is like the pattern is what splits along the reading. -/
theorem like_iff_splits (engine : Engine) (withinLimits : String → Prop) (hengine : engine.Documented withinLimits)
    (text pattern : String) :
    ∃ tokens, (∀ ts, Reads pattern.toList ts ↔ ts = tokens) ∧ ((∀ t ∈ tokens, t.DashFree) → ∃ expression,
      expression? engine.escape pattern = some expression ∧ (withinLimits expression → ∃ b,
        Operate.binary engine .like (.str text) (.str pattern) = .ok (.ofBool b) ∧
        Operate.binary engine .unlike (.str text) (.str pattern) = .ok (.ofBool !b) ∧
        (b = true ↔ Splits tokens text.toList))) := by
  obtain ⟨tokens, hreads⟩ := exists_reads pattern.toList
  refine ⟨tokens, fun ts => ⟨fun h => h.unique hreads, fun h => h ▸ hreads⟩, fun hdash => ?_⟩
  have hlength : pattern.toList.length ≤ pattern.length := Nat.le_of_eq String.length_toList
  obtain ⟨body, hbody, hdenotes⟩ := body?_of_reads engine.escape hreads hdash hlength
  have hwritten : expression? engine.escape pattern = some (anchored body) := by
    rw [expression?, hbody, Option.map_some]
  refine ⟨anchored body, hwritten, fun hlimits => ?_⟩
  obtain ⟨b, hsearch, hb⟩ := hengine hdenotes hlimits text
  have hmatches : engine.matches? pattern text = some b := by
    rw [Engine.matches?, hwritten, Option.bind_some, hsearch]
  refine ⟨b, ?_, ?_, hb⟩
  · rw [Operate.binary, Operate.fitsPattern, hmatches]
    rfl
  · rw [Operate.binary, Operate.fitsPattern, hmatches]
    rfl

theorem like_iff_splits_bracket :
    let tokens : List Token := [.oneOf false [']', '^'], .anyText, .exact '[']
    (Regex.engine.Documented fun _ => True) ∧ Reads "[]^]*[".toList tokens ∧ (∀ t ∈ tokens, t.DashFree) ∧
      expression? Regex.engine.escape "[]^]*[" = some "(?s)^[\\]\\^].*\\[$" ∧
      Operate.binary Regex.engine .like (.str "^\n[") (.str "[]^]*[") = .ok (.ofBool true) ∧
      Operate.binary Regex.engine .unlike (.str "^\n[") (.str "[]^]*[") = .ok (.ofBool false) := by
  intro tokens
  have hreads : Reads "[]^]*[".toList tokens :=
    .set (show Closed _ false [']', '^'] ['*', '['] from ⟨rfl, by decide, by decide, by decide⟩)
      (.anyText (.bracket (bracket?_eq_none_iff.mp rfl) .done))
  have hdash : ∀ t ∈ tokens, t.DashFree := by decide
  have hexpression : expression? Regex.engine.escape "[]^]*[" = some "(?s)^[\\]\\^].*\\[$" := by decide
  have hsplits : Splits tokens "^\n[".toList :=
    ⟨[['^'], ['\n'], ['[']], rfl, .cons ⟨'^', rfl, by decide⟩ (.cons trivial (.cons rfl .nil))⟩
  obtain ⟨ts, hunique, h⟩ := like_iff_splits Regex.engine (fun _ => True) documented_engine "^\n[" "[]^]*["
  obtain rfl := (hunique tokens).mp hreads
  obtain ⟨expression, hwritten, hmatch⟩ := h hdash
  obtain ⟨b, hlike, hunlike, hb⟩ := hmatch trivial
  obtain rfl := hb.mpr hsplits
  exact ⟨documented_engine, hreads, hdash, hexpression, hlike, hunlike⟩

end Provenance.Glob
