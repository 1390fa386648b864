import Provenance.Proofs.Value.Runs

/-!
# What the indexes hold

An attribute of an object is one of its records, so the object is found under
what the attribute holds. An argument vector that contains a row of words is
found under each of them.
-/

namespace Provenance.Graph

variable {g : Graph} {p : ObjectId}

theorem mem_objects_of_records? {rs : List Record} (h : g.records? p = some rs) : (p, rs) ∈ g.objects := by
  obtain ⟨o, ho, rfl⟩ := Option.map_eq_some_iff.mp h
  have hp : o.1 = p := by simpa using List.find?_some ho
  subst hp
  exact List.mem_of_find?_eq_some ho

theorem mem_ids_of_attribute? {name : String} {v : Value} (h : g.attribute? p name = some v) : p ∈ g.ids := by
  unfold attribute? at h
  cases hr : g.records? p with
  | none => rw [hr] at h; cases h
  | some rs => exact List.mem_map_of_mem (f := Prod.fst) (mem_objects_of_records? hr)

theorem record_of_attribute? {name : String} {v : Value} (h : g.attribute? p name = some v) (hn : name ≠ "PNODE") :
    ∃ rs, (p, rs) ∈ g.objects ∧ (name, v) ∈ rs := by
  unfold attribute? at h
  cases hr : g.records? p with
  | none => rw [hr] at h; cases h
  | some rs =>
    rw [hr] at h
    simp only [if_neg hn] at h
    obtain ⟨r, hf, rfl⟩ := Option.map_eq_some_iff.mp h
    have hname : r.1 = name := by simpa using List.find?_some hf
    subst hname
    exact ⟨rs, mem_objects_of_records? hr, List.mem_of_find?_eq_some hf⟩

theorem number_of_attribute? {v : Value} (h : g.attribute? p "PNODE" = some v) :
    v = .int p.toInt64 := by
  unfold attribute? at h
  cases hr : g.records? p with
  | none => rw [hr] at h; cases h
  | some rs =>
    rw [hr] at h
    simp only [if_pos, number?] at h
    split at h <;> cases h
    rfl

theorem mem_matching {name : String} {v : Value} {test : String → Value → Bool} (h : g.attribute? p name = some v)
    (hn : name ≠ "PNODE") (ht : test name v = true) : .object p ∈ (g.matching test).members := by
  obtain ⟨rs, hrs, hr⟩ := record_of_attribute? h hn
  refine List.mem_map_of_mem (List.mem_map.mpr ⟨(p, rs), List.mem_filter.mpr ⟨hrs, ?_⟩, rfl⟩)
  exact List.any_eq_true.mpr ⟨_, hr, ht⟩

/-! ## Argument vectors -/

theorem beginsWith_self : ∀ cs : List Char, beginsWith cs cs = true
  | [] => rfl
  | c :: cs => by simp [beginsWith, beginsWith_self cs]

theorem argvMentions_self (s : String) : argvMentions s (.str s) = true := by
  rw [argvMentions]
  cases h : s.toList with
  | nil => rfl
  | cons c cs => rw [occursIn, beginsWith_self, Bool.true_or]

theorem anyMentions_of_mem {s : String} {v : Value} (hv : argvMentions s v = true) : ∀ {vs : List Value},
    v ∈ vs → anyMentions s vs = true
  | w :: vs, h => by
    rw [anyMentions, Bool.or_eq_true]
    rcases List.mem_cons.mp h with rfl | h
    · exact Or.inl hv
    · exact Or.inr (anyMentions_of_mem hv h)

theorem eq_str_of_equals {v : Value} {s : String} (h : v.equals (.str s) = true) : v = .str s := by
  cases v <;> simp [Value.equals] at h
  rw [h]

theorem argvMentions_of_contains {v : Value} {ss : List String}
    (h : Operate.contains v (.tuple (ss.map .str)) = .ok true) {s : String} (hs : s ∈ ss) :
    argvMentions s v = true := by
  cases v with
  | tuple vs =>
    have hrun : Operate.hasRun (ss.map .str) vs = true := by simpa [Operate.contains] using h
    obtain ⟨w, hw, he⟩ := (Operate.hasRun_iff_scan.mp hrun).occurs.exists_equals (List.mem_map_of_mem hs)
    rw [eq_str_of_equals he] at hw
    rw [argvMentions]
    exact anyMentions_of_mem (argvMentions_self s) hw
  | _ => simp [Operate.contains] at h

end Provenance.Graph
