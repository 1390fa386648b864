import Provenance.Value.Basic

/-!
# Reading quoted text back

The backslash stands for itself in a quoted text, so a string that has the
characters of an escape in it is printed like the string that has the byte in
their place. Apart from that nothing is lost: the text of a string gives its
bytes with all escapes in them read (`read_spell`), and two strings have the same
text exactly if they agree when read in this way (`Value.text_str_eq_iff`).
-/

namespace Provenance

namespace Quoted

def bytes (s : String) : List UInt8 :=
  s.toUTF8.data.toList

/-- Whether something else than the byte itself is printed for it. -/
def Escaped (b : UInt8) : Prop :=
  ¬ (32 ≤ b ∧ b ≤ 126)

instance (b : UInt8) : Decidable (Escaped b) :=
  inferInstanceAs (Decidable (¬ _))

def byteOf (c : Char) : UInt8 :=
  c.toNat.toUInt8

/-- What is printed for a byte, as bytes. -/
def spelling (b : UInt8) : List UInt8 :=
  (escape b).map byteOf

def spell (bs : List UInt8) : List UInt8 :=
  bs.flatMap spelling

def escapedBytes : List UInt8 :=
  ((List.range 256).map Nat.toUInt8).filter fun b => Escaped b

/-- The byte whose escape the bytes begin with. -/
def escapeAt? (bs : List UInt8) : Option UInt8 :=
  escapedBytes.find? fun b => (spelling b).isPrefixOf bs

/-- Puts the byte it stands for in the place of every escape. -/
def read : List UInt8 → List UInt8
  | [] => []
  | c :: rest =>
    match escapeAt? (c :: rest) with
    | some b => b :: read (rest.drop ((spelling b).length - 1))
    | none => c :: read rest
termination_by bs => bs.length

/-- No escape is spelled out in the bytes. -/
def Plain (bs : List UInt8) : Prop :=
  ∀ b, Escaped b → ¬ spelling b <:+: bs

def unquote (t : String) : List UInt8 :=
  read ((t.toList.tail.dropLast).map byteOf)

/-! ## Escapes -/

theorem mem_escapedBytes {b : UInt8} : b ∈ escapedBytes ↔ Escaped b := by
  have hb : b ∈ (List.range 256).map Nat.toUInt8 :=
    List.mem_map.mpr ⟨b.toNat, List.mem_range.mpr b.toNat_lt, UInt8.ofNat_toNat⟩
  rw [escapedBytes, List.mem_filter, decide_eq_true_iff]
  exact and_iff_right hb

theorem byteOf_ofNat : ∀ n < 127, byteOf (Char.ofNat n) = n.toUInt8 := by
  decide

theorem spelling_of_not_escaped {b : UInt8} (h : ¬ Escaped b) : spelling b = [b] := by
  obtain ⟨hlow, hhigh⟩ := Decidable.not_not.mp h
  have hn : b ≠ 10 := fun hb => by rw [hb] at hlow; exact absurd hlow (by decide)
  have ht : b ≠ 9 := fun hb => by rw [hb] at hlow; exact absurd hlow (by decide)
  have hlt : b.toNat < 127 := Nat.lt_succ_of_le hhigh
  rw [spelling, escape, if_neg hn, if_neg ht, if_pos ⟨hlow, hhigh⟩, List.map_singleton, byteOf_ofNat b.toNat hlt]
  exact congrArg ([·]) UInt8.ofNat_toNat

theorem digit_printable : ∀ n < 16, ¬ Escaped (byteOf (hexDigit n)) ∧ byteOf (hexDigit n) ≠ 92 := by
  decide

theorem digit_injective : ∀ m < 16, ∀ n < 16, byteOf (hexDigit m) = byteOf (hexDigit n) → m = n := by
  decide

theorem spelling_of_escaped {b : UInt8} (h : Escaped b) :
    (b = 10 ∧ spelling b = [92, 110]) ∨ (b = 9 ∧ spelling b = [92, 116]) ∨
      spelling b = [92, 40, byteOf (hexDigit (b.toNat / 16)), byteOf (hexDigit (b.toNat % 16)), 41] := by
  by_cases hn : b = 10
  · exact Or.inl ⟨hn, by rw [hn]; rfl⟩
  · by_cases ht : b = 9
    · exact Or.inr (Or.inl ⟨ht, by rw [ht]; rfl⟩)
    · refine Or.inr (Or.inr ?_)
      rw [spelling, escape, if_neg hn, if_neg ht, if_neg h]
      rfl

theorem high_lt (b : UInt8) : b.toNat / 16 < 16 := by
  have := b.toNat_lt
  omega

theorem low_lt (b : UInt8) : b.toNat % 16 < 16 :=
  Nat.mod_lt _ (by decide)

/-- An escape begins with a backslash, has no other, and is printable. -/
theorem exists_spelling_eq {b : UInt8} (h : Escaped b) :
    ∃ tail, spelling b = 92 :: tail ∧ ∀ c ∈ tail, ¬ Escaped c ∧ c ≠ 92 := by
  rcases spelling_of_escaped h with ⟨-, hb⟩ | ⟨-, hb⟩ | hb
  · exact ⟨[110], hb, List.forall_mem_singleton.mpr (by decide)⟩
  · exact ⟨[116], hb, List.forall_mem_singleton.mpr (by decide)⟩
  · refine ⟨_, hb, ?_⟩
    simp only [List.forall_mem_cons]
    exact ⟨by decide, digit_printable _ (high_lt b), digit_printable _ (low_lt b), by decide, nofun⟩

theorem spelling_unique {b b' : UInt8} (hb : Escaped b) (hb' : Escaped b')
    (h : spelling b <+: spelling b') : b = b' := by
  rcases spelling_of_escaped hb with ⟨rfl, hs⟩ | ⟨rfl, hs⟩ | hs <;>
    rcases spelling_of_escaped hb' with ⟨rfl, hs'⟩ | ⟨rfl, hs'⟩ | hs' <;>
    simp only [hs, hs', List.cons_prefix_cons] at h
  case inl.inl | inr.inl.inr.inl => rfl
  case inr.inr.inr.inr =>
    obtain ⟨-, -, hhigh, hlow, -⟩ := h
    have hdiv := digit_injective _ (high_lt b) _ (high_lt b') hhigh
    have hmod := digit_injective _ (low_lt b) _ (low_lt b') hlow
    refine UInt8.toNat_inj.mp ?_
    rw [← Nat.div_add_mod b.toNat 16, hdiv, hmod, Nat.div_add_mod]
  all_goals exact absurd h.2.1 (by decide)

theorem of_escapeAt? {bs : List UInt8} {b : UInt8} (h : escapeAt? bs = some b) : Escaped b ∧ spelling b <+: bs := by
  unfold escapeAt? at h
  exact ⟨mem_escapedBytes.mp (List.mem_of_find?_eq_some h), by simpa using List.find?_some h⟩

theorem escapeAt?_eq_some_iff {bs : List UInt8} {b : UInt8} :
    escapeAt? bs = some b ↔ Escaped b ∧ spelling b <+: bs := by
  refine ⟨of_escapeAt?, ?_⟩
  rintro ⟨hb, hpre⟩
  cases hat : escapeAt? bs with
  | none =>
    have hnone := List.find?_eq_none.mp hat b (mem_escapedBytes.mpr hb)
    exact absurd (List.isPrefixOf_iff_prefix.mpr hpre) hnone
  | some b' =>
    obtain ⟨hb', hpre'⟩ := of_escapeAt? hat
    rcases List.prefix_or_prefix_of_prefix hpre hpre' with h | h
    · rw [spelling_unique hb hb' h]
    · rw [spelling_unique hb' hb h]

theorem escapeAt?_eq_none_iff {bs : List UInt8} : escapeAt? bs = none ↔ ∀ b, Escaped b → ¬ spelling b <+: bs := by
  rw [Option.eq_none_iff_forall_ne_some]
  simp only [ne_eq, escapeAt?_eq_some_iff, not_and]

/-! ## Reading -/

theorem read_spelling_append {b : UInt8} (hb : Escaped b) (rest : List UInt8) :
    read (spelling b ++ rest) = b :: read rest := by
  have hat := escapeAt?_eq_some_iff.mpr ⟨hb, List.prefix_append (spelling b) rest⟩
  obtain ⟨tail, htail, -⟩ := exists_spelling_eq hb
  rw [htail, List.cons_append] at hat ⊢
  rw [read, hat]
  simp [htail]

theorem read_cons {c : UInt8} {rest : List UInt8} (h : escapeAt? (c :: rest) = none) :
    read (c :: rest) = c :: read rest := by
  rw [read, h]

/-- Bytes are read from the front: an escape at a time where there is one, else a byte at a time. -/
theorem read_induction {P : List UInt8 → Prop} (nil : P [])
    (escape : ∀ b rest, Escaped b → P rest → P (spelling b ++ rest))
    (byte : ∀ c rest, escapeAt? (c :: rest) = none → P rest → P (c :: rest)) : ∀ bs, P bs
  | [] => nil
  | c :: rest => by
    cases hat : escapeAt? (c :: rest) with
    | none => exact byte c rest hat (read_induction nil escape byte rest)
    | some b =>
      obtain ⟨hb, tail, htail⟩ := escapeAt?_eq_some_iff.mp hat
      have : tail.length ≤ rest.length := by
        obtain ⟨_, hs, -⟩ := exists_spelling_eq hb
        rw [hs, List.cons_append] at htail
        rw [← (List.cons.inj htail).2, List.length_append]
        exact Nat.le_add_left _ _
      rw [← htail]
      exact escape b tail hb (read_induction nil escape byte tail)
termination_by bs => bs.length

theorem spell_of_printable {bs : List UInt8} (h : ∀ c ∈ bs, ¬ Escaped c) : spell bs = bs := by
  induction bs with
  | nil => rfl
  | cons c rest ih =>
    obtain ⟨hc, hrest⟩ := List.forall_mem_cons.mp h
    rw [spell, List.flatMap_cons, spelling_of_not_escaped hc]
    exact congrArg (c :: ·) (ih hrest)

theorem spell_spelling {b : UInt8} (hb : Escaped b) : spell (spelling b) = spelling b := by
  obtain ⟨tail, hs, htail⟩ := exists_spelling_eq hb
  rw [hs]
  exact spell_of_printable (List.forall_mem_cons.mpr ⟨by decide, fun c hc => (htail c hc).1⟩)

theorem spell_append (bs cs : List UInt8) : spell (bs ++ cs) = spell bs ++ spell cs :=
  List.flatMap_append

theorem spell_cons (c : UInt8) (rest : List UInt8) : spell (c :: rest) = spelling c ++ spell rest :=
  List.flatMap_cons

/-- Printing makes no escape that straddles what was there before. -/
theorem prefix_of_prefix_spell {tail : List UInt8} : ∀ {rest : List UInt8}, (∀ c ∈ tail, c ≠ 92) →
    tail <+: spell rest → tail <+: rest := by
  induction tail with
  | nil => exact fun _ _ => List.nil_prefix
  | cons c tail ih =>
    intro rest hne h
    obtain ⟨hc, htail⟩ := List.forall_mem_cons.mp hne
    cases rest with
    | nil => exact h
    | cons r rest =>
      rw [spell_cons] at h
      by_cases hr : Escaped r
      · obtain ⟨_, hs, -⟩ := exists_spelling_eq hr
        rw [hs, List.cons_append, List.cons_prefix_cons] at h
        exact absurd h.1 hc
      · rw [spelling_of_not_escaped hr, List.singleton_append, List.cons_prefix_cons] at h
        exact List.cons_prefix_cons.mpr ⟨h.1, ih htail h.2⟩

theorem escapeAt?_cons_spell {c : UInt8} {rest : List UInt8} (h : escapeAt? (c :: rest) = none) :
    escapeAt? (c :: spell rest) = none := by
  refine escapeAt?_eq_none_iff.mpr fun b hb hpre => escapeAt?_eq_none_iff.mp h b hb ?_
  obtain ⟨tail, hs, htail⟩ := exists_spelling_eq hb
  rw [hs, List.cons_prefix_cons] at hpre ⊢
  exact ⟨hpre.1, prefix_of_prefix_spell (fun c hc => (htail c hc).2) hpre.2⟩

theorem read_spell (bs : List UInt8) : read (spell bs) = read bs := by
  induction bs using read_induction with
  | nil => rfl
  | escape b rest hb ih => rw [spell_append, spell_spelling hb, read_spelling_append hb, read_spelling_append hb, ih]
  | byte c rest hat ih =>
    rw [spell_cons, read_cons hat]
    by_cases hc : Escaped c
    · rw [read_spelling_append hc, ih]
    · rw [spelling_of_not_escaped hc, List.singleton_append, read_cons (escapeAt?_cons_spell hat), ih]

theorem spell_read (bs : List UInt8) : spell (read bs) = spell bs := by
  induction bs using read_induction with
  | nil => simp [read]
  | escape b rest hb ih => rw [read_spelling_append hb, spell_cons, ih, spell_append, spell_spelling hb]
  | byte c rest hat ih => rw [read_cons hat, spell_cons, ih, spell_cons]

theorem spell_eq_spell_iff {bs cs : List UInt8} : spell bs = spell cs ↔ read bs = read cs := by
  constructor
  · intro h
    rw [← read_spell bs, h, read_spell]
  · intro h
    rw [← spell_read bs, h, spell_read]

theorem read_of_plain : ∀ {bs : List UInt8}, Plain bs → read bs = bs
  | [], _ => by simp [read]
  | c :: rest, h => by
    have hat : escapeAt? (c :: rest) = none := escapeAt?_eq_none_iff.mpr fun b hb hpre => h b hb hpre.isInfix
    have hrest : Plain rest := fun b hb hin => h b hb (hin.trans (List.suffix_cons c rest).isInfix)
    rw [read_cons hat, read_of_plain hrest]

theorem plain_of_no_backslash {bs : List UInt8} (h : 92 ∉ bs) : Plain bs := by
  intro b hb hin
  obtain ⟨_, hs, -⟩ := exists_spelling_eq hb
  exact h (hin.subset (hs ▸ List.mem_cons_self))

/-! ## Texts -/

theorem map_byteOf_escapes (bs : List UInt8) : (bs.flatMap escape).map byteOf = spell bs :=
  List.map_flatMap

theorem unquote_text (s : String) : unquote (text s) = read (bytes s) := by
  have htext : (text s).toList = '"' :: ((bytes s).flatMap escape ++ ['"']) := by
    simp [text, bytes]
  rw [unquote, htext, List.tail_cons, List.dropLast_concat, map_byteOf_escapes, read_spell]

theorem ofNat_byteOf {c : Char} (h : c.toNat < 256) : Char.ofNat (byteOf c).toNat = c := by
  have hc : (byteOf c).toNat = c.toNat := Nat.mod_eq_of_lt h
  rw [hc, Char.ofNat_toNat]

theorem digit_lt : ∀ n < 16, (hexDigit n).toNat < 256 := by
  decide

theorem toNat_ofNat_lt : ∀ n < 127, (Char.ofNat n).toNat < 256 := by
  decide

theorem toNat_lt_of_mem_escape {b : UInt8} : ∀ c ∈ escape b, c.toNat < 256 := by
  unfold escape
  split
  · simp only [List.forall_mem_cons]
    exact ⟨by decide, by decide, nofun⟩
  · split
    · simp only [List.forall_mem_cons]
      exact ⟨by decide, by decide, nofun⟩
    · split
      · rename_i hb
        exact List.forall_mem_singleton.mpr (toNat_ofNat_lt b.toNat (Nat.lt_succ_of_le hb.2))
      · simp only [List.forall_mem_cons]
        exact ⟨by decide, by decide, digit_lt _ (high_lt b), digit_lt _ (low_lt b), by decide, nofun⟩

theorem map_ofNat_spell (bs : List UInt8) : (spell bs).map (fun b => Char.ofNat b.toNat) = bs.flatMap escape := by
  rw [← map_byteOf_escapes, List.map_map]
  refine (List.map_congr_left fun c hc => ?_).trans (List.map_id _)
  obtain ⟨b, -, hb⟩ := List.mem_flatMap.mp hc
  exact ofNat_byteOf (toNat_lt_of_mem_escape c hb)

theorem text_eq_text_iff {s t : String} : text s = text t ↔ read (bytes s) = read (bytes t) := by
  constructor
  · intro h
    rw [← unquote_text, h, unquote_text]
  · intro h
    have hescape : (bytes s).flatMap escape = (bytes t).flatMap escape := by
      rw [← map_ofNat_spell, spell_eq_spell_iff.mpr h, map_ofNat_spell]
    unfold bytes at hescape
    rw [text, hescape, text]

theorem bytes_injective {s t : String} (h : bytes s = bytes t) : s = t :=
  String.toByteArray_inj.mp (ByteArray.ext (Array.toList_inj.mp h))

end Quoted

namespace Value

/-- A text leaves open whether an escape in it was printed for a byte or was in the string, and nothing else. -/
theorem text_str_eq_iff {s t : String} :
    ((str s).text = (str t).text ↔ Quoted.read (Quoted.bytes s) = Quoted.read (Quoted.bytes t)) ∧
      (Quoted.Plain (Quoted.bytes s) → Quoted.unquote (str s).text = Quoted.bytes s) ∧
      (Quoted.Plain (Quoted.bytes s) → Quoted.Plain (Quoted.bytes t) → s ≠ t → (str s).text ≠ (str t).text) := by
  simp only [text]
  refine ⟨Quoted.text_eq_text_iff, fun hs => ?_, fun hs ht hne h => hne ?_⟩
  · rw [Quoted.unquote_text, Quoted.read_of_plain hs]
  · have hread := Quoted.text_eq_text_iff.mp h
    rw [Quoted.read_of_plain hs, Quoted.read_of_plain ht] at hread
    exact Quoted.bytes_injective hread

theorem text_str_eq_iff_newline_tab :
    ((str "a\n").text = (str "a\t").text ↔ Quoted.read (Quoted.bytes "a\n") = Quoted.read (Quoted.bytes "a\t")) ∧
      Quoted.unquote (str "a\n").text = Quoted.bytes "a\n" ∧ (str "a\n").text ≠ (str "a\t").text := by
  have hs : Quoted.Plain (Quoted.bytes "a\n") := Quoted.plain_of_no_backslash (by decide)
  have ht : Quoted.Plain (Quoted.bytes "a\t") := Quoted.plain_of_no_backslash (by decide)
  obtain ⟨hiff, hundo, hne⟩ := @text_str_eq_iff "a\n" "a\t"
  exact ⟨hiff, hundo hs, hne hs ht (by decide)⟩

/-- A newline has the text of the backslash and the letter that are printed for it. -/
theorem text_str_not_injective : ¬ ∀ s t : String, s ≠ t → (str s).text ≠ (str t).text := by
  intro h
  exact h "\n" "\\n" (by decide) (by decide)

end Value

end Provenance
