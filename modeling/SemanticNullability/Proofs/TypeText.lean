import SemanticNullability.Proofs.Depth
import SemanticNullability.Proofs.NumberText
import SemanticNullability.TypeExpr.Text
/-!
# Types and their texts

In the text of a type composition the brackets that open its lists come first, then the name, then
what closes the lists and marks the wrappers, from the inside out (`chars_eq`). A name without marks
ends where the first of these stands, so the three parts are found again and the marks put around the
name what was around it (`wrap?_marks`). Hence a text belongs to one composition
(`text_eq_text_iff`), and `ofText?` reads exactly the texts of compositions with a name
(`ofText?_eq_some_iff`).
-/
namespace SemanticNullability.TypeExpr

/-- What stands behind the name in the text of a composition. -/
def marks : TypeExpr → List Char
  | named _ => []
  | list item => item.marks ++ [']']
  | nonNull inner => inner.marks ++ ['!']
  | semanticNonNull inner => inner.marks ++ ['*']

/-- Whether the name holds none of the characters that a text marks wrappers with. -/
def HasPlainName (t : TypeExpr) : Prop := ∀ c ∈ t.baseName.toList, isNameChar c = true

instance (t : TypeExpr) : Decidable t.HasPlainName :=
  decidable_of_iff (t.baseName.toList.all isNameChar = true) List.all_eq_true

/-! ## The parts of a text -/

theorem chars_eq : ∀ t : TypeExpr,
    t.chars = List.replicate t.depth '[' ++ (t.baseName.toList ++ t.marks)
  | named name => by simp [chars, depth, baseName, marks]
  | list item => by simp [chars, depth, baseName, marks, chars_eq item, List.replicate_succ]
  | nonNull inner => by simp [chars, depth, baseName, marks, chars_eq inner]
  | semanticNonNull inner => by simp [chars, depth, baseName, marks, chars_eq inner]

theorem mem_marks {t : TypeExpr} {c : Char} (h : c ∈ t.marks) : c = ']' ∨ c = '!' ∨ c = '*' := by
  induction t with
  | named name => cases h
  | list item ih | nonNull inner ih | semanticNonNull inner ih =>
    rcases List.mem_append.1 h with h | h
    · exact ih h
    · simp [List.mem_singleton.1 h]

theorem isNameChar_of_mem_marks {t : TypeExpr} {c : Char} (h : c ∈ t.marks) :
    isNameChar c = false := by
  rcases mem_marks h with rfl | rfl | rfl <;> rfl

section

variable {t u : TypeExpr}

/-- Only the brackets in front open a list. -/
theorem opening_chars (h : t.HasPlainName) :
    t.chars.takeWhile (· == '[') = List.replicate t.depth '[' ∧
    t.chars.dropWhile (· == '[') = t.baseName.toList ++ t.marks := by
  rw [chars_eq]
  refine takeWhile_dropWhile_append (by simp) fun c hc => ?_
  rcases List.mem_append.1 (List.mem_of_mem_head? hc) with hname | hmark
  · refine beq_false_of_ne ?_
    rintro rfl
    exact absurd (h _ hname) (by decide)
  · rcases mem_marks hmark with rfl | rfl | rfl <;> rfl

/-- The name ends where the marks begin. -/
theorem name_append_marks (h : t.HasPlainName) :
    (t.baseName.toList ++ t.marks).takeWhile isNameChar = t.baseName.toList ∧
    (t.baseName.toList ++ t.marks).dropWhile isNameChar = t.marks :=
  takeWhile_dropWhile_append h fun _ hc => isNameChar_of_mem_marks (List.mem_of_mem_head? hc)

/-! ## Wrapping a name -/

/-- The marks of a composition wrap its name up again. -/
theorem wrap?_marks (t : TypeExpr) (opened : Nat) (rest : List Char) :
    wrap? (t.depth + opened) (named t.baseName) (t.marks ++ rest) = wrap? opened t rest := by
  induction t generalizing opened rest with
  | named name => simp [depth, marks, baseName]
  | list item ih =>
    -- the list's own bracket is open while its item is wrapped
    have hlayers : (list item).depth + opened = item.depth + (opened + 1) := by
      rw [depth]
      omega
    rw [hlayers, marks, List.append_assoc, baseName, ih]
    rfl
  | nonNull inner ih | semanticNonNull inner ih =>
    rw [depth, marks, List.append_assoc, baseName, ih, List.singleton_append, wrap?]

/-- What is wrapped up has the text that was read. -/
theorem chars_of_wrap? {opened : Nat} {cs : List Char} (h : wrap? opened t cs = some u) :
    u.chars = List.replicate opened '[' ++ (t.chars ++ cs) ∧ u.baseName = t.baseName := by
  induction opened, t, cs using wrap?.induct with
  | case1 t =>
    cases h
    simp
  | case2 opened t cs ih | case3 opened t cs ih =>
    rw [wrap?] at h
    obtain ⟨hchars, hname⟩ := ih h
    refine ⟨?_, hname⟩
    rw [hchars]
    simp [chars]
  | case4 opened t cs ih =>
    rw [wrap?] at h
    obtain ⟨hchars, hname⟩ := ih h
    refine ⟨?_, hname⟩
    rw [hchars]
    simp [chars, List.replicate_succ']
  | case5 opened t cs h1 h2 h3 h4 =>
    rw [wrap?] at h
    · cases h
    all_goals assumption

/-! ## Reading a text -/

/-- The text of a composition with a name is read back. -/
theorem ofText?_text (hname : t.baseName ≠ "") (hplain : t.HasPlainName) :
    ofText? t.text = some t := by
  obtain ⟨hopen, hrest⟩ := opening_chars hplain
  obtain ⟨hbase, hmarks⟩ := name_append_marks hplain
  have hne : t.baseName.toList.isEmpty = false := by simpa using hname
  simp only [ofText?, toList_text, hopen, hrest, hbase, hmarks, hne, List.length_replicate,
    String.ofList_toList, if_neg Bool.false_ne_true]
  have hwrap := wrap?_marks t 0 []
  rwa [List.append_nil] at hwrap

/-- What is read has a name and the text that was read. -/
theorem text_of_ofText? {s : String} (h : ofText? s = some t) :
    t.baseName ≠ "" ∧ t.HasPlainName ∧ t.text = s := by
  simp only [ofText?] at h
  split at h
  · cases h
  · rename_i hne
    obtain ⟨hchars, hname⟩ := chars_of_wrap? h
    refine ⟨?_, ?_, ?_⟩
    · rw [hname]
      simpa [baseName] using hne
    · intro c hc
      rw [hname, baseName, String.toList_ofList] at hc
      exact List.mem_takeWhile_imp hc
    · have hopened : List.replicate (s.toList.takeWhile (· == '[')).length '[' =
          s.toList.takeWhile (· == '[') := by
        refine (List.eq_replicate_of_mem fun c hc => ?_).symm
        simpa using List.mem_takeWhile_imp hc
      rw [← String.toList_inj, toList_text, hchars, hopened, chars, String.toList_ofList,
        List.takeWhile_append_dropWhile, List.takeWhile_append_dropWhile]

/-- **Reading accepts exactly the texts** of compositions with a name, and gives the composition. -/
theorem ofText?_eq_some_iff {s : String} :
    ofText? s = some t ↔ t.baseName ≠ "" ∧ t.HasPlainName ∧ t.text = s := by
  constructor
  · exact text_of_ofText?
  · rintro ⟨hname, hplain, rfl⟩
    exact ofText?_text hname hplain

/-- **A text belongs to one composition.** -/
theorem text_eq_text_iff (ht : t.HasPlainName) (hu : u.HasPlainName) :
    t.text = u.text ↔ t = u := by
  refine ⟨fun htext => ?_, congrArg text⟩
  have hchars : t.chars = u.chars := by rw [← toList_text, htext, toList_text]
  obtain ⟨htopen, htrest⟩ := opening_chars ht
  obtain ⟨huopen, hurest⟩ := opening_chars hu
  obtain ⟨htname, htmarks⟩ := name_append_marks ht
  obtain ⟨huname, humarks⟩ := name_append_marks hu
  have hdepth : t.depth = u.depth := by
    rw [hchars, huopen] at htopen
    simpa using (congrArg List.length htopen).symm
  have hrest : t.baseName.toList ++ t.marks = u.baseName.toList ++ u.marks := by
    rw [← htrest, hchars, hurest]
  have hname : t.baseName = u.baseName := by
    rw [← String.toList_inj, ← htname, hrest, huname]
  have hmarks : t.marks = u.marks := by rw [← htmarks, hrest, humarks]
  -- the marks rebuild `t`; all that they need of it is the same in `u`
  have hwrap := wrap?_marks t 0 []
  rw [hdepth, hname, hmarks, wrap?_marks u 0 []] at hwrap
  exact (Option.some.inj hwrap).symm

end

/-- The same marks in another order make another text. -/
theorem text_eq_text_iff_swappedMarks :
    let enforced := nonNull (semanticNonNull (list (named "Größe 1")))
    let marked := semanticNonNull (nonNull (list (named "Größe 1")))
    (enforced.HasPlainName ∧ marked.HasPlainName) ∧
      (enforced.text = marked.text ↔ enforced = marked) ∧ enforced.text ≠ marked.text := by
  intro enforced marked
  have henforced : enforced.HasPlainName := by decide
  have hmarked : marked.HasPlainName := by decide
  have hiff := text_eq_text_iff henforced hmarked
  exact ⟨⟨henforced, hmarked⟩, hiff, fun htext => absurd (hiff.1 htext) (by decide)⟩

/-- A mark in a name cannot be told from one around it. -/
example : (named "Int!").text = (nonNull (named "Int")).text := by decide +kernel

end SemanticNullability.TypeExpr
