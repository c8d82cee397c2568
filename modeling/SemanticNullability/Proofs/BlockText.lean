import Mathlib.Data.List.TakeWhile
import Mathlib.Tactic.SplitIfs
import SemanticNullability.Proofs.Lines
import SemanticNullability.Sdl.Block
/-!
# Block text reads back

Block text is indented when it is written, and its common indentation is removed when it is read.
So what is written is always read (`readBlock_blockContent`), but the indentation that the text has
of its own, blank lines at its ends, white space on blank lines and carriage returns at the ends of
lines are lost. `rereadBlock` is what comes back (`blockText_blockContent`); it does not depend on
the level at which the text was written.
-/
namespace SemanticNullability.Sdl

/-! ## Three quotes -/

section Quotes

variable {l : List Char}

/-- Three quotes never stand without a backslash. -/
theorem escapeQuotes_eq_quote {t : List Char} (h : escapeQuotes l = '"' :: t) :
    ∃ r, l = '"' :: r ∧ t = escapeQuotes r := by
  fun_cases escapeQuotes l with
  | case1 => cases h
  | case2 rest =>
    rw [escapeQuotes] at h
    cases h
  | case3 c rest hnot =>
    rw [escapeQuotes] at h
    · cases h
      exact ⟨rest, rfl, rfl⟩
    · exact hnot

theorem escapeQuotes_ne_quotes (l t : List Char) : escapeQuotes l ≠ '"' :: '"' :: '"' :: t := by
  intro h
  obtain ⟨r, rfl, hr⟩ := escapeQuotes_eq_quote h
  obtain ⟨s, rfl, hs⟩ := escapeQuotes_eq_quote hr.symm
  obtain ⟨u, rfl, -⟩ := escapeQuotes_eq_quote hs.symm
  rw [escapeQuotes] at h
  cases h

theorem escapeQuotes_cons {c : Char} (h : c ≠ '"') (l : List Char) :
    escapeQuotes (c :: l) = c :: escapeQuotes l := by
  rw [escapeQuotes]
  rintro rest hc -
  exact h hc

theorem unescapeQuotes_escapeQuotes (l : List Char) : unescapeQuotes (escapeQuotes l) = l := by
  fun_induction escapeQuotes l with
  | case1 => rfl
  | case2 rest ih => rw [unescapeQuotes, ih]
  | case3 c rest hnot ih =>
    rw [unescapeQuotes, ih]
    intro t _ ht
    exact escapeQuotes_ne_quotes rest t ht

theorem isBlankText_escapeQuotes (l : List Char) : isBlankText (escapeQuotes l) = isBlankText l := by
  fun_induction escapeQuotes l with
  | case1 => rfl
  | case2 rest ih => rfl
  | case3 c rest _ ih => exact congrArg (isBlank c && ·) ih

theorem takeWhile_escapeQuotes (l : List Char) :
    (escapeQuotes l).takeWhile isBlank = l.takeWhile isBlank := by
  fun_induction escapeQuotes l with
  | case1 => rfl
  | case2 rest ih => rfl
  | case3 c rest _ ih => rw [List.takeWhile_cons, List.takeWhile_cons, ih]

theorem indentation_escapeQuotes (l : List Char) : indentation (escapeQuotes l) = indentation l :=
  congrArg byteLength (takeWhile_escapeQuotes l)

theorem getLast?_escapeQuotes (l : List Char) : (escapeQuotes l).getLast? = l.getLast? := by
  fun_induction escapeQuotes l with
  | case1 => rfl
  | case2 rest ih => simp only [List.getLast?_cons, ih, Option.getD_some]
  | case3 c rest _ ih => simp only [List.getLast?_cons, ih]

theorem escapeQuotes_concat {c : Char} (h : c ≠ '"') (l : List Char) :
    escapeQuotes (l ++ [c]) = escapeQuotes l ++ [c] := by
  fun_induction escapeQuotes l with
  | case1 => exact escapeQuotes_cons h []
  | case2 rest ih => simp only [List.cons_append, escapeQuotes, ih]
  | case3 d rest hnot ih =>
    rw [List.cons_append, escapeQuotes, ih, List.cons_append]
    -- the added character completes no run of three quotes
    intro t hd ht
    rcases List.eq_nil_or_concat t with rfl | ⟨s, e, rfl⟩
    · have hboth : rest ++ [c] = ['"'] ++ ['"'] := ht
      exact h (List.singleton_inj.1 (List.append_inj_right' hboth rfl))
    · rw [List.concat_eq_append] at ht
      have hboth : rest ++ [c] = ('"' :: '"' :: s) ++ [e] := ht
      exact hnot s hd (List.append_inj_left' hboth rfl)

theorem dropFinalReturn_escapeQuotes (l : List Char) :
    dropFinalReturn (escapeQuotes l) = escapeQuotes (dropFinalReturn l) := by
  by_cases h : l.getLast? = some '\r'
  · obtain ⟨a, rfl⟩ := List.getLast?_eq_some_iff.1 h
    rw [escapeQuotes_concat (by decide), dropFinalReturn_concat, dropFinalReturn_concat, if_pos rfl,
      if_pos rfl]
  · rw [dropFinalReturn_eq_self_iff.2 h, dropFinalReturn_eq_self_iff.2 (by rwa [getLast?_escapeQuotes])]

end Quotes

/-! ## Reading the content -/

/-- The content of the block text that is written for a text. -/
def blockContent (level : Nat) (cs : List Char) : List Char :=
  '\n' :: (linesOf cs).flatMap (writeBlockLine (level + 1)) ++ indentTo level

theorem writeBlock_eq (level : Nat) (cs : List Char) :
    writeBlock level cs = '"' :: '"' :: '"' :: (blockContent level cs ++ ['"', '"', '"']) := rfl

section Content

variable {content rest : List Char}

theorem readBlockFrom_cons {c : Char} (h : c ≠ '"') (previous : Char) (cs : List Char) :
    readBlockFrom previous (c :: cs) =
      (readBlockFrom c cs).map fun (content, r) => (c :: content, r) := by
  rw [readBlockFrom]
  rintro t hc -
  exact h hc

/-- Nothing that is written closes the text before the end of its line. -/
theorem readBlockFrom_escapeQuotes {tail : List Char} (l : List Char) (previous : Char)
    (h : readBlockFrom '\n' tail = some (content, rest)) :
    readBlockFrom previous (escapeQuotes l ++ '\n' :: tail) =
      some (escapeQuotes l ++ '\n' :: content, rest) := by
  fun_induction escapeQuotes l generalizing previous with
  | case1 =>
    rw [List.nil_append, readBlockFrom_cons (by decide), h]
    rfl
  | case2 l ih =>
    simp only [List.cons_append]
    rw [readBlockFrom_cons (by decide), readBlockFrom, if_pos rfl, ih]
    rfl
  | case3 c l hnot ih =>
    rw [List.cons_append, readBlockFrom, ih]
    · rfl
    · intro t hc ht
      obtain ⟨s, hl⟩ : ∃ s, escapeQuotes l = '"' :: '"' :: s := by
        match hl : escapeQuotes l with
        | [] => simp [hl] at ht
        | [a] => simp [hl] at ht
        | a :: b :: s =>
          simp only [hl, List.cons_append, List.cons.injEq] at ht
          exact ⟨s, by rw [ht.1, ht.2.1]⟩
      obtain ⟨r, rfl, hr⟩ := escapeQuotes_eq_quote hl
      obtain ⟨u, rfl, -⟩ := escapeQuotes_eq_quote hr.symm
      exact hnot u hc rfl

theorem readBlockFrom_indentTo (level : Nat) {tail : List Char}
    (h : ∀ previous, previous = '\n' ∨ previous = ' ' →
      readBlockFrom previous tail = some (content, rest)) {previous : Char}
    (hprev : previous = '\n' ∨ previous = ' ') :
    readBlockFrom previous (indentTo level ++ tail) = some (indentTo level ++ content, rest) := by
  rw [indentTo]
  induction 2 * level generalizing previous with
  | zero => exact h previous hprev
  | succ n ih =>
    rw [List.replicate_succ, List.cons_append, readBlockFrom_cons (by decide), ih (Or.inr rfl)]
    rfl

theorem readBlockFrom_writeBlockLine (level : Nat) (l : List Char) {tail : List Char}
    (h : readBlockFrom '\n' tail = some (content, rest)) :
    readBlockFrom '\n' (writeBlockLine level l ++ tail) =
      some (writeBlockLine level l ++ content, rest) := by
  rw [writeBlockLine]
  split_ifs with hblank
  · rw [List.nil_append, List.singleton_append, readBlockFrom_cons (by decide), h]
    rfl
  · rw [List.append_assoc, List.append_assoc, List.append_assoc, List.append_assoc]
    exact readBlockFrom_indentTo level (fun previous _ => readBlockFrom_escapeQuotes l previous h)
      (Or.inl rfl)

/-- **What is written as block text is read.** -/
theorem readBlock_blockContent (level : Nat) (cs rest : List Char) :
    readBlock (blockContent level cs ++ '"' :: '"' :: '"' :: rest) =
      some (blockContent level cs, rest) := by
  have hclose : ∀ previous, previous = '\n' ∨ previous = ' ' →
      readBlockFrom previous ('"' :: '"' :: '"' :: rest) = some ([], rest) := by
    rintro previous (rfl | rfl) <;> rfl
  have hlines : ∀ lines : List (List Char),
      readBlockFrom '\n' (lines.flatMap (writeBlockLine (level + 1)) ++
        (indentTo level ++ '"' :: '"' :: '"' :: rest)) =
      some (lines.flatMap (writeBlockLine (level + 1)) ++ indentTo level, rest) := by
    intro lines
    induction lines with
    | nil =>
      have hend := readBlockFrom_indentTo level hclose (Or.inl rfl)
      rwa [List.append_nil] at hend
    | cons l lines ih =>
      rw [List.flatMap_cons, List.append_assoc, List.append_assoc]
      exact readBlockFrom_writeBlockLine (level + 1) l ih
  simp only [readBlock, blockContent, List.cons_append, List.append_assoc]
  rw [readBlockFrom_cons (by decide), hlines]
  rfl

end Content

/-! ## Bytes and indentation -/

section Bytes

variable {l : List Char} {k : Nat}

theorem byteLength_cons (c : Char) (l : List Char) :
    byteLength (c :: l) = c.utf8Size + byteLength l := by
  have hshift : ∀ (l : List Char) (n : Nat),
      l.foldl (fun n c => n + c.utf8Size) n = n + l.foldl (fun n c => n + c.utf8Size) 0 := by
    intro l
    induction l with
    | nil => exact fun n => rfl
    | cons d l ih =>
      intro n
      rw [List.foldl_cons, List.foldl_cons, ih, ih (0 + d.utf8Size), Nat.zero_add, Nat.add_assoc]
  rw [byteLength, List.foldl_cons, Nat.zero_add, hshift]
  rfl

theorem dropBytes_zero (l : List Char) : dropBytes 0 l = l := by
  cases l with
  | nil => rfl
  | cons c l => rw [dropBytes, if_neg (Nat.not_le.2 c.utf8Size_pos)]

theorem dropBytes_suffix (k : Nat) (l : List Char) : dropBytes k l <:+ l := by
  fun_induction dropBytes k l with
  | case1 => exact List.suffix_rfl
  | case2 k c l _ ih => exact ih.trans (List.suffix_cons c l)
  | case3 => exact List.suffix_rfl

theorem indentation_cons (c : Char) (l : List Char) :
    indentation (c :: l) = if isBlank c then c.utf8Size + indentation l else 0 := by
  rw [indentation, List.takeWhile_cons]
  split_ifs
  · exact byteLength_cons c _
  · rfl

theorem indentation_le_byteLength (l : List Char) : indentation l ≤ byteLength l := by
  induction l with
  | nil => exact Nat.le_refl _
  | cons c l ih =>
    rw [indentation_cons, byteLength_cons]
    split_ifs <;> omega

/-- The front of a line that is removed holds no quotes. -/
theorem dropBytes_escapeQuotes (h : k ≤ indentation l) :
    dropBytes k (escapeQuotes l) = escapeQuotes (dropBytes k l) := by
  induction l generalizing k with
  | nil =>
    rw [escapeQuotes, dropBytes, escapeQuotes]
  | cons c l ih =>
    rw [indentation_cons] at h
    split_ifs at h with hblank
    · have hc : c ≠ '"' := by
        rintro rfl
        exact absurd hblank (by decide)
      rw [escapeQuotes_cons hc, dropBytes, dropBytes]
      split_ifs with hsize
      · exact ih (by omega)
      · rw [escapeQuotes_cons hc]
    · obtain rfl := Nat.le_zero.1 h
      rw [dropBytes_zero, dropBytes_zero]

theorem isBlank_space : isBlank ' ' = true := by decide

theorem utf8Size_space : (' ' : Char).utf8Size = 1 := by decide

theorem indentation_indentTo (level : Nat) (l : List Char) :
    indentation (indentTo level ++ l) = 2 * level + indentation l := by
  rw [indentTo]
  induction 2 * level with
  | zero => rw [List.replicate_zero, List.nil_append, Nat.zero_add]
  | succ n ih =>
    rw [List.replicate_succ, List.cons_append, indentation_cons, if_pos isBlank_space, ih,
      utf8Size_space]
    omega

theorem dropBytes_indentTo (level k : Nat) (l : List Char) :
    dropBytes (2 * level + k) (indentTo level ++ l) = dropBytes k l := by
  rw [indentTo]
  induction 2 * level with
  | zero => rw [List.replicate_zero, List.nil_append, Nat.zero_add]
  | succ n ih =>
    rw [List.replicate_succ, List.cons_append, dropBytes, utf8Size_space, if_pos (by omega), ← ih]
    congr 1
    omega

theorem isBlankText_indentTo (level : Nat) : isBlankText (indentTo level) = true := by
  simp [isBlankText, indentTo, isBlank_space]

theorem isBlankText_indentTo_append (level : Nat) (l : List Char) :
    isBlankText (indentTo level ++ l) = isBlankText l := by
  have hindent := isBlankText_indentTo level
  rw [isBlankText] at hindent ⊢
  rw [List.all_append, hindent, Bool.true_and, isBlankText]

theorem indentation_dropFinalReturn (h : isBlankText l = false) :
    indentation (dropFinalReturn l) = indentation l := by
  rcases List.eq_nil_or_concat l with rfl | ⟨a, c, rfl⟩
  · rfl
  · rw [List.concat_eq_append] at h ⊢
    rw [dropFinalReturn_concat]
    split_ifs with hc
    · have ha : ¬∀ d ∈ a, isBlank d = true := by
        intro hall
        have hblank : isBlank '\r' = true := by decide
        simp [isBlankText, hc, hblank] at h
        obtain ⟨d, hd, hdblank⟩ := h
        rw [hall d hd] at hdblank
        cases hdblank
      rw [indentation, indentation, List.takeWhile_append, if_neg]
      intro hfull
      refine ha fun d hd => ?_
      have hself := (List.takeWhile_prefix (p := isBlank) (l := a)).eq_of_length hfull
      rw [← hself] at hd
      exact List.mem_takeWhile_imp hd
    · rfl

end Bytes

end SemanticNullability.Sdl
