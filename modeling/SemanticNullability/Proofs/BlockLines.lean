import SemanticNullability.Proofs.BlockText
import SemanticNullability.Proofs.TypeDefinition
/-!
# The lines of block text

Of the lines that are written as block text, those come back that stand between blank lines at the
ends, without their common indentation and without a carriage return at the end (`rereadBlock`,
`blockText_blockContent`). So block text keeps a text exactly if there is nothing of this kind in it
(`rereadBlock_eq_self_iff`).
-/
namespace SemanticNullability.Sdl

/-! ## Common indentation -/

section Indentation

variable {lines : List (List Char)} {l : List Char}

theorem commonIndentation_le (hl : l ∈ lines) (hblank : isBlankText l = false) :
    commonIndentation lines ≤ indentation l := by
  have hmem : indentation l ∈ (lines.filter fun l => !isBlankText l).map indentation :=
    List.mem_map_of_mem (List.mem_filter.2 ⟨hl, by rw [hblank]; rfl⟩)
  rw [commonIndentation]
  cases hmin : ((lines.filter fun l => !isBlankText l).map indentation).min? with
  | none =>
    rw [List.min?_eq_none_iff.1 hmin] at hmem
    cases hmem
  | some n => exact (List.min?_eq_some_iff.1 hmin).2 _ hmem

/-- The common indentation is that of one of the lines. -/
theorem exists_commonIndentation (hl : l ∈ lines) (hblank : isBlankText l = false) :
    ∃ m ∈ lines, isBlankText m = false ∧ indentation m = commonIndentation lines := by
  have hmem : l ∈ lines.filter fun l => !isBlankText l := List.mem_filter.2 ⟨hl, by rw [hblank]; rfl⟩
  cases hmin : ((lines.filter fun l => !isBlankText l).map indentation).min? with
  | none =>
    rw [List.min?_eq_none_iff, List.map_eq_nil_iff] at hmin
    rw [hmin] at hmem
    cases hmem
  | some n =>
    obtain ⟨m, hm, hn⟩ := List.mem_map.1 (List.min?_eq_some_iff.1 hmin).1
    obtain ⟨hmlines, hmblank⟩ := List.mem_filter.1 hm
    refine ⟨m, hmlines, by simpa using hmblank, ?_⟩
    rw [commonIndentation, hmin, hn, Option.getD_some]

theorem commonIndentation_eq {n : Nat} (hle : ∀ m ∈ lines, isBlankText m = false → n ≤ indentation m)
    (hl : l ∈ lines) (hblank : isBlankText l = false) (hn : indentation l = n) :
    commonIndentation lines = n := by
  obtain ⟨m, hm, hmblank, hmn⟩ := exists_commonIndentation hl hblank
  refine Nat.le_antisymm (hn ▸ commonIndentation_le hl hblank) ?_
  rw [← hmn]
  exact hle m hm hmblank

end Indentation

/-! ## Blank lines at the ends -/

section Trim

variable {lines : List (List Char)}

theorem trimBlankLines_cons {l : List Char} (h : isBlankText l = true) (lines : List (List Char)) :
    trimBlankLines (l :: lines) = trimBlankLines lines := by
  rw [trimBlankLines, List.dropWhile_cons_of_pos h, trimBlankLines]

theorem trimBlankLines_append (lines : List (List Char)) {tail : List (List Char)}
    (h : ∀ l ∈ tail, isBlankText l = true) : trimBlankLines (lines ++ tail) = trimBlankLines lines := by
  have htail : tail.dropWhile isBlankText = [] := List.dropWhile_eq_nil_iff.2 h
  rw [trimBlankLines, trimBlankLines, List.dropWhile_append]
  split_ifs with hempty
  · rw [htail, List.isEmpty_iff.1 hempty]
  · rw [List.reverse_append, List.dropWhile_append,
      List.dropWhile_eq_nil_iff.2 fun l hl => h l (List.mem_reverse.1 hl)]
    rfl

theorem trimBlankLines_map {f : List Char → List Char} (h : ∀ l, isBlankText (f l) = isBlankText l)
    (lines : List (List Char)) :
    trimBlankLines (lines.map f) = (trimBlankLines lines).map f := by
  have hcomp : (isBlankText ∘ f) = isBlankText := funext h
  rw [trimBlankLines, trimBlankLines, List.dropWhile_map, hcomp, ← List.map_reverse,
    List.dropWhile_map, hcomp, List.map_reverse]

theorem trimBlankLines_infix (lines : List (List Char)) : trimBlankLines lines <:+: lines := by
  obtain ⟨a, ha⟩ := List.dropWhile_suffix isBlankText (l := lines)
  obtain ⟨b, hb⟩ := List.dropWhile_suffix isBlankText (l := (lines.dropWhile isBlankText).reverse)
  refine ⟨a, b.reverse, ?_⟩
  have hback := congrArg List.reverse hb
  rw [List.reverse_append, List.reverse_reverse] at hback
  rw [List.append_assoc, trimBlankLines, hback, ha]

/-- The lines that are left neither begin nor end with a blank one. -/
theorem isBlankText_head_trimBlankLines {l : List Char} (h : (trimBlankLines lines).head? = some l) :
    isBlankText l = false := by
  have hmem := (List.dropWhile_suffix isBlankText (l := (lines.dropWhile isBlankText).reverse))
  rw [trimBlankLines, List.head?_reverse] at h
  have hlast : (lines.dropWhile isBlankText).reverse.getLast? = some l := by
    obtain ⟨a, ha⟩ := hmem
    rw [← ha, List.getLast?_append, h, Option.some_or]
  rw [List.getLast?_reverse] at hlast
  have hnot := List.head?_dropWhile_not isBlankText lines
  rw [hlast] at hnot
  simpa using hnot

theorem isBlankText_getLast_trimBlankLines {l : List Char}
    (h : (trimBlankLines lines).getLast? = some l) : isBlankText l = false := by
  rw [trimBlankLines, List.getLast?_reverse] at h
  have hnot := List.head?_dropWhile_not isBlankText (lines.dropWhile isBlankText).reverse
  rw [h] at hnot
  simpa using hnot

theorem trimBlankLines_eq_self (hhead : ∀ l ∈ lines.head?, isBlankText l = false)
    (hlast : ∀ l ∈ lines.getLast?, isBlankText l = false) : trimBlankLines lines = lines := by
  have hfront : lines.dropWhile isBlankText = lines := by
    cases lines with
    | nil => rfl
    | cons l rest => exact List.dropWhile_cons_of_neg (by simp [hhead l rfl])
  rw [trimBlankLines, hfront]
  rcases List.eq_nil_or_concat lines with rfl | ⟨rest, l, rfl⟩
  · rfl
  · rw [List.concat_eq_append] at hlast ⊢
    have hl : isBlankText l = false := hlast l (by simp)
    rw [List.reverse_append, List.reverse_singleton, List.singleton_append,
      List.dropWhile_cons_of_neg (by simp [hl])]
    simp

end Trim

/-! ## What comes back -/

/-- What is read of a line that was written as block text with others. -/
def rereadLine (common : Nat) (l : List Char) : List Char :=
  if isBlankText l then [] else dropBytes common (dropFinalReturn l)

def rereadBlock (cs : List Char) : List Char :=
  let lines := linesOf cs
  joinLines (trimBlankLines (lines.map (rereadLine (commonIndentation lines))))

/-- A line as it stands in block text. -/
def writtenLine (level : Nat) (l : List Char) : List Char :=
  if isBlankText l then [] else indentTo level ++ escapeQuotes l

section Reread

variable {lines : List (List Char)} {l : List Char}

theorem notMem_linesOf {cs : List Char} (h : l ∈ linesOf cs) : '\n' ∉ l := by
  rw [linesOf] at h
  have hpieces : ∀ p ∈ splitAtLineFeeds cs, '\n' ∉ p := fun p => notMem_of_mem_splitAtLineFeeds
  rcases List.eq_nil_or_concat (splitAtLineFeeds cs) with hnil | ⟨pieces, last, hconcat⟩
  · exact absurd hnil (splitAtLineFeeds_ne_nil cs)
  · rw [List.concat_eq_append] at hconcat
    rw [hconcat] at h hpieces
    rw [linesOfPieces_concat] at h
    rcases List.mem_append.1 h with h | h
    · obtain ⟨p, hp, rfl⟩ := List.mem_map.1 h
      exact fun hmem => hpieces p (List.mem_append_left _ hp) ((isPrefix_dropFinalReturn p).mem hmem)
    · split_ifs at h
      · cases h
      · obtain rfl := List.mem_singleton.1 h
        exact hpieces l (by simp)

theorem mem_escapeQuotes {c : Char} (hc : c ≠ '\\') (h : c ∈ escapeQuotes l) : c ∈ l := by
  fun_induction escapeQuotes l with
  | case1 => exact h
  | case2 rest ih =>
    simp only [List.mem_cons] at h ⊢
    tauto
  | case3 d rest _ ih =>
    rcases List.mem_cons.1 h with rfl | h
    · exact List.mem_cons_self
    · exact List.mem_cons_of_mem d (ih h)

theorem notMem_writtenLine {level : Nat} (h : '\n' ∉ l) : '\n' ∉ writtenLine level l := by
  rw [writtenLine]
  split_ifs
  · exact List.not_mem_nil
  · intro hmem
    rcases List.mem_append.1 hmem with hmem | hmem
    · exact absurd (List.eq_of_mem_replicate hmem) (by decide)
    · exact h (mem_escapeQuotes (by decide) hmem)

/-- The lines of the content of block text. -/
theorem linesOf_blockContent (level : Nat) (cs : List Char) :
    linesOf (blockContent level cs) =
      [] :: ((linesOf cs).map fun l => dropFinalReturn (writtenLine (level + 1) l)) ++
        if (indentTo level).isEmpty then [] else [indentTo level] := by
  have hcontent : blockContent level cs =
      ([] :: (linesOf cs).map (writtenLine (level + 1))).flatMap (· ++ ['\n']) ++ indentTo level := by
    rw [blockContent, List.flatMap_cons, List.flatMap_map]
    rfl
  have hlines : ∀ l ∈ [] :: (linesOf cs).map (writtenLine (level + 1)), '\n' ∉ l := by
    intro l hl
    rcases List.mem_cons.1 hl with rfl | hl
    · exact List.not_mem_nil
    · obtain ⟨m, hm, rfl⟩ := List.mem_map.1 hl
      exact notMem_writtenLine (notMem_linesOf hm)
  have hindent : '\n' ∉ indentTo level :=
    fun h => absurd (List.eq_of_mem_replicate h) (by decide)
  rw [linesOf, hcontent, splitAtLineFeeds_flatMap hlines hindent, linesOfPieces_concat, List.map_cons,
    List.map_map]
  rfl

/-- A carriage return at the end of a written line is that of the line. -/
theorem dropFinalReturn_writtenLine (level : Nat) (l : List Char) :
    dropFinalReturn (writtenLine level l) = writtenLine level (dropFinalReturn l) := by
  rw [writtenLine, writtenLine, isBlankText_dropFinalReturn]
  split_ifs with hblank
  · rfl
  · have hne : escapeQuotes l ≠ [] := by
      intro h
      rw [← isBlankText_escapeQuotes, h] at hblank
      exact hblank rfl
    rw [dropFinalReturn_append _ hne, dropFinalReturn_escapeQuotes]

theorem isBlankText_writtenLine (level : Nat) (l : List Char) :
    isBlankText (writtenLine level l) = isBlankText l := by
  rw [writtenLine]
  split_ifs with hblank
  · rw [hblank]
    rfl
  · rw [isBlankText_indentTo_append, isBlankText_escapeQuotes]

theorem indentation_writtenLine (level : Nat) (h : isBlankText l = false) :
    indentation (writtenLine level l) = 2 * level + indentation l := by
  rw [writtenLine, if_neg (by simp [h]), indentation_indentTo, indentation_escapeQuotes]

/-- All lines are written with the same indentation before their own. -/
theorem commonIndentation_writtenLine (level : Nat) {tail : List (List Char)}
    (htail : ∀ l ∈ tail, isBlankText l = true) (hl : l ∈ lines) (hblank : isBlankText l = false) :
    commonIndentation ((lines.map fun l => dropFinalReturn (writtenLine level l)) ++ tail) =
      2 * level + commonIndentation lines := by
  have hwritten : ∀ m, isBlankText m = false →
      indentation (dropFinalReturn (writtenLine level m)) = 2 * level + indentation m := by
    intro m hm
    rw [dropFinalReturn_writtenLine, indentation_writtenLine level
      (by rw [isBlankText_dropFinalReturn, hm]), indentation_dropFinalReturn hm]
  obtain ⟨m, hm, hmblank, hmin⟩ := exists_commonIndentation hl hblank
  refine commonIndentation_eq (l := dropFinalReturn (writtenLine level m)) ?_
    (List.mem_append_left _ (List.mem_map.2 ⟨m, hm, rfl⟩)) ?_ ?_
  · intro x hx hxblank
    rcases List.mem_append.1 hx with hx | hx
    · obtain ⟨y, hy, rfl⟩ := List.mem_map.1 hx
      rw [isBlankText_dropFinalReturn, isBlankText_writtenLine] at hxblank
      rw [hwritten y hxblank]
      have := commonIndentation_le hy hxblank
      omega
    · rw [htail x hx] at hxblank
      cases hxblank
  · rw [isBlankText_dropFinalReturn, isBlankText_writtenLine, hmblank]
  · rw [hwritten m hmblank, hmin]

/-- Behind the indentation stands what comes back of a line, its quotes escaped. -/
theorem unindent_writtenLine {level n : Nat} (hl : l ∈ lines)
    (hn : isBlankText l = false → n = 2 * level + commonIndentation lines) :
    unindent n (dropFinalReturn (writtenLine level l)) =
      escapeQuotes (rereadLine (commonIndentation lines) l) := by
  rw [dropFinalReturn_writtenLine, writtenLine, rereadLine, isBlankText_dropFinalReturn]
  cases hblank : isBlankText l with
  | true =>
    rw [if_pos rfl, if_pos rfl, unindent]
    split_ifs <;> rfl
  | false =>
    have hindent : commonIndentation lines ≤ indentation (dropFinalReturn l) := by
      rw [indentation_dropFinalReturn hblank]
      exact commonIndentation_le hl hblank
    rw [if_neg Bool.false_ne_true, if_neg Bool.false_ne_true, hn hblank, unindent, if_pos,
      dropBytes_indentTo, dropBytes_escapeQuotes hindent]
    refine Nat.le_trans ?_ (indentation_le_byteLength _)
    rw [indentation_indentTo, indentation_escapeQuotes]
    omega

theorem isBlankText_unindent (n : Nat) (h : isBlankText l = true) :
    isBlankText (unindent n l) = true := by
  rw [unindent]
  split_ifs
  · exact List.all_eq_true.2 fun c hc =>
      List.all_eq_true.1 h c ((dropBytes_suffix n l).mem hc)
  · exact h

/-- **What is read of block text is what was written, but for what block text cannot keep.** -/
theorem blockText_blockContent (level : Nat) (cs : List Char) :
    blockText (blockContent level cs) = rereadBlock cs := by
  let lines := linesOf cs
  let tail : List (List Char) := if (indentTo level).isEmpty then [] else [indentTo level]
  have htail : ∀ l ∈ tail, isBlankText l = true := by
    intro l hl
    simp only [tail] at hl
    split_ifs at hl
    · cases hl
    · rw [List.mem_singleton.1 hl]
      exact isBlankText_indentTo level
  let rest := (lines.map fun l => dropFinalReturn (writtenLine (level + 1) l)) ++ tail
  have hrest : linesOf (blockContent level cs) = [] :: rest := linesOf_blockContent level cs
  have hlines : ∀ l ∈ lines, unindent (commonIndentation rest)
      (dropFinalReturn (writtenLine (level + 1) l)) =
        escapeQuotes (rereadLine (commonIndentation lines) l) := by
    intro l hl
    exact unindent_writtenLine hl fun hblank =>
      commonIndentation_writtenLine (level + 1) htail hl hblank
  have hmap : rest.map (unindent (commonIndentation rest)) =
      (lines.map (rereadLine (commonIndentation lines))).map escapeQuotes ++
        tail.map (unindent (commonIndentation rest)) := by
    conv_lhs => rw [show rest = _ from rfl, List.map_append, List.map_map]
    rw [List.map_map]
    exact congrArg (· ++ _) (List.map_congr_left hlines)
  have htrim : trimBlankLines ([] :: rest.map (unindent (commonIndentation rest))) =
      (trimBlankLines (lines.map (rereadLine (commonIndentation lines)))).map escapeQuotes := by
    rw [trimBlankLines_cons rfl, hmap, trimBlankLines_append, trimBlankLines_map isBlankText_escapeQuotes]
    intro l hl
    obtain ⟨m, hm, rfl⟩ := List.mem_map.1 hl
    exact isBlankText_unindent _ (htail m hm)
  rw [blockText, hrest]
  show joinLines ((trimBlankLines ([] :: rest.map (unindent (commonIndentation rest)))).map
    unescapeQuotes) = _
  rw [htrim, List.map_map, funext unescapeQuotes_escapeQuotes (f := unescapeQuotes ∘ escapeQuotes),
    List.map_id']
  rfl

end Reread

/-! ## The texts that are kept -/

/-- A text that block text keeps: no line ends in a carriage return or holds nothing but white
space, there is text on the first line and on the last, and the lines have no common indentation. -/
structure IsBlockShaped (cs : List Char) : Prop where
  returns : ∀ l ∈ splitAtLineFeeds cs, l.getLast? ≠ some '\r'
  blanks : ∀ l ∈ splitAtLineFeeds cs, isBlankText l = true → l = []
  first : ∀ l ∈ (splitAtLineFeeds cs).head?, isBlankText l = false
  last : ∀ l ∈ (splitAtLineFeeds cs).getLast?, isBlankText l = false
  indentation : commonIndentation (splitAtLineFeeds cs) = 0

instance (cs : List Char) : Decidable (IsBlockShaped cs) :=
  decidable_of_iff
    ((∀ l ∈ splitAtLineFeeds cs, l.getLast? ≠ some '\r') ∧
      (∀ l ∈ splitAtLineFeeds cs, isBlankText l = true → l = []) ∧
      (∀ l ∈ (splitAtLineFeeds cs).head?, isBlankText l = false) ∧
      (∀ l ∈ (splitAtLineFeeds cs).getLast?, isBlankText l = false) ∧
      commonIndentation (splitAtLineFeeds cs) = 0)
    ⟨fun ⟨h₁, h₂, h₃, h₄, h₅⟩ => ⟨h₁, h₂, h₃, h₄, h₅⟩, fun ⟨h₁, h₂, h₃, h₄, h₅⟩ => ⟨h₁, h₂, h₃, h₄, h₅⟩⟩

section Kept

variable {cs l : List Char} {k : Nat}

theorem length_rereadLine_le (k : Nat) (l : List Char) : (rereadLine k l).length ≤ l.length := by
  rw [rereadLine]
  split_ifs
  · exact Nat.zero_le _
  · exact (dropBytes_suffix k _).length_le.trans (isPrefix_dropFinalReturn l).length_le

theorem mem_of_mem_rereadLine {c : Char} (h : c ∈ rereadLine k l) : c ∈ l := by
  rw [rereadLine] at h
  split_ifs at h
  · cases h
  · exact (isPrefix_dropFinalReturn l).mem ((dropBytes_suffix k _).mem h)

/-- A line that has come back as it was does not end in a carriage return. -/
theorem dropFinalReturn_of_rereadLine (h : rereadLine k l = l) : dropFinalReturn l = l := by
  rw [rereadLine] at h
  split_ifs at h
  · rw [← h]
    rfl
  · refine (isPrefix_dropFinalReturn l).eq_of_length_le ?_
    conv_lhs => rw [← h]
    exact (dropBytes_suffix k _).length_le

theorem dropBytes_of_rereadLine (hblank : isBlankText l = false) (h : rereadLine k l = l) :
    dropBytes k l = l := by
  have hreturn := dropFinalReturn_of_rereadLine h
  rwa [rereadLine, hblank, if_neg Bool.false_ne_true, hreturn] at h

/-- A line that keeps its indentation has none. -/
theorem indentation_eq_zero_of_dropBytes (h : dropBytes (indentation l) l = l) :
    indentation l = 0 := by
  cases l with
  | nil => rfl
  | cons c l =>
    rw [indentation_cons] at h ⊢
    split_ifs at h ⊢
    · rw [dropBytes, if_pos (Nat.le_add_right _ _)] at h
      have hlength := (dropBytes_suffix (c.utf8Size + indentation l - c.utf8Size) l).length_le
      rw [h, List.length_cons] at hlength
      omega
    · rfl

theorem rereadBlock_of_isBlockShaped (h : IsBlockShaped cs) : rereadBlock cs = cs := by
  have hlines : linesOf cs = splitAtLineFeeds cs := by
    rcases List.eq_nil_or_concat (splitAtLineFeeds cs) with hnil | ⟨pieces, last, hconcat⟩
    · exact absurd hnil (splitAtLineFeeds_ne_nil cs)
    · rw [List.concat_eq_append] at hconcat
      have hlast := h.last last (by rw [hconcat]; simp)
      have hpieces : pieces.map dropFinalReturn = pieces := by
        refine map_eq_self_of_forall fun p hp => dropFinalReturn_eq_self_iff.2 (h.returns p ?_)
        rw [hconcat]
        exact List.mem_append_left _ hp
      rw [linesOf, hconcat, linesOfPieces_concat, hpieces, if_neg]
      intro hempty
      rw [List.isEmpty_iff.1 hempty] at hlast
      cases hlast
  have hkept : (splitAtLineFeeds cs).map (rereadLine 0) = splitAtLineFeeds cs := by
    refine map_eq_self_of_forall fun l hl => ?_
    rw [rereadLine]
    split_ifs with hblank
    · exact (h.blanks l hl hblank).symm
    · rw [dropBytes_zero, dropFinalReturn_eq_self_iff.2 (h.returns l hl)]
  rw [rereadBlock]
  simp only [hlines, h.indentation, hkept, trimBlankLines_eq_self h.first h.last]
  exact joinLines_splitAtLineFeeds cs

/-- If each piece comes back from a line, then no line has lost a carriage return. -/
theorem linesOf_eq_of_map_rereadLine (h : splitAtLineFeeds cs = (linesOf cs).map (rereadLine k)) :
    linesOf cs = splitAtLineFeeds cs := by
  rcases List.eq_nil_or_concat (splitAtLineFeeds cs) with hnil | ⟨pieces, last, hconcat⟩
  · exact absurd hnil (splitAtLineFeeds_ne_nil cs)
  · rw [List.concat_eq_append] at hconcat
    rw [linesOf, hconcat, linesOfPieces_concat] at h ⊢
    cases hempty : last.isEmpty with
    | true =>
      have hlength := congrArg List.length h
      rw [hempty] at hlength
      simp at hlength
    | false =>
      rw [hempty, if_neg Bool.false_ne_true, List.map_append, List.map_map] at h
      obtain ⟨hinit, -⟩ := List.append_inj' h rfl
      rw [if_neg Bool.false_ne_true]
      refine congrArg (· ++ [last]) (map_eq_self_of_forall fun p hp => ?_)
      have hback : rereadLine k (dropFinalReturn p) = p :=
        List.map_inj_left.1 (hinit.symm.trans (List.map_id pieces).symm) p hp
      refine (isPrefix_dropFinalReturn p).eq_of_length_le ?_
      conv_lhs => rw [← hback]
      exact length_rereadLine_le k _

/-- What has come back as it was has come back line by line. -/
theorem splitAtLineFeeds_of_rereadBlock (hne : cs ≠ []) (h : rereadBlock cs = cs) :
    linesOf cs = splitAtLineFeeds cs ∧
    trimBlankLines (splitAtLineFeeds cs) = splitAtLineFeeds cs ∧
    ∀ l ∈ splitAtLineFeeds cs, rereadLine (commonIndentation (splitAtLineFeeds cs)) l = l := by
  obtain ⟨k, hk⟩ : ∃ k, k = commonIndentation (linesOf cs) := ⟨_, rfl⟩
  have hjoin : joinLines (trimBlankLines ((linesOf cs).map (rereadLine k))) = cs := by
    rw [hk]
    exact h
  have hin := trimBlankLines_infix ((linesOf cs).map (rereadLine k))
  have hsplit : splitAtLineFeeds cs = trimBlankLines ((linesOf cs).map (rereadLine k)) := by
    conv_lhs => rw [← hjoin]
    refine splitAtLineFeeds_joinLines (fun hnil => hne ?_) fun l hl hfeed => ?_
    · rw [← hjoin, hnil]
      rfl
    · obtain ⟨m, hm, rfl⟩ := List.mem_map.1 (hin.mem hl)
      exact notMem_linesOf hm (mem_of_mem_rereadLine hfeed)
  -- nothing has been trimmed: there are no more lines than pieces
  have htrim : trimBlankLines ((linesOf cs).map (rereadLine k)) = (linesOf cs).map (rereadLine k) := by
    refine hin.eq_of_length_le ?_
    rw [← hsplit, List.length_map]
    exact length_linesOfPieces_le _
  have hpieces : splitAtLineFeeds cs = (linesOf cs).map (rereadLine k) := hsplit.trans htrim
  have hlines : linesOf cs = splitAtLineFeeds cs := linesOf_eq_of_map_rereadLine hpieces
  rw [hlines] at hk hpieces htrim
  refine ⟨hlines, by rwa [← hpieces] at htrim, fun l hl => ?_⟩
  rw [← hk]
  exact List.map_inj_left.1 (hpieces.symm.trans (List.map_id _).symm) l hl

/-- **Which texts block text keeps.** -/
theorem rereadBlock_eq_self_iff (hne : cs ≠ []) : rereadBlock cs = cs ↔ IsBlockShaped cs := by
  refine ⟨fun h => ?_, rereadBlock_of_isBlockShaped⟩
  obtain ⟨-, htrim, hkept⟩ := splitAtLineFeeds_of_rereadBlock hne h
  have hfirst : ∀ l ∈ (splitAtLineFeeds cs).head?, isBlankText l = false := by
    intro l hl
    rw [← htrim] at hl
    exact isBlankText_head_trimBlankLines hl
  refine ⟨fun l hl => ?_, fun l hl hblank => ?_, hfirst, fun l hl => ?_, ?_⟩
  · exact dropFinalReturn_eq_self_iff.1 (dropFinalReturn_of_rereadLine (hkept l hl))
  · have hl' := hkept l hl
    rwa [rereadLine, if_pos hblank, eq_comm] at hl'
  · rw [← htrim] at hl
    exact isBlankText_getLast_trimBlankLines hl
  · cases hsplit : splitAtLineFeeds cs with
    | nil => exact absurd hsplit (splitAtLineFeeds_ne_nil cs)
    | cons l rest =>
      rw [← hsplit]
      have hl : l ∈ splitAtLineFeeds cs := hsplit ▸ List.mem_cons_self
      obtain ⟨m, hm, hmblank, hmin⟩ := exists_commonIndentation hl (hfirst l (by rw [hsplit]; rfl))
      rw [← hmin]
      have hdrop := dropBytes_of_rereadLine hmblank (hkept m hm)
      rw [← hmin] at hdrop
      exact indentation_eq_zero_of_dropBytes hdrop

end Kept

example : IsBlockShaped "a\n\n  b \"".toList ∧ ¬IsBlockShaped "a\n".toList := by decide +kernel

end SemanticNullability.Sdl
