import Mathlib.Data.List.Infix
import SemanticNullability.Text.Blank
import SemanticNullability.Text.Lines
/-!
# Lines

Lines without line feeds are what splitting a text at its line feeds gives, and joining them is the
inverse (`splitAtLineFeeds_joinLines`). Of the pieces of a text all but the last lose a carriage
return, and the last is a line only if it is not empty (`linesOfPieces_concat`).
-/
namespace SemanticNullability

variable {l cs : List Char} {ls : List (List Char)}

/-! ## Splitting -/

theorem splitAtLineFeeds_append (h : '\n' ∉ l) (rest : List Char) :
    splitAtLineFeeds (l ++ '\n' :: rest) = l :: splitAtLineFeeds rest := by
  induction l with
  | nil => rfl
  | cons c l ih =>
    obtain ⟨hc, hl⟩ := not_or.1 (List.mem_cons.not.1 h)
    rw [List.cons_append, splitAtLineFeeds, if_neg (Ne.symm hc), ih hl]

theorem splitAtLineFeeds_of_notMem (h : '\n' ∉ l) : splitAtLineFeeds l = [l] := by
  induction l with
  | nil => rfl
  | cons c l ih =>
    obtain ⟨hc, hl⟩ := not_or.1 (List.mem_cons.not.1 h)
    rw [splitAtLineFeeds, if_neg (Ne.symm hc), ih hl]

theorem notMem_of_mem_splitAtLineFeeds (h : l ∈ splitAtLineFeeds cs) : '\n' ∉ l := by
  induction cs generalizing l with
  | nil =>
    obtain rfl := List.mem_singleton.1 h
    exact List.not_mem_nil
  | cons c cs ih =>
    rw [splitAtLineFeeds] at h
    split at h
    · rcases List.mem_cons.1 h with rfl | h
      · exact List.not_mem_nil
      · exact ih h
    · rename_i hc
      cases hsplit : splitAtLineFeeds cs with
      | nil => exact absurd hsplit (splitAtLineFeeds_ne_nil cs)
      | cons piece pieces =>
        rw [hsplit] at h ih
        rcases List.mem_cons.1 h with rfl | h
        · exact not_or.2 ⟨Ne.symm hc, ih List.mem_cons_self⟩ ∘ List.mem_cons.1
        · exact ih (List.mem_cons_of_mem piece h)

theorem joinLines_cons_cons (l m : List Char) (ls : List (List Char)) :
    joinLines (l :: m :: ls) = l ++ '\n' :: joinLines (m :: ls) := by
  simp [joinLines, List.intercalate]

theorem joinLines_singleton (l : List Char) : joinLines [l] = l := by
  simp [joinLines, List.intercalate]

/-- **Joined lines are split again.** -/
theorem splitAtLineFeeds_joinLines (hne : ls ≠ []) (h : ∀ l ∈ ls, '\n' ∉ l) :
    splitAtLineFeeds (joinLines ls) = ls := by
  induction ls with
  | nil => exact absurd rfl hne
  | cons l ls ih =>
    cases ls with
    | nil => rw [joinLines_singleton, splitAtLineFeeds_of_notMem (h l List.mem_cons_self)]
    | cons m ls =>
      rw [joinLines_cons_cons, splitAtLineFeeds_append (h l List.mem_cons_self),
        ih (List.cons_ne_nil m ls) fun x hx => h x (List.mem_cons_of_mem l hx)]

/-- Lines with a line feed behind each, and what follows the last. -/
theorem splitAtLineFeeds_flatMap (h : ∀ l ∈ ls, '\n' ∉ l) (hcs : '\n' ∉ cs) :
    splitAtLineFeeds (ls.flatMap (· ++ ['\n']) ++ cs) = ls ++ [cs] := by
  induction ls with
  | nil => exact splitAtLineFeeds_of_notMem hcs
  | cons l ls ih =>
    rw [List.flatMap_cons, List.append_assoc, List.append_assoc, List.singleton_append,
      splitAtLineFeeds_append (h l List.mem_cons_self),
      ih fun x hx => h x (List.mem_cons_of_mem l hx), List.cons_append]

/-! ## Carriage returns -/

theorem dropFinalReturn_append (a : List Char) (h : l ≠ []) :
    dropFinalReturn (a ++ l) = a ++ dropFinalReturn l := by
  induction a with
  | nil => rfl
  | cons c a ih =>
    have hne : a ++ l ≠ [] := by simp [h]
    rw [List.cons_append, dropFinalReturn, ih, List.cons_append]
    exact fun _ => hne

theorem dropFinalReturn_concat (l : List Char) (c : Char) :
    dropFinalReturn (l ++ [c]) = if c = '\r' then l else l ++ [c] := by
  rw [dropFinalReturn_append l (List.cons_ne_nil c [])]
  split_ifs with h
  · rw [h, dropFinalReturn, List.append_nil]
  · rw [dropFinalReturn, dropFinalReturn]
    exact fun hc => absurd hc h

/-- A line keeps its characters exactly if it does not end in a carriage return. -/
theorem dropFinalReturn_eq_self_iff : dropFinalReturn l = l ↔ l.getLast? ≠ some '\r' := by
  rcases List.eq_nil_or_concat l with rfl | ⟨a, c, rfl⟩
  · simp [dropFinalReturn]
  · rw [List.concat_eq_append, dropFinalReturn_concat, List.getLast?_concat]
    split_ifs with h <;> simp [h]

theorem isPrefix_dropFinalReturn (l : List Char) : dropFinalReturn l <+: l := by
  rcases List.eq_nil_or_concat l with rfl | ⟨a, c, rfl⟩
  · exact List.prefix_rfl
  · rw [List.concat_eq_append, dropFinalReturn_concat]
    split_ifs
    · exact List.prefix_append a [c]
    · exact List.prefix_rfl

/-- A carriage return is white space, so a blank line stays blank and no other line becomes so. -/
theorem isBlankText_dropFinalReturn (l : List Char) :
    isBlankText (dropFinalReturn l) = isBlankText l := by
  rcases List.eq_nil_or_concat l with rfl | ⟨a, c, rfl⟩
  · rfl
  · rw [List.concat_eq_append, dropFinalReturn_concat]
    split_ifs with h
    · have hblank : isBlank '\r' = true := by decide
      simp [isBlankText, h, hblank]
    · rfl

/-! ## Lines of pieces -/

theorem linesOfPieces_concat (pieces : List (List Char)) (last : List Char) :
    linesOfPieces (pieces ++ [last]) =
      pieces.map dropFinalReturn ++ if last.isEmpty then [] else [last] := by
  induction pieces with
  | nil => rfl
  | cons p pieces ih =>
    rw [List.cons_append, linesOfPieces, ih, List.map_cons, List.cons_append]
    simp

theorem length_linesOfPieces_le (pieces : List (List Char)) :
    (linesOfPieces pieces).length ≤ pieces.length := by
  rcases List.eq_nil_or_concat pieces with rfl | ⟨ps, last, rfl⟩
  · exact Nat.le_refl _
  · rw [List.concat_eq_append, linesOfPieces_concat]
    split_ifs <;> simp

end SemanticNullability
