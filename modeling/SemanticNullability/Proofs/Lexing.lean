import SemanticNullability.Proofs.BlockLines
import SemanticNullability.Proofs.Grammar
import SemanticNullability.Proofs.NumberText
import SemanticNullability.Proofs.QuotedText
import SemanticNullability.Sdl.Token
/-!
# Reading one token

A token is read off the front of its characters, whatever ends it behind them: a mark, a name, the
run of characters of a number, a text in quotes or in a block. What is read of a text is
`rereadText`, which may be another text (`rereadText_eq_self_iff`). From one token to all of them it
is a step of the repetition in `tokens` (`tokens_run_cons`, `tokens_run_refused`).
-/
namespace SemanticNullability.Sdl

/-! ## Texts -/

def rereadText (cs : List Char) : List Char := if needsBlock cs then rereadBlock cs else requote cs

/-- A text that is read as it was written. -/
def KeepsText (cs : List Char) : Prop :=
  if needsBlock cs then IsBlockShaped cs else cs.all isQuotable = true

instance (cs : List Char) : Decidable (KeepsText cs) := by
  unfold KeepsText
  infer_instance

/-- **Which texts survive.** -/
theorem rereadText_eq_self_iff (cs : List Char) : rereadText cs = cs ↔ KeepsText cs := by
  rw [rereadText, KeepsText]
  split_ifs with h
  · refine rereadBlock_eq_self_iff ?_
    rintro rfl
    cases h
  · exact (requote_eq_self_iff cs).trans List.all_eq_true.symm

/-- Behind the opening quotes of block text. -/
theorem blockRest_run (level : Nat) (cs after : List Char) :
    blockRest.run (blockContent level cs ++ '"' :: '"' :: '"' :: after) =
      some (rereadBlock cs, after) := by
  show (readBlock _).map _ = _
  rw [readBlock_blockContent, Option.map_some]
  exact congrArg (fun text => some (text, after)) (blockText_blockContent level cs)

theorem twoQuotes_run (after : List Char) :
    twoQuotes.run ('"' :: '"' :: after) = some (true, after) := rfl

theorem twoQuotes_run_of_ne {cs : List Char} (h : ∀ rest, cs ≠ '"' :: '"' :: rest) :
    twoQuotes.run cs = some (false, cs) := by
  unfold twoQuotes
  dsimp only
  split
  · rename_i rest
    exact absurd rfl (h rest)
  · rfl

/-- A quote in quoted text is escaped, so the opening quote is not the first of three. -/
theorem quoted_ne_quotes (cs : List Char) {after : List Char} (h : after.head? ≠ some '"')
    (rest : List Char) : cs.flatMap quoteChar ++ '"' :: after ≠ '"' :: '"' :: rest := by
  intro heq
  cases cs with
  | nil =>
    have hafter : after = '"' :: rest := (List.cons.inj heq).2
    exact h (by rw [hafter]; rfl)
  | cons c cs =>
    rw [List.flatMap_cons, quoteChar] at heq
    split_ifs at heq with hr hn ht hquote
    all_goals
      simp only [List.cons_append, List.cons.injEq] at heq
      first
        | exact hquote heq.1
        | exact absurd heq.1 (by decide)

/-- A written text is read up to its closing quotes, if no quote follows them. -/
theorem textRest_run (level : Nat) (cs : List Char) {after : List Char}
    (h : after.head? ≠ some '"') :
    ∃ written, writeText level cs = '"' :: written ∧
      textRest.run (written ++ after) = some (rereadText cs, after) := by
  rw [writeText, rereadText]
  split_ifs with hblock
  · refine ⟨'"' :: '"' :: (blockContent level cs ++ ['"', '"', '"']), writeBlock_eq level cs, ?_⟩
    rw [List.cons_append, List.cons_append, List.append_assoc, textRest, Rule.run_bind,
      twoQuotes_run]
    exact blockRest_run level cs after
  · refine ⟨cs.flatMap quoteChar ++ ['"'], rfl, ?_⟩
    rw [List.append_assoc, List.singleton_append, textRest, Rule.run_bind,
      twoQuotes_run_of_ne (quoted_ne_quotes cs h)]
    exact readQuoted_flatMap cs after

/-! ## Characters that begin and end tokens -/

/-- What follows ends a token: it is empty or begins with a character that ends a number. -/
def Ends (cs : List Char) : Prop := ∀ c ∈ cs.head?, endsNumber c = true

theorem ends_nil : Ends [] := fun _ h => by cases h

theorem ends_cons {c : Char} (h : endsNumber c = true) (cs : List Char) : Ends (c :: cs) := by
  intro d hd
  cases hd
  exact h

theorem isNameChar_of_endsNumber {c : Char} (h : endsNumber c = true) : isNameChar c = false := by
  simp only [endsNumber, Bool.or_eq_true, beq_iff_eq] at h
  rcases h with (((((((((((((((((rfl | rfl) | rfl) | rfl) | rfl) | rfl) | rfl) | rfl) | rfl) | rfl) |
    rfl) | rfl) | rfl) | rfl) | rfl) | rfl) | rfl) | rfl) | rfl <;> decide

theorem endsNumber_char (m : Mark) : endsNumber m.char = true := by cases m <;> decide

theorem endsNumber_quote : endsNumber '"' = false := by decide

/-- A character that begins a token: not one that is skipped. -/
def beginsToken (c : Char) : Bool := c != '#' && !isIgnored c

theorem skipIgnored_cons {c : Char} (h : beginsToken c = true) (cs : List Char) :
    skipIgnored (c :: cs) = c :: cs := by
  simp only [beginsToken, Bool.and_eq_true, bne_iff_ne, ne_eq, Bool.not_eq_true'] at h
  rw [skipIgnored, skipFrom, if_neg h.1, if_neg (by simp [h.2])]

theorem beginsToken_of {p : Char → Bool} {c : Char} (h : p c = true)
    (hskipped : (['#', ' ', '\t', '\r', '\n', ',', '\ufeff'].all fun d => !p d) = true) :
    beginsToken c = true := by
  by_contra hnot
  simp only [beginsToken, isIgnored, Bool.and_eq_true, bne_iff_ne, Bool.not_eq_true',
    Bool.or_eq_false_iff, beq_eq_false_iff_ne, ne_eq, not_and_or, not_not] at hnot
  have hfalse := List.all_eq_true.1 hskipped c
    (by simp only [List.mem_cons, List.not_mem_nil, or_false]; tauto)
  rw [h] at hfalse
  cases hfalse

theorem beginsToken_of_isNameStart {c : Char} (h : isNameStart c = true) : beginsToken c = true :=
  beginsToken_of h (by decide)

theorem beginsToken_of_isNumberStart {c : Char} (h : isNumberStart c = true) :
    beginsToken c = true :=
  beginsToken_of h (by decide)

theorem beginsToken_char (m : Mark) : beginsToken m.char = true := by cases m <;> decide

theorem ofChar?_eq_none {p : Char → Bool} {c : Char} (h : p c = true)
    (hmarks : ∀ m : Mark, p m.char = false) : Mark.ofChar? c = none := by
  refine List.find?_eq_none.2 fun m _ hm => ?_
  have hfalse := hmarks m
  rw [beq_iff_eq.1 hm, h] at hfalse
  cases hfalse

theorem ofChar?_of_isNameStart {c : Char} (h : isNameStart c = true) : Mark.ofChar? c = none :=
  ofChar?_eq_none h fun m => by cases m <;> decide

theorem ofChar?_of_isNumberStart {c : Char} (h : isNumberStart c = true) : Mark.ofChar? c = none :=
  ofChar?_eq_none h fun m => by cases m <;> decide

theorem isNameStart_of_isNumberStart {c : Char} (h : isNumberStart c = true) :
    isNameStart c = false := by
  rw [isNumberStart, Bool.or_eq_true, beq_iff_eq] at h
  rcases h with rfl | hdigit
  · decide
  · rw [isNameStart, Bool.or_eq_false_iff, beq_eq_false_iff_ne]
    constructor
    · by_contra halpha
      unfold Char.isAlpha Char.isUpper Char.isLower at halpha
      simp only [Char.isDigit, Bool.not_eq_false, Bool.and_eq_true, Bool.or_eq_true,
        decide_eq_true_eq, UInt32.le_iff_toNat_le, ge_iff_le] at hdigit halpha
      have hnine : '9'.val.toNat = 57 := rfl
      have hupper : 'A'.val.toNat = 65 := rfl
      have hlower : 'a'.val.toNat = 97 := rfl
      omega
    · rintro rfl
      exact absurd hdigit (by decide)

/-! ## From characters to a token -/

section Reading

variable {c : Char} {cs after : List Char}

theorem tokens_run (cs : List Char) :
    tokens.run cs = (Rule.many (fun _ => true) token).run (skipIgnored cs) := rfl

theorem tokens_run_nil : tokens.run [] = some ([], []) := Rule.many_run_nil _ _

theorem tokens_run_ignored (h : isIgnored c = true) (cs : List Char) :
    tokens.run (c :: cs) = tokens.run cs := by
  have hsharp : c ≠ '#' := by
    rintro rfl
    exact absurd h (by decide)
  rw [tokens_run, tokens_run, skipIgnored, skipFrom, if_neg hsharp, if_pos h, skipIgnored]

/-- A token is read, and the tokens go on behind it. -/
theorem tokens_run_cons {t : Token} (hbegin : beginsToken c = true)
    (h : (tokenRest c).run cs = some (t, after)) :
    tokens.run (c :: cs) = (tokens.run after).map fun (ts, rest) => (t :: ts, rest) := by
  have htoken : token.run (c :: cs) = some (t, skipIgnored after) := by
    show (tokenRest c >>= fun t => ignored >>= fun _ => pure t).run cs = _
    rw [Rule.run_bind, h]
    rfl
  rw [tokens_run, skipIgnored_cons hbegin, Rule.many_run_step rfl htoken]
  rfl

theorem tokens_run_refused (hbegin : beginsToken c = true) (h : (tokenRest c).run cs = none) :
    tokens.run (c :: cs) = none := by
  have htoken : token.run (c :: cs) = none := by
    show (tokenRest c >>= fun t => ignored >>= fun _ => pure t).run cs = _
    rw [Rule.run_bind, h]
  rw [tokens_run, skipIgnored_cons hbegin, Rule.many_run_none rfl htoken]

theorem tokenRest_mark (m : Mark) (cs : List Char) :
    (tokenRest m.char).run cs = some (.mark m, cs) := by
  rw [tokenRest, Mark.ofChar?_char]
  rfl

theorem charsWhile_run {p : Char → Bool} (hcs : ∀ d ∈ cs, p d = true)
    (hafter : ∀ d ∈ after.head?, p d = false) :
    (charsWhile p).run (cs ++ after) = some (cs, after) := by
  obtain ⟨htake, hdrop⟩ := takeWhile_dropWhile_append hcs hafter
  show some ((cs ++ after).takeWhile p, (cs ++ after).dropWhile p) = _
  rw [htake, hdrop]

theorem tokenRest_name (hc : isNameStart c = true) (hcs : ∀ d ∈ cs, isNameChar d = true)
    (hafter : Ends after) :
    (tokenRest c).run (cs ++ after) = some (.name (String.ofList (c :: cs)), after) := by
  have hread := charsWhile_run hcs fun d hd => isNameChar_of_endsNumber (hafter d hd)
  rw [tokenRest, ofChar?_of_isNameStart hc]
  simp only [if_pos hc]
  rw [Rule.run_bind, hread]
  rfl

/-- The run of characters of a number is read as a whole. -/
theorem tokenRest_number (hc : isNumberStart c = true) (hcs : ∀ d ∈ cs, endsNumber d = false)
    (hafter : Ends after) :
    (tokenRest c).run (cs ++ after) = (number? (c :: cs)).map fun n => (n.token, after) := by
  have hread : (charsWhile fun d => !endsNumber d).run (cs ++ after) = some (cs, after) :=
    charsWhile_run (fun d hd => by rw [hcs d hd]; rfl) fun d hd => by rw [hafter d hd]; rfl
  have hname := isNameStart_of_isNumberStart hc
  rw [tokenRest, ofChar?_of_isNumberStart hc]
  simp only [if_neg (Bool.eq_false_iff.1 hname), if_pos hc]
  rw [Rule.run_bind, hread]
  dsimp only
  cases number? (c :: cs) <;> rfl

theorem tokenRest_quote {text : List Char} (h : textRest.run cs = some (text, after)) :
    (tokenRest '"').run cs = some (.text (String.ofList text), after) := by
  have hmark : Mark.ofChar? '"' = none := by decide
  have hstart : isNameStart '"' = false ∧ isNumberStart '"' = false := by decide
  rw [tokenRest, hmark]
  simp only [hstart.1, hstart.2, if_neg Bool.false_ne_true, if_pos trivial]
  rw [Rule.run_bind, h]
  rfl

end Reading

end SemanticNullability.Sdl
