import Mathlib.Tactic.IntervalCases
import SemanticNullability.Proofs.Digits
import SemanticNullability.Sdl.Piece
/-!
# Quoted text reads back

What is written between quotes is always read, but not always as it was: the characters that are
numbered are numbered in decimal and read in hexadecimal, by four digits. `requote` is what comes
back (`readQuoted_flatMap`), and it is the text itself exactly if every character is plain or has
a code point of one decimal digit (`requote_eq_self_iff`).
-/
namespace SemanticNullability.Sdl

/-! ## Numbered characters -/

theorem hexValue?_of_isDigit {c : Char} (h : c.isDigit = true) :
    hexValue? c = some (c.toNat - '0'.toNat) := by
  rw [Char.isDigit, Bool.and_eq_true, decide_eq_true_iff, decide_eq_true_iff] at h
  exact if_pos h

theorem hexNumber?_of_isDigit {ds : List Char} (h : ∀ c ∈ ds, c.isDigit = true) (n : Nat) :
    hexNumber? n ds = some (Nat.ofDigitChars 16 ds n) := by
  induction ds generalizing n with
  | nil => rfl
  | cons c cs ih =>
    rw [hexNumber?, hexValue?_of_isDigit (h c List.mem_cons_self), Option.bind_some,
      ih fun d hd => h d (List.mem_cons_of_mem c hd), Nat.ofDigitChars_cons]

theorem toNat_sub_le_of_isDigit {c : Char} (h : c.isDigit = true) : c.toNat - '0'.toNat ≤ 9 := by
  rw [Char.isDigit, Bool.and_eq_true, decide_eq_true_iff, decide_eq_true_iff] at h
  have : c.val.toNat ≤ 57 := h.2
  show c.val.toNat - 48 ≤ 9
  omega

/-- Four decimal digits are a code point below the surrogates. -/
theorem codePoint?_of_isDigit {a b c d : Char} (ha : a.isDigit = true) (hb : b.isDigit = true)
    (hc : c.isDigit = true) (hd : d.isDigit = true) :
    ∃ e, codePoint? a b c d = some e ∧ e.toNat = Nat.ofDigitChars 16 [a, b, c, d] 0 := by
  have hplus : a ≠ '+' := by
    rintro rfl
    cases ha
  have hdigits : ∀ x ∈ [a, b, c, d], x.isDigit = true := by
    simp [ha, hb, hc, hd]
  have hvalid : (Nat.ofDigitChars 16 [a, b, c, d] 0).isValidChar := by
    have := toNat_sub_le_of_isDigit ha
    have := toNat_sub_le_of_isDigit hb
    have := toNat_sub_le_of_isDigit hc
    have := toNat_sub_le_of_isDigit hd
    simp only [Nat.ofDigitChars_cons, Nat.ofDigitChars_nil]
    exact Or.inl (by omega)
  refine ⟨Char.ofNatAux _ hvalid, ?_, rfl⟩
  rw [codePoint?, if_neg hplus, hexNumber?_of_isDigit hdigits, Option.bind_some, dif_pos hvalid]

theorem isDigit_of_mem_codePointDigits {c d : Char} (h : d ∈ codePointDigits c) :
    d.isDigit = true :=
  isDigit_of_mem_zeros_append h

/-- There are at least four digits. -/
theorem exists_codePointDigits (c : Char) :
    ∃ d₁ d₂ d₃ d₄ rest, codePointDigits c = d₁ :: d₂ :: d₃ :: d₄ :: rest := by
  have hlength : 4 ≤ (codePointDigits c).length := by
    rw [codePointDigits, List.length_append, List.length_replicate]
    omega
  match hds : codePointDigits c, hlength with
  | d₁ :: d₂ :: d₃ :: d₄ :: rest, _ => exact ⟨d₁, d₂, d₃, d₄, rest, rfl⟩

/-! ## Reading what was written -/

/-- What is read of a character that was written between quotes. -/
def requoteChar (c : Char) : List Char :=
  if isPlain c then [c]
  else
    match codePointDigits c with
    | d₁ :: d₂ :: d₃ :: d₄ :: rest => (codePoint? d₁ d₂ d₃ d₄).toList ++ rest
    | _ => []

def requote (cs : List Char) : List Char := cs.flatMap requoteChar

theorem readQuoted_cons {c : Char} (hquote : c ≠ '"') (hline : c ≠ '\n') (hslash : c ≠ '\\')
    (rest : List Char) :
    readQuoted (c :: rest) = (readQuoted rest).map fun (cs, r) => (c :: cs, r) := by
  rw [readQuoted]
  · exact fun h => hquote h
  · exact fun h => hline h
  · exact fun _ _ _ _ _ h => absurd h hslash
  · exact fun _ _ h => absurd h hslash

/-- The escapes of one letter. -/
theorem readQuoted_escape {c e : Char} (h : escapedChar? c = some e) (rest : List Char) :
    readQuoted ('\\' :: c :: rest) = (readQuoted rest).map fun (cs, r) => (e :: cs, r) := by
  rw [readQuoted, h, Option.bind_some]
  rintro a b d f r rfl
  cases h

theorem readQuoted_digits {ds : List Char} (h : ∀ c ∈ ds, c.isDigit = true) (rest : List Char) :
    readQuoted (ds ++ rest) = (readQuoted rest).map fun (cs, r) => (ds ++ cs, r) := by
  induction ds with
  | nil =>
    cases hrest : readQuoted rest <;> simp [hrest]
  | cons c ds ih =>
    have hc := h c List.mem_cons_self
    rw [List.cons_append, readQuoted_cons, ih fun d hd => h d (List.mem_cons_of_mem c hd),
      Option.map_map]
    · rfl
    all_goals
      rintro rfl
      cases hc

theorem readQuoted_quoteChar (c : Char) (rest : List Char) :
    readQuoted (quoteChar c ++ rest) =
      (readQuoted rest).map fun (cs, r) => (requoteChar c ++ cs, r) := by
  by_cases hplain : isPlain c = true
  · rw [requoteChar, if_pos hplain, quoteChar]
    split_ifs with hr hn ht hquote hslash hrange
    · rw [hr]; exact readQuoted_escape rfl rest
    · rw [hn]; exact readQuoted_escape rfl rest
    · rw [ht]; exact readQuoted_escape rfl rest
    · rw [hquote]; exact readQuoted_escape rfl rest
    · rw [hslash]; exact readQuoted_escape rfl rest
    · exact readQuoted_cons hquote hn hslash rest
    · simp [isPlain, hr, hn, ht, hrange] at hplain
  · obtain ⟨d₁, d₂, d₃, d₄, tail, hds⟩ := exists_codePointDigits c
    have hdigits : ∀ d ∈ d₁ :: d₂ :: d₃ :: d₄ :: tail, d.isDigit = true :=
      fun d hd => isDigit_of_mem_codePointDigits (c := c) (hds ▸ hd)
    obtain ⟨e, he, -⟩ := codePoint?_of_isDigit (hdigits d₁ (by simp)) (hdigits d₂ (by simp))
      (hdigits d₃ (by simp)) (hdigits d₄ (by simp))
    have hwritten : quoteChar c = '\\' :: 'u' :: d₁ :: d₂ :: d₃ :: d₄ :: tail := by
      rw [← hds, quoteChar]
      split_ifs with hr hn ht hquote hslash hrange
      · exact absurd (by rw [hr]; decide) hplain
      · exact absurd (by rw [hn]; decide) hplain
      · exact absurd (by rw [ht]; decide) hplain
      · exact absurd (by rw [hquote]; decide) hplain
      · exact absurd (by rw [hslash]; decide) hplain
      · exact absurd (by simp [isPlain, hrange]) hplain
      · rfl
    rw [requoteChar, if_neg hplain, hds, hwritten]
    simp only [List.cons_append]
    rw [readQuoted, he, Option.bind_some,
      readQuoted_digits fun d hd => hdigits d (by simp [hd]), Option.map_map]
    rfl

/-- **What is written between quotes is read.** -/
theorem readQuoted_flatMap (cs rest : List Char) :
    readQuoted (cs.flatMap quoteChar ++ '"' :: rest) = some (requote cs, rest) := by
  induction cs with
  | nil => rfl
  | cons c cs ih =>
    rw [List.flatMap_cons, List.append_assoc, readQuoted_quoteChar, ih]
    rfl

/-! ## The characters that are kept -/

/-- A character that stands as it is between quotes, or whose number is the same in decimal and in
hexadecimal. -/
def isQuotable (c : Char) : Bool := isPlain c || c.toNat < 9

theorem length_requoteChar_pos (c : Char) : 0 < (requoteChar c).length := by
  rw [requoteChar]
  split_ifs
  · exact Nat.one_pos
  · obtain ⟨d₁, d₂, d₃, d₄, tail, hds⟩ := exists_codePointDigits c
    have hdigits : ∀ d ∈ d₁ :: d₂ :: d₃ :: d₄ :: tail, d.isDigit = true :=
      fun d hd => isDigit_of_mem_codePointDigits (c := c) (hds ▸ hd)
    obtain ⟨e, he, -⟩ := codePoint?_of_isDigit (hdigits d₁ (by simp)) (hdigits d₂ (by simp))
      (hdigits d₃ (by simp)) (hdigits d₄ (by simp))
    rw [hds]
    simp [he]

/-- Behind the last four digits of a large number more digits follow. -/
theorem requoteChar_ne_of_large {c : Char} (h : 0xFFFF < c.toNat) : requoteChar c ≠ [c] := by
  have hplain : isPlain c ≠ true := by
    intro hp
    simp only [isPlain, Bool.or_eq_true, beq_iff_eq, Bool.and_eq_true, decide_eq_true_eq] at hp
    rcases hp with ((rfl | rfl) | rfl) | hp
    · exact absurd h (by decide)
    · exact absurd h (by decide)
    · exact absurd h (by decide)
    · omega
  obtain ⟨d₁, d₂, d₃, d₄, tail, hds⟩ := exists_codePointDigits c
  have hdigits : ∀ d ∈ d₁ :: d₂ :: d₃ :: d₄ :: tail, d.isDigit = true :=
    fun d hd => isDigit_of_mem_codePointDigits (c := c) (hds ▸ hd)
  obtain ⟨e, he, -⟩ := codePoint?_of_isDigit (hdigits d₁ (by simp)) (hdigits d₂ (by simp))
    (hdigits d₃ (by simp)) (hdigits d₄ (by simp))
  have hlong : 4 < (codePointDigits c).length := by
    have := (Nat.length_toDigits_le_iff (b := 10) (n := c.toNat) (k := 4) (by decide) (by decide)).not.2
      (by omega)
    rw [codePointDigits, List.length_append, digitsOfNat]
    omega
  intro heq
  rw [requoteChar, if_neg hplain, hds] at heq
  have hlength := congrArg List.length heq
  simp only [he, Option.toList_some, List.length_append, List.length_singleton] at hlength
  rw [hds] at hlong
  simp only [List.length_cons] at hlong
  omega

theorem requoteChar_eq_self_iff (c : Char) : requoteChar c = [c] ↔ isQuotable c = true := by
  by_cases hplain : isPlain c = true
  · simp [requoteChar, isQuotable, hplain]
  · by_cases hlarge : 0xFFFF < c.toNat
    · have hnot : isQuotable c = false := by
        simp [isQuotable, hplain]
        omega
      rw [hnot]
      simpa using requoteChar_ne_of_large hlarge
    · have hsmall : c.toNat < 32 := by
        by_contra hge
        exact hplain (by simp [isPlain]; omega)
      have hall : ∀ n : Fin 32, requoteChar (Char.ofNat n) = [Char.ofNat n] ↔
          isQuotable (Char.ofNat n) = true := by decide +kernel
      have hc := hall ⟨c.toNat, hsmall⟩
      rwa [Char.ofNat_toNat] at hc

/-- **Which texts survive between quotes.** -/
theorem requote_eq_self_iff (cs : List Char) : requote cs = cs ↔ ∀ c ∈ cs, isQuotable c = true := by
  have hlength : ∀ l : List Char, l.length ≤ (requote l).length := by
    intro l
    induction l with
    | nil => exact Nat.le_refl _
    | cons c l ih =>
      have := length_requoteChar_pos c
      rw [requote, List.flatMap_cons, List.length_append, List.length_cons]
      rw [requote] at ih
      omega
  induction cs with
  | nil => simp [requote]
  | cons c cs ih =>
    have hcons : (∀ d ∈ c :: cs, isQuotable d = true) ↔
        requoteChar c = [c] ∧ requote cs = cs :=
      List.forall_mem_cons.trans (and_congr (requoteChar_eq_self_iff c) ih).symm
    refine Iff.trans ?_ hcons.symm
    constructor
    · intro h
      have hboth : requoteChar c ++ requote cs = [c] ++ cs := h
      have hone : (requoteChar c).length = 1 := by
        have hsum := congrArg List.length hboth
        have hpos := length_requoteChar_pos c
        have hrest := hlength cs
        rw [List.length_append, List.length_append, List.length_singleton] at hsum
        omega
      exact List.append_inj hboth hone
    · rintro ⟨hc, hcs⟩
      show requoteChar c ++ requote cs = c :: cs
      rw [hc, hcs]
      rfl

example : requote ['a', '\x1f'] = ['a', '1'] := by decide +kernel

end SemanticNullability.Sdl
