import SemanticNullability.Proofs.Lexing
import SemanticNullability.Proofs.WholeText
import SemanticNullability.Sdl.Piece
/-!
# Reading written pieces

`Piece.reading?` is what a reader makes of a written piece: the token that it stands for, but for
texts and floating-point values, which may come back as others or, if the number is too large, not at
all. Pieces lex (`Lexes`) when their characters are read so in front of whatever ends a token. This
composes as long as a name, a number or a text is followed by something that ends it (`Separated`).
-/
namespace SemanticNullability.Sdl

/-! ## What is read of a piece -/

def isNameText : List Char → Bool
  | [] => false
  | c :: cs => isNameStart c && cs.all isNameChar

/-- A text that can be read as a name. -/
def IsName (n : String) : Prop := isNameText n.toList = true

instance (n : String) : Decidable (IsName n) := inferInstanceAs (Decidable (_ = _))

/-- The token that is read of a floating-point value. Infinity is written like a name. -/
def readFloat? : Binary64 → Option Token
  | .infinite false => some (.name "inf")
  | x => (number? x.text).map Number.token

namespace Piece

/-- The tokens that are read of a piece; nothing can be read behind a piece that has none. -/
def reading? : Piece → Option (List Token)
  | mark m => some [.mark m]
  | name n => some [.name n]
  | int n => some [.int n]
  | float x => (readFloat? x).map fun t => [t]
  | text _ s => some [.text (String.ofList (rereadText s.toList))]
  | gap _ => some []

def readings? : List Piece → Option (List Token)
  | [] => some []
  | p :: ps => p.reading?.bind fun ts => (readings? ps).map fun us => ts ++ us

/-- A piece whose floating-point value, if it is one, is the one of its significand and exponent. -/
def IsCanonical : Piece → Prop
  | float x => x.IsCanonical
  | _ => True

/-- Whether a piece ends whatever token stands before it. -/
def isBreak : Piece → Bool
  | mark _ => true
  | gap (c :: _) => endsNumber c
  | _ => false

end Piece

open Piece

abbrev charsOf (ps : List Piece) : List Char := ps.flatMap Piece.chars

/-- In front of something that ends a token, the pieces are read one after the other. -/
structure Lexes (ps : List Piece) : Prop where
  run : ∀ after, Ends after → tokens.run (charsOf ps ++ after) =
    (readings? ps).bind fun ts => (tokens.run after).map fun (us, rest) => (ts ++ us, rest)
  isCanonical : ∀ p ∈ ps, p.IsCanonical

/-- The pieces, with what follows them, end the token before them. -/
def Separated (ps : List Piece) : Prop := ∀ after, Ends after → Ends (charsOf ps ++ after)

section Composition

variable {p : Piece} {ps qs : List Piece}

theorem readings?_append (ps qs : List Piece) :
    readings? (ps ++ qs) =
      (readings? ps).bind fun ts => (readings? qs).map fun us => ts ++ us := by
  induction ps with
  | nil => cases h : readings? qs <;> simp [readings?, h]
  | cons p ps ih =>
    rw [List.cons_append, readings?, ih, readings?]
    cases p.reading? <;> cases readings? ps <;> cases readings? qs <;> simp

theorem separated_nil : Separated [] := fun _ h => h

theorem separated_cons (h : p.isBreak = true) (ps : List Piece) : Separated (p :: ps) := by
  intro after _
  cases p with
  | mark m => exact ends_cons (endsNumber_char m) _
  | gap blanks =>
    cases blanks with
    | nil => cases h
    | cons c blanks => exact ends_cons h _
  | name n => cases h
  | int n => cases h
  | float x => cases h
  | text level s => cases h

theorem Separated.append (hps : Separated ps) (hqs : Separated qs) : Separated (ps ++ qs) := by
  intro after h
  rw [charsOf, List.flatMap_append, List.append_assoc]
  exact hps _ (hqs _ h)

theorem lexes_nil : Lexes [] := by
  refine ⟨fun after _ => ?_, fun p hp => absurd hp List.not_mem_nil⟩
  cases h : tokens.run after <;> simp [readings?, charsOf, h]

/-- Pieces lex one behind the other. -/
theorem Lexes.append (hps : Lexes ps) (hqs : Lexes qs) (h : Separated qs) : Lexes (ps ++ qs) := by
  refine ⟨fun after hafter => ?_, fun p hp =>
    (List.mem_append.1 hp).elim (hps.isCanonical p) (hqs.isCanonical p)⟩
  rw [charsOf, List.flatMap_append, List.append_assoc, hps.run _ (h after hafter), hqs.run after hafter,
    readings?_append]
  cases readings? ps <;> cases readings? qs <;> cases tokens.run after <;> simp

/-- A mark is read whatever follows. -/
theorem Lexes.mark (m : Mark) (h : Lexes ps) : Lexes (.mark m :: ps) := by
  refine ⟨fun after hafter => ?_, List.forall_mem_cons.2 ⟨trivial, h.isCanonical⟩⟩
  have hread : tokens.run (m.char :: (charsOf ps ++ after)) = _ :=
    tokens_run_cons (beginsToken_char m) (tokenRest_mark m _)
  rw [charsOf, List.flatMap_cons, Piece.chars, List.singleton_append, List.cons_append, hread,
    h.run after hafter, readings?]
  cases readings? ps <;> cases tokens.run after <;> simp [reading?]

/-- A gap counts for nothing, whatever follows. -/
theorem Lexes.gap {blanks : List Char} (hblanks : blanks.all isIgnored = true) (h : Lexes ps) :
    Lexes (.gap blanks :: ps) := by
  have hskip : ∀ rest, tokens.run (blanks ++ rest) = tokens.run rest := by
    intro rest
    induction blanks with
    | nil => rfl
    | cons c blanks ih =>
      obtain ⟨hc, hrest⟩ := Bool.and_eq_true_iff.1 hblanks
      rw [List.cons_append, tokens_run_ignored hc, ih hrest]
  refine ⟨fun after hafter => ?_, List.forall_mem_cons.2 ⟨trivial, h.isCanonical⟩⟩
  rw [charsOf, List.flatMap_cons, Piece.chars, List.append_assoc, hskip, h.run after hafter, readings?]
  cases readings? ps <;> simp [reading?]

theorem lexes_name {n : String} (h : IsName n) : Lexes [.name n] := by
  refine ⟨fun after hafter => ?_, fun p hp => List.mem_singleton.1 hp ▸ trivial⟩
  rw [IsName] at h
  match hn : n.toList, h with
  | c :: cs, h =>
    obtain ⟨hc, hcs⟩ := Bool.and_eq_true_iff.1 h
    have hread := tokenRest_name hc (List.all_eq_true.1 hcs) hafter
    have hname : String.ofList (c :: cs) = n := by rw [← hn, String.ofList_toList]
    rw [charsOf, List.flatMap_singleton, Piece.chars, hn, List.cons_append,
      tokens_run_cons (beginsToken_of_isNameStart hc) hread, hname]
    rfl

theorem lexes_text (level : Nat) (s : String) : Lexes [.text level s] := by
  refine ⟨fun after hafter => ?_, fun p hp => List.mem_singleton.1 hp ▸ trivial⟩
  have hquote : after.head? ≠ some '"' := by
    intro h
    have := hafter '"' h
    rw [endsNumber_quote] at this
    cases this
  obtain ⟨written, hwritten, hread⟩ := textRest_run level s.toList hquote
  rw [charsOf, List.flatMap_singleton, Piece.chars, hwritten, List.cons_append,
    tokens_run_cons (by decide) (tokenRest_quote hread)]
  rfl

end Composition

/-! ## Numbers -/

section Numbers

theorem endsNumber_of_isDigit {c : Char} (h : c.isDigit = true) : endsNumber c = false := by
  by_contra hnot
  have := isNameChar_of_endsNumber (Bool.not_eq_false _ ▸ hnot)
  simp [isNameChar, Char.isAlphanum, h] at this

/-- The characters of a number: a sign or a digit first, and nothing that ends the number. -/
def IsNumberText (cs : List Char) : Prop :=
  ∃ c ds, cs = c :: ds ∧ isNumberStart c = true ∧ ∀ d ∈ ds, endsNumber d = false

theorem isNumberText_signed (negative : Bool) {cs : List Char} (hne : cs ≠ [])
    (hfirst : ∀ c ∈ cs.head?, c.isDigit = true) (hcs : ∀ d ∈ cs, endsNumber d = false) :
    IsNumberText (signed negative cs) := by
  cases negative with
  | true => exact ⟨'-', cs, rfl, by decide, hcs⟩
  | false =>
    obtain ⟨c, ds, rfl⟩ := List.exists_cons_of_ne_nil hne
    refine ⟨c, ds, rfl, ?_, fun d hd => hcs d (List.mem_cons_of_mem c hd)⟩
    rw [isNumberStart, hfirst c rfl, Bool.or_true]

theorem isNumberText_intText (n : Int64) : IsNumberText (intText n) := by
  rw [intText_eq]
  refine isNumberText_signed _ (digitsOfNat_ne_nil _) (fun c hc => ?_) fun d hd => ?_
  · exact isDigit_of_mem_digitsOfNat (List.mem_of_mem_head? hc)
  · exact endsNumber_of_isDigit (isDigit_of_mem_digitsOfNat hd)

theorem chars_decimalText (d : Decimal) :
    d.text ≠ [] ∧ (∀ c ∈ d.text.head?, c.isDigit = true) ∧ ∀ c ∈ d.text, endsNumber c = false := by
  obtain ⟨digits, exponent⟩ := d
  have hdigits : ∀ cs : List Char, cs ≠ [] → (∀ c ∈ cs, c.isDigit = true) →
      cs ≠ [] ∧ (∀ c ∈ cs.head?, c.isDigit = true) ∧ ∀ c ∈ cs, endsNumber c = false :=
    fun cs hne h => ⟨hne, fun c hc => h c (List.mem_of_mem_head? hc),
      fun c hc => endsNumber_of_isDigit (h c hc)⟩
  cases exponent with
  | ofNat zeros =>
    refine hdigits _ (List.append_ne_nil_of_left_ne_nil (digitsOfNat_ne_nil digits) _) fun c hc => ?_
    rcases List.mem_append.1 hc with hc | hc
    · exact isDigit_of_mem_digitsOfNat hc
    · rw [List.eq_of_mem_replicate hc]
      rfl
  | negSucc p =>
    obtain ⟨whole, fraction, hsplit⟩ := Decimal.exists_isSplit digits (p + 1)
    have hne : whole ≠ [] := by
      rintro rfl
      cases hsplit.isWholePart
    obtain ⟨-, hhead, hends⟩ := hdigits whole hne hsplit.wholeDigits
    have htext : Decimal.text ⟨digits, .negSucc p⟩ =
        if fraction.isEmpty then whole else whole ++ '.' :: fraction := hsplit.text
    rw [htext]
    split_ifs
    · exact ⟨hne, hhead, hends⟩
    · refine ⟨List.append_ne_nil_of_left_ne_nil hne _, ?_, fun c hc => ?_⟩
      · rwa [List.head?_append_of_ne_nil _ hne]
      · rcases List.mem_append.1 hc with hc | hc
        · exact hends c hc
        · rcases List.mem_cons.1 hc with rfl | hc
          · decide
          · exact endsNumber_of_isDigit (hsplit.fractionDigits c hc)

theorem isNumberText_finite (negative : Bool) (m : Nat) (e : Int) :
    IsNumberText (Binary64.finite negative m e).text := by
  obtain ⟨hne, hhead, hends⟩ :=
    chars_decimalText (Binary64.shortest (.finite negative m e) m e)
  rw [Binary64.text_finite]
  exact isNumberText_signed negative hne hhead hends

/-- The characters of a number are read as a whole, if they are a number. -/
theorem tokens_run_number {cs after : List Char} (h : IsNumberText cs) (hafter : Ends after) :
    tokens.run (cs ++ after) = ((number? cs).map Number.token).bind fun t =>
      (tokens.run after).map fun (us, rest) => (t :: us, rest) := by
  obtain ⟨c, ds, rfl, hc, hds⟩ := h
  have hrest := tokenRest_number hc hds hafter
  have hbegin := beginsToken_of_isNumberStart hc
  cases hn : number? (c :: ds) with
  | none =>
    rw [hn] at hrest
    rw [List.cons_append, tokens_run_refused hbegin hrest]
    rfl
  | some n =>
    rw [hn] at hrest
    rw [List.cons_append, tokens_run_cons hbegin hrest]
    rfl

theorem lexes_int (n : Int64) : Lexes [.int n] := by
  refine ⟨fun after hafter => ?_, fun p hp => List.mem_singleton.1 hp ▸ trivial⟩
  rw [charsOf, List.flatMap_singleton, Piece.chars,
    tokens_run_number (isNumberText_intText n) hafter, number?_intText]
  rfl

theorem lexes_float {x : Binary64} (hx : x.IsCanonical) : Lexes [.float x] := by
  refine ⟨fun after hafter => ?_, fun p hp => List.mem_singleton.1 hp ▸ hx⟩
  clear hx
  rw [charsOf, List.flatMap_singleton, Piece.chars]
  have hnumber : IsNumberText x.text → readFloat? x = (number? x.text).map Number.token →
      tokens.run (x.text ++ after) = (readings? [.float x]).bind fun ts =>
        (tokens.run after).map fun (us, rest) => (ts ++ us, rest) := by
    intro htext hread
    rw [tokens_run_number htext hafter, readings?, reading?, hread]
    cases (number? x.text).map Number.token <;> rfl
  have hinf : ∀ d ∈ ['i', 'n', 'f'], endsNumber d = false := List.forall_mem_cons.2 ⟨by decide,
    List.forall_mem_cons.2 ⟨by decide, List.forall_mem_singleton.2 (by decide)⟩⟩
  cases x with
  | finite negative m e => exact hnumber (isNumberText_finite negative m e) rfl
  | infinite negative =>
    cases negative with
    | true => exact hnumber ⟨'-', ['i', 'n', 'f'], rfl, by decide, hinf⟩ rfl
    | false =>
      have hread : (tokenRest 'i').run (['n', 'f'] ++ after) = _ :=
        tokenRest_name (by decide) (List.forall_mem_cons.2 ⟨by decide,
          List.forall_mem_singleton.2 (by decide)⟩) hafter
      exact tokens_run_cons (c := 'i') (by decide) hread

end Numbers

/-! ## Pieces that come back as they were -/

abbrev tokensOf (ps : List Piece) : List Token := ps.filterMap Piece.token?

namespace Piece

def returned : Piece → Piece
  | float x =>
    match readFloat? x with
    | some (.int n) => int n
    | some (.float y) => float y
    | some (.name n) => name n
    | _ => float x
  | text level s => text level (String.ofList (rereadText s.toList))
  | p => p

/-- A piece that something can be read of. -/
def IsReadable : Piece → Prop
  | float x => (readFloat? x).isSome = true
  | _ => True

/-- A piece that is read as it was written: a text that survives, a value that is not whole. -/
def IsKept : Piece → Prop
  | float x => x.isFractional = true
  | text _ s => KeepsText s.toList
  | _ => True

instance (p : Piece) : Decidable p.IsKept := by
  cases p <;> unfold IsKept <;> infer_instance

/-- Nothing but numbers and infinity is read of a floating-point value. -/
theorem readFloat?_cases {x : Binary64} {t : Token} (h : readFloat? x = some t) :
    (∃ n, t = .int n) ∨ (∃ y, t = .float y) ∨ t = .name "inf" := by
  unfold readFloat? at h
  split at h
  · cases h
    exact Or.inr (Or.inr rfl)
  · obtain ⟨n, _, rfl⟩ := Option.map_eq_some_iff.1 h
    cases n with
    | int n => exact Or.inl ⟨n, rfl⟩
    | float y => exact Or.inr (Or.inl ⟨y, rfl⟩)

theorem reading?_eq {p : Piece} (h : p.IsReadable) : p.reading? = some p.returned.token?.toList := by
  cases p with
  | float x =>
    obtain ⟨t, ht⟩ := Option.isSome_iff_exists.1 h
    rw [reading?, returned, ht]
    rcases readFloat?_cases ht with ⟨n, rfl⟩ | ⟨y, rfl⟩ | rfl <;> rfl
  | _ => rfl

theorem tokensOf_cons (p : Piece) (ps : List Piece) :
    tokensOf (p :: ps) = p.token?.toList ++ tokensOf ps := by
  rw [tokensOf, List.filterMap_cons]
  cases p.token? <;> rfl

/-- Of readable pieces the tokens of what comes back are read. -/
theorem readings?_eq {ps : List Piece} (h : ∀ p ∈ ps, p.IsReadable) :
    readings? ps = some (tokensOf (ps.map returned)) := by
  induction ps with
  | nil => rfl
  | cons p ps ih =>
    rw [readings?, reading?_eq (h p List.mem_cons_self), Option.bind_some,
      ih fun q hq => h q (List.mem_cons_of_mem p hq), Option.map_some, List.map_cons, tokensOf_cons]

theorem isReadable_of_readings? {ps : List Piece} {ts : List Token} (h : readings? ps = some ts) :
    ∀ p ∈ ps, p.IsReadable := by
  induction ps generalizing ts with
  | nil => exact fun p hp => absurd hp List.not_mem_nil
  | cons p ps ih =>
    obtain ⟨us, hp, hrest⟩ := Option.bind_eq_some_iff.1 h
    obtain ⟨vs, hps, -⟩ := Option.map_eq_some_iff.1 hrest
    refine List.forall_mem_cons.2 ⟨?_, ih hps⟩
    cases p with
    | float x =>
      obtain ⟨t, ht, -⟩ := Option.map_eq_some_iff.1 hp
      rw [IsReadable, ht]
      rfl
    | _ => trivial

theorem readFloat?_eq_self_iff {x : Binary64} (hx : x.IsCanonical) :
    readFloat? x = some (.float x) ↔ x.isFractional = true := by
  constructor
  · intro h
    by_contra hwhole
    match x, h with
    | .infinite true, h => cases h
    | .finite negative m e, h =>
      obtain ⟨n, hn, htoken⟩ := Option.map_eq_some_iff.1 h
      cases n with
      | int n => cases htoken
      | float y => exact Binary64.number?_text_of_whole hx (Bool.not_eq_true _ ▸ hwhole) y hn
  · intro h
    obtain ⟨negative, m, e, rfl, -⟩ := Binary64.isFractional_eq_true_iff.1 h
    exact congrArg (Option.map Number.token) (Binary64.number?_text hx h)

/-- What is kept comes back. -/
theorem IsKept.returned_eq {p : Piece} (hp : p.IsCanonical) (h : p.IsKept) :
    p.IsReadable ∧ p.returned = p := by
  cases p with
  | float x =>
    have hread := (readFloat?_eq_self_iff hp).2 h
    exact ⟨by rw [IsReadable, hread]; rfl, by rw [returned, hread]⟩
  | text level s =>
    refine ⟨trivial, ?_⟩
    rw [returned, (rereadText_eq_self_iff _).2 h, String.ofList_toList]
  | mark m => exact ⟨trivial, rfl⟩
  | name n => exact ⟨trivial, rfl⟩
  | int n => exact ⟨trivial, rfl⟩
  | gap blanks => exact ⟨trivial, rfl⟩

/-- What comes back is kept. -/
theorem isKept_of_returned_eq {p : Piece} (hp : p.IsCanonical) (hread : p.IsReadable)
    (h : p.returned = p) : p.IsKept := by
  cases p with
  | float x =>
    obtain ⟨t, ht⟩ := Option.isSome_iff_exists.1 hread
    rw [returned, ht] at h
    rcases readFloat?_cases ht with ⟨n, rfl⟩ | ⟨y, rfl⟩ | rfl
    · cases h
    · cases h
      exact (readFloat?_eq_self_iff hp).1 ht
    · cases h
  | text level s =>
    refine (rereadText_eq_self_iff _).1 ?_
    obtain ⟨-, hs⟩ := text.inj h
    exact String.toList_ofList.symm.trans (congrArg String.toList hs)
  | _ => trivial

end Piece

end SemanticNullability.Sdl
