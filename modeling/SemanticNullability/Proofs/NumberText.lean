import Mathlib.Tactic.SplitIfs
import SemanticNullability.Proofs.Rounding
/-!
# The text of a number

An integer reads back as it was. So does a floating-point value with a fraction, in whatever
notation it was written first (`number?_text`): its fewest digits have a point, and the zeros that
are dropped behind them change nothing.
-/
namespace SemanticNullability

/-- A run of one kind ends where something else follows. -/
theorem takeWhile_dropWhile_append {α : Type} {p : α → Bool} {run rest : List α}
    (hrun : ∀ x ∈ run, p x = true) (hrest : ∀ x ∈ rest.head?, p x = false) :
    (run ++ rest).takeWhile p = run ∧ (run ++ rest).dropWhile p = rest := by
  rw [List.takeWhile_append_of_pos hrun, List.dropWhile_append_of_pos hrun]
  cases rest with
  | nil => exact ⟨List.append_nil run, rfl⟩
  | cons x rest =>
    have hx : ¬p x = true := by simp [hrest x rfl]
    rw [List.takeWhile_cons_of_neg hx, List.dropWhile_cons_of_neg hx]
    exact ⟨List.append_nil run, rfl⟩

end SemanticNullability

namespace SemanticNullability.Sdl

/-! ## Digits, sign and point -/

section Parts

variable {negative : Bool} {whole tail fraction : List Char}

/-- Digits with the sign of a negative number. -/
def signed (negative : Bool) (cs : List Char) : List Char := if negative then '-' :: cs else cs

/-- The sign is read before the digits. -/
theorem number?_signed (negative : Bool) {cs : List Char} (h : cs.head? ≠ some '-') :
    number? (signed negative cs) = unsignedNumber? negative cs := by
  cases negative with
  | true => rfl
  | false =>
    rw [signed, if_neg Bool.false_ne_true]
    match cs, h with
    | [], _ => rfl
    | c :: cs, h =>
      rw [number?]
      rintro rest heq
      cases heq
      exact h rfl

theorem head?_ne_minus (h : ∀ c ∈ whole, c.isDigit = true) : whole.head? ≠ some '-' := by
  intro hhead
  have := h '-' (List.mem_of_mem_head? hhead)
  cases this

/-- The digits before the point are read up to what is no digit. -/
theorem unsignedNumber?_append (hdigits : ∀ c ∈ whole, c.isDigit = true)
    (hpart : isWholePart whole = true) (htail : ∀ c ∈ tail.head?, c.isDigit = false) :
    unsignedNumber? negative (whole ++ tail) = numberTail? negative whole tail := by
  obtain ⟨htake, hdrop⟩ := takeWhile_dropWhile_append hdigits htail
  rw [unsignedNumber?, htake, hdrop, if_pos hpart]

/-- Digits behind a point make a floating-point number. -/
theorem numberTail?_point (hne : fraction ≠ []) (hdigits : ∀ c ∈ fraction, c.isDigit = true) :
    numberTail? negative whole ('.' :: fraction) = some (.float (floatOf negative whole fraction 0)) := by
  have htake : fraction.takeWhile Char.isDigit = fraction := List.takeWhile_eq_self_iff.2 hdigits
  have hdrop : fraction.dropWhile Char.isDigit = [] := List.dropWhile_eq_nil_iff.2 hdigits
  rw [numberTail?, htake, hdrop]
  exact if_neg (by simpa using hne)

end Parts

/-! ## Integers -/

theorem intText_eq (n : Int64) :
    intText n = signed (decide (n.toInt < 0)) (digitsOfNat n.toInt.natAbs) := by
  by_cases h : n.toInt < 0 <;> simp [intText, signed, h]

/-- **An integer reads back.** -/
theorem number?_intText (n : Int64) : number? (intText n) = some (.int n) := by
  have hdigits : ∀ c ∈ digitsOfNat n.toInt.natAbs, c.isDigit = true :=
    fun _ => isDigit_of_mem_digitsOfNat
  have hvalue : (if decide (n.toInt < 0) = true then -(n.toInt.natAbs : Int) else n.toInt.natAbs) =
      n.toInt := by
    split_ifs with h
    · have := of_decide_eq_true h
      omega
    · have : ¬n.toInt < 0 := by simpa using h
      omega
  rw [intText_eq, number?_signed _ (head?_ne_minus hdigits), ← List.append_nil (digitsOfNat _),
    unsignedNumber?_append hdigits (isWholePart_digitsOfNat _) (by simp), numberTail?]
  simp only [intOf?, natOfDigits_digitsOfNat, hvalue]
  rw [if_pos ⟨n.minValue_le_toInt, n.toInt_le⟩, Int64.ofInt_toInt]
  rfl

end SemanticNullability.Sdl

namespace SemanticNullability

/-! ## Digits around a point -/

/-- The digits of a decimal number before and behind the point. -/
structure Decimal.IsSplit (digits places : Nat) (whole fraction : List Char) : Prop where
  text : Decimal.fractionText digits places =
    if fraction.isEmpty then whole else whole ++ '.' :: fraction
  isWholePart : Sdl.isWholePart whole = true
  wholeDigits : ∀ c ∈ whole, c.isDigit = true
  fractionDigits : ∀ c ∈ fraction, c.isDigit = true
  /-- The zeros that are left out at the end count as places. -/
  value : ∃ k, fraction.length + k = places ∧ natOfDigits (whole ++ fraction) * 10 ^ k = digits

/-- Digits with zeros before them, so that at least one stands before the point. -/
def Decimal.padded (digits places : Nat) : List Char :=
  List.replicate (places + 1 - (digitsOfNat digits).length) '0' ++ digitsOfNat digits

namespace Decimal

theorem isDigit_of_mem_padded {digits places : Nat} {c : Char} (h : c ∈ padded digits places) :
    c.isDigit = true :=
  isDigit_of_mem_zeros_append h

theorem lt_length_padded (digits places : Nat) : places < (padded digits places).length := by
  rw [padded, List.length_append, List.length_replicate]
  omega

/-- The digits before the point are those of a number or a single zero. -/
theorem isWholePart_take_padded (digits places : Nat) :
    Sdl.isWholePart ((padded digits places).take ((padded digits places).length - places)) = true := by
  rw [padded, List.length_append, List.length_replicate]
  by_cases hshort : (digitsOfNat digits).length ≤ places
  · have hpad : places + 1 - (digitsOfNat digits).length =
        (places - (digitsOfNat digits).length) + 1 := by omega
    have hone : places - (digitsOfNat digits).length + 1 + (digitsOfNat digits).length - places = 1 := by
      omega
    rw [hpad, hone, List.replicate_succ]
    rfl
  · have hnone : places + 1 - (digitsOfNat digits).length = 0 := by omega
    rw [hnone, List.replicate_zero, List.nil_append, Nat.zero_add]
    rcases Nat.eq_zero_or_pos digits with rfl | hpos
    · have : places = 0 := by
        rw [digitsOfNat_zero, List.length_singleton] at hshort
        omega
      rw [this]
      rfl
    · obtain ⟨d, ds, hds, hd⟩ := digitsOfNat_eq_cons hpos
      rw [hds] at hshort ⊢
      obtain ⟨k, hk⟩ : ∃ k, (d :: ds).length - places = k + 1 := ⟨(d :: ds).length - places - 1, by omega⟩
      rw [hk, List.take_succ_cons, Sdl.isWholePart]
      · simpa using hd
      · intro h _
        exact hd h

theorem exists_isSplit (digits places : Nat) : ∃ whole fraction, IsSplit digits places whole fraction := by
  let cut := (padded digits places).length - places
  obtain ⟨k, hk⟩ := dropFinalZeros_append ((padded digits places).drop cut)
  have hlength : ((padded digits places).drop cut).length = places := by
    have := lt_length_padded digits places
    rw [List.length_drop]
    omega
  refine ⟨(padded digits places).take cut, dropFinalZeros ((padded digits places).drop cut), rfl,
    isWholePart_take_padded digits places, fun c hc => ?_, fun c hc => ?_, k, ?_, ?_⟩
  · exact isDigit_of_mem_padded (List.mem_of_mem_take hc)
  · have hdrop : c ∈ (padded digits places).drop cut := hk ▸ List.mem_append_left _ hc
    exact isDigit_of_mem_padded (List.mem_of_mem_drop hdrop)
  · have hboth := congrArg List.length hk
    rwa [List.length_append, List.length_replicate, hlength] at hboth
  · calc natOfDigits ((padded digits places).take cut ++
            dropFinalZeros ((padded digits places).drop cut)) * 10 ^ k
        = natOfDigits (padded digits places) := by
          rw [← natOfDigits_append_zeros, List.append_assoc, hk, List.take_append_drop]
      _ = digits := by rw [padded, natOfDigits_zeros_append, natOfDigits_digitsOfNat]

end Decimal

/-! ## Floating-point values -/

namespace Binary64

theorem text_finite (negative : Bool) (m : Nat) (e : Int) :
    (finite negative m e).text = Sdl.signed negative (shortest (finite negative m e) m e).text := by
  cases negative <;> rfl

/-- Digits around a point are read as they are split. -/
theorem number?_of_isSplit {digits places : Nat} {whole fraction : List Char}
    (h : Decimal.IsSplit digits places whole fraction) (hne : fraction ≠ []) (negative : Bool) :
    Sdl.number? (Sdl.signed negative (Decimal.fractionText digits places)) =
      some (.float (Sdl.floatOf negative whole fraction 0)) := by
  have hhead : (whole ++ '.' :: fraction).head? ≠ some '-' := by
    match whole, h.isWholePart, h.wholeDigits with
    | c :: cs, _, hdigits =>
      intro hminus
      exact Sdl.head?_ne_minus hdigits hminus
  rw [h.text, if_neg (by simpa using hne), Sdl.number?_signed negative hhead,
    Sdl.unsignedNumber?_append h.wholeDigits h.isWholePart (by simp),
    Sdl.numberTail?_point hne h.fractionDigits]

/-- **A value with a fraction reads back.** -/
theorem number?_text {x : Binary64} (hcanon : x.IsCanonical) (hx : x.isFractional = true) :
    Sdl.number? x.text = some (.float x) := by
  obtain ⟨negative, m, e, rfl, hdvd⟩ := isFractional_eq_true_iff.1 hx
  have hm : 0 < m := Nat.pos_of_ne_zero fun h => hdvd (h ▸ Nat.dvd_zero _)
  have hback := ofDecimal_shortest hm hcanon
  rw [text_finite]
  generalize shortest (finite negative m (.negSucc e)) m (.negSucc e) = d at hback
  obtain ⟨digits, exponent⟩ := d
  cases exponent with
  | ofNat zeros =>
    have hwhole := isFractional_ofDecimal_ofNat negative digits zeros
    rw [hback, hx] at hwhole
    cases hwhole
  | negSucc p =>
    obtain ⟨whole, fraction, hsplit⟩ := Decimal.exists_isSplit digits (p + 1)
    obtain ⟨k, hlength, hvalue⟩ := hsplit.value
    have hne : fraction ≠ [] := by
      rintro rfl
      rw [List.length_nil, Nat.zero_add] at hlength
      rw [← hvalue, hlength, List.append_nil] at hback
      have hwhole := isFractional_ofDecimal_mul_pow negative (natOfDigits whole) p
      rw [hback, hx] at hwhole
      cases hwhole
    obtain ⟨n, hn⟩ : ∃ n, fraction.length = n + 1 := Nat.exists_eq_succ_of_ne_zero (by simpa using hne)
    have hp : p = n + k := by omega
    have hfloat : Sdl.floatOf negative whole fraction 0 = finite negative m (.negSucc e) := by
      have hpositive : 0 < natOfDigits (whole ++ fraction) := by
        refine Nat.pos_of_ne_zero fun hzero => ?_
        rw [hzero, Nat.zero_mul] at hvalue
        rw [← hvalue, ofDecimal, if_pos rfl] at hback
        rw [← hback, isFractional_zero] at hx
        cases hx
      have hexponent : (0 : Int) - fraction.length = .negSucc n := by
        rw [hn]
        omega
      rw [Sdl.floatOf, hexponent, ← ofDecimal_mul_pow hpositive n k, hvalue, ← hp, hback]
    rw [← hfloat]
    exact number?_of_isSplit hsplit hne negative

end Binary64

end SemanticNullability
