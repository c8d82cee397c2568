import Mathlib.Data.List.DropRight
import Mathlib.Data.Nat.Digits.Defs
import Mathlib.Tactic.IntervalCases
import Mathlib.Tactic.Ring
import SemanticNullability.Sdl.Number
/-!
# Digits

The digits of a natural number read back as the number, zeros before them change nothing, and zeros
behind them multiply by powers of ten. The first digit of a positive number is not a zero.
-/
namespace SemanticNullability

/-! ## Reading digits -/

theorem natOfDigits_eq (ds : List Char) : natOfDigits ds = Nat.ofDigitChars 10 ds 0 := rfl

@[simp] theorem natOfDigits_digitsOfNat (n : Nat) : natOfDigits (digitsOfNat n) = n :=
  Nat.ofDigitChars_toDigits (by decide) (by decide)

theorem natOfDigits_append (ds es : List Char) :
    natOfDigits (ds ++ es) = 10 ^ es.length * natOfDigits ds + natOfDigits es := by
  rw [natOfDigits_eq, natOfDigits_eq, natOfDigits_eq, Nat.ofDigitChars_append,
    Nat.ofDigitChars_eq_ofDigitChars_zero]

@[simp] theorem natOfDigits_zeros (k : Nat) : natOfDigits (List.replicate k '0') = 0 :=
  Nat.ofDigitChars_replicate_zero

theorem natOfDigits_zeros_append (k : Nat) (ds : List Char) :
    natOfDigits (List.replicate k '0' ++ ds) = natOfDigits ds := by
  rw [natOfDigits_append, natOfDigits_zeros, Nat.mul_zero, Nat.zero_add]

theorem natOfDigits_append_zeros (ds : List Char) (k : Nat) :
    natOfDigits (ds ++ List.replicate k '0') = natOfDigits ds * 10 ^ k := by
  rw [natOfDigits_append, natOfDigits_zeros, List.length_replicate, Nat.add_zero, Nat.mul_comm]

/-! ## Writing digits -/

theorem isDigit_of_mem_digitsOfNat {n : Nat} {c : Char} (h : c ∈ digitsOfNat n) :
    c.isDigit = true :=
  Nat.isDigit_of_mem_toDigits (by decide) (by decide) h

theorem isDigit_of_mem_zeros_append {n k : Nat} {c : Char}
    (h : c ∈ List.replicate k '0' ++ digitsOfNat n) : c.isDigit = true := by
  rcases List.mem_append.1 h with h | h
  · rw [List.eq_of_mem_replicate h]
    rfl
  · exact isDigit_of_mem_digitsOfNat h

theorem digitsOfNat_ne_nil (n : Nat) : digitsOfNat n ≠ [] := Nat.toDigits_ne_nil

theorem digitsOfNat_zero : digitsOfNat 0 = ['0'] := rfl

theorem digitsOfNat_mul_pow {n : Nat} (hn : 0 < n) (k : Nat) :
    digitsOfNat (n * 10 ^ k) = digitsOfNat n ++ List.replicate k '0' := by
  induction k with
  | zero => simp
  | succ k ih =>
    have hstep := Nat.toDigits_append_toDigits (b := 10) (n := n * 10 ^ k) (d := 0) (by decide)
      (Nat.mul_pos hn (Nat.pow_pos (by decide))) (by decide)
    calc digitsOfNat (n * 10 ^ (k + 1))
        = digitsOfNat (10 * (n * 10 ^ k) + 0) := congrArg digitsOfNat (by ring)
      _ = digitsOfNat (n * 10 ^ k) ++ ['0'] := hstep.symm
      _ = digitsOfNat n ++ List.replicate (k + 1) '0' := by
          rw [ih, List.append_assoc, ← List.replicate_succ']

/-- A positive number does not begin with a zero. -/
theorem digitsOfNat_eq_cons {n : Nat} (hn : 0 < n) :
    ∃ d ds, digitsOfNat n = d :: ds ∧ d ≠ '0' := by
  induction n using Nat.strongRecOn with
  | ind n ih =>
    rw [digitsOfNat, Nat.toDigits_eq_if (by decide)]
    split
    · rename_i hlt
      refine ⟨n.digitChar, [], rfl, ?_⟩
      interval_cases n <;> decide
    · rename_i hge
      obtain ⟨d, ds, hds, hd⟩ := ih (n / 10) (by omega) (by omega)
      rw [digitsOfNat] at hds
      exact ⟨d, ds ++ [(n % 10).digitChar], by rw [hds]; rfl, hd⟩

theorem isWholePart_digitsOfNat (n : Nat) : Sdl.isWholePart (digitsOfNat n) = true := by
  rcases Nat.eq_zero_or_pos n with rfl | hn
  · rfl
  · obtain ⟨d, ds, hds, hd⟩ := digitsOfNat_eq_cons hn
    rw [hds, Sdl.isWholePart]
    · simpa using hd
    · intro h _
      exact hd h

/-! ## Zeros at the end -/

/-- What is dropped are zeros. -/
theorem dropFinalZeros_append (ds : List Char) :
    ∃ k, dropFinalZeros ds ++ List.replicate k '0' = ds := by
  refine ⟨(ds.reverse.takeWhile (· == '0')).length, ?_⟩
  have hzeros : ds.reverse.takeWhile (· == '0') =
      List.replicate (ds.reverse.takeWhile (· == '0')).length '0' := by
    refine List.eq_replicate_of_mem fun c hc => ?_
    simpa using List.mem_takeWhile_imp hc
  calc dropFinalZeros ds ++ List.replicate (ds.reverse.takeWhile (· == '0')).length '0'
      = (ds.reverse.dropWhile (· == '0')).reverse ++
          (ds.reverse.takeWhile (· == '0')).reverse := by
        conv_rhs => rw [hzeros]
        rw [List.reverse_replicate, dropFinalZeros]
    _ = ds := by
        rw [← List.reverse_append, List.takeWhile_append_dropWhile, List.reverse_reverse]

end SemanticNullability
