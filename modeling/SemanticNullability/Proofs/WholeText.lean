import SemanticNullability.Proofs.NumberText
/-!
# The text of a whole number

A floating-point value that is a whole number is written without a point, so it does not come back as
a floating-point value: its digits make an integer, or none if they are too many. The search for the
fewest digits goes from the first digit to the right, and it does not get past the point, since there
it finds the number itself.
-/
namespace SemanticNullability.Binary64

section Search

variable {x : Binary64} {num den q : Nat}

theorem exponent_neighbour {a : Int} {d : Decimal} (h : neighbour? x num den a = some d) :
    d.exponent = a := by
  simp only [neighbour?] at h
  split_ifs at h <;> cases h <;> rfl

theorem inUnits_zero (base num den : Nat) : inUnits base num den 0 = (num, den) := by
  show (num, den * base.pow 0) = _
  rw [Nat.pow_eq, Nat.pow_zero, Nat.mul_one]

/-- At the point a whole number is found. -/
theorem neighbour_zero (hden : 0 < den) (hq : ofDecimal x.isNegative ⟨q, 0⟩ = x) :
    neighbour? x (q * den) den 0 = some ⟨q, 0⟩ := by
  simp only [neighbour?, inUnits_zero, Nat.mul_div_cancel q hden, Nat.mul_mod_left, Nat.mul_zero]
  rw [if_pos hden]
  exact if_pos hq

/-- A number of at least one has a digit before the point. -/
theorem pointPosition_pos (h : den ≤ num) : 1 ≤ pointPosition num den := by
  have hlength : (digitsOfNat den).length ≤ (digitsOfNat num).length := by
    have hnum : num < 10 ^ (digitsOfNat num).length :=
      (Nat.length_toDigits_le_iff (by decide) (List.length_pos_iff.2 (digitsOfNat_ne_nil num))).1
        (Nat.le_refl _)
    exact (Nat.length_toDigits_le_iff (by decide)
      (List.length_pos_iff.2 (digitsOfNat_ne_nil num))).2 (lt_of_le_of_lt h hnum)
  rw [pointPosition]
  generalize hk : ((digitsOfNat num).length : Int) - (digitsOfNat den).length = k
  by_cases hzero : k = 0
  · rw [hzero, inUnits_zero]
    exact (if_pos h).ge
  · dsimp only
    split_ifs <;> omega

theorem pointPosition_le (hnum : num < 2 ^ 53) : pointPosition num den ≤ 17 := by
  have hlength : (digitsOfNat num).length ≤ 16 :=
    (Nat.length_toDigits_le_iff (by decide) (by decide)).2 (lt_trans hnum (by decide))
  rw [pointPosition]
  generalize hk : ((digitsOfNat num).length : Int) - (digitsOfNat den).length = k
  dsimp only
  split_ifs <;> omega

/-- The search does not get past the point. -/
theorem exponent_search {d : Decimal} {point : Int} {count : Nat} (hpoint : 1 ≤ point)
    (hzero : (neighbour? x num den 0).isSome = true)
    (h : search x num den point count = some d) : 0 ≤ d.exponent := by
  obtain ⟨before, i, behind, hrange, hi, hbefore⟩ := List.findSome?_eq_some_iff.1 h
  rw [exponent_neighbour hi]
  by_contra hneg
  obtain ⟨j, hj⟩ : ∃ j : Nat, (j : Int) + 1 = point := ⟨(point - 1).toNat, by omega⟩
  have hcount : i < count := List.mem_range.1 (hrange ▸ by simp)
  have hmem : j ∈ before ++ i :: behind := hrange ▸ List.mem_range.2 (by omega)
  have hsorted := List.pairwise_lt_range (n := count)
  rw [hrange] at hsorted
  have hfirst : j ∈ before := by
    rcases List.mem_append.1 hmem with hmem | hmem
    · exact hmem
    · rcases List.mem_cons.1 hmem with rfl | hmem
      · omega
      · have := (List.pairwise_cons.1 (List.pairwise_append.1 hsorted).2.1).1 j hmem
        omega
  have hnone := hbefore j hfirst
  rw [show point - ((j : Int) + 1) = 0 by omega] at hnone
  rw [hnone] at hzero
  cases hzero

theorem isSome_search {point : Int} {count : Nat} (hpoint : 1 ≤ point) (hcount : point ≤ count)
    (hzero : (neighbour? x num den 0).isSome = true) :
    (search x num den point count).isSome = true := by
  refine List.findSome?_isSome_iff.2 ⟨(point - 1).toNat, List.mem_range.2 (by omega), ?_⟩
  rw [show point - (((point - 1).toNat : Nat) + 1 : Int) = 0 by omega]
  exact hzero

end Search

section Whole

variable {negative : Bool} {m q : Nat} {e : Int}

theorem ofDecimal_whole (hq : 0 < q) (hm : 0 < m) (hcanon : (finite negative m e).IsCanonical)
    (hvalue : (q : ℚ) = m * 2 ^ e) : ofDecimal negative ⟨q, 0⟩ = finite negative m e := by
  have hlength : ¬((0 : Int) + (digitsOfNat q).length < -400) := by omega
  rw [ofDecimal, if_neg hq.ne', if_neg (show ¬(400 < (0 : Int)) by decide), if_neg hlength]
  show ofFraction negative (q * Nat.pow 10 0) 1 = _
  rw [Nat.pow_eq, Nat.pow_zero, Nat.mul_one]
  refine ofFraction_eq_finite negative hm Nat.one_pos hcanon ?_
  rw [Nat.cast_one, div_one, hvalue]

/-- **The shortest decimal of a whole number has no fraction.** -/
theorem exponent_shortest (hcanon : (finite negative m e).IsCanonical)
    (hwhole : (finite negative m e).isFractional = false) :
    0 ≤ (shortest (finite negative m e) m e).exponent := by
  rcases Nat.eq_zero_or_pos m with rfl | hm
  · rw [shortest.eq_def, if_pos rfl]
  cases e with
  | ofNat e =>
    have hq : 0 < m * Nat.pow 2 e := Nat.mul_pos hm (Nat.pow_pos (by decide))
    have hvalue : ((m * Nat.pow 2 e : Nat) : ℚ) = m * 2 ^ Int.ofNat e := by
      rw [Nat.pow_eq]
      push_cast
      rfl
    have hfound : neighbour? (finite negative m (.ofNat e)) (m * Nat.pow 2 e * 1) 1 0 = _ :=
      neighbour_zero Nat.one_pos (ofDecimal_whole hq hm hcanon hvalue)
    rw [Nat.mul_one] at hfound
    rw [shortest, if_neg hm.ne']
    cases hsearch : search (finite negative m (.ofNat e)) (m * Nat.pow 2 e) 1
        (pointPosition (m * Nat.pow 2 e) 1) 17 with
    | some d => exact exponent_search (pointPosition_pos hq) (by rw [hfound]; rfl) hsearch
    | none => exact Int.le_refl 0
  | negSucc e =>
    obtain ⟨q, hq⟩ : 2 ^ (e + 1) ∣ m := by
      by_contra hnot
      rw [isFractional_eq_true_iff.2 ⟨negative, m, e, rfl, hnot⟩] at hwhole
      cases hwhole
    have hden : 0 < 2 ^ (e + 1) := Nat.pow_pos (by decide)
    have hqpos : 0 < q := Nat.pos_of_ne_zero fun h => hm.ne' (by rw [hq, h, Nat.mul_zero])
    have hvalue : (q : ℚ) = m * 2 ^ Int.negSucc e := by
      rw [hq, zpow_negSucc]
      push_cast
      field_simp
    have hfound : neighbour? (finite negative m (.negSucc e)) (q * 2 ^ (e + 1)) (2 ^ (e + 1)) 0 = _ :=
      neighbour_zero hden (ofDecimal_whole hqpos hm hcanon hvalue)
    rw [Nat.mul_comm, ← hq] at hfound
    have hpoint : 1 ≤ pointPosition m (2 ^ (e + 1)) :=
      pointPosition_pos (Nat.le_of_dvd hm ⟨q, hq⟩)
    have hsome : (neighbour? (finite negative m (.negSucc e)) m (2 ^ (e + 1)) 0).isSome = true := by
      rw [hfound]
      rfl
    obtain ⟨d, hd⟩ := Option.isSome_iff_exists.1
      (isSome_search hpoint (pointPosition_le hcanon.1) hsome)
    rw [shortest, if_neg hm.ne', Nat.pow_eq, hd]
    exact exponent_search hpoint hsome hd

/-- No floating-point value is read of digits. -/
theorem number?_digits {ds : List Char} (h : ∀ c ∈ ds, c.isDigit = true) (x : Binary64) :
    Sdl.number? (Sdl.signed negative ds) ≠ some (.float x) := by
  have htake : ds.takeWhile Char.isDigit = ds := List.takeWhile_eq_self_iff.2 h
  have hdrop : ds.dropWhile Char.isDigit = [] := List.dropWhile_eq_nil_iff.2 h
  rw [Sdl.number?_signed negative (Sdl.head?_ne_minus h), Sdl.unsignedNumber?, htake, hdrop]
  intro hnumber
  split_ifs at hnumber
  obtain ⟨n, _, hn⟩ := Option.map_eq_some_iff.1 hnumber
  cases hn

/-- **A whole number does not come back as a floating-point value.** -/
theorem number?_text_of_whole {x : Binary64} (hcanon : x.IsCanonical) (hx : x.isFractional = false)
    (y : Binary64) : Sdl.number? x.text ≠ some (.float y) := by
  match x with
  | infinite true => exact fun h => by cases h
  | infinite false => exact fun h => by cases h
  | finite negative m e =>
    obtain ⟨zeros, hzeros⟩ := Int.eq_ofNat_of_zero_le (exponent_shortest hcanon hx)
    rw [text_finite, Decimal.text, hzeros]
    refine number?_digits (fun c hc => ?_) y
    rcases List.mem_append.1 hc with hc | hc
    · exact isDigit_of_mem_digitsOfNat hc
    · rw [List.eq_of_mem_replicate hc]
      rfl

end Whole

end SemanticNullability.Binary64
