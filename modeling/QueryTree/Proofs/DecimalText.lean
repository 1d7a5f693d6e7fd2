import Mathlib.Tactic.SplitIfs
import QueryTree.Decimal.Notation

/-! # Reading written decimals

A decimal is read back from its written form with its size and its scale. All that can get lost is
the sign of a zero, which equality does not see: plain notation reads every zero without one.
-/

namespace QueryTree.Decimal

/-- The same number with the same scale, where zero has no sign. -/
def dropZeroSign (d : Decimal) : Decimal :=
  { d with negative := d.negative && d.size != 0 }

/-- Dropping the sign of a zero does not change the number. -/
theorem coefficient_dropZeroSign (d : Decimal) : d.dropZeroSign.coefficient = d.coefficient := by
  by_cases h : d.size = 0 <;> simp [dropZeroSign, coefficient, h]

/-- Without the sign of a zero a decimal is equal to what it was. -/
theorem dropZeroSign_beq (d : Decimal) : d.dropZeroSign == d := by
  change (d.dropZeroSign.coefficient * tenTo d.scale == d.coefficient * tenTo d.scale) = true
  rw [coefficient_dropZeroSign, beq_self_eq_true]

/-! ## Digits -/

variable {ds rest : List Char} {coefficient scale : Nat}

/-- Reading more digits does not make the number smaller. -/
theorem le_ofDigitChars (ds : List Char) (init : Nat) : init ≤ Nat.ofDigitChars 10 ds init := by
  rw [Nat.ofDigitChars_eq_ofDigitChars_zero]
  have hone : 1 ≤ 10 ^ ds.length := Nat.one_le_pow _ _ (by decide)
  calc init = 1 * init := (Nat.one_mul init).symm
    _ ≤ 10 ^ ds.length * init := Nat.mul_le_mul_right init hone
    _ ≤ _ := Nat.le_add_right ..

/-- Digits in front of the point are all read while the coefficient is in range. -/
theorem digits?_whole (hds : ∀ c ∈ ds, c.isDigit) (started : Bool)
    (h : Nat.ofDigitChars 10 ds coefficient < bound) :
    digits? coefficient scale false started (ds ++ rest)
      = digits? (Nat.ofDigitChars 10 ds coefficient) scale false (started || !ds.isEmpty) rest := by
  induction ds generalizing coefficient started with
  | nil => simp
  | cons d ds ih =>
    have hd : d.isDigit := hds d List.mem_cons_self
    rw [Nat.ofDigitChars_cons] at h ⊢
    have hgrown := Nat.lt_of_le_of_lt (le_ofDigitChars ds _) h
    simp only [List.cons_append, digits?, digit?, hd, ↓reduceIte, Bool.false_eq_true, hgrown]
    rw [ih (fun c hc => hds c (List.mem_cons_of_mem d hc)) true h]
    simp

/-- Digits behind the point are all read while there are places for them. -/
theorem digits?_fraction (hds : ∀ c ∈ ds, c.isDigit)
    (h : Nat.ofDigitChars 10 ds coefficient < bound) (hscale : scale + ds.length ≤ 28) :
    digits? coefficient scale true true ds
      = some (Nat.ofDigitChars 10 ds coefficient, scale + ds.length) := by
  induction ds generalizing coefficient scale with
  | nil => simp [digits?]
  | cons d ds ih =>
    have hd : d.isDigit := hds d List.mem_cons_self
    rw [Nat.ofDigitChars_cons] at h ⊢
    have hgrown := Nat.lt_of_le_of_lt (le_ofDigitChars ds _) h
    rw [List.length_cons] at hscale ⊢
    have hplace : scale < 28 := by omega
    simp only [digits?, digit?, hd, ↓reduceIte, hgrown, hplace, and_self]
    rw [ih (fun c hc => hds c (List.mem_cons_of_mem d hc)) h (by omega), Nat.add_assoc,
      Nat.add_comm 1]

/-! ## The written form -/

/-- Padded digits are digits. -/
theorem isDigit_of_mem_paddedDigits {width n : Nat} {c : Char} (hc : c ∈ paddedDigits width n) :
    c.isDigit := by
  rcases List.mem_append.1 hc with hc | hc
  · rw [(List.mem_replicate.1 hc).2]
    rfl
  · exact Nat.isDigit_of_mem_toDigits (by decide) (by decide) hc

/-- Padding with zeros does not change the number that is read. -/
theorem ofDigitChars_paddedDigits (width n : Nat) :
    Nat.ofDigitChars 10 (paddedDigits width n) 0 = n := by
  rw [paddedDigits, Nat.ofDigitChars_append, Nat.ofDigitChars_replicate_zero, Nat.mul_zero,
    Nat.ofDigitChars_ten_toDigits]

/-- Padded digits are at least as many as asked for. -/
theorem le_length_paddedDigits (width n : Nat) : width ≤ (paddedDigits width n).length := by
  simp only [paddedDigits, List.length_append, List.length_replicate]
  omega

/-- The written form without the sign. -/
def unsignedChars (d : Decimal) : List Char :=
  let digits := paddedDigits (d.scale + 1) d.size
  digits.take (digits.length - d.scale)
    ++ (if d.scale = 0 then [] else '.' :: digits.drop (digits.length - d.scale))

/-- The text of a decimal is its sign, if it has one, before its unsigned text. -/
theorem chars_eq (d : Decimal) : d.chars = (if d.negative then ['-'] else []) ++ d.unsignedChars :=
  List.append_assoc ..

/-- The unsigned text is a whole part and as many further digits as the scale says, and all its
digits together spell the size of the coefficient. -/
theorem unsignedChars_shape (d : Decimal) : ∃ whole fraction : List Char,
    d.unsignedChars = whole ++ (if d.scale = 0 then [] else '.' :: fraction) ∧
      whole ≠ [] ∧ fraction.length = d.scale ∧ (∀ c ∈ whole ++ fraction, c.isDigit) ∧
      Nat.ofDigitChars 10 (whole ++ fraction) 0 = d.size := by
  have hlength := le_length_paddedDigits (d.scale + 1) d.size
  refine ⟨_, _, rfl, ?_, ?_, ?_, ?_⟩
  · apply List.ne_nil_of_length_pos
    rw [List.length_take]
    omega
  · rw [List.length_drop]
    omega
  · rw [List.take_append_drop]
    exact fun c => isDigit_of_mem_paddedDigits
  · rw [List.take_append_drop, ofDigitChars_paddedDigits]

/-- The digits of an unsigned text give back size and scale. -/
theorem digits?_unsignedChars (d : Decimal) :
    digits? 0 0 false false d.unsignedChars = some (d.size, d.scale) := by
  obtain ⟨whole, fraction, hchars, hwhole, hlength, hdigits, hsize⟩ := d.unsignedChars_shape
  rw [Nat.ofDigitChars_append] at hsize
  have hrange : Nat.ofDigitChars 10 fraction (Nat.ofDigitChars 10 whole 0) < bound :=
    hsize ▸ d.size_lt
  have hstarted : (false || !whole.isEmpty) = true := by simp [hwhole]
  rw [hchars, digits?_whole (fun c hc => hdigits c (List.mem_append_left _ hc)) false
    (Nat.lt_of_le_of_lt (le_ofDigitChars ..) hrange), hstarted]
  -- without places there is no point, and no digit behind it
  split_ifs with hscale
  · have hnil : fraction = [] := List.length_eq_zero_iff.1 (hlength.trans hscale)
    rw [hnil, Nat.ofDigitChars_nil] at hsize
    rw [digits?, if_pos rfl, hsize, hscale]
  · have hpoint (cs : List Char) (n : Nat) :
        digits? n 0 false true ('.' :: cs) = digits? n 0 true true cs := rfl
    have hplaces : 0 + fraction.length ≤ 28 := by
      rw [Nat.zero_add, hlength]
      exact d.scale_le
    rw [hpoint, digits?_fraction (fun c hc => hdigits c (List.mem_append_right _ hc)) hrange
      hplaces, hsize, Nat.zero_add, hlength]

/-- An unsigned text does not start with a sign. -/
theorem sign_unsignedChars (d : Decimal) : sign d.unsignedChars = (false, d.unsignedChars) := by
  obtain ⟨whole, fraction, hchars, hwhole, -, hdigits, -⟩ := d.unsignedChars_shape
  obtain ⟨c, cs, rfl⟩ := List.exists_cons_of_ne_nil hwhole
  have hc : c.isDigit := hdigits c (by simp)
  rw [hchars, List.cons_append, sign.eq_3]
  · rintro _ ⟨⟩
    cases hc
  · rintro _ ⟨⟩
    cases hc

/-- Sign, size and scale give the decimal back, up to the sign of a zero. -/
theorem ofParts?_signed (d : Decimal) :
    ofParts? (signed d.negative d.size) d.scale = some d.dropZeroSign := by
  have habs : (signed d.negative d.size).natAbs = d.size := by
    cases d.negative <;> simp [signed]
  have hneg : decide (signed d.negative d.size < 0) = (d.negative && d.size != 0) := by
    cases d.negative with
    | false => simp [signed]
    | true =>
      by_cases hzero : d.size = 0
      · simp [signed, hzero]
      · simp [signed, hzero, Nat.pos_of_ne_zero hzero]
  rw [ofParts?, habs, hneg, ofSize?, dif_pos ⟨d.size_lt, d.scale_le⟩]
  rfl

/-- The text of a decimal is read as the decimal, up to the sign of a zero. -/
theorem ofPlain?_chars (d : Decimal) : ofPlain? d.chars = some d.dropZeroSign := by
  have hsign : sign d.chars = (d.negative, d.unsignedChars) := by
    rw [chars_eq]
    cases d.negative with
    | false => exact d.sign_unsignedChars
    | true => rfl
  simp only [ofPlain?, hsign, digits?_unsignedChars, ofParts?_signed]

/-- A decimal is read back from its written form, up to the sign of a zero. -/
theorem ofText?_render (d : Decimal) : ofText? d.render = some d.dropZeroSign := by
  rw [ofText?, render, String.toList_ofList, ofChars?, ofPlain?_chars, Option.some_or]

end QueryTree.Decimal
