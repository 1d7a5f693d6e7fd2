import QueryTree.Proofs.JoinMembers
import Mathlib.Algebra.Ring.Int.Defs
import Mathlib.Data.Nat.Bitwise

/-! # Integer forms, bit by bit

Operators and the types of joins are stored as integers of 64 bits, a small code with flags above
it. Reading computes with the number as a whole; here every number that is read is described by its
bits, and every other number is refused. Split at any mask a number is the sum of the bits under the
mask and of the others, which takes a statement about the bits to one about the number.
-/

namespace QueryTree

/-! ## Bits under a mask -/

namespace Bits

variable (n : Int64)

/-- The bits under a mask and the other bits make up a number. -/
theorem and_add_and_not (mask : Int64) : (n &&& mask) + (n &&& ~~~mask) = n := by
  have hdisjoint : (n.toBitVec &&& mask.toBitVec) &&& (n.toBitVec &&& ~~~mask.toBitVec) = 0#64 := by
    ext i
    simp only [BitVec.getElem_and, BitVec.getElem_not, BitVec.getElem_zero]
    grind
  rw [← Int64.toBitVec_inj]
  simp only [Int64.toBitVec_add, Int64.toBitVec_and, Int64.toBitVec_not]
  rw [BitVec.add_eq_or_of_and_eq_zero _ _ hdisjoint]
  ext i
  simp only [BitVec.getElem_or, BitVec.getElem_and, BitVec.getElem_not]
  grind

/-- Clearing the bits under a mask subtracts them. -/
theorem and_not_eq_sub (mask : Int64) : n &&& ~~~mask = n - (n &&& mask) := by
  rw [Int64.eq_sub_iff_add_eq, Int64.add_comm, and_add_and_not]

/-- No bit is left outside a mask exactly if masking changes nothing. -/
theorem and_not_eq_zero_iff {mask : Int64} : n &&& ~~~mask = 0 ↔ n &&& mask = n := by
  rw [and_not_eq_sub, Int64.sub_eq_iff_eq_add, Int64.zero_add, eq_comm]

/-- The number whose bits are read without a sign. -/
theorem toNat_toBitVec : (n.toBitVec.toNat : Int) = n.toInt % 2 ^ 64 := by
  rw [← Int64.toInt_toBitVec, BitVec.toInt_eq_toNat_cond]
  have hlt := n.toBitVec.isLt
  split <;> omega

/-- Under a mask without the sign the sign does not matter. -/
theorem toInt_and_ofNat {mask : Nat} (hmask : mask < 2 ^ 63) :
    (n &&& Int64.ofNat mask).toInt = (n.toBitVec.toNat &&& mask : Nat) := by
  have hle : n.toBitVec.toNat &&& mask ≤ mask := Nat.and_le_right
  have hnat : (n &&& Int64.ofNat mask).toBitVec.toNat = n.toBitVec.toNat &&& mask := by
    rw [Int64.toBitVec_and, BitVec.toNat_and]
    congr 1
    show mask % 2 ^ 64 = mask
    omega
  rw [← Int64.toInt_toBitVec, BitVec.toInt_eq_toNat_of_lt (by omega), hnat]

variable {b k : Nat} (hb : b = 2 ^ k) (hk : k < 63)

include hb hk

/-- The bits below a bit are the remainder of the division by it. -/
theorem toInt_and_low : (n &&& Int64.ofNat (b - 1)).toInt = n.toInt % b := by
  have hpow : 2 ^ k < 2 ^ 63 := Nat.pow_lt_pow_right (by omega) hk
  subst hb
  rw [toInt_and_ofNat n (by omega), Nat.and_two_pow_sub_one_eq_mod]
  push_cast
  rw [toNat_toBitVec, Int.emod_emod_of_dvd _ (pow_dvd_pow 2 (by omega))]

/-- One bit of a number is its binary digit at that place, weighted. -/
theorem toInt_and_bit : (n &&& Int64.ofNat b).toInt = n.toInt / b % 2 * b := by
  have hpow : 2 ^ k < 2 ^ 63 := Nat.pow_lt_pow_right (by omega) hk
  have hne : (2 : Int) ^ k ≠ 0 := Int.ne_of_gt (Int.pow_pos (by decide))
  -- without its sign the number differs by a multiple of twice the bit
  have hsplit : (2 : Int) ^ 64 = 2 ^ k * (2 * 2 ^ (63 - k)) := by
    rw [← pow_succ', ← pow_add]
    congr 1
    omega
  have hdiv : n.toInt / 2 ^ k % 2 = n.toInt % 2 ^ 64 / 2 ^ k % 2 := by
    conv_lhs => rw [← Int.emod_add_mul_ediv n.toInt (2 ^ 64), hsplit, mul_assoc, mul_assoc,
      Int.add_mul_ediv_left _ _ hne, Int.add_mul_emod_self_left, ← hsplit]
  subst hb
  rw [toInt_and_ofNat n hpow, Nat.and_two_pow, Nat.toNat_testBit]
  push_cast
  rw [toNat_toBitVec, hdiv]

/-- A bit is set exactly if the binary digit at its place is one. -/
theorem and_bit_ne_zero_iff : n &&& Int64.ofNat b ≠ 0 ↔ n.toInt / b % 2 = 1 := by
  have hne : (b : Int) ≠ 0 := Int.ofNat_ne_zero.2 (hb ▸ (Nat.two_pow_pos k).ne')
  rw [Ne, ← Int64.toInt_inj, toInt_and_bit n hb hk, Int64.toInt_zero, Int.mul_eq_zero,
    or_iff_left hne]
  omega

end Bits

/-! ## Refusal of what is missing -/

section Refusal

variable {ε α : Type} {x? : Option α} {refusal : ε}

/-- Where an absent value is refused, the result is the value that is present. -/
theorem elim_error_eq_ok_iff {x : α} :
    x?.elim (.error refusal) Except.ok = .ok x ↔ x? = some x := by
  cases x? <;> simp

/-- Such a refusal says that no value is present. -/
theorem elim_error_eq_error_iff {e : ε} :
    x?.elim (.error refusal) Except.ok = .error e ↔ e = refusal ∧ ∀ x, x? ≠ some x := by
  cases x? <;> simp [eq_comm]

end Refusal

/-! ## Operators -/

/-- A code is read as the comparator that has it. -/
theorem Comparator.ofCode?_eq_some_iff {n : Int} {k : Comparator} :
    Comparator.ofCode? n = some k ↔ k.code = n := by
  constructor
  · intro h
    unfold Comparator.ofCode? at h
    have hfound := List.find?_some h
    exact eq_of_beq hfound
  · rintro rfl
    cases k <;> rfl

namespace Operator

/-- The bits of a number make up the integer form of the operator. -/
structure InBits (op : Operator) (n : Int64) : Prop where
  noOther : n &&& ~~~1023 = 0
  comparator : op.comparator.code = (n &&& 255).toInt
  caseInsensitive : op.modifiers.caseInsensitive = true ↔ n &&& 256 ≠ 0
  orNull : op.modifiers.orNull = true ↔ n &&& 512 ≠ 0

/-- The bits of an operator's number, said by quotients and remainders. -/
theorem inBits_iff {op : Operator} {n : Int64} :
    op.InBits n ↔ (0 ≤ n.toInt ∧ n.toInt < 1024) ∧ op.comparator.code = n.toInt % 256
      ∧ (op.modifiers.caseInsensitive = true ↔ n.toInt / 256 % 2 = 1)
      ∧ (op.modifiers.orNull = true ↔ n.toInt / 512 % 2 = 1) := by
  have hall : (n &&& 1023).toInt = n.toInt % 1024 :=
    Bits.toInt_and_low n (b := 1024) (k := 10) rfl (by omega)
  have hlow : (n &&& 255).toInt = n.toInt % 256 :=
    Bits.toInt_and_low n (b := 256) (k := 8) rfl (by omega)
  have hcase : n &&& 256 ≠ 0 ↔ n.toInt / 256 % 2 = 1 :=
    Bits.and_bit_ne_zero_iff n (b := 256) (k := 8) rfl (by omega)
  have hnull : n &&& 512 ≠ 0 ↔ n.toInt / 512 % 2 = 1 :=
    Bits.and_bit_ne_zero_iff n (b := 512) (k := 9) rfl (by omega)
  have hrange : n &&& ~~~1023 = 0 ↔ 0 ≤ n.toInt ∧ n.toInt < 1024 := by
    rw [Bits.and_not_eq_zero_iff, ← Int64.toInt_inj, hall]
    omega
  rw [← hrange, ← hlow, ← hcase, ← hnull]
  constructor
  · intro h
    exact ⟨h.noOther, h.comparator, h.caseInsensitive, h.orNull⟩
  · rintro ⟨hother, hcomparator, hcase, hnull⟩
    exact ⟨hother, hcomparator, hcase, hnull⟩

/-- A number in range is read as the operator its quotients and remainders tell. -/
theorem ofCode?_eq_some_iff {n : Int} {op : Operator} :
    ofCode? n = some op ↔ (0 ≤ n ∧ n < 1024) ∧ op.comparator.code = n % 256
      ∧ (op.modifiers.caseInsensitive = true ↔ n / 256 % 2 = 1)
      ∧ (op.modifiers.orNull = true ↔ n / 512 % 2 = 1) := by
  unfold ofCode?
  by_cases hrange : 0 ≤ n ∧ n < 1024
  · rw [if_pos hrange, Option.map_eq_some_iff]
    constructor
    · rintro ⟨comparator, hcode, rfl⟩
      exact ⟨hrange, Comparator.ofCode?_eq_some_iff.1 hcode, beq_iff_eq, beq_iff_eq⟩
    · rintro ⟨-, hcode, hcase, hnull⟩
      obtain ⟨comparator, ⟨caseInsensitive, orNull⟩⟩ := op
      refine ⟨comparator, Comparator.ofCode?_eq_some_iff.2 hcode, ?_⟩
      rw [Bool.eq_iff_iff.2 (beq_iff_eq.trans hcase.symm),
        Bool.eq_iff_iff.2 (beq_iff_eq.trans hnull.symm)]
  · rw [if_neg hrange]
    constructor
    · rintro ⟨⟩
    · intro h
      exact (hrange h.1).elim

/-- An operator's number is refused exactly where the computation finds no operator. -/
theorem ofCode_eq_elim (n : Int64) :
    ofCode n = (ofCode? n.toInt).elim (.error (.invalidOperator n)) .ok := by
  unfold ofCode
  cases ofCode? n.toInt <;> rfl

/-- A number is read as the operator whose bits it has. -/
theorem ofCode_eq_ok_iff_inBits {n : Int64} {op : Operator} :
    ofCode n = .ok op ↔ op.InBits n := by
  rw [ofCode_eq_elim, elim_error_eq_ok_iff, ofCode?_eq_some_iff, inBits_iff]

/-- The bits of a number determine it: the operator is written as the number again. -/
theorem InBits.code_eq {op : Operator} {n : Int64} (h : op.InBits n) : op.code = n := by
  obtain ⟨⟨hle, hlt⟩, hcode, hcase, hnull⟩ := inBits_iff.1 h
  have hsum : op.codeInt = n.toInt := by
    rw [codeInt, Modifiers.code, hcode]
    simp only [hcase, hnull]
    split <;> split <;> omega
  rw [code, hsum, Int64.ofInt_toInt]

/-- The number with the bits of an operator is its integer form. -/
theorem inBits_iff_code_eq {op : Operator} {n : Int64} : op.InBits n ↔ op.code = n := by
  refine ⟨InBits.code_eq, ?_⟩
  rintro rfl
  exact ofCode_eq_ok_iff_inBits.1 op.ofCode_code

/-- A number is read as an operator exactly if the operator is written as this number. -/
theorem ofCode_eq_ok_iff {n : Int64} {op : Operator} : ofCode n = .ok op ↔ op.code = n := by
  rw [ofCode_eq_ok_iff_inBits, inBits_iff_code_eq]

/-- A number is refused exactly if no operator is written as it, and the error names it. -/
theorem ofCode_eq_error_iff {n : Int64} {e : DecodeError} :
    ofCode n = .error e ↔ e = .invalidOperator n ∧ ∀ op : Operator, op.code ≠ n := by
  simp only [← ofCode_eq_ok_iff, ofCode_eq_elim, elim_error_eq_error_iff, elim_error_eq_ok_iff, Ne]

end Operator

/-! ## Types of joins -/

/-- A code is read as the join type that has it. -/
theorem JoinType.ofCode?_eq_some_iff {n : Int} {type : JoinType} :
    JoinType.ofCode? n = some type ↔ type.code = n := by
  constructor
  · intro h
    unfold JoinType.ofCode? at h
    have hfound := List.find?_some h
    exact eq_of_beq hfound
  · rintro rfl
    cases type <;> rfl

/-- A join type's number is refused exactly where the computation finds no type. -/
theorem JoinType.ofCode_eq_elim (n : Int64) :
    JoinType.ofCode n = (JoinType.ofCode? n.toInt).elim (.error (.invalidJoinType n)) .ok := by
  unfold JoinType.ofCode
  cases JoinType.ofCode? n.toInt <;> rfl

/-- A number is read as the join type that has it as code. -/
theorem JoinType.ofCode_eq_ok_iff {n : Int64} {type : JoinType} :
    JoinType.ofCode n = .ok type ↔ type.code = n.toInt := by
  rw [ofCode_eq_elim, elim_error_eq_ok_iff, ofCode?_eq_some_iff]

/-- A number is refused exactly if it is no join type's code, and the error names it. -/
theorem JoinType.ofCode_eq_error_iff {n : Int64} {e : DecodeError} :
    JoinType.ofCode n = .error e
      ↔ e = .invalidJoinType n ∧ ∀ type : JoinType, type.code ≠ n.toInt := by
  simp only [ofCode_eq_elim, elim_error_eq_error_iff, Ne, ofCode?_eq_some_iff]

/-- The codes of the join types. -/
theorem JoinType.exists_code_eq_iff {n : Int64} :
    (∃ type : JoinType, type.code = n.toInt) ↔ n = 0 ∨ n = 1 ∨ n = 2 := by
  simp only [← Int64.toInt_inj]
  constructor
  · rintro ⟨type, h⟩
    cases type with
    | inner => exact .inl h.symm
    | leftOuter => exact .inr (.inl h.symm)
    | rightOuter => exact .inr (.inr h.symm)
  · rintro (h | h | h)
    · exact ⟨.inner, h.symm⟩
    · exact ⟨.leftOuter, h.symm⟩
    · exact ⟨.rightOuter, h.symm⟩

namespace Join

/-- Type and permanence of the join stand in the bits of the number. -/
structure TypeInBits (j : Join) (c : Int64) : Prop where
  type : j.type.code = (c &&& ~~~65536).toInt
  permanent : j.permanent = true ↔ c &&& 65536 ≠ 0

/-- The permanent bit is set exactly if the binary digit at its place is one. -/
theorem and_permanentBit_ne_zero_iff {c : Int64} :
    c &&& 65536 ≠ 0 ↔ c.toInt / permanentBit % 2 = 1 :=
  Bits.and_bit_ne_zero_iff c (b := 65536) (k := 16) rfl (by omega)

/-- Masked with itself, a permanent bit that is set is all that is left. -/
theorem toInt_and_permanentBit {c : Int64} (h : c &&& 65536 ≠ 0) :
    (c &&& 65536).toInt = permanentBit := by
  have hbit : (c &&& 65536).toInt = c.toInt / permanentBit % 2 * permanentBit :=
    Bits.toInt_and_bit c (b := 65536) (k := 16) rfl (by omega)
  rw [hbit, and_permanentBit_ne_zero_iff.1 h, Int.one_mul]

/-- The permanence is one bit, and the type is what remains without it. -/
theorem ofTypeCode_eq (c : Int64) :
    ofTypeCode c = (JoinType.ofCode (c &&& ~~~65536)).map (·, decide (c &&& 65536 ≠ 0)) := by
  have hpermanent : (c.toInt / permanentBit % 2 == 1) = decide (c &&& 65536 ≠ 0) := by
    rw [Bool.eq_iff_iff, beq_iff_eq, decide_eq_true_iff, and_permanentBit_ne_zero_iff]
  have hbase : Int64.ofInt (if c &&& 65536 ≠ 0 then c.toInt - permanentBit else c.toInt)
      = c &&& ~~~65536 := by
    rw [Bits.and_not_eq_sub]
    by_cases h : c &&& 65536 = 0
    · rw [if_neg (not_not.2 h), h, Int64.sub_zero, Int64.ofInt_toInt]
    · rw [if_pos h, ← toInt_and_permanentBit h, Int64.ofInt_sub, Int64.ofInt_toInt,
        Int64.ofInt_toInt]
  unfold ofTypeCode
  simp only [hpermanent, decide_eq_true_iff]
  rw [hbase]

/-- The type is read from the bits but the permanent one, and that bit says whether the join is
permanent. -/
theorem ofTypeCode_eq_ok_iff {c : Int64} {t : JoinType × Bool} :
    ofTypeCode c = .ok t
      ↔ t.1.code = (c &&& ~~~65536).toInt ∧ (t.2 = true ↔ c &&& 65536 ≠ 0) := by
  rw [ofTypeCode_eq, Except.map_eq_ok_iff]
  simp only [JoinType.ofCode_eq_ok_iff]
  constructor
  · rintro ⟨type, htype, rfl⟩
    exact ⟨htype, decide_eq_true_iff⟩
  · rintro ⟨htype, hpermanent⟩
    refine ⟨t.1, htype, Prod.ext rfl (Bool.eq_iff_iff.2 ?_)⟩
    exact decide_eq_true_iff.trans hpermanent.symm

/-- A type code is refused if its bits but the permanent one are not 0, 1 or 2, and the error names
these bits. -/
theorem ofTypeCode_eq_error_iff {c : Int64} {e : DecodeError} :
    ofTypeCode c = .error e ↔ e = .invalidJoinType (c &&& ~~~65536)
      ∧ ¬(c &&& ~~~65536 = 0 ∨ c &&& ~~~65536 = 1 ∨ c &&& ~~~65536 = 2) := by
  rw [ofTypeCode_eq, Except.map_eq_error_iff, JoinType.ofCode_eq_error_iff,
    ← JoinType.exists_code_eq_iff, not_exists]

/-- The number with type and permanence of a join in its bits is written for them. -/
theorem TypeInBits.typeCode_eq {j : Join} {c : Int64} (h : j.TypeInBits c) : j.typeCode = c := by
  have hbit : (if j.permanent = true then permanentBit else 0) = (c &&& 65536).toInt := by
    by_cases hset : c &&& 65536 = 0
    · rw [if_neg (fun hj => h.permanent.1 hj hset), hset]
      rfl
    · rw [if_pos (h.permanent.2 hset), toInt_and_permanentBit hset]
  rw [typeCode, hbit, h.type, Int64.ofInt_add, Int64.ofInt_toInt, Int64.ofInt_toInt,
    Int64.add_comm, Bits.and_add_and_not]

variable {p : Payload} {i j : Join}

/-- The joins read with a number for their type have the type and permanence in its bits, and all
else from the payload. -/
theorem ofPayload_setType_eq_ok_iff (h : Join.ofPayload p = .ok i) {c : Int64} :
    Join.ofPayload (p.setMember 4 (.int c)) = .ok j
      ↔ j.TypeInBits c ∧ j = { i with type := j.type, permanent := j.permanent } := by
  rw [ofPayload_setType h, Except.map_eq_ok_iff]
  simp only [ofTypeCode_eq_ok_iff]
  constructor
  · rintro ⟨t, ⟨htype, hpermanent⟩, rfl⟩
    exact ⟨⟨htype, hpermanent⟩, rfl⟩
  · rintro ⟨hbits, hj⟩
    exact ⟨(j.type, j.permanent), ⟨hbits.type, hbits.permanent⟩, hj.symm⟩

/-- In the payload of a join that can be read, another type member is refused exactly so. -/
theorem ofPayload_setType_eq_error_iff (h : Join.ofPayload p = .ok i) {c : Int64}
    {e : DecodeError} : Join.ofPayload (p.setMember 4 (.int c)) = .error e
      ↔ e = .invalidJoinType (c &&& ~~~65536)
        ∧ ¬(c &&& ~~~65536 = 0 ∨ c &&& ~~~65536 = 1 ∨ c &&& ~~~65536 = 2) := by
  rw [ofPayload_setType h, Except.map_eq_error_iff, ofTypeCode_eq_error_iff]

/-- In the payload of a join that can be read, exactly the six type codes can stand. -/
theorem exists_ofPayload_setType_iff (h : Join.ofPayload p = .ok i) {c : Int64} :
    (∃ j, Join.ofPayload (p.setMember 4 (.int c)) = .ok j)
      ↔ c &&& ~~~65536 = 0 ∨ c &&& ~~~65536 = 1 ∨ c &&& ~~~65536 = 2 := by
  simp only [ofPayload_setType_eq_ok_iff h, ← JoinType.exists_code_eq_iff]
  constructor
  · rintro ⟨j, hbits, -⟩
    exact ⟨j.type, hbits.type⟩
  · rintro ⟨type, htype⟩
    refine ⟨{ i with type := type, permanent := decide (c &&& 65536 ≠ 0) }, ⟨htype, ?_⟩, rfl⟩
    exact decide_eq_true_iff

end Join

/-- The integer forms are exact on all numbers of 64 bits. A number is read as an operator if it is
the form of one, which its bits tell, and refused as itself otherwise. In the payload of a join a
number stands for a type if without the bit of permanence it is a known code, and the join that is
read with it writes the same number. -/
theorem integer_forms_exact :
    (∀ n : Int64,
      (∀ op, Operator.ofCode n = .ok op ↔ op.code = n)
      ∧ (∀ op : Operator, op.code = n ↔ op.InBits n)
      ∧ (∀ op op' : Operator, op.code = n → op'.code = n → op = op')
      ∧ ∀ e, Operator.ofCode n = .error e
          ↔ e = .invalidOperator n ∧ ∀ op : Operator, op.code ≠ n)
    ∧ ∀ p i, Join.ofPayload p = .ok i → ∀ c : Int64,
      ((∃ j, Join.ofPayload (p.setMember 4 (.int c)) = .ok j)
          ↔ c &&& ~~~65536 = 0 ∨ c &&& ~~~65536 = 1 ∨ c &&& ~~~65536 = 2)
      ∧ (∀ e, Join.ofPayload (p.setMember 4 (.int c)) = .error e
          → e = .invalidJoinType (c &&& ~~~65536))
      ∧ ∀ j, Join.ofPayload (p.setMember 4 (.int c)) = .ok j
          → j.TypeInBits c ∧ j = { i with type := j.type, permanent := j.permanent }
            ∧ j.toPayload.members[4]? = some (.int c) := by
  constructor
  · intro n
    refine ⟨fun _ => Operator.ofCode_eq_ok_iff, fun _ => Operator.inBits_iff_code_eq.symm, ?_,
      fun _ => Operator.ofCode_eq_error_iff⟩
    intro op op' hop hop'
    have hread := Operator.ofCode_eq_ok_iff.2 hop
    rw [Operator.ofCode_eq_ok_iff.2 hop'] at hread
    exact (Except.ok.inj hread).symm
  · intro p i h c
    refine ⟨Join.exists_ofPayload_setType_iff h,
      fun e he => ((Join.ofPayload_setType_eq_error_iff h).1 he).1, fun j hj => ?_⟩
    obtain ⟨hbits, hfields⟩ := (Join.ofPayload_setType_eq_ok_iff h).1 hj
    refine ⟨hbits, hfields, ?_⟩
    show some (Member.int j.typeCode) = _
    rw [hbits.typeCode_eq]

/-- A permanent right outer join in place of the left outer one. -/
theorem Join.orderStates_rightOuter :
    Join.ofPayload Join.orderStates.toPayload = .ok Join.orderStates.stored
      ∧ ∃ j, Join.ofPayload (Join.orderStates.toPayload.setMember 4 (.int 65538)) = .ok j
        ∧ j.TypeInBits 65538 ∧ j.toPayload.members[4]? = some (.int 65538) := by
  have hread := Join.orderStates_wellFormed.ofPayload_toPayload
  obtain ⟨hexists, -, hok⟩ := integer_forms_exact.2 _ _ hread 65538
  obtain ⟨j, hj⟩ := hexists.2 (.inr (.inr (by decide)))
  obtain ⟨hbits, -, hwritten⟩ := hok j hj
  exact ⟨hread, j, hj, hbits, hwritten⟩

end QueryTree
