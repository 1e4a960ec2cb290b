import PhpantomLsp.Folding.Expressions

/-!
# Operators on integers

An operator folds two integers of 64 bits to the integer PHP has for them, and to
nothing where PHP has none.  The one exception is the remainder of the least integer by
minus one, which is zero and is not folded.
-/

namespace PhpantomLsp.Folding

open PhpantomLsp.Text

/-- The integers of 64 bits. -/
def InI64 (z : Int) : Prop := i64Min ≤ z ∧ z ≤ i64Max

theorem inI64_toInt (b : BitVec 64) : InI64 b.toInt := by
  have hlow := b.le_toInt
  have hhigh := @BitVec.toInt_lt 64 b
  simp only [InI64, i64Min, i64Max]
  omega

theorem bits_toInt {z : Int} (h : InI64 z) : (bits z).toInt = z := by
  simp only [InI64, i64Min, i64Max] at h
  rw [bits, BitVec.toInt_ofInt]
  apply Int.bmod_eq_of_le <;> omega

theorem inI64_checkI64 {z w : Int} (h : checkI64 z = some w) : InI64 w := (checkI64_eq_some h).2

/-! ## Shifts -/

theorem bits_mul_pow (z : Int) (n : Nat) : bits (z * 2 ^ n) = bits z <<< n := by
  rw [bits, BitVec.ofInt_mul, BitVec.shiftLeft_eq_mul_twoPow]
  have hpow : BitVec.ofInt 64 (2 ^ n) = BitVec.twoPow 64 n := by
    apply BitVec.eq_of_toNat_eq
    rw [BitVec.toNat_twoPow]
    norm_cast
  rw [hpow]
  rfl

/-- Shifted by its whole width nothing is left. -/
theorem bits_shiftLeft_wide (z : Int) {n : Nat} (h : 64 ≤ n) : (bits z <<< n).toInt = 0 := by
  rw [BitVec.shiftLeft_eq_zero h]
  rfl

theorem applyBitwise_leftShift (lhs rhs : Int) :
    applyBitwise .leftShift lhs rhs = (IntOp.bitwise .leftShift).result lhs rhs := by
  simp only [applyBitwise, IntOp.result]
  by_cases hneg : rhs < 0
  · rw [if_pos hneg, if_pos hneg]
  · rw [if_neg hneg, if_neg hneg, bits_mul_pow]
    by_cases hwide : 64 ≤ rhs
    · rw [if_pos hwide, bits_shiftLeft_wide lhs (by omega)]
    · rw [if_neg hwide]

/-- The sign is what is left of an integer shifted by its whole width. -/
theorem ediv_pow_wide {z : Int} (hz : InI64 z) {n : Nat} (h : 64 ≤ n) :
    z / 2 ^ n = if z < 0 then -1 else 0 := by
  have hpow : (2 : Int) ^ 64 ≤ 2 ^ n := pow_le_pow_right₀ (by decide) h
  simp only [InI64, i64Min, i64Max] at hz
  by_cases hneg : z < 0
  · rw [if_pos hneg]
    exact Int.ediv_eq_neg_one_of_neg_of_le hneg (by omega)
  · rw [if_neg hneg]
    exact Int.ediv_eq_zero_of_lt (by omega) (by omega)

theorem applyBitwise_rightShift {lhs : Int} (hlhs : InI64 lhs) (rhs : Int) :
    applyBitwise .rightShift lhs rhs = (IntOp.bitwise .rightShift).result lhs rhs := by
  simp only [applyBitwise, IntOp.result]
  by_cases hneg : rhs < 0
  · rw [if_pos hneg, if_pos hneg]
  · rw [if_neg hneg, if_neg hneg]
    by_cases hwide : 64 ≤ rhs
    · rw [if_pos hwide, ediv_pow_wide hlhs (by omega)]
    · rw [if_neg hwide, BitVec.toInt_sshiftRight, bits_toInt hlhs, Int.shiftRight_eq_div_pow]
      norm_cast

theorem inI64_ediv_pow {z : Int} (hz : InI64 z) (n : Nat) : InI64 (z / 2 ^ n) := by
  have hshift := inI64_toInt ((bits z).sshiftRight n)
  rw [BitVec.toInt_sshiftRight, bits_toInt hz, Int.shiftRight_eq_div_pow] at hshift
  exact_mod_cast hshift

/-! ## Division -/

/-- The remainder PHP has and the fold does not. -/
def IntOp.Unfolded (op : IntOp) (lhs rhs : Int) : Prop := op = .mod ∧ lhs = i64Min ∧ rhs = -1

theorem inI64_tmod {lhs rhs : Int} (h : InI64 lhs) : InI64 (lhs.tmod rhs) := by
  have habs : (lhs.tmod rhs).natAbs ≤ lhs.natAbs := by
    rw [Int.natAbs_tmod]
    exact Nat.mod_le _ _
  simp only [InI64, i64Min, i64Max] at h ⊢
  by_cases hneg : 0 ≤ lhs
  · have hsign := Int.tmod_nonneg rhs hneg
    omega
  · have hsign : lhs.tmod rhs ≤ 0 := by
      rw [← neg_neg lhs, Int.neg_tmod]
      have hpos := Int.tmod_nonneg rhs (show 0 ≤ -lhs by omega)
      omega
    omega

theorem div_apply (lhs rhs : Int) : IntOp.div.apply lhs rhs = IntOp.div.result lhs rhs := by
  simp only [IntOp.apply, IntOp.result, checkedRem, checkedDiv]
  by_cases hzero : rhs = 0
  · simp [hzero]
  · by_cases hleast : lhs = i64Min ∧ rhs = -1
    · rw [hleast.1, hleast.2]
      decide
    · rw [if_neg (by simp [hzero, hleast]), Option.bind_some, if_neg hzero]
      by_cases hdvd : rhs ∣ lhs
      · rw [if_pos (Int.dvd_iff_tmod_eq_zero.mp hdvd), if_pos ⟨hzero, hdvd⟩,
          Int.tdiv_eq_ediv_of_dvd hdvd]
      · rw [if_neg fun h => hdvd (Int.dvd_iff_tmod_eq_zero.mpr h), if_neg fun h => hdvd h.2]

/-! ## All operators -/

namespace IntOp

theorem apply_eq_result {op : IntOp} {lhs rhs : Int} (hlhs : InI64 lhs)
    (h : ¬op.Unfolded lhs rhs) : op.apply lhs rhs = op.result lhs rhs := by
  cases op with
  | bitwise op =>
      cases op with
      | leftShift => exact applyBitwise_leftShift lhs rhs
      | rightShift => exact applyBitwise_rightShift hlhs rhs
      | _ => rfl
  | div => exact div_apply lhs rhs
  | mod =>
      have hleast : ¬(lhs = i64Min ∧ rhs = -1) := fun hboth => h ⟨rfl, hboth⟩
      simp only [apply, result, checkedRem, hleast, or_false]
  | _ => rfl

theorem apply_of_unfolded {op : IntOp} {lhs rhs : Int} (h : op.Unfolded lhs rhs) :
    op.apply lhs rhs = none := by
  have ⟨hop, hlhs, hrhs⟩ := h
  rw [hop, hlhs, hrhs]
  decide

theorem result_of_apply {op : IntOp} {lhs rhs n : Int} (hlhs : InI64 lhs)
    (h : op.apply lhs rhs = some n) : op.result lhs rhs = some n := by
  by_cases hunfolded : op.Unfolded lhs rhs
  · rw [apply_of_unfolded hunfolded] at h
    exact absurd h (by simp)
  · rw [← apply_eq_result hlhs hunfolded]
    exact h

theorem inI64_result {op : IntOp} {lhs rhs n : Int} (hlhs : InI64 lhs)
    (h : op.result lhs rhs = some n) : InI64 n := by
  cases op with
  | bitwise op =>
      cases op with
      | leftShift =>
          simp only [result] at h
          split at h
          · exact absurd h (by simp)
          · rw [← Option.some.inj h]
            exact inI64_toInt _
      | rightShift =>
          simp only [result] at h
          split at h
          · exact absurd h (by simp)
          · rw [← Option.some.inj h]
            exact inI64_ediv_pow hlhs _
      | _ =>
          rw [← Option.some.inj h]
          exact inI64_toInt _
  | div =>
      simp only [result] at h
      split at h
      · exact inI64_checkI64 h
      · exact absurd h (by simp)
  | mod =>
      simp only [result] at h
      split at h
      · exact absurd h (by simp)
      · rw [← Option.some.inj h]
        exact inI64_tmod hlhs
  | _ => exact inI64_checkI64 h

end IntOp

end PhpantomLsp.Folding
