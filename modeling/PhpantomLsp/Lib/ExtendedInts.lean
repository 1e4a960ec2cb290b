import Mathlib.Algebra.Order.Ring.Int
import Mathlib.Order.WithBot
import Mathlib.Data.Int.Order.Basic

/-!
# The extended number line

Integers with an end on either side, multiplied so that an infinite end times
zero is zero.  A product of two integers that lie between ends is bounded by
products of the ends: one of the four is not above it and one is not below it
(`corner_le`, `le_corner`).
-/

namespace PhpantomLsp.Lib

/-- An end of an interval. -/
inductive Bound where
  | negInf
  | finite (v : Int)
  | posInf
  deriving DecidableEq

namespace Bound

/-! ## Order -/

def toExtended : Bound → WithBot (WithTop Int)
  | negInf => ⊥
  | finite v => ((v : WithTop Int) : WithBot (WithTop Int))
  | posInf => ((⊤ : WithTop Int) : WithBot (WithTop Int))

theorem toExtended_injective : Function.Injective toExtended := by
  intro a b h
  cases a <;> cases b <;> simp_all [toExtended]

instance : LinearOrder Bound := LinearOrder.lift' toExtended toExtended_injective

@[simp] theorem finite_le_finite {a b : Int} : finite a ≤ finite b ↔ a ≤ b := by
  show toExtended _ ≤ toExtended _ ↔ _
  simp [toExtended]

@[simp] theorem negInf_le (b : Bound) : negInf ≤ b := by
  show toExtended _ ≤ toExtended _
  simp [toExtended]

@[simp] theorem le_posInf (b : Bound) : b ≤ posInf := by
  show toExtended _ ≤ toExtended _
  cases b <;> simp [toExtended]

@[simp] theorem le_negInf {b : Bound} : b ≤ negInf ↔ b = negInf := by
  show toExtended _ ≤ toExtended _ ↔ _
  cases b <;> simp [toExtended]

@[simp] theorem posInf_le {b : Bound} : posInf ≤ b ↔ b = posInf := by
  show toExtended _ ≤ toExtended _ ↔ _
  cases b <;> simp [toExtended]

/-! ## Products -/

def signum : Bound → Int
  | negInf => -1
  | finite v => v.sign
  | posInf => 1

/-- The end a product with an infinite end is, by its sign. -/
def ofSign (s : Int) : Bound := if s = 0 then finite 0 else if s < 0 then negInf else posInf

def mul : Bound → Bound → Bound
  | finite a, finite b => finite (a * b)
  | a, b => ofSign (a.signum * b.signum)

theorem mul_comm (a b : Bound) : mul a b = mul b a := by
  cases a <;> cases b <;> simp [mul, signum, Int.mul_comm]

theorem signum_cases (b : Bound) : b.signum = -1 ∨ b.signum = 0 ∨ b.signum = 1 := by
  cases b with
  | negInf => exact .inl rfl
  | posInf => exact .inr (.inr rfl)
  | finite v =>
      rcases Int.lt_trichotomy v 0 with hv | hv | hv
      · exact .inl (Int.sign_eq_neg_one_of_neg hv)
      · exact .inr (.inl (by simp [signum, hv]))
      · exact .inr (.inr (Int.sign_eq_one_of_pos hv))

theorem signum_mono {a b : Bound} (h : a ≤ b) : a.signum ≤ b.signum := by
  have ha := signum_cases a
  have hb := signum_cases b
  cases a with
  | negInf =>
      rw [signum]
      omega
  | posInf => rw [posInf_le.mp h]
  | finite x =>
      cases b with
      | negInf => exact absurd (le_negInf.mp h) (by simp)
      | posInf =>
          rw [show posInf.signum = 1 from rfl]
          omega
      | finite y =>
          have hxy := finite_le_finite.mp h
          simp only [signum] at ha hb ⊢
          have hx := Int.sign_nonneg_iff (x := x)
          have hy := Int.sign_nonneg_iff (x := y)
          have hx' := Int.sign_eq_one_iff_pos (a := x)
          have hy' := Int.sign_eq_one_iff_pos (a := y)
          omega

@[simp] theorem ofSign_zero : ofSign 0 = finite 0 := rfl

@[simp] theorem ofSign_one : ofSign 1 = posInf := rfl

@[simp] theorem ofSign_neg_one : ofSign (-1) = negInf := rfl

theorem ofSign_mono {s t : Int} (h : s ≤ t) : ofSign s ≤ ofSign t := by
  unfold ofSign
  split_ifs <;> first | omega | simp

theorem mul_negInf (b : Bound) : mul negInf b = ofSign (-b.signum) := by
  rw [mul, signum, Int.neg_one_mul]
  simp

theorem mul_posInf (b : Bound) : mul posInf b = ofSign b.signum := by
  rw [mul, signum, Int.one_mul]
  simp

theorem mul_zero (b : Bound) : mul (finite 0) b = finite 0 := by
  cases b <;> simp [mul, signum]

/-- Multiplication by what is not negative keeps the order. -/
theorem mul_mono {s a b : Bound} (hs : 0 ≤ s.signum) (h : a ≤ b) : mul s a ≤ mul s b := by
  cases s with
  | negInf => exact absurd hs (by decide)
  | posInf =>
      rw [mul_posInf, mul_posInf]
      exact ofSign_mono (signum_mono h)
  | finite x =>
      by_cases hx : x = 0
      · rw [hx, mul_zero, mul_zero]
      · have hpos : x.sign = 1 := by
          rcases signum_cases (finite x) with hsign | hsign | hsign
          · rw [hsign] at hs
            omega
          · exact absurd (Int.sign_eq_zero_iff_zero.mp hsign) hx
          · exact hsign
        cases a with
        | negInf => simp [mul, signum, hpos]
        | posInf => rw [posInf_le.mp h]
        | finite y =>
            cases b with
            | negInf => exact absurd (le_negInf.mp h) (by simp)
            | posInf => simp [mul, signum, hpos]
            | finite z =>
                exact finite_le_finite.mpr (Int.mul_le_mul_of_nonneg_left (finite_le_finite.mp h)
                  (by have := Int.sign_eq_one_iff_pos.mp hpos; omega))

/-- Multiplication by what is not positive reverses it. -/
theorem mul_anti {s a b : Bound} (hs : s.signum ≤ 0) (h : a ≤ b) : mul s b ≤ mul s a := by
  cases s with
  | posInf => exact absurd hs (by decide)
  | negInf =>
      rw [mul_negInf, mul_negInf]
      exact ofSign_mono (Int.neg_le_neg (signum_mono h))
  | finite x =>
      by_cases hx : x = 0
      · rw [hx, mul_zero, mul_zero]
      · have hneg : x.sign = -1 := by
          rcases signum_cases (finite x) with hsign | hsign | hsign
          · exact hsign
          · exact absurd (Int.sign_eq_zero_iff_zero.mp hsign) hx
          · rw [hsign] at hs
            omega
        cases a with
        | negInf => simp [mul, signum, hneg]
        | posInf => rw [posInf_le.mp h]
        | finite y =>
            cases b with
            | negInf => exact absurd (le_negInf.mp h) (by simp)
            | posInf => simp [mul, signum, hneg]
            | finite z =>
                exact finite_le_finite.mpr (Int.mul_le_mul_of_nonpos_left
                  (by have := Int.sign_eq_neg_one_iff_neg.mp hneg; omega) (finite_le_finite.mp h))

/-- Between two ends, one of the products with the ends is not above the
product. -/
theorem end_le_mul (s : Bound) {lo hi y : Bound} (hlo : lo ≤ y) (hhi : y ≤ hi) :
    mul s lo ≤ mul s y ∨ mul s hi ≤ mul s y := by
  rcases Int.le_total 0 s.signum with hs | hs
  · exact .inl (mul_mono hs hlo)
  · exact .inr (mul_anti hs hhi)

theorem mul_le_end (s : Bound) {lo hi y : Bound} (hlo : lo ≤ y) (hhi : y ≤ hi) :
    mul s y ≤ mul s lo ∨ mul s y ≤ mul s hi := by
  rcases Int.le_total 0 s.signum with hs | hs
  · exact .inr (mul_mono hs hhi)
  · exact .inl (mul_anti hs hlo)

/-- The products of the ends of two intervals. -/
def corners (lo hi lo' hi' : Bound) : List Bound :=
  [mul lo lo', mul lo hi', mul hi lo', mul hi hi']

section

variable {lo hi lo' hi' x y : Bound} (hlo : lo ≤ x) (hhi : x ≤ hi) (hlo' : lo' ≤ y) (hhi' : y ≤ hi')

include hlo hhi hlo' hhi'

theorem corner_le : ∃ c ∈ corners lo hi lo' hi', c ≤ mul x y := by
  have hleft (e : Bound) : mul lo e ≤ mul x e ∨ mul hi e ≤ mul x e := by
    have hends := end_le_mul e hlo hhi
    rwa [mul_comm e lo, mul_comm e hi, mul_comm e x] at hends
  rcases end_le_mul x hlo' hhi' with h | h
  · rcases hleft lo' with h' | h'
    · exact ⟨_, by simp [corners], h'.trans h⟩
    · exact ⟨_, by simp [corners], h'.trans h⟩
  · rcases hleft hi' with h' | h'
    · exact ⟨_, by simp [corners], h'.trans h⟩
    · exact ⟨_, by simp [corners], h'.trans h⟩

theorem le_corner : ∃ c ∈ corners lo hi lo' hi', mul x y ≤ c := by
  have hleft (e : Bound) : mul x e ≤ mul lo e ∨ mul x e ≤ mul hi e := by
    have hends := mul_le_end e hlo hhi
    rwa [mul_comm e lo, mul_comm e hi, mul_comm e x] at hends
  rcases mul_le_end x hlo' hhi' with h | h
  · rcases hleft lo' with h' | h'
    · exact ⟨_, by simp [corners], h.trans h'⟩
    · exact ⟨_, by simp [corners], h.trans h'⟩
  · rcases hleft hi' with h' | h'
    · exact ⟨_, by simp [corners], h.trans h'⟩
    · exact ⟨_, by simp [corners], h.trans h'⟩

end

end Bound

end PhpantomLsp.Lib
