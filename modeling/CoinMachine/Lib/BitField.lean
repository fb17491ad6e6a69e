import Mathlib.Algebra.Group.Nat.Defs
/-!
# Bit fields of a machine word

`BitField.put lo len v r` is the read-modify-write pair `r &= ~(mask << lo); r |= (v << lo)` that
drivers use to set a field of a register; `getLsbD_put` says bit by bit what it does. The second part
is about the or with a field (`lift`) and the clearing of one, as set and clear registers do it.
-/

namespace BitField

variable {w : ℕ}

/-- The mask with the `len` low bits set. -/
def mask (w len : ℕ) : BitVec w := BitVec.ofNat w (2 ^ len - 1)

/-- Clear the field of `len` bits at `lo`, then or `v` into it. -/
def put (lo len : ℕ) (v r : BitVec w) : BitVec w := (r &&& ~~~(mask w len <<< lo)) ||| (v <<< lo)

/-- The field of `len` bits at `lo`. -/
def get (lo len : ℕ) (r : BitVec w) : BitVec len := r.extractLsb' lo len

theorem getLsbD_mask (len i : ℕ) : (mask w len).getLsbD i = (decide (i < w) && decide (i < len)) := by
  simp [mask, BitVec.getLsbD_ofNat, Nat.testBit_two_pow_sub_one]

/-- `v` uses no bit beyond the field width `len`. -/
def Fits (len : ℕ) (v : BitVec w) : Prop := ∀ i, len ≤ i → v.getLsbD i = false

theorem getLsbD_put {lo len : ℕ} {v : BitVec w} (hv : Fits len v) (r : BitVec w) (i : ℕ) (hi : i < w) :
    (put lo len v r).getLsbD i =
      if lo ≤ i ∧ i < lo + len then v.getLsbD (i - lo) else r.getLsbD i := by
  simp only [put, BitVec.getLsbD_or, BitVec.getLsbD_and, BitVec.getLsbD_not, BitVec.getLsbD_shiftLeft,
    getLsbD_mask, hi, decide_true, Bool.true_and]
  by_cases h1 : i < lo
  · simp [h1, show ¬ lo ≤ i by omega]
  · by_cases h2 : i < lo + len
    · simp [h1, h2, show lo ≤ i by omega, show i - lo < w by omega, show i - lo < len by omega]
    · simp [h1, h2, show ¬ i - lo < len by omega, hv (i - lo) (by omega)]

/-! ## Raising and clearing the bits of one field -/

/-- The word that holds `v` in the field at `lo` and zeros elsewhere. -/
def lift {len : ℕ} (w lo : ℕ) (v : BitVec len) : BitVec w := v.setWidth w <<< lo

theorem getLsbD_lift {len : ℕ} (lo : ℕ) (v : BitVec len) (hw : lo + len ≤ w) (i : ℕ) :
    (lift w lo v).getLsbD i = (decide (lo ≤ i ∧ i < lo + len) && v.getLsbD (i - lo)) := by
  rw [lift, BitVec.getLsbD_shiftLeft, BitVec.getLsbD_setWidth]
  by_cases h : lo ≤ i ∧ i < lo + len
  · simp [h, show i < w by omega, show ¬ i < lo by omega, show i - lo < w by omega]
  · by_cases h1 : i < lo
    · simp [h, h1]
    · simp [h, h1, BitVec.getLsbD_of_ge v (i - lo) (by omega)]

section
variable {lo len : ℕ} (hw : lo + len ≤ w)
include hw

theorem get_or_lift (v : BitVec len) (r : BitVec w) : get lo len (r ||| lift w lo v) = get lo len r ||| v := by
  apply BitVec.eq_of_getLsbD_eq
  intro i hi
  simp only [get, BitVec.getLsbD_extractLsb', BitVec.getLsbD_or, hi, decide_true, Bool.true_and,
    getLsbD_lift lo v hw, Nat.add_sub_cancel_left]
  simp [hi]

theorem getLsbD_or_lift_outside (v : BitVec len) (r : BitVec w) {i : ℕ} (hi : ¬(lo ≤ i ∧ i < lo + len)) :
    (r ||| lift w lo v).getLsbD i = r.getLsbD i := by
  rw [BitVec.getLsbD_or, getLsbD_lift lo v hw]
  simp [hi]

theorem getLsbD_clear_lift (v : BitVec len) (r : BitVec w) (i : ℕ) :
    (r &&& ~~~lift w lo v).getLsbD i = (r.getLsbD i && !(decide (lo ≤ i ∧ i < lo + len) && v.getLsbD (i - lo))) := by
  by_cases hiw : i < w
  · simp only [BitVec.getLsbD_and, BitVec.getLsbD_not, getLsbD_lift lo _ hw, hiw, decide_true, Bool.true_and]
  · simp [BitVec.getLsbD_of_ge _ i (Nat.le_of_not_lt hiw)]

theorem get_clear_lift (v : BitVec len) (r : BitVec w) :
    get lo len (r &&& ~~~lift w lo v) = get lo len r &&& ~~~v := by
  apply BitVec.eq_of_getLsbD_eq
  intro i hi
  simp only [get, BitVec.getLsbD_extractLsb', BitVec.getLsbD_and, BitVec.getLsbD_not, getLsbD_clear_lift hw, hi,
    decide_true, Bool.true_and, Nat.add_sub_cancel_left]
  simp [hi]

variable {lo' len' : ℕ} (hd : lo' + len' ≤ lo ∨ lo + len ≤ lo')
include hd

theorem get_or_lift_disjoint (v : BitVec len) (r : BitVec w) :
    get lo' len' (r ||| lift w lo v) = get lo' len' r := by
  apply BitVec.eq_of_getLsbD_eq
  intro i hi
  simp only [get, BitVec.getLsbD_extractLsb']
  rw [getLsbD_or_lift_outside hw v r (by omega)]

theorem get_clear_lift_disjoint (v : BitVec len) (r : BitVec w) :
    get lo' len' (r &&& ~~~lift w lo v) = get lo' len' r := by
  apply BitVec.eq_of_getLsbD_eq
  intro i hi
  simp only [get, BitVec.getLsbD_extractLsb', getLsbD_clear_lift hw]
  simp [show ¬(lo ≤ lo' + i ∧ lo' + i < lo + len) by omega]

end

end BitField
