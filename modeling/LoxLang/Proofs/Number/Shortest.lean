import Mathlib
import LoxLang.Number.Shortest

/-!
The shortest decimal reads back. It lies in the interval of its double, whatever the grid on which it is
found, and the intervals of two doubles have no number in common.
-/
namespace LoxLang.Number

def Decimal.value (d : Decimal) : ℚ := d.digits * 10 ^ d.place

theorem pow_toNat {a : ℚ} (ha : a ≠ 0) (n : Int) : a ^ n.toNat = a ^ n * a ^ (-n).toNat := by
  rw [← zpow_natCast, ← zpow_natCast, ← zpow_add₀ ha]
  congr 1
  omega

namespace Rounding
variable {r : Rounding} {place : Int} {q : ℚ}

/-- The number is read back as the double; the ends are if the interval is closed. -/
def Reads (r : Rounding) (q : ℚ) : Prop :=
  if r.closed then r.low * 2 ^ r.exponent ≤ q ∧ q ≤ r.high * 2 ^ r.exponent
  else r.low * 2 ^ r.exponent < q ∧ q < r.high * 2 ^ r.exponent

/-- A unit, and below it a cell of the grid, in a measure that makes both whole. -/
def factor (r : Rounding) (place : Int) : Nat := 2 ^ r.exponent.toNat * 10 ^ (-place).toNat

def cell (r : Rounding) (place : Int) : Nat := 2 ^ (-r.exponent).toNat * 10 ^ place.toNat

theorem measure (r : Rounding) (place : Int) : ∃ k : ℚ, 0 < k ∧
    (r.factor place : ℚ) = 2 ^ r.exponent * k ∧ (r.cell place : ℚ) = 10 ^ place * k := by
  refine ⟨2 ^ (-r.exponent).toNat * 10 ^ (-place).toNat, by positivity, ?_, ?_⟩
  · rw [factor, Nat.cast_mul, Nat.cast_pow, Nat.cast_pow, Nat.cast_ofNat, Nat.cast_ofNat,
      pow_toNat two_ne_zero]
    ring
  · rw [cell, Nat.cast_mul, Nat.cast_pow, Nat.cast_pow, Nat.cast_ofNat, Nat.cast_ofNat,
      pow_toNat (by norm_num) place]
    ring

theorem holds_iff (t : Nat) :
    r.holds (r.factor place) (t * r.cell place) = true ↔ r.Reads (t * 10 ^ place) := by
  obtain ⟨k, hk, hfactor, hcell⟩ := r.measure place
  have hle (n m : Nat) (a b : ℚ) : (n : ℚ) * a ≤ m * b ↔ (n : ℚ) * (a * k) ≤ m * (b * k) := by
    rw [← mul_assoc, ← mul_assoc, mul_le_mul_iff_left₀ hk]
  have hlow (n : Nat) : n * r.factor place ≤ t * r.cell place ↔
      (n : ℚ) * 2 ^ r.exponent ≤ t * 10 ^ place := by
    rw [hle, ← hfactor, ← hcell]
    exact_mod_cast Iff.rfl
  have hhigh (n : Nat) : t * r.cell place ≤ n * r.factor place ↔
      (t : ℚ) * 10 ^ place ≤ n * 2 ^ r.exponent := by
    rw [hle, ← hfactor, ← hcell]
    exact_mod_cast Iff.rfl
  unfold holds Reads
  split
  · rw [Bool.and_eq_true, decide_eq_true_iff, decide_eq_true_iff, hlow, hhigh]
  · rw [Bool.and_eq_true, decide_eq_true_iff, decide_eq_true_iff, ← not_le, ← not_le, hlow, hhigh,
      not_le, not_le]

theorem reads_of_onGrid {digits : Nat} (h : r.onGrid? place = some digits) :
    r.Reads (digits * 10 ^ place) := by
  rw [← holds_iff]
  simp only [onGrid?] at h
  split at h
  · next hbelow habove =>
    cases h
    split
    · exact hbelow
    · exact habove
  · next hbelow _ => cases h; exact hbelow
  · next _ habove => cases h; exact habove
  · cases h

/-- A grid on which the value itself lies has a hit. -/
theorem onGrid_of_fine (hlow : r.low < r.value) (hhigh : r.value < r.high)
    (hplace : place ≤ min r.exponent 0) : r.onGrid? place ≠ none := by
  have hdvd : r.cell place ∣ r.factor place := by
    have hzero : place.toNat = 0 := by omega
    have hle : (-r.exponent).toNat ≤ (-place).toNat := by omega
    rw [cell, factor, hzero, pow_zero, mul_one]
    exact Dvd.dvd.mul_left ((pow_dvd_pow 2 hle).trans (pow_dvd_pow_of_dvd (by norm_num) _)) _
  have hvalue : r.value * r.factor place / r.cell place * r.cell place = r.value * r.factor place :=
    Nat.div_mul_cancel (hdvd.mul_left _)
  have hpos : 0 < r.factor place := by
    unfold factor
    positivity
  have hholds : r.holds (r.factor place)
      (r.value * r.factor place / r.cell place * r.cell place) = true := by
    have hl := Nat.mul_lt_mul_of_pos_right hlow hpos
    have hh := Nat.mul_lt_mul_of_pos_right hhigh hpos
    rw [hvalue, holds]
    split <;> simp [hl, hh, hl.le, hh.le]
  simp only [onGrid?]
  split
  · nofun
  · nofun
  · nofun
  · next hbelow _ => exact absurd (hbelow.symm.trans hholds) (by decide)

theorem onGrid_firstHit (hlow : r.low < r.value) (hhigh : r.value < r.high) {places : Nat}
    (hplaces : 0 < places) (hlast : place < min r.exponent 0 + places) :
    r.onGrid? (r.firstHit places place).place = some (r.firstHit places place).digits := by
  induction places generalizing place with
  | zero => exact absurd hplaces (Nat.lt_irrefl 0)
  | succ places ih =>
    rw [firstHit]
    cases hgrid : r.onGrid? place with
    | some digits => exact hgrid
    | none =>
      have hcoarse : min r.exponent 0 < place := by
        by_contra hfine
        exact onGrid_of_fine hlow hhigh (not_lt.mp hfine) hgrid
      exact ih (by omega) (by omega)

theorem reads_shortest (hlow : r.low < r.value) (hhigh : r.value < r.high) :
    r.Reads r.shortest.value :=
  reads_of_onGrid (onGrid_firstHit hlow hhigh (Nat.succ_pos _) (by omega))

end Rounding

structure IsDouble (units : Nat) (exponent : Int) : Prop where
  pos : 0 < units
  lt : units < 2 * leadingBit
  least : leastExponent ≤ exponent
  full : leastExponent < exponent → leadingBit ≤ units

namespace IsDouble
variable {u u' : Nat} {e e' : Int} {q : ℚ}

/-- In quarter units of the double, the interval is closed only if the units are even. -/
theorem reads_iff (u : Nat) (e : Int) (q : ℚ) : (Rounding.ofDouble u e).Reads q ↔
    if u % 2 = 0
    then ((Rounding.ofDouble u e).low : ℚ) * 2 ^ (e - 2) ≤ q ∧ q ≤ (4 * u + 2 : Nat) * 2 ^ (e - 2)
    else ((Rounding.ofDouble u e).low : ℚ) * 2 ^ (e - 2) < q ∧ q < (4 * u + 2 : Nat) * 2 ^ (e - 2) := by
  unfold Rounding.Reads
  simp only [Rounding.ofDouble, decide_eq_true_eq]

theorem reads_shortest (h : IsDouble u e) :
    (Rounding.ofDouble u e).Reads (Rounding.ofDouble u e).shortest.value := by
  have hpos := h.pos
  refine Rounding.reads_shortest ?_ ?_
  · simp only [Rounding.ofDouble]
    split <;> omega
  · simp only [Rounding.ofDouble]
    omega

theorem pos_of_reads (h : IsDouble u e) (hq : (Rounding.ofDouble u e).Reads q) : 0 < q := by
  have hlow : 0 < (Rounding.ofDouble u e).low := by
    have hpos := h.pos
    simp only [Rounding.ofDouble]
    split <;> omega
  have hscaled : (0 : ℚ) < (Rounding.ofDouble u e).low * 2 ^ (e - 2) := by positivity
  rw [reads_iff] at hq
  split at hq
  · exact hscaled.trans_le hq.1
  · exact hscaled.trans hq.1

/-- Below a number that two intervals share one ends, above it the other begins, and neither has that end
unless its units are even. -/
theorem ends_of_reads (hq : (Rounding.ofDouble u e).Reads q) (hq' : (Rounding.ofDouble u' e').Reads q) :
    ((Rounding.ofDouble u' e').low : ℚ) * 2 ^ (e' - 2) ≤ (4 * u + 2 : Nat) * 2 ^ (e - 2) ∧
      (u % 2 = 0 ∧ u' % 2 = 0 ∨
        ((Rounding.ofDouble u' e').low : ℚ) * 2 ^ (e' - 2) < (4 * u + 2 : Nat) * 2 ^ (e - 2)) := by
  rw [reads_iff] at hq hq'
  split at hq <;> split at hq'
  · next hu hu' => exact ⟨hq'.1.trans hq.2, .inl ⟨hu, hu'⟩⟩
  · have hlt := hq'.1.trans_le hq.2
    exact ⟨hlt.le, .inr hlt⟩
  · have hlt := hq'.1.trans_lt hq.2
    exact ⟨hlt.le, .inr hlt⟩
  · have hlt := hq'.1.trans hq.2
    exact ⟨hlt.le, .inr hlt⟩

/-- A larger exponent at least doubles the units. -/
theorem units_of_reads {m : Nat} (hm : m = 1 ∧ e = e' ∨ m = 2 ∧ e < e')
    (hq : (Rounding.ofDouble u e).Reads q) (hq' : (Rounding.ofDouble u' e').Reads q) :
    m * (Rounding.ofDouble u' e').low ≤ 4 * u + 2 ∧
      (u % 2 = 0 ∧ u' % 2 = 0 ∨ m * (Rounding.ofDouble u' e').low < 4 * u + 2) := by
  have hs : (0 : ℚ) < 2 ^ (e - 2) := by positivity
  have hscale : (m : ℚ) * 2 ^ (e - 2) ≤ 2 ^ (e' - 2) := by
    rcases hm with ⟨rfl, rfl⟩ | ⟨rfl, hlt⟩
    · rw [Nat.cast_one, one_mul]
    · calc ((2 : Nat) : ℚ) * 2 ^ (e - 2) = 2 ^ (e - 2 + 1) := by
            rw [zpow_add_one₀ two_ne_zero, Nat.cast_ofNat, mul_comm]
        _ ≤ 2 ^ (e' - 2) := zpow_le_zpow_right₀ one_le_two (by omega)
  have hlow : ((m * (Rounding.ofDouble u' e').low : Nat) : ℚ) * 2 ^ (e - 2) ≤
      (Rounding.ofDouble u' e').low * 2 ^ (e' - 2) := by
    rw [Nat.cast_mul, mul_comm (m : ℚ), mul_assoc]
    exact mul_le_mul_of_nonneg_left hscale (Nat.cast_nonneg _)
  obtain ⟨hle, hlt⟩ := ends_of_reads hq hq'
  refine ⟨?_, hlt.imp_right fun hlt => ?_⟩
  · exact_mod_cast (mul_le_mul_iff_left₀ hs).mp (hlow.trans hle)
  · exact_mod_cast (mul_lt_mul_iff_left₀ hs).mp (hlow.trans_lt hlt)

/-- No number is read back as each of two doubles. -/
theorem not_reads_of_lt (h : IsDouble u e) (h' : IsDouble u' e') (hlt : e < e' ∨ e = e' ∧ u < u')
    (hq : (Rounding.ofDouble u e).Reads q) (hq' : (Rounding.ofDouble u' e').Reads q) : False := by
  have hbit : leadingBit = 2 ^ 52 := rfl
  have hlow : (Rounding.ofDouble u' e').low =
      4 * u' - if u' = leadingBit ∧ leastExponent < e' then 1 else 2 := rfl
  have hu := h.lt
  rcases hlt with hlt | ⟨rfl, hlt⟩
  · have hleast := h.least.trans_lt hlt
    have hfull := h'.full hleast
    obtain ⟨hle, hstrict⟩ := units_of_reads (.inr ⟨rfl, hlt⟩) hq hq'
    by_cases hu' : u' = leadingBit
    · rw [hlow, if_pos ⟨hu', hleast⟩] at hle hstrict
      omega
    · rw [hlow, if_neg fun h => hu' h.1] at hle hstrict
      omega
  · have hnot : ¬(u' = leadingBit ∧ leastExponent < e) := by
      rintro ⟨rfl, hleast⟩
      exact Nat.not_lt_of_le (h.full hleast) hlt
    obtain ⟨hle, hstrict⟩ := units_of_reads (.inl ⟨rfl, rfl⟩) hq hq'
    rw [hlow, if_neg hnot] at hle hstrict
    omega

theorem eq_of_reads (h : IsDouble u e) (h' : IsDouble u' e')
    (hq : (Rounding.ofDouble u e).Reads q) (hq' : (Rounding.ofDouble u' e').Reads q) :
    u = u' ∧ e = e' := by
  rcases lt_trichotomy e e' with he | he | he
  · exact (not_reads_of_lt h h' (.inl he) hq hq').elim
  · rcases lt_trichotomy u u' with hu | hu | hu
    · exact (not_reads_of_lt h h' (.inr ⟨he, hu⟩) hq hq').elim
    · exact ⟨hu, he⟩
    · exact (not_reads_of_lt h' h (.inr ⟨he.symm, hu⟩) hq' hq).elim
  · exact (not_reads_of_lt h' h (.inl he) hq' hq).elim

end IsDouble
end LoxLang.Number
