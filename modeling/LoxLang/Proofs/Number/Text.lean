import LoxLang.Number.Text
import LoxLang.Proofs.Number.Shortest

/-!
Finite doubles have distinct texts. A text denotes the decimal it was made from, the decimal lies in the
interval of one double only, and the sign stands in front.
-/
namespace LoxLang.Number

def numeralValue (numeral : List Char) : ℚ :=
  let whole := numeral.takeWhile (· ≠ '.')
  let fraction := (numeral.dropWhile (· ≠ '.')).drop 1
  valueOfDigits (whole ++ fraction) / 10 ^ fraction.length

theorem numeralValue_append {whole rest : List Char} (h : '.' ∉ whole)
    (hrest : rest = [] ∨ ∃ fraction, rest = '.' :: fraction) :
    numeralValue (whole ++ rest) = valueOfDigits (whole ++ rest.tail) / 10 ^ rest.tail.length := by
  have hall : ∀ c ∈ whole, decide (c ≠ '.') = true := fun c hc =>
    decide_eq_true fun hpoint => h (hpoint ▸ hc)
  have htake : rest.takeWhile (· ≠ '.') = [] := by
    obtain rfl | ⟨fraction, rfl⟩ := hrest <;> rfl
  have hdrop : (rest.dropWhile (· ≠ '.')).drop 1 = rest.tail := by
    obtain rfl | ⟨fraction, rfl⟩ := hrest <;> rfl
  rw [numeralValue, List.takeWhile_append_of_pos hall, List.dropWhile_append_of_pos hall, htake,
    hdrop, List.append_nil]

section Digits
variable {n : Nat}

theorem valueOfDigits_toDigits : valueOfDigits (Nat.toDigits 10 n) = n := Nat.ofDigitChars_ten_toDigits

theorem valueOfDigits_zeros (zeros : Nat) (ds : List Char) :
    valueOfDigits (List.replicate zeros '0' ++ ds) = valueOfDigits ds := by
  have h := Nat.ofDigitChars_append (b := 10) (l := List.replicate zeros '0') (m := ds) 0
  rwa [Nat.ofDigitChars_replicate_zero, Nat.mul_zero] at h

theorem valueOfDigits_append_zeros (ds : List Char) (zeros : Nat) :
    valueOfDigits (ds ++ List.replicate zeros '0') = 10 ^ zeros * valueOfDigits ds := by
  have h := Nat.ofDigitChars_append (b := 10) (l := ds) (m := List.replicate zeros '0') 0
  rwa [Nat.ofDigitChars_replicate_zero] at h

theorem isDigit_of_mem_toDigits {c : Char} (h : c ∈ Nat.toDigits 10 n) : c.isDigit = true :=
  Nat.isDigit_of_mem_toDigits (by decide) (by decide) h

theorem point_not_mem_toDigits : '.' ∉ Nat.toDigits 10 n := fun h =>
  absurd (isDigit_of_mem_toDigits h) (by decide)

end Digits

structure IsNumeral (numeral : List Char) : Prop where
  head : ∃ c ∈ numeral.head?, c.isDigit = true
  all : ∀ c ∈ numeral, c.isDigit = true ∨ c = '.'

section Layouts
variable {ds : List Char} {places : Nat}

theorem numeralValue_whole (h : '.' ∉ ds) :
    numeralValue (ds ++ List.replicate places '0') = valueOfDigits ds * 10 ^ places := by
  have hwhole : '.' ∉ ds ++ List.replicate places '0' := by simp [h]
  have hvalue := numeralValue_append hwhole (.inl rfl)
  rw [List.append_nil, List.tail_nil, List.append_nil, List.length_nil, pow_zero, div_one,
    valueOfDigits_append_zeros, Nat.cast_mul, Nat.cast_pow, Nat.cast_ofNat] at hvalue
  rw [hvalue, mul_comm]

theorem numeralValue_below_one (hlength : ds.length ≤ places) :
    numeralValue ('0' :: '.' :: (List.replicate (places - ds.length) '0' ++ ds)) =
      valueOfDigits ds / 10 ^ places := by
  have hwhole : '.' ∉ ['0'] := by decide
  have hvalue := numeralValue_append hwhole (.inr ⟨List.replicate (places - ds.length) '0' ++ ds, rfl⟩)
  rw [List.tail_cons, List.length_append, List.length_replicate, Nat.sub_add_cancel hlength] at hvalue
  rw [← valueOfDigits_zeros (places - ds.length + 1) ds]
  exact hvalue

theorem numeralValue_inside (h : '.' ∉ ds) (hlength : places ≤ ds.length) :
    numeralValue (ds.take (ds.length - places) ++ '.' :: ds.drop (ds.length - places)) =
      valueOfDigits ds / 10 ^ places := by
  have hwhole : '.' ∉ ds.take (ds.length - places) := fun hpoint => h (List.mem_of_mem_take hpoint)
  have hvalue := numeralValue_append hwhole (.inr ⟨ds.drop (ds.length - places), rfl⟩)
  rwa [List.tail_cons, List.take_append_drop, List.length_drop, Nat.sub_sub_self hlength] at hvalue

end Layouts

namespace Decimal
variable (d : Decimal)

theorem numeralValue_chars : numeralValue d.chars = d.value := by
  have hvalue : valueOfDigits (Nat.toDigits 10 d.digits) = d.digits := valueOfDigits_toDigits
  have hpoint : '.' ∉ Nat.toDigits 10 d.digits := point_not_mem_toDigits
  have hdecimal : d.value = valueOfDigits (Nat.toDigits 10 d.digits) * 10 ^ d.place := by
    rw [hvalue, value]
  rw [hdecimal]
  unfold chars
  dsimp only
  split
  · next hplace =>
    rw [numeralValue_whole hpoint, ← zpow_natCast, Int.toNat_of_nonneg hplace]
  · next hplace =>
    have hplaces : (10 : ℚ) ^ d.place = (10 ^ (-d.place).toNat)⁻¹ := by
      rw [← zpow_natCast, Int.toNat_of_nonneg (by omega), zpow_neg, inv_inv]
    rw [hplaces, ← div_eq_mul_inv]
    split
    · next hlength => exact numeralValue_below_one hlength
    · next hlength => exact numeralValue_inside hpoint (Nat.le_of_not_le hlength)

theorem isNumeral_chars : IsNumeral d.chars := by
  have hdigits : ∀ c ∈ Nat.toDigits 10 d.digits, c.isDigit = true := fun c =>
    isDigit_of_mem_toDigits
  have hzeros (n : Nat) : ∀ c ∈ List.replicate n '0', c.isDigit = true := fun c hc =>
    List.eq_of_mem_replicate hc ▸ rfl
  obtain ⟨first, rest, hfirst⟩ := List.exists_cons_of_ne_nil (Nat.toDigits_ne_nil (n := d.digits) (b := 10))
  have hhead : first.isDigit = true := hdigits first (hfirst ▸ List.mem_cons_self)
  unfold chars
  dsimp only
  split
  · refine ⟨⟨first, by simp [hfirst], hhead⟩, fun c hc => .inl ?_⟩
    exact (List.mem_append.mp hc).elim (hdigits c) (hzeros _ c)
  split
  · refine ⟨⟨'0', rfl, rfl⟩, fun c hc => ?_⟩
    rcases List.mem_cons.mp hc with rfl | hc
    · exact .inl rfl
    rcases List.mem_cons.mp hc with rfl | hc
    · exact .inr rfl
    · exact .inl ((List.mem_append.mp hc).elim (hzeros _ c) (hdigits c))
  · next hlength =>
    refine ⟨⟨first, ?_, hhead⟩, fun c hc => ?_⟩
    · obtain ⟨k, hk⟩ := Nat.exists_eq_succ_of_ne_zero (Nat.sub_ne_zero_of_lt (Nat.lt_of_not_le hlength))
      rw [hk, hfirst]
      rfl
    · rcases List.mem_append.mp hc with hc | hc
      · exact .inl (hdigits c (List.mem_of_mem_take hc))
      rcases List.mem_cons.mp hc with rfl | hc
      · exact .inr rfl
      · exact .inl (hdigits c (List.mem_of_mem_drop hc))

end Decimal

section Fields
variable {bits bits' : UInt64} {b f b' f' : Nat}

def biased (bits : UInt64) : Nat := bits.toNat / 2 ^ 52 % 2 ^ 11

def fraction (bits : UInt64) : Nat := bits.toNat % 2 ^ 52

theorem toNat_biased (bits : UInt64) : (bits >>> 52 &&& 0x7ff).toNat = biased bits := by
  rw [UInt64.toNat_and, UInt64.toNat_shiftRight]
  change bits.toNat >>> 52 &&& (2 ^ 11 - 1) = _
  rw [Nat.and_two_pow_sub_one_eq_mod, Nat.shiftRight_eq_div_pow, biased]

theorem toNat_fraction (bits : UInt64) : (bits &&& 0xfffffffffffff).toNat = fraction bits := by
  rw [UInt64.toNat_and]
  exact Nat.and_two_pow_sub_one_eq_mod _ 52

theorem negative_iff (bits : UInt64) : negative bits = true ↔ bits.toNat / 2 ^ 63 = 1 := by
  rw [negative, decide_eq_true_iff, ← UInt64.toNat_inj, UInt64.toNat_shiftRight]
  change bits.toNat >>> 63 = 1 ↔ _
  rw [Nat.shiftRight_eq_div_pow]

/-- Sign, exponent and fraction are all that the bits hold. -/
theorem eq_of_fields (hsign : negative bits = negative bits') (hbiased : biased bits = biased bits')
    (hfraction : fraction bits = fraction bits') : bits = bits' := by
  have hiff : bits.toNat / 2 ^ 63 = 1 ↔ bits'.toNat / 2 ^ 63 = 1 := by
    rw [← negative_iff, ← negative_iff, hsign]
  have hlt := bits.toNat_lt
  have hlt' := bits'.toNat_lt
  unfold biased at hbiased
  unfold fraction at hfraction
  refine UInt64.toNat_inj.mp ?_
  omega

def units (biased fraction : Nat) : Nat := if biased = 0 then fraction else leadingBit + fraction

def exponent (biased : Nat) : Int :=
  if biased = 0 then leastExponent else leastExponent + biased - 1

theorem isDouble_units (hf : f < leadingBit) (hne : ¬(b = 0 ∧ f = 0)) :
    IsDouble (units b f) (exponent b) := by
  unfold units exponent
  by_cases hb : b = 0
  · rw [if_pos hb, if_pos hb]
    exact ⟨by omega, by omega, by omega, fun h => absurd h (lt_irrefl _)⟩
  · rw [if_neg hb, if_neg hb]
    exact ⟨by omega, by omega, by omega, fun _ => by omega⟩

theorem fields_of_units (hf : f < leadingBit) (hf' : f' < leadingBit)
    (hunits : units b f = units b' f') (hexponent : exponent b = exponent b') : b = b' ∧ f = f' := by
  unfold units at hunits
  unfold exponent at hexponent
  by_cases hb : b = 0 <;> by_cases hb' : b' = 0 <;>
    simp only [hb, hb', if_true, if_false] at hunits hexponent <;> omega

theorem magnitude_eq (hfinite : biased bits ≠ 0x7ff) : magnitude bits =
    if biased bits = 0 ∧ fraction bits = 0 then ['0']
    else (Rounding.ofDouble (units (biased bits) (fraction bits))
      (exponent (biased bits))).shortest.chars := by
  unfold magnitude units exponent
  simp only [toNat_biased, toNat_fraction, if_neg hfinite]
  split
  · rfl
  · split <;> rfl

theorem fraction_lt (bits : UInt64) : fraction bits < leadingBit := Nat.mod_lt _ (by decide)

theorem isNumeral_magnitude (hfinite : biased bits ≠ 0x7ff) : IsNumeral (magnitude bits) := by
  rw [magnitude_eq hfinite]
  split
  · exact ⟨⟨'0', rfl, rfl⟩, fun c hc => .inl (List.mem_singleton.mp hc ▸ rfl)⟩
  · exact Decimal.isNumeral_chars _

/-- What a magnitude denotes is zero, or it is read back as the double. -/
theorem numeralValue_magnitude (hfinite : biased bits ≠ 0x7ff) :
    (biased bits = 0 ∧ fraction bits = 0) ∧ numeralValue (magnitude bits) = 0 ∨
      IsDouble (units (biased bits) (fraction bits)) (exponent (biased bits)) ∧
        (Rounding.ofDouble (units (biased bits) (fraction bits)) (exponent (biased bits))).Reads
          (numeralValue (magnitude bits)) := by
  rw [magnitude_eq hfinite]
  split
  · next hzero => exact .inl ⟨hzero, by simp [numeralValue, valueOfDigits, List.takeWhile, List.dropWhile]⟩
  · next hne =>
    have hdouble := isDouble_units (fraction_lt bits) hne
    rw [Decimal.numeralValue_chars]
    exact .inr ⟨hdouble, hdouble.reads_shortest⟩

theorem fields_of_magnitude (hfinite : biased bits ≠ 0x7ff) (hfinite' : biased bits' ≠ 0x7ff)
    (h : magnitude bits = magnitude bits') :
    biased bits = biased bits' ∧ fraction bits = fraction bits' := by
  have hvalue := numeralValue_magnitude hfinite
  rw [h] at hvalue
  obtain ⟨⟨hb, hf⟩, hzero⟩ | ⟨hdouble, hreads⟩ := hvalue <;>
    obtain ⟨⟨hb', hf'⟩, hzero'⟩ | ⟨hdouble', hreads'⟩ := numeralValue_magnitude hfinite'
  · exact ⟨hb.trans hb'.symm, hf.trans hf'.symm⟩
  · exact absurd hzero (hdouble'.pos_of_reads hreads').ne'
  · exact absurd hzero' (hdouble.pos_of_reads hreads).ne'
  · obtain ⟨hunits, hexponent⟩ := hdouble.eq_of_reads hdouble' hreads hreads'
    exact fields_of_units (fraction_lt bits) (fraction_lt bits') hunits hexponent

end Fields

section Finite
variable {x y : Float}

open Float.Model in
theorem toNat_unpackExponent (bits : UInt64) :
    (@UnpackedFloat.unpackExponent Format.binary64 bits.toBitVec).toNat = biased bits := by
  rw [UnpackedFloat.unpackExponent, BitVec.toNat_cast, BitVec.extractLsb_toNat,
    Nat.shiftRight_eq_div_pow]
  rfl

open Float.Model in
theorem biased_of_finite (h : x.isFinite = true) : biased x.toBits ≠ 0x7ff ∧ x.isNaN = false := by
  unfold Float.isFinite isFinite unpack UnpackedFloat.unpack at h
  unfold Float.isNaN isNaN unpack UnpackedFloat.unpack
  dsimp only at h ⊢
  split at h
  · split at h <;> cases h
  · next hne =>
    rw [if_neg hne]
    refine ⟨fun hmax => hne (BitVec.eq_of_toNat_eq ((toNat_unpackExponent _).trans hmax)), ?_⟩
    split
    · split <;> rfl
    · rfl

theorem text_eq (h : x.isFinite = true) : (text x).toList =
    if negative x.toBits then '-' :: magnitude x.toBits else magnitude x.toBits := by
  unfold text
  rw [(biased_of_finite h).2]
  exact String.toList_ofList

/-- A number is no word: it begins with a digit or the sign, and it has a digit. -/
theorem mem_text (h : x.isFinite = true) :
    (∃ c ∈ (text x).toList.head?, c.isDigit = true ∨ c = '-') ∧
      (∃ c ∈ (text x).toList, c.isDigit = true) ∧
      ∀ c ∈ (text x).toList, c.isDigit = true ∨ c = '.' ∨ c = '-' := by
  obtain ⟨⟨c, hc, hdigit⟩, hall⟩ := isNumeral_magnitude (biased_of_finite h).1
  have hmem := List.mem_of_mem_head? hc
  rw [text_eq h]
  split
  · refine ⟨⟨'-', rfl, .inr rfl⟩, ⟨c, List.mem_cons_of_mem _ hmem, hdigit⟩, fun d hd => ?_⟩
    rcases List.mem_cons.mp hd with rfl | hd
    · exact .inr (.inr rfl)
    · exact (hall d hd).imp_right .inl
  · exact ⟨⟨c, hc, .inl hdigit⟩, ⟨c, hmem, hdigit⟩, fun d hd => (hall d hd).imp_right .inl⟩

/-- Finite doubles have distinct texts. -/
theorem eq_of_text (hx : x.isFinite = true) (hy : y.isFinite = true) (h : text x = text y) : x = y := by
  have hbx := (biased_of_finite hx).1
  have hby := (biased_of_finite hy).1
  have hchars := congrArg String.toList h
  rw [text_eq hx, text_eq hy] at hchars
  obtain ⟨c, hc, hdigit⟩ := (isNumeral_magnitude hbx).head
  obtain ⟨c', hc', hdigit'⟩ := (isNumeral_magnitude hby).head
  suffices hsame : negative x.toBits = negative y.toBits ∧ magnitude x.toBits = magnitude y.toBits by
    obtain ⟨hbiased, hfraction⟩ := fields_of_magnitude hbx hby hsame.2
    exact Float.toBits_inj.mp (eq_of_fields hsame.1 hbiased hfraction)
  cases hnx : negative x.toBits <;> cases hny : negative y.toBits <;> rw [hnx, hny] at hchars
  · exact ⟨rfl, hchars⟩
  · rw [show magnitude x.toBits = _ from hchars] at hc
    cases hc
    cases hdigit
  · rw [← show _ = magnitude y.toBits from hchars] at hc'
    cases hc'
    cases hdigit'
  · exact ⟨rfl, List.tail_eq_of_cons_eq hchars⟩

end Finite
end LoxLang.Number
