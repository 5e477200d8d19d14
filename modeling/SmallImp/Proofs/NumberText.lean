import SmallImp.Json.Reader
import SmallImp.Proofs.NearestFloat

/-!
# Numbers in documents

A number in a document is a row of digits, perhaps with digits after a point and an exponent. Every
float and every integer that is not too long is read as it was written.

* `neg_magnitude`, `eq_nan` — signs of floats, and the float that is not a number;
* `Numeral` — the parts of a written number;
* `readNumber_numeral` — a number is read as the decimal that its parts spell;
* `readAtom_float`, `readAtom_int` — the text of a float and of an integer.
-/

namespace SmallImp

/-! ### Signs -/

namespace Binary64

open Float.Model Float.Model.UnpackedFloat

theorem mantissa_toNat (b : BitVec 64) :
    (@unpackMantissa Format.binary64 b).toNat = b.toNat % 2 ^ 52 := by
  show (b.extractLsb (52 - 1) 0).toNat = _
  rw [BitVec.extractLsb_toNat, Nat.shiftRight_zero]

theorem sign_toNat (b : BitVec 64) :
    (@unpackSign Format.binary64 b).toNat = b.toNat / 2 ^ 63 % 2 := by
  show (b.extractLsb (52 + 11) (52 + 11)).toNat = _
  rw [BitVec.extractLsb_toNat, Nat.shiftRight_eq_div_pow]

/-- A bit pattern that is not beyond the infinities is that of a float. -/
theorem toBits_ofBits {b : UInt64} (h : b.toNat % signBit ≤ infinityBits) :
    (Float.ofBits b).toBits = b := by
  have hvalid : Format.binary64.Valid b.toBitVec := by
    refine ⟨?_⟩
    intro hexponent hmantissa
    have hfield : b.toNat / 2 ^ 52 % 2048 = 2047 := by
      have hnat := congrArg BitVec.toNat hexponent
      rw [exponent_toNat] at hnat
      exact hnat
    have hfraction : b.toNat % 2 ^ 52 ≠ 0 := by
      intro hzero
      refine hmantissa (BitVec.eq_of_toNat_eq ?_)
      rw [mantissa_toNat]
      exact hzero
    unfold signBit infinityBits leadingBit at h
    omega
  show UInt64.ofBitVec (UnpackedFloat.pack Format.binary64 (UnpackedFloat.unpack Format.binary64 b.toBitVec)) = b
  rw [pack_unpack_of_valid hvalid]

/-- There is one float that is not a number. -/
theorem eq_nan {x : Float} (h : isNaN x = true) : x = nan := by
  have hbits : ∀ {y : Float}, isNaN y = true → y.toBits.toBitVec = packedNaN Format.binary64 := by
    intro y hy
    rw [isNaN, decide_eq_true_eq] at hy
    unfold magnitudeBits signBit infinityBits leadingBit at hy
    refine y.toModel.valid.eq_packedNaN ?_ ?_
    · refine BitVec.eq_of_toNat_eq ?_
      rw [exponent_toNat]
      show y.toBits.toNat / 2 ^ 52 % 2048 = 2047
      omega
    · intro hzero
      have hnat := congrArg BitVec.toNat hzero
      rw [mantissa_toNat] at hnat
      have hfraction : y.toBits.toNat % 2 ^ 52 = 0 := hnat
      omega
  have hnan : isNaN nan = true := by decide
  refine Float.toBits_inj.mp (UInt64.toBitVec_inj.mp ?_)
  rw [hbits h, hbits hnan]

/-- The bits of a magnitude. -/
theorem toBits_magnitude {x : Float} (h : isNaN x = false) :
    (magnitude x).toBits.toNat = magnitudeBits x := by
  rw [isNaN, decide_eq_false_iff_not] at h
  have hlt : magnitudeBits x < signBit := Nat.mod_lt _ (by decide)
  unfold signBit at hlt
  have hnat : (UInt64.ofNat (magnitudeBits x)).toNat = magnitudeBits x := by
    rw [UInt64.toNat_ofNat']
    omega
  rw [magnitude, toBits_ofBits, hnat]
  rw [hnat]
  exact (Nat.mod_le _ _).trans (not_lt.mp h)

theorem magnitudeBits_magnitude {x : Float} (h : isNaN x = false) :
    magnitudeBits (magnitude x) = magnitudeBits x := by
  rw [magnitudeBits, toBits_magnitude h]
  exact Nat.mod_eq_of_lt (Nat.mod_lt _ (by decide))

theorem isNegative_magnitude {x : Float} (h : isNaN x = false) : isNegative (magnitude x) = false := by
  rw [isNegative, toBits_magnitude h, decide_eq_false_iff_not]
  exact not_le.mpr (Nat.mod_lt _ (by decide))

/-- Bit patterns that differ in the sign stand for opposite floats. -/
theorem unpack_neg {b b' : BitVec 64}
    (hexponent : @unpackExponent Format.binary64 b = @unpackExponent Format.binary64 b')
    (hmantissa : @unpackMantissa Format.binary64 b = @unpackMantissa Format.binary64 b')
    (hsign : -Sign.ofBitVec (@unpackSign Format.binary64 b) =
      Sign.ofBitVec (@unpackSign Format.binary64 b')) :
    (UnpackedFloat.unpack Format.binary64 b).neg = UnpackedFloat.unpack Format.binary64 b' := by
  simp only [UnpackedFloat.unpack, hexponent, hmantissa, ← hsign]
  split_ifs <;> rfl

/-- A negative float is the opposite of its magnitude. -/
theorem neg_magnitude {x : Float} (hsign : isNegative x = true) (hnumber : isNaN x = false) :
    -magnitude x = x := by
  have hbits := toBits_magnitude hnumber
  have hlt := UInt64.toNat_lt x.toBits
  rw [isNegative, decide_eq_true_eq] at hsign
  unfold signBit at hsign
  unfold magnitudeBits signBit at hbits
  have hneg : (UnpackedFloat.unpack Format.binary64 (magnitude x).toBits.toBitVec).neg =
      UnpackedFloat.unpack Format.binary64 x.toBits.toBitVec := by
    refine unpack_neg ?_ ?_ ?_
    · refine BitVec.eq_of_toNat_eq ?_
      rw [exponent_toNat, exponent_toNat]
      show (magnitude x).toBits.toNat / 2 ^ 52 % 2048 = x.toBits.toNat / 2 ^ 52 % 2048
      omega
    · refine BitVec.eq_of_toNat_eq ?_
      rw [mantissa_toNat, mantissa_toNat]
      show (magnitude x).toBits.toNat % 2 ^ 52 = x.toBits.toNat % 2 ^ 52
      omega
    · have hplus : @unpackSign Format.binary64 (magnitude x).toBits.toBitVec = 0#1 := by
        refine BitVec.eq_of_toNat_eq ?_
        rw [sign_toNat]
        show (magnitude x).toBits.toNat / 2 ^ 63 % 2 = 0
        omega
      have hminus : @unpackSign Format.binary64 x.toBits.toBitVec = 1#1 := by
        refine BitVec.eq_of_toNat_eq ?_
        rw [sign_toNat]
        show x.toBits.toNat / 2 ^ 63 % 2 = 1
        omega
      rw [hplus, hminus]
      rfl
  refine Float.toBits_inj.mp (UInt64.toBitVec_inj.mp ?_)
  show UnpackedFloat.pack Format.binary64
    (UnpackedFloat.unpack Format.binary64 (magnitude x).toBits.toBitVec).neg = x.toBits.toBitVec
  rw [hneg]
  exact pack_unpack_of_valid x.toModel.valid

end Binary64

namespace Json

/-! ### Rows of digits -/

/-- What follows a value in a document: the end, a comma or a line break. -/
def Follows (rest : List Char) : Prop := ∀ c ∈ rest.head?, c = ',' ∨ c = '\n'

theorem natOfDigits_eq (digits : List Char) : natOfDigits digits = Nat.ofDigitChars 10 digits 0 :=
  Nat.ofDigitChars_eq_foldl.symm

theorem natOfDigits_append (front back : List Char) :
    natOfDigits (front ++ back) = natOfDigits front * 10 ^ back.length + natOfDigits back := by
  rw [natOfDigits_eq, natOfDigits_eq, natOfDigits_eq, Nat.ofDigitChars_append,
    Nat.ofDigitChars_eq_ofDigitChars_zero, Nat.mul_comm]

theorem natOfDigits_zeros (k : Nat) : natOfDigits (List.replicate k '0') = 0 := by
  induction k with
  | zero => rfl
  | succ k ih =>
    rw [List.replicate_succ', natOfDigits_append, ih]
    rfl

theorem natOfDigits_toDigits (n : Nat) : natOfDigits (Nat.toDigits 10 n) = n := by
  rw [natOfDigits_eq]
  exact Nat.ofDigitChars_toDigits (by decide) (by decide)

theorem isDigit_toDigits {n : Nat} : ∀ c ∈ Nat.toDigits 10 n, c.isDigit = true :=
  fun _ hc => Nat.isDigit_of_mem_toDigits (by decide) (by decide) hc

/-- A number that is not zero does not start with the digit zero. -/
theorem head_toDigits {n : Nat} (hn : n ≠ 0) : ∀ c ∈ (Nat.toDigits 10 n).head?, c ≠ '0' := by
  induction n using Nat.strongRecOn with
  | ind n ih =>
    by_cases hlt : n < 10
    · rw [Nat.toDigits_of_lt_base hlt]
      interval_cases n <;> simp_all
    · have hle : 10 ≤ n := not_lt.mp hlt
      rw [Nat.toDigits_of_base_le (by decide) hle, List.head?_append_of_ne_nil _ Nat.toDigits_ne_nil]
      exact ih (n / 10) (by omega) (by omega)

theorem digitsOf_append {digits rest : List Char} (hdigits : ∀ c ∈ digits, c.isDigit = true)
    (hrest : ∀ c ∈ rest.head?, c.isDigit = false) : digitsOf (digits ++ rest) = (digits, rest) := by
  have hstop : rest.takeWhile Char.isDigit = [] ∧ rest.dropWhile Char.isDigit = rest := by
    cases rest with
    | nil => exact ⟨rfl, rfl⟩
    | cons c rest =>
      have hc : c.isDigit = false := hrest c rfl
      simp [hc]
  rw [digitsOf, List.takeWhile_append_of_pos hdigits, List.dropWhile_append_of_pos hdigits, hstop.1,
    hstop.2, List.append_nil]

/-! ### Numerals -/

/-- The parts of a written number. The fraction may be empty, and an exponent has a sign. -/
structure Numeral where
  whole : List Char
  fraction : List Char
  exponent : Option (Bool × List Char)

namespace Numeral

/-- The text of the fraction. -/
def fractionText (n : Numeral) : List Char := if n.fraction = [] then [] else '.' :: n.fraction

/-- The text of the exponent. -/
def exponentText (n : Numeral) : List Char :=
  match n.exponent with
  | none => []
  | some (negative, digits) => 'e' :: (if negative then '-' else '+') :: digits

/-- The text of a number. -/
def text (n : Numeral) : List Char := n.whole ++ (n.fractionText ++ n.exponentText)

/-- The value of the exponent. -/
def power (n : Numeral) : Option Int :=
  n.exponent.map fun e => if e.1 then -(natOfDigits e.2 : Int) else natOfDigits e.2

/-- The decimal that the parts of a number spell. -/
def decimal (n : Numeral) : Decimal :=
  ⟨natOfDigits (n.whole ++ n.fraction), n.power.getD 0 - n.fraction.length⟩

theorem power_eq {n : Numeral} {e : Int} {digits : List Char}
    (h : n.exponent = some (decide (e < 0), digits)) (hdigits : natOfDigits digits = e.natAbs) :
    n.power = some e := by
  simp only [power, h, Option.map_some, hdigits, decide_eq_true_eq, Option.some.injEq]
  split
  next hneg => rw [Int.ofNat_natAbs_of_nonpos hneg.le, Int.neg_neg]
  next hpos => rw [Int.natAbs_of_nonneg (not_lt.mp hpos)]

/-- A number as documents have it. -/
structure Proper (n : Numeral) : Prop where
  whole : ∀ c ∈ n.whole, c.isDigit = true
  notEmpty : n.whole ≠ []
  leading : n.whole = ['0'] ∨ ∀ c ∈ n.whole.head?, c ≠ '0'
  fraction : ∀ c ∈ n.fraction, c.isDigit = true
  exponent : ∀ e ∈ n.exponent, e.2 ≠ [] ∧ ∀ c ∈ e.2, c.isDigit = true

/-- What may follow the digits of a number. -/
theorem stops_of_follows {rest : List Char} (h : Follows rest) :
    ∀ c ∈ rest.head?, c.isDigit = false ∧ c ≠ '.' ∧ c ≠ 'e' ∧ c ≠ 'E' := by
  intro c hc
  rcases h c hc with rfl | rfl <;> decide

theorem exponentText_stops (n : Numeral) {rest : List Char} (h : Follows rest) :
    ∀ c ∈ (n.exponentText ++ rest).head?, c.isDigit = false ∧ c ≠ '.' := by
  intro c hc
  rcases hexponent : n.exponent with _ | ⟨negative, digits⟩
  · rw [exponentText, hexponent] at hc
    have hstops := stops_of_follows h c hc
    exact ⟨hstops.1, hstops.2.1⟩
  · rw [exponentText, hexponent] at hc
    obtain rfl : 'e' = c := Option.some.inj hc
    decide

theorem fractionText_stops (n : Numeral) {rest : List Char} (h : Follows rest) :
    ∀ c ∈ (n.fractionText ++ (n.exponentText ++ rest)).head?, c.isDigit = false := by
  intro c hc
  unfold fractionText at hc
  split at hc
  · exact (n.exponentText_stops h c hc).1
  · obtain rfl : '.' = c := Option.some.inj hc
    decide

theorem wholePart?_append {n : Numeral} (hn : n.Proper) {rest : List Char}
    (hrest : ∀ c ∈ rest.head?, c.isDigit = false) :
    wholePart? (n.whole ++ rest) = some (n.whole, rest) := by
  rcases hn.leading with hzero | hlead
  · rw [hzero]
    rfl
  · have hdigits := digitsOf_append hn.whole hrest
    cases hwhole : n.whole with
    | nil => exact (hn.notEmpty hwhole).elim
    | cons c tail =>
      rw [hwhole] at hlead hdigits
      have hc : c ≠ '0' := hlead c rfl
      rw [List.cons_append] at hdigits ⊢
      simp [wholePart?, hc, hdigits]

theorem fractionPart_append {n : Numeral} (hn : n.Proper) {rest : List Char}
    (hrest : ∀ c ∈ rest.head?, c.isDigit = false ∧ c ≠ '.') :
    fractionPart (n.fractionText ++ rest) =
      (if n.fraction = [] then none else some n.fraction, rest) := by
  unfold fractionText
  split
  next =>
    rw [List.nil_append]
    cases rest with
    | nil => rfl
    | cons c rest =>
      have hc : c ≠ '.' := (hrest c rfl).2
      simp [fractionPart, hc]
  next hsome =>
    have hdigits := digitsOf_append hn.fraction fun c hc => (hrest c hc).1
    rw [List.cons_append, fractionPart, hdigits]
    cases hfraction : n.fraction with
    | nil => exact (hsome hfraction).elim
    | cons c tail => rfl

theorem exponentPart_append {n : Numeral} (hn : n.Proper) {rest : List Char} (hrest : Follows rest) :
    exponentPart (n.exponentText ++ rest) = (n.power, rest) := by
  have hstops := stops_of_follows hrest
  rcases hexponent : n.exponent with _ | ⟨negative, digits⟩
  · rw [exponentText, power, hexponent, List.nil_append]
    cases rest with
    | nil => rfl
    | cons c rest =>
      obtain ⟨-, -, he, hE⟩ := hstops c rfl
      simp [exponentPart, he, hE]
  · obtain ⟨hnonempty, hall⟩ := hn.exponent _ hexponent
    have hdigits := digitsOf_append hall fun c hc => (hstops c hc).1
    rw [exponentText, power, hexponent]
    cases digits with
    | nil => exact (hnonempty rfl).elim
    | cons c tail =>
      rw [List.cons_append] at hdigits
      cases negative <;> simp [exponentPart, hdigits]

/-- **A number is read as the decimal that its parts spell**, or as an integer if it has neither a
fraction nor an exponent. -/
theorem readNumber_text {n : Numeral} (hn : n.Proper) (negative : Bool) {rest : List Char}
    (hrest : Follows rest) :
    readNumber negative (n.text ++ rest) =
      if n.fraction = [] ∧ n.exponent = none then
        if Text.maxDigits < n.whole.length then .error (.tooManyDigits n.whole.length)
        else .ok (.int (if negative then -(natOfDigits n.whole : Int) else natOfDigits n.whole), rest)
      else .ok (.float (if negative then -n.decimal.toFloat else n.decimal.toFloat), rest) := by
  have hwhole := wholePart?_append hn (n.fractionText_stops hrest)
  have hfraction := fractionPart_append hn (n.exponentText_stops hrest)
  have hexponent := exponentPart_append hn hrest
  rw [text, List.append_assoc, List.append_assoc]
  simp only [readNumber, hwhole, hfraction, hexponent]
  by_cases hempty : n.fraction = []
  · cases hpower : n.exponent with
    | none => simp [hempty, power, hpower]
    | some e => simp [hempty, power, hpower, decimal]
  · simp [hempty, decimal]

end Numeral

/-! ### The text of a float -/

/-- Digits without zeros at either end, at least one of them. -/
structure Significant (digits : List Char) : Prop where
  isDigit : ∀ c ∈ digits, c.isDigit = true
  notEmpty : digits ≠ []
  leading : ∀ c ∈ digits.head?, c ≠ '0'
  trailing : ∀ c ∈ digits.getLast?, c ≠ '0'

/-- The number that digits spell whose first one stands for `10 ^ lead`. -/
def scaled (digits : List Char) (lead : Int) : Decimal :=
  ⟨natOfDigits digits, lead + 1 - digits.length⟩

/-- Only zeros at the end are left out. -/
theorem exists_zeros (d : Decimal) :
    ∃ t, Nat.toDigits 10 d.coeff = d.scientific.1 ++ List.replicate t '0' := by
  generalize hdigits : Nat.toDigits 10 d.coeff = digits
  have hkept : d.scientific.1 = (digits.reverse.dropWhile (· == '0')).reverse := by
    rw [← hdigits]
    rfl
  have hzeros : ∀ c ∈ (digits.reverse.takeWhile (· == '0')).reverse, c = '0' := by
    intro c hc
    rw [List.mem_reverse] at hc
    simpa using List.mem_takeWhile_imp hc
  refine ⟨(digits.reverse.takeWhile (· == '0')).reverse.length, ?_⟩
  rw [hkept, ← List.eq_replicate_of_mem hzeros, ← List.reverse_append,
    List.takeWhile_append_dropWhile, List.reverse_reverse]

/-- The digits of a decimal without the zeros at the end spell the same number. -/
theorem scientific_spec {d : Decimal} (hd : d.coeff ≠ 0) :
    Significant d.scientific.1 ∧
      (scaled d.scientific.1 d.scientific.2).value = d.value := by
  obtain ⟨t, ht⟩ := exists_zeros d
  have hvalue := natOfDigits_toDigits d.coeff
  rw [ht, natOfDigits_append, natOfDigits_zeros, List.length_replicate, Nat.add_zero] at hvalue
  have hnotEmpty : d.scientific.1 ≠ [] := by
    intro hempty
    rw [hempty] at hvalue
    exact hd (by simpa [natOfDigits] using hvalue.symm)
  refine ⟨⟨?_, hnotEmpty, ?_, ?_⟩, ?_⟩
  · intro c hc
    have hmem : c ∈ Nat.toDigits 10 d.coeff := by
      rw [ht]
      exact List.mem_append_left _ hc
    exact isDigit_toDigits c hmem
  · have hhead := head_toDigits hd
    rwa [ht, List.head?_append_of_ne_nil _ hnotEmpty] at hhead
  · intro c hc
    have hkept : d.scientific.1.getLast? =
        ((Nat.toDigits 10 d.coeff).reverse.dropWhile (· == '0')).head? := List.getLast?_reverse
    have hstop := List.head?_dropWhile_not (· == '0') (Nat.toDigits 10 d.coeff).reverse
    rw [← hkept, hc] at hstop
    simpa using hstop
  · have hlead : d.scientific.2 + 1 - d.scientific.1.length = d.exp + t := by
      show d.exp + (Nat.toDigits 10 d.coeff).length - 1 + 1 - d.scientific.1.length = _
      rw [ht, List.length_append, List.length_replicate]
      push_cast
      ring
    have hshift := Decimal.value_shift (natOfDigits d.scientific.1) t d.exp
    rw [hvalue] at hshift
    rw [scaled, hlead, ← hshift]

/-- The parts of a number in plain notation. -/
def plainNumeral (digits : List Char) (lead : Int) : Numeral :=
  if lead < 0 then ⟨['0'], List.replicate (-lead - 1).toNat '0' ++ digits, none⟩
  else if digits.length ≤ lead.toNat + 1 then
    ⟨digits ++ List.replicate (lead.toNat + 1 - digits.length) '0', ['0'], none⟩
  else ⟨digits.take (lead.toNat + 1), digits.drop (lead.toNat + 1), none⟩

/-- The parts of a number with an exponent. -/
def exponentNumeral (digits : List Char) (lead : Int) : Numeral :=
  ⟨digits.take 1, digits.drop 1,
    some (decide (lead < 0), (if lead.natAbs < 10 then ['0'] else []) ++ Nat.toDigits 10 lead.natAbs)⟩

/-- In plain notation there is always a digit after the point. -/
theorem plainNumeral_fraction {digits : List Char} (hdigits : Significant digits) (lead : Int) :
    (plainNumeral digits lead).fraction ≠ [] := by
  unfold plainNumeral
  split
  · simp [hdigits.notEmpty]
  · split
    · simp
    next hlong => simpa using hlong

theorem plainNumeral_text {digits : List Char} (hdigits : Significant digits) (lead : Int) :
    (plainNumeral digits lead).text = Decimal.plain digits lead := by
  have hnotEmpty := hdigits.notEmpty
  unfold plainNumeral Decimal.plain
  dsimp only
  split
  · simp [Numeral.text, Numeral.fractionText, Numeral.exponentText, hnotEmpty]
  · split
    · simp [Numeral.text, Numeral.fractionText, Numeral.exponentText]
    next hlong =>
      have hrest : digits.drop (lead.toNat + 1) ≠ [] := by
        simpa using hlong
      simp [Numeral.text, Numeral.fractionText, Numeral.exponentText, hrest]

theorem plainNumeral_proper {digits : List Char} (hdigits : Significant digits) (lead : Int) :
    (plainNumeral digits lead).Proper := by
  have hzeros : ∀ {k : Nat}, ∀ c ∈ List.replicate k '0', c.isDigit = true := by
    intro k c hc
    rw [List.eq_of_mem_replicate hc]
    rfl
  unfold plainNumeral
  split
  · refine ⟨by simp, by simp, .inl rfl, ?_, by simp⟩
    exact List.forall_mem_append.mpr ⟨hzeros, hdigits.isDigit⟩
  · split
    · refine ⟨List.forall_mem_append.mpr ⟨hdigits.isDigit, hzeros⟩, by simp [hdigits.notEmpty],
        .inr ?_, by simp, by simp⟩
      rw [List.head?_append_of_ne_nil _ hdigits.notEmpty]
      exact hdigits.leading
    · refine ⟨fun c hc => hdigits.isDigit c (List.mem_of_mem_take hc), by simp [hdigits.notEmpty],
        .inr ?_, fun c hc => hdigits.isDigit c (List.mem_of_mem_drop hc), by simp⟩
      rw [List.head?_take, if_neg (Nat.succ_ne_zero _)]
      exact hdigits.leading

theorem plainNumeral_value (digits : List Char) (lead : Int) :
    (plainNumeral digits lead).decimal.value = (scaled digits lead).value := by
  unfold plainNumeral
  split
  next hneg =>
    have hvalue : natOfDigits (['0'] ++ (List.replicate (-lead - 1).toNat '0' ++ digits)) =
        natOfDigits digits := by
      rw [← List.append_assoc, natOfDigits_append,
        show ['0'] ++ List.replicate (-lead - 1).toNat '0' =
          List.replicate ((-lead - 1).toNat + 1) '0' from rfl, natOfDigits_zeros, Nat.zero_mul,
        Nat.zero_add]
    have hexp : (0 : Int) - (List.replicate (-lead - 1).toNat '0' ++ digits).length =
        lead + 1 - digits.length := by
      rw [List.length_append, List.length_replicate]
      omega
    simp only [Numeral.decimal, hvalue, Numeral.power, Option.map_none, Option.getD_none, hexp, scaled]
  next hpos =>
    split
    next hshort =>
      generalize hj : lead.toNat + 1 - digits.length = j
      have hvalue : natOfDigits (digits ++ List.replicate j '0' ++ ['0']) =
          natOfDigits digits * 10 ^ (j + 1) := by
        rw [List.append_assoc, natOfDigits_append,
          show List.replicate j '0' ++ ['0'] = List.replicate (j + 1) '0' from
            List.replicate_succ'.symm, natOfDigits_zeros, List.length_replicate, Nat.add_zero]
      have hexp : (-1 : Int) + (j + 1 : Nat) = lead + 1 - digits.length := by omega
      have hshift := Decimal.value_shift (natOfDigits digits) (j + 1) (-1)
      simp only [Numeral.decimal, hvalue, Numeral.power, Option.map_none, Option.getD_none, scaled]
      rw [← hexp, ← hshift]
      rfl
    next hlong =>
      have hexp : (0 : Int) - (digits.drop (lead.toNat + 1)).length = lead + 1 - digits.length := by
        rw [List.length_drop]
        omega
      simp only [Numeral.decimal, List.take_append_drop, Numeral.power, Option.map_none,
        Option.getD_none, hexp, scaled]

theorem exponentNumeral_text {digits : List Char} (hdigits : Significant digits) (lead : Int) :
    (exponentNumeral digits lead).text =
      (if digits.length = 1 then digits else Decimal.mantissaText digits) ++
        'e' :: (Decimal.exponentText lead).toList := by
  have hexponent : (Decimal.exponentText lead).toList =
      (if lead < 0 then '-' else '+') ::
        ((if lead.natAbs < 10 then ['0'] else []) ++ Nat.toDigits 10 lead.natAbs) := by
    rw [Decimal.exponentText, Nat.toString_eq_ofList_toDigits, String.toList_append,
      String.toList_append, String.toList_ofList]
    split_ifs <;> rfl
  rw [hexponent]
  cases digits with
  | nil => exact (hdigits.notEmpty rfl).elim
  | cons c tail =>
    cases tail with
    | nil => simp [Numeral.text, exponentNumeral, Numeral.fractionText, Numeral.exponentText]
    | cons c' tail =>
      simp [Numeral.text, exponentNumeral, Numeral.fractionText, Numeral.exponentText,
        Decimal.mantissaText]

theorem exponentNumeral_proper {digits : List Char} (hdigits : Significant digits) (lead : Int) :
    (exponentNumeral digits lead).Proper := by
  refine ⟨fun c hc => hdigits.isDigit c (List.mem_of_mem_take hc), ?_, .inr ?_,
    fun c hc => hdigits.isDigit c (List.mem_of_mem_drop hc), ?_⟩
  · simp [exponentNumeral, hdigits.notEmpty]
  · rw [exponentNumeral, List.head?_take, if_neg Nat.one_ne_zero]
    exact hdigits.leading
  · intro e he
    obtain rfl := Option.some.inj he
    refine ⟨by simp [Nat.toDigits_ne_nil], List.forall_mem_append.mpr ⟨?_, isDigit_toDigits⟩⟩
    split
    · simp
    · simp

theorem exponentNumeral_decimal {digits : List Char} (hdigits : Significant digits) (lead : Int) :
    (exponentNumeral digits lead).decimal = scaled digits lead := by
  have hpower : (exponentNumeral digits lead).power = some lead := by
    have hvalue : natOfDigits ((if lead.natAbs < 10 then ['0'] else []) ++
        Nat.toDigits 10 lead.natAbs) = lead.natAbs := by
      rw [natOfDigits_append, natOfDigits_toDigits]
      split <;> simp [natOfDigits]
    exact Numeral.power_eq rfl hvalue
  have hlength : 0 < digits.length := List.length_pos_of_ne_nil hdigits.notEmpty
  have hexp : lead - (digits.drop 1).length = lead + 1 - digits.length := by
    rw [List.length_drop]
    omega
  rw [Numeral.decimal, hpower]
  simp only [exponentNumeral, List.take_append_drop, Option.getD_some, hexp, scaled]

theorem signText_toList (x : Float) :
    (Decimal.signText x).toList = if Binary64.isNegative x then ['-'] else [] := by
  rw [Decimal.signText]
  split <;> rfl

/-- The magnitude of a finite float is zero or positive. -/
theorem positive_magnitude {x : Float} (hnumber : Binary64.isNaN x = false)
    (hfinite : Binary64.isInfinite x = false) (hzero : Binary64.magnitude x ≠ 0.0) :
    Binary64.Positive (Binary64.magnitude x) := by
  have hsame := Binary64.magnitudeBits_magnitude hnumber
  refine ⟨Binary64.isNegative_magnitude hnumber, ?_, ?_⟩
  · intro hbits
    refine hzero ?_
    rw [Binary64.magnitude, ← hsame, hbits]
    decide
  · rw [Binary64.isNaN, decide_eq_false_iff_not] at hnumber
    rw [Binary64.isInfinite, beq_eq_false_iff_ne] at hfinite
    omega

/-- The text of a finite float is that of a numeral which spells its magnitude. -/
theorem exists_numeral (words : Decimal.Words) {x : Float} (hnumber : Binary64.isNaN x = false)
    (hfinite : Binary64.isInfinite x = false) :
    ∃ n : Numeral, n.Proper ∧ ¬(n.fraction = [] ∧ n.exponent = none) ∧
      n.decimal.toFloat = Binary64.magnitude x ∧
      (Decimal.plainText words x).toList =
        (if Binary64.isNegative x then ['-'] else []) ++ n.text := by
  have hsign := signText_toList x
  by_cases hzero : Binary64.magnitude x = 0.0
  · refine ⟨⟨['0'], ['0'], none⟩, ⟨by simp, by simp, .inl rfl, by simp, by simp⟩, by simp, ?_, ?_⟩
    · rw [hzero]
      rfl
    · simp only [Decimal.plainText, hnumber, hfinite, hzero, Bool.false_eq_true, if_false, if_true,
        String.toList_append, hsign]
      rfl
  · have hpositive := positive_magnitude hnumber hfinite hzero
    have hread := Decimal.toFloat_shortest hpositive
    generalize hshortest : Decimal.shortest (Binary64.magnitude x) = d at hread
    have hcoeff : d.coeff ≠ 0 := by
      intro hcoeff
      refine hzero ?_
      rw [← hread, Decimal.toFloat, if_pos (.inl hcoeff)]
    obtain ⟨hdigits, hscaled⟩ := scientific_spec hcoeff
    simp only [Decimal.plainText, hnumber, hfinite, hzero, hshortest, Bool.false_eq_true, if_false]
    split
    · refine ⟨plainNumeral d.scientific.1 d.scientific.2, plainNumeral_proper hdigits _, ?_, ?_, ?_⟩
      · exact fun hwhole => plainNumeral_fraction hdigits _ hwhole.1
      · rw [Decimal.toFloat_congr ((plainNumeral_value _ _).trans hscaled), hread]
      · rw [String.toList_append, hsign, String.toList_ofList, plainNumeral_text hdigits]
    · refine ⟨exponentNumeral d.scientific.1 d.scientific.2, exponentNumeral_proper hdigits _, ?_,
        ?_, ?_⟩
      · simp [exponentNumeral]
      · rw [exponentNumeral_decimal hdigits, Decimal.toFloat_congr hscaled, hread]
      · simp only [String.toList_append, hsign, String.toList_ofList, List.append_assoc,
          exponentNumeral_text hdigits]
        rfl

theorem afterWord?_cons_ne (word : String) {first c : Char} {tail rest : List Char}
    (hword : word.toList = first :: tail) (hne : first ≠ c) : afterWord? word (c :: rest) = none := by
  rw [afterWord?, hword]
  simp [List.isPrefixOf, hne]

/-- A text that starts like a number starts like no word. -/
theorem readAtom_digit {c : Char} (hc : c.isDigit = true) (rest : List Char) :
    readAtom (c :: rest) = readNumber false (c :: rest) ∧
      readAtom ('-' :: c :: rest) = readNumber true (c :: rest) := by
  have hne : ∀ first ∈ ['n', 't', 'f', 'N', 'I', '-'], first ≠ c := by
    rintro first hfirst rfl
    simp only [List.mem_cons, List.not_mem_nil, or_false] at hfirst
    rcases hfirst with rfl | rfl | rfl | rfl | rfl | rfl <;> cases hc
  have hminus : c ≠ '-' := Ne.symm (hne '-' (by decide))
  have hinfinity : afterWord? "-Infinity" ('-' :: c :: rest) = none := by
    have hI : 'I' ≠ c := hne 'I' (by decide)
    simp [afterWord?, List.isPrefixOf, hI]
  constructor
  · rw [readAtom, afterWord?_cons_ne "null" rfl (hne 'n' (by decide)),
      afterWord?_cons_ne "true" rfl (hne 't' (by decide)),
      afterWord?_cons_ne "false" rfl (hne 'f' (by decide)),
      afterWord?_cons_ne "NaN" rfl (hne 'N' (by decide)),
      afterWord?_cons_ne "Infinity" rfl (hne 'I' (by decide)),
      afterWord?_cons_ne "-Infinity" rfl (hne '-' (by decide))]
    simp [hminus]
  · rw [readAtom, hinfinity]
    rfl

/-- A numeral in a document is read as a number, with the sign before it. -/
theorem readAtom_numeral {n : Numeral} (hn : n.Proper) (negative : Bool) (rest : List Char) :
    readAtom ((if negative then ['-'] else []) ++ n.text ++ rest) =
      readNumber negative (n.text ++ rest) := by
  cases hwhole : n.whole with
  | nil => exact (hn.notEmpty hwhole).elim
  | cons c tail =>
    have hc : c.isDigit = true := hn.whole c (by rw [hwhole]; exact .head _)
    rw [Numeral.text, hwhole]
    cases negative with
    | false => exact (readAtom_digit hc _).1
    | true => exact (readAtom_digit hc _).2

/-- **The text of a float is read as the float.** -/
theorem readAtom_float (x : Float) {rest : List Char} (hrest : Follows rest) :
    readAtom ((Decimal.plainText Decimal.documentWords x).toList ++ rest) = .ok (.float x, rest) := by
  cases hnumber : Binary64.isNaN x with
  | true =>
    rw [Binary64.eq_nan hnumber]
    rfl
  | false =>
    cases hfinite : Binary64.isInfinite x with
    | true =>
      have hbits : Binary64.magnitudeBits x = Binary64.infinityBits := by
        rw [Binary64.isInfinite, beq_iff_eq] at hfinite
        exact hfinite.symm
      have hmagnitude : Binary64.magnitude x = Binary64.infinity := by
        rw [Binary64.magnitude, hbits]
        rfl
      cases hsign : Binary64.isNegative x with
      | true =>
        have hx := Binary64.neg_magnitude hsign hnumber
        rw [hmagnitude] at hx
        simp only [Decimal.plainText, hnumber, hfinite, hsign, Bool.false_eq_true, if_false, if_true]
        rw [← hx]
        rfl
      | false =>
        have hx : Binary64.magnitude x = x := Binary64.ofBits_magnitudeBits hsign
        rw [hmagnitude] at hx
        simp only [Decimal.plainText, hnumber, hfinite, hsign, Bool.false_eq_true, if_false, if_true]
        rw [← hx]
        rfl
    | false =>
      obtain ⟨n, hn, hfloat, hread, htext⟩ := exists_numeral Decimal.documentWords hnumber hfinite
      rw [htext, readAtom_numeral hn, Numeral.readNumber_text hn _ hrest, if_neg hfloat, hread]
      cases hsign : Binary64.isNegative x with
      | true => rw [if_pos rfl, Binary64.neg_magnitude hsign hnumber]
      | false =>
        have hx : Binary64.magnitude x = x := Binary64.ofBits_magnitudeBits hsign
        rw [if_neg Bool.false_ne_true, hx]

/-- The parts of an integer without its sign. -/
def intNumeral (n : Int) : Numeral := ⟨Nat.toDigits 10 n.natAbs, [], none⟩

theorem intNumeral_proper (n : Int) : (intNumeral n).Proper := by
  refine ⟨isDigit_toDigits, Nat.toDigits_ne_nil, ?_, by simp [intNumeral], by simp [intNumeral]⟩
  by_cases hzero : n.natAbs = 0
  · left
    rw [intNumeral, hzero]
    rfl
  · exact .inr (head_toDigits hzero)

theorem intNumeral_text (n : Int) :
    (toString n).toList = (if decide (n < 0) then ['-'] else []) ++ (intNumeral n).text := by
  have hnumeral : (intNumeral n).text = (toString n.natAbs).toList := by
    rw [Nat.toString_eq_ofList_toDigits, String.toList_ofList]
    exact List.append_nil _
  rw [hnumeral]
  cases n with
  | ofNat n => rfl
  | negSucc n =>
    rw [if_pos (decide_eq_true (Int.negSucc_lt_zero n))]
    show ("-" ++ toString (n + 1)).toList = _
    rw [String.toList_append]
    rfl

/-- **The text of an integer is read as the integer**, unless it is too long. -/
theorem readAtom_int {n : Int} (hn : n.natAbs < 10 ^ Text.maxDigits) {rest : List Char}
    (hrest : Follows rest) : readAtom ((toString n).toList ++ rest) = .ok (.int n, rest) := by
  have hlength : ¬Text.maxDigits < (intNumeral n).whole.length :=
    not_lt.mpr ((Nat.length_toDigits_le_iff (by decide) (by decide)).mpr hn)
  have hvalue : natOfDigits (intNumeral n).whole = n.natAbs := natOfDigits_toDigits n.natAbs
  rw [intNumeral_text, readAtom_numeral (intNumeral_proper n),
    Numeral.readNumber_text (intNumeral_proper n) _ hrest, if_pos ⟨rfl, rfl⟩, if_neg hlength, hvalue]
  by_cases hneg : n < 0
  · rw [if_pos (decide_eq_true hneg), Int.ofNat_natAbs_of_nonpos hneg.le, Int.neg_neg]
  · rw [if_neg (by simpa using hneg), Int.natAbs_of_nonneg (not_lt.mp hneg)]

/-! ### The characters of numbers -/

/-- A character that is no blank and opens or closes nothing. -/
def Inner (c : Char) : Prop := isBlank c = false ∧ c ∉ ['"', '[', ']', '\x7b']

theorem inner_of_isDigit {c : Char} (h : c.isDigit = true) : Inner c := by
  constructor
  · cases hblank : isBlank c with
    | false => rfl
    | true =>
      simp only [isBlank, Bool.or_eq_true, decide_eq_true_eq] at hblank
      rcases hblank with ((rfl | rfl) | rfl) | rfl <;> cases h
  · simp only [List.mem_cons, List.not_mem_nil, or_false]
    rintro (rfl | rfl | rfl | rfl) <;> cases h

theorem Numeral.Proper.inner {n : Numeral} (hn : n.Proper) (negative : Bool) :
    ∀ c ∈ (if negative then ['-'] else []) ++ n.text, Inner c := by
  have hpoint : Inner '.' := ⟨rfl, by decide⟩
  have hmark : Inner 'e' := ⟨rfl, by decide⟩
  have hplus : Inner '+' := ⟨rfl, by decide⟩
  have hminus : Inner '-' := ⟨rfl, by decide⟩
  refine List.forall_mem_append.mpr ⟨?_, List.forall_mem_append.mpr
    ⟨fun c hc => inner_of_isDigit (hn.whole c hc), List.forall_mem_append.mpr ⟨?_, ?_⟩⟩⟩
  · cases negative <;> simp [hminus]
  · unfold fractionText
    split
    · simp
    · exact List.forall_mem_cons.mpr ⟨hpoint, fun c hc => inner_of_isDigit (hn.fraction c hc)⟩
  · rcases hexponent : n.exponent with _ | ⟨negative, digits⟩
    · simp [exponentText, hexponent]
    · have hdigits := (hn.exponent _ hexponent).2
      rw [exponentText, hexponent]
      refine List.forall_mem_cons.mpr ⟨hmark, List.forall_mem_cons.mpr
        ⟨?_, fun c hc => inner_of_isDigit (hdigits c hc)⟩⟩
      cases negative
      · exact hplus
      · exact hminus

theorem int_inner (n : Int) : ∀ c ∈ (toString n).toList, Inner c := by
  rw [intNumeral_text]
  exact (intNumeral_proper n).inner _

theorem float_inner (x : Float) :
    ∀ c ∈ (Decimal.plainText Decimal.documentWords x).toList, Inner c := by
  have hwords : ∀ word ∈ ["NaN", "Infinity", "-Infinity"], ∀ c ∈ word.toList, Inner c := by
    simp [Inner, isBlank]
  cases hnumber : Binary64.isNaN x with
  | true =>
    rw [Decimal.plainText, if_pos hnumber]
    exact hwords _ (by decide)
  | false =>
    cases hfinite : Binary64.isInfinite x with
    | true =>
      simp only [Decimal.plainText, hnumber, hfinite, Bool.false_eq_true, if_false, if_true]
      split
      · exact hwords _ (by decide)
      · exact hwords _ (by decide)
    | false =>
      obtain ⟨n, hn, -, -, htext⟩ := exists_numeral Decimal.documentWords hnumber hfinite
      rw [htext]
      exact hn.inner _

end Json

end SmallImp
