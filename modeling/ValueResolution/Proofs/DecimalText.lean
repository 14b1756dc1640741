import Mathlib.Data.List.TakeWhile
import Mathlib.Tactic.Common
import ValueResolution.Constraint
/-!
# Whole numbers as texts

A whole number that is written in decimal, with any blanks around it, is read back as it was by a
constraint that converts, as long as 64 bits with a sign can hold it. The numbers above that, which
64 bits without a sign could hold, are accepted as well, but as the nearest floating number
(`Constraint.check_decimal`).

The blanks go (`Text.trim_blanks`), since no character of a decimal is blank. What is left is a
numeral behind at most a minus sign; it is read as a signed number if it fits
(`Text.signed?_repr`), and else as a decimal fraction without a point (`Text.float?_toDigits`),
which is finite.
-/

set_option autoImplicit false

namespace ValueResolution

namespace Text

/-! ## Decimals -/

theorem isDigit_of_mem_toDigits {n : Nat} {c : Char} (h : c ∈ Nat.toDigits 10 n) :
    c.isDigit = true :=
  Nat.isDigit_of_mem_toDigits (by decide) (by decide) h

/-- A decimal is a numeral, behind a minus sign if the number is negative. -/
theorem toList_repr (n : Int) : n.repr.toList =
    (if n < 0 then ['-'] else []) ++ Nat.toDigits 10 n.natAbs := by
  cases n with
  | ofNat m => simp [Int.repr, Nat.repr]
  | negSucc m => simp [Int.repr, Nat.repr]

theorem toNat_of_isDigit {c : Char} (h : c.isDigit = true) : 48 ≤ c.toNat ∧ c.toNat ≤ 57 := by
  simp only [Char.isDigit, Bool.and_eq_true, decide_eq_true_eq, ge_iff_le,
    UInt32.le_iff_toNat_le] at h
  exact h

theorem isBlank_of_isDigit {c : Char} (h : c.isDigit = true) : isBlank c = false := by
  obtain ⟨hlow, hhigh⟩ := toNat_of_isDigit h
  simp [isBlank]
  omega

theorem toLower_of_isDigit {c : Char} (h : c.isDigit = true) : c.toLower = c := by
  refine dif_neg fun hupper => ?_
  have hlow : 65 ≤ c.toNat := UInt32.le_iff_toNat_le.1 hupper.1
  have hhigh := (toNat_of_isDigit h).2
  omega

theorem isBlank_of_mem_repr {n : Int} {c : Char} (h : c ∈ n.repr.toList) : isBlank c = false := by
  rw [toList_repr] at h
  rcases List.mem_append.1 h with h | h
  · split at h
    · obtain rfl := List.mem_singleton.1 h
      rfl
    · cases h
  · exact isBlank_of_isDigit (isDigit_of_mem_toDigits h)

/-- Blanks around a text without blanks are trimmed off. -/
theorem trim_blanks {before cs behind : List Char} (hbefore : ∀ c ∈ before, isBlank c = true)
    (hcs : ∀ c ∈ cs, isBlank c = false) (hbehind : ∀ c ∈ behind, isBlank c = true) :
    trim (before ++ cs ++ behind) = cs := by
  have hbehind' : ∀ c ∈ behind.reverse, isBlank c = true := fun c hc =>
    hbehind c (List.mem_reverse.1 hc)
  cases cs with
  | nil =>
    have hall : ∀ c ∈ before ++ behind, isBlank c = true := by
      simpa [or_imp, forall_and] using ⟨hbefore, hbehind⟩
    simp [trim, List.dropWhile_eq_nil_iff.2 hall]
  | cons c cs =>
    have hc : isBlank c = false := hcs c List.mem_cons_self
    obtain ⟨d, ds, hd⟩ := List.exists_cons_of_ne_nil
      (List.reverse_ne_nil_iff.2 (List.cons_ne_nil c cs))
    have hblank : isBlank d = false := hcs d (List.mem_reverse.1 (hd ▸ List.mem_cons_self))
    rw [trim, List.append_assoc, List.dropWhile_append_of_pos hbefore, List.cons_append,
      List.dropWhile_cons_of_neg (by simp [hc]), ← List.cons_append, List.reverse_append,
      List.dropWhile_append_of_pos hbehind', hd, List.dropWhile_cons_of_neg (by simp [hblank]),
      ← hd, List.reverse_reverse]

/-! ## Reading a decimal -/

theorem isDigit_of_toDigits {n : Nat} {c : Char} {cs : List Char}
    (h : Nat.toDigits 10 n = c :: cs) : c.isDigit = true :=
  isDigit_of_mem_toDigits (h ▸ List.mem_cons_self)

/-- Without a minus sign a decimal is read as a signed number if it is small enough. -/
theorem signed?_toDigits (n : Nat) :
    signed? (Nat.toDigits 10 n) = if n < signedBound then some (n : Int) else none := by
  unfold signed?
  split
  · rename_i rest heq
    exact absurd (isDigit_of_toDigits heq) (by decide)
  · rw [numeral?_toDigits, Option.bind_some]

/-- A number that 64 bits with a sign can hold is read back from its decimal. -/
theorem signed?_repr {n : Int} (hlow : -signedBound ≤ n) (hhigh : n < signedBound) :
    signed? n.repr.toList = some n := by
  rw [toList_repr]
  by_cases hn : n < 0
  · have hle : n.natAbs ≤ signedBound := by omega
    rw [if_pos hn, List.singleton_append, signed?, numeral?_toDigits, Option.bind_some, if_pos hle,
      Int.ofNat_natAbs_of_nonpos (Int.le_of_lt hn), Int.neg_neg]
  · have hlt : n.natAbs < signedBound := by omega
    rw [if_neg hn, List.nil_append, signed?_toDigits, if_pos hlt, Int.natAbs_of_nonneg (by omega)]

/-- A decimal without a minus sign is no word and has neither a point nor an exponent. -/
theorem float?_toDigits (n : Nat) :
    float? (Nat.toDigits 10 n) = some (Decimal.toBinary64 ⟨false, n, 0⟩) := by
  have hsign : splitSign (Nat.toDigits 10 n) = (false, Nat.toDigits 10 n) := by
    unfold splitSign
    split
    · rename_i rest heq
      exact absurd (isDigit_of_toDigits heq) (by decide)
    · rename_i rest heq
      exact absurd (isDigit_of_toDigits heq) (by decide)
    · rfl
  have hlower : (Nat.toDigits 10 n).map Char.toLower = Nat.toDigits 10 n := by
    refine (List.map_congr_left fun c hc => ?_).trans (List.map_id _)
    exact toLower_of_isDigit (isDigit_of_mem_toDigits hc)
  have hword : ∀ w : String, (∃ c ∈ w.toList, c.isDigit = false) →
      String.ofList (Nat.toDigits 10 n) ≠ w := by
    rintro w ⟨c, hc, hdigit⟩ rfl
    rw [String.toList_ofList] at hc
    exact absurd (isDigit_of_mem_toDigits hc) (by simp [hdigit])
  have hdigits : ∀ c ∈ Nat.toDigits 10 n, c.isDigit = true := fun c hc => isDigit_of_mem_toDigits hc
  have hread : Decimal.readUnsigned? false (Nat.toDigits 10 n) = some ⟨false, n, 0⟩ := by
    simp [Decimal.readUnsigned?, List.takeWhile_eq_self_iff.2 hdigits,
      List.dropWhile_eq_nil_iff.2 hdigits, numeral?_toDigits, exponent?]
  simp only [float?, hsign, hlower, hread, Option.map_some]
  rw [if_neg, if_neg]
  · simpa using hword "nan" ⟨'n', by decide, by decide⟩
  · simpa using ⟨hword "inf" ⟨'i', by decide, by decide⟩,
      hword "infinity" ⟨'i', by decide, by decide⟩⟩

theorem Decimal.toBinary64_whole {n : Nat} (h : n ≠ 0) :
    toBinary64 ⟨false, n, 0⟩ = .ofRatio false n 1 := by
  have hbits : ¬ (n.log2 : Int) + 1 < -400 := by omega
  simp [toBinary64, h, cutoff, hbits]

end Text

namespace Binary64

theorem roundDiv_le (num den : Nat) : roundDiv num den ≤ num / den + 1 := by
  simp only [roundDiv]
  split <;> omega

/-- The floating numbers between the two bounds of 64 bits are 2048 apart. -/
theorem magnitudeOfRatio_wide {n : Nat} (hlow : Text.signedBound ≤ n)
    (hhigh : n < Text.indexBound) :
    magnitudeOfRatio n 1 = min (1085 <<< 52 + roundDiv n 2048) infinite := by
  have hne : n ≠ 0 := by
    rintro rfl
    exact absurd hlow (by decide)
  have hlog : n.log2 = 63 := (Nat.log2_eq_iff hne).2 ⟨hlow, hhigh⟩
  have hplace : leadingPlace n 1 = 63 := by
    have hle : 0x8000000000000000 ≤ n := hlow
    have hone : Nat.log2 1 = 0 := by decide
    simp [leadingPlace, hlog, hone, hle]
  have hmax : max ((63 : Int) - 52) (-1074) = 11 := by decide
  simp only [magnitudeOfRatio, if_neg hne, hplace, hmax]
  rfl

theorem isFinite_ofMagnitude {m : Nat} (h : m < infinite) :
    (ofMagnitude false m).isFinite = true := by
  have hlt : m < 0x7FF0000000000000 := h
  have hword : (UInt64.ofNat m).toNat = m := UInt64.toNat_ofNat_of_lt' (hlt.trans (by decide))
  have hsign : m % signPlace = m := Nat.mod_eq_of_lt (hlt.trans (by decide))
  simp [isFinite, magnitude, ofMagnitude, hword, hsign, h]

theorem isFinite_wide {n : Nat} (hlow : Text.signedBound ≤ n) (hhigh : n < Text.indexBound) :
    (ofRatio false n 1).isFinite = true := by
  refine isFinite_ofMagnitude ?_
  rw [magnitudeOfRatio_wide hlow hhigh]
  have hround := roundDiv_le n 2048
  have hquot : n / 2048 < 0x20000000000000 := by
    unfold Text.indexBound at hhigh
    omega
  have hshift : (1085 : Nat) <<< 52 = 0x43D0000000000000 := by decide
  unfold infinite
  omega

end Binary64

/-! ## Numbers out of texts -/

theorem numberOfText?_signed {n : Int} (hlow : -Text.signedBound ≤ n) (hhigh : n < Text.signedBound)
    {text : String} (h : Text.trim text.toList = n.repr.toList) :
    numberOfText? text = some (.whole n) := by
  simp only [numberOfText?, h, Text.signed?_repr hlow hhigh]

theorem numberOfText?_wide {n : Nat} (hlow : Text.signedBound ≤ n) (hhigh : n < Text.indexBound)
    {text : String} (h : Text.trim text.toList = Nat.toDigits 10 n) :
    numberOfText? text = some (.float (.ofRatio false n 1)) := by
  have hne : n ≠ 0 := by
    rintro rfl
    exact absurd hlow (by decide)
  have hsigned : Text.signed? (Nat.toDigits 10 n) = none := by
    rw [Text.signed?_toDigits, if_neg (Nat.not_lt.2 hlow)]
  simp only [numberOfText?, h, hsigned, Text.float?_toDigits, Text.Decimal.toBinary64_whole hne]
  rw [Option.filter_some_pos (Binary64.isFinite_wide hlow hhigh), Option.map_some]

namespace Constraint

/-- A constraint for numbers that converts accepts the decimal of every whole number from the least
that 64 bits hold with a sign to the greatest that they hold without one, whatever blanks stand
around it. It gives exactly this whole number if and only if 64 bits with a sign can hold it, and
above that the floating number nearest to it. -/
theorem check_decimal {n : Int} (hlow : -Text.signedBound ≤ n) (hhigh : n < Text.indexBound)
    {before behind : List Char} (hbefore : ∀ c ∈ before, Text.isBlank c = true)
    (hbehind : ∀ c ∈ behind, Text.isBlank c = true) {text : String}
    (htext : text.toList = before ++ n.repr.toList ++ behind) :
    (number.check true (some (.string text)) = .ofValue (.whole n) ↔ n < Text.signedBound) ∧
    (Text.signedBound ≤ n → number.check true (some (.string text)) =
      .ofValue (.number (.float (.ofRatio false n.toNat 1)))) := by
  have htrim : Text.trim text.toList = n.repr.toList := by
    rw [htext, Text.trim_blanks hbefore (fun c hc => Text.isBlank_of_mem_repr hc) hbehind]
  have hcheck : ∀ x, numberOfText? text = some x →
      number.check true (some (.string text)) = .ofValue (.number x) := by
    intro x hx
    simp [check, accept?, hx]
  by_cases hn : n < Text.signedBound
  · have hwhole := hcheck _ (numberOfText?_signed hlow hn htrim)
    exact ⟨⟨fun _ => hn, fun _ => hwhole⟩, fun hle => absurd hn (Int.not_lt.2 hle)⟩
  · obtain ⟨m, rfl⟩ := Int.eq_ofNat_of_zero_le (show 0 ≤ n by omega)
    have hdigits : Text.trim text.toList = Nat.toDigits 10 m := by
      rw [htrim, Text.toList_repr]
      simp
    have hfloat := hcheck _ (numberOfText?_wide (by omega) (by omega) hdigits)
    refine ⟨⟨fun h => ?_, fun h => absurd h hn⟩, fun _ => hfloat⟩
    rw [hfloat] at h
    cases h

/-- The greatest number that 64 bits with a sign can hold, and the one above it. -/
theorem check_decimal_bounds :
    number.check true (some (.string "\t9223372036854775807\u3000")) =
      .ofValue (.whole 9223372036854775807) ∧
    number.check true (some (.string " 9223372036854775808")) =
      .ofValue (.number (.float (.ofRatio false 9223372036854775808 1))) := by
  have hone {c : Char} (h : Text.isBlank c = true) : ∀ d ∈ [c], Text.isBlank d = true :=
    List.forall_mem_singleton.2 h
  have htab := hone (c := '\t') (by decide)
  have hwide := hone (c := '\u3000') (by decide)
  have hspace := hone (c := ' ') (by decide)
  exact ⟨(check_decimal (n := 9223372036854775807) (by decide) (by decide) htab hwide
      (by decide)).1.2 (by decide),
    (check_decimal (n := 9223372036854775808) (by decide) (by decide) hspace (List.forall_mem_nil _)
      (by decide)).2 (by decide)⟩

/-- The greatest number that 64 bits without a sign can hold is not what its decimal gives: that is
the floating number of the next one. -/
theorem not_check_decimal_wide : (18446744073709551615 : Int) < Text.indexBound ∧
    number.check true (some (.string "18446744073709551615")) =
      .ofValue (.number (.float (.ofRatio false 18446744073709551616 1))) ∧
    number.check true (some (.string "18446744073709551615")) ≠
      .ofValue (.whole 18446744073709551615) := by
  have hnumber : numberOfText? "18446744073709551615" =
      some (.float (.ofRatio false 18446744073709551616 1)) := by decide +kernel
  have hcheck : number.check true (some (.string "18446744073709551615")) =
      .ofValue (.number (.float (.ofRatio false 18446744073709551616 1))) := by
    simp only [check, accept?, hnumber, if_true, Option.map_some]
  refine ⟨by decide, hcheck, fun h => ?_⟩
  rw [hcheck] at h
  cases h

end Constraint

end ValueResolution
