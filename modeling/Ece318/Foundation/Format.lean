import Mathlib.Data.Nat.Digits.Lemmas
import Ece318.Foundation.Bytes

/-!
# Numbers as text

`formatInt width n` is what `sprintf` writes for `%0<width>d`: the width is a
minimum, so a number with more digits takes more bytes.  `atoi` reads white
space, one optional sign and the digits that follow.  `hexByte` is `%02x`.
-/

namespace Ece318.Foundation

def digitByte (digit : Nat) : UInt8 := UInt8.ofNat (48 + digit)

def isDigit (byte : UInt8) : Bool := 48 ≤ byte.toNat && byte.toNat ≤ 57

def isSpace (byte : UInt8) : Bool :=
  byte.toNat = 32 || (9 ≤ byte.toNat && byte.toNat ≤ 13)

def padDecimal (width n : Nat) : Bytes :=
  (Nat.digitsAppend 10 (max width 1) n).reverse.map digitByte

/-- `%0<width>d`; a minus sign counts towards the width. -/
def formatInt (width : Nat) : Int → Bytes
  | .ofNat n => padDecimal width n
  | .negSucc n => 45 :: padDecimal (width - 1) (n + 1)

def digitsValue (text : Bytes) : Nat :=
  (text.takeWhile isDigit).foldl
    (fun value byte => 10 * value + (byte.toNat - 48)) 0

def atoi (text : Bytes) : Int :=
  match text.dropWhile isSpace with
  | [] => 0
  | byte :: rest =>
      if byte = 45 then -(digitsValue rest : Int)
      else if byte = 43 then digitsValue rest
      else digitsValue (byte :: rest)

@[simp] theorem formatInt_natCast (width n : Nat) :
    formatInt width (n : Int) = padDecimal width n := rfl

theorem digitByte_toNat {digit : Nat} (h : digit < 10) :
    (digitByte digit).toNat = 48 + digit := by
  simp [digitByte]
  omega

theorem isDigit_digitByte {digit : Nat} (h : digit < 10) :
    isDigit (digitByte digit) = true := by
  simp [isDigit, digitByte_toNat h]
  omega

theorem isSpace_eq_false_of_isDigit {byte : UInt8} (h : isDigit byte = true) :
    isSpace byte = false := by
  simp [isDigit, isSpace] at h ⊢
  omega

/-! ## What the digits of a padded number are -/

theorem isDigit_of_mem_padDecimal {width n : Nat} {byte : UInt8}
    (h : byte ∈ padDecimal width n) : isDigit byte = true := by
  simp only [padDecimal, List.mem_map, List.mem_reverse] at h
  obtain ⟨digit, hdigit, rfl⟩ := h
  exact isDigit_digitByte (Nat.lt_of_mem_digitsAppend (by omega) _ _ hdigit)

@[simp] theorem nulFree_padDecimal (width n : Nat) : NulFree (padDecimal width n) := by
  intro hmem
  simpa [isDigit] using isDigit_of_mem_padDecimal hmem

@[simp] theorem cString_padDecimal (width n : Nat) :
    cString (padDecimal width n) = padDecimal width n :=
  (nulFree_padDecimal width n).cString_eq

theorem le_padDecimal_length (width n : Nat) : width ≤ (padDecimal width n).length := by
  rw [padDecimal, List.length_map, List.length_reverse, Nat.digitsAppend, List.length_append,
    List.length_replicate]
  omega

theorem le_formatInt_length (width : Nat) (n : Int) : width ≤ (formatInt width n).length := by
  cases n with
  | ofNat n => exact le_padDecimal_length width n
  | negSucc n =>
      have hdigits := le_padDecimal_length (width - 1) (n + 1)
      rw [formatInt, List.length_cons]
      omega

theorem padDecimal_ne_nil (width n : Nat) : padDecimal width n ≠ [] := by
  have hlength : 0 < (Nat.digitsAppend 10 (max width 1) n).length := by
    rw [Nat.digitsAppend, List.length_append, List.length_replicate]
    omega
  simpa [padDecimal] using List.ne_nil_of_length_pos hlength

theorem padDecimal_length {width n : Nat} (hwidth : 0 < width)
    (h : n < 10 ^ width) : (padDecimal width n).length = width := by
  rw [padDecimal, List.length_map, List.length_reverse, Nat.max_eq_left hwidth,
    Nat.length_digitsAppend (by omega) _ h]

/-! ## `atoi` reads back what was formatted -/

private theorem foldl_digits (digits : List Nat) (h : ∀ digit ∈ digits, digit < 10) :
    (digits.reverse.map digitByte).foldl
      (fun value byte => 10 * value + (byte.toNat - 48)) 0 =
      Nat.ofDigits 10 digits := by
  rw [List.map_reverse, List.foldl_reverse]
  induction digits with
  | nil => rfl
  | cons digit digits ih =>
      have htail := ih fun d hd => h d (List.mem_cons_of_mem _ hd)
      have hdigit := digitByte_toNat (h digit List.mem_cons_self)
      simp only [List.map_cons, List.foldr_cons, htail, hdigit,
        Nat.ofDigits_cons]
      omega

@[simp] theorem digitsValue_padDecimal (width n : Nat) :
    digitsValue (padDecimal width n) = n := by
  have hall : (padDecimal width n).takeWhile isDigit = padDecimal width n :=
    List.takeWhile_eq_self_iff.mpr fun byte hbyte => isDigit_of_mem_padDecimal hbyte
  rw [digitsValue, hall, padDecimal, foldl_digits _
    fun digit hdigit => Nat.lt_of_mem_digitsAppend (by omega) _ _ hdigit]
  rw [Nat.digitsAppend, Nat.ofDigits_append_replicate_zero, Nat.ofDigits_digits]

@[simp] theorem atoi_padDecimal (width n : Nat) : atoi (padDecimal width n) = n := by
  cases htext : padDecimal width n with
  | nil => exact absurd htext (padDecimal_ne_nil width n)
  | cons byte rest =>
      have hmem : byte ∈ padDecimal width n := by simp [htext]
      have hbyte := isDigit_of_mem_padDecimal hmem
      have hminus : byte ≠ 45 := by rintro rfl; simp [isDigit] at hbyte
      have hplus : byte ≠ 43 := by rintro rfl; simp [isDigit] at hbyte
      have hvalue := digitsValue_padDecimal width n
      rw [htext] at hvalue
      simp [atoi, isSpace_eq_false_of_isDigit hbyte, hminus, hplus, hvalue]

@[simp] theorem atoi_formatInt (width : Nat) (n : Int) :
    atoi (formatInt width n) = n := by
  cases n with
  | ofNat n => exact atoi_padDecimal width n
  | negSucc n =>
      simp [formatInt, atoi, isSpace, Int.negSucc_eq]

theorem digitByte_toNat_sub {byte : UInt8} (h : isDigit byte = true) :
    digitByte (byte.toNat - 48) = byte := by
  simp only [isDigit, Bool.and_eq_true, decide_eq_true_eq] at h
  apply UInt8.toNat_inj.mp
  rw [digitByte_toNat (by omega)]
  omega

theorem exists_padDecimal {width : Nat} {text : Bytes} (hlength : text.length = width)
    (hwidth : 0 < width) (hdigits : ∀ byte ∈ text, isDigit byte = true) :
    ∃ n < 10 ^ width, text = padDecimal width n := by
  let digits := text.reverse.map fun byte => byte.toNat - 48
  have hlist : digits.length = width ∧ ∀ digit ∈ digits, digit < 10 := by
    refine ⟨by simpa [digits] using hlength, fun digit hdigit => ?_⟩
    obtain ⟨byte, hbyte, rfl⟩ := List.mem_map.mp hdigit
    have hrange := hdigits byte (List.mem_reverse.mp hbyte)
    simp only [isDigit, Bool.and_eq_true, decide_eq_true_eq] at hrange
    omega
  refine ⟨Nat.ofDigits 10 digits, Nat.mapsTo_ofDigits (by omega) width hlist, ?_⟩
  rw [padDecimal, Nat.max_eq_left hwidth,
    (Nat.setInvOn_digitsAppend_ofDigits (by omega) width).1 hlist]
  simp only [digits, List.map_reverse, List.reverse_reverse, List.map_map]
  refine (List.map_id' text).symm.trans (List.map_congr_left fun byte hbyte => ?_)
  exact (digitByte_toNat_sub (hdigits byte hbyte)).symm

theorem formatInt_injective (width : Nat) : Function.Injective (formatInt width) :=
  Function.LeftInverse.injective (atoi_formatInt width)

theorem padDecimal_injective (width : Nat) : Function.Injective (padDecimal width) :=
  fun first second h => by
    have hformat : formatInt width first = formatInt width second := by simpa using h
    simpa using formatInt_injective width hformat

/-! ## The range of `atoi` on a short text -/

theorem digitsValue_lt (text : Bytes) : digitsValue text < 10 ^ text.length := by
  have hfold : ∀ digits : Bytes, (∀ byte ∈ digits, isDigit byte = true) →
      digits.foldl (fun value byte => 10 * value + (byte.toNat - 48)) 0 <
        10 ^ digits.length := by
    intro digits
    induction digits using List.reverseRecOn with
    | nil => simp
    | append_singleton digits byte ih =>
        intro hdigits
        have hinit := ih fun b hb => hdigits b (by simp [hb])
        have hbyte := hdigits byte (by simp)
        simp only [isDigit, Bool.and_eq_true, decide_eq_true_eq] at hbyte
        simp only [List.foldl_append, List.foldl_cons, List.foldl_nil,
          List.length_append, List.length_singleton, pow_succ]
        omega
  refine (hfold _ fun byte hbyte => List.mem_takeWhile_imp hbyte).trans_le ?_
  exact Nat.pow_le_pow_right (by omega)
    (List.takeWhile_prefix _).length_le

theorem neg_lt_atoi {width : Nat} {text : Bytes} (h : text.length ≤ width + 1) :
    -(10 ^ width : Int) < atoi text := by
  have hdrop : (text.dropWhile isSpace).length ≤ text.length :=
    (List.dropWhile_suffix _).length_le
  have hpos : (0 : Int) < 10 ^ width := by positivity
  unfold atoi
  split
  · omega
  · rename_i byte rest hrest
    rw [hrest, List.length_cons] at hdrop
    have hvalue : (digitsValue rest : Int) < 10 ^ rest.length := by
      exact_mod_cast digitsValue_lt rest
    have hpow : (10 : Int) ^ rest.length ≤ 10 ^ width :=
      pow_le_pow_right₀ (by norm_num) (by omega)
    split_ifs <;> omega

theorem atoi_lt {width : Nat} {text : Bytes} (h : text.length ≤ width) :
    atoi text < (10 : Int) ^ width := by
  have hdrop : (text.dropWhile isSpace).length ≤ text.length :=
    (List.dropWhile_suffix _).length_le
  have hpos : (0 : Int) < 10 ^ width := by positivity
  have hvalue : ∀ rest : Bytes, rest.length ≤ width →
      (digitsValue rest : Int) < 10 ^ width := by
    intro rest hrest
    exact_mod_cast (digitsValue_lt rest).trans_le (Nat.pow_le_pow_right (by omega) hrest)
  unfold atoi
  split
  · exact hpos
  · rename_i byte rest hrest
    rw [hrest, List.length_cons] at hdrop
    have htail := hvalue rest (by omega)
    have hwhole := hvalue (byte :: rest) (by rw [List.length_cons]; omega)
    split_ifs <;> omega

theorem formatInt_length {width : Nat} {n : Int} (hlow : -(10 ^ width : Int) < n)
    (hhigh : n < 10 ^ (width + 1)) (hwidth : 0 < width) :
    (formatInt (width + 1) n).length = width + 1 := by
  cases n with
  | ofNat n =>
      have hn : (n : Int) < 10 ^ (width + 1) := hhigh
      exact padDecimal_length (by omega) (by exact_mod_cast hn)
  | negSucc n =>
      rw [Int.negSucc_eq] at hlow
      have hn : n + 1 < 10 ^ width := by exact_mod_cast (by omega : (n : Int) + 1 < 10 ^ width)
      simp [formatInt, padDecimal_length hwidth hn]

@[simp] theorem nulFree_formatInt (width : Nat) (n : Int) : NulFree (formatInt width n) := by
  cases n with
  | ofNat n => exact nulFree_padDecimal width n
  | negSucc n =>
      have hdigits := nulFree_padDecimal (width - 1) (n + 1)
      simp only [NulFree, formatInt, List.mem_cons, not_or] at hdigits ⊢
      exact ⟨by decide, hdigits⟩

/-! ## Hexadecimal bytes -/

def hexDigit (digit : Nat) : UInt8 :=
  if digit < 10 then UInt8.ofNat (48 + digit) else UInt8.ofNat (87 + digit)

def hexByte (byte : UInt8) : Bytes :=
  [hexDigit (byte.toNat / 16), hexDigit (byte.toNat % 16)]

def hexBytes (data : Bytes) : Bytes := data.flatMap hexByte

theorem hexDigit_toNat {digit : Nat} (h : digit < 16) :
    (hexDigit digit).toNat = if digit < 10 then 48 + digit else 87 + digit := by
  unfold hexDigit
  split <;> simp <;> omega

theorem hexDigit_injective {first second : Nat} (hfirst : first < 16)
    (hsecond : second < 16) (h : hexDigit first = hexDigit second) :
    first = second := by
  have hvalue := congrArg UInt8.toNat h
  rw [hexDigit_toNat hfirst, hexDigit_toNat hsecond] at hvalue
  split_ifs at hvalue <;> omega

theorem hexByte_injective : Function.Injective hexByte := by
  intro first second h
  simp only [hexByte, List.cons.injEq, and_true] at h
  have hfirst := first.toNat_lt
  have hsecond := second.toNat_lt
  have hhigh := hexDigit_injective (by omega) (by omega) h.1
  have hlow := hexDigit_injective (by omega) (by omega) h.2
  exact UInt8.toNat_inj.mp (by omega)

theorem hexBytes_injective : Function.Injective hexBytes := by
  intro first
  induction first with
  | nil =>
      intro second h
      cases second with
      | nil => rfl
      | cons byte second => simp [hexBytes, hexByte] at h
  | cons byte first ih =>
      intro second h
      cases second with
      | nil => simp [hexBytes, hexByte] at h
      | cons byte' second =>
          simp only [hexBytes, List.flatMap_cons] at h
          obtain ⟨hbyte, hrest⟩ := List.append_inj h (by simp [hexByte])
          rw [hexByte_injective hbyte, ih hrest]

@[simp] theorem hexBytes_length (data : Bytes) :
    (hexBytes data).length = 2 * data.length := by
  simp [hexBytes, hexByte, List.length_flatMap, Nat.mul_comm]

@[simp] theorem nulFree_hexBytes (data : Bytes) : NulFree (hexBytes data) := by
  intro hmem
  simp only [hexBytes, hexByte, List.mem_flatMap, List.mem_cons,
    List.not_mem_nil, or_false] at hmem
  obtain ⟨byte, -, hdigit⟩ := hmem
  have hbyte := byte.toNat_lt
  have hzero : ∀ digit < 16, hexDigit digit ≠ 0 := by
    intro digit hlt heq
    have hvalue := hexDigit_toNat hlt
    rw [heq] at hvalue
    split_ifs at hvalue <;> simp at hvalue <;> omega
  rcases hdigit with h | h <;> exact hzero _ (by omega) h.symm

end Ece318.Foundation
