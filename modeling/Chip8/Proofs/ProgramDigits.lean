import Chip8.CommandLine.Options
import Chip8.Proofs.Digits

/-!
# Programs from their digits

What is left of a program's text without white space is a list of bytes, which is compared here with the
codes of the digits that other bytes are written with. It is accepted exactly if it agrees with those of
some bytes up to case. An odd number of bytes is refused as such, and else the first byte that is no
digit is named.
-/

set_option autoImplicit false

namespace Chip8

namespace Hexadecimal

def IsDigit (code : UInt8) : Prop :=
  ∃ c ∈ "0123456789abcdefABCDEF".toList, code.toNat = c.toNat

def lowerCase (code : UInt8) : UInt8 := if 65 ≤ code ∧ code ≤ 90 then code + 32 else code

def digitCode (d : Nat) : UInt8 := UInt8.ofNat (Nat.digitChar d).toNat

theorem toNat_digitCode {d : Nat} (h : d < 16) :
    (digitCode d).toNat = if d < 10 then 48 + d else 87 + d := by
  have hall : ∀ d : Fin 16, (digitCode d).toNat = if d.val < 10 then 48 + d.val else 87 + d.val := by
    decide
  exact hall ⟨d, h⟩

theorem toNat_lowerCase (code : UInt8) :
    (lowerCase code).toNat =
      if 65 ≤ code.toNat ∧ code.toNat ≤ 90 then code.toNat + 32 else code.toNat := by
  simp only [lowerCase, UInt8.le_iff_toNat_le, UInt8.reduceToNat]
  split
  · have hshift : (32 : UInt8).toNat = 32 := rfl
    rw [UInt8.toNat_add, hshift]
    omega
  · rfl

theorem value?_eq_some_iff {code : UInt8} {d : Nat} :
    value? code = some d ↔ d < 16 ∧ lowerCase code = digitCode d := by
  rw [← UInt8.toNat_inj, toNat_lowerCase]
  constructor
  · intro h
    have hd := value?_lt h
    refine ⟨hd, ?_⟩
    rw [toNat_digitCode hd]
    simp only [value?] at h
    grind
  · rintro ⟨hd, h⟩
    rw [toNat_digitCode hd] at h
    simp only [value?]
    grind

theorem isDigit_iff {code : UInt8} : IsDigit code ↔ ∃ d, value? code = some d := by
  have hchars : IsDigit code ↔ (48 ≤ code.toNat ∧ code.toNat ≤ 57) ∨
      (65 ≤ code.toNat ∧ code.toNat ≤ 70) ∨ (97 ≤ code.toNat ∧ code.toNat ≤ 102) := by
    simp [IsDigit]
    omega
  rw [hchars, ← Option.isSome_iff_exists]
  simp only [value?]
  grind

theorem not_isDigit_iff {code : UInt8} : ¬ IsDigit code ↔ value? code = none := by
  rw [isDigit_iff, ← Option.isSome_iff_exists, Bool.not_eq_true, Option.isSome_eq_false_iff,
    Option.isNone_iff_eq_none]

def halves (bytes : List UInt8) : List Nat := bytes.flatMap fun b => [b.toNat / 16, b.toNat % 16]

def codes (bytes : List UInt8) : List UInt8 := (halves bytes).map digitCode

theorem lt_of_mem_halves {bytes : List UInt8} {d : Nat} (h : d ∈ halves bytes) : d < 16 := by
  obtain ⟨b, -, hd⟩ := List.mem_flatMap.mp h
  have hb := b.toNat_lt
  simp only [List.mem_cons, List.not_mem_nil, or_false] at hd
  omega

theorem digits_two {n : Nat} (h : n < 256) :
    digits 2 n = [Nat.digitChar (n / 16), Nat.digitChar (n % 16)] := by
  have hlow : n % 16 < 16 := Nat.mod_lt _ (by decide)
  by_cases hn : n < 16
  · have hzero : n / 16 = 0 := Nat.div_eq_of_lt hn
    rw [digits, Nat.toDigits_of_lt_base hn, hzero, Nat.mod_eq_of_lt hn]
    rfl
  · have hhigh : n / 16 < 16 := by omega
    have hjoin := Nat.toDigits_append_toDigits (b := 16) (n := n / 16) (by decide) (by omega) hlow
    rw [Nat.div_add_mod, Nat.toDigits_of_lt_base hhigh, Nat.toDigits_of_lt_base hlow] at hjoin
    rw [digits, ← hjoin]
    rfl

theorem toList_ofBytes (bytes : List UInt8) :
    (ofBytes bytes).toList = (halves bytes).map Nat.digitChar := by
  have hpair : (fun b : UInt8 => digits 2 b.toNat) =
      fun b => [b.toNat / 16, b.toNat % 16].map Nat.digitChar :=
    funext fun b => digits_two b.toNat_lt
  rw [ofBytes, String.toList_ofList, hpair, halves, List.map_flatMap]

end Hexadecimal

namespace ProgramText

open Hexadecimal

theorem notDigit?_eq_none_iff {digits : List UInt8} {position : Nat} :
    notDigit? digits position = none ↔ ∀ b ∈ digits, IsDigit b := by
  induction digits generalizing position with
  | nil => simp [notDigit?]
  | cons b digits ih =>
    rw [List.forall_mem_cons, notDigit?]
    cases hb : value? b with
    | none => simp [not_isDigit_iff.mpr hb]
    | some d => simp [isDigit_iff.mpr ⟨d, hb⟩, ih]

theorem notDigit?_eq_some_iff {digits : List UInt8} {position : Nat} {e : Error} :
    notDigit? digits position = some e ↔ ∃ b k, e = .notDigit b (position + k) ∧
      digits[k]? = some b ∧ ¬ IsDigit b ∧ ∀ a ∈ digits.take k, IsDigit a := by
  induction digits generalizing position with
  | nil => simp [notDigit?]
  | cons a digits ih =>
    rw [notDigit?]
    cases ha : value? a with
    | none =>
      have hnot : ¬ IsDigit a := not_isDigit_iff.mpr ha
      constructor
      · intro h
        exact ⟨a, 0, (Option.some.inj h).symm, rfl, hnot, by simp⟩
      · rintro ⟨b, _ | k, rfl, hb, -, hbefore⟩
        · rw [Option.some.inj hb]
          rfl
        · exact absurd (hbefore a (by simp)) hnot
    | some d =>
      have hdigit : IsDigit a := isDigit_iff.mpr ⟨d, ha⟩
      refine ih.trans ⟨?_, ?_⟩
      · rintro ⟨b, k, rfl, hb, hnot, hbefore⟩
        refine ⟨b, k + 1, by rw [Nat.add_right_comm, Nat.add_assoc], hb, hnot, ?_⟩
        rw [List.take_succ_cons, List.forall_mem_cons]
        exact ⟨hdigit, hbefore⟩
      · rintro ⟨b, _ | k, rfl, hb, hnot, hbefore⟩
        · exact absurd (Option.some.inj hb ▸ hdigit) hnot
        · rw [List.take_succ_cons, List.forall_mem_cons] at hbefore
          exact ⟨b, k, by rw [Nat.add_right_comm, Nat.add_assoc], hb, hnot, hbefore.2⟩

theorem byteOf_eq_iff {high low b : UInt8} {x y : Nat} (hx : value? high = some x)
    (hy : value? low = some y) : byteOf high low = b ↔ x = b.toNat / 16 ∧ y = b.toNat % 16 := by
  have hxlt := value?_lt hx
  have hylt := value?_lt hy
  have hb := b.toNat_lt
  have hsum : (UInt8.ofNat (x * 16 + y)).toNat = x * 16 + y := Nat.mod_eq_of_lt (by omega)
  rw [byteOf, hx, hy, Option.getD_some, Option.getD_some, ← UInt8.toNat_inj, hsum]
  omega

/-- Digits are those of some bytes, up to case, just if the bytes are read from them. -/
theorem map_lowerCase_eq_codes_iff {digits bytes : List UInt8} :
    digits.map lowerCase = codes bytes ↔
      digits.length % 2 = 0 ∧ (∀ b ∈ digits, IsDigit b) ∧ bytesOf digits = bytes := by
  induction digits using bytesOf.induct generalizing bytes with
  | case1 high low digits ih =>
    have hlength : (high :: low :: digits).length % 2 = 0 ↔ digits.length % 2 = 0 := by
      simp only [List.length_cons]
      omega
    rw [hlength, List.forall_mem_cons, List.forall_mem_cons, bytesOf]
    cases bytes with
    | nil => simp [codes, halves]
    | cons b bytes =>
      have hb := b.toNat_lt
      have hhigh : lowerCase high = digitCode (b.toNat / 16) ↔ value? high = some (b.toNat / 16) := by
        rw [value?_eq_some_iff, and_iff_right (by omega)]
      have hlow : lowerCase low = digitCode (b.toNat % 16) ↔ value? low = some (b.toNat % 16) := by
        rw [value?_eq_some_iff, and_iff_right (by omega)]
      have hcodes : codes (b :: bytes) =
          digitCode (b.toNat / 16) :: digitCode (b.toNat % 16) :: codes bytes := rfl
      rw [hcodes, List.map_cons, List.map_cons, List.cons.injEq, List.cons.injEq, hhigh, hlow, ih,
        List.cons.injEq]
      constructor
      · rintro ⟨hx, hy, heven, hdigits, hbytes⟩
        exact ⟨heven, ⟨isDigit_iff.mpr ⟨_, hx⟩, isDigit_iff.mpr ⟨_, hy⟩, hdigits⟩,
          (byteOf_eq_iff hx hy).mpr ⟨rfl, rfl⟩, hbytes⟩
      · rintro ⟨heven, ⟨hx, hy, hdigits⟩, hbyte, hbytes⟩
        obtain ⟨x, hx⟩ := isDigit_iff.mp hx
        obtain ⟨y, hy⟩ := isDigit_iff.mp hy
        obtain ⟨rfl, rfl⟩ := (byteOf_eq_iff hx hy).mp hbyte
        exact ⟨hx, hy, heven, hdigits, hbytes⟩
  | case2 digits h =>
    rcases digits with _ | ⟨b, _ | ⟨low, digits⟩⟩
    · cases bytes <;> simp [codes, halves, bytesOf]
    · cases bytes <;> simp [codes, halves]
    · exact absurd rfl (h b low digits)

theorem parse_of_odd {text : String} (h : (essence text).length % 2 = 1) :
    parse text = .error .oddLength := if_pos h

theorem parse_of_even {text : String} (h : (essence text).length % 2 = 0) :
    parse text =
      match notDigit? (essence text) 0 with
      | some e => .error e
      | none => .ok (bytesOf (essence text)) := if_neg (by omega)

theorem parse_eq_ok_iff {text : String} {bytes : List UInt8} :
    parse text = .ok bytes ↔ (essence text).map lowerCase = codes bytes := by
  have hdigits : notDigit? (essence text) 0 = none ↔ ∀ b ∈ essence text, IsDigit b :=
    notDigit?_eq_none_iff
  rw [map_lowerCase_eq_codes_iff, ← hdigits]
  rcases Nat.mod_two_eq_zero_or_one (essence text).length with h | h
  · rw [parse_of_even h]
    cases notDigit? (essence text) 0 <;> simp [h]
  · rw [parse_of_odd h]
    simp [h]

theorem parse_eq_oddLength_iff {text : String} :
    parse text = .error .oddLength ↔ (essence text).length % 2 = 1 := by
  rcases Nat.mod_two_eq_zero_or_one (essence text).length with h | h
  · rw [parse_of_even h]
    cases he : notDigit? (essence text) 0 with
    | none => simp [h]
    | some e =>
      obtain ⟨b, k, rfl, -⟩ := notDigit?_eq_some_iff.mp he
      simp [h]
  · simp [parse_of_odd h, h]

theorem parse_eq_notDigit_iff {text : String} {b : UInt8} {k : Nat} :
    parse text = .error (.notDigit b k) ↔ (essence text).length % 2 = 0 ∧
      (essence text)[k]? = some b ∧ ¬ IsDigit b ∧ ∀ a ∈ (essence text).take k, IsDigit a := by
  have hname : notDigit? (essence text) 0 = some (.notDigit b k) ↔
      (essence text)[k]? = some b ∧ ¬ IsDigit b ∧ ∀ a ∈ (essence text).take k, IsDigit a := by
    rw [notDigit?_eq_some_iff]
    constructor
    · rintro ⟨b', k', he, h⟩
      rw [Error.notDigit.injEq, Nat.zero_add] at he
      rw [he.1, he.2]
      exact h
    · intro h
      exact ⟨b, k, by rw [Nat.zero_add], h⟩
  rw [← hname]
  rcases Nat.mod_two_eq_zero_or_one (essence text).length with h | h
  · rw [parse_of_even h]
    cases notDigit? (essence text) 0 <;> simp [h]
  · simp [parse_of_odd h, h]

end ProgramText

end Chip8
