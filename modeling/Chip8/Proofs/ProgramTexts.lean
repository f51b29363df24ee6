import Chip8.Proofs.ProgramDigits

/-!
# Programs from their texts

A text is accepted exactly if it can be got from the digits of some bytes by choosing the case of each
letter and putting white space anywhere, and then the bytes are these. Everything else is refused with
what is wrong first, and the message tells what that is, a byte that is no digit and its place included.
-/

set_option autoImplicit false

namespace Chip8

namespace ProgramText

open Hexadecimal

/-- A text in which digits are written, each of either case, with white space anywhere. -/
inductive Written : List Char → List Char → Prop
  | nil : Written [] []
  | blank {c : Char} {cs digits : List Char} (hc : isBlank c = true) (rest : Written cs digits) :
    Written (c :: cs) digits
  | digit {c d : Char} {cs digits : List Char} (hc : c = d ∨ c = d.toUpper)
    (rest : Written cs digits) : Written (c :: cs) (d :: digits)

def utf8 (text : String) : List UInt8 := text.toUTF8.data.toList

theorem essence_eq_utf8 (text : String) :
    essence text = utf8 (String.ofList (text.toList.filter fun c => !isBlank c)) := by
  simp [essence, utf8, List.utf8Encode]

theorem utf8EncodeChar_of_lt {c : Char} (h : c.toNat < 128) :
    String.utf8EncodeChar c = [UInt8.ofNat c.toNat] :=
  if_pos (Nat.le_of_lt_succ h)

/-- A character that is not in ASCII begins with a byte that is not. -/
theorem utf8EncodeChar_of_le {c : Char} (h : 128 ≤ c.toNat) :
    ∃ b bs, String.utf8EncodeChar c = b :: bs ∧ 128 ≤ b.toNat := by
  have hv : ¬ c.val.toNat ≤ 127 := Nat.not_le.mpr h
  have hbyte : ∀ n, (UInt8.ofNat n).toNat = n % 256 := fun _ => rfl
  simp only [String.utf8EncodeChar]
  rw [if_neg hv]
  split
  · exact ⟨_, _, rfl, by rw [hbyte]; omega⟩
  · split
    · exact ⟨_, _, rfl, by rw [hbyte]; omega⟩
    · exact ⟨_, _, rfl, by rw [hbyte]; omega⟩

theorem toNat_digitChar {d : Nat} (h : d < 16) :
    (Nat.digitChar d).toNat = (if d < 10 then 48 + d else 87 + d) ∧
      (Nat.digitChar d).toUpper.toNat = if d < 10 then 48 + d else 55 + d := by
  have hall : ∀ d : Fin 16,
      (Nat.digitChar d).toNat = (if d.val < 10 then 48 + d.val else 87 + d.val) ∧
        (Nat.digitChar d).toUpper.toNat = if d.val < 10 then 48 + d.val else 55 + d.val := by
    decide
  exact hall ⟨d, h⟩

theorem lowerCase_eq_digitCode_iff {c : Char} (hc : c.toNat < 128) {d : Nat} (hd : d < 16) :
    lowerCase (UInt8.ofNat c.toNat) = digitCode d ↔
      c = Nat.digitChar d ∨ c = (Nat.digitChar d).toUpper := by
  have hcode : (UInt8.ofNat c.toNat).toNat = c.toNat := Nat.mod_eq_of_lt (by omega)
  rw [← UInt8.toNat_inj, toNat_lowerCase, toNat_digitCode hd, hcode, ← Char.toNat_inj,
    ← Char.toNat_inj, (toNat_digitChar hd).1, (toNat_digitChar hd).2]
  split <;> split <;> omega

theorem isBlank_digitChar {d : Nat} (h : d < 16) :
    isBlank (Nat.digitChar d) = false ∧ isBlank (Nat.digitChar d).toUpper = false := by
  have hall : ∀ d : Fin 16, isBlank (Nat.digitChar d) = false ∧
      isBlank (Nat.digitChar d).toUpper = false := by decide
  exact hall ⟨d, h⟩

theorem written_cons_iff {c : Char} {cs digits : List Char} :
    Written (c :: cs) digits ↔ (isBlank c = true ∧ Written cs digits) ∨
      ∃ d rest, digits = d :: rest ∧ (c = d ∨ c = d.toUpper) ∧ Written cs rest := by
  constructor
  · intro h
    cases h with
    | blank hc rest => exact .inl ⟨hc, rest⟩
    | digit hc rest => exact .inr ⟨_, _, rfl, hc, rest⟩
  · rintro (⟨hc, rest⟩ | ⟨d, digits, rfl, hc, rest⟩)
    · exact .blank hc rest
    · exact .digit hc rest

theorem written_iff {cs : List Char} {ds : List Nat} (hds : ∀ d ∈ ds, d < 16) :
    Written cs (ds.map Nat.digitChar) ↔
      ((cs.filter fun c => !isBlank c).flatMap String.utf8EncodeChar).map lowerCase =
        ds.map digitCode := by
  induction cs generalizing ds with
  | nil =>
    cases ds with
    | nil => exact iff_of_true .nil rfl
    | cons d ds => exact iff_of_false nofun nofun
  | cons c cs ih =>
    rw [written_cons_iff]
    cases hc : isBlank c with
    | true =>
      rw [List.filter_cons_of_neg (by simp [hc]), ← ih hds]
      constructor
      · rintro (⟨-, rest⟩ | ⟨e, rest, he, hce, -⟩)
        · exact rest
        · -- no digit is white space
          cases ds with
          | nil => cases he
          | cons d ds =>
            obtain ⟨hlower, hupper⟩ := isBlank_digitChar (hds d (by simp))
            obtain ⟨rfl, -⟩ := List.cons.inj he
            rcases hce with rfl | rfl
            · exact absurd (hc.symm.trans hlower) (by decide)
            · exact absurd (hc.symm.trans hupper) (by decide)
      · intro rest
        exact .inl ⟨rfl, rest⟩
    | false =>
      rw [List.filter_cons_of_pos (by simp [hc]), List.flatMap_cons, List.map_append]
      cases ds with
      | nil =>
        obtain ⟨b, bs, hb⟩ := List.exists_cons_of_ne_nil (String.utf8EncodeChar_ne_nil (c := c))
        simp [hb]
      | cons d ds =>
        rw [List.forall_mem_cons] at hds
        by_cases hascii : c.toNat < 128
        · rw [utf8EncodeChar_of_lt hascii, List.map_cons, List.map_singleton, List.singleton_append,
            List.map_cons, List.cons.injEq, lowerCase_eq_digitCode_iff hascii hds.1, ← ih hds.2]
          simp
        · -- neither the character nor its first byte is that of a digit
          obtain ⟨b, bs, hencode, hb⟩ := utf8EncodeChar_of_le (Nat.not_lt.mp hascii)
          have hbyte : lowerCase b ≠ digitCode d := by
            rw [Ne, ← UInt8.toNat_inj, toNat_lowerCase, toNat_digitCode hds.1]
            split <;> split <;> omega
          have hchar : ¬ (c = Nat.digitChar d ∨ c = (Nat.digitChar d).toUpper) := by
            rw [← Char.toNat_inj, ← Char.toNat_inj, (toNat_digitChar hds.1).1,
              (toNat_digitChar hds.1).2]
            split <;> omega
          simp [hencode, hbyte, hchar]

theorem utf8_ofBytes (bytes : List UInt8) : utf8 (Hexadecimal.ofBytes bytes) = codes bytes := by
  have hsingle : ∀ ds : List Nat, (∀ d ∈ ds, d < 16) →
      (ds.map Nat.digitChar).flatMap String.utf8EncodeChar = ds.map digitCode := by
    intro ds hds
    induction ds with
    | nil => rfl
    | cons d ds ih =>
      rw [List.forall_mem_cons] at hds
      have hascii : (Nat.digitChar d).toNat < 128 := by
        rw [(toNat_digitChar hds.1).1]
        split <;> omega
      rw [List.map_cons, List.flatMap_cons, utf8EncodeChar_of_lt hascii, ih hds.2]
      rfl
  have htext : Hexadecimal.ofBytes bytes = String.ofList ((halves bytes).map Nat.digitChar) := by
    rw [← toList_ofBytes, String.ofList_toList]
  rw [htext, codes, ← hsingle _ fun d => lt_of_mem_halves]
  simp [utf8, List.utf8Encode]

theorem parse_eq_ok_iff_written {text : String} {bytes : List UInt8} :
    parse text = .ok bytes ↔ Written text.toList (Hexadecimal.ofBytes bytes).toList := by
  rw [parse_eq_ok_iff, toList_ofBytes, written_iff fun d => lt_of_mem_halves]
  rfl

end ProgramText

namespace CharLiteral

/-- The code of a character, read from what stands between the apostrophes: the character, a backslash
and a letter, or more characters with the code among them. -/
def codeOf : List Char → UInt8
  | [c] => UInt8.ofNat c.toNat
  | [_, c] =>
    if c = '0' then 0
    else if c = 't' then 9
    else if c = 'n' then 10
    else if c = 'r' then 13
    else UInt8.ofNat c.toNat
  | _ :: _ :: _ :: digits => UInt8.ofNat (Hexadecimal.valueOf digits.dropLast)
  | [] => 0

theorem codeOf_number (code : UInt8) :
    codeOf ("\\u\x7b" ++ Hexadecimal.lower 1 code.toNat ++ "\x7d").toList = code := by
  have hlist : ("\\u\x7b" ++ Hexadecimal.lower 1 code.toNat ++ "\x7d").toList =
      '\\' :: 'u' :: '\x7b' :: (Hexadecimal.digits 1 code.toNat ++ ['\x7d']) := by
    simp [Hexadecimal.lower]
  rw [hlist, codeOf, List.dropLast_concat, Hexadecimal.valueOf_digits, UInt8.ofNat_toNat]

theorem codeOf_singleton (code : UInt8) :
    codeOf (String.singleton (Char.ofNat code.toNat)).toList = code := by
  have hlt := code.toNat_lt
  have hvalid : code.toNat.isValidChar := .inl (by omega)
  have hcode : (Char.ofNat code.toNat).toNat = code.toNat := by
    rw [Char.ofNat, dif_pos hvalid]
    rfl
  rw [String.toList_singleton, codeOf, hcode, UInt8.ofNat_toNat]

theorem codeOf_body (code : UInt8) : codeOf (body code).toList = code := by
  unfold body
  split_ifs with h0 h9 h10 h13 h39 h92
  · rw [h0]; decide
  · rw [h9]; decide
  · rw [h10]; decide
  · rw [h13]; decide
  · rw [h39]; decide
  · rw [h92]; decide
  · exact codeOf_number code
  · exact codeOf_singleton code

theorem quoted_inj {a b : UInt8} (h : quoted a = quoted b) : a = b := by
  have hlist : ∀ code, (quoted code).toList = '\'' :: ((body code).toList ++ ['\'']) := by
    intro code
    simp [quoted]
  have hbody := congrArg String.toList h
  rw [hlist, hlist] at hbody
  have hcode := congrArg codeOf (List.append_cancel_right (List.cons.inj hbody).2)
  rwa [codeOf_body, codeOf_body] at hcode

end CharLiteral

theorem append_digits_inj {xs ys ds es : List Char} {c : Char} (hc : c.isDigit = false)
    (hd : ∀ d ∈ ds, d.isDigit = true) (he : ∀ e ∈ es, e.isDigit = true)
    (h : xs ++ c :: ds = ys ++ c :: es) : xs = ys ∧ ds = es := by
  have hlast : ∀ {zs ns : List Char}, (∀ n ∈ ns, n.isDigit = true) →
      ((zs ++ c :: ns).reverse.takeWhile Char.isDigit) = ns.reverse := by
    intro zs ns hn
    have hreverse : ∀ n ∈ ns.reverse, n.isDigit = true := fun n hm => hn n (List.mem_reverse.mp hm)
    rw [List.reverse_append, List.reverse_cons, List.append_assoc,
      List.takeWhile_append_of_pos hreverse, List.singleton_append,
      List.takeWhile_cons_of_neg (Bool.eq_false_iff.mp hc), List.append_nil]
  have hdigits : ds.reverse = es.reverse := by
    rw [← hlast hd, ← hlast he, h]
  obtain rfl := List.reverse_inj.mp hdigits
  exact ⟨List.append_cancel_right h, rfl⟩

namespace ProgramText

theorem Error.toList_message_notDigit (b : UInt8) (k : Nat) :
    (notDigit b k).message.toList = "cant decode program InvalidHexCharacter \x7b c: ".toList ++
      ((CharLiteral.quoted b).toList ++ ", index:".toList ++ ' ' :: Nat.toDigits 10 k) ++
        " \x7d".toList := by
  have hindex : ", index: ".toList = ", index:".toList ++ [' '] := by decide
  have hparts : (notDigit b k).message = "cant decode program InvalidHexCharacter \x7b c: " ++
      CharLiteral.quoted b ++ ", index: " ++ toString k ++ " \x7d" := rfl
  simp only [hparts, String.toList_append, hindex, Nat.toString_eq_repr, Nat.toList_repr,
    List.append_assoc, List.singleton_append]

theorem Error.message_inj {e f : Error} (h : e.message = f.message) : e = f := by
  have hne : ∀ b k, oddLength.message ≠ (notDigit b k).message := by
    intro b k he
    have hletter := congrArg (fun text : String => text.toList[20]?) he
    simp only [toList_message_notDigit, List.append_assoc] at hletter
    rw [List.getElem?_append_left (by decide)] at hletter
    exact absurd hletter (by decide)
  cases e with
  | oddLength =>
    cases f with
    | oddLength => rfl
    | notDigit b k => exact absurd h (hne b k)
  | notDigit a j =>
    cases f with
    | oddLength => exact absurd h.symm (hne a j)
    | notDigit b k =>
      have hdigits : ∀ n, ∀ c ∈ Nat.toDigits 10 n, c.isDigit = true :=
        fun n c => Nat.isDigit_of_mem_toDigits (by decide) (by decide)
      have hlist := congrArg String.toList h
      rw [toList_message_notDigit, toList_message_notDigit, List.append_left_inj,
        List.append_right_inj] at hlist
      obtain ⟨hfront, hnumber⟩ := append_digits_inj rfl (hdigits j) (hdigits k) hlist
      have hquoted := List.append_cancel_right hfront
      have hposition := congrArg (Nat.ofDigitChars 10 · 0) hnumber
      simp only [Nat.ofDigitChars_ten_toDigits] at hposition
      rw [CharLiteral.quoted_inj (String.toList_injective hquoted), hposition]

end ProgramText

namespace Options

open Hexadecimal ProgramText

/-- A text is accepted just if, without white space, it is an even number of digits, and its bytes are
those that are written so, up to case. An odd length is noticed before any byte that is no digit. -/
theorem program_of_text (o : Options) (content : Option (List UInt8)) (text : String) :
    let s := utf8 (String.ofList (text.toList.filter fun c => !isBlank c))
    let result := { o with rom := none, hex := some text }.program content
    ((∃ bytes, result = .ok bytes) ↔ s.length % 2 = 0 ∧ ∀ b ∈ s, IsDigit b) ∧
    (∀ bytes, result = .ok bytes ↔ s.map lowerCase = utf8 (Hexadecimal.ofBytes bytes)) ∧
    (∀ bytes, result = .ok bytes ↔ Written text.toList (Hexadecimal.ofBytes bytes).toList) ∧
    (result = .error (.text .oddLength) ↔ s.length % 2 = 1) ∧
    (∀ b k, result = .error (.text (.notDigit b k)) ↔
      s.length % 2 = 0 ∧ s[k]? = some b ∧ ¬ IsDigit b ∧ ∀ a ∈ s.take k, IsDigit a) ∧
    Function.Injective ProgramText.Error.message := by
  intro s result
  have hs : s = essence text := (essence_eq_utf8 text).symm
  have hresult : result = (ProgramText.parse text).mapError .text := by
    show program { o with rom := none, hex := some text } content = _
    simp only [program, Option.getD_some]
    cases ProgramText.parse text <;> rfl
  have hok : ∀ bytes, result = .ok bytes ↔ ProgramText.parse text = .ok bytes := by
    intro bytes
    rw [hresult]
    cases ProgramText.parse text <;> simp [Except.mapError]
  have herror : ∀ e, result = .error (.text e) ↔ ProgramText.parse text = .error e := by
    intro e
    rw [hresult]
    cases ProgramText.parse text <;> simp [Except.mapError]
  simp only [hs, hok, herror, utf8_ofBytes]
  refine ⟨?_, fun _ => parse_eq_ok_iff, fun _ => parse_eq_ok_iff_written, parse_eq_oddLength_iff,
    fun _ _ => parse_eq_notDigit_iff, fun _ _ => Error.message_inj⟩
  simp only [parse_eq_ok_iff, map_lowerCase_eq_codes_iff]
  constructor
  · rintro ⟨bytes, heven, hdigits, -⟩
    exact ⟨heven, hdigits⟩
  · rintro ⟨heven, hdigits⟩
    exact ⟨_, heven, hdigits, rfl⟩

end Options

end Chip8
