import Chip8.Text.Hexadecimal
import Mathlib.Algebra.Group.Nat.Defs
import Mathlib.Data.List.Induction

/-!
# Reading hexadecimal digits back

The digits that a number is written with, of either letter case and behind any zeros that fill them up,
have that number as their value. A number that fits into the width takes up all of it and no more.
-/

set_option autoImplicit false

namespace Chip8.Hexadecimal

theorem toList_marked (width n : Nat) : (marked width n).toList = '0' :: 'x' :: digits width n := by
  simp [marked, lower]

theorem toList_upper (width n : Nat) :
    (upper width n).toList = (digits width n).map Char.toUpper := by
  simp [upper]

def digitValue (c : Char) : Nat := (value? (UInt8.ofNat c.toNat)).getD 0

def valueOf (cs : List Char) : Nat := cs.foldl (fun n c => 16 * n + digitValue c) 0

theorem digitValue_digitChar {d : Nat} (h : d < 16) : digitValue (Nat.digitChar d) = d := by
  have hall : ∀ d : Fin 16, digitValue (Nat.digitChar d) = d := by decide
  exact hall ⟨d, h⟩

theorem digitValue_toUpper_digitChar {d : Nat} (h : d < 16) :
    digitValue (Nat.digitChar d).toUpper = d := by
  have hall : ∀ d : Fin 16, digitValue (Nat.digitChar d).toUpper = d := by decide
  exact hall ⟨d, h⟩

theorem valueOf_concat (cs : List Char) (c : Char) :
    valueOf (cs ++ [c]) = 16 * valueOf cs + digitValue c := by
  rw [valueOf, List.foldl_append]
  rfl

theorem valueOf_toDigits (n : Nat) : valueOf (Nat.toDigits 16 n) = n := by
  induction n using Nat.base_induction 16 (by decide) with
  | single d hd =>
    rw [Nat.toDigits_of_lt_base hd]
    simpa [valueOf] using digitValue_digitChar hd
  | digit n d hd hn ih =>
    rw [← Nat.toDigits_append_toDigits (by decide) hn hd, Nat.toDigits_of_lt_base hd,
      valueOf_concat, ih, digitValue_digitChar hd]

theorem mem_toDigits {n : Nat} {c : Char} (h : c ∈ Nat.toDigits 16 n) :
    ∃ d < 16, c = Nat.digitChar d := by
  induction n using Nat.base_induction 16 (by decide) with
  | single d hd =>
    rw [Nat.toDigits_of_lt_base hd, List.mem_singleton] at h
    exact ⟨d, hd, h⟩
  | digit n d hd hn ih =>
    rw [← Nat.toDigits_append_toDigits (by decide) hn hd, Nat.toDigits_of_lt_base hd,
      List.mem_append, List.mem_singleton] at h
    exact h.elim ih fun hc => ⟨d, hd, hc⟩

theorem mem_digits {width n : Nat} {c : Char} (h : c ∈ digits width n) :
    ∃ d < 16, c = Nat.digitChar d := by
  rw [digits, List.leftpad, List.mem_append] at h
  rcases h with h | h
  · exact ⟨0, by decide, List.eq_of_mem_replicate h⟩
  · exact mem_toDigits h

theorem valueOf_digits (width n : Nat) : valueOf (digits width n) = n := by
  have hzeros : ∀ k, valueOf (List.replicate k '0') = 0 := by
    intro k
    induction k with
    | zero => rfl
    | succ k ih =>
      rw [List.replicate_succ', valueOf_concat, ih]
      rfl
  have hfill : valueOf (digits width n) = valueOf (Nat.toDigits 16 n) := by
    rw [digits, List.leftpad, valueOf, List.foldl_append]
    exact congrArg (fun k => (Nat.toDigits 16 n).foldl _ k) (hzeros _)
  rw [hfill, valueOf_toDigits]

theorem digits_inj {width a b : Nat} (h : digits width a = digits width b) : a = b := by
  have hvalue := congrArg valueOf h
  rwa [valueOf_digits, valueOf_digits] at hvalue

theorem valueOf_map_toUpper {cs : List Char} (h : ∀ c ∈ cs, ∃ d < 16, c = Nat.digitChar d) :
    valueOf (cs.map Char.toUpper) = valueOf cs := by
  induction cs using List.reverseRecOn with
  | nil => rfl
  | append_singleton cs c ih =>
    obtain ⟨d, hd, rfl⟩ := h c (by simp)
    have hcs := ih fun c hc => h c (by simp [hc])
    rw [List.map_append, List.map_singleton, valueOf_concat, valueOf_concat, hcs,
      digitValue_toUpper_digitChar hd, digitValue_digitChar hd]

theorem valueOf_digits_toUpper (width n : Nat) :
    valueOf ((digits width n).map Char.toUpper) = n := by
  rw [valueOf_map_toUpper fun c hc => mem_digits hc, valueOf_digits]

theorem length_digits {width n : Nat} (hw : 0 < width) (h : n < 16 ^ width) :
    (digits width n).length = width := by
  have hle := (Nat.length_toDigits_le_iff (b := 16) (by decide) hw).mpr h
  rw [digits, List.leftpad, List.length_append, List.length_replicate]
  omega

theorem le_length_digits (width n : Nat) : width ≤ (digits width n).length := by
  rw [digits, List.leftpad, List.length_append, List.length_replicate]
  omega

theorem isAlphanum_of_mem_digits {width n : Nat} {c : Char} (h : c ∈ digits width n) :
    c.isAlphanum = true := by
  obtain ⟨d, hd, rfl⟩ := mem_digits h
  have hall : ∀ d : Fin 16, (Nat.digitChar d).isAlphanum = true := by decide
  exact hall ⟨d, hd⟩

theorem isAlphanum_toUpper_of_mem_digits {width n : Nat} {c : Char} (h : c ∈ digits width n) :
    c.toUpper.isAlphanum = true := by
  obtain ⟨d, hd, rfl⟩ := mem_digits h
  have hall : ∀ d : Fin 16, (Nat.digitChar d).toUpper.isAlphanum = true := by decide
  exact hall ⟨d, hd⟩

theorem colon_not_mem_digits (width n : Nat) : ':' ∉ digits width n := fun h =>
  Bool.false_ne_true (isAlphanum_of_mem_digits h)

end Chip8.Hexadecimal
