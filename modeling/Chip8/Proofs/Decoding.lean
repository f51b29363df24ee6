import Chip8.Instruction.Encoding

/-!
# Operands of decoded instructions

A decoded instruction takes its register numbers from single digits of its word, so none of them
passes the last register.
-/

set_option autoImplicit false

namespace Chip8.Instruction

def registers : Instruction → List Nat
  | clearScreen | ret | jump _ | call _ | setIndex _ | jumpOffset _ => []
  | skipEqByte x _ | skipNeByte x _ | loadByte x _ | addByte x _ | random x _ => [x]
  | skipEq x y | skipNe x y | copy x y | or x y | and x y | xor x y | add x y | sub x y
  | subFrom x y | draw x y _ => [x, y]
  | shiftRight x | shiftLeft x | skipKey x | skipNoKey x | readDelay x | awaitKey x
  | setDelay x | setSound x | addIndex x | glyph x | storeDecimal x | saveRegisters x
  | loadRegisters x => [x]

theorem registers_of_decodeScreen? {nn : UInt8} {i : Instruction}
    (h : decodeScreen? nn = some i) : i.registers = [] := by
  unfold decodeScreen? at h
  split at h <;> cases h <;> rfl

theorem registers_of_decodeArithmetic? {x y n : Nat} {i : Instruction}
    (h : decodeArithmetic? x y n = some i) : i.registers ⊆ [x, y] := by
  unfold decodeArithmetic? at h
  split at h <;> cases h <;> simp [registers]

theorem registers_of_decodeKeys? {x n : Nat} {i : Instruction}
    (h : decodeKeys? x n = some i) : i.registers = [x] := by
  unfold decodeKeys? at h
  split at h <;> cases h <;> rfl

theorem registers_of_decodeDevices? {x : Nat} {nn : UInt8} {i : Instruction}
    (h : decodeDevices? x nn = some i) : i.registers = [x] := by
  unfold decodeDevices? at h
  split at h <;> cases h <;> rfl

theorem registers_of_decode? {w : UInt16} {i : Instruction} (h : decode? w = some i) :
    i.registers ⊆ [(Nibbles.ofWord w).x, (Nibbles.ofWord w).y] := by
  simp only [decode?] at h
  split at h
  case h_1 => simp [registers_of_decodeScreen? h]
  case h_9 => exact registers_of_decodeArithmetic? h
  case h_15 => simp [registers_of_decodeKeys? h]
  case h_16 => simp [registers_of_decodeDevices? h]
  all_goals cases h <;> simp [registers]

theorem register_lt_of_decode? {w : UInt16} {i : Instruction} (h : decode? w = some i) :
    ∀ x ∈ i.registers, x < 16 := by
  intro x hx
  have hd := registers_of_decode? h hx
  simp only [List.mem_cons, List.not_mem_nil, or_false] at hd
  rcases hd with rfl | rfl
  · exact Nibbles.x_lt w
  · exact Nibbles.y_lt w

end Chip8.Instruction
