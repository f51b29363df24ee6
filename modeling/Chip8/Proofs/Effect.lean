import Chip8.Machine.Execute

/-!
# What an instruction may change

Each part of a machine is changed by few instructions. The statements here give the part after any
instruction by a table over the instructions, so that later arguments about one part of the machine
look at the instructions that touch it and at no others.
-/

set_option autoImplicit false

namespace Chip8.Machine

theorem saveRegisters_frame (m : Machine) (count : Nat) :
    m.saveRegisters count = { m with memory := (m.saveRegisters count).memory } := by
  induction count with
  | zero => rfl
  | succ count ih =>
    rw [saveRegisters, ih]
    rfl

theorem execute_saveRegisters (random : UInt8) (x : Nat) (m : Machine) :
    m.execute random (.saveRegisters x) =
      advance { m with memory := (m.saveRegisters (x + 1)).memory } :=
  congrArg advance (m.saveRegisters_frame (x + 1))

theorem execute_sp (random : UInt8) (i : Instruction) (m : Machine) :
    (m.execute random i).sp =
      match i with
      | .call _ => (m.sp + 1) % 16
      | .ret => (m.sp + 15) % 16
      | _ => m.sp := by
  cases i with
  | saveRegisters x => rw [execute_saveRegisters]; rfl
  | loadRegisters x => simp only [execute, advance, loadRegisters]
  | _ => rfl

theorem execute_stack (random : UInt8) (i : Instruction) (m : Machine) :
    (m.execute random i).stack =
      match i with
      | .call _ => m.stack.setIfInBounds m.sp m.pc
      | _ => m.stack := by
  cases i with
  | saveRegisters x => rw [execute_saveRegisters]; rfl
  | loadRegisters x => simp only [execute, advance, loadRegisters]
  | _ => rfl

theorem execute_mode (random : UInt8) (i : Instruction) (m : Machine) :
    (m.execute random i).mode =
      match i with
      | .awaitKey x => .awaitingKey x
      | _ => m.mode := by
  cases i with
  | saveRegisters x => rw [execute_saveRegisters]; rfl
  | loadRegisters x => simp only [execute, advance, loadRegisters]
  | _ => rfl

theorem execute_pixels (random : UInt8) (i : Instruction) (m : Machine) :
    (m.execute random i).pixels =
      match i with
      | .clearScreen => Vector.replicate 2048 0
      | .draw x y n =>
        (m.pixels.flipAll false
          (m.spriteCells (m.register x).toNat (m.register y).toNat n.toNat)).1
      | _ => m.pixels := by
  cases i with
  | saveRegisters x => rw [execute_saveRegisters]; rfl
  | loadRegisters x => simp only [execute, advance, loadRegisters]
  | _ => rfl

theorem execute_drawFlag (random : UInt8) (i : Instruction) (m : Machine) :
    (m.execute random i).drawFlag =
      match i with
      | .draw _ _ _ => true
      | _ => m.drawFlag := by
  cases i with
  | saveRegisters x => rw [execute_saveRegisters]; rfl
  | loadRegisters x => simp only [execute, advance, loadRegisters]
  | _ => rfl

theorem execute_keys (random : UInt8) (i : Instruction) (m : Machine) :
    (m.execute random i).keys = m.keys := by
  cases i with
  | saveRegisters x => rw [execute_saveRegisters]; rfl
  | loadRegisters x => simp only [execute, advance, loadRegisters]
  | _ => rfl

theorem execute_opcode (random : UInt8) (i : Instruction) (m : Machine) :
    (m.execute random i).opcode = m.opcode := by
  cases i with
  | saveRegisters x => rw [execute_saveRegisters]; rfl
  | loadRegisters x => simp only [execute, advance, loadRegisters]
  | _ => rfl

theorem execute_memory (random : UInt8) (i : Instruction) (m : Machine) :
    (m.execute random i).memory =
      match i with
      | .storeDecimal x => (m.storeDecimal x).memory
      | .saveRegisters x => (m.saveRegisters (x + 1)).memory
      | _ => m.memory := by
  cases i with
  | loadRegisters x => simp only [execute, advance, loadRegisters]
  | _ => rfl

theorem execute_index (random : UInt8) (i : Instruction) (m : Machine) :
    (m.execute random i).index =
      match i with
      | .setIndex nnn => nnn
      | .addIndex x => m.index + (m.register x).toUInt16
      | .glyph x => (m.register x).toUInt16 * glyphSize
      | _ => m.index := by
  cases i with
  | saveRegisters x => rw [execute_saveRegisters]; rfl
  | loadRegisters x => simp only [execute, advance, loadRegisters]
  | _ => rfl

theorem execute_delay (random : UInt8) (i : Instruction) (m : Machine) :
    (m.execute random i).delay =
      match i with
      | .setDelay x => m.register x
      | _ => m.delay := by
  cases i with
  | saveRegisters x => rw [execute_saveRegisters]; rfl
  | loadRegisters x => simp only [execute, advance, loadRegisters]
  | _ => rfl

theorem execute_sound (random : UInt8) (i : Instruction) (m : Machine) :
    (m.execute random i).sound =
      match i with
      | .setSound x => m.register x
      | _ => m.sound := by
  cases i with
  | saveRegisters x => rw [execute_saveRegisters]; rfl
  | loadRegisters x => simp only [execute, advance, loadRegisters]
  | _ => rfl

theorem execute_beep (random : UInt8) (i : Instruction) (m : Machine) :
    (m.execute random i).beep = m.beep := by
  cases i with
  | saveRegisters x => rw [execute_saveRegisters]; rfl
  | loadRegisters x => simp only [execute, advance, loadRegisters]
  | _ => rfl

theorem execute_tape (random : UInt8) (i : Instruction) (m : Machine) :
    (m.execute random i).tape = m.tape := by
  cases i with
  | saveRegisters x => rw [execute_saveRegisters]; rfl
  | loadRegisters x => simp only [execute, advance, loadRegisters]
  | _ => rfl

theorem saveRegisters_unread (m : Machine) (count : Nat) (t : Tape) (w : UInt16) (b d : Bool) :
    ({ m with tape := t, opcode := w, beep := b, drawFlag := d } : Machine).saveRegisters count =
      { m.saveRegisters count with tape := t, opcode := w, beep := b, drawFlag := d } := by
  induction count with
  | zero => rfl
  | succ count ih =>
    rw [saveRegisters, ih, saveRegisters]
    rfl

/-- No instruction looks at the tape, the opcode, the beep or the draw flag. -/
theorem execute_unread (random : UInt8) (i : Instruction) (m : Machine) (t : Tape) (w : UInt16)
    (b d : Bool) :
    ({ m with tape := t, opcode := w, beep := b, drawFlag := d } : Machine).execute random i =
      { m.execute random i with
        tape := t
        opcode := w
        beep := b
        drawFlag :=
          match i with
          | .draw _ _ _ => true
          | _ => d } := by
  cases i with
  | saveRegisters x =>
    simp only [execute, saveRegisters_unread]
    rfl
  | _ => rfl

end Chip8.Machine
