import Chip8.Proofs.Effect

/-!
# The footprint of an instruction

Which parts of a machine an instruction may change at all, as one table, and where the program goes on
after it. Everything outside the footprint is left as it was, whatever the operands and the random byte
are; in particular the flag register is written by arithmetic and by drawing alone, unless the
instruction names it. The program counter moves on by one instruction, unless the instruction jumps or
skips, and of two opposite skips exactly one is taken.
-/

set_option autoImplicit false

namespace Chip8

/-- Registers and stack slots are parts of their own. The program counter is none, since every
instruction sets it. -/
inductive Part where
  | memory
  | register (k : Nat)
  | index
  | slot (k : Nat)
  | sp
  | pixels
  | keys
  | delay
  | sound
  | opcode
  | drawFlag
  | beep
  | mode
  deriving DecidableEq

def Machine.SameIn (m n : Machine) : Part → Prop
  | .memory => n.memory = m.memory
  | .register k => n.register k = m.register k
  | .index => n.index = m.index
  | .slot k => n.slot k = m.slot k
  | .sp => n.sp = m.sp
  | .pixels => n.pixels = m.pixels
  | .keys => n.keys = m.keys
  | .delay => n.delay = m.delay
  | .sound => n.sound = m.sound
  | .opcode => n.opcode = m.opcode
  | .drawFlag => n.drawFlag = m.drawFlag
  | .beep => n.beep = m.beep
  | .mode => n.mode = m.mode

namespace Instruction

def writes : Instruction → Nat → Bool
  | loadByte x _, k | addByte x _, k | copy x _, k | or x _, k | and x _, k | xor x _, k
  | random x _, k | readDelay x, k => k == x
  | add x _, k | sub x _, k | subFrom x _, k | shiftRight x, k | shiftLeft x, k =>
    k == x || k == Machine.flagRegister
  | draw _ _ _, k => k == Machine.flagRegister
  | loadRegisters x, k => k ≤ x
  | _, _ => false

def mayChange (sp : Nat) (i : Instruction) : Part → Bool
  | .memory => (i matches storeDecimal _ | saveRegisters _)
  | .register k => i.writes k
  | .index => (i matches setIndex _ | addIndex _ | glyph _)
  | .slot k => (i matches call _) && k == sp
  | .sp => (i matches call _ | ret)
  | .pixels => (i matches clearScreen | draw _ _ _)
  | .delay => (i matches setDelay _)
  | .sound => (i matches setSound _)
  | .drawFlag => (i matches draw _ _ _)
  | .mode => (i matches awaitKey _)
  | .keys | .opcode | .beep => false

end Instruction

namespace Machine

def skips (m : Machine) : Instruction → Bool
  | .skipEqByte x nn => m.register x == nn
  | .skipNeByte x nn => m.register x != nn
  | .skipEq x y => m.register x == m.register y
  | .skipNe x y => m.register x != m.register y
  | .skipKey x => m.keyDown x
  | .skipNoKey x => !m.keyDown x
  | _ => false

def following (m : Machine) : Instruction → UInt16
  | .jump nnn | .call nnn => nnn
  | .jumpOffset nnn => nnn + (m.register 0).toUInt16
  | .ret => m.top + 2
  | i => m.pc + if m.skips i then 4 else 2

variable {m : Machine}

@[simp] theorem register_advance (m : Machine) (k : Nat) : m.advance.register k = m.register k := rfl

theorem register_setRegister_of_ne {x k : Nat} (h : k ≠ x) (v : UInt8) :
    (m.setRegister x v).register k = m.register k := by
  rw [register_setRegister, if_neg fun hx => h hx.1.symm]

theorem register_setFlag_of_ne {k : Nat} (h : k ≠ flagRegister) (flag : Bool) :
    (m.setFlag flag).register k = m.register k :=
  register_setRegister_of_ne h _

theorem register_drawSprite_of_ne {k : Nat} (h : k ≠ flagRegister) (x y rows : Nat) :
    (m.drawSprite x y rows).register k = m.register k :=
  register_setFlag_of_ne h
    (m.pixels.flipAll false (m.spriteCells (m.register x).toNat (m.register y).toNat rows)).2

theorem register_loadRegisters_of_le {count k : Nat} (h : count ≤ k) :
    (m.loadRegisters count).register k = m.register k := by
  by_cases hk : k < 16
  · simp [loadRegisters, register, hk, Nat.not_lt.mpr h]
  · simp [register, hk]

theorem execute_register_of_not_writes {i : Instruction} {k : Nat} (h : i.writes k = false)
    (random : UInt8) : (m.execute random i).register k = m.register k := by
  cases i with
  | loadByte x | addByte x | copy x | or x | and x | xor x | random x | readDelay x =>
    have hk : k ≠ x := by simpa [Instruction.writes] using h
    simp only [execute, register_advance, register_setRegister_of_ne hk]
  | add x | sub x | subFrom x | shiftRight x | shiftLeft x =>
    simp only [Instruction.writes, Bool.or_eq_false_iff, beq_eq_false_iff_ne] at h
    simp only [execute, register_advance, register_setFlag_of_ne h.2,
      register_setRegister_of_ne h.1]
  | draw x y n =>
    have hk : k ≠ flagRegister := by simpa [Instruction.writes] using h
    simp only [execute, register_advance, register_drawSprite_of_ne hk]
  | saveRegisters x => rw [execute_saveRegisters]; rfl
  | loadRegisters x =>
    have hk : x + 1 ≤ k := Nat.succ_le_of_lt (by simpa [Instruction.writes] using h)
    simp only [execute, register_advance, register_loadRegisters_of_le hk]
  | _ => rfl

theorem execute_slot_of_ne {i : Instruction} {k : Nat} (h : i.mayChange m.sp (.slot k) = false)
    (random : UInt8) : (m.execute random i).slot k = m.slot k := by
  have hs := execute_stack random i m
  cases i with
  | call nnn =>
    have hk : k ≠ m.sp := beq_eq_false_iff_ne.mp h
    have hcall : (m.execute random (.call nnn)).slot k = (m.push m.pc).slot k := rfl
    rw [hcall, slot_push, if_neg fun hp => hk hp.1.symm]
  | _ => rw [slot, slot, hs]

theorem execute_sameIn {i : Instruction} {p : Part} (h : i.mayChange m.sp p = false)
    (random : UInt8) : m.SameIn (m.execute random i) p := by
  cases p with
  | memory =>
    have hm := execute_memory random i m
    cases i with
    | storeDecimal x | saveRegisters x => cases h
    | _ => exact hm
  | register k => exact execute_register_of_not_writes h random
  | index =>
    have hi := execute_index random i m
    cases i with
    | setIndex nnn | addIndex x | glyph x => cases h
    | _ => exact hi
  | slot k => exact execute_slot_of_ne h random
  | sp =>
    have hs := execute_sp random i m
    cases i with
    | call nnn | ret => cases h
    | _ => exact hs
  | pixels =>
    have hp := execute_pixels random i m
    cases i with
    | clearScreen | draw x y n => cases h
    | _ => exact hp
  | keys => exact execute_keys random i m
  | delay =>
    have hd := execute_delay random i m
    cases i with
    | setDelay x => cases h
    | _ => exact hd
  | sound =>
    have hs := execute_sound random i m
    cases i with
    | setSound x => cases h
    | _ => exact hs
  | opcode => exact execute_opcode random i m
  | drawFlag =>
    have hf := execute_drawFlag random i m
    cases i with
    | draw x y n => cases h
    | _ => exact hf
  | beep => exact execute_beep random i m
  | mode =>
    have hm := execute_mode random i m
    cases i with
    | awaitKey x => cases h
    | _ => exact hm

theorem execute_pc (random : UInt8) (i : Instruction) (m : Machine) :
    (m.execute random i).pc = m.following i := by
  cases i with
  | saveRegisters x => rw [execute_saveRegisters]; rfl
  | _ => rfl

theorem execute_skip_pc_iff (random : UInt8) {i : Instruction}
    (h : m.following i = m.pc + if m.skips i then 4 else 2) :
    (m.execute random i).pc = m.pc + 4 ↔ m.skips i = true := by
  rw [execute_pc, h, UInt16.add_right_inj]
  cases m.skips i <;> decide

/-- Nothing but the footprint is changed. Of two opposite skips with equal operands one is taken. -/
theorem execute_footprint (random : UInt8) (i : Instruction) (m : Machine) :
    (∀ p, i.mayChange m.sp p = false → m.SameIn (m.execute random i) p) ∧
    (∀ x y n, i = .draw x y n → (m.execute random i).drawFlag = true) ∧
    (m.execute random i).pc = m.following i ∧
    (∀ x nn, (m.execute random (.skipEqByte x nn)).pc = m.pc + 4 ↔
      ¬ (m.execute random (.skipNeByte x nn)).pc = m.pc + 4) ∧
    (∀ x y, (m.execute random (.skipEq x y)).pc = m.pc + 4 ↔
      ¬ (m.execute random (.skipNe x y)).pc = m.pc + 4) ∧
    ∀ x, (m.execute random (.skipKey x)).pc = m.pc + 4 ↔
      ¬ (m.execute random (.skipNoKey x)).pc = m.pc + 4 := by
  refine ⟨fun p hp => execute_sameIn hp random, ?_, execute_pc random i m, ?_, ?_, ?_⟩
  · rintro x y n rfl
    exact execute_drawFlag random _ m
  · intro x nn
    rw [execute_skip_pc_iff random rfl, execute_skip_pc_iff random rfl]
    simp [skips]
  · intro x y
    rw [execute_skip_pc_iff random rfl, execute_skip_pc_iff random rfl]
    simp [skips]
  · intro x
    rw [execute_skip_pc_iff random rfl, execute_skip_pc_iff random rfl]
    simp [skips]

end Machine

end Chip8
