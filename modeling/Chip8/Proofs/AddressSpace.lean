import Chip8.Proofs.Cycle
import Chip8.Proofs.History
import Mathlib.Data.List.Forall2

/-!
# Twelve-bit addresses

Program counter, index register and stack entries are words of sixteen bits, of which memory looks at
the lower twelve. Two machines that agree on everything but the upper four bits of these words cannot
be told apart from outside: every action keeps them alike and is answered in the same way, up to the
upper bits of the address of a fault. So the words behave as registers of twelve bits that wrap
around at 4096, although their arithmetic wraps around at 65536.
-/

set_option autoImplicit false

namespace Chip8

def SameCell (a b : UInt16) : Prop := a.toNat % 4096 = b.toNat % 4096

namespace SameCell

theorem refl (a : UInt16) : SameCell a a := rfl

theorem cellOf_eq {a b : UInt16} (h : SameCell a b) : cellOf a = cellOf b := Fin.ext h

theorem add {a b : UInt16} (h : SameCell a b) (c : UInt16) : SameCell (a + c) (b + c) := by
  simp only [SameCell, UInt16.toNat_add] at h ⊢
  omega

end SameCell

namespace Machine

/-- The machines agree on everything, addresses being compared modulo 4096. -/
structure Alike (m n : Machine) : Prop where
  memory : m.memory = n.memory
  registers : m.registers = n.registers
  index : SameCell m.index n.index
  pc : SameCell m.pc n.pc
  sp : m.sp = n.sp
  stack : ∀ k, SameCell (m.slot k) (n.slot k)
  pixels : m.pixels = n.pixels
  keys : m.keys = n.keys
  delay : m.delay = n.delay
  sound : m.sound = n.sound
  opcode : m.opcode = n.opcode
  drawFlag : m.drawFlag = n.drawFlag
  beep : m.beep = n.beep
  mode : m.mode = n.mode
  tape : m.tape = n.tape

namespace Alike

variable {m n : Machine} (h : m.Alike n)
include h

theorem register (x : Nat) : m.register x = n.register x := by
  rw [Machine.register, Machine.register, h.registers]

theorem keyDown (x : Nat) : m.keyDown x = n.keyDown x := by
  rw [Machine.keyDown, Machine.keyDown, h.keys]

theorem isAwaiting : m.isAwaiting = n.isAwaiting := by
  rw [Machine.isAwaiting, Machine.isAwaiting, h.mode]

theorem read {a b : UInt16} (hab : SameCell a b) : m.read a = n.read b := by
  simp only [Machine.read, h.memory, hab.cellOf_eq]

theorem readWord {a b : UInt16} (hab : SameCell a b) : m.readWord a = n.readWord b := by
  rw [Machine.readWord, Machine.readWord, h.read hab, h.read (hab.add 1)]

theorem top : SameCell m.top n.top := by
  rw [top_eq_slot, top_eq_slot, h.sp]
  exact h.stack _

theorem setPc {a b : UInt16} (hab : SameCell a b) :
    Alike { m with pc := a } { n with pc := b } := { h with pc := hab }

theorem setIndex {a b : UInt16} (hab : SameCell a b) :
    Alike { m with index := a } { n with index := b } := { h with index := hab }

theorem setRegisters (registers : Vector UInt8 16) :
    Alike { m with registers := registers } { n with registers := registers } :=
  { h with registers := rfl }

theorem advance : m.advance.Alike n.advance := h.setPc (h.pc.add 2)

theorem skipIf (condition : Bool) : (m.skipIf condition).Alike (n.skipIf condition) :=
  h.setPc (h.pc.add _)

theorem setRegister (x : Nat) (v : UInt8) : (m.setRegister x v).Alike (n.setRegister x v) :=
  { h with registers := congrArg (·.setIfInBounds x v) h.registers }

theorem setFlag (flag : Bool) : (m.setFlag flag).Alike (n.setFlag flag) := h.setRegister _ _

theorem write {a b : UInt16} (hab : SameCell a b) (v : UInt8) :
    (m.write a v).Alike (n.write b v) := by
  refine { h with memory := ?_ }
  simp only [Machine.write, h.memory, hab.cellOf_eq]

theorem push {a b : UInt16} (hab : SameCell a b) : (m.push a).Alike (n.push b) := by
  refine { h with sp := ?_, stack := fun k => ?_ }
  · simp only [Machine.push, h.sp]
  · rw [slot_push, slot_push, h.sp]
    split
    · exact hab
    · exact h.stack k

theorem pop : m.pop.Alike n.pop := { h with sp := by simp only [Machine.pop, h.sp] }

theorem rowCells (x y r : Nat) : m.rowCells x y r = n.rowCells x y r := by
  rw [Machine.rowCells, Machine.rowCells, h.read (h.index.add _)]

theorem spriteCells (x y rows : Nat) : m.spriteCells x y rows = n.spriteCells x y rows := by
  rw [Machine.spriteCells, Machine.spriteCells, funext (h.rowCells x y)]

theorem drawSprite (x y rows : Nat) : (m.drawSprite x y rows).Alike (n.drawSprite x y rows) := by
  simp only [Machine.drawSprite, h.register, h.spriteCells, h.pixels]
  exact { h.setFlag _ with pixels := rfl, drawFlag := rfl }

theorem storeDecimal (x : Nat) : (m.storeDecimal x).Alike (n.storeDecimal x) := by
  simp only [Machine.storeDecimal, h.register]
  exact ((h.write h.index _).write (h.index.add 1) _).write (h.index.add 2) _

theorem saveRegisters (count : Nat) : (m.saveRegisters count).Alike (n.saveRegisters count) := by
  induction count with
  | zero => exact h
  | succ count ih =>
    simp only [Machine.saveRegisters, h.register]
    exact ih.write (h.index.add _) _

theorem loadRegisters (count : Nat) : (m.loadRegisters count).Alike (n.loadRegisters count) := by
  simp only [Machine.loadRegisters, h.register, h.read (h.index.add _)]
  exact h.setRegisters _

theorem execute (random : UInt8) (i : Instruction) :
    (m.execute random i).Alike (n.execute random i) := by
  cases i with
  | clearScreen => exact Alike.advance { h with pixels := rfl }
  | ret => exact (h.pop.setPc h.top).advance
  | jump nnn => exact h.setPc (.refl nnn)
  | call nnn => exact (h.push h.pc).setPc (.refl nnn)
  | skipEqByte x nn => simp only [Machine.execute, h.register]; exact h.skipIf _
  | skipNeByte x nn => simp only [Machine.execute, h.register]; exact h.skipIf _
  | skipEq x y => simp only [Machine.execute, h.register]; exact h.skipIf _
  | skipNe x y => simp only [Machine.execute, h.register]; exact h.skipIf _
  | loadByte x nn => exact (h.setRegister x nn).advance
  | addByte x nn => simp only [Machine.execute, h.register]; exact (h.setRegister x _).advance
  | copy x y => simp only [Machine.execute, h.register]; exact (h.setRegister x _).advance
  | or x y => simp only [Machine.execute, h.register]; exact (h.setRegister x _).advance
  | and x y => simp only [Machine.execute, h.register]; exact (h.setRegister x _).advance
  | xor x y => simp only [Machine.execute, h.register]; exact (h.setRegister x _).advance
  | add x y =>
    simp only [Machine.execute, h.register]
    exact ((h.setRegister x _).setFlag _).advance
  | sub x y =>
    simp only [Machine.execute, h.register]
    exact ((h.setRegister x _).setFlag _).advance
  | subFrom x y =>
    simp only [Machine.execute, h.register]
    exact ((h.setRegister x _).setFlag _).advance
  | shiftRight x =>
    simp only [Machine.execute, h.register]
    exact ((h.setRegister x _).setFlag _).advance
  | shiftLeft x =>
    simp only [Machine.execute, h.register]
    exact ((h.setRegister x _).setFlag _).advance
  | setIndex nnn => exact (h.setIndex (.refl nnn)).advance
  | jumpOffset nnn => simp only [Machine.execute, h.register]; exact h.setPc (.refl _)
  | random x nn => exact (h.setRegister x _).advance
  | draw x y rows => exact (h.drawSprite x y _).advance
  | skipKey x => simp only [Machine.execute, h.keyDown]; exact h.skipIf _
  | skipNoKey x => simp only [Machine.execute, h.keyDown]; exact h.skipIf _
  | readDelay x => simp only [Machine.execute, h.delay]; exact (h.setRegister x _).advance
  | awaitKey x => exact Alike.advance { h with mode := rfl }
  | setDelay x => exact Alike.advance { h with delay := h.register x }
  | setSound x => exact Alike.advance { h with sound := h.register x }
  | addIndex x =>
    simp only [Machine.execute, h.register]
    exact (h.setIndex (h.index.add _)).advance
  | glyph x => simp only [Machine.execute, h.register]; exact (h.setIndex (.refl _)).advance
  | storeDecimal x => exact (h.storeDecimal x).advance
  | saveRegisters x => exact (h.saveRegisters (x + 1)).advance
  | loadRegisters x => exact (h.loadRegisters (x + 1)).advance

theorem obey (i : Instruction) : (m.obey i).Alike (n.obey i) := by
  unfold Machine.obey
  cases i.usesTape with
  | true =>
    simp only [h.tape]
    exact { h.execute n.tape.byte i with tape := rfl }
  | false => exact h.execute 0 i

theorem decay : m.decay.Alike n.decay := by
  simp only [Machine.decay, h.delay, h.sound]
  exact { h with delay := rfl, sound := rfl, beep := rfl }

theorem setOpcode (w : UInt16) : Alike { m with opcode := w } { n with opcode := w } :=
  { h with opcode := rfl }

theorem carryOut (i : Instruction) : (m.carryOut i).Alike (n.carryOut i) := by
  rw [Machine.carryOut, Machine.carryOut, h.readWord h.pc]
  exact ((h.setOpcode _).obey i).decay

theorem setMemory (memory : Memory) :
    Alike { m with memory := memory } { n with memory := memory } := { h with memory := rfl }

theorem setKeys (held : HeldKeys) : (m.setKeys held).Alike (n.setKeys held) :=
  { h with keys := rfl }

theorem clearKeys : m.clearKeys.Alike n.clearKeys := { h with keys := rfl }

theorem setKey (k : Nat) (down : Bool) : (m.setKey k down).Alike (n.setKey k down) :=
  { h with keys := congrArg (·.setIfInBounds k (if down then 1 else 0)) h.keys }

theorem clearDrawFlag : m.clearDrawFlag.Alike n.clearDrawFlag := { h with drawFlag := rfl }

theorem resume (key : UInt8) : (m.resume key).Alike (n.resume key) := by
  unfold Machine.resume
  rw [h.mode]
  cases n.mode with
  | running => exact h
  | awaitingKey x => exact { h.setRegister x _ with mode := rfl }

end Alike

end Machine

structure Fault.Alike (f g : Fault) : Prop where
  opcode : f.opcode = g.opcode
  pc : SameCell f.pc g.pc

structure Batch.Alike (b d : Batch) : Prop where
  machine : b.machine.Alike d.machine
  executed : b.executed = d.executed
  soundCue : b.soundCue = d.soundCue
  fault : Option.Rel Fault.Alike b.fault d.fault

namespace Machine.Alike

variable {m n : Machine} (h : m.Alike n)
include h

theorem cycle : m.cycle.machine.Alike n.cycle.machine ∧
    Option.Rel Fault.Alike m.cycle.fault n.cycle.fault := by
  have hw := h.readWord h.pc
  rcases n.cycle_cases with ⟨x, hx⟩ | ⟨hr, hd⟩ | ⟨hr, i, hd⟩
  · rw [cycle_of_awaiting hx, cycle_of_awaiting (h.mode.trans hx)]
    exact ⟨h, .none⟩
  · have hd' : Instruction.decode? (m.readWord m.pc) = none := by rw [hw, hd]
    rw [cycle_of_unknown hr hd, cycle_of_unknown (h.mode.trans hr) hd', hw]
    exact ⟨h.setOpcode _, .some ⟨rfl, h.pc⟩⟩
  · have hd' : Instruction.decode? (m.readWord m.pc) = some i := by rw [hw, hd]
    rw [cycle_of_decoded hr hd, cycle_of_decoded (h.mode.trans hr) hd']
    exact ⟨h.carryOut i, .none⟩

end Machine.Alike

namespace Batch.Alike

theorem start {m n : Machine} (h : m.Alike n) : (Batch.start m).Alike (Batch.start n) :=
  ⟨h, rfl, rfl, .none⟩

theorem ended {b d : Batch} (h : b.Alike d) : b.ended = d.ended := by
  have hf : b.fault.isSome = d.fault.isSome := by
    have hf := h.fault
    cases hb : b.fault <;> cases hd : d.fault <;> simp_all
  rw [Batch.ended, Batch.ended, h.machine.isAwaiting, hf]

theorem advance {b d : Batch} (h : b.Alike d) : b.advance.Alike d.advance := by
  obtain ⟨hm, hf⟩ := h.machine.cycle
  unfold Batch.advance
  cases hb : b.machine.cycle.fault with
  | none =>
    cases hd : d.machine.cycle.fault with
    | none =>
      have hcue := congrArg₂ (· || ·) h.soundCue hm.beep
      simpa only [hb, hd] using ⟨hm, congrArg (· + 1) h.executed, hcue, h.fault⟩
    | some g => simp [hb, hd] at hf
  | some f =>
    cases hd : d.machine.cycle.fault with
    | none => simp [hb, hd] at hf
    | some g =>
      rw [hb, hd] at hf
      simpa only [hb, hd] using ⟨hm, h.executed, h.soundCue, hf⟩

theorem run {m n : Machine} (h : m.Alike n) (k : Nat) : (m.run k).Alike (n.run k) := by
  obtain ⟨_, hk⟩ := Batch.extend_related (R := fun _ => Batch.Alike)
    (fun _ _ _ h => h.ended.symm) (fun _ _ _ h _ => h.advance) (n := k) (start h)
  exact hk

end Batch.Alike

inductive Answer.Alike : Answer → Answer → Prop where
  | same (a : Answer) : Alike a a
  | fault {f g : Fault} (h : f.Alike g) : Alike (.fault f) (.fault g)

structure Console.Alike (c d : Console) : Prop where
  machine : c.machine.Alike d.machine
  held : c.held = d.held
  screen : c.screen = d.screen

structure Reply.Alike (r q : Reply) : Prop where
  console : r.console.Alike q.console
  answer : r.answer.Alike q.answer

theorem Batch.Alike.answer {b d : Batch} (h : b.Alike d) : b.answer.Alike d.answer := by
  have hf := h.fault
  rw [Batch.answer, Batch.answer, h.executed, h.soundCue]
  generalize b.fault = f at hf
  generalize d.fault = g at hf
  cases hf with
  | none => exact .same _
  | some hfg => exact .fault hfg

namespace Console.Alike

variable {c d : Console} (h : c.Alike d)
include h

theorem setMachine {m n : Machine} (hm : m.Alike n) :
    Alike { c with machine := m } { d with machine := n } := ⟨hm, h.held, h.screen⟩

theorem nextFrame : c.nextFrame.1.Alike d.nextFrame.1 ∧ c.nextFrame.2 = d.nextFrame.2 := by
  simp only [Console.nextFrame, display, h.machine.drawFlag, h.machine.pixels, h.screen]
  split
  · exact ⟨⟨h.machine.clearDrawFlag, h.held, rfl⟩, rfl⟩
  · exact ⟨⟨h.machine.clearDrawFlag, h.held, rfl⟩, rfl⟩

theorem perform (a : Action) : (c.perform a).Alike (d.perform a) := by
  have hm := h.machine
  cases a with
  | load program =>
    by_cases hp : programCapacity < program.length
    · rw [perform_load_of_lt hp, perform_load_of_lt hp]
      exact ⟨h, .same _⟩
    · rw [perform_load_of_not_lt hp, perform_load_of_not_lt hp, hm.memory]
      exact ⟨h.setMachine (hm.setMemory _), .same _⟩
  | step =>
    obtain ⟨hc, hf⟩ := hm.cycle
    refine ⟨h.setMachine hc, ?_⟩
    simp only [Console.perform]
    generalize c.machine.cycle.fault = f at hf
    generalize d.machine.cycle.fault = g at hf
    cases hf with
    | none => exact .same _
    | some hfg => exact .fault hfg
  | run cycles =>
    have hb := Batch.Alike.run hm cycles
    exact ⟨h.setMachine hb.machine, hb.answer⟩
  | resume key =>
    refine ⟨h.setMachine (hm.resume key), ?_⟩
    simp only [Console.perform, hm.isAwaiting]
    exact .same _
  | setKey key down => exact ⟨h.setMachine (hm.setKey key down), .same _⟩
  | clearKeys => exact ⟨h.setMachine hm.clearKeys, .same _⟩
  | press key =>
    cases hk : key.padIndex? with
    | none =>
      simp only [Console.perform, hk]
      exact ⟨h, .same _⟩
    | some k =>
      simp only [Console.perform, hk, pressKey, h.held]
      exact ⟨⟨(hm.setKey k true).resume _, rfl, h.screen⟩, .same _⟩
  | tick =>
    simp only [Console.perform, Console.tick, h.held]
    exact ⟨⟨hm.setKeys _, rfl, h.screen⟩, .same _⟩
  | takeDrawFlag =>
    refine ⟨h.setMachine hm.clearDrawFlag, ?_⟩
    simp only [Console.perform, hm.drawFlag]
    exact .same _
  | nextFrame =>
    refine ⟨h.nextFrame.1, ?_⟩
    simp only [Console.perform, h.nextFrame.2]
    exact .same _
  | changes pixels =>
    refine ⟨⟨hm, h.held, rfl⟩, ?_⟩
    simp only [Console.perform, display, h.screen]
    exact .same _
  | present =>
    refine ⟨h.nextFrame.1, ?_⟩
    simp only [Console.perform, h.nextFrame.2]
    exact .same _

/-- Addresses are used in their lower twelve bits only, so consoles that differ in the upper bits give
the same answers to every list of actions, and are alike after each of them. -/
theorem replies_alike (as : List Action) :
    List.Forall₂ Reply.Alike (c.replies as) (d.replies as) := by
  induction as generalizing c d with
  | nil => exact .nil
  | cons a as ih => exact .cons (h.perform a) (ih (h.perform a).console)

end Console.Alike

theorem SameCell.moved (a : UInt16) : SameCell a (a + 4096) := by
  simp only [SameCell, UInt16.toNat_add, UInt16.reduceToNat]
  omega

theorem Machine.alike_moved (m : Machine) :
    m.Alike { m with pc := m.pc + 4096, index := m.index + 4096 } where
  memory := rfl
  registers := rfl
  index := .moved m.index
  pc := .moved m.pc
  sp := rfl
  stack k := by rw [slot, slot]; exact .refl _
  pixels := rfl
  keys := rfl
  delay := rfl
  sound := rfl
  opcode := rfl
  drawFlag := rfl
  beep := rfl
  mode := rfl
  tape := rfl

theorem Console.replies_alike_moved :
    let c := Console.fresh (.ofSeed 7) 6
    let d : Console :=
      { c with machine :=
          { c.machine with pc := c.machine.pc + 4096, index := c.machine.index + 4096 } }
    let as : List Action :=
      [.load [0x22, 0x04, 0x00, 0x00, 0xF2, 0x55, 0x00, 0xEE], .run 9, .present]
    c.Alike d ∧ List.Forall₂ Reply.Alike (c.replies as) (d.replies as) := by
  intro c d as
  have h : c.Alike d := ⟨c.machine.alike_moved, rfl, rfl⟩
  exact ⟨h, h.replies_alike as⟩

end Chip8
