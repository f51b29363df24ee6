import Chip8.Proofs.KeyWait
import Chip8.Proofs.Trail

/-!
# Faults

A running machine faults if and only if the two bytes that its program counter points to stand for no
instruction, where the first byte of memory follows the last. The fault changes nothing but the opcode,
and it is there to stay: whatever is done to the machine short of loading another program, every further
cycle meets the same word at the same place. A running machine that does not fault executes the
instruction that the word stands for, and no other.
-/

set_option autoImplicit false

namespace Chip8

/-- The last cell is followed by the first. -/
def Memory.wordAt (memory : Memory) (c : Fin 4096) : UInt16 :=
  Word.ofBytes (memory.get c) (memory.get (c + 1))

theorem cellOf_succ (a : UInt16) : cellOf (a + 1) = cellOf a + 1 := by
  apply Fin.ext
  simp [cellOf, Fin.val_add]

def Action.isLoad : Action → Bool
  | .load _ => true
  | _ => false

namespace Machine

theorem read_eq_get (m : Machine) (a : UInt16) : m.read a = m.memory.get (cellOf a) := rfl

theorem readWord_eq_wordAt (m : Machine) (a : UInt16) :
    m.readWord a = m.memory.wordAt (cellOf a) := by
  rw [readWord, read_eq_get, read_eq_get, cellOf_succ, Memory.wordAt]

theorem get_fresh (tape : Tape) (c : Fin 4096) :
    (fresh tape).memory.get c = font[c.val]?.getD 0 :=
  Vector.getElem_ofFn c.isLt

/-- A machine that has faulted: its opcode is the word that it meets again. -/
structure Stuck (m : Machine) : Prop where
  running : m.mode = .running
  unknown : Instruction.decode? (m.readWord m.pc) = none
  opcode_eq : m.opcode = m.readWord m.pc

def fault (m : Machine) : Fault := ⟨m.opcode, m.pc⟩

theorem stuck_of_unknown {m : Machine} (hr : m.mode = .running)
    (hd : Instruction.decode? (m.readWord m.pc) = none) :
    Stuck { m with opcode := m.readWord m.pc } :=
  ⟨hr, hd, rfl⟩

namespace Stuck

variable {m : Machine} (h : m.Stuck)

include h

theorem with_keys (keys : Vector UInt8 16) (flag : Bool) :
    Stuck { m with keys := keys, drawFlag := flag } :=
  ⟨h.running, h.unknown, h.opcode_eq⟩

theorem cycle_eq : m.cycle = ⟨m, [.faulted m.fault], some m.fault⟩ := by
  rw [cycle_of_unknown h.running h.unknown, ← h.opcode_eq, fault]

theorem run_eq (n : Nat) :
    m.run (n + 1) = ⟨m, #[.faulted m.fault], 0, false, some m.fault⟩ := by
  have hi : m.upcoming? = none := (upcoming?_of_running h.running).trans h.unknown
  rw [run_of_no_upcoming hi, h.cycle_eq]

end Stuck

end Machine

namespace Console

section Stuck

variable {c : Console} (h : c.machine.Stuck)

include h

theorem perform_step_of_stuck :
    c.perform .step = ⟨c, .fault c.machine.fault, [.faulted c.machine.fault]⟩ := by
  simp only [perform, h.cycle_eq]

theorem perform_run_of_stuck (n : Nat) :
    c.perform (.run (n + 1)) = ⟨c, .fault c.machine.fault, [.faulted c.machine.fault]⟩ := by
  simp only [perform, h.run_eq]
  rfl

theorem perform_stuck {a : Action} (ha : a.isLoad = false) :
    (c.perform a).console.machine = { c.machine with
      keys := (c.perform a).console.machine.keys
      drawFlag := (c.perform a).console.machine.drawFlag } := by
  cases a with
  | load program => cases ha
  | step => rw [perform_step_of_stuck h]
  | run n =>
    cases n with
    | zero => rfl
    | succ n => rw [perform_run_of_stuck h]
  | resume key => rw [perform_resume_of_running h.running]
  | press key =>
    cases hk : key.padIndex? with
    | none => rw [perform_press_none hk]
    | some k =>
      rw [perform_press_of_running h.running hk]
      rfl
  | nextFrame | present =>
    rw [perform_machine]
    rfl
  | _ => rfl

theorem after_stuck {as : List Action} (has : ∀ a ∈ as, a.isLoad = false) :
    let d := c.after as
    d.machine = { c.machine with
      keys := d.machine.keys
      drawFlag := d.machine.drawFlag } ∧
    d.perform .step = ⟨d, .fault c.machine.fault, [.faulted c.machine.fault]⟩ ∧
    ∀ n, d.perform (.run (n + 1)) = ⟨d, .fault c.machine.fault, [.faulted c.machine.fault]⟩ := by
  intro d
  have hkept : d.machine = { c.machine with
      keys := d.machine.keys
      drawFlag := d.machine.drawFlag } :=
    after_keeps (Q := Machine.Stuck) (fun _ keys flag hm => hm.with_keys keys flag)
      (fun _ _ ha hm => perform_stuck hm ha) h has
  have hstuck : d.machine.Stuck := (congrArg Machine.Stuck hkept).mpr (h.with_keys _ _)
  have hfault : d.machine.fault = c.machine.fault :=
    (congrArg Machine.fault hkept).trans rfl
  rw [← hfault]
  exact ⟨hkept, perform_step_of_stuck hstuck, perform_run_of_stuck hstuck⟩

end Stuck

theorem perform_step_of_unknown {c : Console} (hr : c.machine.mode = .running)
    (hd : Instruction.decode? (c.machine.readWord c.machine.pc) = none) :
    c.perform .step =
      ⟨{ c with machine := { c.machine with opcode := c.machine.readWord c.machine.pc } },
        .fault ⟨c.machine.readWord c.machine.pc, c.machine.pc⟩,
        [.faulted ⟨c.machine.readWord c.machine.pc, c.machine.pc⟩]⟩ := by
  simp only [perform, Machine.cycle_of_unknown hr hd]

/-- A fault is there to stay: short of loading a program nothing changes the word at the program
counter, so every step and every batch of at least one cycle is answered with it again. -/
theorem fault_of_unknown_word (c : Console) (hmode : c.machine.mode = .running) :
    let m := c.machine
    let w := m.memory.wordAt (cellOf m.pc)
    let next := c.perform .step
    ((∃ f, next.answer = .fault f) ↔ Instruction.decode? w = none) ∧
    (Instruction.decode? w = none →
      next = ⟨{ c with machine := { m with opcode := w } }, .fault ⟨w, m.pc⟩,
        [.faulted ⟨w, m.pc⟩]⟩ ∧
      ∀ as, (∀ a ∈ as, a.isLoad = false) →
        let d := next.console.after as
        d.machine = { next.console.machine with
          keys := d.machine.keys
          drawFlag := d.machine.drawFlag } ∧
        d.perform .step = ⟨d, .fault ⟨w, m.pc⟩, [.faulted ⟨w, m.pc⟩]⟩ ∧
        ∀ n, d.perform (.run (n + 1)) = ⟨d, .fault ⟨w, m.pc⟩, [.faulted ⟨w, m.pc⟩]⟩) ∧
    (next.answer = .done → ∃ i, Instruction.decode? w = some i ∧
      next.console = { c with machine := (Machine.obey { m with opcode := w } i).decay } ∧
      next.console.machine.opcode = w ∧
      next.events.filterMap Event.execution? = [(m.pc, w, i)]) := by
  intro m w next
  have hw : m.readWord m.pc = w := m.readWord_eq_wordAt m.pc
  cases hd : Instruction.decode? w with
  | none =>
    have hunknown : Instruction.decode? (m.readWord m.pc) = none := by rw [hw, hd]
    have hnext : next = ⟨{ c with machine := { m with opcode := w } }, .fault ⟨w, m.pc⟩,
        [.faulted ⟨w, m.pc⟩]⟩ := by
      rw [← hw]
      exact perform_step_of_unknown hmode hunknown
    have hstuck : Machine.Stuck { m with opcode := w } := by
      rw [← hw]
      exact Machine.stuck_of_unknown hmode hunknown
    rw [hnext]
    exact ⟨⟨fun _ => rfl, fun _ => ⟨_, rfl⟩⟩, fun _ => ⟨rfl, fun as has => after_stuck hstuck has⟩,
      fun h => by cases h⟩
  | some i =>
    have hi : m.upcoming? = some i := by rw [Machine.upcoming?_of_running hmode, hw, hd]
    have hnext : next = ⟨{ c with machine := m.carryOut i }, .done, m.carryOutEvents i⟩ :=
      perform_step_of_upcoming hi
    have hevents := m.filterMap_cycle_events
    rw [Machine.cycle_of_upcoming hi, Machine.execution?, hi, hw] at hevents
    have hmachine : m.carryOut i = (Machine.obey { m with opcode := w } i).decay := by
      rw [Machine.carryOut, hw]
    have hopcode : (m.carryOut i).opcode = w := (m.carryOut_opcode i).trans hw
    rw [hnext]
    refine ⟨⟨?_, ?_⟩, ?_, fun _ => ⟨i, rfl, by rw [hmachine], hopcode, hevents⟩⟩
    · rintro ⟨f, hf⟩
      cases hf
    · intro h
      cases h
    · intro h
      cases h

def straddling (tape : Tape) : Console :=
  ⟨{ Machine.fresh tape with pc := 0xFFF }, .ofHold 6, .blank⟩

theorem wordAt_straddling (tape : Tape) :
    (straddling tape).machine.memory.wordAt (cellOf (straddling tape).machine.pc) = 0x00F0 := by
  have hlast : (Machine.fresh tape).memory.get 4095 = 0 := Machine.get_fresh tape 4095
  have hfirst : (Machine.fresh tape).memory.get (4095 + 1) = 0xF0 :=
    Machine.get_fresh tape (4095 + 1)
  have hw : (Machine.fresh tape).memory.wordAt 4095 = 0x00F0 := by
    rw [Memory.wordAt, hlast, hfirst]
    decide
  exact hw

/-- The lower half of a word in the last byte of memory comes from the first one, where the sprite of
the digit 0 begins. -/
theorem fault_of_straddling_word :
    let c := straddling (.ofSeed 1)
    let as := [.press (.char '5'), .run 3, .tick, .resume 7, .present]
    let d := (c.perform .step).console.after as
    let f : Fault := ⟨0x00F0, 0xFFF⟩
    c.machine.mode = .running ∧ (c.perform .step).answer = .fault f ∧
      (∀ a ∈ as, a.isLoad = false) ∧ d.perform (.run 2) = ⟨d, .fault f, [.faulted f]⟩ := by
  intro c as d f
  have hw := wordAt_straddling (.ofSeed 1)
  have hd : Instruction.decode? (c.machine.memory.wordAt (cellOf c.machine.pc)) = none := by
    rw [hw]
    decide
  have has : ∀ a ∈ as, a.isLoad = false := by decide
  obtain ⟨hnext, hstays⟩ := (fault_of_unknown_word c rfl).2.1 hd
  obtain ⟨-, -, hrun⟩ := hstays as has
  rw [hw] at hnext hrun
  exact ⟨rfl, congrArg Reply.answer hnext, has, hrun 1⟩

end Console

end Chip8
