import Chip8.Machine.Cycle
import Chip8.Proofs.Effect

/-!
# The three outcomes of a cycle

A cycle leaves a waiting machine alone, faults on a word that stands for no instruction, or executes
one instruction. Each outcome has its equation here, and an invariant of cycles is shown once for a
fault and once for an executed instruction. A fault is met again in the next cycle.
-/

set_option autoImplicit false

namespace Chip8

namespace Machine

def carryOut (m : Machine) (i : Instruction) : Machine :=
  (obey { m with opcode := m.readWord m.pc } i).decay

def carryOutEvents (m : Machine) (i : Instruction) : List Event :=
  .executing m.pc (m.readWord m.pc) i :: (notices i ++ (m.carryOut i).cue m.pc)

theorem isAwaiting_iff (m : Machine) : m.isAwaiting = true ↔ ∃ x, m.mode = .awaitingKey x := by
  cases h : m.mode <;> simp [isAwaiting, h]

theorem isAwaiting_of_running {m : Machine} (h : m.mode = .running) : m.isAwaiting = false := by
  rw [isAwaiting, h]
  rfl

theorem cycle_of_awaiting {m : Machine} {x : Nat} (h : m.mode = .awaitingKey x) :
    m.cycle = ⟨m, [], none⟩ := by
  simp only [cycle, h]

theorem cycle_of_unknown {m : Machine} (h : m.mode = .running)
    (hd : Instruction.decode? (m.readWord m.pc) = none) :
    m.cycle = ⟨{ m with opcode := m.readWord m.pc }, [.faulted ⟨m.readWord m.pc, m.pc⟩],
      some ⟨m.readWord m.pc, m.pc⟩⟩ := by
  simp only [cycle, h, hd]

theorem cycle_of_decoded {m : Machine} {i : Instruction} (h : m.mode = .running)
    (hd : Instruction.decode? (m.readWord m.pc) = some i) :
    m.cycle = ⟨m.carryOut i, m.carryOutEvents i, none⟩ := by
  simp only [cycle, carryOut, carryOutEvents, h, hd]

theorem cycle_cases (m : Machine) :
    (∃ x, m.mode = .awaitingKey x) ∨
    (m.mode = .running ∧ Instruction.decode? (m.readWord m.pc) = none) ∨
    (m.mode = .running ∧ ∃ i, Instruction.decode? (m.readWord m.pc) = some i) := by
  cases h : m.mode with
  | awaitingKey x => exact .inl ⟨x, rfl⟩
  | running =>
    cases hd : Instruction.decode? (m.readWord m.pc) with
    | none => exact .inr (.inl ⟨rfl, rfl⟩)
    | some i => exact .inr (.inr ⟨rfl, i, rfl⟩)

theorem executing_mem_events {m : Machine} {pc w : UInt16} {i : Instruction} :
    .executing pc w i ∈ m.cycle.events ↔
      m.mode = .running ∧ pc = m.pc ∧ w = m.readWord m.pc ∧ Instruction.decode? w = some i := by
  rcases m.cycle_cases with ⟨x, hx⟩ | ⟨hr, hd⟩ | ⟨hr, j, hd⟩
  · simp [cycle_of_awaiting hx, hx]
  · rw [cycle_of_unknown hr hd]
    constructor
    · simp
    · rintro ⟨-, -, rfl, hi⟩
      simp [hd] at hi
  · have hn : Event.executing pc w i ∉ notices j ++ (m.carryOut j).cue m.pc := by
      unfold notices cue
      split <;> split <;> simp
    rw [cycle_of_decoded hr hd, carryOutEvents, List.mem_cons, or_iff_left hn]
    constructor
    · rintro ⟨⟩
      exact ⟨hr, rfl, rfl, hd⟩
    · rintro ⟨-, rfl, rfl, hi⟩
      rw [Option.some.inj (hd.symm.trans hi)]

theorem cycle_of_isAwaiting {m : Machine} (h : m.isAwaiting = true) : m.cycle = ⟨m, [], none⟩ := by
  obtain ⟨x, hx⟩ := m.isAwaiting_iff.mp h
  exact cycle_of_awaiting hx

/-- The machine that a fault leaves faults in the same way and is left as it is. -/
theorem cycle_of_fault {m : Machine} {f : Fault} (h : m.cycle.fault = some f) :
    m.cycle.machine.cycle.machine = m.cycle.machine ∧
      m.cycle.machine.cycle.fault = some f := by
  rcases m.cycle_cases with ⟨x, hx⟩ | ⟨hr, hd⟩ | ⟨hr, i, hd⟩
  · simp [cycle_of_awaiting hx] at h
  · rw [cycle_of_unknown hr hd] at h ⊢
    -- the fetched word does not depend on the opcode that the fault has left
    have hn := cycle_of_unknown (m := { m with opcode := m.readWord m.pc }) hr hd
    rw [hn]
    exact ⟨rfl, h⟩
  · simp [cycle_of_decoded hr hd] at h

/-- A part of the machine other than the tape is left as the instruction leaves it, for some random
byte. -/
theorem obey_part {α : Type} (part : Machine → α) (taken : ∀ m t, part { m with tape := t } = part m)
    (m : Machine) (i : Instruction) : ∃ random, part (obey m i) = part (m.execute random i) := by
  unfold obey
  cases i.usesTape with
  | true => exact ⟨_, taken _ _⟩
  | false => exact ⟨0, rfl⟩

theorem carryOut_part {α : Type} (part : Machine → α) (decayed : ∀ m, part m.decay = part m)
    (taken : ∀ m t, part { m with tape := t } = part m) (m : Machine) (i : Instruction) :
    ∃ random, part (m.carryOut i) =
      part ({ m with opcode := m.readWord m.pc }.execute random i) := by
  obtain ⟨random, h⟩ := obey_part part taken { m with opcode := m.readWord m.pc } i
  exact ⟨random, (decayed _).trans h⟩

theorem carryOut_sp (m : Machine) (i : Instruction) :
    (m.carryOut i).sp =
      match i with
      | .call _ => (m.sp + 1) % 16
      | .ret => (m.sp + 15) % 16
      | _ => m.sp := by
  obtain ⟨random, h⟩ := carryOut_part Machine.sp (fun _ => rfl) (fun _ _ => rfl) m i
  exact h.trans (execute_sp random i _)

theorem carryOut_stack (m : Machine) (i : Instruction) :
    (m.carryOut i).stack =
      match i with
      | .call _ => m.stack.setIfInBounds m.sp m.pc
      | _ => m.stack := by
  obtain ⟨random, h⟩ := carryOut_part Machine.stack (fun _ => rfl) (fun _ _ => rfl) m i
  exact h.trans (execute_stack random i _)

theorem carryOut_mode (m : Machine) (i : Instruction) :
    (m.carryOut i).mode =
      match i with
      | .awaitKey x => .awaitingKey x
      | _ => m.mode := by
  obtain ⟨random, h⟩ := carryOut_part Machine.mode (fun _ => rfl) (fun _ _ => rfl) m i
  exact h.trans (execute_mode random i _)

theorem carryOut_pixels_eq (m : Machine) (i : Instruction) :
    (m.carryOut i).pixels =
      match i with
      | .clearScreen => Vector.replicate 2048 0
      | .draw x y n =>
        (m.pixels.flipAll false
          (m.spriteCells (m.register x).toNat (m.register y).toNat n.toNat)).1
      | _ => m.pixels := by
  obtain ⟨random, h⟩ := carryOut_part Machine.pixels (fun _ => rfl) (fun _ _ => rfl) m i
  exact h.trans (execute_pixels random i _)

theorem carryOut_pixels (m : Machine) (i : Instruction) :
    (m.carryOut i).pixels = Vector.replicate 2048 0 ∨
      ∃ cells, (m.carryOut i).pixels = (m.pixels.flipAll false cells).1 := by
  rw [carryOut_pixels_eq]
  cases i with
  | clearScreen => exact .inl rfl
  | draw x y n => exact .inr ⟨_, rfl⟩
  | _ => exact .inr ⟨[], rfl⟩

theorem carryOut_drawFlag (m : Machine) (i : Instruction) :
    (m.carryOut i).drawFlag =
      match i with
      | .draw _ _ _ => true
      | _ => m.drawFlag := by
  obtain ⟨random, h⟩ := carryOut_part Machine.drawFlag (fun _ => rfl) (fun _ _ => rfl) m i
  exact h.trans (execute_drawFlag random i _)

theorem carryOut_keys (m : Machine) (i : Instruction) : (m.carryOut i).keys = m.keys := by
  obtain ⟨random, h⟩ := carryOut_part Machine.keys (fun _ => rfl) (fun _ _ => rfl) m i
  exact h.trans (execute_keys random i _)

theorem carryOut_opcode (m : Machine) (i : Instruction) :
    (m.carryOut i).opcode = m.readWord m.pc := by
  obtain ⟨random, h⟩ := carryOut_part Machine.opcode (fun _ => rfl) (fun _ _ => rfl) m i
  exact h.trans (execute_opcode random i _)

theorem cycle_invariant {P : Machine → Prop}
    (fault : ∀ m, m.mode = .running → P m → P { m with opcode := m.readWord m.pc })
    (carried : ∀ m i, m.mode = .running → Instruction.decode? (m.readWord m.pc) = some i →
      P m → P (m.carryOut i))
    {m : Machine} (h : P m) : P m.cycle.machine := by
  rcases m.cycle_cases with ⟨x, hx⟩ | ⟨hr, hd⟩ | ⟨hr, i, hd⟩
  · rw [cycle_of_awaiting hx]
    exact h
  · rw [cycle_of_unknown hr hd]
    exact fault m hr h
  · rw [cycle_of_decoded hr hd]
    exact carried m i hr hd h

end Machine

namespace Batch

@[simp] theorem advance_machine (b : Batch) : b.advance.machine = b.machine.cycle.machine := by
  unfold advance
  cases h : b.machine.cycle.fault <;> simp only [h]

@[simp] theorem advance_events (b : Batch) :
    b.advance.events = b.events ++ b.machine.cycle.events := by
  unfold advance
  cases h : b.machine.cycle.fault <;> simp only [h]

theorem extend_invariant {P : Batch → Prop} (step : ∀ b, P b → P b.advance) {b : Batch}
    (h : P b) (n : Nat) : P (extend n b) := by
  induction n generalizing b with
  | zero => exact h
  | succ n ih =>
    rw [extend]
    split
    · exact h
    · exact ih (step b h)

/-- `n` counts the cycles that are left to two batches, so a relation may say what they still have to
come to; a relation that does not need this ignores it. -/
theorem extend_related {R : Nat → Batch → Batch → Prop}
    (ended : ∀ n b d, R n b d → d.ended = b.ended)
    (step : ∀ n b d, R (n + 1) b d → b.ended = false → R n b.advance d.advance)
    {b d : Batch} {n : Nat} (h : R n b d) : ∃ k, R k (extend n b) (extend n d) := by
  induction n generalizing b d with
  | zero => exact ⟨0, h⟩
  | succ n ih =>
    rw [extend, extend, ended _ b d h]
    cases hb : b.ended with
    | true => exact ⟨n + 1, h⟩
    | false => exact ih (step n b d h hb)

end Batch

namespace Machine

theorem run_invariant {P : Machine → Prop} (step : ∀ m, P m → P m.cycle.machine)
    {m : Machine} (h : P m) (n : Nat) : P (m.run n).machine := by
  refine Batch.extend_invariant (P := fun b => P b.machine) (fun b hb => ?_) h n
  rw [Batch.advance_machine]
  exact step b.machine hb

theorem run_reported_invariant {P : List Event → Machine → Prop}
    (step : ∀ es m, P es m → P (es ++ m.cycle.events) m.cycle.machine)
    (es : List Event) {m : Machine} (h : P es m) (n : Nat) :
    P (es ++ (m.run n).events.toList) (m.run n).machine := by
  refine Batch.extend_invariant (P := fun b => P (es ++ b.events.toList) b.machine)
    (fun b hb => ?_) (by simpa [Batch.start] using h) n
  rw [Batch.advance_machine, Batch.advance_events]
  simpa [List.append_assoc] using step _ _ hb

end Machine

end Chip8
