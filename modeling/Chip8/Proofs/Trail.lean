import Chip8.Proofs.Batch
import Chip8.Proofs.History

/-!
# Trails

The trail of a history lists the machines that its cycles start from, those of single steps and those
of batches alike, so that a statement about each cycle of a history is one about the members of its
trail. A batch that ends early has as many members as it was asked for cycles; what would come after
its end executes nothing. The instructions that a history reports are those of its trail, in order.
-/

set_option autoImplicit false

namespace Chip8

namespace Machine

/-- The instruction that the next cycle executes. There is none if it faults or the machine waits. -/
def upcoming? (m : Machine) : Option Instruction :=
  match m.mode with
  | .running => Instruction.decode? (m.readWord m.pc)
  | .awaitingKey _ => none

def executes (m : Machine) : Bool := m.upcoming?.isSome

theorem upcoming?_of_running {m : Machine} (h : m.mode = .running) :
    m.upcoming? = Instruction.decode? (m.readWord m.pc) := by
  simp only [upcoming?, h]

theorem upcoming?_of_isAwaiting {m : Machine} (h : m.isAwaiting = true) : m.upcoming? = none := by
  obtain ⟨x, hx⟩ := m.isAwaiting_iff.mp h
  simp only [upcoming?, hx]

theorem upcoming?_eq_some_iff {m : Machine} {i : Instruction} :
    m.upcoming? = some i ↔
      m.mode = .running ∧ Instruction.decode? (m.readWord m.pc) = some i := by
  cases h : m.mode <;> simp [upcoming?, h]

theorem cycle_of_upcoming {m : Machine} {i : Instruction} (h : m.upcoming? = some i) :
    m.cycle = ⟨m.carryOut i, m.carryOutEvents i, none⟩ := by
  obtain ⟨hr, hd⟩ := upcoming?_eq_some_iff.mp h
  exact cycle_of_decoded hr hd

theorem cycle_of_no_upcoming {m : Machine} (h : m.upcoming? = none) :
    m.cycle.machine = { m with opcode := m.cycle.machine.opcode } := by
  rcases m.cycle_cases with ⟨x, hx⟩ | ⟨hr, hd⟩ | ⟨hr, i, hd⟩
  · rw [cycle_of_awaiting hx]
  · rw [cycle_of_unknown hr hd]
  · rw [upcoming?_of_running hr, hd] at h
    cases h

theorem upcoming?_cycle {m : Machine} (h : m.upcoming? = none) :
    m.cycle.machine.upcoming? = none := by
  rw [cycle_of_no_upcoming h]
  exact h

theorem run_of_no_upcoming {m : Machine} (h : m.upcoming? = none) (n : Nat) :
    m.run (n + 1) = ⟨m.cycle.machine, m.cycle.events.toArray, 0, false, m.cycle.fault⟩ := by
  rcases m.cycle_cases with ⟨x, hx⟩ | ⟨hr, hd⟩ | ⟨hr, i, hd⟩
  · rw [run_of_isAwaiting (m.isAwaiting_iff.mpr ⟨x, hx⟩), cycle_of_awaiting hx]
    rfl
  · have hf : (Batch.start m).advance =
        ⟨m.cycle.machine, m.cycle.events.toArray, 0, false, m.cycle.fault⟩ := by
      simp [Batch.advance, Batch.start, cycle_of_unknown hr hd]
    rw [run_succ (isAwaiting_of_running hr), hf, cycle_of_unknown hr hd, Batch.followedBy_of_fault rfl]
  · rw [upcoming?_of_running hr, hd] at h
    cases h

theorem run_of_upcoming {m : Machine} {i : Instruction} (h : m.upcoming? = some i) (n : Nat) :
    m.run (n + 1) = Batch.followedBy
      ⟨m.carryOut i, (m.carryOutEvents i).toArray, 1, (m.carryOut i).beep, none⟩
      ((m.carryOut i).run n) := by
  rw [run_succ (isAwaiting_of_running (upcoming?_eq_some_iff.mp h).1), cycle_of_upcoming h]
  simp [Batch.advance, Batch.start, cycle_of_upcoming h]

def trail : Nat → Machine → List Machine
  | 0, _ => []
  | n + 1, m => m :: trail n m.cycle.machine

theorem trail_invariant {P : List Machine → Machine → Prop}
    (step : ∀ ms m, P ms m → P (ms ++ [m]) m.cycle.machine)
    (ms : List Machine) {m : Machine} (h : P ms m) (n : Nat) :
    P (ms ++ m.trail n) (m.cycles n) := by
  induction n generalizing ms m with
  | zero =>
    rw [trail, List.append_nil]
    exact h
  | succ n ih =>
    rw [trail, cycles_succ, List.append_cons]
    exact ih _ (step ms m h)

theorem upcoming?_of_mem_trail {m k : Machine} (h : m.upcoming? = none) {n : Nat}
    (hk : k ∈ m.trail n) : k.upcoming? = none := by
  induction n generalizing m with
  | zero => cases hk
  | succ n ih =>
    rw [trail, List.mem_cons] at hk
    rcases hk with rfl | hk
    · exact h
    · exact ih (upcoming?_cycle h) hk

theorem length_trail (m : Machine) (n : Nat) : (m.trail n).length = n := by
  induction n generalizing m with
  | zero => rfl
  | succ n ih => rw [trail, List.length_cons, ih]

theorem filter_executes_trail (m : Machine) (n : Nat) :
    (m.trail n).filter executes = m.trail (m.run n).executed := by
  induction n generalizing m with
  | zero => rfl
  | succ n ih =>
    cases h : m.upcoming? with
    | none =>
      rw [run_of_no_upcoming h, List.filter_eq_nil_iff.mpr]
      · rfl
      · intro k hk
        rw [executes, upcoming?_of_mem_trail h hk]
        exact Bool.false_ne_true
    | some i =>
      have hm : m.executes = true := by rw [executes, h, Option.isSome_some]
      have hcount : (m.run (n + 1)).executed = ((m.carryOut i).run n).executed + 1 := by
        rw [run_of_upcoming h]
        exact Nat.add_comm _ _
      rw [hcount, trail, trail, List.filter_cons_of_pos hm, ih, cycle_of_upcoming h]

def execution? (m : Machine) : Option (UInt16 × UInt16 × Instruction) :=
  m.upcoming?.map fun i => (m.pc, m.readWord m.pc, i)

theorem execution?_of_no_upcoming {m : Machine} (h : m.upcoming? = none) :
    m.execution? = none := by
  rw [execution?, h, Option.map_none]

end Machine

def Event.execution? : Event → Option (UInt16 × UInt16 × Instruction)
  | executing pc word i => some (pc, word, i)
  | _ => none

namespace Machine

theorem filterMap_cycle_events (m : Machine) :
    m.cycle.events.filterMap Event.execution? = m.execution?.toList := by
  rcases m.cycle_cases with ⟨x, hx⟩ | ⟨hr, hd⟩ | ⟨hr, i, hd⟩
  · rw [cycle_of_awaiting hx, execution?, upcoming?, hx]
    rfl
  · rw [cycle_of_unknown hr hd, execution?, upcoming?_of_running hr, hd]
    rfl
  · have hn : (notices i ++ (m.carryOut i).cue m.pc).filterMap Event.execution? = [] := by
      unfold notices cue
      split <;> split <;> rfl
    rw [cycle_of_decoded hr hd, execution?, upcoming?_of_running hr, hd, carryOutEvents,
      List.filterMap_cons, hn]
    rfl

theorem filterMap_run_events (m : Machine) (n : Nat) :
    (m.run n).events.toList.filterMap Event.execution? = (m.trail n).filterMap execution? := by
  induction n generalizing m with
  | zero => rfl
  | succ n ih =>
    cases h : m.upcoming? with
    | none =>
      have htrail : (m.trail (n + 1)).filterMap execution? = [] := by
        rw [List.filterMap_eq_nil_iff]
        exact fun k hk => execution?_of_no_upcoming (upcoming?_of_mem_trail h hk)
      rw [run_of_no_upcoming h, htrail, filterMap_cycle_events, execution?_of_no_upcoming h]
      rfl
    | some i =>
      have hfirst := m.filterMap_cycle_events
      rw [cycle_of_upcoming h, execution?, h] at hfirst
      rw [run_of_upcoming h, trail, cycle_of_upcoming h, List.filterMap_cons, execution?, h]
      simp only [Batch.followedBy, Array.toList_append, List.filterMap_append, hfirst, ih]
      rfl

end Machine

namespace Console

theorem perform_step_of_upcoming {c : Console} {i : Instruction}
    (h : c.machine.upcoming? = some i) :
    c.perform .step = ⟨{ c with machine := c.machine.carryOut i }, .done,
      c.machine.carryOutEvents i⟩ := by
  simp only [perform, Machine.cycle_of_upcoming h]

theorem upcoming?_of_done {c : Console} (hr : c.machine.mode = .running)
    (h : (c.perform .step).answer = .done) : ∃ i, c.machine.upcoming? = some i := by
  cases hd : Instruction.decode? (c.machine.readWord c.machine.pc) with
  | some i => exact ⟨i, (Machine.upcoming?_of_running hr).trans hd⟩
  | none =>
    simp only [perform, Machine.cycle_of_unknown hr hd] at h
    cases h

def cycled (c : Console) : Action → List Machine
  | .step => [c.machine]
  | .run n => c.machine.trail n
  | _ => []

/-- The machines that the cycles of a list of actions start from. -/
def trail : Console → List Action → List Machine
  | _, [] => []
  | c, a :: rest => c.cycled a ++ (c.perform a).console.trail rest

theorem trail_invariant {P : List Machine → Machine → Prop}
    (cycle : ∀ ms m, P ms m → P (ms ++ [m]) m.cycle.machine)
    (other : ∀ ms (c : Console) (a : Action), a.hasCycles = false → P ms c.machine →
      P ms (c.perform a).console.machine)
    (ms : List Machine) {c : Console} (h : P ms c.machine) (as : List Action) :
    P (ms ++ c.trail as) (c.after as).machine := by
  induction as generalizing ms c with
  | nil =>
    rw [trail, List.append_nil]
    exact h
  | cons a as ih =>
    rw [trail, ← List.append_assoc]
    refine ih _ ?_
    have hother : a.hasCycles = false → P (ms ++ []) (c.perform a).console.machine := by
      intro ha
      rw [List.append_nil]
      exact other ms c a ha h
    cases a with
    | step => exact cycle ms c.machine h
    | run n =>
      have hrun : (c.perform (.run n)).console.machine = c.machine.cycles n :=
        c.machine.run_machine n
      rw [hrun]
      exact Machine.trail_invariant cycle ms h n
    | _ => exact hother rfl

theorem filterMap_resumeEvents (m : Machine) (key : UInt8) :
    (m.resumeEvents key).filterMap Event.execution? = [] := by
  unfold Machine.resumeEvents
  split <;> rfl

theorem filterMap_events (c : Console) (a : Action) :
    (c.perform a).events.filterMap Event.execution? =
      (c.cycled a).filterMap Machine.execution? := by
  cases a with
  | step =>
    refine c.machine.filterMap_cycle_events.trans ?_
    rw [cycled, List.filterMap_cons]
    cases c.machine.execution? <;> rfl
  | run n => exact c.machine.filterMap_run_events n
  | load program =>
    by_cases h : programCapacity < program.length
    · rw [perform_load_of_lt h]
      rfl
    · rw [perform_load_of_not_lt h]
      rfl
  | resume key => exact filterMap_resumeEvents c.machine key
  | press key =>
    cases h : key.padIndex? with
    | none =>
      rw [perform_press_none h]
      rfl
    | some k =>
      simp only [perform, h]
      exact filterMap_resumeEvents c.machine _
  | _ => rfl

/-- What a history reports as executed is what its cycles execute. -/
theorem filterMap_reported (c : Console) (as : List Action) :
    (c.reported as).filterMap Event.execution? = (c.trail as).filterMap Machine.execution? := by
  induction as generalizing c with
  | nil => rfl
  | cons a as ih =>
    rw [reported_cons, trail, List.filterMap_append, List.filterMap_append, ih, filterMap_events]

end Console

end Chip8
