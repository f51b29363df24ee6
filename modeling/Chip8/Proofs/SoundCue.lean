import Chip8.Proofs.KeyWait
import Chip8.Proofs.Trail

/-!
# The sound cue

The sound timer runs out in a cycle whose instruction leaves it at one. A machine's beep says whether
it ran out in the last cycle that executed an instruction, since a cycle that executes none leaves the
beep as it is. So a poll after a single step and the report of a batch of one cycle agree wherever
an instruction is executed. They part where the timer runs out in the cycle that executes a wait for a
key: the machine stands still with its beep up, and a batch of no cycles has no cue to report.
-/

set_option autoImplicit false

namespace Chip8

namespace Machine

/-- Where an instruction leaves the sound timer, before it runs down. -/
def soundAfter (m : Machine) : Instruction → UInt8
  | .setSound x => m.register x
  | _ => m.sound

def expires (m : Machine) : Bool := m.upcoming?.any (m.soundAfter · == 1)

theorem expires_iff {m : Machine} :
    m.expires = true ↔ ∃ i, m.upcoming? = some i ∧ m.soundAfter i = 1 := by
  simp only [expires, Option.any_eq_true, beq_iff_eq]

theorem expires_of_upcoming {m : Machine} {i : Instruction} (h : m.upcoming? = some i) :
    m.expires = (m.soundAfter i == 1) := by
  rw [expires, h, Option.any_some]

theorem expires_of_no_upcoming {m : Machine} (h : m.upcoming? = none) : m.expires = false := by
  rw [expires, h, Option.any_none]

theorem obey_sound (m : Machine) (i : Instruction) :
    (obey { m with opcode := m.readWord m.pc } i).sound = m.soundAfter i := by
  obtain ⟨random, h⟩ :=
    obey_part Machine.sound (fun _ _ => rfl) { m with opcode := m.readWord m.pc } i
  exact h.trans (execute_sound random i _)

theorem carryOut_beep (m : Machine) (i : Instruction) :
    (m.carryOut i).beep = (m.soundAfter i == 1) :=
  congrArg (· == 1) (m.obey_sound i)

theorem carryOut_sound (m : Machine) (i : Instruction) :
    (m.carryOut i).sound = if m.soundAfter i = 0 then 0 else m.soundAfter i - 1 :=
  congrArg (fun v : UInt8 => if v = 0 then 0 else v - 1) (m.obey_sound i)

theorem cycle_beep (m : Machine) :
    m.cycle.machine.beep = if m.executes then m.expires else m.beep := by
  cases h : m.upcoming? with
  | none =>
    rw [cycle_of_no_upcoming h, executes, h]
    rfl
  | some i =>
    rw [cycle_of_upcoming h, expires_of_upcoming h, executes, h]
    exact m.carryOut_beep i

theorem cycle_sound_of_expires {m : Machine} (h : m.expires = true) :
    m.cycle.machine.sound = 0 := by
  obtain ⟨i, hi, hone⟩ := expires_iff.mp h
  rw [cycle_of_upcoming hi, carryOut_sound, hone]
  rfl

theorem run_soundCue (m : Machine) (n : Nat) : (m.run n).soundCue = (m.trail n).any expires := by
  induction n generalizing m with
  | zero => rfl
  | succ n ih =>
    cases h : m.upcoming? with
    | none =>
      have htrail : (m.trail (n + 1)).any expires = false := by
        rw [List.any_eq_false]
        intro k hk
        rw [expires_of_no_upcoming (upcoming?_of_mem_trail h hk)]
        exact Bool.false_ne_true
      rw [run_of_no_upcoming h, htrail]
    | some i =>
      rw [run_of_upcoming h, trail, List.any_cons, expires_of_upcoming h, cycle_of_upcoming h,
        ← ih, ← carryOut_beep]
      rfl

end Machine

namespace Console

theorem perform_run_one {c : Console} {i : Instruction} (h : c.machine.upcoming? = some i) :
    c.perform (.run 1) = { c.perform .step with
      answer := .ran 1 (c.perform .step).console.machine.beep } := by
  have hrun : c.machine.run 1 =
      ⟨c.machine.carryOut i, (c.machine.carryOutEvents i).toArray, 1,
        (c.machine.carryOut i).beep, none⟩ :=
    (Machine.run_of_upcoming h 0).trans (Batch.followedBy_start rfl)
  rw [perform_step_of_upcoming h]
  simp only [perform, hrun]
  rfl

theorem after_beep (c : Console) (as : List Action) :
    (c.after as).machine.beep =
      (((c.trail as).filter Machine.executes).getLast?.map Machine.expires).getD
        c.machine.beep := by
  refine trail_invariant (P := fun ms m => m.beep =
    ((ms.filter Machine.executes).getLast?.map Machine.expires).getD c.machine.beep)
    ?_ ?_ [] rfl as
  · intro ms m h
    rw [m.cycle_beep, List.filter_append]
    cases he : m.executes with
    | true => simp [he]
    | false => simpa [he] using h
  · intro ms d a ha h
    exact (congrArg Machine.beep (d.perform_rest ha)).trans h

theorem countP_beep (ms : List Machine) :
    ms.countP (fun m => m.executes && m.cycle.machine.beep) = ms.countP Machine.expires := by
  congr 1
  funext m
  rw [m.cycle_beep]
  cases h : m.upcoming? <;> simp [Machine.executes, Machine.expires, h]

theorem answer_run {c : Console} {n k : Nat} {cue : Bool}
    (h : (c.perform (.run n)).answer = .ran k cue) :
    (c.machine.run n).executed = k ∧ (c.machine.run n).soundCue = cue := by
  have hanswer : (c.machine.run n).answer = .ran k cue := h
  unfold Batch.answer at hanswer
  split at hanswer
  · cases hanswer
  · exact Answer.ran.inj hanswer

/-- A poll after a step agrees with a batch of one cycle wherever the step executes an instruction. A
waiting machine executes none, so a poll finds the last cue again, while a batch has none to report. -/
theorem sound_cue_of_executed (c : Console) (as : List Action) :
    let next := c.perform .step
    (c.machine.mode = .running → next.answer = .done →
      c.perform (.run 1) = { next with answer := .ran 1 next.console.machine.beep } ∧
      (next.console.machine.beep = true ↔
        ∃ i, c.machine.upcoming? = some i ∧ c.machine.soundAfter i = 1) ∧
      (next.console.machine.beep = true → next.console.machine.sound = 0)) ∧
    (c.machine.isAwaiting = true →
      next = ⟨c, .done, []⟩ ∧ c.perform (.run 1) = ⟨c, .ran 0 false, []⟩) ∧
    (∀ n k cue, (c.perform (.run n)).answer = .ran k cue →
      (cue = true ↔ ∃ m ∈ c.machine.trail n, m.expires = true)) ∧
    (c.trail as).countP (fun m => m.executes && m.cycle.machine.beep) =
      (c.trail as).countP Machine.expires ∧
    (c.after as).machine.beep =
      (((c.trail as).filter Machine.executes).getLast?.map Machine.expires).getD
        c.machine.beep := by
  intro next
  refine ⟨?_, ?_, ?_, countP_beep _, c.after_beep as⟩
  · intro hr hdone
    obtain ⟨i, hi⟩ := upcoming?_of_done hr hdone
    have hbeep : next.console.machine.beep = c.machine.expires := by
      refine c.machine.cycle_beep.trans (if_pos ?_)
      rw [Machine.executes, hi, Option.isSome_some]
    refine ⟨perform_run_one hi, ?_, ?_⟩
    · rw [hbeep, Machine.expires_iff]
    · intro h
      exact Machine.cycle_sound_of_expires (hbeep.symm.trans h)
  · intro ha
    obtain ⟨x, hx⟩ := c.machine.isAwaiting_iff.mp ha
    exact ⟨perform_step_of_awaiting hx, perform_run_of_awaiting hx 1⟩
  · intro n k cue h
    rw [← (answer_run h).2, Machine.run_soundCue, List.any_eq_true]

/-- A timer that runs out in the cycle that executes a wait for a key leaves the cue up for as long as
the machine waits, although the timer runs out in none of the cycles from there on. -/
theorem cue_of_awaitKey {c : Console} {x : Nat} (hi : c.machine.upcoming? = some (.awaitKey x))
    (hs : c.machine.sound = 1) :
    let w := (c.perform .step).console
    w.perform .step = ⟨w, .done, []⟩ ∧ w.perform (.run 1) = ⟨w, .ran 0 false, []⟩ ∧
      w.machine.beep = true ∧ w.machine.expires = false := by
  intro w
  have hw : w.machine = c.machine.carryOut (.awaitKey x) := by
    simp only [w, perform_step_of_upcoming hi]
  have hmode : w.machine.mode = .awaitingKey x := by
    rw [hw]
    exact c.machine.carryOut_mode _
  have hbeep : w.machine.beep = true := by
    rw [hw, Machine.carryOut_beep]
    exact beq_iff_eq.mpr hs
  have hidle : w.machine.upcoming? = none :=
    Machine.upcoming?_of_isAwaiting (w.machine.isAwaiting_iff.mpr ⟨x, hmode⟩)
  exact ⟨perform_step_of_awaiting hmode, perform_run_of_awaiting hmode 1, hbeep,
    Machine.expires_of_no_upcoming hidle⟩

end Console

def chime : List UInt8 := [0x60, 0x02, 0xF0, 0x18, 0xF1, 0x0A]

namespace Machine

theorem upcoming?_of_loaded {m n : Machine} {program : List UInt8}
    (hm : m.memory = (n.loaded program).memory) (hr : m.mode = .running) {k : Nat}
    (hpc : m.pc = UInt16.ofNat (programStart + k)) (hc : k + 1 < programCapacity)
    {high low : UInt8} (hh : program[k]? = some high) (hl : program[k + 1]? = some low)
    {i : Instruction} (hd : Instruction.decode? (Word.ofBytes high low) = some i) :
    m.upcoming? = some i := by
  have hw : m.readWord m.pc = (n.loaded program).readWord m.pc := by
    simp only [readWord, read, hm]
  rw [upcoming?_of_running hr, hw, hpc, readWord_loaded n hh hl hc, hd]

theorem sound_chime (tape : Tape) :
    ((((fresh tape).loaded chime).carryOut (.loadByte 0 2)).carryOut (.setSound 0)).sound = 1 := by
  have hreg : (((fresh tape).loaded chime).carryOut (.loadByte 0 2)).register 0 = 2 :=
    (register_setRegister _ 0 0 2).trans (if_pos ⟨rfl, by decide⟩)
  rw [carryOut_sound, soundAfter, hreg]
  decide

end Machine

namespace Console

theorem after_two_steps (c : Console) :
    (c.after [.step, .step]).machine = c.machine.cycle.machine.cycle.machine := rfl

theorem after_chime (tape : Tape) (hold : Nat) :
    let c := (fresh tape hold).after [.load chime, .step, .step]
    c.machine.upcoming? = some (.awaitKey 1) ∧ c.machine.sound = 1 := by
  intro c
  let m := (Machine.fresh tape).loaded chime
  let second := m.carryOut (.loadByte 0 2)
  let third := second.carryOut (.setSound 0)
  have hfirst : m.upcoming? = some (.loadByte 0 2) :=
    Machine.upcoming?_of_loaded (k := 0) rfl rfl rfl (by decide) rfl rfl (by decide)
  have hpc : second.pc = UInt16.ofNat (programStart + 2) := rfl
  have hsecond : second.upcoming? = some (.setSound 0) := by
    have hm : second.memory = m.memory := rfl
    exact Machine.upcoming?_of_loaded (k := 2) hm rfl hpc (by decide) rfl rfl (by decide)
  have hthird : third.upcoming? = some (.awaitKey 1) := by
    have hm : third.memory = m.memory := rfl
    have hnext : third.pc = UInt16.ofNat (programStart + 4) :=
      (congrArg (· + 2) hpc : second.pc + 2 = _)
    exact Machine.upcoming?_of_loaded (k := 4) hm rfl hnext (by decide) rfl rfl (by decide)
  have hload : (fresh tape hold).after [.load chime] = { fresh tape hold with machine := m } := by
    rw [after, after, perform_load_eq_loaded (by decide)]
    rfl
  have hc : c.machine = m.cycle.machine.cycle.machine := by
    have happ := (fresh tape hold).after_append [.load chime] [.step, .step]
    rw [hload] at happ
    exact (congrArg Console.machine happ).trans (after_two_steps _)
  rw [hc, Machine.cycle_of_upcoming hfirst, Machine.cycle_of_upcoming hsecond]
  exact ⟨hthird, Machine.sound_chime tape⟩

/-- After three steps of the program the machine waits. The next step leaves the cue to be polled once
more, and a batch reports none. -/
theorem cue_repeats_while_waiting :
    let c := (fresh (.ofSeed 1) 6).after [.load chime, .step, .step]
    let w := (c.perform .step).console
    let next := w.perform .step
    next.answer = .done ∧ next.console.machine.beep = true ∧ w.machine.expires = false ∧
      (w.perform (.run 1)).answer = .ran 0 false := by
  intro c w next
  obtain ⟨hi, hs⟩ := after_chime (.ofSeed 1) 6
  obtain ⟨hstep, hrun, hbeep, hexpires⟩ := cue_of_awaitKey (c := c) hi hs
  have hnext : next = ⟨w, .done, []⟩ := hstep
  rw [hnext]
  exact ⟨rfl, hbeep, hexpires, congrArg Reply.answer hrun⟩

end Console

end Chip8
