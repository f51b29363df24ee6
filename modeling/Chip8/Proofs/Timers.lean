import Chip8.Proofs.Decoding
import Chip8.Proofs.SoundCue

/-!
# Timers over a history

The machine has two timers, and each runs down by one in every cycle that executes an instruction, the
one that sets it included: what such a cycle leaves is one less than what was set. In no other cycle and
between cycles does a timer move. So until it is set again, its value is known from the number of
instructions executed since, whatever else they do, and the sound timer runs out in exactly one of
these cycles.
-/

set_option autoImplicit false

namespace Chip8

theorem toNat_runDown (v : UInt8) : (if v = 0 then 0 else v - 1).toNat = v.toNat - 1 := by
  split
  case isTrue h => rw [h]; rfl
  case isFalse h =>
    have hv : v.toNat ≠ 0 := fun hv => h (UInt8.toNat_inj.mp hv)
    have hle : (1 : UInt8) ≤ v := UInt8.le_iff_toNat_le.mpr (Nat.one_le_iff_ne_zero.mpr hv)
    exact UInt8.toNat_sub_of_le v 1 hle

namespace Machine

def delayAfter (m : Machine) : Instruction → UInt8
  | .setDelay x => m.register x
  | _ => m.delay

theorem delayAfter_of_ne {m : Machine} {i : Instruction} (h : ∀ x, i ≠ .setDelay x) :
    m.delayAfter i = m.delay := by
  cases i with
  | setDelay x => exact absurd rfl (h x)
  | _ => rfl

theorem soundAfter_of_ne {m : Machine} {i : Instruction} (h : ∀ x, i ≠ .setSound x) :
    m.soundAfter i = m.sound := by
  cases i with
  | setSound x => exact absurd rfl (h x)
  | _ => rfl

theorem obey_delay (m : Machine) (i : Instruction) :
    (obey { m with opcode := m.readWord m.pc } i).delay = m.delayAfter i := by
  obtain ⟨random, h⟩ :=
    obey_part Machine.delay (fun _ _ => rfl) { m with opcode := m.readWord m.pc } i
  exact h.trans (execute_delay random i _)

theorem carryOut_delay (m : Machine) (i : Instruction) :
    (m.carryOut i).delay = if m.delayAfter i = 0 then 0 else m.delayAfter i - 1 :=
  congrArg (fun v : UInt8 => if v = 0 then 0 else v - 1) (m.obey_delay i)

theorem cycle_delay {m : Machine} {i : Instruction} (h : m.upcoming? = some i) :
    m.cycle.machine.delay.toNat = (m.delayAfter i).toNat - 1 := by
  rw [cycle_of_upcoming h, carryOut_delay, toNat_runDown]

theorem cycle_sound {m : Machine} {i : Instruction} (h : m.upcoming? = some i) :
    m.cycle.machine.sound.toNat = (m.soundAfter i).toNat - 1 := by
  rw [cycle_of_upcoming h, carryOut_sound, toNat_runDown]

end Machine

/-- Only the instruction that sets it from a register changes it before it runs down. -/
structure Timer where
  value : Machine → UInt8
  set : Nat → Instruction
  runs_down : ∀ {m : Machine} {i : Instruction}, m.upcoming? = some i → (∀ x, i ≠ set x) →
    (value m.cycle.machine).toNat = (value m).toNat - 1
  starts : ∀ {m : Machine} {x : Nat}, m.upcoming? = some (set x) →
    (value m.cycle.machine).toNat = (m.register x).toNat - 1
  stands : ∀ {m : Machine}, m.upcoming? = none → value m.cycle.machine = value m
  rests : ∀ (c : Console) (a : Action), a.hasCycles = false →
    value (c.perform a).console.machine = value c.machine

namespace Timer

def delay : Timer where
  value := Machine.delay
  set := .setDelay
  runs_down h hset := by rw [Machine.cycle_delay h, Machine.delayAfter_of_ne hset]
  starts h := Machine.cycle_delay h
  stands h := by rw [Machine.cycle_of_no_upcoming h]
  rests c a ha := by rw [c.perform_rest ha]

def sound : Timer where
  value := Machine.sound
  set := .setSound
  runs_down h hset := by rw [Machine.cycle_sound h, Machine.soundAfter_of_ne hset]
  starts h := Machine.cycle_sound h
  stands h := by rw [Machine.cycle_of_no_upcoming h]
  rests c a ha := by rw [c.perform_rest ha]

def Unset (t : Timer) (ms : List Machine) : Prop := ∀ m ∈ ms, ∀ x, m.upcoming? ≠ some (t.set x)

/-- The timer has run down by one for each of the machines, in order, from `start` to where it is. -/
structure RunsDown (t : Timer) (start : Nat) (ms : List Machine) (m : Machine) : Prop where
  value_eq : (t.value m).toNat = start - ms.length
  value_getElem : ∀ {j : Nat} {k : Machine}, ms[j]? = some k → (t.value k).toNat = start - j

theorem RunsDown.of_value_eq {t : Timer} {start : Nat} {ms : List Machine} {m n : Machine}
    (h : t.RunsDown start ms m) (hn : t.value n = t.value m) : t.RunsDown start ms n where
  value_eq := hn ▸ h.value_eq
  value_getElem := h.value_getElem

theorem RunsDown.cycle {t : Timer} {start : Nat} {ms : List Machine} {m : Machine} {i : Instruction}
    (h : t.RunsDown start ms m) (hi : m.upcoming? = some i) (hset : ∀ x, i ≠ t.set x) :
    t.RunsDown start (ms ++ [m]) m.cycle.machine where
  value_eq := by
    rw [t.runs_down hi hset, h.value_eq, List.length_append, List.length_singleton, Nat.sub_sub]
  value_getElem {j k} hj := by
    rw [List.getElem?_append] at hj
    split at hj
    · exact h.value_getElem hj
    case isFalse hlt =>
      rw [List.getElem?_singleton] at hj
      split at hj
      case isTrue hzero =>
        rw [← Option.some.inj hj, h.value_eq]
        omega
      case isFalse => cases hj

theorem runsDown_nil (t : Timer) (m : Machine) : t.RunsDown (t.value m).toNat [] m where
  value_eq := rfl
  value_getElem hj := by cases hj

theorem runsDown_after (t : Timer) (c : Console) (as : List Action)
    (hset : t.Unset ((c.trail as).filter Machine.executes)) :
    t.RunsDown (t.value c.machine).toNat ((c.trail as).filter Machine.executes)
      (c.after as).machine := by
  -- by induction on the cycles so far, of which those that execute nothing leave the timer as it is
  refine Console.trail_invariant (P := fun ms m => t.Unset (ms.filter Machine.executes) →
    t.RunsDown (t.value c.machine).toNat (ms.filter Machine.executes) m) ?_ ?_ []
    (fun _ => t.runsDown_nil c.machine) as hset
  · intro ms m h hset
    rw [List.filter_append] at hset ⊢
    have hms := h fun k hk => hset k (List.mem_append_left _ hk)
    cases hm : m.upcoming? with
    | none =>
      have hnone : [m].filter Machine.executes = [] := by simp [Machine.executes, hm]
      rw [hnone, List.append_nil]
      exact hms.of_value_eq (t.stands hm)
    | some i =>
      have hone : [m].filter Machine.executes = [m] := by simp [Machine.executes, hm]
      rw [hone] at hset ⊢
      refine hms.cycle hm fun x hx => ?_
      exact hset m (List.mem_append_right _ (List.mem_singleton_self m)) x (hx ▸ hm)
  · intro ms d a ha h hset
    exact (h hset).of_value_eq (t.rests d a ha)

end Timer

namespace Machine

theorem beep_cycle_of_unset {m : Machine} (he : m.executes = true)
    (hset : ∀ x, m.upcoming? ≠ some (.setSound x)) :
    m.cycle.machine.beep = true ↔ m.sound = 1 := by
  obtain ⟨i, hi⟩ := Option.isSome_iff_exists.mp he
  have hne : ∀ x, i ≠ .setSound x := fun x hx => hset x (hx ▸ hi)
  rw [cycle_of_upcoming hi, carryOut_beep, soundAfter_of_ne hne, beq_iff_eq]

theorem cycle_beep_setSound {m : Machine} {x : Nat} (h : m.upcoming? = some (.setSound x)) :
    m.cycle.machine.beep = true ↔ m.register x = 1 := by
  rw [cycle_of_upcoming h, carryOut_beep, soundAfter, beq_iff_eq]

theorem cycle_register_readDelay {m : Machine} {x : Nat} (h : m.upcoming? = some (.readDelay x)) :
    m.cycle.machine.register x = m.delay := by
  have hx : x < 16 := Instruction.register_lt_of_decode? (upcoming?_eq_some_iff.mp h).2 x
    (List.mem_singleton_self x)
  obtain ⟨random, hpart⟩ := carryOut_part (Machine.register · x) (fun _ => rfl) (fun _ _ => rfl) m
    (.readDelay x)
  rw [cycle_of_upcoming h, hpart]
  exact (register_setRegister _ x x _).trans (if_pos ⟨rfl, hx⟩)

theorem run_soundCue_iff (m : Machine) (n : Nat) :
    (m.run n).soundCue = true ↔ ∃ k ∈ m.trail (m.run n).executed,
      ∃ i, k.upcoming? = some i ∧ k.soundAfter i = 1 ∧ k.cycle.machine.sound = 0 := by
  rw [run_soundCue, ← m.filter_executes_trail n, List.any_eq_true]
  constructor
  · rintro ⟨k, hk, hexpires⟩
    obtain ⟨i, hi, hone⟩ := expires_iff.mp hexpires
    have he : k.executes = true := by rw [executes, hi, Option.isSome_some]
    exact ⟨k, List.mem_filter.mpr ⟨hk, he⟩, i, hi, hone, cycle_sound_of_expires hexpires⟩
  · rintro ⟨k, hk, i, hi, hone, -⟩
    exact ⟨k, (List.mem_filter.mp hk).1, expires_iff.mpr ⟨i, hi, hone⟩⟩

end Machine

namespace Console

/-- Timers run down with executed instructions and not with calls. The beep is up after the instruction
by which the sound timer comes to zero, and after no other. -/
theorem timers_run_down (c : Console) (as : List Action) :
    let m := c.machine
    let next := (c.perform .step).console.machine
    let last := (c.after as).machine
    let executed := (c.trail as).filter Machine.executes
    ((∀ k ∈ executed, ∀ x, k.upcoming? ≠ some (.setDelay x)) →
      last.delay.toNat = m.delay.toNat - executed.length) ∧
    ((∀ k ∈ executed, ∀ x, k.upcoming? ≠ some (.setSound x)) →
      last.sound.toNat = m.sound.toNat - executed.length ∧
      ∀ j k, executed[j]? = some k →
        (k.cycle.machine.beep = true ↔ j + 1 = m.sound.toNat)) ∧
    (∀ x, m.upcoming? = some (.setDelay x) → next.delay.toNat = (m.register x).toNat - 1) ∧
    (∀ x, m.upcoming? = some (.setSound x) →
      next.sound.toNat = (m.register x).toNat - 1 ∧
      (next.beep = true ↔ m.register x = 1)) ∧
    (∀ x, m.upcoming? = some (.readDelay x) →
      next.register x = m.delay ∧ next.delay.toNat = m.delay.toNat - 1) ∧
    (∀ n count cue, (c.perform (.run n)).answer = .ran count cue →
      (cue = true ↔ ∃ k ∈ m.trail count, ∃ i, k.upcoming? = some i ∧ k.soundAfter i = 1 ∧
        k.cycle.machine.sound = 0)) := by
  intro m next last executed
  refine ⟨?_, ?_, fun x => Timer.delay.starts, ?_, ?_, ?_⟩
  · intro hset
    exact (Timer.delay.runsDown_after c as hset).value_eq
  · intro hset
    have h := Timer.sound.runsDown_after c as hset
    refine ⟨h.value_eq, fun j k hj => ?_⟩
    have hk : k ∈ executed := List.mem_of_getElem? hj
    have he : k.executes = true := (List.mem_filter.mp hk).2
    have hsound : k.sound.toNat = m.sound.toNat - j := h.value_getElem hj
    rw [Machine.beep_cycle_of_unset he (hset k hk), ← UInt8.toNat_inj, hsound]
    change m.sound.toNat - j = 1 ↔ j + 1 = m.sound.toNat
    omega
  · intro x hx
    exact ⟨Timer.sound.starts hx, Machine.cycle_beep_setSound hx⟩
  · intro x hx
    exact ⟨Machine.cycle_register_readDelay hx, Timer.delay.runs_down hx fun y hy => by cases hy⟩
  · intro n count cue h
    obtain ⟨hcount, hcue⟩ := answer_run h
    rw [← hcount, ← hcue]
    exact m.run_soundCue_iff n

end Console

end Chip8
