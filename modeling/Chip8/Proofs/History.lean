import Chip8.Console

/-!
# Histories

A console that is given a list of actions, one after the other. Each action is answered before the
next one is performed, so every prefix of a history is a history of its own, and what is shown of
the console after an arbitrary list holds at every point of every run.
-/

set_option autoImplicit false

namespace Chip8

def Action.hasCycles : Action → Bool
  | .step | .run _ => true
  | _ => false

theorem Machine.resume_rest (m : Machine) (key : UInt8) :
    m.resume key = { m with
      registers := (m.resume key).registers
      mode := (m.resume key).mode } := by
  unfold Machine.resume
  split <;> rfl

namespace Console

theorem nextFrame_machine (c : Console) : c.nextFrame.1.machine = c.machine.clearDrawFlag := by
  unfold nextFrame
  split <;> rfl

theorem nextFrame_held (c : Console) : c.nextFrame.1.held = c.held := by
  unfold nextFrame
  split <;> rfl

theorem perform_load_of_lt {program : List UInt8} (h : programCapacity < program.length)
    (c : Console) :
    c.perform (.load program) = ⟨c, .oversize ⟨program.length, programCapacity⟩, []⟩ := by
  simp only [perform, Machine.load, if_pos h]

theorem perform_load_of_not_lt {program : List UInt8} (h : ¬ programCapacity < program.length)
    (c : Console) :
    c.perform (.load program) =
      ⟨{ c with machine :=
          { c.machine with memory := c.machine.memory.place program.toArray } }, .done,
        [.loaded program.length]⟩ := by
  simp only [perform, Machine.load, if_neg h]

theorem perform_press_none {key : Key} (h : key.padIndex? = none) (c : Console) :
    c.perform (.press key) = ⟨c, .key none, []⟩ := by
  simp only [perform, h]

theorem perform_machine (c : Console) (a : Action) :
    (c.perform a).console.machine =
      match a with
      | .load program =>
        if programCapacity < program.length then c.machine
        else { c.machine with memory := c.machine.memory.place program.toArray }
      | .step => c.machine.cycle.machine
      | .run cycles => (c.machine.run cycles).machine
      | .resume key => c.machine.resume key
      | .setKey key down => c.machine.setKey key down
      | .clearKeys => c.machine.clearKeys
      | .press key =>
        match key.padIndex? with
        | some k => (c.machine.setKey k true).resume (UInt8.ofNat k)
        | none => c.machine
      | .tick => c.machine.setKeys c.held.tick
      | .takeDrawFlag | .nextFrame | .present => c.machine.clearDrawFlag
      | .changes _ => c.machine := by
  cases a with
  | load program =>
    by_cases h : programCapacity < program.length
    · simp only [perform_load_of_lt h, if_pos h]
    · simp only [perform_load_of_not_lt h, if_neg h]
  | press key =>
    cases h : key.padIndex? with
    | none => simp only [perform, h]
    | some k =>
      simp only [perform, h]
      rfl
  | nextFrame => exact c.nextFrame_machine
  | present => exact c.nextFrame_machine
  | _ => rfl

theorem perform_rest (c : Console) {a : Action} (ha : a.hasCycles = false) :
    (c.perform a).console.machine = { c.machine with
      memory := (c.perform a).console.machine.memory
      registers := (c.perform a).console.machine.registers
      keys := (c.perform a).console.machine.keys
      drawFlag := (c.perform a).console.machine.drawFlag
      mode := (c.perform a).console.machine.mode } := by
  rw [perform_machine]
  cases a with
  | step => cases ha
  | run cycles => cases ha
  | load program =>
    dsimp only
    split <;> rfl
  | resume key =>
    dsimp only
    rw [c.machine.resume_rest key]
  | press key =>
    dsimp only
    cases key.padIndex? with
    | none => rfl
    | some k =>
      dsimp only
      rw [(c.machine.setKey k true).resume_rest]
      rfl
  | _ => rfl

theorem perform_held (c : Console) (a : Action) :
    (c.perform a).console.held =
      match a with
      | .press key =>
        match key.padIndex? with
        | some k => c.held.press k
        | none => c.held
      | .tick => c.held.tick
      | _ => c.held := by
  cases a with
  | load program =>
    by_cases h : programCapacity < program.length
    · simp only [perform_load_of_lt h]
    · simp only [perform_load_of_not_lt h]
  | press key =>
    cases h : key.padIndex? with
    | none => simp only [perform, h]
    | some k =>
      simp only [perform, h]
      rfl
  | nextFrame => exact c.nextFrame_held
  | present => exact c.nextFrame_held
  | _ => rfl

def replies : Console → List Action → List Reply
  | _, [] => []
  | c, a :: rest => c.perform a :: (c.perform a).console.replies rest

def after : Console → List Action → Console
  | c, [] => c
  | c, a :: rest => (c.perform a).console.after rest

theorem after_append (c : Console) (as bs : List Action) :
    c.after (as ++ bs) = (c.after as).after bs := by
  induction as generalizing c with
  | nil => rfl
  | cons a as ih => exact ih _

def reported (c : Console) (as : List Action) : List Event := (c.replies as).flatMap Reply.events

theorem reported_cons (c : Console) (a : Action) (rest : List Action) :
    c.reported (a :: rest) = (c.perform a).events ++ (c.perform a).console.reported rest := by
  simp only [reported, replies, List.flatMap_cons]

theorem reported_step (c : Console) : c.reported [.step] = c.machine.cycle.events :=
  List.append_nil c.machine.cycle.events

theorem events_step_step (c : Console) :
    ((c.after [.step]).perform .step).events = c.machine.cycle.machine.cycle.events := rfl

theorem after_invariant {P : Console → Prop} (step : ∀ c a, P c → P (c.perform a).console)
    {c : Console} (h : P c) (as : List Action) : P (c.after as) := by
  induction as generalizing c with
  | nil => exact h
  | cons a as ih => exact ih (step c a h)

/-- Where each action changes the keys and the draw flag of a machine at most, and what it takes for that
does not depend on them, a history changes no more. -/
theorem after_keeps {Q : Machine → Prop} {allowed : Action → Prop}
    (stable : ∀ (m : Machine) (keys : Vector UInt8 16) (flag : Bool),
      Q m → Q { m with keys := keys, drawFlag := flag })
    (step : ∀ (c : Console) (a : Action), allowed a → Q c.machine →
      (c.perform a).console.machine = { c.machine with
        keys := (c.perform a).console.machine.keys
        drawFlag := (c.perform a).console.machine.drawFlag })
    {c : Console} (h : Q c.machine) {as : List Action} (has : ∀ a ∈ as, allowed a) :
    (c.after as).machine = { c.machine with
      keys := (c.after as).machine.keys
      drawFlag := (c.after as).machine.drawFlag } := by
  induction as generalizing c with
  | nil => rfl
  | cons a as ih =>
    rw [List.forall_mem_cons] at has
    have hp := step c a has.1 h
    have hq : Q (c.perform a).console.machine := (congrArg Q hp).mpr (stable _ _ _ h)
    exact (ih hq has.2).trans (congrArg (fun m : Machine => { m with
      keys := ((c.perform a).console.after as).machine.keys
      drawFlag := ((c.perform a).console.after as).machine.drawFlag }) hp)

theorem reported_invariant {P : List Event → Console → Prop}
    (step : ∀ es c a, P es c → P (es ++ (c.perform a).events) (c.perform a).console)
    (es : List Event) {c : Console} (h : P es c) (as : List Action) :
    P (es ++ c.reported as) (c.after as) := by
  induction as generalizing es c with
  | nil =>
    rw [reported, replies, List.flatMap_nil, List.append_nil]
    exact h
  | cons a as ih =>
    rw [reported_cons, ← List.append_assoc]
    exact ih _ (step es c a h)

end Console

end Chip8
