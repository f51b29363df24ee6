import Chip8.Proofs.Batch
import Chip8.Proofs.History

/-!
# Observation leaves execution alone

The opcode, the beep and the draw flag of a machine are kept for whoever looks at it: no cycle reads
them, and neither does anything else that drives the machine. So machines that agree in everything but
these marks are driven alike. An observer changes no more than the draw flag, and a screen of its own.
Observers may therefore come and go between any two calls, and what a program computes, and what is
answered about it, stays the same.
-/

set_option autoImplicit false

namespace Chip8

namespace Machine

def marked (m : Machine) (w : UInt16) (b d : Bool) : Machine :=
  { m with opcode := w, beep := b, drawFlag := d }

def Agrees (m n : Machine) : Prop := n = m.marked n.opcode n.beep n.drawFlag

theorem agrees_marked (m : Machine) (w : UInt16) (b d : Bool) : m.Agrees (m.marked w b d) := rfl

theorem execute_marked (random : UInt8) (i : Instruction) (m : Machine) (w : UInt16) (b d : Bool) :
    ∃ f, (m.marked w b d).execute random i = (m.execute random i).marked w b f := by
  have ht := execute_tape random i m
  refine ⟨((m.marked w b d).execute random i).drawFlag, ?_⟩
  rw [execute_drawFlag]
  exact (execute_unread random i m m.tape w b d).trans
    (congrArg (fun t => { (m.execute random i).marked w b _ with tape := t }) ht.symm)

theorem obey_marked (m : Machine) (w : UInt16) (b d : Bool) (i : Instruction) :
    ∃ f, obey (m.marked w b d) i = (obey m i).marked w b f := by
  unfold obey
  cases i.usesTape with
  | true =>
    obtain ⟨f, hf⟩ := execute_marked m.tape.byte i m w b d
    exact ⟨f, congrArg (fun n : Machine => { n with tape := m.tape.next }) hf⟩
  | false => exact execute_marked 0 i m w b d

/-- An executed instruction leaves machines that agree with the same opcode and the same beep. -/
theorem carryOut_marked (m : Machine) (w : UInt16) (b d : Bool) (i : Instruction) :
    ∃ f, (m.marked w b d).carryOut i = { m.carryOut i with drawFlag := f } := by
  obtain ⟨f, hf⟩ := obey_marked { m with opcode := m.readWord m.pc } (m.readWord m.pc) b d i
  refine ⟨f, (congrArg decay hf).trans ?_⟩
  exact congrArg (fun v => { m.carryOut i with opcode := v, drawFlag := f })
    (m.carryOut_opcode i).symm

namespace Agrees

variable {m n : Machine}

theorem refl (m : Machine) : m.Agrees m := rfl

variable (h : m.Agrees n)
include h

theorem symm : n.Agrees m := by
  rw [h]
  rfl

theorem trans {k : Machine} (hk : n.Agrees k) : m.Agrees k := by
  rw [Agrees, hk, h]
  rfl

theorem cycle : m.cycle.machine.Agrees n.cycle.machine ∧ n.cycle.events = m.cycle.events ∧
    n.cycle.fault = m.cycle.fault ∧
    (m.isAwaiting = false → n.cycle.fault = none → n.cycle.machine.beep = m.cycle.machine.beep) := by
  rw [h]
  generalize n.opcode = w, n.beep = b, n.drawFlag = d
  rcases m.cycle_cases with ⟨x, hx⟩ | ⟨hr, hd⟩ | ⟨hr, i, hd⟩
  · rw [cycle_of_awaiting hx, cycle_of_awaiting (m := m.marked w b d) hx]
    refine ⟨rfl, rfl, rfl, fun ha => ?_⟩
    rw [m.isAwaiting_iff.mpr ⟨x, hx⟩] at ha
    cases ha
  · rw [cycle_of_unknown hr hd, cycle_of_unknown (m := m.marked w b d) hr hd]
    exact ⟨rfl, rfl, rfl, fun _ hf => by cases hf⟩
  · obtain ⟨f, hf⟩ := m.carryOut_marked w b d i
    rw [cycle_of_decoded hr hd, cycle_of_decoded (m := m.marked w b d) hr hd, carryOutEvents,
      carryOutEvents, hf]
    exact ⟨rfl, rfl, rfl, fun _ _ => rfl⟩

theorem isAwaiting : n.isAwaiting = m.isAwaiting := by
  rw [h]
  rfl

theorem resume (key : UInt8) : (m.resume key).Agrees (n.resume key) := by
  rw [h]
  generalize n.opcode = w, n.beep = b, n.drawFlag = d
  have hmode : (m.marked w b d).mode = m.mode := rfl
  unfold Machine.resume
  rw [hmode]
  cases m.mode with
  | running => rfl
  | awaitingKey x => rfl

theorem resumeEvents (key : UInt8) : n.resumeEvents key = m.resumeEvents key := by
  rw [h]
  rfl

theorem place (program : Array UInt8) :
    Agrees { m with memory := m.memory.place program }
      { n with memory := n.memory.place program } := by
  rw [h]
  rfl

theorem setKey (k : Nat) (down : Bool) : (m.setKey k down).Agrees (n.setKey k down) := by
  rw [h]
  rfl

theorem clearKeys : m.clearKeys.Agrees n.clearKeys := by
  rw [h]
  rfl

theorem setKeys (held : HeldKeys) : (m.setKeys held).Agrees (n.setKeys held) := by
  rw [h]
  rfl

end Agrees

end Machine

structure Batch.Agrees (b d : Batch) : Prop where
  machine : b.machine.Agrees d.machine
  events : d.events = b.events
  executed : d.executed = b.executed
  soundCue : d.soundCue = b.soundCue
  fault : d.fault = b.fault

namespace Batch.Agrees

variable {b d : Batch} (h : b.Agrees d)
include h

theorem ended : d.ended = b.ended := by
  rw [Batch.ended, Batch.ended, h.fault, h.machine.isAwaiting]

theorem advance (ha : b.ended = false) : b.advance.Agrees d.advance := by
  obtain ⟨hm, he, hf, hb⟩ := h.machine.cycle
  obtain ⟨-, ha⟩ := Bool.or_eq_false_iff.mp ha
  simp only [Batch.advance, hf, he, h.events]
  cases hc : b.machine.cycle.fault with
  | some f => exact ⟨hm, rfl, h.executed, h.soundCue, rfl⟩
  | none =>
    have hcue := congrArg₂ (· || ·) h.soundCue (hb ha (hf.trans hc))
    exact ⟨hm, rfl, congrArg (· + 1) h.executed, hcue, h.fault⟩

theorem answer : d.answer = b.answer := by
  rw [Batch.answer, Batch.answer, h.fault, h.executed, h.soundCue]

end Batch.Agrees

theorem Machine.Agrees.run {m n : Machine} (h : m.Agrees n) (k : Nat) :
    (m.run k).Agrees (n.run k) := by
  have hstart : (Batch.start m).Agrees (.start n) := ⟨h, rfl, rfl, rfl, rfl⟩
  obtain ⟨_, hk⟩ := Batch.extend_related (R := fun _ => Batch.Agrees)
    (fun _ _ _ h => h.ended) (fun _ _ _ h => h.advance) (n := k) hstart
  exact hk

/-- Whether an action only looks at the machine, for a screen or for whoever polls the draw flag. -/
def Action.observes : Action → Bool
  | .takeDrawFlag | .nextFrame | .changes _ | .present => true
  | _ => false

structure Console.Agrees (c d : Console) : Prop where
  machine : c.machine.Agrees d.machine
  held : d.held = c.held

namespace Console.Agrees

theorem refl (c : Console) : c.Agrees c := ⟨.refl _, rfl⟩

variable {c d : Console} (h : c.Agrees d)
include h

theorem symm : d.Agrees c := ⟨h.machine.symm, h.held.symm⟩

theorem trans {e : Console} (he : d.Agrees e) : c.Agrees e :=
  ⟨h.machine.trans he.machine, he.held.trans h.held⟩

theorem setMachine {m n : Machine} (hm : m.Agrees n) :
    Agrees { c with machine := m } { d with machine := n } := ⟨hm, h.held⟩

theorem perform {a : Action} (ha : a.observes = false) :
    (c.perform a).console.Agrees (d.perform a).console ∧
      (d.perform a).answer = (c.perform a).answer ∧
      (d.perform a).events = (c.perform a).events := by
  have hm := h.machine
  cases a with
  | load program =>
    by_cases hp : programCapacity < program.length
    · rw [perform_load_of_lt hp, perform_load_of_lt hp]
      exact ⟨h, rfl, rfl⟩
    · rw [perform_load_of_not_lt hp, perform_load_of_not_lt hp]
      exact ⟨h.setMachine (hm.place _), rfl, rfl⟩
  | step =>
    obtain ⟨hc, he, hf, -⟩ := hm.cycle
    simp only [Console.perform, hf, he, and_self, and_true]
    exact h.setMachine hc
  | run cycles =>
    have hb := hm.run cycles
    exact ⟨h.setMachine hb.machine, hb.answer, congrArg Array.toList hb.events⟩
  | resume key =>
    exact ⟨h.setMachine (hm.resume key), congrArg Answer.flag hm.isAwaiting, hm.resumeEvents key⟩
  | setKey key down => exact ⟨h.setMachine (hm.setKey key down), rfl, rfl⟩
  | clearKeys => exact ⟨h.setMachine hm.clearKeys, rfl, rfl⟩
  | press key =>
    cases hk : key.padIndex? with
    | none =>
      rw [perform_press_none hk, perform_press_none hk]
      exact ⟨h, rfl, rfl⟩
    | some k =>
      simp only [Console.perform, hk, pressKey, h.held, hm.resumeEvents, and_self, and_true]
      exact ⟨(hm.setKey k true).resume _, rfl⟩
  | tick =>
    simp only [Console.perform, Console.tick, h.held, and_self, and_true]
    exact ⟨hm.setKeys _, rfl⟩
  | takeDrawFlag | nextFrame | changes pixels | present => cases ha

omit h in
theorem perform_of_observes {a : Action} (ha : a.observes = true) :
    c.Agrees (c.perform a).console := by
  have hmachine := c.perform_machine a
  have hheld := c.perform_held a
  cases a with
  | takeDrawFlag | nextFrame | changes pixels | present =>
    refine ⟨?_, hheld⟩
    rw [hmachine]
    rfl
  | _ => cases ha

end Console.Agrees

/-- What can be done from outside: an action on the console, or a look at its machine. -/
inductive Call where
  | act (a : Action)
  | soundCue
  | pixel (x y : Nat)
  | read (address : UInt16)
  | readWord (address : UInt16)

inductive Returned where
  | reply (answer : Answer) (events : List Event)
  | truth (b : Bool)
  | byte (v : UInt8)
  | word (w : UInt16)
  deriving DecidableEq

def Call.observes : Call → Bool
  | act a => a.observes
  | _ => true

namespace Console

def call (c : Console) : Call → Console × Returned
  | .act a => ((c.perform a).console, .reply (c.perform a).answer (c.perform a).events)
  | .soundCue => (c, .truth c.machine.beep)
  | .pixel x y => (c, .truth (c.machine.pixel x y))
  | .read address => (c, .byte (c.machine.read address))
  | .readWord address => (c, .word (c.machine.readWord address))

def afterCalls : Console → List Call → Console
  | c, [] => c
  | c, k :: rest => (c.call k).1.afterCalls rest

def heard : Console → List Call → List Returned
  | _, [] => []
  | c, k :: rest =>
    if k.observes then (c.call k).1.heard rest else (c.call k).2 :: (c.call k).1.heard rest

namespace Agrees

variable {c d : Console}

theorem call_of_observes {k : Call} (hk : k.observes = true) : c.Agrees (c.call k).1 := by
  cases k with
  | act a => exact perform_of_observes hk
  | _ => exact refl c

theorem call (h : c.Agrees d) {k : Call} (hk : k.observes = false) :
    (c.call k).1.Agrees (d.call k).1 ∧ (d.call k).2 = (c.call k).2 := by
  cases k with
  | act a =>
    obtain ⟨hc, ha, he⟩ := h.perform hk
    exact ⟨hc, congrArg₂ Returned.reply ha he⟩
  | _ => cases hk

theorem heard_filter (h : c.Agrees d) (ks : List Call) :
    d.heard (ks.filter (!·.observes)) = c.heard ks ∧
      (c.afterCalls ks).Agrees (d.afterCalls (ks.filter (!·.observes))) := by
  induction ks generalizing c d with
  | nil => exact ⟨rfl, h⟩
  | cons k ks ih =>
    cases hk : k.observes with
    | true =>
      have hself : (c.call k).1.Agrees d := (call_of_observes hk).symm.trans h
      simpa [heard, hk, afterCalls] using ih hself
    | false =>
      obtain ⟨hc, hr⟩ := h.call hk
      obtain ⟨hheard, hafter⟩ := ih hc
      simpa [heard, hk, afterCalls, hr, hheard] using hafter

end Agrees

/-- Looking at a machine, and the marks that are kept for those who look, have no influence on what the
other calls return. -/
theorem observers_change_nothing {c d : Console} (h : c.Agrees d) {as bs : List Call}
    (hcalls : as.filter (!·.observes) = bs.filter (!·.observes)) :
    c.heard as = d.heard bs ∧ (c.afterCalls as).Agrees (d.afterCalls bs) := by
  obtain ⟨hheard, hafter⟩ := h.heard_filter as
  obtain ⟨hheard', hafter'⟩ := (Agrees.refl d).heard_filter bs
  rw [← hcalls] at hheard' hafter'
  exact ⟨hheard.symm.trans hheard', hafter.trans hafter'.symm⟩

/-- A program that beeps and draws, watched by a renderer and a debugger in one of the runs and started
with stale marks in the other. -/
theorem observers_change_nothing_watched :
    let c := fresh (.ofSeed 3) 6
    let d : Console := ⟨c.machine.marked 0xFFFF true true, c.held, .showing c.machine.pixels⟩
    let program := [0x60, 0x01, 0xF0, 0x18, 0xD0, 0x05, 0xF1, 0x0A, 0x00, 0x00]
    let watched : List Call :=
      [.act (.load program), .act .present, .read 0x200, .act (.run 9), .soundCue, .pixel 1 0,
        .act .nextFrame, .act (.press (.char '7')), .readWord 0x208, .act .step]
    let unwatched : List Call :=
      [.act (.load program), .act (.run 9), .act (.press (.char '7')), .act .takeDrawFlag, .act .step]
    c.Agrees d ∧
      watched.filter (!·.observes) = unwatched.filter (!·.observes) ∧
      c.heard watched = d.heard unwatched ∧
      (c.afterCalls watched).Agrees (d.afterCalls unwatched) := by
  intro c d program watched unwatched
  have h : c.Agrees d := ⟨c.machine.agrees_marked _ _ _, rfl⟩
  have hcalls : watched.filter (!·.observes) = unwatched.filter (!·.observes) := rfl
  exact ⟨h, hcalls, observers_change_nothing h hcalls⟩

end Console

end Chip8
