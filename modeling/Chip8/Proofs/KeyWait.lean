import Chip8.Proofs.Batch
import Chip8.Proofs.Decoding
import Chip8.Proofs.History
import Chip8.Proofs.Loading

/-!
# Waiting for a key

A machine that executes the wait for a key stands still from then on: no cycle touches it, and of all
that is done to it from outside only its keys and its draw flag take notice. The first key that is
handed to it, or pressed, goes into the register that it waits for, and it runs again. Until it comes
to the next wait, further keys are not taken.
-/

set_option autoImplicit false

namespace Chip8

/-- Whether an action leaves a waiting machine waiting, with the program that it has. -/
def Action.isIdle : Action → Bool
  | .load _ | .resume _ => false
  | .press key => key.padIndex?.isNone
  | _ => true

def Action.wakes : Action → Bool
  | .resume _ => true
  | .press key => key.padIndex?.isSome
  | _ => false

def Event.isWait : Event → Bool
  | executing _ _ (.awaitKey _) => true
  | _ => false

namespace Machine

theorem cycle_of_awaitKey {m : Machine} {x : Nat} (hmode : m.mode = .running)
    (hword : Instruction.decode? (m.readWord m.pc) = some (.awaitKey x)) :
    m.cycle.fault = none ∧ m.cycle.machine.pc = m.pc + 2 ∧
      m.cycle.machine.mode = .awaitingKey x := by
  rw [cycle_of_decoded hmode hword]
  exact ⟨rfl, rfl, rfl⟩

theorem cycle_running {m : Machine} {es : List Event}
    (h : es.any Event.isWait = false → m.mode = .running)
    (hes : (es ++ m.cycle.events).any Event.isWait = false) : m.cycle.machine.mode = .running := by
  rw [List.any_append, Bool.or_eq_false_iff] at hes
  have hr := h hes.1
  cases hd : Instruction.decode? (m.readWord m.pc) with
  | none =>
    rw [cycle_of_unknown hr hd]
    exact hr
  | some i =>
    rw [cycle_of_decoded hr hd] at hes ⊢
    refine (m.carryOut_mode i).trans ?_
    cases i with
    | awaitKey x => cases hes.2
    | _ => exact hr

theorem resume_of_running {m : Machine} (h : m.mode = .running) (key : UInt8) :
    m.resume key = m := by
  simp only [resume, h]

theorem resumeEvents_of_running {m : Machine} (h : m.mode = .running) (key : UInt8) :
    m.resumeEvents key = [] := by
  simp only [resumeEvents, h]

theorem resume_of_awaiting {m : Machine} {x : Nat} (h : m.mode = .awaitingKey x) (key : UInt8) :
    m.resume key = { m with
      registers := m.registers.setIfInBounds x (key % 16)
      mode := .running } := by
  simp only [resume, h]
  rfl

theorem resumeEvents_of_awaiting {m : Machine} {x : Nat} (h : m.mode = .awaitingKey x)
    (key : UInt8) : m.resumeEvents key = [.resumed (key % 16) x] := by
  simp only [resumeEvents, h]

end Machine

theorem ofNat_mod_sixteen (k : Fin 16) : UInt8.ofNat k % 16 = UInt8.ofNat k := by
  revert k
  decide

namespace Console

variable {c : Console} {x : Nat}

section Waiting

variable (h : c.machine.mode = .awaitingKey x)

include h

theorem perform_step_of_awaiting : c.perform .step = ⟨c, .done, []⟩ := by
  simp only [perform, Machine.cycle_of_awaiting h]

theorem perform_run_of_awaiting (n : Nat) : c.perform (.run n) = ⟨c, .ran 0 false, []⟩ := by
  have hr : c.machine.run n = .start c.machine :=
    Machine.run_of_isAwaiting (c.machine.isAwaiting_iff.mpr ⟨x, h⟩) n
  simp only [perform, hr]
  rfl

theorem perform_resume_of_awaiting (key : UInt8) :
    c.perform (.resume key) =
      ⟨{ c with machine := { c.machine with
          registers := c.machine.registers.setIfInBounds x (key % 16)
          mode := .running } }, .flag true, [.resumed (key % 16) x]⟩ := by
  have ha : c.machine.isAwaiting = true := c.machine.isAwaiting_iff.mpr ⟨x, h⟩
  simp only [perform, Machine.resume_of_awaiting h, Machine.resumeEvents_of_awaiting h, ha]

theorem perform_press_of_awaiting {key : Key} {k : Fin 16} (hk : key.padIndex? = some k) :
    c.perform (.press key) =
      ⟨{ c with
          machine := { c.machine with
            registers := c.machine.registers.setIfInBounds x (UInt8.ofNat k)
            mode := .running
            keys := c.machine.keys.setIfInBounds k 1 }
          held := c.held.press k }, .key (some k), [.resumed (UInt8.ofNat k) x]⟩ := by
  have hset : (c.machine.setKey k true).mode = .awaitingKey x := h
  simp only [perform, hk, pressKey, Machine.resume_of_awaiting hset,
    Machine.resumeEvents_of_awaiting h, ofNat_mod_sixteen]
  rfl

theorem perform_idle {a : Action} (ha : a.isIdle = true) :
    (c.perform a).console.machine = { c.machine with
      keys := (c.perform a).console.machine.keys
      drawFlag := (c.perform a).console.machine.drawFlag } := by
  cases a with
  | load program => cases ha
  | resume key => cases ha
  | step => rw [perform_step_of_awaiting h]
  | run n => rw [perform_run_of_awaiting h]
  | press key => rw [perform_press_none (Option.isNone_iff_eq_none.mp ha)]
  | nextFrame | present =>
    rw [perform_machine]
    rfl
  | _ => rfl

theorem after_idle {as : List Action} (has : ∀ a ∈ as, a.isIdle = true) :
    (c.after as).machine = { c.machine with
      keys := (c.after as).machine.keys
      drawFlag := (c.after as).machine.drawFlag } :=
  after_keeps (Q := fun m => m.mode = .awaitingKey x) (fun _ _ _ hm => hm)
    (fun _ _ ha hm => perform_idle hm ha) h has

end Waiting

section Running

variable (h : c.machine.mode = .running)

include h

theorem perform_resume_of_running (key : UInt8) :
    c.perform (.resume key) = ⟨c, .flag false, []⟩ := by
  have ha : c.machine.isAwaiting = false := Machine.isAwaiting_of_running h
  simp only [perform, Machine.resume_of_running h, Machine.resumeEvents_of_running h, ha]

theorem perform_press_of_running {key : Key} {k : Fin 16} (hk : key.padIndex? = some k) :
    c.perform (.press key) =
      ⟨{ c with machine := c.machine.setKey k true, held := c.held.press k },
        .key (some k), []⟩ := by
  have hset : (c.machine.setKey k true).mode = .running := h
  simp only [perform, hk, pressKey, Machine.resume_of_running hset,
    Machine.resumeEvents_of_running h]

end Running

theorem perform_running {es : List Event}
    (h : es.any Event.isWait = false → c.machine.mode = .running) (a : Action)
    (hes : (es ++ (c.perform a).events).any Event.isWait = false) :
    (c.perform a).console.machine.mode = .running := by
  have hr : c.machine.mode = .running := by
    rw [List.any_append, Bool.or_eq_false_iff] at hes
    exact h hes.1
  cases a with
  | step => exact Machine.cycle_running h hes
  | run n =>
    exact Machine.run_reported_invariant
      (P := fun es m => es.any Event.isWait = false → m.mode = .running)
      (fun _ _ => Machine.cycle_running) es h n hes
  | load program =>
    rw [perform_machine]
    dsimp only
    split <;> exact hr
  | resume key =>
    rw [perform_resume_of_running hr]
    exact hr
  | press key =>
    cases hk : key.padIndex? with
    | none =>
      rw [perform_press_none hk]
      exact hr
    | some k =>
      rw [perform_press_of_running hr hk]
      exact hr
  | _ =>
    rw [perform_machine]
    exact hr

theorem after_running (h : c.machine.mode = .running) {as : List Action}
    (has : (c.reported as).any Event.isWait = false) : (c.after as).machine.mode = .running :=
  reported_invariant (P := fun es c => es.any Event.isWait = false → c.machine.mode = .running)
    (fun _ _ a hc => perform_running hc a) [] (fun _ => h) as has

theorem perform_wakes (h : c.machine.mode = .awaitingKey x) {a : Action} (ha : a.wakes = true) :
    (c.perform a).console.machine.mode = .running := by
  cases a with
  | resume key => rw [perform_resume_of_awaiting h]
  | press key =>
    obtain ⟨k, hk⟩ := Option.isSome_iff_exists.mp ha
    rw [perform_press_of_awaiting h hk]
  | _ => cases ha

/-- Until a key is handed over, a waiting machine changes in its keys and its draw flag at most. The
first key is taken, and no further one as long as no other wait is executed. -/
theorem key_wait (hmode : c.machine.mode = .running)
    (hword : Instruction.decode? (c.machine.readWord c.machine.pc) = some (.awaitKey x))
    {as : List Action} (has : ∀ a ∈ as, a.isIdle = true) :
    let w := c.perform .step
    let d := w.console.after as
    (w.answer = .done ∧ w.console.machine.pc = c.machine.pc + 2 ∧
      w.console.machine.mode = .awaitingKey x ∧ x < 16) ∧
    (d.perform .step = ⟨d, .done, []⟩ ∧ (∀ n, d.perform (.run n) = ⟨d, .ran 0 false, []⟩) ∧
      d.machine = { w.console.machine with
        keys := d.machine.keys
        drawFlag := d.machine.drawFlag }) ∧
    (∀ key, d.perform (.resume key) =
      ⟨{ d with machine := { d.machine with
          registers := d.machine.registers.setIfInBounds x (key % 16)
          mode := .running } }, .flag true, [.resumed (key % 16) x]⟩) ∧
    (∀ (key : Key) (k : Fin 16), key.padIndex? = some k → d.perform (.press key) =
      ⟨{ d with
          machine := { d.machine with
            registers := d.machine.registers.setIfInBounds x (UInt8.ofNat k)
            mode := .running
            keys := d.machine.keys.setIfInBounds k 1 }
          held := d.held.press k }, .key (some k), [.resumed (UInt8.ofNat k) x]⟩) ∧
    ∀ a bs, a.wakes = true → ((d.perform a).console.reported bs).any Event.isWait = false →
      let e := (d.perform a).console.after bs
      e.machine.mode = .running ∧
      (∀ key, e.perform (.resume key) = ⟨e, .flag false, []⟩) ∧
      ∀ key, e.perform (.press key) =
        match key.padIndex? with
        | some k => ⟨{ e with machine := e.machine.setKey k true, held := e.held.press k },
            .key (some k), []⟩
        | none => ⟨e, .key none, []⟩ := by
  intro w d
  obtain ⟨hfault, hpc, hwait⟩ := Machine.cycle_of_awaitKey hmode hword
  have hx : x < 16 := Instruction.register_lt_of_decode? hword x (by simp [Instruction.registers])
  have hanswer : w.answer = .done := by simp only [w, perform, hfault]
  have hd : d.machine = { w.console.machine with
      keys := d.machine.keys
      drawFlag := d.machine.drawFlag } := after_idle hwait has
  have hdwait : d.machine.mode = .awaitingKey x := (congrArg Machine.mode hd).trans hwait
  refine ⟨⟨hanswer, hpc, hwait, hx⟩,
    ⟨perform_step_of_awaiting hdwait, perform_run_of_awaiting hdwait, hd⟩,
    perform_resume_of_awaiting hdwait, fun _ _ => perform_press_of_awaiting hdwait, ?_⟩
  intro a bs ha hbs e
  have he : e.machine.mode = .running := after_running (perform_wakes hdwait ha) hbs
  refine ⟨he, perform_resume_of_running he, fun key => ?_⟩
  cases hk : key.padIndex? with
  | none => exact perform_press_none hk e
  | some k => exact perform_press_of_running he hk

def keyWaiting (tape : Tape) : Console :=
  ⟨(Machine.fresh tape).loaded [0xF5, 0x0A], .ofHold 6, .blank⟩

theorem decode?_keyWaiting (tape : Tape) :
    Instruction.decode? ((keyWaiting tape).machine.readWord (keyWaiting tape).machine.pc) =
      some (.awaitKey 5) := by
  have hw : (keyWaiting tape).machine.readWord (UInt16.ofNat programStart) = 0xF50A :=
    Machine.readWord_loaded (Machine.fresh tape) (k := 0)
      (show [0xF5, 0x0A][0]? = some 0xF5 from rfl) (show [0xF5, 0x0A][0 + 1]? = some 0x0A from rfl)
      (by decide)
  rw [show (keyWaiting tape).machine.pc = UInt16.ofNat programStart from rfl, hw]
  decide

/-- The key 7 is taken after a batch, a tick and a key that is none of the pad's; the next one is not. -/
theorem key_wait_pressed :
    let c := keyWaiting (.ofSeed 1)
    let as := [.run 3, .tick, .press (.char 'q')]
    let e := (((c.perform .step).console.after as).perform (.press (.char '7'))).console
    (c.machine.mode = .running ∧
      Instruction.decode? (c.machine.readWord c.machine.pc) = some (.awaitKey 5) ∧
      ∀ a ∈ as, a.isIdle = true) ∧
      e.machine.register 5 = 7 ∧ e.perform (.resume 8) = ⟨e, .flag false, []⟩ := by
  have has : ∀ a ∈ [Action.run 3, .tick, .press (.char 'q')], a.isIdle = true := by
    decide +kernel
  have hkey : (Key.char '7').padIndex? = some 7 := by decide +kernel
  have hwakes : (Action.press (.char '7')).wakes = true := by decide +kernel
  have hword := decode?_keyWaiting (.ofSeed 1)
  have h := key_wait rfl hword has
  refine ⟨⟨rfl, hword, has⟩, ?_, (h.2.2.2.2 (.press (.char '7')) [] hwakes rfl).2.1 8⟩
  rw [h.2.2.2.1 (.char '7') 7 hkey]
  simp only [Machine.register, Vector.getElem?_setIfInBounds_self]
  rfl

end Console

end Chip8
