import Chip8.Proofs.Cycle
import Chip8.Proofs.History

/-!
# Calls and returns

The stack is a ring of sixteen slots: a call that finds it full overwrites the oldest entry, and
neither a call nor a return can fail. It is compared here with the list of the calls that are still
open, the innermost first, which is read off what a history reports. The ring keeps the sixteen
innermost of them, whatever the pointer was at first, and a return goes to the call at the head.
-/

set_option autoImplicit false

namespace Chip8

namespace Event

def isCall : Event → Bool
  | executing _ _ (.call _) => true
  | _ => false

def isReturn : Event → Bool
  | executing _ _ .ret => true
  | _ => false

def follow (enter : UInt16 → List UInt16 → List UInt16) (calls : List UInt16) :
    Event → List UInt16
  | executing pc _ (.call _) => enter pc calls
  | executing _ _ .ret => calls.tail
  | _ => calls

end Event

def openCalls (events : List Event) : List UInt16 := events.foldl (Event.follow List.cons) []

def enterKept (pc : UInt16) (calls : List UInt16) : List UInt16 := (pc :: calls).take 16

def keptCalls (events : List Event) : List UInt16 := events.foldl (Event.follow enterKept) []

def Quiet (events : List Event) : Prop := ∀ e ∈ events, e.isCall = false ∧ e.isReturn = false

theorem follow_of_quiet (enter : UInt16 → List UInt16 → List UInt16) (calls : List UInt16)
    {e : Event} (h : e.isCall = false ∧ e.isReturn = false) : e.follow enter calls = calls := by
  unfold Event.follow
  split
  · simp [Event.isCall] at h
  · simp [Event.isReturn] at h
  · rfl

theorem foldl_follow_of_quiet (enter : UInt16 → List UInt16 → List UInt16)
    (calls : List UInt16) {events : List Event} (h : Quiet events) :
    events.foldl (Event.follow enter) calls = calls := by
  induction events with
  | nil => rfl
  | cons e events ih =>
    rw [List.foldl_cons, follow_of_quiet enter calls (h e (by simp))]
    exact ih fun f hf => h f (by simp [hf])

theorem quiet_append {es rest : List Event} : Quiet (es ++ rest) ↔ Quiet es ∧ Quiet rest :=
  List.forall_mem_append

theorem foldl_kept_eq_open {events : List Event} {calls : List UInt16}
    (h : ∀ es, es <+: events → (es.foldl (Event.follow List.cons) calls).length ≤ 16) :
    events.foldl (Event.follow enterKept) calls = events.foldl (Event.follow List.cons) calls := by
  induction events generalizing calls with
  | nil => rfl
  | cons e events ih =>
    have he : e.follow enterKept calls = e.follow List.cons calls := by
      have hl := h [e] (by simp)
      unfold Event.follow at hl ⊢
      split
      · exact List.take_of_length_le hl
      · rfl
      · rfl
    rw [List.foldl_cons, List.foldl_cons, he]
    exact ih fun es hes => h (e :: es) (by simpa using hes)

namespace Machine

/-- The entry `k` slots below the pointer, the newest one being at 0. -/
def entry (m : Machine) (k : Nat) : UInt16 := m.slot ((m.sp + 15 - k) % 16)

structure Holds (m : Machine) (calls : List UInt16) : Prop where
  length_le : calls.length ≤ 16
  entry_eq : ∀ k pc, calls[k]? = some pc → m.entry k = pc

theorem entry_push_zero {m : Machine} (h : m.sp < 16) (a : UInt16) : (m.push a).entry 0 = a :=
  ((m.push a).top_eq_slot).symm.trans (top_push m a h)

theorem entry_push_succ {m : Machine} (h : m.sp < 16) (a : UInt16) {k : Nat} (hk : k < 15) :
    (m.push a).entry (k + 1) = m.entry k := by
  have hs : ((m.push a).sp + 15 - (k + 1)) % 16 = (m.sp + 15 - k) % 16 := by
    simp only [push]
    omega
  have hn : ¬ (m.sp = (m.sp + 15 - k) % 16 ∧ (m.sp + 15 - k) % 16 < 16) := by omega
  rw [entry, hs, slot_push, if_neg hn, entry]

theorem entry_pop {m : Machine} {k : Nat} (hk : k < 15) : m.pop.entry k = m.entry (k + 1) := by
  have hs : (m.pop.sp + 15 - k) % 16 = (m.sp + 15 - (k + 1)) % 16 := by
    simp only [pop]
    omega
  rw [entry, hs]
  rfl

theorem Holds.push {m : Machine} {calls : List UInt16} (h : m.Holds calls) (hs : m.sp < 16)
    (a : UInt16) : (m.push a).Holds (enterKept a calls) := by
  constructor
  · rw [enterKept, List.length_take]
    omega
  · intro k pc hk
    rw [enterKept, List.getElem?_take] at hk
    split at hk
    case isFalse => simp at hk
    case isTrue hlt =>
      cases k with
      | zero => simpa [entry_push_zero hs] using hk
      | succ k =>
        rw [entry_push_succ hs a (by omega)]
        exact h.entry_eq k pc (by simpa using hk)

theorem Holds.pop {m : Machine} {calls : List UInt16} (h : m.Holds calls) :
    m.pop.Holds calls.tail := by
  have hl := h.length_le
  constructor
  · simp
    omega
  · intro k pc hk
    rw [List.getElem?_tail] at hk
    have hlt := (List.getElem?_eq_some_iff.mp hk).1
    rw [entry_pop (by omega)]
    exact h.entry_eq (k + 1) pc hk

theorem Holds.of_eq {m n : Machine} {calls : List UInt16} (h : m.Holds calls)
    (hs : n.sp = m.sp) (ht : n.stack = m.stack) : n.Holds calls := by
  refine ⟨h.length_le, fun k pc hk => ?_⟩
  rw [entry, slot, hs, ht]
  exact h.entry_eq k pc hk

theorem Holds.top_eq {m : Machine} {pc : UInt16} {rest : List UInt16}
    (h : m.Holds (pc :: rest)) : m.top = pc :=
  m.top_eq_slot.trans (h.entry_eq 0 pc rfl)

/-- Pointer and ring after a history that began with the pointer at `start`. -/
structure Follows (m : Machine) (start : Nat) (events : List Event) : Prop where
  sp_lt : m.sp < 16
  sp_eq : (m.sp : Int) =
    (start + events.countP Event.isCall - events.countP Event.isReturn) % 16
  holds : m.Holds (keptCalls events)

theorem Follows.start {m : Machine} (h : m.sp < 16) : m.Follows m.sp [] where
  sp_lt := h
  sp_eq := by simp only [List.countP_nil]; omega
  holds := ⟨by simp [keptCalls], fun k pc hk => by simp [keptCalls] at hk⟩

theorem Follows.quiet {start : Nat} {events rest : List Event} {m n : Machine}
    (h : m.Follows start events) (hq : Quiet rest) (hs : n.sp = m.sp) (ht : n.stack = m.stack) :
    n.Follows start (events ++ rest) where
  sp_lt := hs ▸ h.sp_lt
  sp_eq := by
    have hc : rest.countP Event.isCall = 0 := List.countP_eq_zero.mpr fun e he => by simp [hq e he]
    have hr : rest.countP Event.isReturn = 0 :=
      List.countP_eq_zero.mpr fun e he => by simp [hq e he]
    rw [List.countP_append, List.countP_append, hc, hr, hs]
    exact h.sp_eq
  holds := by
    rw [keptCalls, List.foldl_append, foldl_follow_of_quiet _ _ hq]
    exact h.holds.of_eq hs ht

theorem Follows.executing {start : Nat} {events : List Event} {m : Machine}
    (h : m.Follows start events) (w : UInt16) (i : Instruction) :
    (m.carryOut i).Follows start (events ++ [.executing m.pc w i]) := by
  have hsp := m.carryOut_sp i
  have hstack := m.carryOut_stack i
  have heq := h.sp_eq
  cases i with
  | call nnn =>
    refine ⟨by rw [hsp]; exact Nat.mod_lt _ (by decide), ?_, ?_⟩
    · simp only [hsp, List.countP_append, List.countP_singleton, Event.isCall, Event.isReturn]
      push_cast
      omega
    · rw [keptCalls, List.foldl_append]
      exact (h.holds.push h.sp_lt m.pc).of_eq hsp hstack
  | ret =>
    refine ⟨by rw [hsp]; exact Nat.mod_lt _ (by decide), ?_, ?_⟩
    · simp only [hsp, List.countP_append, List.countP_singleton, Event.isCall, Event.isReturn]
      push_cast
      omega
    · rw [keptCalls, List.foldl_append]
      exact h.holds.pop.of_eq hsp hstack
  | _ => exact h.quiet (by simp [Quiet, Event.isCall, Event.isReturn]) hsp hstack

theorem quiet_notices (i : Instruction) : Quiet (notices i) := by
  unfold notices
  split <;> simp [Quiet, Event.isCall, Event.isReturn]

theorem quiet_cue (m : Machine) (pc : UInt16) : Quiet (m.cue pc) := by
  unfold cue
  split <;> simp [Quiet, Event.isCall, Event.isReturn]

theorem Follows.cycle {start : Nat} {events : List Event} {m : Machine}
    (h : m.Follows start events) : m.cycle.machine.Follows start (events ++ m.cycle.events) := by
  rcases m.cycle_cases with ⟨x, hx⟩ | ⟨hr, hd⟩ | ⟨hr, i, hd⟩
  · rw [cycle_of_awaiting hx]
    exact h.quiet (by simp [Quiet]) rfl rfl
  · rw [cycle_of_unknown hr hd]
    exact h.quiet (by simp [Quiet, Event.isCall, Event.isReturn]) rfl rfl
  · have hq := quiet_append.mpr ⟨quiet_notices i, quiet_cue (m.carryOut i) m.pc⟩
    have hf := (h.executing (m.readWord m.pc) i).quiet hq rfl rfl
    rw [cycle_of_decoded hr hd]
    rwa [List.append_assoc] at hf

theorem cycle_frame {m : Machine} (h : Quiet m.cycle.events) :
    m.cycle.machine.sp = m.sp ∧ m.cycle.machine.stack = m.stack := by
  rcases m.cycle_cases with ⟨x, hx⟩ | ⟨hr, hd⟩ | ⟨hr, i, hd⟩
  · rw [cycle_of_awaiting hx]
    exact ⟨rfl, rfl⟩
  · rw [cycle_of_unknown hr hd]
    exact ⟨rfl, rfl⟩
  · rw [cycle_of_decoded hr hd] at h ⊢
    have hi := h (.executing m.pc (m.readWord m.pc) i) (by simp [carryOutEvents])
    have hsp := m.carryOut_sp i
    have hstack := m.carryOut_stack i
    cases i with
    | call nnn => simp [Event.isCall] at hi
    | ret => simp [Event.isReturn] at hi
    | _ => exact ⟨hsp, hstack⟩

theorem run_frame {m : Machine} {n : Nat} (h : Quiet (m.run n).events.toList) :
    (m.run n).machine.sp = m.sp ∧ (m.run n).machine.stack = m.stack := by
  refine run_reported_invariant (P := fun es k => Quiet es → k.sp = m.sp ∧ k.stack = m.stack)
    ?_ [] (fun _ => ⟨rfl, rfl⟩) n (by simpa using h)
  intro es k ih hq
  rw [quiet_append] at hq
  obtain ⟨hs, ht⟩ := ih hq.1
  obtain ⟨hs', ht'⟩ := cycle_frame hq.2
  exact ⟨hs'.trans hs, ht'.trans ht⟩

theorem cycle_pc_of_return {m : Machine} {pc : UInt16} {rest : List UInt16}
    (h : m.Holds (pc :: rest)) (hr : ∃ e ∈ m.cycle.events, e.isReturn = true) :
    m.cycle.machine.pc = pc + 2 := by
  obtain ⟨e, he, hret⟩ := hr
  unfold Event.isReturn at hret
  split at hret
  · obtain ⟨hr, -, rfl, hd⟩ := executing_mem_events.mp he
    rw [cycle_of_decoded hr hd, ← h.top_eq]
    rfl
  · cases hret

def calling (m : Machine) : Machine :=
  { (((m.write 0x200 0x22).write 0x201 0x04).write 0x204 0x00).write 0x205 0xEE with
    pc := 0x200, sp := 15, mode := .running }

theorem calling_cycle (m : Machine) :
    m.calling.cycle =
      ⟨m.calling.carryOut (.call 0x204), m.calling.carryOutEvents (.call 0x204), none⟩ := by
  have hw : m.calling.readWord 0x200 = 0x2204 := by
    change ((((m.write 0x200 0x22).write 0x201 0x04).write 0x204 0x00).write 0x205 0xEE).readWord
      0x200 = _
    simp [readWord, read_write, cellOf, Word.ofBytes]
  exact cycle_of_decoded rfl (by rw [show m.calling.pc = 0x200 from rfl, hw]; decide)

theorem called_cycle (m : Machine) :
    (m.calling.carryOut (.call 0x204)).cycle.events =
      (m.calling.carryOut (.call 0x204)).carryOutEvents .ret := by
  have hw : (m.calling.carryOut (.call 0x204)).readWord 0x204 = 0x00EE := by
    change ((((m.write 0x200 0x22).write 0x201 0x04).write 0x204 0x00).write 0x205 0xEE).readWord
      0x204 = _
    simp [readWord, read_write, cellOf, Word.ofBytes]
  rw [cycle_of_decoded (i := .ret) rfl
    (by rw [show (m.calling.carryOut (.call 0x204)).pc = 0x204 from rfl, hw]; decide)]

theorem calling_kept (m : Machine) : keptCalls m.calling.cycle.events = [0x200] := by
  have hq := m.calling.carryOut (.call 0x204) |>.quiet_cue 0x200
  rw [calling_cycle]
  exact foldl_follow_of_quiet enterKept [0x200] hq

theorem called_returns (m : Machine) : ∃ e ∈ m.calling.cycle.machine.cycle.events,
    e.isReturn = true := by
  rw [calling_cycle, called_cycle]
  exact ⟨_, List.mem_cons_self, rfl⟩

theorem quiet_resumeEvents (m : Machine) (key : UInt8) : Quiet (m.resumeEvents key) := by
  unfold resumeEvents
  split <;> simp [Quiet, Event.isCall, Event.isReturn]

end Machine

namespace Console

theorem perform_frame (c : Console) (a : Action) (h : Quiet (c.perform a).events) :
    (c.perform a).console.machine.sp = c.machine.sp ∧
      (c.perform a).console.machine.stack = c.machine.stack := by
  have hother : a.hasCycles = false → (c.perform a).console.machine.sp = c.machine.sp ∧
      (c.perform a).console.machine.stack = c.machine.stack := by
    intro ha
    rw [c.perform_rest ha]
    exact ⟨rfl, rfl⟩
  cases a with
  | step => exact Machine.cycle_frame h
  | run cycles => exact Machine.run_frame h
  | _ => exact hother rfl

theorem quiet_events {c : Console} {a : Action} (ha : a.hasCycles = false) :
    Quiet (c.perform a).events := by
  cases a with
  | load program =>
    by_cases h : programCapacity < program.length
    · simp [perform_load_of_lt h, Quiet]
    · simp [perform_load_of_not_lt h, Quiet, Event.isCall, Event.isReturn]
  | step => cases ha
  | run n => cases ha
  | resume key => exact c.machine.quiet_resumeEvents key
  | press key =>
    cases h : key.padIndex? with
    | some k =>
      simp only [perform, h, pressKey]
      exact c.machine.quiet_resumeEvents _
    | none => simp [perform, h, Quiet]
  | _ => simp [perform, Quiet]

theorem follows_perform {start : Nat} {events : List Event} {c : Console}
    (h : c.machine.Follows start events) (a : Action) :
    (c.perform a).console.machine.Follows start (events ++ (c.perform a).events) := by
  have hother : a.hasCycles = false →
      (c.perform a).console.machine.Follows start (events ++ (c.perform a).events) := by
    intro ha
    have hq : Quiet (c.perform a).events := quiet_events ha
    obtain ⟨hsp, hstack⟩ := c.perform_frame a hq
    exact h.quiet hq hsp hstack
  cases a with
  | step => exact h.cycle
  | run n =>
    exact Machine.run_reported_invariant (P := fun es m => m.Follows start es)
      (fun _ _ hm => hm.cycle) events h n
  | _ => exact hother rfl

theorem follows_after {c : Console} (h : c.machine.sp < 16) (as : List Action) :
    (c.after as).machine.Follows c.machine.sp (c.reported as) :=
  reported_invariant (P := fun es d => d.machine.Follows c.machine.sp es)
    (fun _ _ a hd => follows_perform hd a) [] (.start h) as

/-- The ring forgets the oldest of more than sixteen open calls, so a return goes behind the innermost
call that is kept; that is its own call where no more than sixteen were ever open. -/
theorem returns_follow_calls (c : Console) (hsp : c.machine.sp < 16) (as : List Action) :
    let d := c.after as
    let events := c.reported as
    let next := d.perform .step
    (d.machine.sp < 16 ∧
      (d.machine.sp : Int) = (c.machine.sp + events.countP Event.isCall -
        events.countP Event.isReturn) % 16) ∧
    ((∃ e ∈ next.events, e.isReturn = true) → ∀ pc rest, keptCalls events = pc :: rest →
      next.console.machine.pc = pc + 2) ∧
    ((∃ e ∈ next.events, e.isReturn = true) →
      (∀ es, es <+: events → (openCalls es).length ≤ 16) → ∀ pc rest, openCalls events = pc :: rest →
      next.console.machine.pc = pc + 2) ∧
    ∀ a, Quiet (d.perform a).events →
      (d.perform a).console.machine.sp = d.machine.sp ∧
        (d.perform a).console.machine.stack = d.machine.stack := by
  intro d events next
  have hf : d.machine.Follows c.machine.sp events := follows_after hsp as
  have hkept : (∃ e ∈ next.events, e.isReturn = true) → ∀ pc rest, keptCalls events = pc :: rest →
      next.console.machine.pc = pc + 2 := by
    intro hr pc rest hk
    exact Machine.cycle_pc_of_return (hk ▸ hf.holds) hr
  refine ⟨⟨hf.sp_lt, hf.sp_eq⟩, hkept, ?_, d.perform_frame⟩
  intro hr hnest pc rest ho
  have he : keptCalls events = openCalls events := foldl_kept_eq_open hnest
  exact hkept hr pc rest (he.trans ho)

theorem returns_follow_calls_calling :
    let c : Console := ⟨(Machine.fresh (.ofSeed 7)).calling, .ofHold 6, .blank⟩
    c.machine.sp < 16 ∧ ((c.after [.step]).perform .step).console.machine.pc = 0x202 := by
  intro c
  have hk : keptCalls (c.reported [.step]) = [0x200] := by
    rw [reported_step]
    exact Machine.calling_kept (Machine.fresh (.ofSeed 7))
  have hr : ∃ e ∈ ((c.after [.step]).perform .step).events, e.isReturn = true := by
    rw [events_step_step]
    exact Machine.called_returns (Machine.fresh (.ofSeed 7))
  have hpc := (returns_follow_calls c (by decide) [.step]).2.1 hr 0x200 [] hk
  exact ⟨by decide, hpc.trans (by decide)⟩

end Console

end Chip8
