import Chip8.Proofs.Cycle
import Mathlib.Logic.Function.Iterate
import Mathlib.Order.Bounds.Basic

/-!
# Batches and single cycles

A batch leaves what the same number of single cycles leaves, although it may end early: a waiting
machine is left alone by further cycles, and a machine that has faulted is left as the fault left
it. So batches can be cut anywhere, and what they report adds up.
-/

set_option autoImplicit false

namespace Chip8

namespace Machine

def cycles (n : Nat) (m : Machine) : Machine := (fun m => m.cycle.machine)^[n] m

theorem cycles_succ (n : Nat) (m : Machine) : m.cycles (n + 1) = m.cycle.machine.cycles n := rfl

theorem cycles_of_fixed {m : Machine} (h : m.cycle.machine = m) (n : Nat) : m.cycles n = m :=
  Function.iterate_fixed h n

theorem cycles_of_isAwaiting {m : Machine} (h : m.isAwaiting = true) (n : Nat) :
    m.cycles n = m :=
  cycles_of_fixed (by rw [cycle_of_isAwaiting h]) n

theorem cycles_of_fault {m : Machine} {f : Fault} (h : m.cycle.fault = some f) (n : Nat) :
    m.cycles (n + 1) = m.cycle.machine :=
  cycles_of_fixed (cycle_of_fault h).1 n

def firstFault (n : Nat) (m : Machine) : Option Fault :=
  (List.range n).findSome? fun k => (m.cycles k).cycle.fault

theorem firstFault_succ (n : Nat) (m : Machine) :
    m.firstFault (n + 1) = m.cycle.fault.or (m.cycle.machine.firstFault n) := by
  simp only [firstFault, List.range_succ_eq_map, List.findSome?_cons, List.findSome?_map]
  cases h : m.cycle.fault with
  | some f => simp [cycles, h]
  | none =>
    simp only [cycles, Function.iterate_zero_apply, h, Option.none_or]
    rfl

theorem firstFault_of_isAwaiting {m : Machine} (h : m.isAwaiting = true) (n : Nat) :
    m.firstFault n = none := by
  rw [firstFault, List.findSome?_eq_none_iff]
  intro k _
  rw [cycles_of_isAwaiting h, cycle_of_isAwaiting h]

/-- The counts of cycles after which the machine waits, as far as there are any below `n`, and `n`
itself. -/
def stops (n : Nat) (m : Machine) : Set Nat := {k | k ≤ n ∧ ((m.cycles k).isAwaiting = true ∨ k = n)}

end Machine

namespace Batch

/-- The second batch does not count after a fault. -/
def followedBy (b c : Batch) : Batch :=
  match b.fault with
  | some _ => b
  | none =>
    { machine := c.machine
      events := b.events ++ c.events
      executed := b.executed + c.executed
      soundCue := b.soundCue || c.soundCue
      fault := c.fault }

theorem followedBy_start {b : Batch} (h : b.fault = none) : b.followedBy (start b.machine) = b := by
  cases b
  cases h
  simp [followedBy, start]

theorem followedBy_of_fault {b : Batch} {f : Fault} (h : b.fault = some f) (c : Batch) :
    b.followedBy c = b := by
  simp only [followedBy, h]

theorem followedBy_assoc (b c d : Batch) :
    (b.followedBy c).followedBy d = b.followedBy (c.followedBy d) := by
  cases hb : b.fault with
  | some f => simp only [followedBy_of_fault hb]
  | none =>
    cases hc : c.fault <;>
      simp [followedBy, hb, hc, Array.append_assoc, Nat.add_assoc, Bool.or_assoc]

theorem advance_eq_followedBy {b : Batch} (h : b.fault = none) :
    b.advance = b.followedBy (start b.machine).advance := by
  have he : b.events ++ b.machine.cycle.events = b.events ++ b.machine.cycle.events.toArray := by
    simp [← Array.toList_inj]
  cases hf : b.machine.cycle.fault <;> simp [advance, followedBy, start, h, hf, he]

theorem ended_start {b : Batch} (h : b.fault = none) : (start b.machine).ended = b.ended := by
  simp [ended, start, h]

theorem extend_eq_followedBy {b : Batch} (h : b.fault = none) (n : Nat) :
    extend n b = b.followedBy (b.machine.run n) := by
  induction n generalizing b with
  | zero => exact (followedBy_start h).symm
  | succ n ih =>
    cases he : b.ended with
    | true =>
      rw [Machine.run, extend_of_ended he, extend_of_ended ((ended_start h).trans he),
        followedBy_start h]
    | false =>
      simp only [Machine.run, extend, he, ended_start h, Bool.false_eq_true, if_false]
      cases hf : b.machine.cycle.fault with
      | some f =>
        have hb : b.advance.ended = true := by simp [ended, advance, hf]
        have hs : (start b.machine).advance.ended = true := by simp [ended, advance, start, hf]
        rw [extend_of_ended hb, extend_of_ended hs, advance_eq_followedBy h]
      | none =>
        have hb : b.advance.fault = none := by simp [advance, hf, h]
        have hs : (start b.machine).advance.fault = none := by simp [advance, start, hf]
        calc extend n b.advance
          _ = b.advance.followedBy (b.advance.machine.run n) := ih hb
          _ = (b.followedBy (start b.machine).advance).followedBy (b.advance.machine.run n) :=
              congrArg (followedBy · _) (advance_eq_followedBy h)
          _ = b.followedBy (extend n (start b.machine).advance) := by
              rw [followedBy_assoc, ih hs]
              simp [start]

end Batch

namespace Machine

theorem run_of_isAwaiting {m : Machine} (h : m.isAwaiting = true) (n : Nat) :
    m.run n = .start m := by
  apply Batch.extend_of_ended
  simp [Batch.ended, Batch.start, h]

theorem run_succ {m : Machine} (h : m.isAwaiting = false) (n : Nat) :
    m.run (n + 1) = (Batch.start m).advance.followedBy (m.cycle.machine.run n) := by
  have he : (Batch.start m).ended = false := by simp [Batch.ended, Batch.start, h]
  rw [run, Batch.extend, he, if_neg Bool.false_ne_true]
  cases hf : m.cycle.fault with
  | some f =>
    have ha : (Batch.start m).advance.fault = some f := by simp [Batch.advance, Batch.start, hf]
    rw [Batch.followedBy_of_fault ha, Batch.extend_of_ended (by simp [Batch.ended, ha])]
  | none =>
    have ha : (Batch.start m).advance.fault = none := by simp [Batch.advance, Batch.start, hf]
    rw [Batch.extend_eq_followedBy ha, Batch.advance_machine]
    rfl

theorem run_machine (m : Machine) (n : Nat) : (m.run n).machine = m.cycles n := by
  induction n generalizing m with
  | zero => rfl
  | succ n ih =>
    cases ha : m.isAwaiting with
    | true => rw [run_of_isAwaiting ha, cycles_of_isAwaiting ha]; rfl
    | false =>
      rw [run_succ ha]
      cases hf : m.cycle.fault with
      | some f =>
        rw [cycles_of_fault hf]
        simp [Batch.followedBy, Batch.advance, Batch.start, hf]
      | none =>
        rw [cycles_succ, ← ih]
        simp [Batch.followedBy, Batch.advance, Batch.start, hf]

theorem run_fault (m : Machine) (n : Nat) : (m.run n).fault = m.firstFault n := by
  induction n generalizing m with
  | zero => rfl
  | succ n ih =>
    cases ha : m.isAwaiting with
    | true => rw [run_of_isAwaiting ha, firstFault_of_isAwaiting ha]; rfl
    | false =>
      rw [run_succ ha, firstFault_succ, ← ih]
      cases hf : m.cycle.fault <;> simp [Batch.followedBy, Batch.advance, Batch.start, hf]

theorem stops_of_isAwaiting {m : Machine} (h : m.isAwaiting = true) (n : Nat) :
    IsLeast (m.stops n) 0 :=
  ⟨⟨Nat.zero_le n, .inl h⟩, fun _ _ => Nat.zero_le _⟩

theorem stops_succ {m : Machine} (h : m.isAwaiting = false) {n k : Nat}
    (hk : IsLeast (m.cycle.machine.stops n) k) : IsLeast (m.stops (n + 1)) (k + 1) := by
  obtain ⟨⟨hkn, hstop⟩, hleast⟩ := hk
  refine ⟨⟨by omega, hstop.imp id (by omega)⟩, ?_⟩
  rintro (_ | j) ⟨hjn, hj⟩
  · rcases hj with hj | hj
    · simp [cycles, h] at hj
    · omega
  · have : k ≤ j := hleast ⟨by omega, hj.imp id (by omega)⟩
    omega

theorem run_executed {m : Machine} {n : Nat} (h : (m.run n).fault = none) :
    IsLeast (m.stops n) (m.run n).executed := by
  induction n generalizing m with
  | zero => exact ⟨⟨le_refl 0, .inr rfl⟩, fun _ _ => Nat.zero_le _⟩
  | succ n ih =>
    cases ha : m.isAwaiting with
    | true =>
      rw [run_of_isAwaiting ha]
      exact stops_of_isAwaiting ha (n + 1)
    | false =>
      rw [run_succ ha] at h ⊢
      cases hf : m.cycle.fault with
      | some f => simp [Batch.followedBy, Batch.advance, Batch.start, hf] at h
      | none =>
        have hr : (m.cycle.machine.run n).fault = none := by
          simpa [Batch.followedBy, Batch.advance, Batch.start, hf] using h
        have he : ((Batch.start m).advance.followedBy (m.cycle.machine.run n)).executed =
            (m.cycle.machine.run n).executed + 1 := by
          simp [Batch.followedBy, Batch.advance, Batch.start, hf, Nat.add_comm]
        rw [he]
        exact stops_succ ha (ih hr)

theorem run_add (m : Machine) (a b : Nat) :
    m.run (a + b) = (m.run a).followedBy ((m.run a).machine.run b) := by
  rw [run, Batch.extend_add]
  cases hf : (m.run a).fault with
  | some f =>
    have he : (m.run a).ended = true := by simp [Batch.ended, hf]
    rw [Batch.followedBy_of_fault hf]
    exact Batch.extend_of_ended he b
  | none => exact Batch.extend_eq_followedBy hf b

/-- A batch ends early only where further cycles would change nothing, so it leaves what single cycles
leave, and it can be cut anywhere. -/
theorem run_agrees_with_cycles (m : Machine) (n : Nat) :
    (m.run n).machine = m.cycles n ∧
    (m.run n).fault = m.firstFault n ∧
    ((m.run n).fault = none → IsLeast (m.stops n) (m.run n).executed) ∧
    ∀ b, m.run (n + b) = (m.run n).followedBy ((m.run n).machine.run b) :=
  ⟨m.run_machine n, m.run_fault n, run_executed, m.run_add n⟩

end Machine

end Chip8
