import Chip8.Proofs.Cycle
import Chip8.Proofs.Decoding
import Chip8.Proofs.History

/-!
# Well-formed consoles

What holds of a console from the first moment on, whatever program is loaded and whatever is done to
it: the stack pointer names a slot, a machine that waits has fetched a key wait for a register that
exists, screen and key cells are 0 or 1, and no key is held for longer than a press holds it.
-/

set_option autoImplicit false

namespace Chip8

def IsBit (v : UInt8) : Prop := v = 0 ∨ v = 1

theorem IsBit.flip {v : UInt8} (h : IsBit v) : IsBit (v ^^^ 1) := by
  rcases h with rfl | rfl
  · exact .inr rfl
  · exact .inl rfl

theorem isBit_ite (condition : Prop) [Decidable condition] :
    IsBit (if condition then 1 else 0) := by
  split
  · exact .inr rfl
  · exact .inl rfl

namespace Pixels

def Clean (pixels : Pixels) : Prop := ∀ c, IsBit (pixels.cell c)

theorem clean_dark : Clean (Vector.replicate 2048 0) := by
  intro c
  left
  simp [cell]

theorem Clean.flip {pixels : Pixels} (h : pixels.Clean) (hit : Bool) (c : Fin 2048) :
    (pixels.flip hit c).1.Clean := by
  intro d
  simp only [Pixels.flip, cell_setCell]
  split
  · exact (h c).flip
  · exact h d

theorem Clean.flipAll {pixels : Pixels} (h : pixels.Clean) (hit : Bool) (cells : List (Fin 2048)) :
    (pixels.flipAll hit cells).1.Clean := by
  induction cells generalizing pixels hit with
  | nil => exact h
  | cons c cells ih => exact ih (h.flip hit c) _

end Pixels

namespace Machine

def keyCell (m : Machine) (k : Nat) : UInt8 := m.keys[k]?.getD 0

structure WellFormed (m : Machine) : Prop where
  sp_lt : m.sp < 16
  awaits : ∀ x, m.mode = .awaitingKey x →
    x < 16 ∧ Instruction.decode? m.opcode = some (.awaitKey x)
  pixels : m.pixels.Clean
  keys : ∀ k, IsBit (m.keyCell k)

theorem wellFormed_fresh (tape : Tape) : (fresh tape).WellFormed where
  sp_lt := Nat.zero_lt_succ 15
  awaits x hx := by cases hx
  pixels := Pixels.clean_dark
  keys k := by
    left
    by_cases hk : k < 16 <;> simp [keyCell, fresh, hk]

theorem keyCell_setKey (m : Machine) (k l : Nat) (down : Bool) :
    (m.setKey k down).keyCell l =
      if k = l ∧ k < 16 then (if down then 1 else 0) else m.keyCell l := by
  simp only [keyCell, setKey, Vector.getElem?_setIfInBounds]
  by_cases h : k = l
  · subst h
    by_cases hk : k < 16 <;> simp [hk]
  · simp [h]

theorem isBit_keyCell_setKeys (m : Machine) (held : HeldKeys) (k : Nat) :
    IsBit ((m.setKeys held).keyCell k) := by
  by_cases hk : k < 16
  · have hc : (m.setKeys held).keyCell k = if 0 < held.remaining[k] then 1 else 0 := by
      simp [keyCell, setKeys, HeldKeys.cells, hk]
    rw [hc]
    exact isBit_ite _
  · left
    simp [keyCell, hk]

namespace WellFormed

variable {m : Machine} (h : m.WellFormed)
include h

theorem of_eq {n : Machine} (hmode : n.mode = m.mode) (hopcode : n.opcode = m.opcode)
    (hsp : n.sp = m.sp) (hpixels : n.pixels = m.pixels) (hkeys : n.keys = m.keys) :
    n.WellFormed where
  sp_lt := hsp ▸ h.sp_lt
  awaits x hx := by
    rw [hopcode]
    exact h.awaits x (hmode ▸ hx)
  pixels := hpixels ▸ h.pixels
  keys k := by
    rw [keyCell, hkeys]
    exact h.keys k

theorem carryOut {i : Instruction} (hr : m.mode = .running)
    (hd : Instruction.decode? (m.readWord m.pc) = some i) : (m.carryOut i).WellFormed where
  sp_lt := by
    have hs := h.sp_lt
    rw [carryOut_sp]
    cases i <;> simp only <;> omega
  awaits x hx := by
    rw [carryOut_mode] at hx
    rw [carryOut_opcode]
    cases i with
    | awaitKey y =>
      cases hx
      exact ⟨Instruction.register_lt_of_decode? hd x (by simp [Instruction.registers]), hd⟩
    | _ => simp [hr] at hx
  pixels := by
    rcases m.carryOut_pixels i with hp | ⟨cells, hp⟩
    · rw [hp]
      exact Pixels.clean_dark
    · rw [hp]
      exact h.pixels.flipAll false cells
  keys k := by
    rw [keyCell, carryOut_keys]
    exact h.keys k

theorem fault (hr : m.mode = .running) (w : UInt16) : WellFormed { m with opcode := w } :=
  { h with awaits := fun x hx => by simp [hr] at hx }

theorem cycle : m.cycle.machine.WellFormed :=
  cycle_invariant (fun _ hr hm => hm.fault hr _) (fun _ _ hr hd hm => hm.carryOut hr hd) h

theorem run (n : Nat) : (m.run n).machine.WellFormed := run_invariant (fun _ => cycle) h n

theorem resume (key : UInt8) : (m.resume key).WellFormed := by
  unfold Machine.resume
  split
  · exact h
  · exact ⟨h.sp_lt, fun x hx => by simp at hx, h.pixels, h.keys⟩

theorem setKey (k : Nat) (down : Bool) : (m.setKey k down).WellFormed := by
  refine ⟨h.sp_lt, h.awaits, h.pixels, fun l => ?_⟩
  rw [keyCell_setKey]
  split
  · exact isBit_ite _
  · exact h.keys l

theorem clearKeys : m.clearKeys.WellFormed := by
  refine ⟨h.sp_lt, h.awaits, h.pixels, fun k => .inl ?_⟩
  by_cases hk : k < 16 <;> simp [keyCell, Machine.clearKeys, hk]

theorem setKeys (held : HeldKeys) : (m.setKeys held).WellFormed :=
  ⟨h.sp_lt, h.awaits, h.pixels, m.isBit_keyCell_setKeys held⟩

end WellFormed

end Machine

namespace HeldKeys

def frames (h : HeldKeys) (k : Nat) : Nat := h.remaining[k]?.getD 0

structure Within (h : HeldKeys) (bound : Nat) : Prop where
  hold_eq : h.hold = bound
  frames_le : ∀ k, h.frames k ≤ bound

theorem within_ofHold (hold : Nat) : (ofHold hold).Within (max hold 1) := by
  refine ⟨rfl, fun k => ?_⟩
  by_cases hk : k < 16 <;> simp [frames, ofHold, hk]

theorem frames_press (h : HeldKeys) (k : Fin 16) (l : Nat) :
    (h.press k).frames l = if k.val = l then h.hold else h.frames l := by
  simp only [frames, press, Vector.getElem?_set]
  split <;> rfl

theorem frames_tick (h : HeldKeys) (k : Nat) : h.tick.frames k = h.frames k - 1 := by
  by_cases hk : k < 16 <;> simp [frames, tick, hk]

theorem Within.press {h : HeldKeys} {bound : Nat} (hw : h.Within bound) (k : Fin 16) :
    (h.press k).Within bound := by
  refine ⟨hw.hold_eq, fun l => ?_⟩
  rw [frames_press]
  split
  · exact Nat.le_of_eq hw.hold_eq
  · exact hw.frames_le l

theorem Within.tick {h : HeldKeys} {bound : Nat} (hw : h.Within bound) : h.tick.Within bound := by
  refine ⟨hw.hold_eq, fun k => ?_⟩
  have hk := hw.frames_le k
  rw [frames_tick]
  omega

end HeldKeys

namespace Console

/-- A console whose keys count as held for `bound` frames after a press. -/
structure WellFormed (c : Console) (bound : Nat) : Prop where
  machine : c.machine.WellFormed
  held : c.held.Within bound

theorem wellFormed_fresh (tape : Tape) (hold : Nat) :
    (fresh tape hold).WellFormed (max hold 1) :=
  ⟨Machine.wellFormed_fresh tape, HeldKeys.within_ofHold hold⟩

theorem WellFormed.perform {c : Console} {bound : Nat} (h : c.WellFormed bound) (a : Action) :
    (c.perform a).console.WellFormed bound := by
  have hm := h.machine
  constructor
  · rw [perform_machine]
    cases a with
    | load program =>
      dsimp only
      split
      · exact hm
      · exact hm.of_eq rfl rfl rfl rfl rfl
    | step => exact hm.cycle
    | run cycles => exact hm.run cycles
    | resume key => exact hm.resume key
    | setKey key down => exact hm.setKey key down
    | clearKeys => exact hm.clearKeys
    | press key =>
      dsimp only
      split
      · exact (hm.setKey _ true).resume _
      · exact hm
    | tick => exact hm.setKeys _
    | takeDrawFlag => exact hm.of_eq rfl rfl rfl rfl rfl
    | nextFrame => exact hm.of_eq rfl rfl rfl rfl rfl
    | present => exact hm.of_eq rfl rfl rfl rfl rfl
    | changes pixels => exact hm
  · rw [perform_held]
    cases a with
    | press key =>
      dsimp only
      split
      · exact h.held.press _
      · exact h.held
    | tick => exact h.held.tick
    | _ => exact h.held

theorem wellFormed_after (tape : Tape) (hold : Nat) (as : List Action) :
    ((fresh tape hold).after as).WellFormed (max hold 1) :=
  after_invariant (P := fun c => c.WellFormed (max hold 1)) (fun _ a h => h.perform a)
    (wellFormed_fresh tape hold) as

end Console

end Chip8
