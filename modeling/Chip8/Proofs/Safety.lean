import Chip8.Proofs.InBounds
import Mathlib.Data.List.FinRange

/-!
# No action fails

Cycles, batches, frames and all other actions stay in bounds on a well-formed console. As a console is
well-formed from the first moment on, nothing that is done to it can ever fail a check.
-/

set_option autoImplicit false

namespace Chip8

variable {limit : Nat} (hl : 65536 ≤ limit)

namespace Machine

include hl in
theorem cycle?_of_wellFormed {m : Machine} (h : m.WellFormed) :
    m.cycle? limit = some m.cycle := by
  unfold cycle? cycle
  cases m.mode with
  | awaitingKey x => rfl
  | running =>
    simp only [readWord?_eq, Option.bind_eq_bind, Option.bind_some]
    cases hd : Instruction.decode? (m.readWord m.pc) with
    | none => rfl
    | some i =>
      have ho := obey?_of_registers hl { m with opcode := m.readWord m.pc, mode := .running }
        h.sp_lt (Instruction.register_lt_of_decode? hd)
      simp only [ho, decay?_eq, Option.bind_some]

theorem resume?_of_wellFormed {m : Machine} (h : m.WellFormed) (key : UInt8) :
    m.resume? key = some (m.resume key) := by
  unfold resume? resume
  cases hm : m.mode with
  | running => rfl
  | awaitingKey x =>
    simp only [setRegister?_of_lt m (h.awaits x hm).1, Option.bind_eq_bind, Option.bind_some]

include hl in
theorem load?_eq (m : Machine) (program : List UInt8) :
    m.load? limit program = some (m.load program) := by
  unfold load? load
  by_cases h : programCapacity < program.length
  · simp only [if_pos h]
  · have hstop : programStart + program.length < 4096 + 1 := by
      simp only [programCapacity, programStart] at h ⊢
      omega
    simp only [if_neg h, below_of_lt (Nat.lt_of_lt_of_le hstop (by omega : 4097 ≤ limit)),
      below_of_lt hstop, Option.bind_eq_bind, Option.bind_some]

end Machine

namespace Batch

include hl in
theorem advance?_of_wellFormed {b : Batch} (h : b.machine.WellFormed)
    (hn : b.executed + 1 < limit) : b.advance? limit = some b.advance := by
  have hc := Machine.cycle?_of_wellFormed hl h
  cases hf : b.machine.cycle.fault with
  | some f => simp only [advance?, advance, hc, hf, Option.bind_eq_bind, Option.bind_some]
  | none =>
    simp only [advance?, advance, hc, hf, below_of_lt hn, Option.bind_eq_bind, Option.bind_some]

theorem executed_advance_le (b : Batch) : b.advance.executed ≤ b.executed + 1 := by
  unfold advance
  cases hf : b.machine.cycle.fault with
  | some f =>
    simp only [hf]
    omega
  | none => simp only [hf, Nat.le_refl]

include hl in
/-- A batch never counts past the number of cycles that it was asked for. -/
theorem extend?_of_wellFormed {b : Batch} (h : b.machine.WellFormed) {n : Nat}
    (hn : b.executed + n < limit) : b.extend? limit n = some (b.extend n) := by
  induction n generalizing b with
  | zero => rfl
  | succ n ih =>
    rw [extend?, extend]
    split
    · rfl
    · have hw : b.advance.machine.WellFormed := by
        rw [advance_machine]
        exact h.cycle
      have hle := b.executed_advance_le
      rw [advance?_of_wellFormed hl h (by omega), Option.bind_some, ih hw (by omega)]

end Batch

include hl in
theorem Machine.run?_of_wellFormed {m : Machine} (h : m.WellFormed) {n : Nat} (hn : n < limit) :
    m.run? limit n = some (m.run n) :=
  Batch.extend?_of_wellFormed hl (b := Batch.start m) h (by simpa [Batch.start] using hn)

theorem HeldKeys.press?_eq (h : HeldKeys) (k : Fin 16) : h.press? k = some (h.press k) := by
  rw [press?, below_of_lt k.isLt, Option.map_some, setIfInBounds_eq_set]
  rfl

theorem mapM_of_forall {α β : Type} {f : α → Option β} {g : α → β} {l : List α}
    (h : ∀ a ∈ l, f a = some (g a)) : l.mapM f = some (l.map g) := by
  induction l with
  | nil => rfl
  | cons a l ih =>
    rw [List.forall_mem_cons] at h
    rw [List.mapM_cons, h.1, ih h.2]
    rfl

namespace Screen

theorem map_filter_eq_flatMap {α β : Type} (p : α → Bool) (f : α → β) (l : List α) :
    (l.filter p).map f = l.flatMap fun a => if p a then [f a] else [] := by
  induction l with
  | nil => rfl
  | cons a l ih =>
    rw [List.flatMap_cons, ← ih]
    by_cases h : p a = true <;> simp [h]

theorem range_rows (n : Nat) :
    List.range (n * 64) = (List.range n).flatMap fun y => (List.range 64).map (· + y * 64) := by
  induction n with
  | zero => rfl
  | succ n ih =>
    rw [Nat.succ_mul, List.range_add, ih, List.range_succ (n := n), List.flatMap_append,
      List.flatMap_singleton]
    simp only [Nat.add_comm]

theorem finRange_rows :
    List.finRange 2048 =
      (List.range 32).flatMap fun y => (List.range 64).map fun x => pixelOf x y := by
  apply List.map_injective_iff.mpr Fin.val_injective
  rw [List.map_coe_finRange_eq_range, List.map_flatMap, range_rows 32]
  refine List.flatMap_congr fun y hy => ?_
  rw [List.map_map]
  refine List.map_congr_left fun x hx => ?_
  have hx := List.mem_range.mp hx
  have hy := List.mem_range.mp hy
  simp only [Function.comp, pixelOf]
  omega

theorem changes_eq_flatMap (s : Screen) (pixels : Pixels) :
    s.changes pixels =
      (List.range 32).flatMap fun y => (List.range 64).flatMap fun x =>
        if s.differs pixels (pixelOf x y) then [paintOf pixels (pixelOf x y)] else [] := by
  rw [changes, map_filter_eq_flatMap, finRange_rows, List.flatMap_assoc]
  simp only [List.flatMap_map]

include hl in
theorem paint?_of_lt (s : Screen) (pixels : Pixels) {x y : Nat} (hx : x < 64) (hy : y < 32) :
    s.paint? limit pixels y x =
      some (if s.differs pixels (pixelOf x y) then [paintOf pixels (pixelOf x y)] else []) := by
  have hstart : y * width < limit := by
    simp only [width]
    omega
  have hc : (pixelOf x y).val = x + y * width := by
    simp only [pixelOf, width]
    omega
  have hcell : x + y * width < limit := by
    have := (pixelOf x y).isLt
    omega
  have hget : ∀ q : Pixels, q[x + y * width]? = some (q.cell (pixelOf x y)) := fun q => by
    simp [← hc, Pixels.cell]
  have hpaint : paintOf pixels (pixelOf x y) = ⟨x, y, pixels.cell (pixelOf x y) == 1⟩ := by
    simp only [paintOf, Pixels.lit, hc, width, Paint.mk.injEq, and_true]
    omega
  rw [hpaint]
  cases hs : s.last <;>
    simp only [paint?, below_of_lt hstart, below_of_lt hcell, hget, hs, Option.bind_eq_bind,
      Option.bind_some, differs]

include hl in
theorem changes?_eq (s : Screen) (pixels : Pixels) :
    s.changes? limit pixels = some (s.changes pixels) := by
  have hrow : ∀ y ∈ List.range height, (List.range width).mapM (s.paint? limit pixels y) =
      some ((List.range width).map fun x =>
        if s.differs pixels (pixelOf x y) then [paintOf pixels (pixelOf x y)] else []) :=
    fun y hy => mapM_of_forall fun x hx =>
      s.paint?_of_lt hl pixels (List.mem_range.mp hx) (List.mem_range.mp hy)
  rw [changes?, mapM_of_forall hrow, Option.bind_eq_bind, Option.bind_some, changes_eq_flatMap,
    List.flatten_flatten, List.map_map]
  rfl

theorem lt_of_mem_changes {s : Screen} {pixels : Pixels} {p : Paint} (h : p ∈ s.changes pixels) :
    p.x < 64 ∧ p.y < 32 := by
  obtain ⟨c, -, rfl⟩ := List.mem_map.mp h
  have hc := c.isLt
  simp only [paintOf]
  omega

end Screen

theorem Terminal.frame?_of_lt {paints : List Paint} (h : ∀ p ∈ paints, p.x < 64 ∧ p.y < 32) :
    frame? paints = some (frame paints) := by
  have hcell : ∀ p ∈ paints, cell? p = some (cell p) := fun p hp => by
    obtain ⟨hx, hy⟩ := h p hp
    simp only [cell?, below_of_lt (show p.y + 1 < 65536 by omega),
      below_of_lt (show p.x + 1 < 65536 by omega), Option.bind_eq_bind, Option.bind_some]
  rw [frame?, mapM_of_forall hcell, Option.bind_eq_bind, Option.bind_some, frame]

namespace Console

theorem pressKey?_of_wellFormed {c : Console} (h : c.machine.WellFormed) (k : Fin 16) :
    c.pressKey? k = some (c.pressKey k) := by
  simp only [pressKey?, HeldKeys.press?_eq,
    Machine.resume?_of_wellFormed (h.setKey k true), Option.bind_eq_bind, Option.bind_some]
  rfl

include hl in
theorem display?_eq (c : Console) (pixels : Pixels) :
    c.display? limit pixels = some (c.display pixels) := by
  simp only [display?, Screen.changes?_eq hl, Option.bind_eq_bind, Option.bind_some]
  rfl

include hl in
theorem nextFrame?_eq (c : Console) : c.nextFrame? limit = some c.nextFrame := by
  simp only [nextFrame?, nextFrame, display?_eq hl, Option.bind_eq_bind, Option.bind_some]
  split <;> rfl

theorem lt_of_nextFrame {c : Console} {paints : List Paint} (h : c.nextFrame.2 = some paints) :
    ∀ p ∈ paints, p.x < 64 ∧ p.y < 32 := by
  simp only [nextFrame, display] at h
  split at h
  · rw [← Option.some.inj h]
    exact fun p hp => Screen.lt_of_mem_changes hp
  · simp at h

include hl in
theorem perform?_of_wellFormed {c : Console} (h : c.machine.WellFormed) {a : Action}
    (ha : ∀ n, a = .run n → n < limit) : c.perform? limit a = some (c.perform a) := by
  cases a with
  | load program =>
    simp only [perform?, perform, Machine.load?_eq hl, Option.bind_eq_bind, Option.bind_some]
    cases c.machine.load program <;> rfl
  | step =>
    simp only [perform?, Machine.cycle?_of_wellFormed hl h, Option.bind_eq_bind, Option.bind_some]
    rfl
  | run cycles =>
    simp only [perform?, Machine.run?_of_wellFormed hl h (ha cycles rfl), Option.bind_eq_bind,
      Option.bind_some]
    rfl
  | resume key =>
    simp only [perform?, Machine.resume?_of_wellFormed h, Option.bind_eq_bind, Option.bind_some]
    rfl
  | press key =>
    cases hk : key.padIndex? with
    | some k => simp only [perform?, perform, hk, pressKey?_of_wellFormed h]
    | none => simp only [perform?, perform, hk]
  | nextFrame =>
    simp only [perform?, nextFrame?_eq hl, Option.bind_eq_bind, Option.bind_some]
    rfl
  | changes pixels =>
    simp only [perform?, display?_eq hl, Option.bind_eq_bind, Option.bind_some]
    rfl
  | present =>
    simp only [perform?, perform, nextFrame?_eq hl, Option.bind_eq_bind, Option.bind_some]
    cases hp : c.nextFrame.2 with
    | none => rfl
    | some paints =>
      rw [Option.mapM_some, Terminal.frame?_of_lt (lt_of_nextFrame hp)]
      rfl
  | _ => rfl

end Console

/-- Whatever has been done to a console since it was made, it is well-formed, and the next action
passes all checks, on any host whose counts and indices range over sixteen bits at least. -/
theorem Console.reachable_safe (tape : Tape) (hold : Nat) (as : List Action) (a : Action)
    {limit : Nat} (hl : 65536 ≤ limit) (ha : ∀ n, a = .run n → n < limit) :
    let c := (fresh tape hold).after as
    c.WellFormed (max hold 1) ∧ c.perform? limit a = some (c.perform a) := by
  intro c
  have h : c.WellFormed (max hold 1) := wellFormed_after tape hold as
  exact ⟨h, perform?_of_wellFormed hl h.machine ha⟩

theorem Console.reachable_safe_run :
    let c := (fresh (.ofSeed 7) 0).after [.load [0xF1, 0x0A], .run 5]
    c.WellFormed (max 0 1) ∧ c.perform? 65536 (.run 600) = some (c.perform (.run 600)) := by
  have hn : ∀ n, Action.run 600 = .run n → n < 65536 := by
    intro n h
    cases h
    decide
  exact reachable_safe (.ofSeed 7) 0 [.load [0xF1, 0x0A], .run 5] (.run 600) (Nat.le_refl _) hn

end Chip8
