import Chip8.Proofs.History

/-!
# Programs in memory

A program is loaded as a whole or not at all, whatever the machine is doing. Its bytes are in memory from
the program start on, where cycles fetch them as words. The cells in front of it and behind it stay as they
were, so of an earlier program nothing remains under one that is at least as long.
-/

set_option autoImplicit false

namespace Chip8

theorem programStart_add_lt {k : Nat} (h : k < programCapacity) : programStart + k < 4096 := by
  simp only [programCapacity, programStart] at h ⊢
  omega

namespace Memory

theorem ext_getElem? {memory other : Memory} (h : ∀ i : Nat, memory[i]? = other[i]?) :
    memory = other := by
  apply Vector.toArray_inj.mp
  apply Array.ext_getElem?
  intro i
  rw [Vector.getElem?_toArray, Vector.getElem?_toArray, h i]

theorem getElem?_place (memory : Memory) (program : List UInt8) (i : Nat) :
    (memory.place program.toArray)[i]? =
      if programStart ≤ i ∧ i < programStart + program.length ∧ i < 4096 then
        program[i - programStart]?
      else memory[i]? := by
  by_cases hi : i < 4096
  · by_cases hs : programStart ≤ i
    · by_cases hp : i < programStart + program.length
      · have hk : i - programStart < program.length := by omega
        simp [place, hi, hs, hp, hk]
      · have hk : program.length ≤ i - programStart := by omega
        simp [place, hi, hs, hp, hk]
    · simp [place, hi, hs]
  · simp [hi]

theorem getElem?_place_add (memory : Memory) {program : List UInt8} {k : Nat}
    (hk : k < program.length) (hc : k < programCapacity) :
    (memory.place program.toArray)[programStart + k]? = program[k]? := by
  have hend : programStart + k < 4096 := programStart_add_lt hc
  rw [getElem?_place, if_pos ⟨Nat.le_add_right _ _, by omega, hend⟩, Nat.add_sub_cancel_left]

structure Placed (program : List UInt8) (before after : Memory) : Prop where
  copied : ∀ k < program.length, after[programStart + k]? = program[k]?
  kept : ∀ i, i < programStart ∨ programStart + program.length ≤ i → after[i]? = before[i]?

theorem placed_place {program : List UInt8} (h : program.length ≤ programCapacity)
    (memory : Memory) : Placed program memory (memory.place program.toArray) where
  copied k hk := getElem?_place_add memory hk (Nat.lt_of_lt_of_le hk h)
  kept i hi := by
    rw [getElem?_place, if_neg (by omega)]

namespace Placed

variable {program later : List UInt8} {before between after other : Memory}

/-- The byte behind the last one that fits would have to be in a cell that does not exist. -/
theorem length_le (h : Placed program before after) : program.length ≤ programCapacity := by
  apply Nat.le_of_not_lt
  intro hlong
  have hcell := h.copied programCapacity hlong
  rw [List.getElem?_eq_getElem hlong, Vector.getElem?_eq_none (by decide)] at hcell
  cases hcell

theorem unique (h : Placed program before after) (h' : Placed program before other) :
    after = other := by
  apply ext_getElem?
  intro i
  by_cases hi : i < programStart ∨ programStart + program.length ≤ i
  · rw [h.kept i hi, h'.kept i hi]
  · have hk : i - programStart < program.length := by omega
    have hcell : programStart + (i - programStart) = i := by omega
    rw [← hcell, h.copied _ hk, h'.copied _ hk]

theorem covered (h : Placed program before between) (h' : Placed later between after)
    (hle : program.length ≤ later.length) : Placed later before after where
  copied := h'.copied
  kept i hi := by
    rw [h'.kept i hi, h.kept i (by omega)]

end Placed

end Memory

namespace Machine

def loaded (m : Machine) (program : List UInt8) : Machine :=
  { m with memory := m.memory.place program.toArray }

theorem load_eq_loaded {program : List UInt8} (h : ¬ programCapacity < program.length)
    (m : Machine) : m.load program = .ok (m.loaded program) := by
  rw [load, if_neg h]
  rfl

/-- Loading succeeds with one machine only: the one that has the program in place and is otherwise the
same. -/
theorem load_eq_ok_iff {m n : Machine} {program : List UInt8} :
    m.load program = .ok n ↔
      Memory.Placed program m.memory n.memory ∧ n = { m with memory := n.memory } := by
  by_cases hp : programCapacity < program.length
  · rw [load, if_pos hp]
    constructor
    · intro h
      cases h
    · rintro ⟨h, -⟩
      exact absurd hp (Nat.not_lt_of_le h.length_le)
  · have hplaced := Memory.placed_place (Nat.le_of_not_lt hp) m.memory
    rw [load_eq_loaded hp]
    constructor
    · intro h
      rw [← Except.ok.inj h]
      exact ⟨hplaced, rfl⟩
    · rintro ⟨h, hn⟩
      rw [hn, h.unique hplaced]
      rfl

theorem load_covered {m n : Machine} {program later : List UInt8} (h : m.load program = .ok n)
    (hle : program.length ≤ later.length) : n.load later = m.load later := by
  by_cases hl : programCapacity < later.length
  · rw [load, load, if_pos hl, if_pos hl]
  · obtain ⟨hplaced, hn⟩ := load_eq_ok_iff.mp h
    have hlater := Memory.placed_place (Nat.le_of_not_lt hl) n.memory
    have hrest : n.loaded later = { m with memory := (n.loaded later).memory } := by
      rw [loaded, hn]
    have hload : m.load later = .ok (n.loaded later) :=
      load_eq_ok_iff.mpr ⟨hplaced.covered hlater hle, hrest⟩
    rw [load_eq_loaded hl n, hload]

theorem getElem?_cellOf (m : Machine) (a : UInt16) :
    m.memory[(cellOf a).val]? = some (m.read a) :=
  Vector.getElem?_eq_getElem (cellOf a).isLt

theorem read_loaded_of_lt (m : Machine) (program : List UInt8) {a : UInt16}
    (h : (cellOf a).val < programStart) : (m.loaded program).read a = m.read a := by
  apply Option.some.inj
  rw [← getElem?_cellOf, ← getElem?_cellOf, loaded, Memory.getElem?_place, if_neg (by omega)]

theorem read_loaded (m : Machine) {program : List UInt8} {k : Nat} {v : UInt8}
    (hk : program[k]? = some v) (hc : k < programCapacity) :
    (m.loaded program).read (UInt16.ofNat (programStart + k)) = v := by
  have hend : programStart + k < 4096 := programStart_add_lt hc
  have ha : (cellOf (UInt16.ofNat (programStart + k))).val = programStart + k := by
    simp only [cellOf, UInt16.toNat_ofNat']
    omega
  have hlength : k < program.length := (List.getElem?_eq_some_iff.mp hk).1
  apply Option.some.inj
  rw [← getElem?_cellOf, ha, loaded, Memory.getElem?_place_add _ hlength hc, hk]

theorem readWord_loaded (m : Machine) {program : List UInt8} {k : Nat} {high low : UInt8}
    (hh : program[k]? = some high) (hl : program[k + 1]? = some low) (hc : k + 1 < programCapacity) :
    (m.loaded program).readWord (UInt16.ofNat (programStart + k)) = Word.ofBytes high low := by
  have hnext : UInt16.ofNat (programStart + k) + 1 = UInt16.ofNat (programStart + (k + 1)) := by
    rw [← Nat.add_assoc, UInt16.ofNat_add (programStart + k)]
    rfl
  rw [readWord, hnext, read_loaded m hh (by omega), read_loaded m hl hc]

theorem toNat_readWord_of_load {m n : Machine} {program : List UInt8} (h : m.load program = .ok n)
    {k : Nat} {high low : UInt8} (hh : program[k]? = some high) (hl : program[k + 1]? = some low) :
    (n.readWord (UInt16.ofNat (programStart + k))).toNat = high.toNat * 256 + low.toNat := by
  have hle : program.length ≤ programCapacity := (load_eq_ok_iff.mp h).1.length_le
  have hk : k + 1 < program.length := (List.getElem?_eq_some_iff.mp hl).1
  rw [load_eq_loaded (Nat.not_lt_of_le hle)] at h
  rw [← Except.ok.inj h, m.readWord_loaded hh hl (Nat.lt_of_lt_of_le hk hle), Word.toNat_ofBytes]

end Machine

namespace Console

theorem perform_load_eq_loaded {program : List UInt8}
    (h : ¬ programCapacity < program.length) (c : Console) :
    (c.perform (.load program)).console = { c with machine := c.machine.loaded program } := by
  simp only [perform, Machine.load_eq_loaded h]

/-- A program that fits is put in place and nothing else changes, also while a key is awaited; one that
does not fit changes nothing at all. What is loaded over it and is not shorter leaves no trace of it. -/
theorem load_all_or_nothing (c : Console) (program : List UInt8) :
    let m := c.machine
    let next := c.perform (.load program)
    let n := next.console.machine
    (next.answer = .done ↔ program.length ≤ 3584) ∧
    (next.answer = .done →
      (∀ k < program.length, n.memory[0x200 + k]? = program[k]?) ∧
      (∀ i, i < 0x200 ∨ 0x200 + program.length ≤ i → n.memory[i]? = m.memory[i]?) ∧
      next = ⟨{ c with machine := { m with memory := n.memory } }, .done,
        [.loaded program.length]⟩ ∧
      (∀ k high low, program[k]? = some high → program[k + 1]? = some low →
        (n.readWord (UInt16.ofNat (0x200 + k))).toNat = high.toNat * 256 + low.toNat) ∧
      ∀ later : List UInt8, program.length ≤ later.length → n.load later = m.load later) ∧
    (3584 < program.length → next = ⟨c, .oversize ⟨program.length, 3584⟩, []⟩) := by
  intro m next n
  by_cases hp : programCapacity < program.length
  · have hnext : next = ⟨c, .oversize ⟨program.length, 3584⟩, []⟩ := perform_load_of_lt hp c
    have hrefused : next.answer ≠ .done := by
      rw [hnext]
      nofun
    have hlong : ¬ program.length ≤ 3584 := Nat.not_le_of_lt hp
    exact ⟨⟨fun h => absurd h hrefused, fun h => absurd h hlong⟩,
      fun h => absurd h hrefused, fun _ => hnext⟩
  · have hfits : program.length ≤ 3584 := Nat.le_of_not_lt hp
    have hnext : next = ⟨{ c with machine := m.loaded program }, .done, [.loaded program.length]⟩ :=
      perform_load_of_not_lt hp c
    have hn : n = m.loaded program := by
      change next.console.machine = m.loaded program
      rw [hnext]
    have hload : m.load program = .ok n := by rw [hn, Machine.load_eq_loaded hp]
    obtain ⟨hplaced, hrest⟩ := Machine.load_eq_ok_iff.mp hload
    refine ⟨⟨fun _ => hfits, fun _ => by rw [hnext]⟩,
      fun _ => ⟨hplaced.copied, hplaced.kept, ?_, ?_, ?_⟩,
      fun hlong => absurd hfits (Nat.not_le_of_lt hlong)⟩
    · rw [← hrest, hn, hnext]
    · intro k high low hh hl
      exact Machine.toNat_readWord_of_load hload hh hl
    · intro later hle
      exact Machine.load_covered hload hle

def paused (tape : Tape) : Console :=
  ⟨{ (Machine.fresh tape).loaded [0xF5, 0x0A, 0x12, 0x34, 0x56, 0x78] with
      pc := 0x202, opcode := 0xF50A, mode := .awaitingKey 5 }, .ofHold 6, .blank⟩

/-- A shorter program replaces the first word and leaves the two others behind it. A program that fills the
whole space then does away with all three, and one byte more is too much. -/
theorem load_all_or_nothing_paused :
    let c := paused (.ofSeed 1)
    let full := List.replicate 3584 (0xAB : UInt8)
    let next := c.perform (.load [0x00, 0xE0])
    let n := next.console.machine
    next.answer = .done ∧ n.mode = .awaitingKey 5 ∧ (n.readWord 0x200).toNat = 0x00E0 ∧
      n.memory[0x202]? = some 0x12 ∧ n.load full = c.machine.load full ∧
      (c.perform (.load full)).answer = .done ∧
      c.perform (.load (0xAB :: full)) = ⟨c, .oversize ⟨3585, 3584⟩, []⟩ := by
  intro c full next n
  have hfull : full.length = 3584 := List.length_replicate
  have hmore : (0xAB :: full).length = 3585 := by rw [List.length_cons, hfull]
  obtain ⟨hshort, hloaded, -⟩ := load_all_or_nothing c [0x00, 0xE0]
  have hdone : next.answer = .done := hshort.mpr (by decide)
  obtain ⟨-, hkept, hnext, hword, hlater⟩ := hloaded hdone
  have hmode : n.mode = .awaitingKey 5 :=
    congrArg (fun r : Reply => r.console.machine.mode) hnext
  have hbehind : c.machine.memory[0x202]? = some 0x12 :=
    (Memory.placed_place (by decide) _).copied 2 (by decide)
  have hrefused := (load_all_or_nothing c (0xAB :: full)).2.2 (by omega)
  rw [hmore] at hrefused
  exact ⟨hdone, hmode, hword 0 0x00 0xE0 rfl rfl, (hkept 0x202 (by decide)).trans hbehind,
    hlater full (by rw [hfull]; decide), (load_all_or_nothing c full).1.mpr (Nat.le_of_eq hfull),
    hrefused⟩

end Console

end Chip8
