import Chip8.Proofs.Footprint

/-!
# Blocks of cells behind the index register

Registers are saved to a block of cells and loaded from it, and a register is written there in decimal. The
block starts at the cell of the index register and goes on around the end of memory. Sixteen cells in a
row are sixteen different ones, so nothing is written twice: what was saved is what is loaded again, and
saving what was loaded changes nothing.
-/

set_option autoImplicit false

namespace Chip8

theorem Memory.ext_get {memory other : Memory} (h : ∀ c, memory.get c = other.get c) :
    memory = other :=
  Vector.ext fun i hi => h ⟨i, hi⟩

namespace Machine

def indexed (m : Machine) (k : Nat) : Fin 4096 :=
  ⟨(m.index.toNat + k) % 4096, Nat.mod_lt _ (by decide)⟩

theorem cellOf_index_add (m : Machine) (k : Nat) :
    cellOf (m.index + UInt16.ofNat k) = m.indexed k := by
  apply Fin.ext
  simp [cellOf, indexed]

theorem indexed_inj {m : Machine} {j k : Nat} (hj : j < 4096) (hk : k < 4096) :
    m.indexed j = m.indexed k ↔ j = k := by
  simp only [indexed, Fin.ext_iff]
  omega

theorem indexed_congr {m n : Machine} (h : n.index.toNat % 4096 = m.index.toNat % 4096) (k : Nat) :
    n.indexed k = m.indexed k := by
  simp only [indexed, Fin.ext_iff]
  omega

theorem get_write (m : Machine) (a : UInt16) (v : UInt8) (c : Fin 4096) :
    (m.write a v).memory.get c = if c = cellOf a then v else m.memory.get c := by
  by_cases h : c = cellOf a
  · rw [if_pos h, h]
    exact m.read_write_self a v
  · have hne : (cellOf a).val ≠ c.val := fun hv => h (Fin.ext hv.symm)
    rw [if_neg h]
    exact Vector.getElem_set_ne (cellOf a).isLt c.isLt hne

theorem get_saveRegisters_succ (m : Machine) (count : Nat) (c : Fin 4096) :
    (m.saveRegisters (count + 1)).memory.get c =
      if c = m.indexed count then m.register count else (m.saveRegisters count).memory.get c := by
  rw [saveRegisters, get_write, cellOf_index_add]

theorem get_saveRegisters_of_ne {m : Machine} {count : Nat} {c : Fin 4096}
    (h : ∀ k < count, c ≠ m.indexed k) : (m.saveRegisters count).memory.get c = m.memory.get c := by
  induction count with
  | zero => rfl
  | succ count ih =>
    rw [get_saveRegisters_succ, if_neg (h count (Nat.lt_succ_self count))]
    exact ih fun k hk => h k (Nat.lt_succ_of_lt hk)

/-- A block that does not reach around the whole memory has each register in a cell of its own. -/
theorem get_saveRegisters {m : Machine} {count k : Nat} (hcount : count ≤ 4096) (hk : k < count) :
    (m.saveRegisters count).memory.get (m.indexed k) = m.register k := by
  -- by induction on the registers saved so far, none of which shares its cell with the next one
  induction count with
  | zero => exact absurd hk (Nat.not_lt_zero k)
  | succ count ih =>
    have hinj : m.indexed k = m.indexed count ↔ k = count := indexed_inj (by omega) (by omega)
    rw [get_saveRegisters_succ]
    by_cases hlast : k = count
    · rw [if_pos (hinj.mpr hlast), hlast]
    · rw [if_neg fun h => hlast (hinj.mp h)]
      exact ih (by omega) (by omega)

theorem register_loadRegisters {m : Machine} {count k : Nat} (hcount : count ≤ 16) (hk : k < count) :
    (m.loadRegisters count).register k = m.memory.get (m.indexed k) := by
  have hread : (m.loadRegisters count).register k = m.read (m.index + UInt16.ofNat k) := by
    have hlt : k < 16 := by omega
    simp [loadRegisters, register, hlt, hk]
  rw [hread, ← cellOf_index_add]
  rfl

theorem memory_saveRegisters_of_held {m : Machine} {count : Nat} (hcount : count ≤ 4096)
    (h : ∀ k < count, m.register k = m.memory.get (m.indexed k)) :
    (m.saveRegisters count).memory = m.memory := by
  apply Memory.ext_get
  intro c
  by_cases hc : ∃ k < count, c = m.indexed k
  · obtain ⟨k, hk, rfl⟩ := hc
    rw [get_saveRegisters hcount hk, h k hk]
  · exact get_saveRegisters_of_ne fun k hk hck => hc ⟨k, hk, hck⟩

theorem get_storeDecimal_eq (m : Machine) (x : Nat) (c : Fin 4096) :
    (m.storeDecimal x).memory.get c =
      if c = m.indexed 2 then m.register x % 10
      else if c = m.indexed 1 then m.register x / 10 % 10
      else if c = m.indexed 0 then m.register x / 100
      else m.memory.get c := by
  have hzero : cellOf m.index = m.indexed 0 := by
    rw [← cellOf_index_add]
    exact congrArg cellOf (UInt16.add_zero m.index).symm
  have hone : cellOf (m.index + 1) = m.indexed 1 := m.cellOf_index_add 1
  have htwo : cellOf (m.index + 2) = m.indexed 2 := m.cellOf_index_add 2
  rw [storeDecimal, get_write, get_write, get_write, hzero, hone, htwo]

theorem get_storeDecimal (m : Machine) (x : Nat) :
    (m.storeDecimal x).memory.get (m.indexed 0) = m.register x / 100 ∧
      (m.storeDecimal x).memory.get (m.indexed 1) = m.register x / 10 % 10 ∧
      (m.storeDecimal x).memory.get (m.indexed 2) = m.register x % 10 := by
  have hne : ∀ {j k : Nat}, j < k → k < 3 → m.indexed j ≠ m.indexed k := by
    intro j k hjk hk h
    exact Nat.ne_of_lt hjk ((indexed_inj (by omega) (by omega)).mp h)
  refine ⟨?_, ?_, ?_⟩
  · rw [get_storeDecimal_eq, if_neg (hne (by decide) (by decide)),
      if_neg (hne (by decide) (by decide)), if_pos rfl]
  · rw [get_storeDecimal_eq, if_neg (hne (by decide) (by decide)), if_pos rfl]
  · rw [get_storeDecimal_eq, if_pos rfl]

theorem get_storeDecimal_of_ne {m : Machine} {c : Fin 4096} (h : ∀ k ≤ 2, c ≠ m.indexed k)
    (x : Nat) : (m.storeDecimal x).memory.get c = m.memory.get c := by
  rw [get_storeDecimal_eq, if_neg (h 2 (by decide)), if_neg (h 1 (by decide)),
    if_neg (h 0 (by decide))]

theorem decimal_digits (v : UInt8) :
    v / 100 ≤ 9 ∧ v / 10 % 10 ≤ 9 ∧ v % 10 ≤ 9 ∧
      100 * (v / 100).toNat + 10 * (v / 10 % 10).toNat + (v % 10).toNat = v.toNat := by
  have hv := v.toNat_lt
  simp only [UInt8.le_iff_toNat_le, UInt8.toNat_div, UInt8.toNat_mod, UInt8.reduceToNat]
  omega

theorem register_execute_load {x k : Nat} (hx : x < 16) (hk : k ≤ x) (random : UInt8) (m : Machine) :
    (m.execute random (.loadRegisters x)).register k = m.memory.get (m.indexed k) := by
  rw [execute, register_advance, register_loadRegisters hx (Nat.lt_succ_of_le hk)]

theorem register_execute_load_of_lt {x k : Nat} (hk : x < k) (random : UInt8) (m : Machine) :
    (m.execute random (.loadRegisters x)).register k = m.register k := by
  have hwrites : (Instruction.loadRegisters x).writes k = false :=
    decide_eq_false (Nat.not_le_of_lt hk)
  exact execute_register_of_not_writes hwrites random

theorem memory_save_load {x y : Nat} (hx : x < 16) (hy : y ≤ x) (random : UInt8) (m : Machine) :
    ((m.execute random (.loadRegisters x)).execute random (.saveRegisters y)).memory = m.memory := by
  have hmemory := execute_memory random (.loadRegisters x) m
  have hindex := execute_index random (.loadRegisters x) m
  have hregister : ∀ k ≤ x, (m.execute random (.loadRegisters x)).register k =
      m.memory.get (m.indexed k) := fun k hk => register_execute_load hx hk random m
  -- saving looks at nothing else of the machine that has loaded
  generalize m.execute random (.loadRegisters x) = n at hmemory hindex hregister ⊢
  have hindexed : ∀ k, n.indexed k = m.indexed k :=
    indexed_congr (congrArg (fun i : UInt16 => i.toNat % 4096) hindex)
  have hheld : ∀ k < y + 1, n.register k = n.memory.get (n.indexed k) := by
    intro k hk
    rw [hregister k (by omega), hmemory, hindexed]
  rw [execute_memory]
  exact (memory_saveRegisters_of_held (by omega) hheld).trans hmemory

/-- A block consists of different cells, also around the end of memory. So any machine that points to
the same cell loads what was saved, and saving what was loaded changes nothing. -/
theorem blocks_round_trip (m : Machine) (random : UInt8) {x : Nat} (hx : x < 16) :
    let saved := m.execute random (.saveRegisters x)
    let loaded := m.execute random (.loadRegisters x)
    let decimal := m.execute random (.storeDecimal x)
    (∀ k ≤ x, saved.memory.get (m.indexed k) = m.register k) ∧
    (∀ c, (∀ k ≤ x, c ≠ m.indexed k) → saved.memory.get c = m.memory.get c) ∧
    (∀ k ≤ x, loaded.register k = m.memory.get (m.indexed k)) ∧
    (∀ k, x < k → loaded.register k = m.register k) ∧
    (∃ hundreds tens ones : UInt8, hundreds ≤ 9 ∧ tens ≤ 9 ∧ ones ≤ 9 ∧
      100 * hundreds.toNat + 10 * tens.toNat + ones.toNat = (m.register x).toNat ∧
      decimal.memory.get (m.indexed 0) = hundreds ∧
      decimal.memory.get (m.indexed 1) = tens ∧
      decimal.memory.get (m.indexed 2) = ones) ∧
    (∀ c, (∀ k ≤ 2, c ≠ m.indexed k) → decimal.memory.get c = m.memory.get c) ∧
    (∀ (n : Machine) (y : Nat), y ≤ x → n.memory = saved.memory →
      n.index.toNat % 4096 = m.index.toNat % 4096 →
      let restored := n.execute random (.loadRegisters y)
      (∀ k ≤ y, restored.register k = m.register k) ∧
        ∀ k, y < k → restored.register k = n.register k) ∧
    ∀ y ≤ x, (loaded.execute random (.saveRegisters y)).memory = m.memory := by
  intro saved loaded decimal
  have hsaved : saved.memory = (m.saveRegisters (x + 1)).memory :=
    execute_memory random (.saveRegisters x) m
  have hdecimal : decimal.memory = (m.storeDecimal x).memory :=
    execute_memory random (.storeDecimal x) m
  have hcell : ∀ k ≤ x, saved.memory.get (m.indexed k) = m.register k := by
    intro k hk
    rw [hsaved, get_saveRegisters (by omega) (Nat.lt_succ_of_le hk)]
  have hregister : ∀ k ≤ x, loaded.register k = m.memory.get (m.indexed k) :=
    fun k hk => register_execute_load hx hk random m
  refine ⟨hcell, ?_, hregister, fun k hk => register_execute_load_of_lt hk random m, ?_, ?_, ?_, ?_⟩
  · intro c hc
    rw [hsaved, get_saveRegisters_of_ne fun k hk => hc k (Nat.le_of_lt_succ hk)]
  · rw [hdecimal]
    obtain ⟨hhundreds, htens, hones, hvalue⟩ := decimal_digits (m.register x)
    exact ⟨_, _, _, hhundreds, htens, hones, hvalue, m.get_storeDecimal x⟩
  · intro c hc
    rw [hdecimal, get_storeDecimal_of_ne hc]
  · intro n y hy hmemory hindex restored
    refine ⟨fun k hk => ?_, fun k hk => register_execute_load_of_lt hk random n⟩
    have hload : restored.register k = n.memory.get (n.indexed k) :=
      register_execute_load (Nat.lt_of_le_of_lt hy hx) hk random n
    rw [hload, hmemory, indexed_congr hindex, hcell k (Nat.le_trans hk hy)]
  · intro y hy
    exact memory_save_load hx hy random m

/-- A block that begins two cells before the end of memory and of the index register's own range, loaded
again by an index register that points to its first cell from below. -/
theorem blocks_round_trip_around :
    let m := { (fresh (.ofSeed 1)).setRegister 2 7 with index := 0xFFFE }
    let saved := m.execute 0 (.saveRegisters 15)
    let moved := saved.execute 0 (.setIndex 0xFFE)
    15 < 16 ∧ 3 ≤ 15 ∧ moved.memory = saved.memory ∧
      moved.index.toNat % 4096 = m.index.toNat % 4096 ∧
      saved.memory.get 0 = 7 ∧ (moved.execute 0 (.loadRegisters 3)).register 2 = 7 := by
  intro m saved moved
  obtain ⟨hsaved, -, -, -, -, -, hrestored, -⟩ := blocks_round_trip m 0 (x := 15) (by decide)
  have hmemory : moved.memory = saved.memory := execute_memory 0 (.setIndex 0xFFE) saved
  have hstart : m.index = 0xFFFE := rfl
  have hindex : moved.index.toNat % 4096 = m.index.toNat % 4096 := by
    have hmoved : moved.index = 0xFFE := execute_index 0 (.setIndex 0xFFE) saved
    rw [hmoved, hstart]
    decide
  have hcell : m.indexed 2 = 0 := by
    apply Fin.ext
    change (m.index.toNat + 2) % 4096 = 0
    rw [hstart]
    decide
  have hvalue : m.register 2 = 7 :=
    (register_setRegister (fresh (.ofSeed 1)) 2 2 7).trans (if_pos ⟨rfl, by decide⟩)
  refine ⟨by decide, by decide, hmemory, hindex, ?_, ?_⟩
  · rw [← hcell, hsaved 2 (by decide), hvalue]
  · rw [(hrestored moved 3 (by decide) hmemory hindex).1 2 (by decide), hvalue]

end Machine

end Chip8
