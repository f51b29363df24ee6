import Chip8.Proofs.Sprites
import Mathlib.Algebra.BigOperators.Group.Finset.Lemmas
import Mathlib.Algebra.Ring.Parity

/-!
# Drawings as layers

A drawing flips places of the screen and reads nothing that a drawing changes, as long as its corner does
not come from the flag register. So drawings lie over one another like layers: what a list of them does to
the screen is told by how often each place is under a set bit. Their order does not matter, and layers that
come in pairs cancel out. Only the flag register can tell in which order they were drawn.
-/

set_option autoImplicit false

namespace Chip8

theorem Pixels.ext_cell {pixels other : Pixels} (h : ∀ d, pixels.cell d = other.cell d) :
    pixels = other :=
  Vector.ext fun i hi => h ⟨i, hi⟩

theorem Pixels.flipAll_fst (pixels : Pixels) (hit other : Bool) (cells : List (Fin 2048)) :
    (pixels.flipAll hit cells).1 = (pixels.flipAll other cells).1 :=
  ext_cell fun d => by rw [cell_flipAll, cell_flipAll]

/-- A drawing whose corner is given by two registers other than the flag register. -/
structure Layer where
  x : Fin 15
  y : Fin 15
  rows : UInt8
  deriving DecidableEq

namespace Layer

def instruction (l : Layer) : Instruction := .draw l.x l.y l.rows

def cells (l : Layer) (m : Machine) : List (Fin 2048) :=
  m.spriteCells (m.register l.x).toNat (m.register l.y).toNat l.rows.toNat

def covers (l : Layer) (m : Machine) (px py : Nat) : Bool :=
  m.covers (m.register l.x).toNat (m.register l.y).toNat l.rows.toNat px py

theorem ne_flagRegister (x : Fin 15) : x.val ≠ Machine.flagRegister := Nat.ne_of_lt x.isLt

end Layer

namespace Machine

def overlay : List Layer → Machine → Machine
  | [], m => m
  | l :: ls, m => overlay ls (m.obey l.instruction)

theorem obey_layer (m : Machine) (l : Layer) :
    m.obey l.instruction =
      { m with
        registers := (m.obey l.instruction).registers
        pixels := (m.pixels.flipAll false (l.cells m)).1
        drawFlag := true
        pc := m.pc + 2 } := rfl

theorem register_obey_layer {k : Nat} (h : k ≠ flagRegister) (m : Machine) (l : Layer) :
    (m.obey l.instruction).register k = m.register k :=
  execute_register_of_not_writes (by simpa [Layer.instruction, Instruction.writes] using h) 0

theorem cells_obey_layer (m : Machine) (l k : Layer) :
    k.cells (m.obey l.instruction) = k.cells m := by
  rw [Layer.cells, register_obey_layer (Layer.ne_flagRegister k.x),
    register_obey_layer (Layer.ne_flagRegister k.y)]
  rfl

theorem register_overlay {k : Nat} (h : k ≠ flagRegister) (ls : List Layer) (m : Machine) :
    (m.overlay ls).register k = m.register k := by
  induction ls generalizing m with
  | nil => rfl
  | cons l ls ih => rw [overlay, ih, register_obey_layer h]

/-- Drawings flip, one after the other, the places that each of them would flip if it were the first. -/
theorem overlay_eq (ls : List Layer) (m : Machine) :
    m.overlay ls =
      { m with
        registers := (m.overlay ls).registers
        pixels := (m.pixels.flipAll false (ls.flatMap fun l => l.cells m)).1
        drawFlag := m.drawFlag || !ls.isEmpty
        pc := m.pc + UInt16.ofNat (2 * ls.length) } := by
  -- the first drawing moves none of the later ones, so their places are those that `m` gives them
  induction ls generalizing m with
  | nil => simp [overlay, Pixels.flipAll]
  | cons l ls ih =>
    have hpixels : ((m.pixels.flipAll false (l.cells m)).1.flipAll false
        (ls.flatMap fun k => k.cells m)).1 =
          (m.pixels.flipAll false ((l :: ls).flatMap fun k => k.cells m)).1 := by
      rw [List.flatMap_cons, Pixels.flipAll_append]
      exact Pixels.flipAll_fst _ _ _ _
    have hpc : m.pc + 2 + UInt16.ofNat (2 * ls.length) =
        m.pc + UInt16.ofNat (2 * (l :: ls).length) := by
      rw [List.length_cons, Nat.mul_succ, Nat.add_comm, UInt16.ofNat_add, UInt16.add_assoc]
      rfl
    rw [overlay, ih]
    simp only [cells_obey_layer]
    rw [← hpixels, ← hpc, obey_layer m l]
    simp

theorem cell_overlay (ls : List Layer) (m : Machine) (d : Fin 2048) :
    (m.overlay ls).pixels.cell d =
      if (ls.flatMap fun l => l.cells m).count d % 2 = 1 then m.pixels.cell d ^^^ 1
      else m.pixels.cell d := by
  rw [overlay_eq, Pixels.cell_flipAll]

theorem pixels_overlay_perm {ls ps : List Layer} (h : ls.Perm ps) (m : Machine) :
    (m.overlay ps).pixels = (m.overlay ls).pixels := by
  apply Pixels.ext_cell
  intro d
  have hcount := (h.flatMap_right fun l => l.cells m).count_eq d
  rw [cell_overlay, cell_overlay, hcount]

theorem overlay_perm {ls ps : List Layer} (h : ls.Perm ps) (m : Machine) :
    m.overlay ps = { m.overlay ls with registers := (m.overlay ps).registers } := by
  have hpixels : (m.pixels.flipAll false (ps.flatMap fun l => l.cells m)).1 =
      (m.pixels.flipAll false (ls.flatMap fun l => l.cells m)).1 := by
    have hp := pixels_overlay_perm h m
    rwa [overlay_eq ls, overlay_eq ps] at hp
  rw [overlay_eq ps, overlay_eq ls, h.isEmpty_eq, h.length_eq, hpixels]

theorem even_count_cells {ls : List Layer} (h : ∀ l, Even (ls.count l)) (m : Machine)
    (d : Fin 2048) : Even ((ls.flatMap fun l => l.cells m).count d) := by
  rw [List.count_flatMap, Finset.sum_list_map_count]
  apply Finset.even_sum
  intro l _
  exact (h l).mul_right _

theorem pixels_overlay_of_even {ls : List Layer} (h : ∀ l, Even (ls.count l)) (m : Machine) :
    (m.overlay ls).pixels = m.pixels := by
  apply Pixels.ext_cell
  intro d
  have heven := Nat.even_iff.mp (even_count_cells h m d)
  rw [cell_overlay, heven, if_neg Nat.zero_ne_one]

theorem flag_obey_layer (m : Machine) {l : Layer} (hl : l.rows.toNat ≤ 32) :
    (m.obey l.instruction).register flagRegister = 1 ↔
      ∃ px py, l.covers m px py = true ∧ m.pixel px py = true := by
  have hflag := m.flag_draw 0 l.x l.y hl
  refine Iff.trans ?_ (any_spriteCells_iff hl)
  refine (congrArg (· = 1) hflag).to_iff.trans ?_
  split
  case isTrue h => exact iff_of_true rfl h
  case isFalse h => exact iff_of_false (by decide) h

theorem covers_obey_layer (m : Machine) (l k : Layer) (px py : Nat) :
    k.covers (m.obey l.instruction) px py = k.covers m px py := by
  rw [Layer.covers, register_obey_layer (Layer.ne_flagRegister k.x),
    register_obey_layer (Layer.ne_flagRegister k.y)]
  rfl

theorem pixel_obey_layer {m : Machine} (hm : m.pixels.Clean) {l : Layer} (hl : l.rows.toNat ≤ 32)
    (px py : Nat) :
    (m.obey l.instruction).pixel px py = (m.pixel px py ^^ l.covers m px py) :=
  pixel_draw hm 0 l.x l.y hl px py

/-- The second drawing finds lit what the first one found dark. -/
theorem flag_obey_layer_twice {m : Machine} (hm : m.pixels.Clean) {l : Layer}
    (hl : l.rows.toNat ≤ 32) :
    ((m.obey l.instruction).obey l.instruction).register flagRegister = 1 ↔
      ∃ px py, l.covers m px py = true ∧ m.pixel px py = false := by
  rw [flag_obey_layer _ hl]
  refine exists_congr fun px => exists_congr fun py => ?_
  rw [covers_obey_layer, pixel_obey_layer hm hl]
  refine and_congr_right fun hcovers => ?_
  rw [hcovers, Bool.xor_true, Bool.not_eq_true']

/-- Wherever it comes in the order, a drawing flips the same places, so drawings commute and cancel out
in pairs, whatever their height and whatever is on the screen. -/
theorem drawings_are_layers (m : Machine) :
    (∀ ls ps : List Layer, ls.Perm ps →
      m.overlay ps = { m.overlay ls with registers := (m.overlay ps).registers } ∧
      ∀ k ≠ flagRegister, (m.overlay ps).register k = (m.overlay ls).register k) ∧
    (∀ ls : List Layer, (∀ l, Even (ls.count l)) → (m.overlay ls).pixels = m.pixels) ∧
    ∀ l : Layer, m.pixels.Clean → l.rows.toNat ≤ 32 →
      let once := m.obey l.instruction
      let twice := once.obey l.instruction
      (once.register flagRegister = 1 ↔
        ∃ px py, l.covers m px py = true ∧ m.pixel px py = true) ∧
      (twice.register flagRegister = 1 ↔
        ∃ px py, l.covers m px py = true ∧ m.pixel px py = false) := by
  refine ⟨?_, fun ls h => pixels_overlay_of_even h m, ?_⟩
  · intro ls ps h
    refine ⟨overlay_perm h m, fun k hk => ?_⟩
    rw [register_overlay hk, register_overlay hk]
  · intro l hm hl
    exact ⟨m.flag_obey_layer hl, flag_obey_layer_twice hm hl⟩

/-- The digit 0 in the upper left corner and a sprite so high that it comes back to its own rows. -/
theorem drawings_are_layers_two :
    let m := fresh (.ofSeed 1)
    let digit : Layer := ⟨0, 1, 5⟩
    let tall : Layer := ⟨2, 2, 200⟩
    [digit, tall].Perm [tall, digit] ∧
      m.overlay [tall, digit] =
        { m.overlay [digit, tall] with registers := (m.overlay [tall, digit]).registers } ∧
      (m.overlay [tall, digit, digit, tall]).pixels = m.pixels ∧
      m.pixels.Clean ∧ digit.rows.toNat ≤ 32 ∧
      ((m.obey digit.instruction).obey digit.instruction).register flagRegister = 1 := by
  intro m digit tall
  obtain ⟨horder, heven, hflag⟩ := drawings_are_layers m
  have hperm : [digit, tall].Perm [tall, digit] := .swap tall digit []
  have hpairs (l : Layer) : Even ([tall, digit, digit, tall].count l) := by
    simp only [List.count_cons, List.count_nil]
    split <;> split <;> decide
  have hm : m.pixels.Clean := Pixels.clean_dark
  have hn : digit.rows.toNat ≤ 32 := by decide
  have hcovers : digit.covers m 0 0 = true := by
    have hrow : m.memory[(m.index.toNat + 0) % 4096]?.getD 0 = 0xF0 :=
      (m.read_index_add 0).symm.trans (Vector.getElem_ofFn _)
    have hx : m.register digit.x = 0 := Vector.getElem_replicate _
    have hy : m.register digit.y = 0 := Vector.getElem_replicate _
    have hoffset (size : Int) : (((0 : Nat) : Int) - (UInt8.toNat 0 : Nat)) % size = 0 :=
      Int.zero_emod size
    rw [Layer.covers, covers, hx, hy]
    simp only [hoffset, Int.toNat_zero, hrow]
    decide
  have hdark : m.pixel 0 0 = false := by
    have hcell : m.pixels.cell (pixelOf 0 0) = 0 := Vector.getElem_replicate _
    rw [pixel, Pixels.lit, hcell]
    rfl
  exact ⟨hperm, (horder _ _ hperm).1, heven _ hpairs, hm, hn,
    (hflag digit hm hn).2.mpr ⟨0, 0, hcovers, hdark⟩⟩

end Machine

end Chip8
