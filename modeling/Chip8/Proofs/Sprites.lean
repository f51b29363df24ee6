import Chip8.Proofs.Footprint
import Chip8.Proofs.Frames
import Chip8.Proofs.WellFormed
import Mathlib.Data.List.Nodup

/-!
# Sprites on a torus

A sprite is drawn row by row and bit by bit, and each set bit flips one place of the screen, wrapping
around in both directions. Here the outcome is given place by place: a place is flipped if, counted from
the corner of the sprite and around the screen, it lies under a set bit. Up to thirty-two rows no place
is met twice, so each is flipped at most once, and the flag register tells whether a lit one was.
-/

set_option autoImplicit false

namespace Chip8

theorem xor_one_xor_one (v : UInt8) : v ^^^ 1 ^^^ 1 = v := by
  rw [UInt8.xor_assoc, UInt8.xor_self, UInt8.xor_zero]

namespace Pixels

theorem cell_flipAll (pixels : Pixels) (hit : Bool) (cells : List (Fin 2048)) (d : Fin 2048) :
    (pixels.flipAll hit cells).1.cell d =
      if cells.count d % 2 = 1 then pixels.cell d ^^^ 1 else pixels.cell d := by
  induction cells generalizing pixels hit with
  | nil => rfl
  | cons c cells ih =>
    rw [flipAll, ih, flip, cell_setCell, List.count_cons]
    by_cases hc : c = d
    · subst hc
      by_cases hcount : cells.count c % 2 = 1
      · have hnext : (cells.count c + 1) % 2 ≠ 1 := by omega
        simp only [beq_self_eq_true, if_true, hcount, hnext, if_false, xor_one_xor_one]
      · have hnext : (cells.count c + 1) % 2 = 1 := by omega
        simp [hcount, hnext]
    · simp [hc]

theorem lit_flip_of_ne {c d : Fin 2048} (h : d ≠ c) (pixels : Pixels) (hit : Bool) :
    (pixels.flip hit c).1.lit d = pixels.lit d := by
  rw [lit, flip, cell_setCell, if_neg h.symm, lit]

theorem hit_flipAll {cells : List (Fin 2048)} (h : cells.Nodup) (pixels : Pixels) (hit : Bool) :
    (pixels.flipAll hit cells).2 = (hit || cells.any pixels.lit) := by
  induction cells generalizing pixels hit with
  | nil => rw [flipAll, List.any_nil, Bool.or_false]
  | cons c cells ih =>
    obtain ⟨hc, hcells⟩ := List.nodup_cons.mp h
    have hlit : cells.any (pixels.flip hit c).1.lit = cells.any pixels.lit := by
      rw [Bool.eq_iff_iff, List.any_eq_true, List.any_eq_true]
      refine exists_congr fun d => and_congr_right fun hd => ?_
      rw [lit_flip_of_ne (ne_of_mem_of_not_mem hd hc)]
    rw [flipAll, ih hcells, hlit, List.any_cons, flip, Bool.or_assoc]

theorem lit_flipAll {pixels : Pixels} (hp : pixels.Clean) {cells : List (Fin 2048)}
    (h : cells.Nodup) (hit : Bool) (d : Fin 2048) :
    (pixels.flipAll hit cells).1.lit d = (pixels.lit d ^^ decide (d ∈ cells)) := by
  rw [lit, cell_flipAll, lit]
  by_cases hd : d ∈ cells
  · rw [List.count_eq_one_of_mem h hd]
    rcases hp d with hv | hv <;> simp [hd, hv]
  · simp [List.count_eq_zero_of_not_mem hd, hd]

end Pixels

theorem pixelOf_eq_iff {a b x y : Nat} :
    pixelOf a b = pixelOf x y ↔ a % 64 = x % 64 ∧ b % 32 = y % 32 := by
  simp only [pixelOf, Fin.mk.injEq]
  omega

namespace Machine

/-- Rows and columns of the sprite are counted from its corner, around the screen. -/
def covers (m : Machine) (x y rows px py : Nat) : Bool :=
  let r := (((py : Int) - y) % 32).toNat
  let c := (((px : Int) - x) % 64).toNat
  r < rows && c < 8 && bit (m.memory[(m.index.toNat + r) % 4096]?.getD 0) (7 - c)

theorem read_index_add (m : Machine) (r : Nat) :
    m.read (m.index + UInt16.ofNat r) = m.memory[(m.index.toNat + r) % 4096]?.getD 0 := by
  have hcell : (cellOf (m.index + UInt16.ofNat r)).val = (m.index.toNat + r) % 4096 := by
    simp [cellOf]
  rw [← hcell]
  simp [read]

theorem mem_rowCells {m : Machine} {x y r : Nat} {d : Fin 2048} :
    d ∈ m.rowCells x y r ↔ ∃ c < 8,
      bit (m.memory[(m.index.toNat + r) % 4096]?.getD 0) (7 - c) = true ∧
        pixelOf (x + c) (y + r) = d := by
  simp [rowCells, read_index_add, and_assoc]

theorem mem_spriteCells_iff_covers {m : Machine} {x y rows : Nat} (h : rows ≤ 32) (px py : Nat) :
    pixelOf px py ∈ m.spriteCells x y rows ↔ m.covers x y rows px py = true := by
  simp only [spriteCells, List.mem_flatMap, List.mem_range, mem_rowCells, pixelOf_eq_iff, covers,
    Bool.and_eq_true, decide_eq_true_eq]
  constructor
  · rintro ⟨r, hr, c, hc, hbit, hx, hy⟩
    have hrow : (((py : Int) - y) % 32).toNat = r := by omega
    have hcolumn : (((px : Int) - x) % 64).toNat = c := by omega
    rw [hrow, hcolumn]
    exact ⟨⟨hr, hc⟩, hbit⟩
  · rintro ⟨⟨hr, hc⟩, hbit⟩
    exact ⟨_, hr, _, hc, hbit, by omega, by omega⟩

theorem nodup_rowCells (m : Machine) (x y r : Nat) : (m.rowCells x y r).Nodup := by
  apply List.Nodup.map_on
  · intro c hc d hd hcd
    have hc := List.mem_range.mp (List.mem_filter.mp hc).1
    have hd := List.mem_range.mp (List.mem_filter.mp hd).1
    have hx := (pixelOf_eq_iff.mp hcd).1
    omega
  · exact List.nodup_range.filter _

/-- Two rows of a sprite that is no higher than the screen have no place in common. -/
theorem nodup_spriteCells (m : Machine) (x y : Nat) {rows : Nat} (h : rows ≤ 32) :
    (m.spriteCells x y rows).Nodup := by
  rw [spriteCells, List.nodup_flatMap]
  refine ⟨fun r _ => m.nodup_rowCells x y r, ?_⟩
  apply List.nodup_range.imp_of_mem
  intro r s hr hs hrs d hdr hds
  obtain ⟨a, -, -, rfl⟩ := mem_rowCells.mp hdr
  obtain ⟨b, -, -, hb⟩ := mem_rowCells.mp hds
  have hy := (pixelOf_eq_iff.mp hb).2
  rw [List.mem_range] at hr hs
  omega

theorem pixel_draw {m : Machine} (hm : m.pixels.Clean) (random : UInt8) (x y : Nat) {n : UInt8}
    (hn : n.toNat ≤ 32) (px py : Nat) :
    (m.execute random (.draw x y n)).pixel px py =
      (m.pixel px py ^^ m.covers (m.register x).toNat (m.register y).toNat n.toNat px py) := by
  have hcells := m.nodup_spriteCells (m.register x).toNat (m.register y).toNat hn
  rw [pixel, execute_pixels]
  refine (Pixels.lit_flipAll hm hcells false _).trans ?_
  rw [pixel, Bool.eq_iff_iff.mpr
    (decide_eq_true_iff.trans (mem_spriteCells_iff_covers hn px py))]

theorem flag_draw (m : Machine) (random : UInt8) (x y : Nat) {n : UInt8} (hn : n.toNat ≤ 32) :
    (m.execute random (.draw x y n)).register flagRegister =
      if (m.spriteCells (m.register x).toNat (m.register y).toNat n.toNat).any m.pixels.lit
      then 1 else 0 := by
  have hcells := m.nodup_spriteCells (m.register x).toNat (m.register y).toNat hn
  have hflag : (m.execute random (.draw x y n)).register flagRegister = if (m.pixels.flipAll false
      (m.spriteCells (m.register x).toNat (m.register y).toNat n.toNat)).2 then 1 else 0 :=
    (register_setRegister m flagRegister flagRegister _).trans (if_pos ⟨rfl, by decide⟩)
  rw [hflag, Pixels.hit_flipAll hcells, Bool.false_or]

theorem any_spriteCells_iff {m : Machine} {x y rows : Nat} (h : rows ≤ 32) :
    (m.spriteCells x y rows).any m.pixels.lit = true ↔
      ∃ px py, m.covers x y rows px py = true ∧ m.pixel px py = true := by
  rw [List.any_eq_true]
  constructor
  · rintro ⟨d, hd, hlit⟩
    obtain ⟨px, py, rfl⟩ := exists_pixelOf d
    exact ⟨px, py, (mem_spriteCells_iff_covers h px py).mp hd, hlit⟩
  · rintro ⟨px, py, hcovers, hlit⟩
    exact ⟨pixelOf px py, (mem_spriteCells_iff_covers h px py).mpr hcovers, hlit⟩

theorem draw_frame (m : Machine) (random : UInt8) (x y : Nat) (n : UInt8) :
    let next := m.execute random (.draw x y n)
    next = { m with
      registers := next.registers
      pixels := next.pixels
      drawFlag := true
      pc := m.pc + 2 } := rfl

/-- A place is lit afterwards if it was lit or is under a set bit, but not both; the flag says whether
some place was both, even if the flag register gave one of the coordinates. -/
theorem draw_flips_covered {m : Machine} (hm : m.pixels.Clean) (random : UInt8) (x y : Nat)
    {n : UInt8} (hn : n.toNat ≤ 32) :
    let next := m.execute random (.draw x y n)
    let covered := m.covers (m.register x).toNat (m.register y).toNat n.toNat
    let met := ∃ px py, covered px py = true ∧ m.pixel px py = true
    (∀ px py, next.pixel px py = (m.pixel px py ^^ covered px py)) ∧
    (met → next.register flagRegister = 1) ∧
    (¬ met → next.register flagRegister = 0) ∧
    next.pixels.Clean ∧
    (∀ k ≠ flagRegister, next.register k = m.register k) ∧
    next = { m with
      registers := next.registers
      pixels := next.pixels
      drawFlag := true
      pc := m.pc + 2 } := by
  intro next covered met
  have hmet := any_spriteCells_iff (m := m) (x := (m.register x).toNat)
    (y := (m.register y).toNat) hn
  refine ⟨pixel_draw hm random x y hn, ?_, ?_, ?_, ?_, m.draw_frame random x y n⟩
  · intro h
    rw [m.flag_draw random x y hn, if_pos (hmet.mpr h)]
  · intro h
    rw [m.flag_draw random x y hn, if_neg fun ha => h (hmet.mp ha)]
  · have hpixels : next.pixels = _ := execute_pixels random (.draw x y n) m
    rw [hpixels]
    exact hm.flipAll false _
  · intro k hk
    exact execute_register_of_not_writes (by simpa [Instruction.writes] using hk) random

/-- The sprite of the digit 0 in the lower right corner, with its column taken from the flag register.
Its first row goes on at the left edge. -/
theorem draw_flips_covered_at_corner :
    let m := ((fresh (.ofSeed 1)).setRegister 1 31).setRegister flagRegister 62
    let next := m.execute 0 (.draw flagRegister 1 5)
    m.pixels.Clean ∧ (5 : UInt8).toNat ≤ 32 ∧ next.pixel 65 31 = true ∧
      next.register flagRegister = 0 := by
  intro m next
  have hm : m.pixels.Clean := Pixels.clean_dark
  have hn : (5 : UInt8).toNat ≤ 32 := by decide
  obtain ⟨hpixel, -, hdark, -⟩ := draw_flips_covered hm 0 flagRegister 1 hn
  have hx : m.register flagRegister = 62 := by
    rw [register_setRegister, if_pos ⟨rfl, by decide⟩]
  have hy : m.register 1 = 31 := by
    rw [register_setRegister, if_neg (by decide), register_setRegister, if_pos ⟨rfl, by decide⟩]
  have hunlit (px py : Nat) : m.pixel px py = false := by
    have hcell : m.pixels.cell (pixelOf px py) = 0 := Vector.getElem_replicate _
    rw [pixel, Pixels.lit, hcell]
    rfl
  have hrow : m.memory[(m.index.toNat + 0) % 4096]?.getD 0 = 0xF0 :=
    (m.read_index_add 0).symm.trans (Vector.getElem_ofFn _)
  have hcovers : m.covers 62 31 5 65 31 = true := by
    have hr : (((31 : Nat) : Int) - (31 : Nat)) % 32 = 0 := by decide
    have hc : (((65 : Nat) : Int) - (62 : Nat)) % 64 = 3 := by decide
    simp only [covers, hr, hc, Int.toNat_zero, hrow]
    decide
  refine ⟨hm, hn, ?_, hdark ?_⟩
  · rw [hpixel, hunlit, hx, hy, Bool.false_xor]
    exact hcovers
  · rintro ⟨px, py, -, h⟩
    exact Bool.false_ne_true ((hunlit px py).symm.trans h)

end Machine

end Chip8
