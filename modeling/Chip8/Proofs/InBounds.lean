import Chip8.Proofs.Checked
import Chip8.Proofs.Effect
import Chip8.Proofs.WellFormed

/-!
# Well-formed consoles stay in bounds

On a well-formed console no check of an index or of a number fails: the checked actions give what the
unchecked ones give. Each checked operation has one equation here, for the operands that decoding and
well-formedness leave to it.
-/

set_option autoImplicit false

namespace Chip8

theorem below_of_lt {bound n : Nat} (h : n < bound) : below bound n = some n := if_pos h

theorem minus_of_le {a b : Nat} (h : b ≤ a) : minus a b = some (a - b) := if_pos h

theorem bit?_of_lt (b : UInt8) {i : Nat} (h : i < 8) : bit? b i = some (bit b i) := by
  rw [bit?, below_of_lt h, Option.map_some]

theorem setIfInBounds_eq_set {α : Type} {n : Nat} (xs : Vector α n) (k : Fin n) (v : α) :
    xs.setIfInBounds k v = xs.set k v k.isLt := by
  ext i hi
  simp [Vector.getElem_setIfInBounds, Vector.getElem_set]

namespace Machine

theorem register?_of_lt (m : Machine) {x : Nat} (h : x < 16) :
    m.register? x = some (m.register x) := by
  simp [register?, register, h]

theorem setRegister?_of_lt (m : Machine) {x : Nat} (h : x < 16) (v : UInt8) :
    m.setRegister? x v = some (m.setRegister x v) := by
  rw [setRegister?, below_of_lt h, Option.map_some]

theorem setFlag?_eq (m : Machine) (flag : Bool) : m.setFlag? flag = some (m.setFlag flag) :=
  m.setRegister?_of_lt (by decide) _

theorem keyDown?_of_lt (m : Machine) {x : Nat} (h : x < 16) :
    m.keyDown? x = some (m.keyDown x) := by
  simp [keyDown?, keyDown, h]

/-- Addresses are reduced before they are used, so no memory access is out of range. -/
theorem read?_eq (m : Machine) (a : UInt16) : m.read? a = some (m.read a) := by
  have h : a.toNat % 4096 < 4096 := Nat.mod_lt _ (by decide)
  simp [read?, read, cellOf, h]

theorem write?_eq (m : Machine) (a : UInt16) (v : UInt8) : m.write? a v = some (m.write a v) := by
  rw [write?, below_of_lt (Nat.mod_lt _ (by decide)), Option.map_some]

theorem readWord?_eq (m : Machine) (a : UInt16) : m.readWord? a = some (m.readWord a) := by
  simp [readWord?, readWord, read?_eq]

variable {limit : Nat} (hl : 65536 ≤ limit)

section Sprite

/-- The machine in the middle of drawing: some cells are flipped, and the flag says whether a lit one
has been met. -/
def drawn (m : Machine) (p : Pixels × Bool) : Machine := { m.setFlag p.2 with pixels := p.1 }

theorem setFlag_drawn (m : Machine) (p : Pixels × Bool) (flag : Bool) :
    (m.drawn p).setFlag flag = m.drawn (p.1, flag) := by
  simp [drawn, setFlag, setRegister]

theorem flip?_drawn (m : Machine) (p : Pixels × Bool) (c : Fin 2048) :
    (m.drawn p).flip? c = some (m.drawn (p.1.flip p.2 c)) := by
  have hp : (m.drawn p).pixels[c.val]? = some (p.1.cell c) := by simp [drawn, Pixels.cell]
  have hset : p.1.setIfInBounds c.val (p.1.cell c ^^^ 1) = p.1.setCell c (p.1.cell c ^^^ 1) :=
    setIfInBounds_eq_set p.1 c _
  by_cases h : p.1.cell c = 1
  · have hlit : p.1.lit c = true := by simp [Pixels.lit, h]
    simp only [flip?, hp, Option.bind_eq_bind, Option.bind_some, if_pos h, setFlag?_eq,
      setFlag_drawn, Pixels.flip, hlit, Bool.or_true]
    rw [← hset]
    rfl
  · have hlit : p.1.lit c = false := by simp [Pixels.lit, h]
    simp only [flip?, hp, Option.bind_eq_bind, Option.bind_some, if_neg h, Pixels.flip, hlit,
      Bool.or_false]
    rw [← hset]
    rfl

include hl in
theorem drawColumn?_drawn (m : Machine) {x y r c : Nat} (hx : x < 256) (hy : y < 256)
    (hr : r < 256) (hc : c < 8) (row : UInt8) (p : Pixels × Bool) :
    drawColumn? limit x y r row (m.drawn p) c =
      some (m.drawn
        (if bit row (7 - c) then p.1.flip p.2 (pixelOf (x + c) (y + r)) else p)) := by
  have hi : 7 - c < 8 := by omega
  have hcolumn : x + c < limit := by omega
  have hline : y + r < limit := by omega
  have hstart : (y + r) % 32 * 64 < limit := by omega
  have hcell : (x + c) % 64 + (y + r) % 32 * 64 < limit := by omega
  simp only [drawColumn?, minus_of_le (Nat.le_of_lt_succ hc), bit?_of_lt row hi, below_of_lt hcolumn,
    below_of_lt hline, below_of_lt hstart, below_of_lt hcell, Option.bind_eq_bind,
    Option.bind_some]
  split
  · exact flip?_drawn m p (pixelOf (x + c) (y + r))
  · rfl

include hl in
theorem foldlM_drawColumn? (m : Machine) {x y r : Nat} (hx : x < 256) (hy : y < 256)
    (hr : r < 256) (row : UInt8) (cs : List Nat) (hcs : ∀ c ∈ cs, c < 8) (p : Pixels × Bool) :
    cs.foldlM (drawColumn? limit x y r row) (m.drawn p) =
      some (m.drawn (p.1.flipAll p.2
        ((cs.filter fun c => bit row (7 - c)).map fun c => pixelOf (x + c) (y + r)))) := by
  induction cs generalizing p with
  | nil => rfl
  | cons c cs ih =>
    rw [List.forall_mem_cons] at hcs
    rw [List.foldlM_cons, drawColumn?_drawn hl m hx hy hr hcs.1, Option.bind_eq_bind,
      Option.bind_some, ih hcs.2]
    by_cases h : bit row (7 - c) = true
    · simp only [h, if_true, List.filter_cons_of_pos, List.map_cons, Pixels.flipAll]
    · simp only [h, if_false, List.filter_cons_of_neg, not_false_eq_true, Bool.false_eq_true]

include hl in
theorem drawRow?_drawn (m : Machine) {x y r : Nat} (hx : x < 256) (hy : y < 256) (hr : r < 256)
    (p : Pixels × Bool) :
    drawRow? limit x y (m.drawn p) r =
      some (m.drawn (p.1.flipAll p.2 (m.rowCells x y r))) := by
  have hrow : (m.drawn p).read? ((m.drawn p).index + UInt16.ofNat r) =
      some (m.read (m.index + UInt16.ofNat r)) := read?_eq _ _
  rw [drawRow?, hrow, Option.bind_eq_bind, Option.bind_some]
  exact foldlM_drawColumn? hl m hx hy hr _ _ (fun c hc => List.mem_range.mp hc) p

include hl in
theorem foldlM_drawRow? (m : Machine) {x y : Nat} (hx : x < 256) (hy : y < 256) (rs : List Nat)
    (hrs : ∀ r ∈ rs, r < 256) (p : Pixels × Bool) :
    rs.foldlM (drawRow? limit x y) (m.drawn p) =
      some (m.drawn (p.1.flipAll p.2 (rs.flatMap (m.rowCells x y)))) := by
  induction rs generalizing p with
  | nil => rfl
  | cons r rs ih =>
    rw [List.forall_mem_cons] at hrs
    rw [List.foldlM_cons, drawRow?_drawn hl m hx hy hrs.1, Option.bind_eq_bind, Option.bind_some,
      ih hrs.2, List.flatMap_cons, Pixels.flipAll_append]

include hl in
theorem drawSprite?_of_lt (m : Machine) {x y rows : Nat} (hx : x < 16) (hy : y < 16)
    (hrows : rows < 256) : m.drawSprite? limit x y rows = some (m.drawSprite x y rows) := by
  have hdark : m.setFlag false = m.drawn (m.pixels, false) := rfl
  have hrs : ∀ r ∈ List.range rows, r < 256 := fun r hr => by
    have := List.mem_range.mp hr
    omega
  simp only [drawSprite?, register?_of_lt m hx, register?_of_lt m hy, setFlag?_eq, hdark,
    Option.bind_eq_bind, Option.bind_some,
    foldlM_drawRow? hl m (m.register x).toNat_lt (m.register y).toNat_lt _ hrs]
  rfl

end Sprite

theorem storeDecimal?_of_lt (m : Machine) {x : Nat} (h : x < 16) :
    m.storeDecimal? x = some (m.storeDecimal x) := by
  simp only [storeDecimal?, register?_of_lt m h, write?_eq, Option.bind_eq_bind, Option.bind_some]
  rfl

theorem saveRegisters?_of_le (m : Machine) {count : Nat} (h : count ≤ 16) :
    m.saveRegisters? count = some (m.saveRegisters count) := by
  induction count with
  | zero => rfl
  | succ count ih =>
    have hindex : (m.saveRegisters count).index = m.index := by rw [saveRegisters_frame]
    have hvalue : (m.saveRegisters count).register count = m.register count := by
      rw [saveRegisters_frame]
      rfl
    rw [saveRegisters?, ih (by omega)]
    simp only [Option.bind_eq_bind, Option.bind_some, register?_of_lt _ h, write?_eq, hindex, hvalue]
    rfl

theorem loadRegisters_zero (m : Machine) : m.loadRegisters 0 = m := by
  have h : (Vector.ofFn fun k : Fin 16 => m.register k) = m.registers := by
    ext k hk
    simp [register]
  simp only [loadRegisters, Nat.not_lt_zero, if_false, h]

theorem loadRegisters_succ (m : Machine) (count : Nat) :
    m.loadRegisters (count + 1) =
      (m.loadRegisters count).setRegister count (m.read (m.index + UInt16.ofNat count)) := by
  have h : (m.loadRegisters (count + 1)).registers =
      (m.loadRegisters count).registers.setIfInBounds count
        (m.read (m.index + UInt16.ofNat count)) := by
    ext k hk
    simp only [loadRegisters, Vector.getElem_ofFn, Vector.getElem_setIfInBounds]
    by_cases h : count = k
    · subst h
      simp
    · simp only [if_neg h, show k < count + 1 ↔ k < count by omega]
  simp only [loadRegisters] at h
  simp only [loadRegisters, setRegister, h]

theorem loadRegisters?_of_le (m : Machine) {count : Nat} (h : count ≤ 16) :
    m.loadRegisters? count = some (m.loadRegisters count) := by
  induction count with
  | zero => rw [loadRegisters_zero]; rfl
  | succ count ih =>
    -- neither memory nor the index register has changed since the first register was loaded
    have hvalue : (m.loadRegisters count).read ((m.loadRegisters count).index + UInt16.ofNat count) =
        m.read (m.index + UInt16.ofNat count) := by
      simp only [loadRegisters, read]
    rw [loadRegisters?, ih (by omega), loadRegisters_succ]
    simp only [Option.bind_eq_bind, Option.bind_some, read?_eq, hvalue, setRegister?_of_lt _ h]

theorem combine?_of_lt (m : Machine) {x y : Nat} (hx : x < 16) (hy : y < 16)
    (f : UInt8 → UInt8 → UInt8) :
    m.combine? x y f = some (m.setRegister x (f (m.register x) (m.register y))).advance := by
  simp only [combine?, register?_of_lt m hx, register?_of_lt m hy, setRegister?_of_lt m hx,
    Option.bind_eq_bind, Option.bind_some]

theorem combineFlag?_of_lt (m : Machine) {x y : Nat} (hx : x < 16) (hy : y < 16)
    (f : UInt8 → UInt8 → UInt8) (flag : UInt8 → UInt8 → Bool) :
    m.combineFlag? x y f flag =
      some ((m.setRegister x (f (m.register x) (m.register y))).setFlag
        (flag (m.register x) (m.register y))).advance := by
  simp only [combineFlag?, register?_of_lt m hx, register?_of_lt m hy, setRegister?_of_lt m hx,
    setFlag?_eq, Option.bind_eq_bind, Option.bind_some]

include hl in
theorem push?_of_lt (m : Machine) (h : m.sp < 16) (a : UInt16) :
    m.push? limit a = some (m.push a) := by
  have hnext : m.sp + 1 < limit := by omega
  simp only [push?, below_of_lt h, below_of_lt hnext, Option.bind_eq_bind, Option.bind_some]
  rfl

example (m : Machine) (a : UInt16) : push? 65536 { m with sp := 16 } a = none := rfl

include hl in
theorem pop?_of_lt (m : Machine) (h : m.sp < 16) : m.pop? limit = some (m.top, m.pop) := by
  have hraised : m.sp + 16 < limit := by omega
  have hslot : m.stack[(m.sp + 15) % 16]? = some m.top := by
    have hk : (m.sp + 15) % 16 < 16 := Nat.mod_lt _ (by decide)
    simp [top_eq_slot, slot, hk]
  simp only [pop?, below_of_lt hraised, minus_of_le (show 1 ≤ m.sp + 16 by omega),
    show m.sp + 16 - 1 = m.sp + 15 by omega, hslot, Option.bind_eq_bind, Option.bind_some]
  rfl

theorem glyph_lt (v : UInt8) : v.toNat * glyphSize.toNat < 65536 := by
  have hv := v.toNat_lt
  rw [show glyphSize.toNat = 5 from rfl]
  omega

theorem ofNat_glyph (v : UInt8) :
    UInt16.ofNat (v.toNat * glyphSize.toNat) = v.toUInt16 * glyphSize := by
  apply UInt16.toNat_inj.mp
  simp

include hl in
theorem execute?_of_registers (m : Machine) (hs : m.sp < 16) (random : UInt8) {i : Instruction}
    (hi : ∀ x ∈ i.registers, x < 16) : m.execute? limit random i = some (m.execute random i) := by
  cases i with
  | clearScreen | jump nnn | setIndex nnn | awaitKey x => rfl
  | ret =>
    rw [execute?, pop?_of_lt hl m hs]
    rfl
  | call nnn =>
    rw [execute?, push?_of_lt hl m hs]
    rfl
  | jumpOffset nnn =>
    rw [execute?, register?_of_lt m (by decide)]
    rfl
  | copy x y | or x y | and x y | xor x y =>
    have hx := hi x (by simp [Instruction.registers])
    have hy := hi y (by simp [Instruction.registers])
    exact combine?_of_lt m hx hy _
  | add x y | sub x y | subFrom x y =>
    have hx := hi x (by simp [Instruction.registers])
    have hy := hi y (by simp [Instruction.registers])
    exact combineFlag?_of_lt m hx hy _ _
  | skipEq x y | skipNe x y =>
    have hx := hi x (by simp [Instruction.registers])
    have hy := hi y (by simp [Instruction.registers])
    simp only [execute?, register?_of_lt m hx, register?_of_lt m hy, Option.bind_eq_bind,
      Option.bind_some]
    rfl
  | draw x y n =>
    have hx := hi x (by simp [Instruction.registers])
    have hy := hi y (by simp [Instruction.registers])
    rw [execute?, drawSprite?_of_lt hl m hx hy n.toNat_lt]
    rfl
  | addByte x nn =>
    have hx := hi x (by simp [Instruction.registers])
    exact combine?_of_lt m hx hx _
  | shiftRight x | shiftLeft x =>
    have hx := hi x (by simp [Instruction.registers])
    exact combineFlag?_of_lt m hx hx _ _
  | glyph x =>
    have hx := hi x (by simp [Instruction.registers])
    simp only [execute?, register?_of_lt m hx, below_of_lt (glyph_lt _), ofNat_glyph,
      Option.bind_eq_bind, Option.bind_some]
    rfl
  | storeDecimal x =>
    have hx := hi x (by simp [Instruction.registers])
    rw [execute?, storeDecimal?_of_lt m hx]
    rfl
  | saveRegisters x =>
    have hx := hi x (by simp [Instruction.registers])
    rw [execute?, saveRegisters?_of_le m hx]
    rfl
  | loadRegisters x =>
    have hx := hi x (by simp [Instruction.registers])
    rw [execute?, loadRegisters?_of_le m hx]
    rfl
  | skipKey x | skipNoKey x =>
    have hx := hi x (by simp [Instruction.registers])
    rw [execute?, keyDown?_of_lt m hx]
    rfl
  | loadByte x nn | random x nn | readDelay x =>
    have hx := hi x (by simp [Instruction.registers])
    rw [execute?, setRegister?_of_lt m hx]
    rfl
  | skipEqByte x nn | skipNeByte x nn | setDelay x | setSound x | addIndex x =>
    have hx := hi x (by simp [Instruction.registers])
    rw [execute?, register?_of_lt m hx]
    rfl

include hl in
theorem obey?_of_registers (m : Machine) (hs : m.sp < 16) {i : Instruction}
    (hi : ∀ x ∈ i.registers, x < 16) : m.obey? limit i = some (m.obey i) := by
  unfold obey? obey
  cases i.usesTape with
  | true =>
    rw [execute?_of_registers hl m hs _ hi]
    rfl
  | false => exact execute?_of_registers hl m hs 0 hi

theorem countDown?_eq (v : UInt8) : countDown? v = some (if v = 0 then 0 else v - 1) := by
  by_cases h : v = 0
  · simp only [countDown?, if_pos h]
  · have hv : 1 ≤ v.toNat := Nat.pos_of_ne_zero fun hz => h (UInt8.toNat_inj.mp hz)
    have hle : (1 : UInt8) ≤ v := UInt8.le_iff_toNat_le.mpr hv
    have hd : UInt8.ofNat (v.toNat - 1) = v - 1 := by
      have hlt : v.toNat - 1 < 256 := by
        have := v.toNat_lt
        omega
      apply UInt8.toNat_inj.mp
      rw [UInt8.toNat_sub_of_le v 1 hle]
      exact UInt8.toNat_ofNat_of_lt hlt
    simp only [countDown?, if_neg h, minus_of_le hv, Option.map_some, hd]

theorem decay?_eq (m : Machine) : m.decay? = some m.decay := by
  simp only [decay?, countDown?_eq, Option.bind_eq_bind, Option.bind_some]
  rfl

end Machine

end Chip8
