import Chip8.Proofs.Frames

/-!
# The controls in the text of a frame

The text of a frame is read back as what it tells a terminal to do: moves of the cursor, attributes and
blocks. The reader goes by the escape sequences alone, whatever follows them, so the cells that a frame
paints can be got from its text and no other frame has the same.
-/

set_option autoImplicit false

namespace Chip8

inductive Control where
  | moveTo (row column : Nat)
  | hide
  | reset
  | print
  deriving DecidableEq

namespace Control

/-- Where a reader is: in plain text, behind an escape character, or within a control sequence, where it
has read some numbers and a part of the next one. -/
inductive Place where
  | text
  | escape
  | sequence (numbers : List Nat) (number : Nat)

def ofSequence? : List Nat → Char → Option Control
  | [row, column], 'H' => some (.moveTo row column)
  | [8], 'm' => some .hide
  | [0], 'm' => some .reset
  | _, _ => none

def read? : Place → List Char → Option (List Control)
  | .text, [] => some []
  | .text, c :: cs =>
    if c = '█' then (read? .text cs).map (.print :: ·)
    else if c = '\x1b' then read? .escape cs
    else none
  | .escape, c :: cs => if c = '[' then read? (.sequence [] 0) cs else none
  | .sequence numbers number, c :: cs =>
    if c.isDigit then read? (.sequence numbers (Nat.ofDigitChars 10 [c] number)) cs
    else if c = ';' then read? (.sequence (numbers ++ [number]) 0) cs
    else
      match ofSequence? (numbers ++ [number]) c with
      | some k => (read? .text cs).map (k :: ·)
      | none => none
  | _, [] => none

def ofBytes? (bytes : ByteArray) : Option (List Control) :=
  (String.fromUTF8? bytes).bind fun text => read? .text text.toList

theorem read?_digits {ds : List Char} (h : ∀ c ∈ ds, c.isDigit = true) (numbers : List Nat)
    (number : Nat) (cs : List Char) :
    read? (.sequence numbers number) (ds ++ cs) =
      read? (.sequence numbers (Nat.ofDigitChars 10 ds number)) cs := by
  induction ds generalizing number with
  | nil => rfl
  | cons d ds ih =>
    rw [List.forall_mem_cons] at h
    rw [List.cons_append, read?, if_pos h.1, ih h.2]
    rfl

theorem read?_number (numbers : List Nat) (n : Nat) (cs : List Char) :
    read? (.sequence numbers 0) (Nat.toDigits 10 n ++ cs) = read? (.sequence numbers n) cs := by
  have hdigits : ∀ c ∈ Nat.toDigits 10 n, c.isDigit = true :=
    fun c => Nat.isDigit_of_mem_toDigits (by decide) (by decide)
  rw [read?_digits hdigits, Nat.ofDigitChars_ten_toDigits]

theorem read?_block (cs : List Char) :
    read? .text (Terminal.block.toList ++ cs) = (read? .text cs).map (print :: ·) := rfl

theorem read?_hidden (cs : List Char) :
    read? .text (Terminal.hidden.toList ++ cs) = (read? .text cs).map (hide :: ·) := rfl

theorem read?_reset (cs : List Char) :
    read? .text (Terminal.reset.toList ++ cs) = (read? .text cs).map (reset :: ·) := rfl

theorem toList_moveTo (x y : Nat) :
    (Terminal.moveTo x y).toList =
      '\x1b' :: '[' :: (Nat.toDigits 10 (y + 1) ++ ';' :: (Nat.toDigits 10 (x + 1) ++ ['H'])) := by
  simp [Terminal.moveTo, Terminal.control, ← Nat.toList_repr]

theorem read?_moveTo (x y : Nat) (cs : List Char) :
    read? .text ((Terminal.moveTo x y).toList ++ cs) =
      (read? .text cs).map (moveTo (y + 1) (x + 1) :: ·) := by
  have hstart : ∀ rest, read? .text ('\x1b' :: '[' :: rest) = read? (.sequence [] 0) rest :=
    fun rest => rfl
  have hnext : ∀ row rest,
      read? (.sequence [] row) (';' :: rest) = read? (.sequence [row] 0) rest := fun _ _ => rfl
  have hend : ∀ row column,
      read? (.sequence [row] column) ('H' :: cs) =
        (read? .text cs).map (moveTo row column :: ·) := fun _ _ => rfl
  rw [toList_moveTo]
  simp only [List.cons_append, List.append_assoc, List.nil_append]
  rw [hstart, read?_number, hnext, read?_number, hend]

def ofPaint (p : Paint) : List Control :=
  moveTo (p.y + 1) (p.x + 1) :: if p.lit then [print] else [hide, print, reset]

def ofFrame (paints : List Paint) : List Control := paints.flatMap ofPaint ++ [moveTo 34 1]

theorem read?_cell (p : Paint) (cs : List Char) :
    read? .text ((Terminal.cell p).toList ++ cs) = (read? .text cs).map (ofPaint p ++ ·) := by
  obtain ⟨x, y, lit⟩ := p
  cases lit with
  | true =>
    have hcell : (Terminal.cell ⟨x, y, true⟩).toList =
        (Terminal.moveTo x y).toList ++ Terminal.block.toList := String.toList_append
    rw [hcell, List.append_assoc, read?_moveTo, read?_block, Option.map_map]
    rfl
  | false =>
    have hcell : (Terminal.cell ⟨x, y, false⟩).toList =
        (Terminal.moveTo x y).toList ++
          (Terminal.hidden.toList ++ (Terminal.block.toList ++ Terminal.reset.toList)) := by
      simp [Terminal.cell]
    rw [hcell]
    simp only [List.append_assoc]
    rw [read?_moveTo, read?_hidden, read?_block, read?_reset]
    simp only [Option.map_map]
    rfl

theorem read?_cells (paints : List Paint) (cs : List Char) :
    read? .text (paints.flatMap (fun p => (Terminal.cell p).toList) ++ cs) =
      (read? .text cs).map (paints.flatMap ofPaint ++ ·) := by
  induction paints with
  | nil => exact Option.map_id'.symm
  | cons p paints ih =>
    rw [List.flatMap_cons, List.append_assoc, read?_cell, ih, Option.map_map]
    simp only [List.flatMap_cons, List.append_assoc, Function.comp_def]

theorem ofBytes?_frame (paints : List Paint) :
    ofBytes? (Terminal.frame paints).toUTF8 = some (ofFrame paints) := by
  have hdecode : String.fromUTF8? (Terminal.frame paints).toUTF8 = some (Terminal.frame paints) :=
    dif_pos (Terminal.frame paints).isValidUTF8
  have hframe : (Terminal.frame paints).toList =
      paints.flatMap (fun p => (Terminal.cell p).toList) ++ ((Terminal.moveTo 0 33).toList ++ []) := by
    simp [Terminal.frame, Terminal.rest, List.flatMap_map]
  rw [ofBytes?, hdecode, Option.bind_some, hframe, read?_cells, read?_moveTo]
  rfl

/-- The cells that controls paint. The last move paints none. -/
def paints? : List Control → Option (List Paint)
  | [moveTo row column] => if row = 34 ∧ column = 1 then some [] else none
  | moveTo row column :: print :: ks =>
    (paints? ks).map (⟨column - 1, row - 1, true⟩ :: ·)
  | moveTo row column :: hide :: print :: reset :: ks =>
    (paints? ks).map (⟨column - 1, row - 1, false⟩ :: ·)
  | _ => none

theorem paints?_ofFrame (paints : List Paint) : paints? (ofFrame paints) = some paints := by
  induction paints with
  | nil => rfl
  | cons p paints ih =>
    have hnext : paints? (ofPaint p ++ ofFrame paints) =
        (paints? (ofFrame paints)).map (p :: ·) := by
      obtain ⟨x, y, lit⟩ := p
      cases lit <;> rfl
    have hframe : ofFrame (p :: paints) = ofPaint p ++ ofFrame paints := by
      simp only [ofFrame, List.flatMap_cons, List.append_assoc]
    rw [hframe, hnext, ih, Option.map_some]

end Control

def Terminal.paints? (bytes : ByteArray) : Option (List Paint) :=
  (Control.ofBytes? bytes).bind Control.paints?

theorem Terminal.paints?_frame (paints : List Paint) :
    paints? (frame paints).toUTF8 = some paints := by
  rw [paints?, Control.ofBytes?_frame, Option.bind_some, Control.paints?_ofFrame]

end Chip8
