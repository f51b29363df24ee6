import Chip8.Journal.Event
import Chip8.Proofs.Digits

/-!
# Reading assembly lines back

A line is its mnemonic and its operands with blanks between them, and the commas say nothing more. Each
kind of operand can be told by its spelling, and the mnemonic together with the kinds of its operands says
which instruction it is. So there is a reader that gets every instruction back from its line, whatever
numbers are in it, and two instructions never share a line. The message about a word that stands for no
instruction begins with a letter that no line begins with.
-/

set_option autoImplicit false

namespace Chip8

def isSeparator (c : Char) : Bool := c == ' ' || c == ','

theorem isSeparator_of_isAlphanum {c : Char} (h : c.isAlphanum = true) : isSeparator c = false := by
  rw [isSeparator, Bool.or_eq_false_iff, beq_eq_false_iff_ne, beq_eq_false_iff_ne]
  constructor <;> rintro rfl <;> cases h

namespace Mnemonic

def all : List Mnemonic :=
  [cls, ret, jp, call, se, sne, ld, add, or, and, xor, sub, subn, shr, shl, rnd, drw, skp, sknp]

def read? (cs : List Char) : Option Mnemonic := all.find? fun m => m.text.toList == cs

theorem read?_text (m : Mnemonic) : read? m.text.toList = some m := by
  cases m <;> rfl

theorem isUpper_text (m : Mnemonic) : m.text.toList.all Char.isUpper = true := by
  cases m <;> rfl

theorem isSeparator_text (m : Mnemonic) : ∀ c ∈ m.text.toList, isSeparator c = false := by
  intro c h
  have hupper : c.isUpper = true := List.all_eq_true.mp m.isUpper_text c h
  have halphanum : c.isAlphanum = (c.isUpper || c.isLower || c.isDigit) := rfl
  rw [hupper, Bool.true_or, Bool.true_or] at halphanum
  exact isSeparator_of_isAlphanum halphanum

end Mnemonic

namespace Operand

/-- What has digits only is a row count; behind `0x`, a byte has two digits and an address has more. -/
def read? (cs : List Char) : Option Operand :=
  if cs.all Char.isDigit then some (.rows (UInt8.ofNat (Nat.ofDigitChars 10 cs 0)))
  else
    match cs with
    | 'V' :: ds => some (.register (Hexadecimal.valueOf ds))
    | '0' :: 'x' :: ds =>
      if ds.length = 2 then some (.byte (UInt8.ofNat (Hexadecimal.valueOf ds)))
      else some (.address (UInt16.ofNat (Hexadecimal.valueOf ds)))
    | ['I'] => some .index
    | ['[', 'I', ']'] => some .atIndex
    | ['D', 'T'] => some .delay
    | ['S', 'T'] => some .sound
    | ['K'] => some .key
    | ['F'] => some .glyph
    | ['B'] => some .decimal
    | _ => none

theorem read?_register (ds : List Char) :
    read? ('V' :: ds) = some (.register (Hexadecimal.valueOf ds)) := rfl

theorem read?_marked (ds : List Char) :
    read? ('0' :: 'x' :: ds) =
      if ds.length = 2 then some (.byte (UInt8.ofNat (Hexadecimal.valueOf ds)))
      else some (.address (UInt16.ofNat (Hexadecimal.valueOf ds))) := rfl

theorem toList_text_register (x : Nat) :
    (register x).text.toList = 'V' :: (Hexadecimal.digits 1 x).map Char.toUpper := by
  simp [text, registerName, Hexadecimal.toList_upper]

theorem toList_text_rows (n : UInt8) : (rows n).text.toList = Nat.toDigits 10 n.toNat :=
  Nat.toList_repr

theorem read?_text (o : Operand) : read? o.text.toList = some o := by
  cases o with
  | register x => rw [toList_text_register, read?_register, Hexadecimal.valueOf_digits_toUpper]
  | byte nn =>
    have hlength : (Hexadecimal.digits 2 nn.toNat).length = 2 :=
      Hexadecimal.length_digits (by decide) nn.toNat_lt
    rw [text, Hexadecimal.toList_marked, read?_marked, if_pos hlength, Hexadecimal.valueOf_digits,
      UInt8.ofNat_toNat]
  | address nnn =>
    have hlength : (Hexadecimal.digits 3 nnn.toNat).length ≠ 2 :=
      Nat.ne_of_gt (Hexadecimal.le_length_digits 3 nnn.toNat)
    rw [text, Hexadecimal.toList_marked, read?_marked, if_neg hlength, Hexadecimal.valueOf_digits,
      UInt16.ofNat_toNat]
  | rows n =>
    have hdigits : (Nat.toDigits 10 n.toNat).all Char.isDigit = true :=
      List.all_eq_true.mpr fun c => Nat.isDigit_of_mem_toDigits (by decide) (by decide)
    unfold read?
    rw [toList_text_rows, if_pos hdigits, Nat.ofDigitChars_ten_toDigits, UInt8.ofNat_toNat]
  | _ => rfl

theorem isSeparator_marked (width n : Nat) :
    ∀ c ∈ (Hexadecimal.marked width n).toList, isSeparator c = false := by
  intro c h
  rw [Hexadecimal.toList_marked, List.mem_cons, List.mem_cons] at h
  rcases h with rfl | rfl | h
  · rfl
  · rfl
  · exact isSeparator_of_isAlphanum (Hexadecimal.isAlphanum_of_mem_digits h)

theorem isSeparator_text (o : Operand) : ∀ c ∈ o.text.toList, isSeparator c = false := by
  cases o with
  | register x =>
    intro c h
    rw [toList_text_register, List.mem_cons, List.mem_map] at h
    rcases h with rfl | ⟨d, hd, rfl⟩
    · rfl
    · exact isSeparator_of_isAlphanum (Hexadecimal.isAlphanum_toUpper_of_mem_digits hd)
  | byte nn => exact isSeparator_marked 2 nn.toNat
  | address nnn => exact isSeparator_marked 3 nnn.toNat
  | rows n =>
    intro c h
    rw [toList_text_rows] at h
    have hdigit : c.isDigit = true := Nat.isDigit_of_mem_toDigits (by decide) (by decide) h
    have halphanum : c.isAlphanum = (c.isAlpha || c.isDigit) := rfl
    rw [hdigit, Bool.or_true] at halphanum
    exact isSeparator_of_isAlphanum halphanum
  | index | atIndex | delay | sound | key | glyph | decimal => simp [text, isSeparator]

end Operand

namespace Assembly

def words (a : Assembly) : List (List Char) :=
  a.mnemonic.text.toList :: a.operands.map fun o => o.text.toList

theorem isSeparator_words (a : Assembly) : ∀ w ∈ a.words, ∀ c ∈ w, isSeparator c = false := by
  intro w hw
  rw [words, List.mem_cons, List.mem_map] at hw
  rcases hw with rfl | ⟨o, -, rfl⟩
  · exact a.mnemonic.isSeparator_text
  · exact o.isSeparator_text

theorem filter_word {w : List Char} (h : ∀ c ∈ w, isSeparator c = false) :
    w.filter (· != ',') = w := by
  rw [List.filter_eq_self]
  intro c hc
  have hcomma := (Bool.or_eq_false_iff.mp (h c hc)).2
  rw [bne, hcomma, Bool.not_false]

theorem filter_intercalate {ws : List (List Char)} (h : ∀ w ∈ ws, ∀ c ∈ w, isSeparator c = false) :
    ([',', ' '].intercalate ws).filter (· != ',') = [' '].intercalate ws := by
  induction ws with
  | nil => rfl
  | cons w ws ih =>
    rw [List.forall_mem_cons] at h
    cases ws with
    | nil => simpa using filter_word h.1
    | cons v ws =>
      rw [List.intercalate_cons_cons, List.intercalate_cons_cons, List.filter_append,
        List.filter_append, filter_word h.1, ih h.2]
      rfl

theorem filter_text (a : Assembly) :
    a.text.toList.filter (· != ',') = [' '].intercalate a.words := by
  obtain ⟨m, _ | ⟨o, os⟩⟩ := a
  · simpa [text, words] using filter_word m.isSeparator_text
  · have hoperands : ∀ w ∈ (o :: os).map fun o => o.text.toList, ∀ c ∈ w, isSeparator c = false :=
      fun w hw => isSeparator_words ⟨m, o :: os⟩ w (List.mem_cons_of_mem _ hw)
    have htext : (text ⟨m, o :: os⟩).toList = m.text.toList ++ [' '] ++
        [',', ' '].intercalate ((o :: os).map fun o => o.text.toList) := by
      simp only [text, String.toList_append, String.toList_intercalate, List.map_map,
        Function.comp_def]
      rfl
    rw [htext, List.filter_append, List.filter_append, filter_word m.isSeparator_text,
      filter_intercalate hoperands]
    exact List.intercalate_cons_cons.symm

theorem splitOn_text (a : Assembly) :
    (a.text.toList.filter (· != ',')).splitOn ' ' = a.words := by
  have hblank : ∀ w ∈ a.words, ' ' ∉ w := fun w hw hc =>
    Bool.false_ne_true (a.isSeparator_words w hw ' ' hc).symm
  rw [filter_text, List.splitOn_intercalate ' ' hblank (List.cons_ne_nil _ _)]

def ofWords? : List (List Char) → Option Assembly
  | [] => none
  | m :: os => do
    let m ← Mnemonic.read? m
    let os ← os.mapM Operand.read?
    return ⟨m, os⟩

theorem ofWords?_words (a : Assembly) : ofWords? a.words = some a := by
  have hread : (Operand.read? ∘ fun o : Operand => o.text.toList) = pure :=
    funext Operand.read?_text
  have hoperands : a.operands.mapM (pure : Operand → Option Operand) = some a.operands :=
    List.mapM_pure.trans (congrArg some (List.map_id' a.operands))
  rw [words, ofWords?, Mnemonic.read?_text, List.mapM_map, hread, hoperands]
  rfl

def instruction? : Assembly → Option Instruction
  | ⟨.cls, []⟩ => some .clearScreen
  | ⟨.ret, []⟩ => some .ret
  | ⟨.jp, [.address nnn]⟩ => some (.jump nnn)
  | ⟨.call, [.address nnn]⟩ => some (.call nnn)
  | ⟨.se, [.register x, .byte nn]⟩ => some (.skipEqByte x nn)
  | ⟨.sne, [.register x, .byte nn]⟩ => some (.skipNeByte x nn)
  | ⟨.se, [.register x, .register y]⟩ => some (.skipEq x y)
  | ⟨.sne, [.register x, .register y]⟩ => some (.skipNe x y)
  | ⟨.ld, [.register x, .byte nn]⟩ => some (.loadByte x nn)
  | ⟨.add, [.register x, .byte nn]⟩ => some (.addByte x nn)
  | ⟨.ld, [.register x, .register y]⟩ => some (.copy x y)
  | ⟨.or, [.register x, .register y]⟩ => some (.or x y)
  | ⟨.and, [.register x, .register y]⟩ => some (.and x y)
  | ⟨.xor, [.register x, .register y]⟩ => some (.xor x y)
  | ⟨.add, [.register x, .register y]⟩ => some (.add x y)
  | ⟨.sub, [.register x, .register y]⟩ => some (.sub x y)
  | ⟨.subn, [.register x, .register y]⟩ => some (.subFrom x y)
  | ⟨.shr, [.register x]⟩ => some (.shiftRight x)
  | ⟨.shl, [.register x]⟩ => some (.shiftLeft x)
  | ⟨.ld, [.index, .address nnn]⟩ => some (.setIndex nnn)
  | ⟨.jp, [.register _, .address nnn]⟩ => some (.jumpOffset nnn)
  | ⟨.rnd, [.register x, .byte nn]⟩ => some (.random x nn)
  | ⟨.drw, [.register x, .register y, .rows n]⟩ => some (.draw x y n)
  | ⟨.skp, [.register x]⟩ => some (.skipKey x)
  | ⟨.sknp, [.register x]⟩ => some (.skipNoKey x)
  | ⟨.ld, [.register x, .delay]⟩ => some (.readDelay x)
  | ⟨.ld, [.register x, .key]⟩ => some (.awaitKey x)
  | ⟨.ld, [.delay, .register x]⟩ => some (.setDelay x)
  | ⟨.ld, [.sound, .register x]⟩ => some (.setSound x)
  | ⟨.add, [.index, .register x]⟩ => some (.addIndex x)
  | ⟨.ld, [.glyph, .register x]⟩ => some (.glyph x)
  | ⟨.ld, [.decimal, .register x]⟩ => some (.storeDecimal x)
  | ⟨.ld, [.atIndex, .register x]⟩ => some (.saveRegisters x)
  | ⟨.ld, [.register x, .atIndex]⟩ => some (.loadRegisters x)
  | _ => none

theorem instruction?_assembly (i : Instruction) : i.assembly.instruction? = some i := by
  cases i <;> rfl

end Assembly

namespace Instruction

def read? (line : String) : Option Instruction :=
  (Assembly.ofWords? ((line.toList.filter (· != ',')).splitOn ' ')).bind Assembly.instruction?

theorem read?_text (i : Instruction) : read? i.text = some i := by
  rw [read?, text, Assembly.splitOn_text, Assembly.ofWords?_words]
  exact Assembly.instruction?_assembly i

theorem text_inj {i j : Instruction} (h : i.text = j.text) : i = j := by
  have hread := congrArg read? h
  rw [read?_text, read?_text] at hread
  exact Option.some.inj hread

end Instruction

theorem Fault.toList_message (f : Fault) :
    f.message.toList = "invalid opcode ".toList ++ '0' :: 'x' :: (Hexadecimal.digits 4 f.opcode.toNat ++
      (" at ".toList ++ '0' :: 'x' :: Hexadecimal.digits 3 f.pc.toNat)) := by
  have hparts : f.message = "invalid opcode " ++ Hexadecimal.marked 4 f.opcode.toNat ++ " at " ++
      Hexadecimal.marked 3 f.pc.toNat := rfl
  simp only [hparts, String.toList_append, Hexadecimal.toList_marked, List.append_assoc,
    List.cons_append]

/-- An opcode takes up four digits, so the message can be cut behind it. -/
theorem Fault.message_inj {f g : Fault} (h : f.message = g.message) : f = g := by
  have hlength : ∀ f : Fault, (Hexadecimal.digits 4 f.opcode.toNat).length = 4 := fun f =>
    Hexadecimal.length_digits (by decide) f.opcode.toNat_lt
  have hlist := congrArg String.toList h
  rw [toList_message, toList_message] at hlist
  simp only [List.append_right_inj, List.cons.injEq, true_and] at hlist
  obtain ⟨hopcode, hrest⟩ := List.append_inj hlist ((hlength f).trans (hlength g).symm)
  simp only [List.append_right_inj, List.cons.injEq, true_and] at hrest
  obtain ⟨opcode, pc⟩ := f
  rw [Fault.mk.injEq]
  exact ⟨UInt16.toNat_inj.mp (Hexadecimal.digits_inj hopcode),
    UInt16.toNat_inj.mp (Hexadecimal.digits_inj hrest)⟩

theorem Mnemonic.exists_text_eq_cons (m : Mnemonic) :
    ∃ c cs, m.text.toList = c :: cs ∧ c.isUpper = true := by
  cases m <;> exact ⟨_, _, rfl, rfl⟩

theorem Assembly.exists_text_eq_append (a : Assembly) : ∃ rest, a.text = a.mnemonic.text ++ rest := by
  obtain ⟨m, _ | ⟨o, os⟩⟩ := a
  · exact ⟨"", String.append_empty.symm⟩
  · exact ⟨_, String.append_assoc⟩

/-- A line begins with a capital letter and the message does not. -/
theorem Instruction.text_ne_message (i : Instruction) (u : UnknownOpcode) : i.text ≠ u.message := by
  intro h
  obtain ⟨rest, hrest⟩ := i.assembly.exists_text_eq_append
  obtain ⟨c, cs, hm, hc⟩ := i.assembly.mnemonic.exists_text_eq_cons
  have hline : i.text.toList = c :: (cs ++ rest.toList) := by
    rw [text, hrest, String.toList_append, hm]
    rfl
  have hmessage : u.message.toList =
      'i' :: ("nvalid opcode ".toList ++ (Hexadecimal.marked 4 u.opcode.toNat).toList) :=
    String.toList_append
  rw [h, hmessage] at hline
  rw [← (List.cons.inj hline).1] at hc
  exact absurd hc (by decide)

/-- The text of an instruction, whatever its operands, is the text of no other and of no message, so two
words are listed alike just if they stand for the same instruction. -/
theorem lines_tell_apart :
    Function.Injective Instruction.text ∧
    (∀ (v w : UInt16) (i j : Instruction),
      Instruction.decode? v = some i → Instruction.decode? w = some j →
        (disassemble v = disassemble w ↔ i = j)) ∧
    (∀ (i : Instruction) (u : UnknownOpcode), i.text ≠ u.message) ∧
    Function.Injective Fault.message := by
  refine ⟨fun i j h => Instruction.text_inj h, ?_, fun i u => i.text_ne_message u,
    fun f g h => Fault.message_inj h⟩
  intro v w i j hv hw
  have htext : ∀ {w : UInt16} {i : Instruction}, Instruction.decode? w = some i →
      disassemble w = i.text := by
    intro w i h
    rw [disassemble, h]
  rw [htext hv, htext hw]
  exact ⟨Instruction.text_inj, congrArg Instruction.text⟩

theorem lines_tell_apart_free_digit :
    Instruction.decode? 0x5120 = some (.skipEq 1 2) ∧
      Instruction.decode? 0x5123 = some (.skipEq 1 2) ∧
      disassemble 0x5120 = disassemble 0x5123 := by
  have hv : Instruction.decode? 0x5120 = some (.skipEq 1 2) := by decide
  have hw : Instruction.decode? 0x5123 = some (.skipEq 1 2) := by decide
  exact ⟨hv, hw, (lines_tell_apart.2.1 _ _ _ _ hv hw).mpr rfl⟩

end Chip8
