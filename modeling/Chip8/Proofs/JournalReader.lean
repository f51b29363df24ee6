import Chip8.Proofs.AssemblyReader
import Chip8.Proofs.JournalLines

/-!
# Reading a journal back

A journal is a text of lines. No message of a machine has a line break in it and no target a blank, so
the first colon that a blank follows ends the target and the line break ends the message. A reader of
such lines gets back the records of any journal, and no other records with messages and targets of this
kind make up its text.
-/

set_option autoImplicit false

namespace Chip8

def OneLine (text : String) : Prop := '\n' ∉ text.toList

instance (text : String) : Decidable (OneLine text) :=
  inferInstanceAs (Decidable ('\n' ∉ text.toList))

theorem OneLine.append {a b : String} (ha : OneLine a) (hb : OneLine b) : OneLine (a ++ b) := by
  rw [OneLine, String.toList_append, List.mem_append]
  exact not_or.mpr ⟨ha, hb⟩

theorem OneLine.of_isAlphanum {text : String} (h : ∀ c ∈ text.toList, c.isAlphanum = true) :
    OneLine text := fun hc => Bool.false_ne_true (h _ hc)

theorem oneLine_upper (width n : Nat) : OneLine (Hexadecimal.upper width n) := by
  apply OneLine.of_isAlphanum
  intro c h
  rw [Hexadecimal.toList_upper, List.mem_map] at h
  obtain ⟨d, hd, rfl⟩ := h
  exact Hexadecimal.isAlphanum_toUpper_of_mem_digits hd

theorem oneLine_marked (width n : Nat) : OneLine (Hexadecimal.marked width n) := by
  have hprefix : OneLine "0x" := by decide
  apply hprefix.append
  apply OneLine.of_isAlphanum
  intro c h
  rw [Hexadecimal.lower, String.toList_ofList] at h
  exact Hexadecimal.isAlphanum_of_mem_digits h

theorem oneLine_decimal (n : Nat) : OneLine (toString n) := by
  intro h
  have hdigits : (toString n).toList = Nat.toDigits 10 n := Nat.toList_repr
  rw [hdigits] at h
  exact Bool.false_ne_true (Nat.isDigit_of_mem_toDigits (by decide) (by decide) h)

theorem oneLine_registerName (x : Nat) : OneLine (registerName x) :=
  OneLine.append (a := "V") (by decide) (oneLine_upper 1 x)

theorem oneLine_intercalate {separator : String} (hs : OneLine separator) {words : List String}
    (h : ∀ w ∈ words, OneLine w) : OneLine (separator.intercalate words) := by
  induction words with
  | nil => exact List.not_mem_nil
  | cons w words ih =>
    rw [List.forall_mem_cons] at h
    cases words with
    | nil => simpa using h.1
    | cons v words =>
      rw [String.intercalate_cons_cons]
      exact (h.1.append hs).append (ih h.2)

theorem Operand.oneLine_text (o : Operand) : OneLine o.text := by
  cases o with
  | register x => exact oneLine_registerName x
  | byte nn => exact oneLine_marked 2 nn.toNat
  | address nnn => exact oneLine_marked 3 nnn.toNat
  | rows n => exact oneLine_decimal n.toNat
  | index | atIndex | delay | sound | key | glyph | decimal => decide

theorem Mnemonic.oneLine_text (m : Mnemonic) : OneLine m.text := by
  cases m <;> decide

theorem Assembly.oneLine_text (a : Assembly) : OneLine a.text := by
  obtain ⟨m, _ | ⟨o, os⟩⟩ := a
  · exact m.oneLine_text
  · have hoperands : ∀ w ∈ (o :: os).map Operand.text, OneLine w := by
      intro w hw
      obtain ⟨o, -, rfl⟩ := List.mem_map.mp hw
      exact o.oneLine_text
    have hblank : OneLine " " := by decide
    have hcomma : OneLine ", " := by decide
    exact (m.oneLine_text.append hblank).append (oneLine_intercalate hcomma hoperands)

theorem Fault.oneLine_message (f : Fault) : OneLine f.message := by
  have hopcode : OneLine ("invalid opcode " ++ Hexadecimal.marked 4 f.opcode.toNat) :=
    OneLine.append (by decide) (oneLine_marked 4 _)
  exact (hopcode.append (by decide)).append (oneLine_marked 3 _)

theorem Event.oneLine_message (e : Event) : OneLine e.message := by
  have hcolon : OneLine ": " := by decide
  have hblank : OneLine " " := by decide
  cases e with
  | loaded size =>
    have hsize : OneLine ("loaded " ++ toString size) :=
      OneLine.append (by decide) (oneLine_decimal size)
    exact (hsize.append (by decide)).append (oneLine_marked 3 _)
  | resumed key register =>
    have hkey : OneLine ("resumed with key " ++ Hexadecimal.upper 1 key.toNat) :=
      OneLine.append (by decide) (oneLine_upper 1 _)
    exact (hkey.append (by decide)).append (oneLine_registerName register)
  | executing pc opcode instruction =>
    have hword : OneLine (Hexadecimal.marked 3 pc.toNat ++ ": " ++ Hexadecimal.upper 4 opcode.toNat) :=
      ((oneLine_marked 3 _).append hcolon).append (oneLine_upper 4 _)
    exact (hword.append hblank).append instruction.assembly.oneLine_text
  | awaiting register => exact OneLine.append (by decide) (oneLine_registerName register)
  | soundCue pc => exact OneLine.append (by decide) (oneLine_marked 3 _)
  | faulted fault => exact fault.oneLine_message

def Record.joined (rs : List Record) : String := String.join (rs.map Record.line)

theorem Record.joined_cons (r : Record) (rs : List Record) :
    joined (r :: rs) = r.line ++ joined rs := String.join_cons

/-- A record whose line can be taken apart. -/
structure Record.Plain (r : Record) : Prop where
  message : OneLine r.message
  target : ¬ [':', ' '] <:+: r.target.toList

theorem Event.blank_not_mem_target (e : Event) : ' ' ∉ e.target.toList := by
  have hstate : ' ' ∉ "chip8_vm::state".toList := by decide
  have hcpu : ' ' ∉ "chip8_vm::cpu".toList := by decide
  have hinstructions : ' ' ∉ "chip8_vm::instructions".toList := by decide
  cases e with
  | loaded | resumed => exact hstate
  | executing | soundCue | faulted => exact hcpu
  | awaiting => exact hinstructions

theorem Event.plain_record (e : Event) : e.record.Plain where
  message := e.oneLine_message
  target := fun h => e.blank_not_mem_target (h.mem (by simp))

def Severity.ofPadded? (cs : List Char) : Option Severity :=
  all.find? fun s => s.name.toList.rightpad 5 ' ' == cs

theorem Severity.ofPadded?_rightpad (s : Severity) :
    ofPadded? (s.name.toList.rightpad 5 ' ') = some s := by
  cases s <;> rfl

theorem Severity.length_rightpad (s : Severity) : (s.name.toList.rightpad 5 ' ').length = 5 := by
  cases s <;> rfl

/-- What comes before the first colon that a blank follows, and what comes behind the two. -/
def cutColon? : List Char → Option (List Char × List Char)
  | [] => none
  | c :: cs =>
    if c = ':' ∧ cs.head? = some ' ' then some ([], cs.tail)
    else (cutColon? cs).map fun halves => (c :: halves.1, halves.2)

theorem cutColon?_append {cs : List Char} (h : ¬ [':', ' '] <:+: cs) (rest : List Char) :
    cutColon? (cs ++ ':' :: ' ' :: rest) = some (cs, rest) := by
  induction cs with
  | nil => rfl
  | cons c cs ih =>
    rw [List.infix_cons_iff, not_or] at h
    have hno : ¬ (c = ':' ∧ (cs ++ ':' :: ' ' :: rest).head? = some ' ') := by
      rintro ⟨rfl, hblank⟩
      cases cs with
      | nil => cases hblank
      | cons d cs =>
        obtain rfl : d = ' ' := by simpa using hblank
        exact h.1 ⟨cs, rfl⟩
    rw [List.cons_append, cutColon?, if_neg hno, ih h.2]
    rfl

namespace Record

def take? (cs : List Char) : Option (Record × List Char) := do
  let severity ← Severity.ofPadded? (cs.take 5)
  let (target, rest) ← cutColon? (cs.drop 6)
  match rest.dropWhile (· != '\n') with
  | [] => none
  | _ :: next =>
    some (⟨severity, String.ofList target, String.ofList (rest.takeWhile (· != '\n'))⟩, next)

theorem take?_line_append {r : Record} (h : r.Plain) (cs : List Char) :
    take? (r.line.toList ++ cs) = some (r, cs) := by
  have hline : r.line.toList ++ cs = r.severity.name.toList.rightpad 5 ' ' ++
      ' ' :: (r.target.toList ++ ':' :: ' ' :: (r.message.toList ++ '\n' :: cs)) := by
    rw [toList_line]
    simp
  have hmessage : ∀ c ∈ r.message.toList, (c != '\n') = true := by
    intro c hc
    rw [bne_iff_ne]
    rintro rfl
    exact h.message hc
  have htake : (r.line.toList ++ cs).take 5 = r.severity.name.toList.rightpad 5 ' ' := by
    rw [hline]
    exact List.take_left' r.severity.length_rightpad
  have hdrop : (r.line.toList ++ cs).drop 6 =
      r.target.toList ++ ':' :: ' ' :: (r.message.toList ++ '\n' :: cs) := by
    have hheading : (r.severity.name.toList.rightpad 5 ' ' ++ [' ']).length = 6 :=
      List.length_append.trans (congrArg (· + 1) r.severity.length_rightpad)
    rw [hline, List.append_cons]
    exact List.drop_left' hheading
  rw [take?, htake, hdrop, Severity.ofPadded?_rightpad, cutColon?_append h.target]
  simp [List.takeWhile_append_of_pos hmessage, List.dropWhile_append_of_pos hmessage]

theorem length_lt_of_cutColon? {cs target rest : List Char}
    (h : cutColon? cs = some (target, rest)) : rest.length < cs.length := by
  induction cs generalizing target with
  | nil => cases h
  | cons c cs ih =>
    rw [cutColon?] at h
    split at h
    · cases h
      rw [List.length_tail, List.length_cons]
      omega
    · obtain ⟨⟨front, back⟩, hcut, hpair⟩ := Option.map_eq_some_iff.mp h
      cases hpair
      exact (ih hcut).trans (Nat.lt_succ_self _)

theorem length_lt_of_take? {cs next : List Char} {r : Record} (h : take? cs = some (r, next)) :
    next.length < cs.length := by
  simp only [take?, Option.bind_eq_bind, Option.bind_eq_some_iff] at h
  obtain ⟨severity, -, ⟨target, rest⟩, hcut, hrest⟩ := h
  have hbehind : (rest.dropWhile (· != '\n')).length ≤ rest.length :=
    (List.dropWhile_suffix _).length_le
  have hcolon : rest.length < (cs.drop 6).length := length_lt_of_cutColon? hcut
  rw [List.length_drop] at hcolon
  split at hrest
  · cases hrest
  · next c tail htail =>
    cases hrest
    rw [htail, List.length_cons] at hbehind
    omega

def ofText? (cs : List Char) : Option (List Record) :=
  if cs = [] then some []
  else
    match _h : take? cs with
    | none => none
    | some (r, next) => (ofText? next).map (r :: ·)
termination_by cs.length
decreasing_by exact length_lt_of_take? _h

theorem ofText?_line_append {r : Record} (h : r.Plain) (cs : List Char) :
    ofText? (r.line.toList ++ cs) = (ofText? cs).map (r :: ·) := by
  have hline : r.line.toList ++ cs ≠ [] := by
    rw [toList_line]
    simp
  rw [ofText?, if_neg hline]
  split
  · next hnone =>
    rw [take?_line_append h] at hnone
    cases hnone
  · next hsome =>
    rw [take?_line_append h] at hsome
    cases hsome
    rfl

theorem ofText?_joined {rs : List Record} (h : ∀ r ∈ rs, r.Plain) :
    ofText? (joined rs).toList = some rs := by
  induction rs with
  | nil =>
    rw [ofText?]
    exact if_pos rfl
  | cons r rs ih =>
    rw [List.forall_mem_cons] at h
    rw [joined_cons, String.toList_append, ofText?_line_append h.1, ih h.2]
    rfl

theorem joined_inj {rs ss : List Record} (hr : ∀ r ∈ rs, r.Plain) (hs : ∀ s ∈ ss, s.Plain)
    (h : joined rs = joined ss) : rs = ss := by
  have hread := congrArg (fun text => ofText? text.toList) h
  simp only [ofText?_joined hr, ofText?_joined hs] at hread
  exact Option.some.inj hread

theorem line_eq (r : Record) :
    ∃ blanks, r.severity.name.length + blanks = 5 ∧
      r.line = r.severity.name ++ String.ofList (List.replicate blanks ' ') ++ " " ++ r.target ++
        ": " ++ r.message ++ "\n" := by
  have hname : r.severity.name.length ≤ 5 := by cases r.severity <;> decide
  refine ⟨5 - r.severity.name.length, by omega, ?_⟩
  rw [line, text, List.rightpad, String.ofList_append, String.ofList_toList]
  rfl

end Record

end Chip8
