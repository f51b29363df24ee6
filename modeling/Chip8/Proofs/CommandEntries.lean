import Chip8.CommandLine.Options
import Mathlib.Data.List.Nodup

/-!
# What a command line says

What a run is to be given is a list of entries, a program file or a setting with its value each. An
entry is written as one argument or as two, a number with any zeros before it, a level with letters of
any case, and the entries stand in any order; a program file that comes last may stand behind two
hyphens. Entries about different settings do not get in each other's way, and each value is read from
all its texts.
-/

set_option autoImplicit false

namespace Chip8

inductive Entry where
  | rom (path : String)
  | hex (digits : String)
  | frameMs (n : UInt64)
  | cyclesPerFrame (n : UInt64)
  | keyHoldFrames (n : UInt32)
  | seed (n : UInt64)
  | logFile (path : String)
  | logLevel (t : Threshold)
  deriving DecidableEq

namespace Entry

def setting? : Entry → Option Setting
  | rom _ => none
  | hex _ => some .hex
  | frameMs _ => some .frameMs
  | cyclesPerFrame _ => some .cyclesPerFrame
  | keyHoldFrames _ => some .keyHoldFrames
  | seed _ => some .seed
  | logFile _ => some .logFile
  | logLevel _ => some .logLevel

def put : Entry → Options → Options
  | rom path, o => { o with rom := some path }
  | hex digits, o => { o with hex := some digits }
  | frameMs n, o => { o with frameMs := n.toNat }
  | cyclesPerFrame n, o => { o with cyclesPerFrame := n.toNat }
  | keyHoldFrames n, o => { o with keyHoldFrames := n.toNat }
  | seed n, o => { o with seed := some n }
  | logFile path, o => { o with logFile := path }
  | logLevel t, o => { o with logLevel := t }

def Holds : Entry → Options → Prop
  | rom path, o => o.rom = some path
  | hex digits, o => o.hex = some digits
  | frameMs n, o => o.frameMs = n.toNat
  | cyclesPerFrame n, o => o.cyclesPerFrame = n.toNat
  | keyHoldFrames n, o => o.keyHoldFrames = n.toNat
  | seed n, o => o.seed = some n
  | logFile path, o => o.logFile = path
  | logLevel t, o => o.logLevel = t

end Entry

def Options.Agree (o p : Options) : Option Setting → Prop
  | none => o.rom = p.rom
  | some .hex => o.hex = p.hex
  | some .frameMs => o.frameMs = p.frameMs
  | some .cyclesPerFrame => o.cyclesPerFrame = p.cyclesPerFrame
  | some .keyHoldFrames => o.keyHoldFrames = p.keyHoldFrames
  | some .seed => o.seed = p.seed
  | some .logFile => o.logFile = p.logFile
  | some .logLevel => o.logLevel = p.logLevel

theorem Options.Agree.refl (o : Options) (f : Option Setting) : o.Agree o f := by
  unfold Agree
  split <;> rfl

theorem Options.Agree.trans {o p q : Options} {f : Option Setting} (h : o.Agree p f)
    (hp : p.Agree q f) : o.Agree q f := by
  revert h hp
  unfold Agree
  split <;> exact Eq.trans

namespace Entry

theorem holds_put (e : Entry) (o : Options) : e.Holds (e.put o) := by
  cases e <;> rfl

theorem agree_put {e : Entry} {f : Option Setting} (h : e.setting? ≠ f) (o : Options) :
    (e.put o).Agree o f := by
  unfold Options.Agree
  cases e <;> split <;> first | rfl | exact absurd rfl h

theorem Holds.of_agree {e : Entry} {o p : Options} (h : e.Holds p) (ha : o.Agree p e.setting?) :
    e.Holds o := by
  cases e <;> exact Eq.trans ha h

theorem agree_foldl {f : Option Setting} {es : List Entry} (h : f ∉ es.map setting?) (o : Options) :
    (es.foldl (fun o e => e.put o) o).Agree o f := by
  induction es generalizing o with
  | nil => exact .refl o f
  | cons e es ih =>
    rw [List.map_cons, List.mem_cons, not_or] at h
    exact (ih h.2 _).trans (agree_put (Ne.symm h.1) o)

theorem holds_foldl {es : List Entry} (h : (es.map setting?).Nodup) (o : Options) :
    ∀ e ∈ es, e.Holds (es.foldl (fun o e => e.put o) o) := by
  induction es generalizing o with
  | nil => exact fun e he => absurd he List.not_mem_nil
  | cons e es ih =>
    rw [List.map_cons, List.nodup_cons] at h
    rw [List.forall_mem_cons]
    exact ⟨(e.holds_put o).of_agree (agree_foldl h.1 _), ih h.2 _⟩

end Entry

def IsDecimal (text : String) (n : Nat) : Prop :=
  text ≠ "" ∧ text.toList.all Char.isDigit = true ∧ Nat.ofDigitChars 10 text.toList 0 = n

def AnyCase (text name : String) : Prop :=
  List.Forall₂ (fun c u => c = u ∨ c = u.toLower) text.toList name.toList

def IsHyphened (text : String) : Prop := text.toList.head? = some '-'

instance (text : String) (n : Nat) : Decidable (IsDecimal text n) :=
  inferInstanceAs (Decidable (text ≠ "" ∧ text.toList.all Char.isDigit = true ∧
    Nat.ofDigitChars 10 text.toList 0 = n))

instance (text : String) : Decidable (IsHyphened text) :=
  inferInstanceAs (Decidable (text.toList.head? = some '-'))

namespace Entry

/-- The texts that stand for the value of an entry. -/
def Writes : Entry → String → Prop
  | rom path, text => text = path ∧ text ≠ "" ∧ ¬ IsHyphened text
  | hex digits, text => text = digits ∧ text ≠ ""
  | frameMs n, text => IsDecimal text n.toNat
  | cyclesPerFrame n, text => IsDecimal text n.toNat
  | keyHoldFrames n, text => IsDecimal text n.toNat
  | seed n, text => IsDecimal text n.toNat
  | logFile path, text => text = path ∧ text ≠ ""
  | logLevel t, text => AnyCase text t.name

def text : Entry → String
  | rom path => path
  | hex digits => digits
  | frameMs n => toString n.toNat
  | cyclesPerFrame n => toString n.toNat
  | keyHoldFrames n => toString n.toNat
  | seed n => toString n.toNat
  | logFile path => path
  | logLevel t => t.name

inductive Spells : Entry → List String → Prop where
  | file {path text : String} (h : (rom path).Writes text) : Spells (rom path) [text]
  | joined {e : Entry} {s : Setting} {text : String} (hs : e.setting? = some s)
      (h : e.Writes text) : Spells e ["--" ++ s.name ++ "=" ++ text]
  | apart {e : Entry} {s : Setting} {text : String} (hs : e.setting? = some s)
      (h : e.Writes text) (hy : ¬ IsHyphened text) : Spells e ["--" ++ s.name, text]

end Entry

/-- The program file may come last behind two hyphens. -/
inductive CommandLine : List Entry → List String → Prop where
  | nil : CommandLine [] []
  | cons {e : Entry} {es : List Entry} {words args : List String} (h : e.Spells words)
      (hrest : CommandLine es args) : CommandLine (e :: es) (words ++ args)
  | last {path text : String} (h : (Entry.rom path).Writes text) :
      CommandLine [.rom path] ["--", text]

theorem isDecimal_toString (n : Nat) : IsDecimal (toString n) n := by
  have hdigits : (toString n).toList = Nat.toDigits 10 n := Nat.toList_repr
  refine ⟨?_, ?_, ?_⟩
  · intro h
    rw [h] at hdigits
    exact Nat.toDigits_ne_nil hdigits.symm
  · rw [hdigits, List.all_eq_true]
    exact fun c => Nat.isDigit_of_mem_toDigits (by decide) (by decide)
  · rw [hdigits, Nat.ofDigitChars_ten_toDigits]

theorem anyCase_self (name : String) : AnyCase name name :=
  List.forall₂_same.mpr fun _ _ => .inl rfl

theorem Entry.writes_text {e : Entry} (hne : e.text ≠ "")
    (hy : e.setting? = none → ¬ IsHyphened e.text) : e.Writes e.text := by
  cases e with
  | rom path => exact ⟨rfl, hne, hy rfl⟩
  | hex digits => exact ⟨rfl, hne⟩
  | frameMs n => exact isDecimal_toString n.toNat
  | cyclesPerFrame n => exact isDecimal_toString n.toNat
  | keyHoldFrames n => exact isDecimal_toString n.toNat
  | seed n => exact isDecimal_toString n.toNat
  | logFile path => exact ⟨rfl, hne⟩
  | logLevel t => exact anyCase_self t.name

namespace Number

theorem value_eq (cs : List Char) : value cs = Nat.ofDigitChars 10 cs 0 := by
  have hstep : ∀ (n : Nat) (c : Char),
      n * 10 + (c.toNat - '0'.toNat) = 10 * n + (c.toNat - '0'.toNat) := by
    intro n c
    rw [Nat.mul_comm]
  simp only [value, Nat.ofDigitChars_eq_foldl, hstep]

theorem unsigned?_of_isDecimal {text : String} {n : Nat} (h : IsDecimal text n) :
    unsigned? text.toList = some n := by
  obtain ⟨hne, hall, hvalue⟩ := h
  have hempty : text.toList.isEmpty = false := by
    rwa [List.isEmpty_eq_false_iff, Ne, String.toList_eq_nil_iff]
  have hdigits : text.toList.all isDigit = true := hall
  rw [unsigned?, hempty, hdigits, value_eq, hvalue]
  rfl

theorem head_ne_of_isDecimal {text : String} {n : Nat} (h : IsDecimal text n) {c : Char}
    (hc : c.isDigit = false) (cs : List Char) : text.toList ≠ c :: cs := by
  intro htext
  have hdigit : c.isDigit = true := List.all_eq_true.mp h.2.1 c (by simp [htext])
  rw [hc] at hdigit
  cases hdigit

theorem natural?_of_isDecimal {text : String} {n bound : Nat} (h : IsDecimal text n)
    (hn : n < bound) : natural? bound text = some n := by
  unfold natural?
  split
  next cs hplus => exact absurd hplus (head_ne_of_isDecimal h (by decide) cs)
  next => rw [unsigned?_of_isDecimal h, Option.filter_some, if_pos (decide_eq_true hn)]

theorem signed?_of_isDecimal {text : String} {n bound : Nat} (h : IsDecimal text n)
    (hn : n < bound) : signed? bound text = some n := by
  unfold signed?
  split
  · next cs hminus => exact absurd hminus (head_ne_of_isDecimal h (by decide) cs)
  · exact natural?_of_isDecimal h hn

end Number

theorem map_toUpper_of_anyCase {text name : String} (h : AnyCase text name)
    (hname : ∀ u ∈ name.toList, u.toUpper = u ∧ u.toLower.toUpper = u) :
    text.map Char.toUpper = name := by
  have hlists : ∀ {cs us : List Char}, List.Forall₂ (fun c u => c = u ∨ c = u.toLower) cs us →
      (∀ u ∈ us, u.toUpper = u ∧ u.toLower.toUpper = u) → cs.map Char.toUpper = us := by
    intro cs us h hus
    induction h with
    | nil => rfl
    | cons hc _ ih =>
      rw [List.forall_mem_cons] at hus
      rw [List.map_cons, ih hus.2]
      rcases hc with rfl | rfl
      · rw [hus.1.1]
      · rw [hus.1.2]
  rw [← String.toList_inj, String.toList_map]
  exact hlists h hname

theorem Threshold.parse?_of_anyCase {text : String} {t : Threshold} (h : AnyCase text t.name) :
    parse? text = some t := by
  have hall : (t.name.toList.all fun u => u.toUpper == u && u.toLower.toUpper == u) = true := by
    rcases t with _ | _ | _ | _ | _ | _ <;> rfl
  have hname : ∀ u ∈ t.name.toList, u.toUpper = u ∧ u.toLower.toUpper = u := by
    intro u hu
    have hboth := List.all_eq_true.mp hall u hu
    rwa [Bool.and_eq_true, beq_iff_eq, beq_iff_eq] at hboth
  rw [parse?, map_toUpper_of_anyCase h hname]
  rcases t with _ | _ | _ | _ | _ | _ <;> rfl

theorem Options.set_of_writes {e : Entry} {s : Setting} (hs : e.setting? = some s) {text : String}
    (h : e.Writes text) (o : Options) : o.set s text = .ok (e.put o) := by
  cases e with
  | rom path => cases hs
  | hex digits =>
    cases hs
    obtain ⟨rfl, -⟩ := h
    rfl
  | frameMs n =>
    cases hs
    simp only [set, Number.natural?_of_isDecimal h n.toNat_lt, Entry.put]
  | cyclesPerFrame n =>
    cases hs
    simp only [set, Number.natural?_of_isDecimal h n.toNat_lt, Entry.put]
  | keyHoldFrames n =>
    cases hs
    simp only [set, Number.signed?_of_isDecimal h n.toNat_lt, Entry.put]
  | seed n =>
    cases hs
    simp only [set, Number.natural?_of_isDecimal h n.toNat_lt, Entry.put, UInt64.ofNat_toNat]
  | logFile path =>
    cases hs
    obtain ⟨rfl, hne⟩ := h
    have hempty : text.isEmpty = false := by simpa using hne
    simp only [set, hempty, Entry.put, Bool.false_eq_true, if_false]
  | logLevel t =>
    cases hs
    simp only [set, Threshold.parse?_of_anyCase h, Entry.put]

end Chip8
