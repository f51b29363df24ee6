import Chip8.CommandLine.Options

/-!
# Reading a command line

Arguments are taken one at a time. A setting given as `--name=value` takes effect at once. One given
as `--name value`, and the program file, are held pending and take effect when the next setting,
flag or file is recognised, or at the end; an argument that is not recognised is refused before what
is pending takes effect. After `--` every argument is a file. That a program is given twice, as a
file and as digits, is noticed last.
-/

set_option autoImplicit false

namespace Chip8

inductive Argument where
  | escape
  | long (name : String) (value : Option String)
  | short (first : Char)
  | plain (text : String)
  deriving DecidableEq

def Argument.ofLong (cs : List Char) : Argument :=
  let name := String.ofList (cs.takeWhile (· != '='))
  match cs.dropWhile (· != '=') with
  | [] => .long name none
  | _ :: value => .long name (some (String.ofList value))

def Argument.ofString (text : String) : Argument :=
  match text.toList with
  | ['-', '-'] => .escape
  | '-' :: '-' :: cs => .ofLong cs
  | '-' :: c :: _ => .short c
  | _ => .plain text

/-- What has been recognised and has not taken effect. -/
inductive Pending where
  | rom (path : String)
  | setting (s : Setting) (value : Option String)
  deriving DecidableEq

structure Reader where
  options : Options
  given : List Setting
  romSeen : Bool
  pending : Option Pending
  filesOnly : Bool
  deriving DecidableEq

namespace Reader

def start : Reader := ⟨.default, [], false, none, false⟩

/-- That a setting is given again is noticed before its value is read. -/
def assign (r : Reader) (s : Setting) (value : String) : Except Stop Reader :=
  if s ∈ r.given then .error (.repeated s)
  else
    match r.options.set s value with
    | .ok o => .ok { r with options := o, given := s :: r.given }
    | .error e => .error e

def settle (r : Reader) : Except Stop Reader :=
  match r.pending with
  | none => .ok r
  | some (.rom path) =>
    match r.options.setRom path with
    | .ok o => .ok { r with options := o, pending := none }
    | .error e => .error e
  | some (.setting s none) => .error (.missingValue s)
  | some (.setting s (some value)) => assign { r with pending := none } s value

def takeFile (r : Reader) (path : String) : Except Stop Reader :=
  if r.romSeen then .error (.unknown path)
  else
    match r.settle with
    | .ok q => .ok { q with romSeen := true, pending := some (.rom path) }
    | .error e => .error e

def takeSetting (r : Reader) (s : Setting) (value : Option String) : Except Stop Reader :=
  match r.settle with
  | .error e => .error e
  | .ok q =>
    match value with
    | some v => q.assign s v
    | none => .ok { q with pending := some (.setting s none) }

def takeFlag (r : Reader) (flag : Stop) : Except Stop Reader :=
  match r.settle with
  | .error e => .error e
  | .ok _ => .error flag

def longFlag? (name : String) : Option Stop :=
  if name = "help" then some .help else if name = "version" then some .version else none

def shortFlag? (c : Char) : Option Stop :=
  if c = 'h' then some .help else if c = 'V' then some .version else none

def takeLong (r : Reader) (name : String) (value : Option String) : Except Stop Reader :=
  match Setting.ofName? name with
  | some s => r.takeSetting s value
  | none =>
    match longFlag? name with
    | none => .error (.unknown name)
    | some flag => if value.isSome then .error (.valueForFlag name) else r.takeFlag flag

def takePlain (r : Reader) (text : String) : Except Stop Reader :=
  match r.pending with
  | some (.setting s none) => .ok { r with pending := some (.setting s (some text)) }
  | _ => r.takeFile text

def take (r : Reader) (text : String) : Except Stop Reader :=
  if r.filesOnly then r.takeFile text
  else
    match Argument.ofString text with
    | .escape => .ok { r with filesOnly := true }
    | .long name value => r.takeLong name value
    | .short c =>
      match shortFlag? c with
      | some flag => r.takeFlag flag
      | none => .error (.unknown text)
    | .plain text => r.takePlain text

def takeAll : List String → Reader → Except Stop Reader
  | [], r => .ok r
  | text :: rest, r =>
    match r.take text with
    | .ok q => takeAll rest q
    | .error e => .error e

def finish (r : Reader) : Except Stop Options :=
  match r.settle with
  | .ok q => q.options.check
  | .error e => .error e

theorem takeAll_append (args rest : List String) (r : Reader) :
    takeAll (args ++ rest) r = (takeAll args r).bind (takeAll rest) := by
  induction args generalizing r with
  | nil => rfl
  | cons text args ih =>
    simp only [List.cons_append, takeAll]
    cases r.take text with
    | ok q => exact ih q
    | error e => rfl

end Reader

def Options.ofArguments (args : List String) : Except Stop Options :=
  match Reader.takeAll args .start with
  | .ok r => r.finish
  | .error e => .error e

end Chip8
