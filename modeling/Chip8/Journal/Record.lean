import Chip8.Journal.Level

/-!
# Records

A record is one line of a journal: a severity, a target that says where it comes from, and a
message. A journal keeps the records that its threshold admits.
-/

set_option autoImplicit false

namespace Chip8

structure Record where
  severity : Severity
  target : String
  message : String
  deriving DecidableEq

namespace Record

def text (r : Record) : String :=
  String.ofList (r.severity.name.toList.rightpad 5 ' ') ++ " " ++ r.target ++ ": " ++ r.message

def line (r : Record) : String := r.text ++ "\n"

end Record

def Threshold.written (t : Threshold) (r : Record) : String :=
  if t.admits r.severity then r.line else ""

structure Journal where
  threshold : Option Threshold
  deriving DecidableEq

structure AlreadyInstalled where
  deriving DecidableEq

def AlreadyInstalled.message (_ : AlreadyInstalled) : String := "logger already installed"

namespace Journal

def absent : Journal := ⟨none⟩

/-- A journal is installed once and then keeps its threshold. -/
def install (j : Journal) (t : Threshold) : Except AlreadyInstalled Journal :=
  match j.threshold with
  | none => .ok ⟨some t⟩
  | some _ => .error ⟨⟩

end Journal

end Chip8
