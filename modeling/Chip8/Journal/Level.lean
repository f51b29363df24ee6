/-!
# Severities and thresholds

A record has a severity; a threshold says up to which severity records are kept, or that none are.
A threshold is named by one word, in capitals when written and in any mixture of ASCII letter cases
when read; blanks are not ignored.
-/

set_option autoImplicit false

namespace Chip8

inductive Severity where
  | error | warn | info | debug | trace
  deriving DecidableEq

namespace Severity

def name : Severity → String
  | error => "ERROR"
  | warn => "WARN"
  | info => "INFO"
  | debug => "DEBUG"
  | trace => "TRACE"

/-- Larger ranks are less severe. -/
def rank : Severity → Nat
  | error => 1
  | warn => 2
  | info => 3
  | debug => 4
  | trace => 5

def all : List Severity := [error, warn, info, debug, trace]

end Severity

inductive Threshold where
  | off
  | upTo (s : Severity)
  deriving DecidableEq

namespace Threshold

def name : Threshold → String
  | off => "OFF"
  | upTo s => s.name

def all : List Threshold := off :: Severity.all.map upTo

def admits : Threshold → Severity → Bool
  | off, _ => false
  | upTo limit, s => s.rank ≤ limit.rank

def parse? (text : String) : Option Threshold := all.find? (·.name == text.map Char.toUpper)

end Threshold

structure UnknownLevel where
  text : String
  deriving DecidableEq

def UnknownLevel.message (u : UnknownLevel) : String := "unknown log level `" ++ u.text ++ "`"

end Chip8
