import Plic.Credentials
import Plic.Run

/-!
# Settings

How wide a level of generated code is, and the credentials that go into it, which come from a file
or from the environment.
-/

namespace Plic

/-- The number of blanks for a level of nesting. -/
structure Indent where
  width : Nat
  positive : 1 ≤ width := by decide
  bounded : width ≤ 16 := by decide

namespace Indent

/-- Four blanks for a level. -/
def standard : Indent := { width := 4 }

/-- The given number of blanks for a level, from 1 to 16. -/
def ofNat? (n : Nat) : Option Indent :=
  if h : 1 ≤ n ∧ n ≤ 16 then some ⟨n, h.1, h.2⟩ else none

end Indent

/-- The settings of a compilation. Without credentials, generated code asks the environment for them
when it runs. -/
structure Config where
  indent : Indent := .standard
  credentials : Option Credentials := none

/-- Why settings are refused. -/
inductive ConfigFault where
  | indent (width : Nat)
  | unreadable (path : String) (reason : SystemError)
  | credentials (fault : Credentials.Fault)

def ConfigFault.message : ConfigFault → String
  | indent width => "indent width must be between 1 and 16, found " ++ toString width
  | unreadable path reason => "cannot read credentials file " ++ path ++ ": " ++ reason.message
  | credentials fault => fault.message

/-- The settings with the given width of a level. -/
def Config.withIndent (c : Config) (width : Nat) : Except ConfigFault Config :=
  match Indent.ofNat? width with
  | some indent => .ok { c with indent := indent }
  | none => .error (.indent width)

inductive Credentials.Origin where
  | file | environment
deriving DecidableEq

def Credentials.load (read : String → Except SystemError String) (path : String) :
    Except ConfigFault Credentials :=
  match read path with
  | .error reason => .error (.unreadable path reason)
  | .ok text =>
    match Credentials.parse text with
    | .ok c => .ok c
    | .error fault => .error (.credentials fault)

/-- Finds credentials: in a file if one is named, and only there; else in the environment. -/
def Credentials.find (read : String → Except SystemError String)
    (lookup : String → Option String) (path : Option String) :
    Except ConfigFault (Option (Credentials × Credentials.Origin)) :=
  match path with
  | some p => (Credentials.load read p).map fun c => some (c, .file)
  | none => .ok ((Credentials.ofEnvironment lookup).map fun c => (c, .environment))

end Plic
