import Intake.Codec.Registry
import Intake.Net.Address.Reader

/-!
# Settings

A collector is configured by two variables: the address that it listens on, and a list of codec
names with commas between them. Both may be unset. The address is read first, so of two bad values
the one of the address is reported.
-/

set_option autoImplicit false
set_option relaxedAutoImplicit false

namespace Intake

structure Settings where
  address : Net.Address
  registry : Registry
  deriving DecidableEq, Repr

namespace Settings

def addressVariable : String := "EVENT_COLLECTOR_ADDR"

def codecsVariable : String := "EVENT_COLLECTOR_CODECS"

/-- The address of a collector for which none is set: port 5000 on every interface. -/
def defaultAddress : String := "0.0.0.0:5000"

def defaultCodecs : String := "gzip,zstd"

/-- Why settings could not be read. -/
inductive Fault
  /-- The value is no address. It is kept with the blanks around it. -/
  | address (value : String)
  | codecs (unknown : Registry.UnknownCodec)
  deriving DecidableEq, Repr

/-- The registry that a list of codec names stands for. -/
def readCodecs (value : String) : Except Fault Registry :=
  (Registry.ofNames ((value.toList.splitOn ',').map String.ofList)).mapError .codecs

/-- The settings that the values of the variables stand for. -/
def read (lookup : String → Option String) : Except Fault Settings :=
  let value := (lookup addressVariable).getD defaultAddress
  match Net.Address.ofText? (Text.trim value) with
  | none => .error (.address value)
  | some address =>
    (readCodecs ((lookup codecsVariable).getD defaultCodecs)).map fun registry ↦
      ⟨address, registry⟩

/-- The settings in one line. -/
def text (settings : Settings) : String :=
  "Config \x7b addr: " ++ settings.address.text ++ ", codecs: " ++ settings.registry.text ++ " \x7d"

namespace Fault

/-- What is wrong with the value, apart from which value it is. -/
def cause : Fault → String
  | address _ => "invalid socket address syntax"
  | codecs unknown => unknown.message

def message : Fault → String
  | address value =>
    addressVariable ++ ": invalid listen address " ++ Text.quoted value ++ ": " ++
      (address value).cause
  | codecs unknown => codecsVariable ++ ": " ++ (codecs unknown).cause

/-- The message, followed by its cause in a paragraph of its own. -/
def report (fault : Fault) : String :=
  fault.message ++ "\n\nCaused by:\n    " ++ fault.cause

end Fault

end Settings

end Intake
