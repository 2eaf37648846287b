import Intake.Json.Value

/-!
# Acknowledgements

Every event of a batch that is taken in gets an acknowledgement, which is a status: 202, accepted.
-/

set_option autoImplicit false
set_option relaxedAutoImplicit false

namespace Intake

/-- The acknowledgement of one event. -/
structure Ack where
  status : UInt16
  deriving DecidableEq, Repr

namespace Ack

def accepted : Ack := ⟨202⟩

/-- The key of the status in the JSON form of an acknowledgement. -/
def statusKey : String := "status"

def toJson (ack : Ack) : Json.Value :=
  .object [(statusKey, .number (.ofNat ack.status.toNat))]

/-- The JSON form of a list of acknowledgements. -/
def listToJson (acks : List Ack) : Json.Value :=
  .list (acks.map toJson)

end Ack

end Intake
