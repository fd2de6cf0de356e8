import Canopus.Channel.Operator

/-! The status of an outgoing payment, as Core Lightning reports it (`cln_node.rs`). The text of an error of
    `hex::decode` is a parameter. -/

namespace Canopus

/-- `serde_json::Value`. The keys of an object are distinct. -/
inductive Json where
  | null
  | bool (value : Bool)
  | number (text : String)
  | string (value : String)
  | array (values : List Json)
  | object (fields : List (String × Json))

namespace Json

/-- `Value::get` with a key. -/
def get (key : String) : Json → Option Json
  | .object fields => fields.lookup key
  | _ => none

def asStr : Json → Option String
  | .string value => some value
  | _ => none

def asArray : Json → Option (List Json)
  | .array values => some values
  | _ => none

/-- `get` followed by `as_str`. -/
def getStr (key : String) (value : Json) : Option String := (value.get key).bind asStr

end Json

variable (hexError : String → String)

/-- The result for a payment that is complete. -/
def completeStatus (payment : Json) : Except NodeError PaymentStatus :=
  match payment.getStr "payment_preimage" with
  | none => .error (.rpc "complete sendpay missing preimage")
  | some preimageHex =>
    match hexDecode preimageHex.toList with
    | none => .error (.rpc (hexError preimageHex))
    | some bytes =>
      if h : bytes.length = 32 then .ok (.succeeded ⟨bytes, h⟩) else .error (.rpc "preimage is not 32 bytes")

/-- The failure onion of a payment, empty when there is none that can be read. -/
def failureOnionOf (payment : Json) : Bytes :=
  let onion := (((payment.get "erroronion").or (payment.get "onionreply")).bind Json.asStr).getD ""
  (hexDecode onion.toList).getD []

/-- What the loop returns at a payment, `none` when it goes on. -/
def statusOfPayment (label : String) (payment : Json) : Option (Except NodeError PaymentStatus) :=
  if payment.getStr "label" ≠ some label then none
  else
    match payment.getStr "status" with
    | some "complete" => some (completeStatus hexError payment)
    | some "failed" => some (.ok (.failed (failureOnionOf payment)))
    | some "pending" => some (.ok .pending)
    | _ => none

def paymentStatusFromListsendpaysResponse (label : String) (response : Json) : Except NodeError PaymentStatus :=
  match (response.get "payments").bind Json.asArray with
  | none => .ok .unknown
  | some pays => (pays.findSome? (statusOfPayment hexError label)).getD (.ok .unknown)

end Canopus
