/-!
# Causes of failure

Building or reading a node fails for one of the causes listed here. `DecodeError.message` and
`JoinError.message` hold the only wording of each cause.
-/

namespace QueryTree

/-- A text that is no operator, kept as it was given. -/
structure OperatorTextError where
  text : String
deriving DecidableEq, Repr, Inhabited

/-- The wording of a refused operator text. -/
def OperatorTextError.message (e : OperatorTextError) : String :=
  "unknown operator '" ++ e.text ++ "'"

/-- A join condition that holds something other than comparisons: the displayed foreign table and
the kind of the offending condition. -/
structure JoinError where
  table : String
  kind : String
deriving DecidableEq, Repr, Inhabited

/-- The wording of a refused join condition. -/
def JoinError.message (e : JoinError) : String :=
  "expecting compare-condition in join on table " ++ e.table ++ ", receiving " ++ e.kind

/-- Why a payload cannot be read as a node. -/
inductive DecodeError where
  /-- The payload belongs to another family. -/
  | unknownDomain (found : String)
  /-- The payload is of another kind than the one asked for. -/
  | unexpectedKind (expected found : String)
  /-- The payload has no member at the index. -/
  | missingMember (kind : String) (index : Nat)
  /-- The member at the index does not have the expected shape. -/
  | unexpectedMember (kind : String) (index : Nat) (expected : String)
  /-- An integer that encodes no join type. -/
  | invalidJoinType (code : Int64)
  /-- An integer that encodes no operator. -/
  | invalidOperator (code : Int64)
  /-- An update whose columns and values differ in number. -/
  | unpairedValues (columns values : Nat)
  /-- A text that is no JSON, or JSON that is no payload. -/
  | malformedText
  /-- A join whose condition is refused. -/
  | join (cause : JoinError)
deriving DecidableEq, Repr, Inhabited

/-- The name of the payload family that this library reads and writes. -/
def queryDomain : String := "query"

/-- The wording of each cause of a failed read. -/
def DecodeError.message : DecodeError → String
  | .unknownDomain found => "payload domain '" ++ found ++ "' is not '" ++ queryDomain ++ "'"
  | .unexpectedKind expected found =>
    "expected a " ++ expected ++ " payload, found '" ++ found ++ "'"
  | .missingMember kind index => kind ++ " payload is missing member #" ++ toString index
  | .unexpectedMember kind index expected =>
    kind ++ " payload member #" ++ toString index ++ " is not a " ++ expected
  | .invalidJoinType code => "unknown join type code " ++ toString code.toInt
  | .invalidOperator code => "unknown operator code " ++ toString code.toInt
  | .unpairedValues columns values =>
    "update pairs " ++ toString columns ++ " columns with " ++ toString values ++ " values"
  | .malformedText => "malformed payload text"
  | .join cause => cause.message

end QueryTree
