import Katana.Http.Bytes

/-!
# Problem details

The JSON document of an error response.  Only the escape of a byte depends on
the byte; everything else is fixed text between the members.
-/

namespace Katana
namespace Http

structure ProblemDetails where
  type : List Byte := bytesOf "about:blank"
  title : List Byte := []
  status : ℤ := 500
  detail : Option (List Byte) := none
  problemInstance : Option (List Byte) := none
  extensions : List (List Byte × List Byte) := []

/-- `std::to_chars` of a signed number. -/
def intToChars (n : ℤ) : List Byte :=
  if n < 0 then 45 :: toChars 10 n.natAbs else toChars 10 n.natAbs

def hexDigit (n : ℕ) : Byte :=
  (if n < 10 then 48 + n else 87 + n).toUInt8

def jsonEscape (ch : Byte) : List Byte :=
  if ch = 34 then [92, 34]
  else if ch = 92 then [92, 92]
  else if ch = 8 then bytesOf "\\b"
  else if ch = 12 then bytesOf "\\f"
  else if ch = LF then bytesOf "\\n"
  else if ch = CR then bytesOf "\\r"
  else if ch = HTAB then bytesOf "\\t"
  else if ch < 0x20 then
    bytesOf "\\u00" ++ [hexDigit (ch.toNat / 16 % 16), hexDigit (ch.toNat % 16)]
  else [ch]

def appendJsonEscaped (value : List Byte) : List Byte :=
  value.flatMap jsonEscape

/-- The member without the comma in front of it. -/
def jsonStringField (key value : List Byte) : List Byte :=
  34 :: key ++ [34, 58, 34] ++ appendJsonEscaped value ++ [34]

def jsonIntField (key : List Byte) (value : ℤ) : List Byte :=
  34 :: key ++ [34, 58] ++ intToChars value

namespace ProblemDetails

/-- The members in the order in which they are appended. -/
def members (problem : ProblemDetails) : List (List Byte) :=
  [jsonStringField (bytesOf "type") problem.type,
    jsonStringField (bytesOf "title") problem.title,
    jsonIntField (bytesOf "status") problem.status] ++
  (problem.detail.map (jsonStringField (bytesOf "detail"))).toList ++
  (problem.problemInstance.map (jsonStringField (bytesOf "instance"))).toList ++
  problem.extensions.map fun entry => jsonStringField entry.1 entry.2

def toJson (problem : ProblemDetails) : List Byte :=
  123 :: [44].intercalate problem.members ++ [125]

def badRequest (detail : List Byte) : ProblemDetails :=
  { status := 400
    title := bytesOf "Bad Request"
    detail := if detail = [] then none else some detail }

end ProblemDetails

end Http
end Katana
