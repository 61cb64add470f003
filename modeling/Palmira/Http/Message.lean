import Mathlib.Data.String.Basic

/-!
# HTTP messages

Requests and responds as the handlers see them: a list of headers, looked up by
name, and a body of bytes.
-/

namespace Palmira.Http

abbrev Bytes := List UInt8

/-- `http::Message`: what requests and responds have in common. -/
structure Message where
  headers : List (String × String)

/-- `GetHeaders().get( name )`; a header that is absent reads as the empty string. -/
def Message.get (msg : Message) (name : String) : String :=
  ((msg.headers.find? (fun header => header.1 == name)).map Prod.snd).getD ""

/-- `text.substr( 0, n ) == start` -/
def startsWith (text : String) (n : ℕ) (start : String) : Bool :=
  text.toList.take n == start.toList

end Palmira.Http
