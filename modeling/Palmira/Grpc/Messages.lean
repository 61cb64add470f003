import Palmira.Core.Zval
import Palmira.Core.Exception

/-!
# Metadata on the gRPC wire

The messages of `grpcttp.proto` that carry metadata, and the two families of
`Convert` overloads between them and `zval`/`zmap`. An overload is named by the
type it writes. `widetombcs` is the UTF-8 form of a wide string.
-/

namespace Palmira.Grpc

/-- `MetaValue`: the `oneof` with its eighteen cases, or none of them set. -/
inductive MetaValue where
  | notSet
  | asBool (x : Bool)
  | asInt32 (x : Int32)
  | asInt64 (x : Int64)
  | asUint32 (x : UInt32)
  | asUint64 (x : UInt64)
  | asFloat (x : Binary32)
  | asDouble (x : Binary64)
  | asString (s : String)
  | asMetadata (data : List (String × MetaValue))
  | asArrayInt32 (value : List Int32)
  | asArrayInt64 (value : List Int64)
  | asArrayUint32 (value : List UInt32)
  | asArrayUint64 (value : List UInt64)
  | asArrayFloat (value : List Binary32)
  | asArrayDouble (value : List Binary64)
  | asArrayString (value : List String)
  | asArrayMetadata (value : List (List (String × MetaValue)))
  | asArrayMetavalue (value : List MetaValue)

/-- `Metadata`: its `map<string, MetaValue>`, in normal form. -/
abbrev Metadata := List (String × MetaValue)

/-! ## zval from MetaValue -/

mutual

/-- `Convert( mtc::zval& out, const grpcttp::MetaValue& src )` -/
def convertZval : MetaValue → Except Exn Zval
  | .asBool x => .ok (.bool x)
  | .asInt32 x => .ok (.int32 x)
  | .asInt64 x => .ok (.int64 x)
  | .asUint32 x => .ok (.word32 x)
  | .asUint64 x => .ok (.word64 x)
  | .asFloat x => .ok (.float x)
  | .asDouble x => .ok (.double x)
  | .asString s => .ok (.charstr s)
  | .asMetadata data => do return .zmap (← convertZmap [] data)
  | .asArrayInt32 value => .ok (.arrayInt32 value)
  | .asArrayInt64 value => .ok (.arrayInt64 value)
  | .asArrayUint32 value => .ok (.arrayWord32 value)
  | .asArrayUint64 value => .ok (.arrayWord64 value)
  | .asArrayFloat value => .ok (.arrayFloat value)
  | .asArrayDouble value => .ok (.arrayDouble value)
  | .asArrayString value => .ok (.arrayCharstr value)
  | .asArrayMetadata value => do return .arrayZmap (← convertZmaps value)
  | .asArrayMetavalue value => do return .arrayZval (← convertZvals value)
  | .notSet => .error (.invalidArgument "Unknown value type")

/-- `Convert( mtc::zmap& out, const grpcttp::Metadata& src )` -/
def convertZmap (out : Zmap) : List (String × MetaValue) → Except Exn Zmap
  | [] => .ok out
  | (key, val) :: rest => do convertZmap (out.put key (← convertZval val)) rest

/-- `Convert( std::vector<T>& out, const Iterable& src )` at `Metadata` elements. -/
def convertZmaps : List (List (String × MetaValue)) → Except Exn (List Zmap)
  | [] => .ok []
  | element :: rest => do return (← convertZmap [] element) :: (← convertZmaps rest)

/-- `Convert( std::vector<T>& out, const Iterable& src )` at `MetaValue` elements. -/
def convertZvals : List MetaValue → Except Exn (List Zval)
  | [] => .ok []
  | element :: rest => do return (← convertZval element) :: (← convertZvals rest)

end

/-! ## MetaValue from zval -/

section Encoder

variable (widetombcs : WideStr → String)

/-- `Convert( Iterable& out, const std::vector<T>& src )` where the wire type holds the element,
or the language reduces it to that type. -/
def addValues {T S : Type} (element : T → S) (src : List T) : List S := src.map element

/-- The same overload at a floating type and an `int32` field: the implicit conversion of
`add_value` has no meaning for a value that does not fit after truncation. -/
def addTruncated {T : Type} (number : T → Number) : List T → Except Exn (List Int32)
  | [] => .ok []
  | element :: rest =>
      match (number element).toInt32? with
      | some x => do return x :: (← addTruncated number rest)
      | none => .error (.undefined "floating value outside int32")

mutual

/-- `Convert( grpcttp::MetaValue& out, const mtc::zval& src )` -/
def convertMetaValue : Zval → Except Exn MetaValue
  | .char x => .ok (.asInt32 x.toInt32)
  | .byte x => .ok (.asUint32 x.toUInt32)
  | .int16 x => .ok (.asInt32 x.toInt32)
  | .word16 x => .ok (.asUint32 x.toUInt32)
  | .int32 x => .ok (.asInt32 x)
  | .word32 x => .ok (.asUint32 x)
  | .int64 x => .ok (.asInt64 x)
  | .word64 x => .ok (.asUint32 x.toUInt32)
  | .float x => .ok (.asFloat x)
  | .double x => .ok (.asDouble x)
  | .bool x => .ok (.asBool x)
  | .charstr s => .ok (.asString s)
  | .widestr s => .ok (.asString (widetombcs s))
  | .zmap fields => do return .asMetadata (← convertMetadata [] fields)
  | .arrayChar xs => .ok (.asArrayInt32 (addValues Int8.toInt32 xs))
  | .arrayByte xs => .ok (.asArrayUint32 (addValues UInt8.toUInt32 xs))
  | .arrayInt16 xs => .ok (.asArrayInt32 (addValues Int16.toInt32 xs))
  | .arrayWord16 xs => .ok (.asArrayUint32 (addValues UInt16.toUInt32 xs))
  | .arrayInt32 xs => .ok (.asArrayInt32 (addValues id xs))
  | .arrayWord32 xs => .ok (.asArrayUint32 (addValues id xs))
  | .arrayInt64 xs => .ok (.asArrayInt32 (addValues Int64.toInt32 xs))
  | .arrayWord64 xs => .ok (.asArrayUint32 (addValues UInt64.toUInt32 xs))
  | .arrayFloat xs => do return .asArrayInt32 (← addTruncated Binary32.number xs)
  | .arrayDouble xs => do return .asArrayInt32 (← addTruncated Binary64.number xs)
  | .arrayCharstr xs => .ok (.asArrayString (addValues id xs))
  | .arrayWidestr xs => .ok (.asArrayString (addValues widetombcs xs))
  | .arrayZmap xs => do return .asArrayMetadata (← convertMetadatas xs)
  | .arrayZval xs => do return .asArrayMetavalue (← convertMetaValues xs)
  | .untyped => .error (.invalidArgument "Unknown value type")

/-- `Convert( grpcttp::Metadata& out, const mtc::zmap& src )` -/
def convertMetadata (out : Metadata) : List (Key × Zval) → Except Exn Metadata
  | [] => .ok out
  | (.charstr key, val) :: rest => do
      convertMetadata (SortedAssoc.put out key (← convertMetaValue val)) rest
  | _ :: _ => .error (.invalidArgument "Invalid value type")

/-- `Convert( grpcttp::array_Metadata& out, const std::vector<mtc::zmap>& src )` -/
def convertMetadatas : List (List (Key × Zval)) → Except Exn (List Metadata)
  | [] => .ok []
  | element :: rest => do return (← convertMetadata [] element) :: (← convertMetadatas rest)

/-- `Convert( grpcttp::array_Metavalue& out, const std::vector<mtc::zval>& src )` -/
def convertMetaValues : List Zval → Except Exn (List MetaValue)
  | [] => .ok []
  | element :: rest => do return (← convertMetaValue element) :: (← convertMetaValues rest)

end

end Encoder

end Palmira.Grpc
