/-
# Accumulation.Kimi.Dto — messages, and how they are written as JSON and read from it.

Most of this is what `encoding/json` does with structs, by their tags; `Content` and `NullableType`
have methods of their own.  A decoder is given what the value was before, as in Go, where it decodes
into a variable: `null` leaves a string alone and clears a pointer or a slice, and members of an
object that are not known are skipped.

A slice is `none` where it is nil.
-/
import Accumulation.Lib.JsonRoundTrip

namespace Accumulation.Kimi

open Accumulation.Lib

/-! ## Errors -/

inductive DtoError
  /-- `cannot convert %q to integer number: %w`, or `to bool` -/
  | cannotConvert (val target : String)
  /-- `cannot unmarshal %s into Go value of type %s` -/
  | cannotUnmarshal (tokenType type : String)
  /-- a value of the wrong kind, for `encoding/json` itself -/
  | unmarshalType (value type : String)
  /-- a text that is no JSON -/
  | noJSON
  /-- `unsupported type: %T` -/
  | unsupportedType
  deriving DecidableEq, Repr

def tokenType : Json → String
  | .null => "null"
  | .bool _ => "bool"
  | .number _ => "number"
  | .string _ => "string"
  | .array _ => "array"
  | .object _ => "object"

/-! ## Numbers -/

/-- `strconv.Itoa` -/
def itoa (n : ℤ) : String := String.ofList (Decimal.spell n)

/-- `strconv.ParseInt(s, 10, 64)`, which is `strconv.Atoi` where an `int` has 64 bits. -/
def parseInt (s : List Char) : Option ℤ :=
  (Decimal.read s).filter fun n => -2 ^ 63 ≤ n ∧ n < 2 ^ 63

def atoi (s : String) : Option ℤ := parseInt s.toList

/-- `strconv.ParseBool` -/
def parseBool (s : String) : Option Bool :=
  if s ∈ ["1", "t", "T", "TRUE", "true", "True"] then some true
  else if s ∈ ["0", "f", "F", "FALSE", "false", "False"] then some false
  else none

/-! ## `NullableType` -/

/-- The types that `NullableType` is used at, and `bool`. -/
inductive Kind
  | string
  | int
  | bool
  deriving DecidableEq, Repr

def Kind.name : Kind → String
  | .string => "string"
  | .int => "int"
  | .bool => "bool"

/-- A value, or null, as the text that denotes it. -/
abbrev NullableType (_ : Kind) := String

namespace NullableType

def isNull {T : Kind} (nullableVal : NullableType T) : Bool :=
  match T with
  | .string => false
  | _ => nullableVal == ""

def marshalJSON {T : Kind} (nullableVal : NullableType T) : Except DtoError Json :=
  match T with
  | .string => .ok (.string nullableVal)
  | .int =>
    if nullableVal = "" then .ok .null
    else match atoi nullableVal with
      | some intVal => .ok (.number (.ofInt intVal))
      | none => .error (.cannotConvert nullableVal "integer number")
  | .bool =>
    if nullableVal = "" then .ok .null
    else match parseBool nullableVal with
      | some boolVal => .ok (.bool boolVal)
      | none => .error (.cannotConvert nullableVal "bool")

def unmarshalJSON {T : Kind} (nullableVal : NullableType T) (data : Json) :
    Except DtoError (NullableType T) :=
  match T, data with
  | _, .null => .ok nullableVal
  | .string, .string s => .ok s
  | .bool, .bool b => .ok (if b then "true" else "false")
  | .int, .number n =>
    -- the text of the number is kept as it is
    if (parseInt n.literal).isSome then .ok (String.ofList n.literal)
    else .error (.cannotUnmarshal "number" "NullableType[int]")
  | T, data => .error (.cannotUnmarshal (tokenType data) ("NullableType[" ++ T.name ++ "]"))

end NullableType

/-! ## What `encoding/json` does -/

/-- A decoder: the value before, the JSON, the value after. -/
abbrev Decoder (α : Type) := α → Json → Except DtoError α

variable {α β : Type}

def decodeString : Decoder String
  | s, .null => .ok s
  | _, .string s => .ok s
  | _, j => .error (.unmarshalType (tokenType j) "string")

/-- A pointer: `null` makes it nil, and anything else goes where it points. -/
def decodePtr (zero : α) (decode : Decoder α) : Decoder (Option α)
  | _, .null => .ok none
  | p, j => (decode (p.getD zero) j).map some

/-- The elements of a slice, each into the element that was there. -/
def decodeElems (zero : α) (decode : Decoder α) : List α → List Json → Except DtoError (List α)
  | _, [] => .ok []
  | old, j :: js => do
    let elem ← decode (old.headD zero) j
    let elems ← decodeElems zero decode old.tail js
    return elem :: elems

def decodeSlice (zero : α) (decode : Decoder α) : Decoder (Option (List α))
  | _, .null => .ok none
  | old, .array js => (decodeElems zero decode (old.getD []) js).map some
  | _, j => .error (.unmarshalType (tokenType j) "slice")

/-- The decoder of a struct that decodes one of its fields. -/
def setter (decode : Decoder β) (get : α → β) (set : α → β → α) : Decoder α :=
  fun a j => (decode (get a) j).map (set a)

/-- Letters are told apart by their case neither in ASCII nor where Unicode folds them into it. -/
def foldRune (c : Char) : Char :=
  if c.toNat = 0x17F then 's' else if c.toNat = 0x212A then 'k' else c.toLower

def foldName (key : String) : String := String.ofList (key.toList.map foldRune)

/-- A member of an object goes into the field of its name. -/
def decodeMember (fields : List (String × Decoder α)) (a : α) (member : String × Json) :
    Except DtoError α :=
  match fields.lookup (foldName member.1) with
  | some decode => decode a member.2
  | none => .ok a

def decodeStruct (fields : List (String × Decoder α)) : Decoder α
  | a, .null => .ok a
  | a, .object members => members.foldlM (decodeMember fields) a
  | _, j => .error (.unmarshalType (tokenType j) "struct")

def marshalPtr (marshal : α → Except DtoError Json) : Option α → Except DtoError Json
  | none => .ok .null
  | some a => marshal a

def marshalSlice (marshal : α → Except DtoError Json) : Option (List α) → Except DtoError Json
  | none => .ok .null
  | some elems => (elems.mapM marshal).map .array

/-- A member of an object. -/
def member (key : String) (val : Except DtoError Json) : Except DtoError (List (String × Json)) :=
  val.map fun j => [(key, j)]

/-- A member with the option `omitempty`. -/
def omitempty (isEmpty : Bool) (key : String) (val : Except DtoError Json) :
    Except DtoError (List (String × Json)) :=
  if isEmpty then .ok [] else member key val

/-- A struct, as the members of its fields. -/
def object (members : List (Except DtoError (List (String × Json)))) : Except DtoError Json :=
  (members.mapM id).map fun ms => .object ms.flatten

def marshalString (s : String) : Except DtoError Json := .ok (.string s)

/-! ## Parts -/

structure ImageUrl where
  url : String
  detail : String
  deriving DecidableEq, Repr

namespace ImageUrl

def zero : ImageUrl := ⟨"", ""⟩

def marshal (image : ImageUrl) : Except DtoError Json :=
  object [member "url" (marshalString image.url),
    omitempty (image.detail == "") "detail" (marshalString image.detail)]

def fields : List (String × Decoder ImageUrl) :=
  [("url", setter decodeString (·.url) fun image url => { image with url }),
    ("detail", setter decodeString (·.detail) fun image detail => { image with detail })]

end ImageUrl

structure Part where
  type : String
  text : String
  imageUrl : Option ImageUrl
  deriving DecidableEq, Repr

namespace Part

def zero : Part := ⟨"", "", none⟩

def marshal (part : Part) : Except DtoError Json :=
  object [member "type" (marshalString part.type),
    omitempty (part.text == "") "text" (marshalString part.text),
    omitempty part.imageUrl.isNone "image_url" (marshalPtr ImageUrl.marshal part.imageUrl)]

def fields : List (String × Decoder Part) :=
  [("type", setter decodeString (·.type) fun part type => { part with type }),
    ("text", setter decodeString (·.text) fun part text => { part with text }),
    ("image_url", setter (decodePtr .zero (decodeStruct ImageUrl.fields)) (·.imageUrl)
      fun part imageUrl => { part with imageUrl })]

end Part

/-- `[]*Part` -/
abbrev Parts := Option (List (Option Part))

def Parts.marshal : Parts → Except DtoError Json := marshalSlice (marshalPtr Part.marshal)

def Parts.decode : Decoder Parts := decodeSlice none (decodePtr .zero (decodeStruct Part.fields))

/-! ## `Content` -/

structure ContextCacheOptions where
  cacheID : String
  resetTTL : ℤ
  deriving DecidableEq, Repr

structure Content where
  text : String
  parts : Parts
  cache : Option ContextCacheOptions
  deriving DecidableEq, Repr

/-- What `cacheOptionsBuilder` builds. -/
def ContextCacheOptions.build (options : ContextCacheOptions) : String :=
  "cache_id=" ++ options.cacheID ++
    if options.resetTTL > 0 then ";" ++ "reset_ttl=" ++ itoa options.resetTTL else ""

namespace Content

def zero : Content := ⟨"", none, none⟩

def marshalJSON (c : Content) : Except DtoError Json :=
  if c.text = "" ∧ c.parts = none ∧ c.cache = none then .ok .null
  else if c.text ≠ "" then .ok (.string c.text)
  else match c.cache with
    | some options => .ok (.string options.build)
    | none => c.parts.marshal

def unmarshalJSON : Decoder Content
  | c, .null => .ok c
  | c, .string s => (decodeString c.text (.string s)).map fun text => { c with text }
  | c, .array js => (Parts.decode c.parts (.array js)).map fun parts => { c with parts }
  | _, j => .error (.cannotUnmarshal (tokenType j) "Content")

end Content

/-! ## Messages -/

structure FunctionCall where
  name : String
  arguments : String
  deriving DecidableEq, Repr

namespace FunctionCall

def zero : FunctionCall := ⟨"", ""⟩

def marshal (call : FunctionCall) : Except DtoError Json :=
  object [member "name" (marshalString call.name),
    member "arguments" (marshalString call.arguments)]

def fields : List (String × Decoder FunctionCall) :=
  [("name", setter decodeString (·.name) fun call name => { call with name }),
    ("arguments", setter decodeString (·.arguments) fun call arguments => { call with arguments })]

end FunctionCall

structure ToolCall where
  index : NullableType .int
  id : String
  type : String
  function : Option FunctionCall
  deriving DecidableEq, Repr

namespace ToolCall

def zero : ToolCall := ⟨"", "", "", none⟩

def marshal (call : ToolCall) : Except DtoError Json :=
  object [omitempty (call.index == "") "index" (NullableType.marshalJSON (T := .int) call.index),
    member "id" (marshalString call.id), member "type" (marshalString call.type),
    member "function" (marshalPtr FunctionCall.marshal call.function)]

def fields : List (String × Decoder ToolCall) :=
  [("index", setter (NullableType.unmarshalJSON (T := .int)) (·.index)
      fun call index => { call with index }),
    ("id", setter decodeString (·.id) fun call id => { call with id }),
    ("type", setter decodeString (·.type) fun call type => { call with type }),
    ("function", setter (decodePtr .zero (decodeStruct FunctionCall.fields)) (·.function)
      fun call function => { call with function })]

end ToolCall

/-- `[]*ToolCall` -/
abbrev ToolCalls := Option (List (Option ToolCall))

def ToolCalls.marshal : ToolCalls → Except DtoError Json :=
  marshalSlice (marshalPtr ToolCall.marshal)

def ToolCalls.decode : Decoder ToolCalls :=
  decodeSlice none (decodePtr .zero (decodeStruct ToolCall.fields))

structure Message where
  role : String
  content : Option Content
  name : String
  toolCallID : String
  toolCalls : ToolCalls
  deriving DecidableEq, Repr

namespace Message

def zero : Message := ⟨"", none, "", "", none⟩

def marshal (m : Message) : Except DtoError Json :=
  object [member "role" (marshalString m.role),
    omitempty m.content.isNone "content" (marshalPtr Content.marshalJSON m.content),
    omitempty (m.name == "") "name" (marshalString m.name),
    omitempty (m.toolCallID == "") "tool_call_id" (marshalString m.toolCallID),
    omitempty (m.toolCalls.getD []).isEmpty "tool_calls" m.toolCalls.marshal]

def fields : List (String × Decoder Message) :=
  [("role", setter decodeString (·.role) fun m role => { m with role }),
    ("content", setter (decodePtr .zero Content.unmarshalJSON) (·.content)
      fun m content => { m with content }),
    ("name", setter decodeString (·.name) fun m name => { m with name }),
    ("tool_call_id", setter decodeString (·.toolCallID)
      fun m toolCallID => { m with toolCallID }),
    ("tool_calls", setter ToolCalls.decode (·.toolCalls)
      fun m toolCalls => { m with toolCalls })]

end Message

/-! ## `ContextMessages` -/

/-- `[]*Message` -/
abbrev ContextMessages := Option (List (Option Message))

/-- What a column holds: NULL, a string, or a value of another type. -/
inductive Src
  | nil
  | string (data : String)
  | other
  deriving DecidableEq, Repr

namespace ContextMessages

def decode : Decoder ContextMessages :=
  decodeSlice none (decodePtr .zero (decodeStruct Message.fields))

def scan (messages : ContextMessages) : Src → Except DtoError ContextMessages
  | .nil => .ok messages
  | .string data =>
    match Json.unmarshal data with
    | some j => decode messages j
    | none => .error .noJSON
  | .other => .error .unsupportedType

/-- `Value`, that is `toJSON` -/
def value (messages : ContextMessages) : Except DtoError String :=
  (marshalSlice (marshalPtr Message.marshal) messages).map Json.marshalIndent

end ContextMessages

end Accumulation.Kimi
