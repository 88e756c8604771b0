/-
# Accumulation.Kimi.Chunk — chunks of a streamed completion, and how they are put together.

`CollectMessage` reads chunks until the channel is closed.  It appends the text of each first delta,
and it lets two slices grow side by side, one of tool calls and one of builders for their arguments.

A `strings.Builder` remembers where it was when it was first written to and panics when it is
written to elsewhere.  So a slice of builders is modelled with the array it lies in: `append` moves
all of them when there is no more room.  How much room it then makes is a parameter.

`none` is a panic everywhere.
-/
import Accumulation.Go.Text
import Accumulation.Kimi.Dto

namespace Accumulation.Kimi

open Accumulation.Lib Accumulation.Go

/-! ## Values -/

/-- `strings.TrimSpace` -/
def trimSpace (s : String) : String := String.ofList (Go.trimSpace s.toList)

/-- What `json.Unmarshal` makes of a text that is to be an `int`. -/
def unmarshalInt (text : String) : Option ℤ :=
  match Json.unmarshal text with
  | some .null => some 0
  | some (.number n) => parseInt n.literal
  | _ => none

/-- `Value`, at the two types that chunks use it at. -/
def NullableType.intValue (nullableVal : NullableType .int) : Option ℤ :=
  if NullableType.isNull (T := .int) nullableVal then some 0 else unmarshalInt nullableVal

def NullableType.stringValue (nullableVal : NullableType .string) : String := nullableVal

/-! ## Chunks -/

def finishReasonStop : String := "stop"

structure Choice where
  index : NullableType .int
  delta : Option Message
  finishReason : NullableType .string
  deriving DecidableEq, Repr

structure Chunk where
  choices : List Choice
  deriving DecidableEq, Repr

namespace Chunk

/-- The pointer it returns: nil if the choice has no delta. -/
def getDeltaByIndex (c : Chunk) (idx : ℕ) : Option Message :=
  match c.choices[idx]? with
  | none => some .zero
  | some choice => choice.delta

def getDeltaContentByIndex (c : Chunk) (idx : ℕ) : Option String :=
  (c.getDeltaByIndex idx).map fun delta =>
    match delta.content with
    | none => ""
    | some content => trimSpace content.text

def getDeltaRoleByIndex (c : Chunk) (idx : ℕ) : Option String :=
  (c.getDeltaByIndex idx).map fun delta => trimSpace delta.role

def getFinishReasonByIndex (c : Chunk) (idx : ℕ) : String :=
  match c.choices[idx]? with
  | none => ""
  | some choice =>
    if NullableType.isNull (T := .string) choice.finishReason then ""
    else trimSpace (NullableType.stringValue choice.finishReason)

def getToolCallsByIndex (c : Chunk) (idx : ℕ) : Option ToolCalls :=
  (c.getDeltaByIndex idx).map (·.toolCalls)

def getDelta (c : Chunk) : Option Message := c.getDeltaByIndex 0
def getDeltaContent (c : Chunk) : Option String := c.getDeltaContentByIndex 0
def getDeltaRole (c : Chunk) : Option String := c.getDeltaRoleByIndex 0
def getFinishReason (c : Chunk) : String := c.getFinishReasonByIndex 0
def getToolCalls (c : Chunk) : Option ToolCalls := c.getToolCallsByIndex 0

end Chunk

/-! ## Builders -/

/-- Where a builder lies: an array, and a place in it. -/
abbrev Address := ℕ × ℕ

/-- `strings.Builder` -/
structure Builder where
  addr : Option Address
  buf : String
  deriving DecidableEq, Repr

def Builder.zero : Builder := ⟨none, ""⟩

/-- `WriteString` of the builder that lies here. -/
def Builder.writeString (b : Builder) (here : Address) (s : String) : Option Builder :=
  if b.addr = none ∨ b.addr = some here then some ⟨some here, b.buf ++ s⟩ else none

/-- A slice of builders, with its array and the room that has. -/
structure Builders where
  array : ℕ
  cap : ℕ
  elems : List Builder
  deriving DecidableEq, Repr

namespace Builders

def nil : Builders := ⟨0, 0, []⟩

/-- `append` of a new builder. -/
def push (grow : ℕ → ℕ) (bs : Builders) : Builders :=
  if bs.elems.length < bs.cap then { bs with elems := bs.elems ++ [.zero] }
  else ⟨bs.array + 1, grow bs.cap, bs.elems ++ [.zero]⟩

/-- `WriteString` of the builder at an index. -/
def writeString (bs : Builders) (idx : ℕ) (s : String) : Option Builders :=
  (bs.elems[idx]?).bind fun b => (b.writeString (bs.array, idx) s).map fun b =>
    { bs with elems := bs.elems.set idx b }

end Builders

/-! ## `CollectMessage` -/

/-- The variables of the loop. -/
structure Collecting where
  role : String
  /-- the entries are never nil, as the loop makes them itself -/
  toolCalls : Option (List ToolCall)
  messageContentBuilder : String
  toolCallArgumentsBuilders : Builders

namespace Collecting

def init : Collecting := ⟨"", none, "", .nil⟩

def entries (c : Collecting) : List ToolCall := c.toolCalls.getD []

/-- One round of the inner loop. -/
def push (grow : ℕ → ℕ) (c : Collecting) : Collecting :=
  { c with
    toolCalls := some (c.entries ++ [.zero])
    toolCallArgumentsBuilders := c.toolCallArgumentsBuilders.push grow }

/-- The inner loop, with its bound computed anew in each round.  The first argument is enough for
all rounds: at most as many as the bound is at the start.  (The bound overflows only for the largest
`int` on an empty list.  No number of rounds brings that index into range.) -/
def growLoop (grow : ℕ → ℕ) (toolCallIndex : ℤ) : ℕ → ℤ → Collecting → Collecting
  | 0, _, c => c
  | fuel + 1, i, c =>
    if i < toolCallIndex - c.entries.length + 1 then
      growLoop grow toolCallIndex fuel (i + 1) (c.push grow)
    else c

def extend (grow : ℕ → ℕ) (toolCallIndex : ℤ) (c : Collecting) : Collecting :=
  if (c.entries.length : ℤ) ≤ toolCallIndex then
    growLoop grow toolCallIndex (toolCallIndex - c.entries.length + 1).toNat 0 c
  else c

end Collecting

/-- A field that is kept once it is there. -/
def keepFirst (old new : String) : String := if old = "" then new else old

/-- What a fragment makes of the entry of its index, apart from the arguments. -/
def ToolCall.absorb (messageToolCall toolCall : ToolCall) : ToolCall :=
  { messageToolCall with
    id := keepFirst messageToolCall.id toolCall.id
    type := keepFirst messageToolCall.type toolCall.type
    function := match toolCall.function with
      | none => messageToolCall.function
      | some functionCall =>
        let function := messageToolCall.function.getD .zero
        some { function with name := keepFirst function.name functionCall.name } }

/-- The body of the loop over `toolCalls`. -/
def collectToolCall (grow : ℕ → ℕ) (c : Collecting) : Option ToolCall → Option Collecting
  | none => none
  | some toolCall =>
    if NullableType.isNull (T := .int) toolCall.index then some c
    else do
      let toolCallIndex ← NullableType.intValue toolCall.index
      let c := c.extend grow toolCallIndex
      if toolCallIndex < 0 then none
      let idx := toolCallIndex.toNat
      let messageToolCall ← c.entries[idx]?
      let c := { c with toolCalls := some (c.entries.set idx (messageToolCall.absorb toolCall)) }
      match toolCall.function with
      | none => some c
      | some functionCall => do
        let builders ← c.toolCallArgumentsBuilders.writeString idx functionCall.arguments
        some { c with toolCallArgumentsBuilders := builders }

/-- The body of the loop over the chunks. -/
def collectChunk (grow : ℕ → ℕ) (c : Collecting) (chunk : Chunk) : Option Collecting := do
  let role ← chunk.getDeltaRole
  let c := if role ≠ "" then { c with role := role } else c
  let content ← chunk.getDeltaContent
  let c := { c with messageContentBuilder := c.messageContentBuilder ++ content }
  let toolCalls ← chunk.getToolCalls
  match toolCalls with
  | none => some c
  | some toolCalls =>
    toolCalls.foldlM (collectToolCall grow) { c with toolCalls := some c.entries }

/-- The loop at the end, which gives every entry its arguments. -/
def giveArguments : List ToolCall → List Builder → Option (List ToolCall)
  | [], _ => some []
  | _ :: _, [] => none
  | toolCall :: toolCalls, builder :: builders => do
    let function ← toolCall.function
    let rest ← giveArguments toolCalls builders
    some ({ toolCall with function := some { function with arguments := builder.buf } } :: rest)

def Collecting.message (c : Collecting) : Option Message := do
  let toolCalls ← giveArguments c.entries c.toolCallArgumentsBuilders.elems
  some
    { role := c.role
      content := some ⟨c.messageContentBuilder, none, none⟩
      name := ""
      toolCallID := ""
      toolCalls := c.toolCalls.map fun _ => toolCalls.map some }

/-- `CollectMessage`, for the chunks that come until the channel is closed. -/
def collectMessage (grow : ℕ → ℕ) (chunks : List Chunk) : Option Message := do
  let c ← chunks.foldlM (collectChunk grow) .init
  c.message

end Accumulation.Kimi
