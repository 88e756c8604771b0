/-
# Accumulation.Kimi.Client — the requests a client sends.

Each call renders a template, reads the result as a header, and takes what is left for the body.  The
key of the client and the ID of a context cache are put into the text of the header as they are.

So a call asks for what it should exactly when these have nothing in them that cannot stand in a header
(`asks_iff`).  A key with line breaks brings header fields of its own along (`smuggled_sent`), which no
check keeps out.
-/
import Accumulation.Go.MIMEHeader
import Accumulation.Lib.Decimal

namespace Accumulation.Kimi.Client

open Accumulation.Go Accumulation.Lib

/-! ## Templates -/

/-- What a client calls with. -/
structure Caller where
  baseUrl : Bytes
  key : Bytes

/-- `ContextCacheOptions`, in bytes. -/
structure CacheOptions where
  cacheID : Bytes
  resetTTL : ℤ

/-- The calls, with their arguments.  A request for JSON is given by what its `ToJSON` returns. -/
inductive Call
  | listModels
  | estimateTokenCount (request : Except String Bytes)
  | checkBalance
  | createChatCompletion (options : Option CacheOptions) (request : Except String Bytes)
  | createChatCompletionStream (options : Option CacheOptions) (request : Except String Bytes)
  | createContextCache (request : Except String Bytes)
  | retrieveContextCache (cacheID : Bytes)
  | deleteContextCache (cacheID : Bytes)
  | uploadFile (contentType : Bytes)
  | listFiles
  | deleteFile (fileID : Bytes)
  | retrieveFileContent (fileID : Bytes)

namespace Call

def caller : Call → String
  | listModels => "ListModels"
  | estimateTokenCount _ => "EstimateTokenCount"
  | checkBalance => "CheckBalance"
  | createChatCompletion _ _ => "CreateChatCompletion"
  | createChatCompletionStream _ _ => "CreateChatCompletionStream"
  | createContextCache _ => "CreateContextCache"
  | retrieveContextCache _ => "RetrieveContextCache"
  | deleteContextCache _ => "DeleteContextCache"
  | uploadFile _ => "UploadFile"
  | listFiles => "ListFiles"
  | deleteFile _ => "DeleteFile"
  | retrieveFileContent _ => "RetrieveFileContent"

def method : Call → String
  | listModels | checkBalance | retrieveContextCache _ | listFiles | retrieveFileContent _ => "GET"
  | deleteContextCache _ | deleteFile _ => "DELETE"
  | estimateTokenCount _ | createChatCompletion _ _ | createChatCompletionStream _ _
  | createContextCache _ | uploadFile _ => "POST"

/-- The address templates. -/
def addr (c : Caller) (call : Call) : Bytes :=
  c.baseUrl ++ match call with
    | listModels => ascii "/models"
    | estimateTokenCount _ => ascii "/tokenizers/estimate-token-count"
    | checkBalance => ascii "/users/me/balance"
    | createChatCompletion _ _ | createChatCompletionStream _ _ => ascii "/chat/completions"
    | createContextCache _ => ascii "/caching"
    | retrieveContextCache cacheID | deleteContextCache cacheID => ascii "/caching/" ++ cacheID
    | uploadFile _ | listFiles => ascii "/files"
    | deleteFile fileID => ascii "/files/" ++ fileID
    | retrieveFileContent fileID => ascii "/files/" ++ fileID ++ ascii "/content"

def bearer (c : Caller) : Bytes := ascii "Authorization: Bearer " ++ c.key ++ crlf

def json : Bytes := ascii "Content-Type: application/json" ++ crlf

/-- The two `if`s of the chat templates, behind `get_cache_options`. -/
def cacheLines : Option CacheOptions → Bytes
  | none => []
  | some options =>
    ascii "X-Msh-Context-Cache: " ++ options.cacheID ++ crlf ++
      if options.resetTTL ≠ 0 then
        ascii "X-Msh-Context-Cache-Reset-TTL: " ++
          (Decimal.spell options.resetTTL).map (fun c => UInt8.ofNat c.toNat) ++ crlf
      else []

/-- The header templates.  A `ToJSON` that fails makes the whole template fail. -/
def header (c : Caller) : Call → Except String Bytes
  | listModels | checkBalance | listFiles | deleteFile _ | retrieveFileContent _ =>
    .ok (bearer c ++ crlf)
  | estimateTokenCount request => request.map fun body => bearer c ++ crlf ++ body
  | createChatCompletion options request | createChatCompletionStream options request =>
    request.map fun body => json ++ bearer c ++ cacheLines options ++ crlf ++ crlf ++ body
  | createContextCache request => request.map fun body => json ++ bearer c ++ crlf ++ body
  | retrieveContextCache _ | deleteContextCache _ => .ok (json ++ bearer c ++ crlf)
  | uploadFile contentType => .ok (ascii "Content-Type: " ++ contentType ++ crlf ++ bearer c ++ crlf)

end Call

/-! ## Requests -/

inductive ClientError
  /-- `error building '%s' header: %w` -/
  | buildingHeader (caller : String) (err : String)
  /-- `error reading '%s' header: %w` -/
  | readingHeader (caller : String) (err : HeaderError)
  /-- `error building '%s' request: %w` -/
  | buildingRequest (caller : String) (err : String)

inductive RequestBody
  | noBody
  /-- what is left in the buffer behind the header -/
  | left (bytes : Bytes)
  /-- an `UploadFileRequest`, to be read from -/
  | upload

structure HttpRequest where
  method : String
  url : Bytes
  header : MIMEHeader
  body : RequestBody

namespace Call

def body (rest : Bytes) : Call → RequestBody
  | estimateTokenCount _ | createChatCompletion _ _ | createChatCompletionStream _ _
  | createContextCache _ => .left rest
  | uploadFile _ => .upload
  | _ => .noBody

/-- What a call gives to `Do`.  `parseURL` is the error of `http.NewRequestWithContext`. -/
def request (parseURL : Bytes → Option String) (c : Caller) (call : Call) :
    Except ClientError HttpRequest :=
  match call.header c with
  | .error err => .error (.buildingHeader call.caller err)
  | .ok text =>
    match readMIMEHeader text with
    | .error err => .error (.readingHeader call.caller err)
    | .ok (mimeHeader, rest) =>
      match parseURL (call.addr c) with
      | some err => .error (.buildingRequest call.caller err)
      | none => .ok ⟨call.method, call.addr c, mimeHeader, call.body rest⟩

/-! ## What a call should ask -/

/-- The fields before the key. -/
def front : Call → MIMEHeader
  | listModels | checkBalance | listFiles | deleteFile _ | retrieveFileContent _
  | estimateTokenCount _ => []
  | createChatCompletion _ _ | createChatCompletionStream _ _ | createContextCache _
  | retrieveContextCache _ | deleteContextCache _ => [(ascii "Content-Type", ascii "application/json")]
  | uploadFile contentType => [(ascii "Content-Type", contentType)]

def authorization (key : Bytes) : Bytes × Bytes := (ascii "Authorization", ascii "Bearer " ++ key)

/-- The fields of a context cache. -/
def cacheFields : Option CacheOptions → MIMEHeader
  | none => []
  | some options =>
    (ascii "X-Msh-Context-Cache", options.cacheID) ::
      if options.resetTTL ≠ 0 then
        [(ascii "X-Msh-Context-Cache-Reset-TTL",
          (Decimal.spell options.resetTTL).map fun c => UInt8.ofNat c.toNat)]
      else []

/-- The fields behind it. -/
def back : Call → MIMEHeader
  | createChatCompletion options _ | createChatCompletionStream options _ => cacheFields options
  | _ => []

def fields (key : Bytes) (call : Call) : MIMEHeader :=
  call.front ++ authorization key :: call.back

/-- The text of the body.  The chat templates leave a line break in front of it. -/
def content : Call → Except String Bytes
  | estimateTokenCount request | createContextCache request => request
  | createChatCompletion _ request | createChatCompletionStream _ request =>
    request.map fun body => crlf ++ body
  | _ => .ok []

/-- The request is the one to be asked. -/
structure Asks (c : Caller) (call : Call) (request : HttpRequest) : Prop where
  method : request.method = call.method
  url : request.url = call.addr c
  header : ∀ key, request.header.values key = (canonicalKeys (call.fields c.key)).values key
  body : ∃ content, call.content = .ok content ∧ request.body = call.body content

end Call

/-! ## The header of a call -/

variable {c : Caller} {call : Call}

theorem bearer_eq (c : Caller) : Call.bearer c = fieldLine (Call.authorization c.key) := by
  have htext : ascii "Authorization: Bearer " =
      ascii "Authorization" ++ colon :: 32 :: ascii "Bearer " := by
    decide
  simp [Call.bearer, fieldLine, Call.authorization, htext]

theorem json_eq : Call.json = fieldLine (ascii "Content-Type", ascii "application/json") := by decide

theorem cacheLines_eq (options : Option CacheOptions) :
    Call.cacheLines options = renderFields (Call.cacheFields options) := by
  have hid : ascii "X-Msh-Context-Cache: " = ascii "X-Msh-Context-Cache" ++ [colon, 32] := by decide
  have hreset : ascii "X-Msh-Context-Cache-Reset-TTL: " =
      ascii "X-Msh-Context-Cache-Reset-TTL" ++ [colon, 32] := by decide
  cases options with
  | none => rfl
  | some options =>
    rw [Call.cacheLines, Call.cacheFields]
    split_ifs <;> simp [renderFields, fieldLine, hid, hreset]

theorem renderFields_append (a b : MIMEHeader) :
    renderFields (a ++ b) = renderFields a ++ renderFields b := List.flatMap_append

theorem renderFields_cons (field : Bytes × Bytes) (fields : MIMEHeader) :
    renderFields (field :: fields) = fieldLine field ++ renderFields fields := rfl

/-- **The text that is read** is the fields of the call, an empty line, and the body. -/
theorem header_eq (c : Caller) (call : Call) : call.header c =
    call.content.map fun content => renderFields (call.fields c.key) ++ (crlf ++ content) := by
  have hupload (contentType : Bytes) : ascii "Content-Type: " ++ contentType ++ crlf =
      fieldLine (ascii "Content-Type", contentType) := by
    have htext : ascii "Content-Type: " = ascii "Content-Type" ++ [colon, 32] := by decide
    simp [fieldLine, htext]
  have hnil : renderFields [] = [] := rfl
  cases call <;>
    simp only [Call.header, Call.content, Call.fields, Call.front, Call.back, renderFields_append,
      renderFields_cons, hnil, bearer_eq, json_eq, cacheLines_eq, hupload, Except.map,
      List.append_assoc, List.nil_append, List.append_nil] <;>
    -- where there is JSON, `ToJSON` has failed or not
    (rename_i request; cases request <;> simp)

/-- The names of the fields. -/
def names : List Bytes :=
  [ascii "Content-Type", ascii "Authorization", ascii "X-Msh-Context-Cache",
    ascii "X-Msh-Context-Cache-Reset-TTL"]

theorem isKey_of_names {name : Bytes} (h : name ∈ names) : IsKey name := by
  have hall : names.all (fun name => !name.isEmpty && name.all validHeaderFieldByte) = true := by
    decide +kernel
  have hname := List.all_eq_true.mp hall name h
  rw [Bool.and_eq_true] at hname
  exact ⟨by simpa using hname.1, List.all_eq_true.mp hname.2⟩

theorem mem_names_of_cacheFields {options : Option CacheOptions} {field : Bytes × Bytes}
    (h : field ∈ Call.cacheFields options) : field.1 ∈ names := by
  cases options with
  | none => cases h
  | some options =>
    rcases List.mem_cons.mp h with rfl | h
    · simp [names]
    · split_ifs at h
      · obtain rfl := List.mem_singleton.mp h
        simp [names]
      · cases h

theorem isKey_of_mem {key : Bytes} {field : Bytes × Bytes} (h : field ∈ call.fields key) :
    IsKey field.1 := by
  refine isKey_of_names ?_
  rcases List.mem_append.mp h with h | h
  · cases call <;> simp only [Call.front, List.not_mem_nil, List.mem_singleton] at h <;>
      (subst h; simp [names])
  · rcases List.mem_cons.mp h with rfl | h
    · simp [Call.authorization, names]
    · cases call with
      | createChatCompletion options request => exact mem_names_of_cacheFields h
      | createChatCompletionStream options request => exact mem_names_of_cacheFields h
      | _ => cases h

/-! ## What a call asks -/

variable {parseURL : Bytes → Option String}

/-- A request comes out of a header that can be read. -/
theorem request_ok {request : HttpRequest} (h : call.request parseURL c = .ok request) :
    ∃ content m rest, call.content = .ok content ∧
      readMIMEHeader (renderFields (call.fields c.key) ++ (crlf ++ content)) = .ok (m, rest) ∧
      parseURL (call.addr c) = none ∧ request = ⟨call.method, call.addr c, m, call.body rest⟩ := by
  rw [Call.request, header_eq] at h
  cases hcontent : call.content with
  | error err => rw [hcontent] at h; cases h
  | ok content =>
    rw [hcontent] at h
    simp only [Except.map] at h
    cases hread : readMIMEHeader (renderFields (call.fields c.key) ++ (crlf ++ content)) with
    | error err => simp only [hread] at h; cases h
    | ok read =>
      obtain ⟨m, rest⟩ := read
      simp only [hread] at h
      cases hurl : parseURL (call.addr c) with
      | some err => simp only [hurl] at h; cases h
      | none =>
        simp only [hurl] at h
        exact ⟨content, m, rest, rfl, hread, rfl, (Except.ok.inj h).symm⟩

/-- What comes of fields that can be read as they are. -/
theorem request_of_clean {fields : MIMEHeader} {content : Bytes}
    (hrender : renderFields (call.fields c.key) = renderFields fields)
    (hkeys : ∀ field ∈ fields, IsKey field.1) (hclean : ∀ field ∈ fields, Clean field.2)
    (hcontent : call.content = .ok content) (hurl : parseURL (call.addr c) = none) :
    call.request parseURL c =
      .ok ⟨call.method, call.addr c, canonicalKeys fields, call.body content⟩ := by
  rw [Call.request, header_eq, hcontent]
  simp only [Except.map, hrender, readMIMEHeader_clean hkeys hclean, hurl]

/-- **A call asks what it should** exactly when its body and its address can be had, and every value
in its header is one that comes back as it is. -/
theorem asks_iff (parseURL : Bytes → Option String) (c : Caller) (call : Call) :
    (∃ request, call.request parseURL c = .ok request ∧ call.Asks c request) ↔
      (∃ content, call.content = .ok content) ∧ parseURL (call.addr c) = none ∧
        ∀ field ∈ call.fields c.key, Clean field.2 := by
  constructor
  · rintro ⟨request, hrequest, hasks⟩
    obtain ⟨content, m, rest, hcontent, hread, hurl, rfl⟩ := request_ok hrequest
    refine ⟨⟨content, hcontent⟩, hurl, ?_⟩
    exact (readMIMEHeader_render_iff (fun _ => isKey_of_mem) content).mp
      ⟨m, rest, hread, hasks.header⟩
  · rintro ⟨⟨content, hcontent⟩, hurl, hclean⟩
    exact ⟨_, request_of_clean rfl (fun _ => isKey_of_mem) hclean hcontent hurl,
      rfl, rfl, fun _ => rfl, content, hcontent, rfl⟩

/-! ## Keys with line breaks -/

/-- A key that brings fields along. -/
def smuggled (key : Bytes) (extra : MIMEHeader) : Bytes :=
  key ++ extra.flatMap fun field => crlf ++ (field.1 ++ colon :: 32 :: field.2)

theorem fieldLine_smuggled (key : Bytes) (extra : MIMEHeader) :
    fieldLine (Call.authorization (smuggled key extra)) =
      fieldLine (Call.authorization key) ++ renderFields extra := by
  have hshift : (extra.flatMap fun field => crlf ++ (field.1 ++ colon :: 32 :: field.2)) ++ crlf =
      crlf ++ renderFields extra := by
    induction extra with
    | nil => simp [renderFields]
    | cons field extra ih =>
      rw [List.flatMap_cons, List.append_assoc, ih, renderFields_cons, fieldLine]
      simp only [List.append_assoc]
  have hline (key : Bytes) : fieldLine (Call.authorization key) =
      ascii "Authorization" ++ colon :: 32 :: ascii "Bearer " ++ (key ++ crlf) := by
    simp [fieldLine, Call.authorization]
  rw [hline, hline, smuggled, List.append_assoc key, hshift]
  simp only [List.append_assoc]

/-- **A key can bring any fields along.**  Nothing looks at it before it is in the text, and so they
are sent with the others. -/
theorem smuggled_sent (call : Call) (baseUrl key : Bytes) {extra : MIMEHeader} {content : Bytes}
    (hextra : ∀ field ∈ extra, IsKey field.1 ∧ Clean field.2)
    (hclean : ∀ field ∈ call.fields key, Clean field.2) (hcontent : call.content = .ok content)
    (hurl : parseURL (call.addr ⟨baseUrl, key⟩) = none) :
    call.request parseURL ⟨baseUrl, smuggled key extra⟩ =
      .ok ⟨call.method, call.addr ⟨baseUrl, key⟩,
        canonicalKeys (call.front ++ Call.authorization key :: extra ++ call.back),
        call.body content⟩ := by
  have hmem {field : Bytes × Bytes}
      (hfield : field ∈ call.front ++ Call.authorization key :: extra ++ call.back) :
      field ∈ call.fields key ∨ field ∈ extra := by
    simp only [Call.fields, List.mem_append, List.mem_cons] at hfield ⊢
    tauto
  refine request_of_clean ?_ ?_ ?_ hcontent hurl
  · simp only [Call.fields, renderFields_append, renderFields_cons, fieldLine_smuggled,
      List.append_assoc, List.cons_append]
  · intro field hfield
    rcases hmem hfield with hfield | hfield
    · exact isKey_of_mem hfield
    · exact (hextra field hfield).1
  · intro field hfield
    rcases hmem hfield with hfield | hfield
    · exact hclean field hfield
    · exact (hextra field hfield).2

/-- A client that only wants to see the models, and opens a context cache on the way. -/
theorem smuggled_sent_cache :
    Call.listModels.request (fun _ => none)
        ⟨ascii "http://host", smuggled (ascii "k") [(ascii "x-msh-context-cache", ascii "7")]⟩ =
      .ok ⟨"GET", ascii "http://host/models",
        [(ascii "Authorization", ascii "Bearer k"), (ascii "X-Msh-Context-Cache", ascii "7")],
        .noBody⟩ := by
  have hkey : IsKey (ascii "x-msh-context-cache") :=
    ⟨by decide, List.all_eq_true.mp (by decide +kernel)⟩
  have hvalue : Clean (ascii "7") := ⟨List.all_eq_true.mp (by decide), by decide⟩
  have hbearer : Clean (ascii "Bearer k") := ⟨List.all_eq_true.mp (by decide), by decide⟩
  have hextra : ∀ field ∈ [(ascii "x-msh-context-cache", ascii "7")],
      IsKey field.1 ∧ Clean field.2 := by
    rintro _ (_ | ⟨_, ⟨⟩⟩)
    exact ⟨hkey, hvalue⟩
  have hclean : ∀ field ∈ Call.listModels.fields (ascii "k"), Clean field.2 := by
    rintro _ (_ | ⟨_, ⟨⟩⟩)
    exact hbearer
  have hheader : canonicalKeys (Call.listModels.front ++
      Call.authorization (ascii "k") :: [(ascii "x-msh-context-cache", ascii "7")] ++
        Call.listModels.back) =
      [(ascii "Authorization", ascii "Bearer k"), (ascii "X-Msh-Context-Cache", ascii "7")] := by
    decide +kernel
  rw [smuggled_sent .listModels (ascii "http://host") (ascii "k") hextra hclean rfl rfl, hheader]
  rfl

end Accumulation.Kimi.Client
