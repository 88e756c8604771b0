/-
# Accumulation.Proxy.ReverseProxy — the proxy in front of a local service.

`ServeHTTP` takes the address that the request came in on, puts the port of the service behind it, and
forwards the request with its body there.  `RoundTrip` shows a reply with status 200 to the handler
registered for the path, which may read the bodies of the request and the reply as often as it likes.

The address is joined to its port with a colon and taken apart again.  This fails where the address
has colons of its own, so nothing that comes in on an IPv6 address is forwarded, but for the loopback
address (`serve_forwards_iff`).  A handler does not change what the client gets, unless it reads a
reply that breaks off (`serve_eq_relay`).

The service is a parameter: what it replies to a request, or the error of the transport.  A path begins
with a slash, as in every request but `OPTIONS *`; `httputil` puts one before a path that does not.
-/
import Accumulation.Go.HostPort
import Accumulation.Go.Int
import Accumulation.Go.Ip
import Accumulation.Go.Lines

namespace Accumulation.Proxy

open Accumulation.Lib Accumulation.Go

/-! ## Bodies -/

inductive ProxyError
  /-- `context.Canceled` -/
  | canceled
  /-- `context.DeadlineExceeded` -/
  | deadlineExceeded
  | other (text : String)
  deriving DecidableEq, Repr

/-- What is left to read of a body, and the error behind it, if it breaks off. -/
structure Body where
  bytes : Bytes
  err : Option ProxyError
  deriving DecidableEq, Repr

namespace Body

def ofBytes (bytes : Bytes) : Body := ⟨bytes, none⟩

/-- What `io.ReadAll` returns. -/
def readAll (b : Body) : Except ProxyError Bytes :=
  match b.err with
  | none => .ok b.bytes
  | some err => .error err

/-- What it leaves. -/
def drained (b : Body) : Body := ⟨[], b.err⟩

end Body

/-! ## Requests and replies -/

/-- `http.LocalAddrContextKey` in the context of a request. -/
inductive LocalAddr
  | missing
  | tcp (ip : IP) (port : ℕ)
  /-- an address of another kind -/
  | other
  deriving DecidableEq, Repr

structure Request where
  host : Text
  localAddr : LocalAddr
  path : String
  /-- the pairs of the query, in order -/
  query : List (String × String)
  body : Body
  deriving DecidableEq, Repr

/-- What the service is asked. -/
structure Forwarded where
  /-- its address and port -/
  dest : Text
  path : String
  query : List (String × String)
  body : Bytes
  deriving DecidableEq, Repr

structure Response where
  status : ℕ
  body : Body
  deriving DecidableEq, Repr

/-! ## Handlers -/

/-- `Context`, with the body that `GetBody` of its request gives out. -/
structure Context where
  body : Bytes
  query : List (String × String)
  queryCache : Option (List (String × String))
  resp : Response
  deriving DecidableEq, Repr

namespace Context

def bind (pc : Context) : Except ProxyError Bytes := (Body.ofBytes pc.body).readAll

/-- `BindFromResp` puts back what it has read. -/
def bindFromResp (pc : Context) : Except ProxyError Bytes × Context :=
  match pc.resp.body.readAll with
  | .error err => (.error err, { pc with resp := { pc.resp with body := pc.resp.body.drained } })
  | .ok body => (.ok body, { pc with resp := { pc.resp with body := .ofBytes body } })

/-- The values of a key in `url.Values`. -/
def valuesOf (query : List (String × String)) (key : String) : List String :=
  (query.filter (·.1 = key)).map (·.2)

def queryValue (pc : Context) (key defaultValue : String) : String × Context :=
  let pc := match pc.queryCache with
    | none => { pc with queryCache := some pc.query }
    | some _ => pc
  (((valuesOf (pc.queryCache.getD []) key).head?).getD defaultValue, pc)

end Context

/-- **A handler**: what it asks its context next, until it returns. -/
inductive PostFunc
  | ret (err : Option String)
  | bind (next : Except ProxyError Bytes → PostFunc)
  | bindFromResp (next : Except ProxyError Bytes → PostFunc)
  | query (key defaultValue : String) (next : String → PostFunc)

/-- The error it returns, and the context it leaves. -/
def PostFunc.run : PostFunc → Context → Option String × Context
  | .ret err, pc => (err, pc)
  | .bind next, pc => (next pc.bind).run pc
  | .bindFromResp next, pc => (next pc.bindFromResp.1).run pc.bindFromResp.2
  | .query key defaultValue next, pc =>
    (next (pc.queryValue key defaultValue).1).run (pc.queryValue key defaultValue).2

/-! ## The proxy -/

structure ReverseProxy where
  postFuncs : String → Option PostFunc
  proxyPort : ℤ
  portRoute : Option (Request → ℤ)

section Serve

variable (p : ReverseProxy) (service : Forwarded → Except ProxyError Response)

/-- `RoundTrip` -/
def ReverseProxy.roundTrip (req : Forwarded) : Except ProxyError Response :=
  match service req with
  | .error err => .error err
  | .ok resp =>
    if resp.status ≠ 200 then .ok resp
    else match p.postFuncs req.path with
      | none => .ok resp
      | some handler =>
        match handler.run ⟨req.body, req.query, none, resp⟩ with
        | (some err, _) => .error (.other err)
        | (none, pc) => .ok pc.resp

def isLoopback (ip : IP) : Bool :=
  match ip.to4 with
  | a :: _ => a = 127
  | [] => ip.equal [0, 0, 0, 0, 0, 0, 0, 0, 0, 0, 0, 0, 0, 0, 0, 1]

/-- `fmt.Sprintf("%s:%d", host, port)` -/
def joined (host : Text) (port : ℤ) : Text := host ++ ':' :: Decimal.spell port

/-- The host that the request came in on, with the port; `none` is a panic. -/
def hostOf (r : Request) : Option Text :=
  match r.localAddr with
  | .missing => some r.host
  | .tcp ip port =>
    if isLoopback ip then some (joined "localhost".toList port) else some (joined ip.string port)
  | .other => none

def getIPFromHost (host : Text) : Except ProxyError Text :=
  match splitHostPort host with
  | .error err => .error (.other err)
  | .ok (host, _) => .ok host

/-- The status that `handlerError` writes. -/
def handlerError : ProxyError → ℕ
  | .canceled => 499
  | .deadlineExceeded => 504
  | .other text => if text = "client disconnected" then 499 else 502

/-- What becomes of a request: what the service was asked, and what the client gets. -/
inductive Served
  | panicked
  | refused (status : ℕ)
  | forwarded (asked : Forwarded) (resp : Response)
  deriving DecidableEq, Repr

/-- What `httputil.ReverseProxy` passes on: the reply, or the status of a bad gateway. -/
def passOn : Except ProxyError Response → Response
  | .error _ => ⟨502, .ofBytes []⟩
  | .ok resp => resp

def ReverseProxy.destPort (r : Request) : ℤ :=
  match p.portRoute with
  | none => p.proxyPort
  | some portRoute => if 0 < portRoute r then int32 (portRoute r) else p.proxyPort

def ReverseProxy.serveHTTP (r : Request) : Served :=
  match hostOf r with
  | none => .panicked
  | some host =>
    match getIPFromHost host with
    | .error err => .refused (handlerError err)
    | .ok addr =>
      match r.body.readAll with
      | .error err => .refused (handlerError err)
      | .ok body =>
        let asked : Forwarded := ⟨joined addr (p.destPort r), r.path, r.query, body⟩
        .forwarded asked (passOn (p.roundTrip service asked))

end Serve

/-! ## Where a request is forwarded to -/

theorem spell_plain (port : ℕ) : ∀ c ∈ Decimal.spell port, c ∉ [':', '[', ']'] := by
  intro c hc hmem
  have hspell : Decimal.spell (port : ℤ) = Nat.toDigits 10 port := by simp [Decimal.spell]
  rw [hspell] at hc
  have hdigit := List.all_eq_true.mp (Decimal.all_isDigit_toDigits port) c hc
  simp only [List.mem_cons, List.not_mem_nil, or_false] at hmem
  rcases hmem with rfl | rfl | rfl <;> cases hdigit

/-- A host without colons and brackets comes apart from its port. -/
theorem getIPFromHost_plain {host : Text} (hhost : ∀ c ∈ host, c ∉ [':', '[', ']']) (port : ℕ) :
    getIPFromHost (joined host port) = .ok host := by
  rw [getIPFromHost, joined, splitHostPort_plain hhost (spell_plain port)]

/-- An IPv6 address does not. -/
theorem getIPFromHost_six {ip : IP} (h : ip.Six) (port : ℕ) :
    getIPFromHost (joined ip.string port) = .error (.other "too many colons in address") := by
  have hbracket : '[' ∉ ip.text6 := IP.notMem_text6 (by decide) (by decide)
  have hhead : ip.text6.head? ≠ some '[' := fun h => hbracket (List.mem_of_head? h)
  rw [getIPFromHost, joined, IP.string_six h, splitHostPort_colon hhead (IP.colon_mem_text6 h.1)]
  exact fun hcolon => spell_plain port ':' hcolon (by simp)

/-- The host that a request to an address is forwarded to. -/
def hostFor (ip : IP) : Text := if isLoopback ip then "localhost".toList else ip.string

theorem localhost_plain : ∀ c ∈ "localhost".toList, c ∉ [':', '[', ']'] := by simp

/-- What is left of the local address. -/
theorem getIPFromHost_hostOf {r : Request} {ip : IP} {port : ℕ} (hlocal : r.localAddr = .tcp ip port) :
    ∃ host, hostOf r = some host ∧ getIPFromHost host =
      if isLoopback ip = false ∧ ip.Six then .error (.other "too many colons in address")
      else .ok (hostFor ip) := by
  cases hloop : isLoopback ip with
  | true =>
    refine ⟨joined "localhost".toList port, by simp [hostOf, hlocal, hloop], ?_⟩
    rw [getIPFromHost_plain localhost_plain, if_neg (by simp), hostFor, if_pos hloop]
  | false =>
    refine ⟨joined ip.string port, by simp [hostOf, hlocal, hloop], ?_⟩
    by_cases hsix : ip.Six
    · simp [getIPFromHost_six hsix, hsix]
    · simp [getIPFromHost_plain (IP.string_plain hsix), hsix, hostFor, hloop]

/-! ## What a handler sees, and what it leaves -/

/-- The error that a handler returns when it is shown these bodies, and whether it has looked at that
of the reply. -/
def PostFunc.shown (body resp : Except ProxyError Bytes) (query : List (String × String)) :
    PostFunc → Option String × Bool
  | .ret err => (err, false)
  | .bind next => (next body).shown body resp query
  | .bindFromResp next => (((next resp).shown body resp query).1, true)
  | .query key defaultValue next =>
    (next ((Context.valuesOf query key).head?.getD defaultValue)).shown body resp query

/-- The reply after a handler has looked at it. -/
def Response.looked (resp : Response) (looked : Bool) : Response :=
  if looked ∧ resp.body.err ≠ none then { resp with body := resp.body.drained } else resp

theorem readAll_drained {b : Body} (h : b.err ≠ none) : b.drained.readAll = b.readAll := by
  obtain ⟨err, herr⟩ := Option.ne_none_iff_exists'.mp h
  simp [Body.readAll, Body.drained, herr]

theorem ofBytes_of_readAll {b : Body} {bytes : Bytes} (h : b.readAll = .ok bytes) :
    Body.ofBytes bytes = b := by
  rcases b with ⟨bytes', _ | err⟩
  · cases h
    rfl
  · cases h

/-- **One look at the reply**: it is put back, unless it breaks off. -/
theorem bindFromResp_eq (pc : Context) :
    pc.bindFromResp = (pc.resp.body.readAll, { pc with resp := pc.resp.looked true }) := by
  rcases hread : pc.resp.body.readAll with err | bytes
  · have herr : pc.resp.body.err ≠ none := by
      intro hnone
      simp [Body.readAll, hnone] at hread
    simp [Context.bindFromResp, hread, Response.looked, herr]
  · have hnone : pc.resp.body.err = none := by
      rcases herr : pc.resp.body.err with _ | e
      · rfl
      · simp [Body.readAll, herr] at hread
    simp [Context.bindFromResp, hread, Response.looked, hnone, ofBytes_of_readAll hread]

theorem readAll_looked (resp : Response) (looked : Bool) :
    (resp.looked looked).body.readAll = resp.body.readAll := by
  unfold Response.looked
  split
  · rename_i h
    exact readAll_drained h.2
  · rfl

theorem looked_looked (resp : Response) (a b : Bool) :
    (resp.looked a).looked b = resp.looked (a || b) := by
  rcases a with _ | _ <;> rcases b with _ | _ <;> by_cases h : resp.body.err = none <;>
    simp [Response.looked, h, Body.drained]

/-- **A handler sees the true bodies**, whatever it has read before. -/
theorem run_eq_shown (handler : PostFunc) (pc : Context)
    (hcache : ∀ query, pc.queryCache = some query → query = pc.query) :
    (handler.run pc).1 = (handler.shown (.ok pc.body) pc.resp.body.readAll pc.query).1 ∧
      (handler.run pc).2.resp =
        pc.resp.looked (handler.shown (.ok pc.body) pc.resp.body.readAll pc.query).2 := by
  induction handler generalizing pc with
  | ret err => exact ⟨rfl, by simp [PostFunc.run, PostFunc.shown, Response.looked]⟩
  | bind next ih => exact ih (.ok pc.body) pc hcache
  | bindFromResp next ih =>
    rw [PostFunc.run, bindFromResp_eq]
    obtain ⟨herr, hresp⟩ := ih pc.resp.body.readAll { pc with resp := pc.resp.looked true } hcache
    rw [readAll_looked] at herr hresp
    refine ⟨herr, hresp.trans ?_⟩
    rw [looked_looked]
    rfl
  | query key defaultValue next ih =>
    have hvalue : pc.queryValue key defaultValue =
        ((Context.valuesOf pc.query key).head?.getD defaultValue,
          { pc with queryCache := some pc.query }) := by
      rcases hold : pc.queryCache with _ | query
      · simp [Context.queryValue, hold]
      · obtain rfl := hcache query hold
        simp only [Context.queryValue, hold, Option.getD_some]
        rw [← hold]
    rw [PostFunc.run, hvalue]
    exact ih _ { pc with queryCache := some pc.query } fun query h => (Option.some.inj h).symm

/-! ## What the client gets -/

/-- The reply that a client gets through the proxy, by what the service replies. -/
def ReverseProxy.relay (p : ReverseProxy) (asked : Forwarded) :
    Except ProxyError Response → Response
  | .error _ => ⟨502, .ofBytes []⟩
  | .ok resp =>
    match if resp.status = 200 then p.postFuncs asked.path else none with
    | none => resp
    | some handler =>
      match handler.shown (.ok asked.body) resp.body.readAll asked.query with
      | (some _, _) => ⟨502, .ofBytes []⟩
      | (none, looked) => resp.looked looked

theorem passOn_roundTrip (p : ReverseProxy) (service : Forwarded → Except ProxyError Response)
    (asked : Forwarded) : passOn (p.roundTrip service asked) = p.relay asked (service asked) := by
  rcases hservice : service asked with err | resp
  · simp [ReverseProxy.roundTrip, ReverseProxy.relay, hservice, passOn]
  · by_cases hstatus : resp.status = 200
    · rcases hhandler : p.postFuncs asked.path with _ | handler
      · simp [ReverseProxy.roundTrip, ReverseProxy.relay, hservice, hstatus, hhandler, passOn]
      · obtain ⟨herr, hresp⟩ :=
          run_eq_shown handler ⟨asked.body, asked.query, none, resp⟩ (by simp)
        rcases hrun : handler.run ⟨asked.body, asked.query, none, resp⟩ with ⟨_ | err, pc⟩ <;>
          rcases hshown : handler.shown (.ok asked.body) resp.body.readAll asked.query with
            ⟨_ | err', looked⟩ <;>
          simp only [hrun, hshown] at herr hresp
        · simp [ReverseProxy.roundTrip, ReverseProxy.relay, hservice, hstatus, hhandler, passOn, hrun,
            hshown, hresp]
        · cases herr
        · cases herr
        · simp [ReverseProxy.roundTrip, ReverseProxy.relay, hservice, hstatus, hhandler, passOn, hrun,
            hshown]
    · simp [ReverseProxy.roundTrip, ReverseProxy.relay, hservice, hstatus, passOn]

/-! ## The results -/

/-- A service that sends the body back, and a request to it. -/
def echo (asked : Forwarded) : Except ProxyError Response := .ok ⟨200, .ofBytes asked.body⟩

/-- A proxy with one handler, which reads the reply and then the request. -/
def twice : ReverseProxy where
  postFuncs path :=
    if path = "/echo" then some (.bindFromResp fun _ => .bind fun _ => .ret none) else none
  proxyPort := 9000
  portRoute := none

def requestOn (ip : IP) : Request := ⟨[], .tcp ip 80, "/echo", [], .ofBytes (ascii "hello")⟩

section Results

variable (p : ReverseProxy) (service : Forwarded → Except ProxyError Response) (r : Request)

/-- **What comes in on an address** is forwarded exactly when the address is not one of IPv6 or is the
loopback address, and the body does not break off. -/
theorem serve_forwards_iff (ip : IP) (port : ℕ) (hlocal : r.localAddr = .tcp ip port) :
    (∃ asked resp, p.serveHTTP service r = .forwarded asked resp) ↔
      (isLoopback ip = true ∨ ¬ ip.Six) ∧ r.body.err = none := by
  obtain ⟨host, hhost, haddr⟩ := getIPFromHost_hostOf hlocal
  rw [ReverseProxy.serveHTTP, hhost]
  simp only [haddr]
  by_cases hsix : isLoopback ip = false ∧ ip.Six
  · simp [hsix]
  · have hopen : isLoopback ip = true ∨ ¬ ip.Six := by
      rcases hloop : isLoopback ip with _ | _
      · exact Or.inr fun h => hsix ⟨hloop, h⟩
      · exact Or.inl rfl
    rw [if_neg hsix]
    rcases herr : r.body.err with _ | err <;> simp [Body.readAll, herr, hopen]

/-- 2001:db8::1, of an IPv6 listener -/
theorem serve_refuses_six : ¬ ∃ asked resp,
    twice.serveHTTP echo (requestOn [0x20, 1, 0xd, 0xb8, 0, 0, 0, 0, 0, 0, 0, 0, 0, 0, 0, 1]) =
      .forwarded asked resp := by
  rw [serve_forwards_iff twice echo _ [0x20, 1, 0xd, 0xb8, 0, 0, 0, 0, 0, 0, 0, 0, 0, 0, 0, 1] 80 rfl]
  decide

/-- **What is forwarded** is asked of the host the request came in on, with the whole body of the
client; and the client gets what the handler of the path, shown the two bodies, lets through. -/
theorem serve_eq_relay (ip : IP) (port : ℕ) (hlocal : r.localAddr = .tcp ip port) (asked : Forwarded)
    (resp : Response) (hserve : p.serveHTTP service r = .forwarded asked resp) :
    asked = ⟨joined (hostFor ip) (p.destPort r), r.path, r.query, r.body.bytes⟩ ∧
      resp = p.relay asked (service asked) := by
  obtain ⟨host, hhost, haddr⟩ := getIPFromHost_hostOf hlocal
  rw [ReverseProxy.serveHTTP, hhost] at hserve
  simp only [haddr] at hserve
  split_ifs at hserve
  rcases herr : r.body.err with _ | err
  · simp only [Body.readAll, herr, Served.forwarded.injEq] at hserve
    obtain ⟨rfl, rfl⟩ := hserve
    exact ⟨rfl, passOn_roundTrip p service _⟩
  · simp [Body.readAll, herr] at hserve

theorem serve_eq_relay_echo :
    (⟨"10.0.0.1:9000".toList, "/echo", [], ascii "hello"⟩ : Forwarded) =
        ⟨joined (hostFor [10, 0, 0, 1]) (twice.destPort (requestOn [10, 0, 0, 1])), "/echo", [],
          ascii "hello"⟩ ∧
      (⟨200, .ofBytes (ascii "hello")⟩ : Response) =
        twice.relay ⟨"10.0.0.1:9000".toList, "/echo", [], ascii "hello"⟩
          (echo ⟨"10.0.0.1:9000".toList, "/echo", [], ascii "hello"⟩) :=
  serve_eq_relay twice echo (requestOn [10, 0, 0, 1]) [10, 0, 0, 1] 80 rfl _ _ rfl

end Results

end Accumulation.Proxy
