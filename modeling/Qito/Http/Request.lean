import Mathlib.Data.Int.DivMod
import Qito.Http.Chunked

/-! What http_request sends: the head it builds with a chain of snprintf calls, over
its redirects. The network, the memory and what is read out of a response are the
outcome of each round. -/
namespace Qito.Http
open Faults

def ascii (text : String) : Bytes := text.toList.map fun c => UInt8.ofNat c.toNat

theorem ascii_ofList (cs : List Char) : ascii (String.ofList cs) = cs.map fun c => UInt8.ofNat c.toNat := by
  rw [ascii, String.toList_ofList]

def strlcpy (src : Bytes) (size : Nat) : Bytes := src.take (size - 1)

/-- An int. -/
def int32 (n : Int) : Int := Int.bmod n (2 ^ 32)

section Urls

structure HttpUrl where
  host : Bytes
  path : Bytes
  port : Nat
  secure : Bool
deriving DecidableEq

def isdigit (c : UInt8) : Bool := 48 ≤ c && c ≤ 57

/-- What follows the scheme, and whether it is https. -/
def parseScheme (url : Bytes) : Option (Bytes × Bool) :=
  if (ascii "http://").isPrefixOf url then some (url.drop 7, false)
  else if (ascii "https://").isPrefixOf url then some (url.drop 8, true)
  else if url.tails.any fun rest => (ascii "://").isPrefixOf rest then none
  else some (url, false)

def parsePort (digits : Bytes) : Int := digits.foldl (fun port c => int32 (int32 (port * 10) + (c.toNat - 48))) 0

def parsePath (cursor : Bytes) : Bytes := if cursor.head? = some 47 then strlcpy cursor 256 else ascii "/"

def httpParseUrl (url : Bytes) : Option HttpUrl :=
  match parseScheme url with
  | none => none
  | some (cursor, secure) =>
    let host := (cursor.takeWhile fun c => c != 58 && c != 47).take 127
    let cursor := cursor.drop host.length
    if host = [] then none
    else
      let usual := if secure then 443 else 80
      let (port, cursor) :=
        if cursor.head? = some 58 then (parsePort (cursor.tail.takeWhile isdigit), cursor.tail.dropWhile isdigit)
        else (0, cursor)
      some { host := host
             path := parsePath cursor
             port := if 0 < port ∧ port < 65536 then port.toNat else usual
             secure := secure }

end Urls

section Printing

abbrev requestSize : Nat := 1536

/-- The request buffer, the bytes that are not initialised yet empty, and length. -/
structure Output where
  request : List (Option UInt8)
  length : Int

def blank : Output where
  request := List.replicate requestSize none
  length := 0

/-- The characters %s prints: the length of the string is taken as an int. -/
def printed (s : Bytes) : Bytes := s.take (int32 s.length).toNat

/-- length += snprintf(request + length, sizeof(request) - (size_t)length, ...) for this
text: as much of it is stored as fits, with a NUL behind it. -/
def snprintf (out : Output) (text : Bytes) : Except Fault Output :=
  let size := ((requestSize - out.length) % 2 ^ 64).toNat
  let length := int32 (out.length + int32 text.length)
  if size = 0 then .ok { out with length := length }
  else
    let cells := text.take (size - 1) ++ [0]
    if 0 ≤ out.length ∧ out.length + cells.length ≤ requestSize then
      let start := out.length.toNat
      .ok { request := out.request.take start ++ cells.map some ++ out.request.drop (start + cells.length)
            length := length }
    else .error .outside

/-- The bytes that tcp_send is handed. -/
def handed (out : Output) : Except Fault Bytes :=
  let len := (out.length % 2 ^ 64).toNat
  if len > requestSize then .error .outside
  else if (out.request.take len).all Option.isSome then .ok ((out.request.take len).filterMap id)
  else .error .uninitialised

/-- The body is kept elsewhere. -/
structure HttpOptions where
  method : Option Bytes
  extraHeaders : Option Bytes
  body : Bool
  bodyLength : UInt64
  noRedirect : Bool

def decimal (n : Nat) : Bytes := (Nat.toDigits 10 n).map fun c => UInt8.ofNat c.toNat

/-- The texts of the snprintf calls, with their strings as they are shown. -/
def headTexts (shown : Bytes → Bytes) (options : Option HttpOptions) (url : HttpUrl) : List Bytes :=
  let method := (options.bind (·.method)).getD (ascii "GET")
  [shown method ++ ascii " " ++ shown url.path ++ ascii " HTTP/1.1\r\nHost: " ++ shown url.host ++
    ascii "\r\nUser-Agent: QitoOS/0.4a\r\nAccept: */*\r\nConnection: close\r\n"] ++
  ((options.bind (·.extraHeaders)).map shown).toList ++
  ((options.filter fun o => o.body && o.bodyLength != 0).map fun o =>
    ascii "Content-Length: " ++ decimal o.bodyLength.toNat ++ ascii "\r\n").toList ++
  [ascii "\r\n"]

/-- The head of a request. -/
def requestHead (options : Option HttpOptions) (url : HttpUrl) : Bytes := (headTexts id options url).flatten

def buildRequest (options : Option HttpOptions) (url : HttpUrl) : Except Fault Bytes := do
  let out ← (headTexts printed options url).foldlM snprintf blank
  handed out

end Printing

section Rounds

/-- How a round ends: without a connection, without a response that can be used, with
a redirect to the value of its Location header, or with the response. -/
inductive Outcome where
  | unresolved
  | unconnected
  | unsent
  | failed
  | redirected (value : Bytes)
  | answered

structure Request where
  url : HttpUrl
  head : Bytes

/-- Where a redirect leads. -/
def redirectTo (url : HttpUrl) (value : Bytes) : Bytes :=
  let value := strlcpy value 256
  if value.head? = some 47 then strlcpy (ascii "http://" ++ url.host ++ value) 512 else strlcpy value 512

def follows (options : Option HttpOptions) : Bool :=
  match options with
  | none => true
  | some o => !o.noRedirect

/-- The rounds of the loop: the requests handed over, and whether the call returns 0. -/
def httpRounds (options : Option HttpOptions) : Nat → (Nat → Outcome) → Bytes → Except Fault (List Request × Bool)
  | 0, _, _ => .ok ([], false)
  | rounds + 1, network, current =>
    match httpParseUrl current with
    | none => .ok ([], false)
    | some url =>
      if url.secure then .ok ([], false)
      else
        match network 0 with
        | .unresolved => .ok ([], false)
        | .unconnected => .ok ([], false)
        | outcome => do
          let head ← buildRequest options url
          match outcome with
          | .redirected value =>
            if follows options then do
              let (later, ok) ← httpRounds options rounds (fun i => network (i + 1)) (redirectTo url value)
              return (⟨url, head⟩ :: later, ok)
            else return ([⟨url, head⟩], true)
          | .answered => return ([⟨url, head⟩], true)
          | _ => return ([⟨url, head⟩], false)

def httpRequest (options : Option HttpOptions) (network : Nat → Outcome) (url : Bytes) : Except Fault (List Request × Bool) :=
  httpRounds options 5 network (strlcpy url 512)

/-- The URLs that requests are made for, and whether the last one is answered. -/
def requested (options : Option HttpOptions) : Nat → (Nat → Outcome) → Bytes → List HttpUrl × Bool
  | 0, _, _ => ([], false)
  | rounds + 1, network, current =>
    match httpParseUrl current with
    | none => ([], false)
    | some url =>
      if url.secure then ([], false)
      else
        match network 0 with
        | .unresolved => ([], false)
        | .unconnected => ([], false)
        | .redirected value =>
          if follows options then
            let later := requested options rounds (fun i => network (i + 1)) (redirectTo url value)
            (url :: later.1, later.2)
          else ([url], true)
        | .answered => ([url], true)
        | _ => ([url], false)

end Rounds

end Qito.Http
