import Qito.Http.Request
import Qito.Lib.Search
import Qito.Lib.Traces

/-! The pages of user/apps/browser.c: how HTML becomes lines and links. Every store
into one of the fixed buffers is an event of the trace; a text in a buffer is what
stands before its NUL. -/
namespace Qito.Browser
open Http Search Traces

abbrev browserMaxLines : Nat := 800
abbrev browserLineMax : Nat := 180
abbrev browserMaxLinks : Nat := 64

inductive LineKind where
  | text
  | heading
  | subheading
  | list
  | pre
  | rule
  | link
  | blank

structure RenderedLine where
  text : Bytes
  kind : LineKind
  linkIndex : Option Nat

/-- struct browser_state as far as a page is rendered into it. -/
structure Page where
  url : Bytes
  lines : List RenderedLine
  links : List Bytes
  title : Bytes

inductive Buffer where
  | text
  | tag
  | name
  | href
  | wrapped
  | lines
  | lineText
  | links
  | link
  | title

/-- The bytes a buffer has; the entries of the two tables. -/
def Buffer.size : Buffer → Nat
  | .text => browserLineMax * 4
  | .tag => 512
  | .name => 24
  | .href => 224
  | .wrapped => browserLineMax
  | .lines => browserMaxLines
  | .lineText => browserLineMax
  | .links => browserMaxLinks
  | .link => 224
  | .title => 96

structure Store where
  buffer : Buffer
  offset : Nat
  length : Nat

/-- A loop has gone on for more rounds than it was given. -/
inductive Endless where
  | loop

abbrev Rendering := Traced Endless Store

/-- A text and its NUL are stored in a buffer. -/
def storeText (buffer : Buffer) (text : Bytes) : Rendering Unit := emit ⟨buffer, 0, text.length + 1⟩

def copyInto (buffer : Buffer) (text : Bytes) : Rendering Bytes := do
  storeText buffer (strlcpy text buffer.size)
  pure (strlcpy text buffer.size)

section Texts

structure Entity where
  entity : Bytes
  replacement : Bytes

def entities : List Entity :=
  [⟨ascii "&amp;", ascii "&"⟩, ⟨ascii "&lt;", ascii "<"⟩, ⟨ascii "&gt;", ascii ">"⟩, ⟨ascii "&quot;", [34]⟩,
    ⟨ascii "&#39;", ascii "'"⟩, ⟨ascii "&apos;", ascii "'"⟩, ⟨ascii "&nbsp;", ascii " "⟩,
    ⟨ascii "&mdash;", ascii "-"⟩, ⟨ascii "&ndash;", ascii "-"⟩, ⟨ascii "&hellip;", ascii "..."⟩]

/-- The loop for one entity, with the rounds it may go. -/
def decodeEntity (e : Entity) : Nat → Bytes → Rendering Bytes
  | 0, _ => fail .loop
  | n + 1, text =>
    match find e.entity text with
    | none => pure text
    | some i => do
      let rest := text.drop (i + e.entity.length)
      emit ⟨.text, i + e.replacement.length, rest.length + 1⟩
      emit ⟨.text, i, e.replacement.length⟩
      decodeEntity e n (text.take i ++ (e.replacement ++ rest))

def decodeEntities (text : Bytes) : Rendering Bytes :=
  fold (fun text e => decodeEntity e (text.length + 1) text) text entities

def addLine (text : Bytes) (kind : LineKind) (linkIndex : Option Nat) (page : Page) : Rendering Page :=
  if browserMaxLines ≤ page.lines.length then pure page
  else do
    emit ⟨.lines, page.lines.length, 1⟩
    let text ← copyInto .lineText text
    pure { page with lines := page.lines ++ [⟨text, kind, linkIndex⟩] }

/-- The blanks between the words. -/
def isBlank (c : UInt8) : Bool := c == 10 || c == 13 || c == 9 || c == 32

/-- The length of a word as emit_wrapped scans it. -/
def wordLength (text : Bytes) : Nat := (text.takeWhile fun c => c != 32 && c != 10 && c != 9).length

/-- A character goes to the end of the buffer as long as there is room. -/
def putChar (c : UInt8) (buffer : Bytes) : Rendering Bytes :=
  if buffer.length < Buffer.wrapped.size - 1 then do
    emit ⟨.wrapped, buffer.length, 1⟩
    pure (buffer ++ [c])
  else pure buffer

/-- The buffer becomes a line. -/
def endLine (kind : LineKind) (linkIndex : Option Nat) (buffer : Bytes) (page : Page) : Rendering Page := do
  emit ⟨.wrapped, buffer.length, 1⟩
  addLine buffer kind linkIndex page

/-- The loop of emit_wrapped: the buffer, whether a space is pending, and the page. -/
@[grind =]
def wrapFrom (kind : LineKind) (linkIndex : Option Nat) (columns : Nat) : Bytes → Bytes → Bool → Page → Rendering Page
  | [], buffer, _, page => if buffer = [] then pure page else endLine kind linkIndex buffer page
  | c :: rest, buffer, pending, page =>
    if isBlank c then wrapFrom kind linkIndex columns rest buffer (pending || decide (buffer ≠ [])) page
    else if pending ∧ buffer ≠ [] then
      if columns < buffer.length + 1 + wordLength (c :: rest) then do
        let page ← endLine kind linkIndex buffer page
        let buffer ← putChar c []
        wrapFrom kind linkIndex columns rest buffer false page
      else do
        emit ⟨.wrapped, buffer.length, 1⟩
        let buffer ← putChar c (buffer ++ [32])
        wrapFrom kind linkIndex columns rest buffer false page
    else do
      let buffer ← putChar c buffer
      wrapFrom kind linkIndex columns rest buffer pending page

def emitWrapped (text : Bytes) (kind : LineKind) (linkIndex : Option Nat) (columns : Nat) (page : Page) : Rendering Page :=
  wrapFrom kind linkIndex columns text [] false page

end Texts

section Links

/-- What stands behind the name of an attribute; before is what was passed over. -/
def findAttribute (name : Bytes) : Nat → Bytes → Bytes → Rendering (Option Bytes)
  | 0, _, _ => fail .loop
  | n + 1, before, cursor =>
    match find name cursor with
    | none => pure none
    | some i =>
      let before := before ++ cursor.take i
      let value := cursor.drop (i + name.length)
      if before.getLast?.all fun c => c == 32 || c == 9 then pure (some value)
      else findAttribute name n (before ++ name) value

/-- The value of an attribute, with or without quotes. -/
def attributeValue (value : Bytes) : Bytes :=
  let value := value.dropWhile fun c => c == 32 || c == 61
  match value with
  | [] => []
  | c :: rest =>
    if c = 34 ∨ c = 39 then rest.takeWhile (· != c) else value.takeWhile fun c => c != 32 && c != 62

def tagAttribute (tag name : Bytes) : Rendering (Option Bytes) := do
  match ← findAttribute name (tag.length + 1) [] tag with
  | none => pure none
  | some value =>
    let out ← copyInto .href (attributeValue value)
    pure (if out = [] then none else some out)

/-- The path up to its last slash. -/
def directoryOf (path : Bytes) : Bytes :=
  let directory := ((strlcpy path 256).reverse.dropWhile (· != 47)).reverse
  if directory = [] then ascii "/" else directory

def resolveLink (base href : Bytes) (size : Nat) : Bytes :=
  if (find (ascii "://") href).isSome then strlcpy href size
  else
    match httpParseUrl base with
    | none => strlcpy href size
    | some parsed =>
      if href.head? = some 47 then strlcpy (ascii "http://" ++ parsed.host ++ href) size
      else strlcpy (ascii "http://" ++ parsed.host ++ directoryOf parsed.path ++ href) size

end Links

section Tags

def tolower (c : UInt8) : UInt8 := if 65 ≤ c ∧ c ≤ 90 then c + 32 else c

/-- The tag behind a '<', and what follows it. -/
def readTag (cursor : Bytes) : Rendering (Bytes × Bytes) := do
  let tag := (cursor.takeWhile (· != 62)).take (Buffer.tag.size - 1)
  storeText .tag tag
  let cursor := cursor.drop tag.length
  pure (tag, if cursor.head? = some 62 then cursor.tail else cursor)

def tagName (tag : Bytes) : Rendering Bytes := do
  let slash : Bytes := if tag.head? = some 47 then [47] else []
  let scan := (tag.drop slash.length).takeWhile fun c => c != 32 && c != 47
  let name := slash ++ (scan.take (Buffer.name.size - 1 - slash.length)).map tolower
  storeText .name name
  pure name

/-- What render_html keeps from one round to the next. -/
structure Reader where
  page : Page
  text : Bytes
  inScript : Bool
  inStyle : Bool
  inPre : Bool
  pendingLink : Option Nat
  pendingKind : LineKind

/-- FLUSH: the text so far is wrapped. -/
def flush (columns : Nat) (r : Reader) : Rendering Reader :=
  if r.text = [] then pure r
  else do
    emit ⟨.text, r.text.length, 1⟩
    let text ← decodeEntities r.text
    let page ← emitWrapped text r.pendingKind r.pendingLink columns r.page
    pure { r with page := page, text := [] }

def addToPage (text : Bytes) (kind : LineKind) (r : Reader) : Rendering Reader := do
  let page ← addLine text kind none r.page
  pure { r with page := page }

def blockTags : List Bytes :=
  [ascii "p", ascii "/p", ascii "div", ascii "/div", ascii "br", ascii "/li", ascii "section", ascii "article",
    ascii "header", ascii "footer", ascii "nav", ascii "/tr"]

/-- The level of h1 to h6. -/
def headingLevel : Bytes → Option UInt8
  | [104, d] => if 49 ≤ d ∧ d ≤ 54 then some d else none
  | _ => none

def closesHeading : Bytes → Bool
  | 47 :: 104 :: d :: _ => decide (49 ≤ d ∧ d ≤ 54)
  | _ => false

/-- Fragments and the schemes that are not HTTP are no links. -/
def skipsLink (href : Bytes) : Bool :=
  href.head? == some 35 || (ascii "javascript:").isPrefixOf href || (ascii "mailto:").isPrefixOf href

def openLink (tag : Bytes) (r : Reader) : Rendering Reader := do
  match ← tagAttribute tag (ascii "href") with
  | none => pure r
  | some href =>
    if r.page.links.length < browserMaxLinks ∧ !skipsLink href then do
      let link := resolveLink r.page.url href Buffer.link.size
      emit ⟨.links, r.page.links.length, 1⟩
      storeText .link link
      pure { r with
        page := { r.page with links := r.page.links ++ [link] }
        pendingLink := some r.page.links.length
        pendingKind := .link }
    else pure r

/-- A tag that may end the run of text. -/
def blockTag (columns : Nat) (tag name : Bytes) (r : Reader) : Rendering Reader :=
  if name ∈ blockTags then do
    let r ← flush columns r
    let r := { r with pendingKind := .text }
    if name = ascii "p" ∨ name = ascii "/p" then addToPage [] .blank r else pure r
  else if (headingLevel name).isSome then do
    let r ← flush columns r
    let r ← addToPage [] .blank r
    pure { r with pendingKind := if (headingLevel name).all (· ≤ 50) then .heading else .subheading }
  else if closesHeading name then do
    let r ← flush columns r
    pure { r with pendingKind := .text }
  else if name = ascii "li" then do
    let r ← flush columns r
    pure { r with pendingKind := .list }
  else if name = ascii "hr" then do
    let r ← flush columns r
    addToPage [] .rule r
  else if name = ascii "pre" then do
    let r ← flush columns r
    pure { r with inPre := true, pendingKind := .pre }
  else if name = ascii "/pre" then do
    let r ← flush columns r
    pure { r with inPre := false, pendingKind := .text }
  else if name = ascii "a" then do
    let r ← flush columns r
    openLink tag r
  else if name = ascii "/a" then do
    let r ← flush columns r
    pure { r with pendingLink := none, pendingKind := .text }
  else pure r

/-- The text so far becomes the title. -/
def endTitle (r : Reader) : Rendering Reader := do
  emit ⟨.text, r.text.length, 1⟩
  let text ← decodeEntities r.text
  let title ← copyInto .title text
  pure { r with page := { r.page with title := title }, text := [] }

def handleTag (columns : Nat) (tag name : Bytes) (r : Reader) : Rendering Reader :=
  if tag.head? = some 33 then pure r
  else if name = ascii "script" then pure { r with inScript := true }
  else if name = ascii "/script" then pure { r with inScript := false }
  else if name = ascii "style" then pure { r with inStyle := true }
  else if name = ascii "/style" then pure { r with inStyle := false }
  else if name = ascii "title" then flush columns r
  else if name = ascii "/title" then endTitle r
  else if r.inScript || r.inStyle then pure r
  else blockTag columns tag name r

def handleChar (columns : Nat) (c : UInt8) (r : Reader) : Rendering Reader :=
  if r.inScript || r.inStyle then pure r
  else if r.inPre && c == 10 then flush columns r
  else if r.text.length < Buffer.text.size - 1 then do
    emit ⟨.text, r.text.length, 1⟩
    pure { r with text := r.text ++ [c] }
  else pure r

/-- The loop of render_html, with the rounds it may go. -/
def renderFrom (columns : Nat) : Nat → Bytes → Reader → Rendering Reader
  | 0, _, _ => fail .loop
  | _ + 1, [], r => pure r
  | n + 1, c :: cursor, r =>
    if c = 60 then do
      let (tag, rest) ← readTag cursor
      let name ← tagName tag
      let r ← handleTag columns tag name r
      renderFrom columns n rest r
    else do
      let r ← handleChar columns c r
      renderFrom columns n cursor r

def startReader (url : Bytes) : Reader where
  page := ⟨url, [], [], []⟩
  text := []
  inScript := false
  inStyle := false
  inPre := false
  pendingLink := none
  pendingKind := .text

def renderHtml (url html : Bytes) (columns : Nat) : Rendering Page := do
  let r ← renderFrom columns (html.length + 1) html (startReader url)
  let r ← flush columns r
  if r.page.lines = [] then addLine (ascii "(the page had no readable content)") .text none r.page else pure r.page

end Tags

end Qito.Browser
