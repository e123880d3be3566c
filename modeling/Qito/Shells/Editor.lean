import Qito.Lib.Splices
import Qito.Shells.Tokens

/-! The line editor: shell_read_line and complete, on the buffer that the caller gives. A
store or a move that leaves the buffer is none. -/
namespace Qito.Shells
open Rows Splices

abbrev shellHistoryMax : Nat := 64
abbrev fsNameMax : Nat := 64
abbrev matchesMax : Nat := 64

/-- A C string. -/
abbrev Text := { text : Bytes // 0 ∉ text }

/-- What the editor reads of the shell: the slots of the history and how many lines it
has had, the names of the commands, and how a path is resolved. -/
structure Session where
  history : Nat → Text
  historyCount : Nat
  commands : List Text
  resolve : Bytes → Bytes

/-- A key, and the names that the directories have when it comes. -/
structure Input where
  ch : Int
  listing : Bytes → List Text

structure Editor where
  cells : Nat → UInt8
  length : Nat
  cursor : Nat
  pos : Int

/-- The editor waits for the next key, or has returned a length. -/
inductive Press where
  | going (e : Editor)
  | line (cells : Nat → UInt8) (length : Nat)

def keyUp : Int := 0x100
def keyDown : Int := 0x101
def keyLeft : Int := 0x102
def keyRight : Int := 0x103
def keyHome : Int := 0x104
def keyEnd : Int := 0x105
def keyDelete : Int := 0x109

section Completion

/-- strrchr(partial, '/') as an index. -/
def lastSlash (word : Bytes) : Option Nat := (word.reverse.findIdx? (· == 47)).map fun i => word.length - 1 - i

/-- How many characters two texts have in common in front. -/
def agree : Bytes → Bytes → Nat
  | c :: text, d :: other => if c = d then agree text other + 1 else 0
  | _, _ => 0

/-- The names that a word can be completed to, and how much of them the word has. -/
def candidates (S : Session) (listing : Bytes → List Text) (first : Bool) (word : Bytes) : List Bytes × Nat :=
  if first then (((S.commands.map Subtype.val).filter word.isPrefixOf).take matchesMax, word.length)
  else
    let dir := match lastSlash word with
      | some i => (word.take i).take (fsPathMax - 1)
      | none => [46]
    let name := match lastSlash word with
      | some i => (word.drop (i + 1)).take (fsNameMax - 1)
      | none => word.take (fsNameMax - 1)
    let names := (((listing (S.resolve dir)).map Subtype.val).filter name.isPrefixOf).take matchesMax
    (names.map (·.take (fsNameMax - 1)), if (lastSlash word).isSome then name.length else word.length)

/-- What all candidates have behind the word. -/
def extension (found : List Bytes × Nat) : Bytes :=
  match found.1 with
  | [] => []
  | first :: more => (first.take (more.foldl (fun common name => min common (agree name first)) first.length)).drop found.2

/-- Where the word in front of a cell starts. -/
def wordStart (cells : Nat → UInt8) : Nat → Nat
  | 0 => 0
  | n + 1 => if isSpace (cells n) then n + 1 else wordStart cells n

def complete (S : Session) (size : Nat) (listing : Bytes → List Text) (e : Editor) : Option Editor :=
  let start := wordStart e.cells e.cursor
  let word := cstr ((List.range (min (e.cursor - start) 255)).map fun i => e.cells (start + i))
  let insert := extension (candidates S listing (start = 0) word)
  if insert = [] then some e
  else if e.length + insert.length < size - 1 then
    (move size e.cells (e.cursor + insert.length) e.cursor (e.length - e.cursor + 1)).bind fun cells =>
      (fill size cells e.cursor insert).map fun cells => ⟨cells, e.length + insert.length, e.cursor + insert.length, e.pos⟩
  else some e

end Completion

section Keys
variable (S : Session) (size : Nat)

/-- Where the history goes on with Up and Down. -/
def target (pos : Int) (up : Bool) : Int :=
  min (max (pos + if up then -1 else 1) (max 0 ((S.historyCount : Int) - shellHistoryMax))) S.historyCount

def browse (up : Bool) (e : Editor) : Option Editor :=
  let pos := target S e.pos up
  if pos = S.historyCount then (store size e.cells 0 0).map fun cells => ⟨cells, 0, 0, pos⟩
  else
    (fill size e.cells 0 (strlcpy (S.history (pos.toNat % shellHistoryMax)).val size ++ [0])).map fun cells =>
      ⟨cells, (scan cells size 0).length, (scan cells size 0).length, pos⟩

/-- A round of the loop of shell_read_line. -/
def pressKey (input : Input) (e : Editor) : Option Press :=
  let ch := input.ch
  if ch = 10 ∨ ch = 13 then (store size e.cells e.length 0).map fun cells => .line cells e.length
  else if ch = 3 then (store size e.cells 0 0).map fun cells => .line cells 0
  else if ch = 4 then
    if e.length = 0 then (fill size e.cells 0 (strlcpy (ascii "exit") size ++ [0])).map fun cells => .line cells 4
    else some (.going e)
  else if ch = 1 then some (.going { e with cursor := 0 })
  else if ch = 5 then some (.going { e with cursor := e.length })
  else if ch = 21 then
    (move size e.cells 0 e.cursor (e.length - e.cursor + 1)).map fun cells => .going ⟨cells, e.length - e.cursor, 0, e.pos⟩
  else if ch = 11 then (store size e.cells e.cursor 0).map fun cells => .going ⟨cells, e.cursor, e.cursor, e.pos⟩
  else if ch = 12 then some (.going e)
  else if ch = 9 then (complete S size input.listing e).map .going
  else if ch = 8 ∨ ch = 127 then
    if 0 < e.cursor then
      (move size e.cells (e.cursor - 1) e.cursor (e.length - e.cursor + 1)).map fun cells =>
        .going ⟨cells, e.length - 1, e.cursor - 1, e.pos⟩
    else some (.going e)
  else if ch = keyLeft then some (.going (if 0 < e.cursor then { e with cursor := e.cursor - 1 } else e))
  else if ch = keyRight then some (.going (if e.cursor < e.length then { e with cursor := e.cursor + 1 } else e))
  else if ch = keyHome then some (.going { e with cursor := 0 })
  else if ch = keyEnd then some (.going { e with cursor := e.length })
  else if ch = keyDelete then
    if e.cursor < e.length then
      (move size e.cells e.cursor (e.cursor + 1) (e.length - e.cursor)).map fun cells =>
        .going ⟨cells, e.length - 1, e.cursor, e.pos⟩
    else some (.going e)
  else if ch = keyUp ∨ ch = keyDown then (browse S size (ch = keyUp) e).map .going
  else if ch < 32 ∨ 126 < ch then some (.going e)
  else if size ≤ e.length + 1 then some (.going e)
  else
    (move size e.cells (e.cursor + 1) e.cursor (e.length - e.cursor + 1)).bind fun cells =>
      (store size cells e.cursor (UInt8.ofNat ch.toNat)).map fun cells => .going ⟨cells, e.length + 1, e.cursor + 1, e.pos⟩

/-- The rounds that the keys make. -/
def pressKeys : List Input → Editor → Option Press
  | [], e => some (.going e)
  | input :: more, e =>
    (pressKey S size input e).bind fun
      | .going e => pressKeys more e
      | .line cells length => some (.line cells length)

/-- shell_read_line up to where it waits for the next key, or returns. -/
def shellReadLine (cells : Nat → UInt8) (inputs : List Input) : Option Press :=
  (store size cells 0 0).bind fun cells => pressKeys S size inputs ⟨cells, 0, 0, S.historyCount⟩

end Keys

end Qito.Shells
