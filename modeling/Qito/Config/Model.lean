import Mathlib.Data.List.DropRight
import Qito.Gfx.Capture
import Qito.Vfs.WholeFile

/-! The configuration store of sys/config.c: the table of settings, config_save and
config_load. The type and the dirty flag of a setting are not part of the model. -/
namespace Qito.Config
open Vfs (Bytes FsState Env ascii strlcpy overlay fsReadFile fsWriteFile)

abbrev keyMax : Nat := 64
abbrev valueMax : Nat := 192
abbrev descriptionMax : Nat := 96
abbrev maxEntries : Nat := 96
abbrev bufferSize : Nat := 8192

def configPath : Bytes := ascii "/etc/qito.conf"

structure Entry where
  key : Bytes
  value : Bytes
  description : Bytes

/-- The first entry_count entries. -/
abbrev Table := List Entry

def defaults : Table :=
  [⟨ascii "hostname", ascii "qito", ascii "network name of this machine"⟩,
   ⟨ascii "timezone", ascii "UTC", ascii "display timezone"⟩,
   ⟨ascii "locale", ascii "en_US", ascii "language and region"⟩,
   ⟨ascii "desktop.theme", ascii "aurora", ascii "desktop colour theme"⟩,
   ⟨ascii "desktop.wallpaper", ascii "gradient", ascii "wallpaper style: gradient, solid, stars"⟩,
   ⟨ascii "desktop.animations", ascii "1", ascii "enable window animations"⟩,
   ⟨ascii "desktop.panel_position", ascii "top", ascii "panel edge: top or bottom"⟩,
   ⟨ascii "desktop.show_clock", ascii "1", ascii "show the clock in the panel"⟩,
   ⟨ascii "desktop.double_click_ms", ascii "400", ascii "double click interval in milliseconds"⟩,
   ⟨ascii "wm.focus_follows_mouse", ascii "0", ascii "focus windows on hover"⟩,
   ⟨ascii "wm.snap_to_edges", ascii "1", ascii "snap windows to screen edges"⟩,
   ⟨ascii "wm.window_shadows", ascii "1", ascii "draw shadows under windows"⟩,
   ⟨ascii "terminal.default_shell", ascii "ush", ascii "shell started by the terminal: ush or qcsh"⟩,
   ⟨ascii "terminal.colors", ascii "1", ascii "enable coloured shell output"⟩,
   ⟨ascii "terminal.scrollback", ascii "500", ascii "scrollback buffer in lines"⟩,
   ⟨ascii "log.level", ascii "3", ascii "kernel log verbosity (0-5)"⟩,
   ⟨ascii "log.serial", ascii "1", ascii "mirror the kernel log to the serial port"⟩,
   ⟨ascii "power.reboot_on_panic", ascii "0", ascii "restart automatically on panic"⟩,
   ⟨ascii "security.enforce_permissions", ascii "1", ascii "enforce filesystem permission checks"⟩,
   ⟨ascii "input.mouse_speed", ascii "100", ascii "pointer speed percentage"⟩,
   ⟨ascii "input.key_repeat_ms", ascii "40", ascii "key repeat interval"⟩,
   ⟨ascii "net.hostname", ascii "qito", ascii "hostname advertised on the network"⟩,
   ⟨ascii "net.enabled", ascii "1", ascii "bring network interfaces up at boot"⟩]

def find (t : Table) (key : Bytes) : Option Nat := t.findIdx? fun e => e.key = key

def setValue (t : Table) (i : Nat) (value : Bytes) : Table :=
  t.modify i fun e => { e with value := strlcpy value valueMax }

/-- none when the table is full. -/
def insert (t : Table) (key value description : Bytes) : Option Table :=
  match find t key with
  | some i => some (setValue t i value)
  | none =>
    if t.length ≥ maxEntries then none
    else some (t ++ [⟨strlcpy key keyMax, strlcpy value valueMax, strlcpy description descriptionMax⟩])

def configResetDefaults : Table :=
  defaults.foldl (fun t e => (insert t e.key e.value e.description).getD t) []

def configGetString (t : Table) (key : Bytes) : Option Bytes := (find t key).bind fun i => t[i]?.map Entry.value

def configSetString (t : Table) (key value : Bytes) : Int × Table :=
  match find t key with
  | none =>
    match insert t key value (ascii "user defined") with
    | some t => (0, t)
    | none => (-1, t)
  | some i => (0, setValue t i value)

/-- %d of a number, in a buffer of 24. -/
def intText (value : Int) : Bytes :=
  ((if value < 0 then ascii "-" else []) ++ Gfx.decimal value.natAbs).take 23

def configSetInt (t : Table) (key : Bytes) (value : Int) : Int × Table := configSetString t key (intText value)

def configSetBool (t : Table) (key : Bytes) (value : Bool) : Int × Table :=
  configSetString t key (if value then ascii "1" else ascii "0")

def isspace (c : UInt8) : Bool := c == 32 || c == 9 || c == 10 || c == 13 || c == 11 || c == 12

/-- strtok_r with a newline: the parts that are not empty. -/
def lines (text : Bytes) : List Bytes := (text.splitOn 10).filter fun line => line ≠ []

/-- The key and the value that a line sets; none for a comment or a line without '='. -/
def assignment (line : Bytes) : Option (Bytes × Bytes) :=
  let line := line.dropWhile isspace
  if line.head? = none ∨ line.head? = some 35 ∨ line.head? = some 59 then none
  else if 61 ∉ line then none
  else
    let key := line.takeWhile (· ≠ 61)
    let value := (line.dropWhile (· ≠ 61)).tail
    some (key.rdropWhile isspace, (value.dropWhile isspace).rdropWhile isspace)

/-- A setting that does not fit the table any more is lost. -/
def assign (t : Table) (setting : Bytes × Bytes) : Table :=
  match find t setting.1 with
  | some i => setValue t i setting.2
  | none => (insert t setting.1 setting.2 (ascii "user defined")).getD t

/-- What a string in the buffer sets. -/
def settings (text : Bytes) : List (Bytes × Bytes) := (lines text).filterMap assignment

def configLoad (env : Env) (s : FsState) (t : Table) : Option (Int × FsState × Table) := do
  let (code, got, s) ← fsReadFile env s configPath (bufferSize - 1)
  if code ≠ 0 then return (-1, s, t)
  let applied := settings (got.takeWhile (· ≠ 0))
  return (if applied.length > 0 then 0 else -1, s, applied.foldl assign t)

/-- The buffer of config_save on the stack, with what lies behind it, and pos. -/
structure Output where
  buffer : Nat → UInt8
  pos : Nat

/-- snprintf at pos: at most the rest of the buffer is written, with a NUL at the end,
and pos goes on by the length the whole text has. -/
def Output.print (out : Output) (text : Bytes) : Output where
  buffer := overlay out.buffer out.pos (text.take (bufferSize - out.pos - 1) ++ [0])
  pos := out.pos + text.length

def header : Bytes := ascii
  "# QitoOS system configuration\n# Written by the configuration service; edit with\n# 'qcsh config set <key> <value>' or by hand.\n\n"

def Entry.comment (e : Entry) : Bytes := ascii "# " ++ e.description ++ ascii "\n"

def Entry.line (e : Entry) : Bytes := e.key ++ ascii " = " ++ e.value ++ ascii "\n\n"

def saveEntry (out : Output) (e : Entry) : Output :=
  if e.description ≠ [] then (out.print e.comment).print e.line else out.print e.line

def saveEntries : Output → Table → Output
  | out, [] => out
  | out, e :: t => if out.pos < bufferSize - 256 then saveEntries (saveEntry out e) t else out

def configSave (env : Env) (stack : Nat → UInt8) (s : FsState) (t : Table) : Option (Int × FsState) :=
  let out := saveEntries (Output.print ⟨stack, 0⟩ header) t
  fsWriteFile env s configPath ((List.range out.pos).map out.buffer)

/-- The calls that set a value. -/
inductive Setting where
  | string (key value : Bytes)
  | int (key : Bytes) (value : Int)
  | bool (key : Bytes) (value : Bool)

def Setting.run (t : Table) : Setting → Int × Table
  | .string key value => configSetString t key value
  | .int key value => configSetInt t key value
  | .bool key value => configSetBool t key value

end Qito.Config
