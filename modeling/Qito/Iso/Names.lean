import Qito.Lib.Lists
import Mathlib.Data.List.Basic

/-! Names in tools/isofs.py: the identifiers of the primary tree and the UCS-2 names of
Joliet. -/
namespace Qito.Iso

abbrev Bytes := List UInt8

/-- The text of a Python str. -/
abbrev Text := List Char

def allowed : Text := "ABCDEFGHIJKLMNOPQRSTUVWXYZ0123456789_".toList

/-- Characters whose upper-case form, with every character that is not allowed replaced, is
not the character itself, the capital of an ASCII letter or one underscore: the first and
last of each range and what becomes of them. -/
def expansions : List (Nat × Nat × Text) :=
  [(0xdf, 0xdf, ['S', 'S']), (0x131, 0x131, ['I']), (0x149, 0x149, ['_', 'N']), (0x17f, 0x17f, ['S']), (0x1f0, 0x1f0, ['J', '_']),
    (0x390, 0x390, ['_', '_', '_']), (0x3b0, 0x3b0, ['_', '_', '_']), (0x587, 0x587, ['_', '_']), (0x1e96, 0x1e96, ['H', '_']),
    (0x1e97, 0x1e97, ['T', '_']), (0x1e98, 0x1e98, ['W', '_']), (0x1e99, 0x1e99, ['Y', '_']), (0x1e9a, 0x1e9a, ['A', '_']),
    (0x1f50, 0x1f50, ['_', '_']), (0x1f52, 0x1f52, ['_', '_', '_']), (0x1f54, 0x1f54, ['_', '_', '_']), (0x1f56, 0x1f56, ['_', '_', '_']),
    (0x1f80, 0x1faf, ['_', '_']), (0x1fb2, 0x1fb4, ['_', '_']), (0x1fb6, 0x1fb6, ['_', '_']), (0x1fb7, 0x1fb7, ['_', '_', '_']),
    (0x1fbc, 0x1fbc, ['_', '_']), (0x1fc2, 0x1fc4, ['_', '_']), (0x1fc6, 0x1fc6, ['_', '_']), (0x1fc7, 0x1fc7, ['_', '_', '_']),
    (0x1fcc, 0x1fcc, ['_', '_']), (0x1fd2, 0x1fd3, ['_', '_', '_']), (0x1fd6, 0x1fd6, ['_', '_']), (0x1fd7, 0x1fd7, ['_', '_', '_']),
    (0x1fe2, 0x1fe3, ['_', '_', '_']), (0x1fe4, 0x1fe4, ['_', '_']), (0x1fe6, 0x1fe6, ['_', '_']), (0x1fe7, 0x1fe7, ['_', '_', '_']),
    (0x1ff2, 0x1ff4, ['_', '_']), (0x1ff6, 0x1ff6, ['_', '_']), (0x1ff7, 0x1ff7, ['_', '_', '_']), (0x1ffc, 0x1ffc, ['_', '_']),
    (0xfb00, 0xfb00, ['F', 'F']), (0xfb01, 0xfb01, ['F', 'I']), (0xfb02, 0xfb02, ['F', 'L']), (0xfb03, 0xfb03, ['F', 'F', 'I']),
    (0xfb04, 0xfb04, ['F', 'F', 'L']), (0xfb05, 0xfb06, ['S', 'T']), (0xfb13, 0xfb17, ['_', '_'])]

/-- One character in upper case, with what is not allowed replaced by underscores. -/
def sanitiseChar (c : Char) : Text :=
  if c ∈ allowed then [c]
  else if 97 ≤ c.toNat ∧ c.toNat ≤ 122 then [Char.ofNat (c.toNat - 32)]
  else
    match expansions.find? fun range => range.1 ≤ c.toNat && c.toNat ≤ range.2.1 with
    | some range => range.2.2
    | none => ['_']

def sanitise (text : Text) : Text := text.flatMap sanitiseChar

/-- What stands before and after the last separator. -/
def rpartition (sep : Char) (name : Text) : Option (Text × Text) :=
  let back := (name.reverse.takeWhile (· ≠ sep)).reverse
  if back.length = name.length then none else some (name.take (name.length - back.length - 1), back)

def stemOf (name : Text) : Text := ((rpartition '.' name).map Prod.fst).getD name

def extOf (name : Text) : Text := ((rpartition '.' name).map Prod.snd).getD []

/-- The first n characters, or an underscore if there is none. -/
def short (n : Nat) (text : Text) : Text :=
  match (sanitise text).take n with
  | [] => ['_']
  | c :: cs => c :: cs

def isoName (name : Text) (isDir : Bool) : Text :=
  if isDir then short 8 name
  else
    match (sanitise (extOf name)).take 3 with
    | [] => short 8 (stemOf name) ++ ['.', ';', '1']
    | c :: cs => short 8 (stemOf name) ++ '.' :: (c :: cs) ++ [';', '1']

def encodeAscii (text : Text) : Bytes := text.map fun c => UInt8.ofNat c.toNat

/-- A code unit, high byte first. -/
def unit (n : Nat) : Bytes := [UInt8.ofNat (n / 256), UInt8.ofNat n]

def utf16be (text : Text) : Bytes :=
  text.flatMap fun c =>
    if c.toNat < 0x10000 then unit c.toNat
    else unit (0xd800 + (c.toNat - 0x10000) / 1024) ++ unit (0xdc00 + (c.toNat - 0x10000) % 1024)

end Qito.Iso
