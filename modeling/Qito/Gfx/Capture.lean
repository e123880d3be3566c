import Mathlib.Data.Nat.Digits.Defs
import Qito.Lib.Base64

/-! fb_capture_serial of gfx/capture.c and the reader of its output, extract of
tools/grabframe.py. A text is the list of its characters, one byte each. The
header line is cut to the buffer it is printed into. -/
namespace Qito.Gfx

abbrev Bytes := List UInt8
abbrev Text := List UInt8

def ascii (text : String) : Text := text.toList.map fun c => UInt8.ofNat c.toNat

theorem ascii_ofList (cs : List Char) : ascii (String.ofList cs) = cs.map fun c => UInt8.ofNat c.toNat := by
  rw [ascii, String.toList_ofList]

/-- The back buffer and its size; pitch counts pixels. -/
structure FbInfo where
  width : Nat
  height : Nat
  pitch : Nat
  back : Nat → UInt32

/-- The pixels in the order of the two loops. -/
def FbInfo.raster (fb : FbInfo) : List UInt32 :=
  (List.range fb.height).flatMap fun y => (List.range fb.width).map fun x => fb.back (y * fb.pitch + x)

abbrev newline : UInt8 := 10

def captureBegin : Text := ascii "\n--QITO-FRAME-BEGIN "
def captureEnd : Text := ascii "\n--QITO-FRAME-END--\n"

def base64Alphabet : Text := ascii "ABCDEFGHIJKLMNOPQRSTUVWXYZabcdefghijklmnopqrstuvwxyz0123456789+/"

/-- The incremental encoder, and what has been written to the serial port. -/
structure B64State where
  pending : Bytes
  column : Nat
  serial : Text

def alphabetAt (i : Nat) : UInt8 := base64Alphabet.getD i 0

def b64FlushTriple (state : B64State) : B64State :=
  let triple := (state.pending.getD 0 0).toNat * 2 ^ 16 + (state.pending.getD 1 0).toNat * 2 ^ 8 + (state.pending.getD 2 0).toNat
  let serial := state.serial ++ [alphabetAt (triple / 2 ^ 18 % 64), alphabetAt (triple / 2 ^ 12 % 64),
    alphabetAt (triple / 2 ^ 6 % 64), alphabetAt (triple % 64)]
  if state.column + 4 ≥ 76 then { pending := [], column := 0, serial := serial ++ [newline] }
  else { pending := [], column := state.column + 4, serial := serial }

def b64Push (state : B64State) (byte : UInt8) : B64State :=
  let state := { state with pending := state.pending ++ [byte] }
  if state.pending.length = 3 then b64FlushTriple state else state

def b64Finish (state : B64State) : B64State :=
  if state.pending.length = 0 then state
  else
    let triple := (state.pending.getD 0 0).toNat * 2 ^ 16 +
      (if state.pending.length = 2 then (state.pending.getD 1 0).toNat * 2 ^ 8 else 0)
    { state with
      pending := []
      serial := state.serial ++ [alphabetAt (triple / 2 ^ 18 % 64), alphabetAt (triple / 2 ^ 12 % 64),
        if state.pending.length = 2 then alphabetAt (triple / 2 ^ 6 % 64) else 61, 61] }

def emitRun (state : B64State) (count : UInt8) (pixel : UInt32) : B64State :=
  [count, (pixel >>> 16).toUInt8, (pixel >>> 8).toUInt8, pixel.toUInt8].foldl b64Push state

/-- The variables of the pixel loop. -/
structure Capture where
  state : B64State
  current : UInt32
  count : Nat
  started : Bool

def capturePixel (c : Capture) (raw : UInt32) : Capture :=
  let pixel := raw &&& 0x00FFFFFF
  if !c.started then { c with current := pixel, count := 1, started := true }
  else if pixel = c.current ∧ c.count < 255 then { c with count := c.count + 1 }
  else { c with state := emitRun c.state (UInt8.ofNat c.count) c.current, current := pixel, count := 1 }

/-- A number as %d prints it. -/
def decimal (n : Nat) : Text :=
  if n = 0 then [48] else (Nat.digits 10 n).reverse.map fun d => UInt8.ofNat (48 + d)

/-- The header before it is cut, without its newline. -/
def headerLine (fb : FbInfo) (label : Text) : Text :=
  captureBegin ++ decimal fb.width ++ ascii "x" ++ decimal fb.height ++ ascii " rle24 " ++ label

abbrev headerSize : Nat := 160

def header (fb : FbInfo) (label : Text) : Text := (headerLine fb label ++ [newline]).take (headerSize - 1)

def captureRuns (fb : FbInfo) : B64State :=
  let c := fb.raster.foldl capturePixel
    { state := { pending := [], column := 0, serial := [] }, current := 0, count := 0, started := false }
  b64Finish (if c.started then emitRun c.state (UInt8.ofNat c.count) c.current else c.state)

/-- What fb_capture_serial writes to the serial port; the encoder starts after the header. -/
def fbCaptureSerial (fb : FbInfo) (label : Text) : Text :=
  header fb label ++ (captureRuns fb).serial ++ captureEnd

/-- The line as serial_putc sends it. -/
def serialLine (text : Text) : Text := text.flatMap fun c => if c = newline then [13, newline] else [c]

def isDigit (c : UInt8) : Bool := 48 ≤ c && c ≤ 57

/-- The characters of \w up to 255. -/
def isWord (c : UInt8) : Bool :=
  isDigit c || (65 ≤ c && c ≤ 90) || (97 ≤ c && c ≤ 122) || c == 95 ||
    c == 0xAA || c == 0xB2 || c == 0xB3 || c == 0xB5 || c == 0xB9 || c == 0xBA || c == 0xBC || c == 0xBD || c == 0xBE ||
    (0xC0 ≤ c && c != 0xD7 && c != 0xF7)

/-- The characters of \s up to 255. -/
def isSpace (c : UInt8) : Bool := (9 ≤ c && c ≤ 13) || (28 ≤ c && c ≤ 32) || c == 0x85 || c == 0xA0

/-- What BEGIN captures: width, height, encoding and label. -/
structure Begin where
  width : Text
  height : Text
  encoding : Text
  label : Text

/-- The text behind a literal. -/
def after (literal text : Text) : Option Text := if literal <+: text then some (text.drop literal.length) else none

/-- One or more characters of a class, and the text behind them. -/
def some1 (p : UInt8 → Bool) (text : Text) : Option (Text × Text) :=
  if text.takeWhile p = [] then none else some (text.takeWhile p, text.dropWhile p)

/-- BEGIN matched at the start of a text. No class contains the character behind
it, so there is nothing to give back. -/
def matchBegin (text : Text) : Option Begin := do
  let text ← after (ascii "--QITO-FRAME-BEGIN ") text
  let (width, text) ← some1 isDigit text
  let text ← after (ascii "x") text
  let (height, text) ← some1 isDigit text
  let text ← after (ascii " ") text
  let (encoding, text) ← some1 isWord text
  let text ← after (ascii " ") text
  return { width := width, height := height, encoding := encoding, label := text.takeWhile fun c => !isSpace c }

/-- BEGIN.search: the first place where it matches. -/
def searchBegin : Text → Option Begin
  | [] => matchBegin []
  | c :: cs => (matchBegin (c :: cs)).or (searchBegin cs)

def endMark : Text := ascii "--QITO-FRAME-END--"

/-- END in line. -/
def hasEnd (line : Text) : Bool := line.tails.any fun rest => endMark.isPrefixOf rest

def strip (line : Text) : Text := ((line.dropWhile isSpace).reverse.dropWhile isSpace).reverse

/-- int of a match of \d+. -/
def toInt (digits : Text) : Nat := digits.foldl (fun n d => n * 10 + (d.toNat - 48)) 0

def expandRuns (limit : Nat) : Bytes → Bytes → Bytes
  | out, count :: r :: g :: b :: rest =>
    let out := out ++ (List.replicate count.toNat [r, g, b]).flatten
    if out.length ≥ limit then out else expandRuns limit out rest
  | out, _ => out

def decodeRle24 (data : Bytes) (pixelCount : Nat) : Bytes := expandRuns (pixelCount * 3) [] data

structure Frame where
  width : Nat
  height : Nat
  label : Text
  data : Bytes
deriving DecidableEq

def expandAs (encoding : Text) (data : Bytes) (pixelCount : Nat) : Option Bytes :=
  if encoding = ascii "rle24" then some (decodeRle24 data pixelCount)
  else if encoding = ascii "rgb24" then some data
  else none

/-- What extract makes of one block: nothing when it cannot be decoded. -/
def frameOf (b : Begin) (payload : List Text) : Option Frame := do
  let width := toInt b.width
  let height := toInt b.height
  let expected := width * height * 3
  let data ← Base64.decode payload.flatten
  let data ← expandAs b.encoding data (width * height)
  let data := data ++ List.replicate (expected - data.length) 0
  return { width := width, height := height, label := if b.label = [] then ascii "frame" else b.label, data := data.take expected }

/-- The loop of extract over the lines, with the block it is in. -/
@[grind =] def extractFrom : Option (Begin × List Text) → List Text → List Frame
  | _, [] => []
  | none, line :: rest =>
    match searchBegin line with
    | none => extractFrom none rest
    | some b => extractFrom (some (b, [])) rest
  | some (b, payload), line :: rest =>
    if hasEnd line then (frameOf b payload).toList ++ extractFrom none rest
    else extractFrom (some (b, payload ++ [strip line])) rest

def extract (log : Text) : List Frame := extractFrom none ((log.filter (· ≠ 13)).splitOn newline)

/-- The low 24 bits of a pixel, red first. -/
def rgb (pixel : UInt32) : Bytes := [(pixel >>> 16).toUInt8, (pixel >>> 8).toUInt8, pixel.toUInt8]

/-- The frame a capture is to be read as. -/
def FbInfo.frame (fb : FbInfo) (label : Text) : Frame where
  width := fb.width
  height := fb.height
  label := label
  data := fb.raster.flatMap rgb

end Qito.Gfx
