import Qito.Pkg.Sha256

/-! The two parsers of sys/qtpkg.c: the registry in entry.var and a package
profile. Texts are the bytes before the terminator; the buffers of an entry or a
profile cut what is too long for them. -/
namespace Qito.Pkg

abbrev qtpkgMaxPackages : Nat := 128
abbrev qtpkgMaxVersions : Nat := 16
abbrev qtpkgMaxDeps : Nat := 16

def cstr (text : Bytes) : Bytes := text.takeWhile (· != 0)

def strlcpy (src : Bytes) (size : Nat) : Bytes := src.take (size - 1)

def blank (c : UInt8) : Bool := c == 32 || c == 9

def blankOrReturn (c : UInt8) : Bool := blank c || c == 13

def trimEnd (p : UInt8 → Bool) (text : Bytes) : Bytes := (text.reverse.dropWhile p).reverse

/-- What stands before and after the first c, as strchr finds it. -/
def cut (c : UInt8) : Bytes → Option (Bytes × Bytes)
  | [] => none
  | b :: bs => if b = c then some ([], bs) else (cut c bs).map fun parts => (b :: parts.1, parts.2)

def nameChar (c : UInt8) : Bool :=
  (97 ≤ c && c ≤ 122) || (65 ≤ c && c ≤ 90) || (48 ≤ c && c ≤ 57) || c == 45 || c == 95 || c == 46

structure Version where
  version : Bytes
  url : Bytes

structure Entry where
  name : Bytes
  versions : List Version
  line : Nat
  named : ∀ c ∈ name, nameChar c = true

inductive Complaint where
  | expectedEquals
  | emptyName
  | invalidChar (c : UInt8) (name : Bytes)
  | missingSemicolon
  | expectedBracket (text : Bytes)
  | missingBracket
  | expectedParen (version : Bytes)
  | missingParen (version : Bytes)
  | emptyVersionOrUrl
  | tooManyVersions (name : Bytes)

/-- The message of a parse error names its line. -/
structure ParseError where
  line : Nat
  complaint : Complaint

/-- The next line, or as much of it as line_buf holds. -/
@[grind =] def takeLine : Nat → Bytes → Bytes × Bytes
  | _, [] => ([], [])
  | 0, c :: cs => if c = 10 then ([], cs) else ([], c :: cs)
  | n + 1, c :: cs => if c = 10 then ([], cs) else (c :: (takeLine n cs).1, (takeLine n cs).2)

/-- One [version](url) pair. -/
def parseVersion (line : Nat) (token : Bytes) : Except ParseError Version :=
  let t := token.dropWhile blank
  if t.head? ≠ some 91 then .error ⟨line, .expectedBracket t⟩
  else
    match cut 93 t with
    | none => .error ⟨line, .missingBracket⟩
    | some (inside, after) =>
      let version := trimEnd blank ((inside.drop 1).dropWhile blank)
      let paren := after.dropWhile blank
      if paren.head? ≠ some 40 then .error ⟨line, .expectedParen version⟩
      else
        match cut 41 paren with
        | none => .error ⟨line, .missingParen version⟩
        | some (inside, _) =>
          let url := trimEnd blank ((inside.drop 1).dropWhile blank)
          if version = [] ∨ url = [] then .error ⟨line, .emptyVersionOrUrl⟩
          else .ok { version := strlcpy version 32, url := strlcpy url 256 }

/-- The loop over the pairs; every round but the last takes a comma. -/
@[grind =]
def parseVersions (line : Nat) (name : Bytes) : Nat → Bytes → List Version → Except ParseError (List Version)
  | 0, _, versions => .ok versions
  | _ + 1, [], versions => .ok versions
  | fuel + 1, c :: cs, versions => do
    let (token, rest) := (cut 44 (c :: cs)).getD (c :: cs, [])
    let version ← parseVersion line token
    if versions.length ≥ qtpkgMaxVersions then .error ⟨line, .tooManyVersions name⟩
    else parseVersions line name fuel rest (versions ++ [version])

/-- A line up to the text between = and ;, none for a comment or an empty one. -/
def parseHead (line : Nat) (text : Bytes) : Except ParseError (Option ({ name : Bytes // ∀ c ∈ name, nameChar c = true } × Bytes)) :=
  let s := text.dropWhile blankOrReturn
  if s = [] ∨ s.head? = some 35 then .ok none
  else
    match cut 61 s with
    | none => .error ⟨line, .expectedEquals⟩
    | some (front, rest) =>
      let name := trimEnd blank front
      if name = [] then .error ⟨line, .emptyName⟩
      else if named : ∀ c ∈ name, nameChar c = true then
        match cut 59 rest with
        | none => .error ⟨line, .missingSemicolon⟩
        | some (body, _) => .ok (some (⟨name, named⟩, body.dropWhile blank))
      else .error ⟨line, .invalidChar ((name.find? fun c => !nameChar c).getD 0) name⟩

/-- The loop over the lines; an entry that finds the table full ends it. -/
@[grind =]
def parseFrom (maxEntries : Nat) : Nat → Bytes → Nat → List Entry → Except ParseError (List Entry)
  | 0, _, _, entries => .ok entries
  | _ + 1, [], _, entries => .ok entries
  | fuel + 1, c :: cs, line, entries => do
    let (text, rest) := takeLine 1023 (c :: cs)
    match ← parseHead line text with
    | none => parseFrom maxEntries fuel rest (line + 1) entries
    | some (⟨name, named⟩, body) =>
      if entries.length ≥ maxEntries then .ok entries
      else do
        let versions ← if body = [] ∨ body.head? = some 35 then .ok [] else parseVersions line name (body.length + 1) body []
        let entry : Entry :=
          { name := strlcpy name 64
            versions := versions
            line := line
            named := fun c member => named c (List.mem_of_mem_take member) }
        parseFrom maxEntries fuel rest (line + 1) (entries ++ [entry])

def qtpkgParseEntryFile (content : Bytes) (maxEntries : Nat) : Except ParseError (List Entry) :=
  parseFrom maxEntries (cstr content).length (cstr content) 1 []

structure Profile where
  name : Bytes
  version : Bytes
  description : Bytes
  arch : Bytes
  depends : List Bytes
  payloadUrl : Bytes
  installPath : Bytes
  checksum : Bytes
  signature : Bytes

def emptyProfile : Profile := ⟨[], [], [], [], [], [], [], [], []⟩

/-- The parts of a text between separators. -/
def pieces (sep : UInt8) : Bytes → List Bytes
  | [] => [[]]
  | c :: cs =>
    if c = sep then [] :: pieces sep cs
    else
      match pieces sep cs with
      | [] => [[c]]
      | p :: ps => (c :: p) :: ps

def parseDepends (value : Bytes) : List Bytes :=
  (((pieces 44 value).map fun dep => strlcpy (trimEnd blank (dep.dropWhile blank)) 64).filter (· ≠ [])).take qtpkgMaxDeps

def setField (p : Profile) (key value : Bytes) : Profile :=
  if key = ascii "name" then { p with name := strlcpy value 64 }
  else if key = ascii "version" then { p with version := strlcpy value 32 }
  else if key = ascii "description" then { p with description := strlcpy value 256 }
  else if key = ascii "arch" then { p with arch := strlcpy value 16 }
  else if key = ascii "payload" then { p with payloadUrl := strlcpy value 256 }
  else if key = ascii "install_path" then { p with installPath := strlcpy value 128 }
  else if key = ascii "checksum" then { p with checksum := strlcpy value 128 }
  else if key = ascii "signature" then { p with signature := strlcpy value 256 }
  else if key = ascii "depends" then { p with depends := parseDepends value }
  else p

def profileLine (p : Profile) (text : Bytes) : Profile :=
  let line := text.dropWhile blankOrReturn
  if line = [] ∨ line.head? = some 35 then p
  else
    match cut 61 line with
    | none => p
    | some (key, value) => setField p key (trimEnd blankOrReturn (value.dropWhile blank))

def parseProfile (body : Bytes) : Profile := (pieces 10 (cstr body)).foldl profileLine emptyProfile

def qtpkgIsHttps (url : Bytes) : Bool := url.take 8 == ascii "https://"

end Qito.Pkg
