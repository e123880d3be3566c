import Qito.Http.Heads
import Qito.Lib.Decimals

/-! What a URL names: a scheme, a host, a port and a path as they are written, and
when http_parse_url takes a text for just what it names. -/
namespace Qito.Http
open Decimals

/-- The parts of a URL as they are written; a scheme is https or not. -/
structure Written where
  scheme : Option Bool
  host : Bytes
  port : Option Bytes
  path : Bytes

def schemeText : Option Bool → Bytes
  | none => []
  | some false => ascii "http://"
  | some true => ascii "https://"

def Written.rest (w : Written) : Bytes := w.host ++ (w.port.elim [] (58 :: ·) ++ w.path)

def Written.text (w : Written) : Bytes := schemeText w.scheme ++ w.rest

def hostChar (c : UInt8) : Bool := c != 58 && c != 47

/-- A text that can be a port. -/
def PortText (digits : Bytes) : Prop :=
  digits ≠ [] ∧ (∀ c ∈ digits, isdigit c = true) ∧ 0 < value digits ∧ value digits < 65536

/-- Every part can be what it stands for, and fits into its buffer. -/
structure Written.Sound (w : Written) : Prop where
  host : w.host ≠ []
  plain : ∀ c ∈ w.host, hostChar c = true
  port : ∀ digits, w.port = some digits → PortText digits
  path : w.path = [] ∨ w.path.head? = some 47
  hostFits : w.host.length < 128
  pathFits : w.path.length < 256

def usualPort (secure : Bool) : Nat := if secure then 443 else 80

def Written.url (w : Written) : HttpUrl where
  host := w.host
  path := if w.path = [] then ascii "/" else w.path
  port := (w.port.map value).getD (usualPort (w.scheme == some true))
  secure := w.scheme == some true

/-- What the text of a URL stands for. -/
def Names (text : Bytes) (url : HttpUrl) : Prop := ∃ w : Written, w.Sound ∧ w.text = text ∧ w.url = url

/-- The URL of a decomposition, with its port written out. -/
def HttpUrl.render (url : HttpUrl) : Bytes :=
  schemeText (some url.secure) ++ url.host ++ 58 :: decimal url.port ++ url.path

/-- A text is parsed into what it stands for, and rejected when it stands for nothing. -/
structure Faithful (text : Bytes) (parsed : Option HttpUrl) : Prop where
  exactly : ∀ url, parsed = some url ↔ Names text url
  rendered : ∀ url, parsed = some url → Names url.render url

section Parts
variable {text cursor digits : Bytes} {url : HttpUrl} {w : Written} {secure : Bool}

/-- What stands behind the host. -/
def behindHost (cursor : Bytes) : Bytes := cursor.dropWhile hostChar

/-- What stands behind the port. -/
def behindPort (cursor : Bytes) : Bytes :=
  if (behindHost cursor).head? = some 58 then (behindHost cursor).tail.dropWhile isdigit else behindHost cursor

/-- Behind the scheme every part can be what it stands for, and fits. -/
structure Clean (cursor : Bytes) : Prop where
  host : (cursor.takeWhile hostChar).length < 128
  port : (behindHost cursor).head? = some 58 → PortText ((behindHost cursor).tail.takeWhile isdigit)
  path : behindPort cursor = [] ∨ (behindPort cursor).head? = some 47
  pathFits : (behindPort cursor).length < 256

/-- No host stands behind the scheme. -/
def Hostless (cursor : Bytes) : Prop := cursor.takeWhile hostChar = []

/-- A scheme that is spoken, or none and no "://", stands before parts that are in
order; any other text has no host, or a "://" that is no part of a path. -/
def Handled (text : Bytes) : Prop :=
  match parseScheme text with
  | some (cursor, _) => Hostless cursor ∨ Clean cursor
  | none => Hostless text ∨ ¬ Clean text

theorem takeWhile_stop {p : UInt8 → Bool} {front back : Bytes} (all : ∀ c ∈ front, p c = true)
    (stop : ∀ c, back.head? = some c → p c = false) :
    (front ++ back).takeWhile p = front ∧ (front ++ back).dropWhile p = back := by
  rw [List.takeWhile_append_of_pos all, List.dropWhile_append_of_pos all]
  cases back with
  | nil => simp
  | cons c back => simp [stop c rfl]

theorem Written.Sound.found (sound : w.Sound) : w.rest.takeWhile hostChar = w.host ∧
    behindHost w.rest = w.port.elim [] (58 :: ·) ++ w.path := by
  unfold behindHost Written.rest
  apply takeWhile_stop sound.plain
  intro c first
  cases written : w.port with
  | some digits =>
    rw [written] at first
    cases first
    rfl
  | none =>
    rw [written] at first
    rcases sound.path with none_ | slash
    · simp [none_] at first
    · have same : w.path.head? = some c := first
      rw [slash] at same
      cases same
      rfl

theorem Written.Sound.path_stop (sound : w.Sound) : ∀ c, w.path.head? = some c → c = 47 := by
  intro c first
  rcases sound.path with none_ | slash
  · simp [none_] at first
  · rw [slash] at first
    exact (Option.some.inj first).symm

theorem Written.Sound.path_found (sound : w.Sound) : behindPort w.rest = w.path := by
  unfold behindPort
  rw [sound.found.2]
  cases written : w.port with
  | none =>
    have colonless : w.path.head? ≠ some 58 := by
      intro colon
      exact absurd (sound.path_stop 58 colon) (by decide)
    exact if_neg colonless
  | some digits =>
    obtain ⟨-, all, -, -⟩ := sound.port digits written
    have stop (c : UInt8) (first : w.path.head? = some c) : isdigit c = false := by
      rw [sound.path_stop c first]
      rfl
    exact (if_pos rfl).trans (takeWhile_stop all stop).2

theorem Written.Sound.port_found (sound : w.Sound) (written : w.port = some digits) :
    (behindHost w.rest).head? = some 58 ∧ (behindHost w.rest).tail.takeWhile isdigit = digits := by
  obtain ⟨-, all, -, -⟩ := sound.port digits written
  rw [sound.found.2, written]
  have stop (c : UInt8) (first : w.path.head? = some c) : isdigit c = false := by
    rw [sound.path_stop c first]
    rfl
  exact ⟨rfl, (takeWhile_stop all stop).1⟩

theorem Written.Sound.portless (sound : w.Sound) (written : w.port = none) : (behindHost w.rest).head? ≠ some 58 := by
  rw [sound.found.2, written]
  intro colon
  exact absurd (sound.path_stop 58 colon) (by decide)

theorem Written.Sound.clean (sound : w.Sound) : Clean w.rest where
  host := by
    rw [sound.found.1]
    exact sound.hostFits
  port colon := by
    cases written : w.port with
    | none => exact absurd colon (sound.portless written)
    | some digits =>
      rw [(sound.port_found written).2]
      exact sound.port digits written
  path := by
    rw [sound.path_found]
    exact sound.path
  pathFits := by
    rw [sound.path_found]
    exact sound.pathFits

theorem Written.Sound.hosted (sound : w.Sound) : ¬ Hostless w.rest := by
  unfold Hostless
  rw [sound.found.1]
  exact sound.host

/-- The parts as they are found. -/
def split (scheme : Option Bool) (cursor : Bytes) : Written where
  scheme := scheme
  host := cursor.takeWhile hostChar
  port := if (behindHost cursor).head? = some 58 then some ((behindHost cursor).tail.takeWhile isdigit) else none
  path := behindPort cursor

theorem split_sound (scheme : Option Bool) (clean : Clean cursor) (hosted : ¬ Hostless cursor) : (split scheme cursor).Sound where
  host := hosted
  plain _ member := List.mem_takeWhile_imp member
  port digits written := by
    obtain ⟨colon, rfl⟩ : (behindHost cursor).head? = some 58 ∧ (behindHost cursor).tail.takeWhile isdigit = digits := by
      simpa [split] using written
    exact clean.port colon
  path := clean.path
  hostFits := clean.host
  pathFits := clean.pathFits

theorem split_rest (scheme : Option Bool) (cursor : Bytes) : (split scheme cursor).rest = cursor := by
  have whole : cursor.takeWhile hostChar ++ behindHost cursor = cursor := List.takeWhile_append_dropWhile
  unfold Written.rest split
  dsimp only
  conv_rhs => rw [← whole]
  congr 1
  unfold behindPort
  split
  · rename_i colon
    cases behind : behindHost cursor with
    | nil => simp [behind] at colon
    | cons c rest =>
      rw [behind] at colon
      cases colon
      exact congrArg (58 :: ·) List.takeWhile_append_dropWhile
  · rfl

end Parts

section Schemes
variable {text cursor : Bytes} {w : Written} {secure : Bool}

theorem parseScheme_some (read : parseScheme text = some (cursor, secure)) :
    ∃ scheme, text = schemeText scheme ++ cursor ∧ secure = (scheme == some true) := by
  unfold parseScheme at read
  split at read
  · rename_i http
    obtain ⟨rest, rfl⟩ := List.isPrefixOf_iff_prefix.mp http
    cases read
    exact ⟨some false, rfl, rfl⟩
  · split at read
    · rename_i https
      obtain ⟨rest, rfl⟩ := List.isPrefixOf_iff_prefix.mp https
      cases read
      exact ⟨some true, rfl, rfl⟩
    · split at read
      · cases read
      · cases read
        exact ⟨none, rfl, rfl⟩

theorem Clean.schemeless (clean : Clean cursor) {host rest : Bytes} (plain : ∀ c ∈ host, hostChar c = true) :
    cursor ≠ host ++ 58 :: 47 :: rest := by
  rintro rfl
  have behind : behindHost (host ++ 58 :: 47 :: rest) = 58 :: 47 :: rest := (takeWhile_stop plain fun c first => by
    cases first
    rfl).2
  have port := clean.port (by rw [behind]; rfl)
  rw [behind] at port
  exact port.1 rfl

/-- A scheme that is written is read, and what is written without one is not taken for one. -/
theorem parseScheme_written (sound : w.Sound) :
    parseScheme w.text = some (w.rest, w.scheme == some true) ∨ w.scheme = none ∧ parseScheme w.text = none := by
  unfold Written.text
  cases w.scheme with
  | some secure =>
    cases secure with
    | true => exact .inl rfl
    | false => exact .inl rfl
  | none =>
    have http : ¬ (ascii "http://").isPrefixOf w.rest = true := by
      intro leads
      obtain ⟨rest, same⟩ := List.isPrefixOf_iff_prefix.mp leads
      exact @Clean.schemeless _ sound.clean (ascii "http") _ (by decide) same.symm
    have https : ¬ (ascii "https://").isPrefixOf w.rest = true := by
      intro leads
      obtain ⟨rest, same⟩ := List.isPrefixOf_iff_prefix.mp leads
      exact @Clean.schemeless _ sound.clean (ascii "https") _ (by decide) same.symm
    change parseScheme w.rest = _ ∨ _ ∧ parseScheme w.rest = _
    unfold parseScheme
    rw [if_neg http, if_neg https]
    split
    · exact .inr ⟨rfl, rfl⟩
    · exact .inl rfl

end Schemes

section Ports
variable {digits : Bytes}

theorem parsePort_from {n : Nat} (all : ∀ c ∈ digits, isdigit c = true) (small : valueFrom n digits < 65536) :
    digits.foldl (fun port c => int32 (int32 (port * 10) + (c.toNat - 48))) (n : Int) = valueFrom n digits := by
  induction digits generalizing n with
  | nil => rfl
  | cons c digits ih =>
    rw [valueFrom_cons] at small ⊢
    have digit : 48 ≤ c.toNat ∧ c.toNat ≤ 57 := isDigit_iff.mp (all c List.mem_cons_self)
    have below : n * 10 + (c.toNat - 48) < 65536 := le_valueFrom.trans_lt small
    have tens : int32 ((n : Int) * 10) = n * 10 := int32_small (by omega) (by omega)
    have next : int32 ((n : Int) * 10 + ((c.toNat : Int) - 48)) = ((n * 10 + (c.toNat - 48) : Nat) : Int) := by
      rw [int32_small (by omega) (by omega)]
      omega
    rw [List.foldl_cons, tens, next]
    exact ih (fun d member => all d (List.mem_cons_of_mem _ member)) small

theorem parsePort_value (port : PortText digits) : parsePort digits = value digits :=
  parsePort_from port.2.1 port.2.2.2

end Ports

section Parsing
variable {text cursor : Bytes} {url : HttpUrl} {w : Written} {secure : Bool}

theorem httpParseUrl_refused (refused : parseScheme text = none) : httpParseUrl text = none := by
  unfold httpParseUrl
  rw [refused]

theorem httpParseUrl_hostless (read : parseScheme text = some (cursor, secure)) (hostless : Hostless cursor) :
    httpParseUrl text = none := by
  have none_ : (cursor.takeWhile fun c => c != 58 && c != 47) = [] := hostless
  unfold httpParseUrl
  simp only [read, none_, List.take_nil, if_true]

theorem httpParseUrl_hosted (read : parseScheme text = some (cursor, secure)) (hosted : ¬ Hostless cursor) :
    ∃ url, httpParseUrl text = some url := by
  have filled : (cursor.takeWhile fun c => c != 58 && c != 47).take 127 ≠ [] := by
    intro none_
    rcases List.take_eq_nil_iff.mp none_ with zero | empty
    · cases zero
    · exact hosted empty
  unfold httpParseUrl
  simp only [read, if_neg filled]
  exact ⟨_, rfl⟩

theorem httpParseUrl_written (sound : w.Sound) (read : parseScheme w.text = some (w.rest, w.scheme == some true)) :
    httpParseUrl w.text = some w.url := by
  have host : (w.rest.takeWhile fun c => c != 58 && c != 47).take 127 = w.host := by
    have all : (w.rest.takeWhile fun c => c != 58 && c != 47) = w.host := sound.found.1
    rw [all]
    exact List.take_of_length_le (Nat.le_of_lt_succ sound.hostFits)
  have behind : w.rest.drop w.host.length = behindHost w.rest := by
    rw [sound.found.2, Written.rest, List.drop_left]
  have path : parsePath w.path = if w.path = [] then ascii "/" else w.path := by
    unfold parsePath
    rcases sound.path with none_ | slash
    · rw [none_]
      rfl
    · have filled : w.path ≠ [] := by
        rintro none_
        simp [none_] at slash
      rw [if_pos slash, if_neg filled]
      exact List.take_of_length_le (Nat.le_of_lt_succ sound.pathFits)
  have there : behindPort w.rest = w.path := sound.path_found
  unfold httpParseUrl
  simp only [read, host, if_neg sound.host, behind]
  unfold behindPort at there
  cases written : w.port with
  | none =>
    have plain := sound.portless written
    rw [if_neg plain] at there
    simp only [if_neg plain]
    simp only [there, path, Written.url, written]
    rfl
  | some digits =>
    obtain ⟨colon, found⟩ := sound.port_found written
    rw [if_pos colon] at there
    have port := sound.port digits written
    have number : parsePort ((behindHost w.rest).tail.takeWhile isdigit) = value digits := by
      rw [found, parsePort_value port]
    have range : 0 < (value digits : Int) ∧ (value digits : Int) < 65536 := by
      have bounds := port.2.2
      omega
    simp only [if_pos colon]
    simp only [there, number, if_pos range, path, Written.url, written]
    rfl

theorem Names.read (names : Names text url) (read : parseScheme text = some (cursor, secure)) :
    ∃ w : Written, w.Sound ∧ w.rest = cursor ∧ w.url = url ∧ httpParseUrl text = some url := by
  obtain ⟨w, sound, rfl, rfl⟩ := names
  rcases parseScheme_written sound with same | ⟨-, refused⟩
  · rw [same] at read
    cases read
    exact ⟨w, sound, rfl, rfl, httpParseUrl_written sound same⟩
  · rw [refused] at read
    cases read

theorem Names.refused (names : Names text url) (refused : parseScheme text = none) :
    ∃ w : Written, w.Sound ∧ w.rest = text := by
  obtain ⟨w, sound, rfl, rfl⟩ := names
  rcases parseScheme_written sound with same | ⟨none_, -⟩
  · rw [refused] at same
    cases same
  · refine ⟨w, sound, ?_⟩
    unfold Written.text
    rw [none_]
    rfl

theorem Written.Sound.port_range (sound : w.Sound) : 0 < w.url.port ∧ w.url.port < 65536 := by
  unfold Written.url
  cases written : w.port with
  | none =>
    change 0 < usualPort _ ∧ usualPort _ < 65536
    unfold usualPort
    split
    · decide
    · decide
  | some digits => exact (sound.port digits written).2.2

theorem Written.Sound.render (sound : w.Sound) : Names w.url.render w.url := by
  refine ⟨⟨some w.url.secure, w.host, some (decimal w.url.port), w.url.path⟩, ?_, ?_, ?_⟩
  · have slash : w.url.path.head? = some 47 ∧ w.url.path.length < 256 := by
      unfold Written.url
      dsimp only
      split
      · exact ⟨rfl, by decide⟩
      · rename_i filled
        exact ⟨sound.path.resolve_left filled, sound.pathFits⟩
    exact
      { host := sound.host
        plain := sound.plain
        port := by
          rintro digits ⟨⟩
          refine ⟨digits_ne_nil _, digits_digit _, ?_⟩
          have same : value (decimal w.url.port) = w.url.port := value_digits _
          rw [same]
          exact sound.port_range
        path := .inr slash.1
        hostFits := sound.hostFits
        pathFits := slash.2 }
  · simp [Written.text, Written.rest, HttpUrl.render, Written.url]
  · have filled : w.url.path ≠ [] := by
      unfold Written.url
      dsimp only
      split
      · decide
      · assumption
    have same : value (decimal w.url.port) = w.url.port := value_digits _
    change HttpUrl.mk w.host (if w.url.path = [] then _ else w.url.path) (value (decimal w.url.port)) _ = w.url
    rw [if_neg filled, same]
    simp [Written.url]

end Parsing

/-- http_parse_url takes a text for just what it names when the text is handled. -/
theorem urls_parsed_faithfully_iff (text : Bytes) : Faithful text (httpParseUrl text) ↔ Handled text := by
  unfold Handled
  cases read : parseScheme text with
  | none =>
    constructor
    · intro faithful
      by_contra bad
      obtain ⟨hosted, clean⟩ : ¬ Hostless text ∧ Clean text := by
        rwa [not_or, not_not] at bad
      have names : Names text (split none text).url :=
        ⟨split none text, split_sound none clean hosted, split_rest none text, rfl⟩
      have parsed := (faithful.exactly _).mpr names
      rw [httpParseUrl_refused read] at parsed
      cases parsed
    · intro handled
      rw [httpParseUrl_refused read]
      refine ⟨fun url => ⟨nofun, fun names => ?_⟩, nofun⟩
      obtain ⟨w, sound, rfl⟩ := names.refused read
      rcases handled with hostless | dirty
      · exact absurd hostless sound.hosted
      · exact absurd sound.clean dirty
  | some found =>
    obtain ⟨cursor, secure⟩ := found
    constructor
    · intro faithful
      rcases Classical.em (Hostless cursor) with hostless | hosted
      · exact .inl hostless
      · obtain ⟨url, parsed⟩ := httpParseUrl_hosted read hosted
        obtain ⟨w, sound, rfl, -⟩ := ((faithful.exactly url).mp parsed).read read
        exact .inr sound.clean
    · intro handled
      rcases Classical.em (Hostless cursor) with hostless | hosted
      · rw [httpParseUrl_hostless read hostless]
        refine ⟨fun url => ⟨nofun, fun names => ?_⟩, nofun⟩
        obtain ⟨w, sound, rfl, -⟩ := names.read read
        exact absurd hostless sound.hosted
      · have clean := handled.resolve_left hosted
        obtain ⟨scheme, rfl, rfl⟩ := parseScheme_some read
        have sound := split_sound scheme clean hosted
        have names : Names (schemeText scheme ++ cursor) (split scheme cursor).url :=
          ⟨_, sound, congrArg (schemeText scheme ++ ·) (split_rest scheme cursor), rfl⟩
        obtain ⟨-, -, -, -, parsed⟩ := names.read read
        rw [parsed]
        refine ⟨fun url => ⟨?_, fun other => ?_⟩, ?_⟩
        · rintro ⟨⟩
          exact names
        · obtain ⟨-, -, -, -, again⟩ := other.read read
          exact parsed.symm.trans again
        · rintro url ⟨⟩
          exact sound.render

/-- A port that is no number is passed over with the path behind it. -/
theorem wrong_port_accepted : ¬ ∀ text, Faithful text (httpParseUrl text) := by
  intro all
  have parsed : httpParseUrl (ascii "http://a:b/p") = some ⟨ascii "a", ascii "/", 80, false⟩ := by decide
  have names := ((all (ascii "http://a:b/p")).exactly _).mp parsed
  obtain ⟨w, sound, rest, -⟩ := @Names.read _ (ascii "a:b/p") _ false names (by decide)
  have clean := sound.clean
  rw [rest] at clean
  exact (clean.port (by decide)).1 (by decide)

end Qito.Http
