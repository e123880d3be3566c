import Qito.Pkg.Registry
import Qito.Vfs.WholeFile

/-! qtpkg_install of sys/qtpkg.c, with the marker that persist_snapshot of
fs/persist.c leaves. What the HTTP layer answers, the clock and the memory are
part of the World; the n-th call into the filesystem sees env n. -/
namespace Qito.Pkg
open Vfs (FsState Env fsMkdir fsStat fsReadFile fsWriteFile Tree Keeps Fits InMemory Spared contentAt)

abbrev snapshotMax : Nat := 16
abbrev snapshotNameMax : Nat := 32

structure Snapshot where
  name : Bytes
  timestamp : Nat

structure World where
  env : Nat → Env
  uptime : Nat → Nat
  /-- http_get: the status and the body, none where it fails. -/
  http : Nat → Bytes → Option (Int × Bytes)
  registryMemory : Bool
  profileMemory : Bool

structure PkgState where
  fs : FsState
  registry : List Entry
  snapshots : Fin snapshotMax → Option Snapshot

def entryPath : Bytes := ascii "/user/qtpkg/entry.var"

def defaultContent : Bytes := ascii
  ("# QitoOS package registry\n" ++
    "# Format: name = [version](url),[version](url);\n" ++
    "# URLs point to .qtpkg_profile manifests\n" ++
    "qasm = [1.0.0](http://example.com/qasm-1.0.0.qtpkg_profile);\n" ++
    "qcc = [0.1.0](http://example.com/qcc-0.1.0.qtpkg_profile);\n" ++
    "hello = [1.0.0](http://example.com/hello-1.0.0.qtpkg_profile);\n" ++
    "# not implemented yet = \n")

/-- Calls of fs_mkdir whose results nobody looks at. -/
def mkdirs (env : Nat → Env) : Nat → List Bytes → FsState → Option FsState
  | _, [], s => some s
  | k, path :: paths, s => do
    let (_, s) ← fsMkdir (env k) s path 0o755
    mkdirs env (k + 1) paths s

/-- The size of entry.var, which is made where it is missing. -/
def findRegistry (w : World) (s : FsState) : Option (Option Nat × FsState) := do
  match ← fsStat (w.env 0) s entryPath with
  | (.ok size, s) => return (some size, s)
  | (.error _, s) =>
    let s ← mkdirs w.env 1 [ascii "/user", ascii "/user/qtpkg"] s
    let (_, s) ← fsWriteFile (w.env 3) s entryPath defaultContent
    let (size, s) ← fsStat (w.env 4) s entryPath
    return (size.toOption, s)

def loadRegistry (w : World) (s : PkgState) : Option (Int × PkgState) := do
  let (size, fs) ← findRegistry w s.fs
  match size with
  | none => return (-1, { s with fs := fs })
  | some size =>
    if !w.registryMemory then return (-1, { s with fs := fs })
    let (code, content, fs) ← fsReadFile (w.env 5) fs entryPath size
    if code ≠ 0 then return (-1, { s with fs := fs })
    match qtpkgParseEntryFile content qtpkgMaxPackages with
    | .error _ => return (-1, { s with fs := fs })
    | .ok entries => return (0, { s with fs := fs, registry := entries })

inductive FetchError where
  | noTls
  | failed
  | status (code : Int)
  | noMemory
  | missingFields

def qtpkgFetchProfile (w : World) (url : Bytes) : Except FetchError Profile :=
  if qtpkgIsHttps url then .error .noTls
  else
    match w.http 0 url with
    | none => .error .failed
    | some (status, body) =>
      if status ≠ 200 then .error (.status status)
      else if !w.profileMemory then .error .noMemory
      else
        let prof := parseProfile body
        if prof.name = [] ∨ prof.version = [] ∨ prof.payloadUrl = [] then .error .missingFields else .ok prof

/-- The expected digest is not looked at, and nothing calls this. -/
def qtpkgVerifyChecksum (env : Env) (s : FsState) (path _expected : Bytes) : Option (Int × FsState) := do
  match ← fsStat env s path with
  | (.error _, s) => return (-1, s)
  | (.ok _, s) => return (0, s)

def qtpkgVerifySignature (_data sig : Bytes) : Int := if sig = [] then 0 else 0

/-- The digits of a 64-bit number, as %llu prints them. -/
def decimal : Nat → Nat → Bytes
  | 0, _ => []
  | k + 1, n => (if n < 10 then [] else decimal k (n / 10)) ++ [UInt8.ofNat (48 + n % 10)]

def llu (n : Nat) : Bytes := decimal 20 n

def snapName (pkg : Bytes) (ms : Nat) : Bytes := (ascii "pre-" ++ pkg ++ ascii "-" ++ llu ms).take (snapshotNameMax - 1)

def markerPath (name : Bytes) : Bytes := ascii "/user/persist" ++ 47 :: name

def marker (name : Bytes) (ms : Nat) : Bytes := (ascii "snapshot:" ++ name ++ ascii ":" ++ llu ms).take 63

def persistSaveFile (w : World) (s : FsState) (name data : Bytes) : Option (Int × FsState) := do
  let s ← mkdirs w.env 6 [ascii "/user", ascii "/user/persist"] s
  fsWriteFile (w.env 8) s (markerPath name) data

def persistSnapshot (w : World) (s : PkgState) (name : Bytes) : Option (Int × PkgState) :=
  match (List.finRange snapshotMax).find? fun i => (s.snapshots i).isNone with
  | none => some (-1, s)
  | some slot => do
    let (_, fs) ← persistSaveFile w s.fs name (marker name (w.uptime 1))
    return (0, { s with
      fs := fs
      snapshots := Function.update s.snapshots slot (some { name := strlcpy name snapshotNameMax, timestamp := w.uptime 1 }) })

/-- The profile behind the first version of the package; where a step fails
qtpkg_install returns 1. -/
def resolve (w : World) (registry : List Entry) (pkg : Bytes) : Option Profile := do
  let entry ← registry.find? fun e => e.name = pkg
  let version ← entry.versions.head?
  (qtpkgFetchProfile w version.url).toOption

def compatible (prof : Profile) : Bool := prof.arch = ascii "x86_64" || prof.arch = ascii "any" || prof.arch = []

def fetchPayload (w : World) (prof : Profile) : Option Bytes :=
  if qtpkgIsHttps prof.payloadUrl then none
  else
    match w.http 1 prof.payloadUrl with
    | none => none
    | some (status, body) => if status ≠ 200 then none else some body

def installPath (prof : Profile) : Bytes := if prof.installPath = [] then ascii "/bin/pkg_bin" else prof.installPath

def installDirs : List Bytes :=
  [ascii "/bin", ascii "/lib", ascii "/usr", ascii "/usr/share", ascii "/usr/share/icons"]

/-- The state once the registry is there. -/
def loaded (w : World) (s : PkgState) : Option PkgState :=
  if s.registry.isEmpty then (loadRegistry w s).map Prod.snd else some s

def qtpkgInstall (w : World) (s : PkgState) (pkg : Bytes) : Option (Int × PkgState) := do
  let s ← loaded w s
  match resolve w s.registry pkg with
  | none => return (1, s)
  | some prof =>
    if !compatible prof then return (1, s)
    let (_, s) ← persistSnapshot w s (snapName pkg (w.uptime 0))
    match fetchPayload w prof with
    | none => return (1, s)
    | some body =>
      if qtpkgVerifySignature body prof.signature ≠ 0 then return (1, s)
      let fs ← mkdirs w.env 9 installDirs s.fs
      let (code, fs) ← fsWriteFile (w.env 14) fs (installPath prof) body
      return (if code ≠ 0 then 1 else 0, { s with fs := fs })

section Housekeeping
variable {w : World} {s t u : FsState} {paths paths' : List Bytes}

/-- What every call on the filesystem needs and leaves. -/
def Sound (s : FsState) : Prop := (∃ kids, Tree s kids) ∧ Fits s

theorem keeps_trans (sound : Sound s) (sound' : Sound t) (sound'' : Sound u) (first : Keeps paths s t)
    (second : Keeps paths' t u) (plain : ∀ q ∈ paths', Vfs.Plain q) : Keeps (paths ++ paths') s u := by
  obtain ⟨⟨kids, tree⟩, -⟩ := sound
  obtain ⟨⟨kids', tree'⟩, -⟩ := sound'
  obtain ⟨⟨kids'', tree''⟩, -⟩ := sound''
  exact first.trans second tree tree' tree'' fun q member => (plain q member).1

theorem mkdirs_spec (env : Nat → Env) (k : Nat) (dirs : List Bytes) (sound : Sound s) :
    ∃ t, mkdirs env k dirs s = some t ∧ Sound t ∧ Keeps [] s t := by
  induction dirs generalizing k s with
  | nil => exact ⟨s, rfl, sound, Keeps.refl s⟩
  | cons dir dirs ih =>
    obtain ⟨⟨kids, tree⟩, fits⟩ := sound
    obtain ⟨code, t, kids', run, tree', keeps⟩ := Vfs.fsMkdir_keeps (env k) tree dir 0o755
    have sound' : Sound t := ⟨⟨kids', tree'⟩, fits.mkdir run⟩
    obtain ⟨u, rest, sound'', keeps'⟩ := ih (k + 1) sound'
    refine ⟨u, ?_, sound'', keeps_trans ⟨⟨kids, tree⟩, fits⟩ sound' sound'' keeps keeps' (by simp)⟩
    simp [mkdirs, run, rest]

theorem writeFile_spec (env : Env) {path buf : Bytes} (sound : Sound s) (plain : Vfs.Plain path) (short : buf.length ≤ 2 ^ 62) :
    ∃ code t, fsWriteFile env s path buf = some (code, t) ∧ Sound t ∧ Keeps [path] s t := by
  obtain ⟨⟨kids, tree⟩, fits⟩ := sound
  obtain ⟨code, t, kids', run, tree', keeps, fits'⟩ := Vfs.fsWriteFile_spec env tree fits plain short
  exact ⟨code, t, run, ⟨⟨kids', tree'⟩, fits'⟩, keeps⟩

theorem inMemory_keeps {path : Bytes} (sound : Sound s) (sound' : Sound t) (keeps : Keeps paths s t) (plain : Vfs.Plain path)
    (memory : InMemory s path) : InMemory t path := by
  obtain ⟨⟨kids, tree⟩, -⟩ := sound
  obtain ⟨⟨kids', tree'⟩, -⟩ := sound'
  intro id m search live
  cases before : s.nodes id with
  | none => exact keeps.memory id m before live
  | some n =>
    obtain ⟨m', here, -, -, -, ops⟩ := keeps.placed id n before
    cases Option.some.inj (here.symm.trans live)
    exact ops.trans (memory id n (keeps.descent_back tree tree' plain.1 before search) before)

theorem still_keeps (sound : Sound s) (still : Vfs.Still (fun _ => False) s t) (fits : Fits t) : Sound t ∧ Keeps [] s t := by
  obtain ⟨⟨kids, tree⟩, -⟩ := sound
  exact ⟨⟨⟨kids, still.tree tree⟩, fits⟩, (Keeps.refl s).still still tree (by simp)⟩

theorem stat_spec (env : Env) {path : Bytes} (sound : Sound s) (memory : InMemory s path) :
    ∃ answer t, fsStat env s path = some (answer, t) ∧ Sound t ∧ Keeps [] s t := by
  obtain ⟨⟨kids, tree⟩, fits⟩ := sound
  obtain ⟨found, search, alive⟩ := Vfs.fsLookup_spec tree path
  cases found with
  | none => exact ⟨.error (-Vfs.qeNoent), s, by simp [fsStat, search], ⟨⟨kids, tree⟩, fits⟩, Keeps.refl s⟩
  | some id =>
    obtain ⟨n, live⟩ := alive id rfl
    have run : fsStat env s path = some (.ok n.size, Vfs.putNode s id n) := by
      simp [fsStat, search, live, Vfs.refresh, memory id n search live]
    have fits' : Fits (Vfs.putNode s id n) := fits.update (Vfs.bodies_putNode live) (fits id n.body (Vfs.bodies_live live))
    exact ⟨_, _, run, still_keeps ⟨⟨kids, tree⟩, fits⟩ (Vfs.fsStat_still _ run) fits'⟩

theorem entryPath_plain : Vfs.Plain entryPath := by decide

set_option maxRecDepth 100000 in
theorem findRegistry_spec (w : World) (sound : Sound s) (memory : InMemory s entryPath) :
    ∃ size t, findRegistry w s = some (size, t) ∧ Sound t ∧ Keeps [entryPath] s t := by
  obtain ⟨answer, t, stat, sound', keeps⟩ := stat_spec (w.env 0) sound memory
  have inMemory := inMemory_keeps sound sound' keeps entryPath_plain memory
  cases answer with
  | ok size => exact ⟨some size, t, by simp [findRegistry, stat], sound', keeps.mono (List.nil_subset _)⟩
  | error code =>
    obtain ⟨u, dirs, sound₂, keeps₂⟩ := mkdirs_spec w.env 1 [ascii "/user", ascii "/user/qtpkg"] sound'
    have short : defaultContent.length ≤ 2 ^ 62 := by
      rw [defaultContent]
      repeat rw [ascii_append]
      repeat rw [ascii_ofList]
      decide
    obtain ⟨written, v, write, sound₃, keeps₃⟩ := writeFile_spec (w.env 3) sound₂ entryPath_plain short
    have inMemory₂ := inMemory_keeps sound' sound₂ keeps₂ entryPath_plain inMemory
    have inMemory₃ := inMemory_keeps sound₂ sound₃ keeps₃ entryPath_plain inMemory₂
    obtain ⟨size, x, stat', sound₄, keeps₄⟩ := stat_spec (w.env 4) sound₃ inMemory₃
    refine ⟨size.toOption, x, by simp [findRegistry, stat, dirs, write, stat'], sound₄, ?_⟩
    have first := keeps_trans sound sound' sound₂ keeps keeps₂ (by simp)
    have second := keeps_trans sound₂ sound₃ sound₄ keeps₃ keeps₄ (by simp)
    exact keeps_trans sound sound₂ sound₄ first second (by simp [entryPath_plain])

theorem loaded_spec (w : World) {s : PkgState} (sound : Sound s.fs) (memory : InMemory s.fs entryPath) :
    ∃ t, loaded w s = some t ∧ Sound t.fs ∧ Keeps [entryPath] s.fs t.fs := by
  cases empty : s.registry.isEmpty with
  | false => exact ⟨s, by simp [loaded, empty], sound, (Keeps.refl _).mono (List.nil_subset _)⟩
  | true =>
    obtain ⟨size, fs, find, sound', keeps⟩ := findRegistry_spec w sound memory
    have inMemory := inMemory_keeps sound sound' keeps entryPath_plain memory
    cases size with
    | none => exact ⟨{ s with fs := fs }, by simp [loaded, empty, loadRegistry, find], sound', keeps⟩
    | some size =>
      cases room : w.registryMemory with
      | false => exact ⟨{ s with fs := fs }, by simp [loaded, empty, loadRegistry, find, room], sound', keeps⟩
      | true =>
        have hull := sound'
        obtain ⟨⟨kids, tree⟩, fits⟩ := hull
        obtain ⟨code, bytes, fs', read, still, fits'⟩ := Vfs.fsReadFile_spec (w.env 5) tree fits size inMemory
        obtain ⟨sound'', keeps'⟩ := still_keeps sound' still fits'
        have whole : Keeps [entryPath] s.fs fs' := keeps_trans sound sound' sound'' keeps keeps' (by simp)
        by_cases failed : code = 0
        · cases parsed : qtpkgParseEntryFile bytes qtpkgMaxPackages with
          | error _ =>
            exact ⟨{ s with fs := fs' }, by simp [loaded, empty, loadRegistry, find, room, read, failed, parsed], sound'', whole⟩
          | ok entries =>
            exact ⟨{ s with fs := fs', registry := entries },
              by simp [loaded, empty, loadRegistry, find, room, read, failed, parsed], sound'', whole⟩
        · exact ⟨{ s with fs := fs' }, by simp [loaded, empty, loadRegistry, find, room, read, failed], sound'', whole⟩

theorem decimal_digits (k n : Nat) : ∀ c ∈ decimal k n, nameChar c = true := by
  induction k generalizing n with
  | zero => simp [decimal]
  | succ k ih =>
    intro c member
    rcases List.mem_append.mp member with front | last
    · split at front
      · cases front
      · exact ih _ c front
    · rw [List.mem_singleton.mp last]
      have all : ∀ d : Fin 10, nameChar (UInt8.ofNat (48 + d.val)) = true := by decide
      exact all ⟨n % 10, Nat.mod_lt n (by decide)⟩

theorem markerPath_plain {pkg : Bytes} (named : ∀ c ∈ pkg, nameChar c = true) (ms : Nat) :
    Vfs.Plain (markerPath (snapName pkg ms)) := by
  have length : (snapName pkg ms).length ≤ 31 := by
    rw [snapName, List.length_take]
    exact Nat.min_le_left _ _
  have front : ascii "/user/persist" = [47, 117, 115, 101, 114, 47, 112, 101, 114, 115, 105, 115, 116] := by decide
  have pre : ascii "pre-" = [112, 114, 101, 45] := by decide
  have dash : ascii "-" = [45] := by decide
  have chars : ∀ c ∈ snapName pkg ms, nameChar c = true := by
    intro c member
    have inside := List.mem_of_mem_take member
    rw [pre, dash] at inside
    simp only [List.mem_append] at inside
    rcases inside with ((a | b) | a) | b
    · have all : ∀ d ∈ ([112, 114, 101, 45] : Bytes), nameChar d = true := by decide
      exact all c a
    · exact named c b
    · rw [List.mem_singleton.mp a]
      decide
    · exact decimal_digits _ _ c b
  have whole : 47 ∉ snapName pkg ms := by
    intro slash
    exact absurd (chars 47 slash) (by decide)
  obtain ⟨rest, shape⟩ : ∃ rest, snapName pkg ms = 112 :: 114 :: 101 :: 45 :: rest := by
    refine ⟨(pkg ++ ascii "-" ++ llu ms).take 27, ?_⟩
    simp [snapName, pre]
  have some_ : snapName pkg ms ≠ [] := by simp [shape]
  have steps : Vfs.steps (markerPath (snapName pkg ms)) =
      [[117, 115, 101, 114], [112, 101, 114, 115, 105, 115, 116], snapName pkg ms] := by
    have short : (markerPath (snapName pkg ms)).length ≤ Vfs.fsPathMax - 1 := by
      change _ ≤ 511
      rw [markerPath, front]
      simp only [List.length_append, List.length_cons, List.length_nil]
      omega
    rw [Vfs.steps, Vfs.strlcpy, List.take_of_length_le short, markerPath, Vfs.tokens, Vfs.tokensFrom_append, front, Vfs.tokens,
      Vfs.tokensFrom_one whole some_]
    rfl
  constructor
  · intro token member
    rw [steps] at member
    simp only [List.mem_cons, List.not_mem_nil, or_false] at member
    rcases member with rfl | rfl | rfl
    · decide
    · decide
    · rw [shape]
      exact ⟨by simp [Vfs.dot], by simp [Vfs.dotDot]⟩
  · intro token member
    rw [steps] at member
    simp only [List.mem_cons, List.not_mem_nil, or_false] at member
    rcases member with rfl | rfl | rfl
    · decide
    · decide
    · exact Nat.lt_of_le_of_lt length (by decide)

theorem persistSnapshot_spec (w : World) {s : PkgState} {name : Bytes} (sound : Sound s.fs) (plain : Vfs.Plain (markerPath name)) :
    ∃ code t, persistSnapshot w s name = some (code, t) ∧ Sound t.fs ∧ Keeps [markerPath name] s.fs t.fs := by
  cases free : (List.finRange snapshotMax).find? fun i => (s.snapshots i).isNone with
  | none => exact ⟨-1, s, by simp [persistSnapshot, free], sound, (Keeps.refl _).mono (List.nil_subset _)⟩
  | some slot =>
    obtain ⟨fs, dirs, sound', keeps⟩ := mkdirs_spec w.env 6 [ascii "/user", ascii "/user/persist"] sound
    have short : (marker name (w.uptime 1)).length ≤ 2 ^ 62 := by
      rw [marker, List.length_take]
      exact Nat.le_trans (Nat.min_le_left _ _) (by decide)
    obtain ⟨code, fs', write, sound'', keeps'⟩ := writeFile_spec (w.env 8) sound' plain short
    have saves : persistSaveFile w s.fs name (marker name (w.uptime 1)) = some (code, fs') := by
      simp [persistSaveFile, dirs, write]
    refine ⟨0, _, by simp only [persistSnapshot, free, saves, Option.bind_eq_bind, Option.bind_some]; rfl, sound'', ?_⟩
    exact keeps_trans sound sound' sound'' keeps keeps' (by simpa using plain)

end Housekeeping

/-- The digest and the signature of a profile speak for the payload. -/
def Verified (verifies : Bytes → Bytes → Bool) (prof : Profile) (payload : Bytes) : Prop :=
  (prof.checksum = sha256ToHex (sha256Data payload) ∨ prof.checksum = ascii "sha256:" ++ sha256ToHex (sha256Data payload)) ∧
    (prof.signature ≠ [] → verifies payload prof.signature = true)

instance (verifies : Bytes → Bytes → Bool) (prof : Profile) (payload : Bytes) : Decidable (Verified verifies prof payload) :=
  inferInstanceAs (Decidable (_ ∧ _))

/-- The payload behind the profile is what the profile says it is. -/
def Authentic (w : World) (verifies : Bytes → Bytes → Bool) (prof : Profile) : Prop :=
  ∃ payload, fetchPayload w prof = some payload ∧ Verified verifies prof payload

/-- What an install of the package promises: without a profile it fails, and with
one whose payload is not authentic it fails and leaves the installed file. -/
def Integrity (w : World) (verifies : Bytes → Bytes → Bool) (s : PkgState) (pkg : Bytes) : Prop :=
  ∃ t, loaded w s = some t ∧
    match resolve w t.registry pkg with
    | none => ∃ code u, qtpkgInstall w s pkg = some (code, u) ∧ code ≠ 0
    | some prof => Authentic w verifies prof ∨ ∃ code u, qtpkgInstall w s pkg = some (code, u) ∧ code ≠ 0 ∧
        contentAt u.fs (installPath prof) = contentAt s.fs (installPath prof)

/-- The install ends before it comes to the payload. -/
def Stops (w : World) (prof : Profile) : Prop := compatible prof = false ∨ fetchPayload w prof = none

def Guarded (w : World) (verifies : Bytes → Bytes → Bool) (s : PkgState) (pkg : Bytes) : Prop :=
  ∀ t prof, loaded w s = some t → resolve w t.registry pkg = some prof → Authentic w verifies prof ∨
    Stops w prof ∧ Spared [entryPath, markerPath (snapName pkg (w.uptime 0))] s.fs (installPath prof)

section Installs
variable {w : World} {verifies : Bytes → Bytes → Bool} {s : PkgState} {pkg : Bytes}

theorem resolve_named {registry : List Entry} {prof : Profile} (found : resolve w registry pkg = some prof) :
    ∀ c ∈ pkg, nameChar c = true := by
  obtain ⟨entry, find, -⟩ := Option.bind_eq_some_iff.mp found
  have same := List.find?_some find
  rw [← of_decide_eq_true same]
  exact entry.named

theorem install_stops {t : PkgState} {prof : Profile} (sound : Sound s.fs) (sound' : Sound t.fs) (start : loaded w s = some t)
    (keeps : Keeps [entryPath] s.fs t.fs) (found : resolve w t.registry pkg = some prof) (stops : Stops w prof) :
    ∃ u, qtpkgInstall w s pkg = some (1, u) ∧ Sound u.fs ∧
      Keeps [entryPath, markerPath (snapName pkg (w.uptime 0))] s.fs u.fs := by
  cases fits : compatible prof with
  | false =>
    exact ⟨t, by simp [qtpkgInstall, start, found, fits], sound', keeps.mono (by simp)⟩
  | true =>
    have missing : fetchPayload w prof = none := stops.resolve_left (by simp [fits])
    have plain := markerPath_plain (resolve_named found) (w.uptime 0)
    obtain ⟨code, u, snap, sound'', keeps'⟩ := persistSnapshot_spec w sound' plain
    refine ⟨u, by simp [qtpkgInstall, start, found, fits, snap, missing], sound'', ?_⟩
    exact keeps_trans sound sound' sound'' keeps keeps' (by simpa using plain)

end Installs

/-- A mirror that serves this profile and this payload. -/
def mirror (profile payload : Bytes) : World where
  env := fun _ => Vfs.bootEnv
  uptime := fun _ => 7
  http := fun call _ => some (200, if call = 0 then profile else payload)
  registryMemory := true
  profileMemory := true

def helloEntry : Entry where
  name := ascii "hello"
  versions := [{ version := ascii "1", url := ascii "http://mirror/hello" }]
  line := 1
  named := by decide +kernel

def booted (s : FsState) : PkgState where
  fs := s
  registry := [helloEntry]
  snapshots := fun _ => none

theorem boot_sound {s : FsState} (started : Vfs.fsInit Vfs.bootEnv (fun _ => Vfs.bootEnv) = some s) :
    Sound s ∧ InMemory s entryPath := by
  obtain ⟨s', kids, started', tree⟩ := Vfs.fsInit_tree Vfs.bootEnv (fun _ => Vfs.bootEnv) rfl
  obtain rfl : s = s' := Option.some.inj (started.symm.trans started')
  have facts : ((Vfs.fsInit Vfs.bootEnv fun _ => Vfs.bootEnv).map fun s => (s.nextInode, (List.range 15).all fun id =>
      (s.nodes id).all fun n => n.size == 0, Vfs.fsLookup s entryPath)) = some (15, true, some none) := by
    decide +kernel
  rw [started, Option.map_some] at facts
  simp only [Option.some.injEq, Prod.mk.injEq] at facts
  obtain ⟨next, empty, absent⟩ := facts
  refine ⟨⟨⟨kids, tree⟩, fun id b body _ => ?_⟩, fun id n search => ?_⟩
  · obtain ⟨n, live, rfl⟩ := Vfs.live_of_body body
    have below : id < 15 := next ▸ tree.fresh id n.shape (Vfs.shapes_live live)
    have zero := List.all_eq_true.mp empty id (List.mem_range.mpr below)
    simp only [live, Option.all_some, beq_iff_eq] at zero
    change n.size ≤ n.capacity ∧ n.size < 2 ^ 63
    omega
  · exact absurd (absent.symm.trans search) (by simp)

example : ((Vfs.fsInit Vfs.bootEnv fun _ => Vfs.bootEnv).map fun s => Vfs.fsLookup s entryPath) = some (some none) := by decide +kernel

def armProfile : Bytes :=
  ascii "name=hello\nversion=1\narch=arm\npayload=http://mirror/hello.bin\ninstall_path=/bin/hello\nchecksum=00\n"

def forgedProfile : Bytes :=
  ascii "name=hello\nversion=1\npayload=http://mirror/hello.bin\ninstall_path=/bin/hello\nchecksum=00\nsignature=00\n"

end Qito.Pkg
