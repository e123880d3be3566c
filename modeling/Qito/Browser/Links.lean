import Qito.Browser.Model
import Qito.Http.Urls

/-! Relative references: the URLs that a redirect and resolve_link put together, and
when they lead back to the host and the port of the page. -/
namespace Qito.Browser
open Http Search

/-- A text is parsed as a URL of the same host and port, with this path. -/
def Leads (url : HttpUrl) (path text : Bytes) : Prop :=
  ∃ parsed, httpParseUrl text = some parsed ∧ parsed.host = url.host ∧ parsed.port = url.port ∧ parsed.path = path

/-- A path up to its last slash. -/
def upToSlash (path : Bytes) : Bytes := (path.reverse.dropWhile (· != 47)).reverse

/-- The path a relative reference stands for on a page. -/
def linkPath (page : HttpUrl) (reference : Bytes) : Bytes :=
  if reference.head? = some 47 then reference else upToSlash page.path ++ reference

section Origins
variable {base text path reference : Bytes} {url : HttpUrl}

/-- A host and a path as they come out of a URL. -/
structure Origin (url : HttpUrl) : Prop where
  host : url.host ≠ []
  plain : ∀ c ∈ url.host, hostChar c = true
  hostFits : url.host.length < 128
  path : url.path.head? = some 47
  pathFits : url.path.length < 256

theorem parsePath_shape (cursor : Bytes) : (parsePath cursor).head? = some 47 ∧ (parsePath cursor).length ≤ max 1 cursor.length := by
  unfold parsePath
  split
  · rename_i slash
    obtain ⟨rest, rfl⟩ := List.head?_eq_some_iff.mp slash
    refine ⟨rfl, ?_⟩
    rw [strlcpy, List.length_take]
    omega
  · exact ⟨rfl, Nat.le_max_left ..⟩

theorem httpParseUrl_path (parsed : httpParseUrl text = some url) : url.path.length ≤ max 1 text.length := by
  unfold httpParseUrl at parsed
  split at parsed
  · cases parsed
  · rename_i cursor secure read
    dsimp only at parsed
    split at parsed
    · cases parsed
    · cases parsed
      dsimp only
      generalize (cursor.takeWhile _).take 127 = host
      have inside : cursor.length ≤ text.length := by
        obtain ⟨scheme, rfl, -⟩ := parseScheme_some read
        simp
      have dropped : (cursor.drop host.length).length ≤ cursor.length := by simp
      split
      · have behind := (List.dropWhile_suffix isdigit (l := (cursor.drop host.length).tail)).length_le
        have tail : (cursor.drop host.length).tail.length ≤ (cursor.drop host.length).length := by
          rw [List.length_tail]
          exact Nat.sub_le ..
        have short := (parsePath_shape ((cursor.drop host.length).tail.dropWhile isdigit)).2
        dsimp only
        omega
      · have short := (parsePath_shape (cursor.drop host.length)).2
        dsimp only
        omega

theorem httpParseUrl_origin (parsed : httpParseUrl base = some url) : Origin url := by
  have sized := httpParseUrl_sized parsed
  unfold httpParseUrl at parsed
  split at parsed
  · cases parsed
  · rename_i cursor secure read
    dsimp only at parsed
    split at parsed
    · cases parsed
    · rename_i filled
      cases parsed
      exact
        { host := filled
          plain := fun c member => List.mem_takeWhile_imp (p := hostChar) (List.mem_of_mem_take member)
          hostFits := Nat.lt_succ_of_le sized.1
          path := (parsePath_shape _).1
          pathFits := Nat.lt_succ_of_le sized.2 }

theorem Origin.parsed (origin : Origin url) (slash : path.head? = some 47) (fits : path.length < 256) :
    httpParseUrl (ascii "http://" ++ url.host ++ path) = some ⟨url.host, path, 80, false⟩ := by
  have sound : (Written.mk (some false) url.host none path).Sound :=
    { host := origin.host
      plain := origin.plain
      port := nofun
      path := .inr slash
      hostFits := origin.hostFits
      pathFits := fits }
  have filled : path ≠ [] := by
    rintro rfl
    cases slash
  have same := httpParseUrl_written sound rfl
  rw [Written.url] at same
  simp only [if_neg filled] at same
  rw [List.append_assoc]
  exact same

theorem Origin.leads_iff (origin : Origin url) (slash : path.head? = some 47) (fits : path.length < 256) :
    Leads url reference (ascii "http://" ++ url.host ++ path) ↔ url.port = 80 ∧ path = reference := by
  unfold Leads
  rw [origin.parsed slash fits]
  constructor
  · rintro ⟨_, ⟨⟩, -, port, same⟩
    exact ⟨port.symm, same⟩
  · rintro ⟨port, same⟩
    exact ⟨_, rfl, rfl, port.symm, same⟩

theorem upToSlash_head (slash : path.head? = some 47) : (upToSlash path).head? = some 47 := by
  obtain ⟨rest, rfl⟩ := List.head?_eq_some_iff.mp slash
  have whole : (47 :: rest).reverse.takeWhile (· != 47) ++ (47 :: rest).reverse.dropWhile (· != 47) = rest.reverse ++ [47] := by
    rw [List.takeWhile_append_dropWhile, List.reverse_cons]
  unfold upToSlash
  rw [List.head?_reverse]
  have last := congrArg List.getLast? whole
  rw [List.getLast?_append] at last
  cases left : ((47 :: rest).reverse.dropWhile (· != 47)).getLast? with
  | some c =>
    rw [left] at last
    simpa using last
  | none =>
    have all := List.dropWhile_eq_nil_iff.mp (List.getLast?_eq_none_iff.mp left) 47 (by simp)
    simp at all

theorem Origin.directoryOf (origin : Origin url) : directoryOf url.path = upToSlash url.path := by
  have whole : strlcpy url.path 256 = url.path := List.take_of_length_le (Nat.le_of_lt_succ origin.pathFits)
  have filled : upToSlash url.path ≠ [] := by
    intro none_
    have head := upToSlash_head origin.path
    rw [none_] at head
    cases head
  unfold Browser.directoryOf
  rw [whole]
  exact if_neg filled

theorem Origin.linkPath_head (origin : Origin url) : (linkPath url reference).head? = some 47 := by
  unfold linkPath
  split
  · assumption
  · rw [List.head?_append, upToSlash_head origin.path]
    rfl

theorem Origin.resolveLink (origin : Origin url) (parsed : httpParseUrl base = some url)
    (plain : find (ascii "://") reference = none) (size : Nat) :
    resolveLink base reference size = strlcpy (ascii "http://" ++ url.host ++ linkPath url reference) size := by
  unfold Browser.resolveLink linkPath
  rw [plain, parsed]
  simp only [Option.isSome_none, Bool.false_eq_true, if_false, origin.directoryOf]
  split
  · rfl
  · rw [List.append_assoc _ (upToSlash _) reference]

theorem Origin.astray (origin : Origin url) (size : Nat) (marked : find (ascii "://") reference ≠ none) :
    ¬ Leads url (linkPath url reference) (Browser.resolveLink base reference size) := by
  have marked : (find (ascii "://") reference).isSome = true := Option.isSome_iff_ne_none.mpr marked
  have long : 3 ≤ reference.length := by
    obtain ⟨i, found⟩ := Option.isSome_iff_exists.mp marked
    obtain ⟨front, back, rfl, -⟩ := find_some found
    have three : (ascii "://").length = 3 := rfl
    simp only [List.length_append, three]
    omega
  unfold Browser.resolveLink
  rw [if_pos marked]
  rintro ⟨parsed, run, -, -, path⟩
  unfold linkPath at path
  split at path
  · rename_i slash
    obtain ⟨rest, rfl⟩ := List.head?_eq_some_iff.mp slash
    have cut : strlcpy (47 :: rest) size = [] ∨ ∃ more, strlcpy (47 :: rest) size = 47 :: more := by
      unfold strlcpy
      cases size - 1 with
      | zero => exact .inl rfl
      | succ n => exact .inr ⟨rest.take n, rfl⟩
    have hostless : ∀ text, text = [] ∨ (∃ more, text = 47 :: more) → httpParseUrl text = none := by
      intro text shape
      cases read : parseScheme text with
      | none => exact httpParseUrl_refused read
      | some found =>
        obtain ⟨cursor, secure⟩ := found
        apply httpParseUrl_hostless read
        obtain ⟨scheme, rfl, -⟩ := parseScheme_some read
        cases scheme with
        | none =>
          rcases shape with rfl | ⟨more, same⟩
          · rfl
          · have slash : cursor = 47 :: more := same
            rw [slash]
            rfl
        | some secure =>
          exfalso
          cases secure with
          | true => rcases shape with same | ⟨more, same⟩ <;> cases same
          | false => rcases shape with same | ⟨more, same⟩ <;> cases same
    rw [hostless _ cut] at run
    cases run
  · have short := httpParseUrl_path run
    have cut : (strlcpy reference size).length ≤ reference.length := by
      unfold strlcpy
      rw [List.length_take]
      omega
    have filled : 0 < (upToSlash url.path).length := by
      apply List.length_pos_iff.mpr
      intro none_
      have head := upToSlash_head origin.path
      rw [none_] at head
      cases head
    rw [path, List.length_append] at short
    omega

end Origins

section Cut
variable {url : HttpUrl} {path : Bytes}

theorem Origin.cut_iff (origin : Origin url) (slash : path.head? = some 47) {size : Nat} (large : 136 ≤ size) (small : size ≤ 256) :
    Leads url path (strlcpy (ascii "http://" ++ url.host ++ path) size) ↔
      url.port = 80 ∧ (ascii "http://" ++ url.host ++ path).length < size := by
  obtain ⟨rest, rfl⟩ := List.head?_eq_some_iff.mp slash
  have fits := origin.hostFits
  have scheme : (ascii "http://").length = 7 := rfl
  have front : (ascii "http://" ++ url.host).length = 7 + url.host.length := by rw [List.length_append, scheme]
  obtain ⟨room, rfl⟩ : ∃ room, size = 7 + url.host.length + (room + 1) + 1 := ⟨size - (7 + url.host.length + 2), by omega⟩
  have text : strlcpy (ascii "http://" ++ url.host ++ 47 :: rest) (7 + url.host.length + (room + 1) + 1) =
      ascii "http://" ++ url.host ++ 47 :: rest.take room := by
    unfold strlcpy
    rw [Nat.add_sub_cancel, ← front, List.take_length_add_append]
    rfl
  rw [text, origin.leads_iff rfl (by rw [List.length_cons, List.length_take]; omega), List.length_append, front,
    List.length_cons]
  apply and_congr_right
  intro _
  rw [List.cons_inj_right, List.take_eq_self_iff]
  omega

end Cut

/-- A redirect and resolve_link keep the origin of a page when its port is 80 and what
they put together fits; resolve_link, when the reference has no "://" either. -/
theorem references_keep_origin_iff (base reference : Bytes) (url : HttpUrl) (parsed : httpParseUrl base = some url) :
    (reference.head? = some 47 → (Leads url reference (redirectTo url reference) ↔ url.port = 80 ∧ reference.length < 256)) ∧
      (Leads url (linkPath url reference) (resolveLink base reference Buffer.link.size) ↔
        url.port = 80 ∧ find (ascii "://") reference = none ∧
          (ascii "http://" ++ url.host ++ linkPath url reference).length < Buffer.link.size) := by
  have origin := httpParseUrl_origin parsed
  constructor
  · intro slash
    obtain ⟨rest, rfl⟩ := List.head?_eq_some_iff.mp slash
    have value : strlcpy (47 :: rest) 256 = 47 :: rest.take 254 := rfl
    have short : (rest.take 254).length ≤ 254 := List.length_take_le ..
    have scheme : (ascii "http://").length = 7 := rfl
    have host := origin.hostFits
    have whole : strlcpy (ascii "http://" ++ url.host ++ 47 :: rest.take 254) 512 =
        ascii "http://" ++ url.host ++ 47 :: rest.take 254 := by
      apply List.take_of_length_le
      rw [List.length_append, List.length_append, scheme, List.length_cons]
      omega
    have text : redirectTo url (47 :: rest) = ascii "http://" ++ url.host ++ 47 :: rest.take 254 := by
      unfold redirectTo
      rw [value]
      exact (if_pos rfl).trans whole
    rw [text, origin.leads_iff rfl (by rw [List.length_cons]; omega)]
    apply and_congr_right
    intro _
    rw [List.cons_inj_right, List.take_eq_self_iff, List.length_cons]
    omega
  · rcases Classical.em (find (ascii "://") reference = none) with plain | marked
    · rw [origin.resolveLink parsed plain, origin.cut_iff origin.linkPath_head (by decide) (by decide)]
      simp [plain]
    · exact iff_of_false (origin.astray _ marked) fun kept => marked kept.2.1

theorem references_keep_origin_page :
    Leads ⟨ascii "a", ascii "/b/c", 80, false⟩ (ascii "/b/d") (resolveLink (ascii "http://a/b/c") (ascii "d") Buffer.link.size) :=
  ((references_keep_origin_iff (ascii "http://a/b/c") (ascii "d") ⟨ascii "a", ascii "/b/c", 80, false⟩
    (by decide)).2).mpr (by decide)

/-- Both lose the port of the page. -/
theorem references_lose_the_port : ¬ ∀ (base reference : Bytes) (url : HttpUrl), httpParseUrl base = some url →
    url.secure = false → reference.head? = some 47 →
      Leads url reference (redirectTo url reference) ∧ Leads url reference (resolveLink base reference Buffer.link.size) := by
  intro all
  obtain ⟨⟨parsed, run, -, port, -⟩, -⟩ := all (ascii "http://a:8080/b") (ascii "/c") ⟨ascii "a", ascii "/b", 8080, false⟩
    (by decide) rfl rfl
  have other : httpParseUrl (redirectTo ⟨ascii "a", ascii "/b", 8080, false⟩ (ascii "/c")) =
      some ⟨ascii "a", ascii "/c", 80, false⟩ := by decide
  rw [other] at run
  cases run
  exact absurd port (by decide)

end Qito.Browser
