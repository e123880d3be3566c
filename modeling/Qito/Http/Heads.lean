import Qito.Http.Request

/-! The head of a request in its buffer: as long as it fits with the NUL behind it,
it is handed over whole. -/
namespace Qito.Http
open Faults

section Printing
variable {text done : Bytes} {out : Output}

theorem int32_small {n : Int} (low : -(2 ^ 31) ≤ n) (high : n < 2 ^ 31) : int32 n = n := by
  unfold int32
  rw [Int.bmod_eq_of_le (by omega) (by omega)]

theorem int32_range (n : Int) : -(2 ^ 31) ≤ int32 n ∧ int32 n < 2 ^ 31 := by
  have low := Int.le_bmod (x := n) (m := 2 ^ 32) (by decide)
  have high := Int.bmod_lt (x := n) (m := 2 ^ 32) (by decide)
  unfold int32
  omega

theorem int32_next {n k : Nat} (less : n ≤ 1536) (short : k < 2 ^ 31 + 2 ^ 30) :
    int32 (n + int32 k) = n + k ∨ int32 (n + int32 k) < 0 ∧ 2 ^ 31 ≤ n + k := by
  unfold int32
  rcases Nat.lt_or_ge k (2 ^ 31) with small | large
  · have same : Int.bmod (k : Int) (2 ^ 32) = k := Int.bmod_eq_of_le (by omega) (by omega)
    rw [same]
    rcases Nat.lt_or_ge (n + k) (2 ^ 31) with fits | over_
    · exact .inl (Int.bmod_eq_of_le (by omega) (by omega))
    · refine .inr ⟨?_, over_⟩
      have wraps : Int.bmod ((n : Int) + k) (2 ^ 32) = n + k - 2 ^ 32 := by
        rw [Int.bmod_def]
        omega
      omega
  · refine .inr ⟨?_, by omega⟩
    have wraps : Int.bmod (k : Int) (2 ^ 32) = k - 2 ^ 32 := by
      rw [Int.bmod_def]
      omega
    rw [wraps]
    have same : Int.bmod ((n : Int) + (k - 2 ^ 32)) (2 ^ 32) = n + (k - 2 ^ 32) := Int.bmod_eq_of_le (by omega) (by omega)
    omega

/-- What the calls so far have printed and where they have left the buffer. -/
inductive Filled (done : Bytes) (out : Output) : Prop where
  | short (less : done.length < requestSize) (length : out.length = done.length)
      (cells : ∃ rest, out.request = done.map some ++ rest ∧ out.request.length = requestSize)
  | full (all : done.length = requestSize) (length : out.length = requestSize)
      (cells : out.request = (done.take (requestSize - 1) ++ [0]).map some)
  | lost (long : requestSize < done.length) (outside : out.length < 0 ∨ requestSize < out.length)
      (int : -(2 ^ 31) ≤ out.length ∧ out.length < 2 ^ 31)

theorem blank_filled : Filled [] blank :=
  .short (by decide) rfl ⟨_, rfl, List.length_replicate⟩

theorem snprintf_inside (less : done.length < requestSize) (length : out.length = done.length) {rest : List (Option UInt8)}
    (request : out.request = done.map some ++ rest) (size : out.request.length = requestSize) (text : Bytes) :
    ∃ rest', snprintf out text = .ok
        { request := (done ++ text.take (1535 - done.length) ++ [0]).map some ++ rest'
          length := int32 (done.length + int32 text.length) } ∧
      ((done ++ text.take (1535 - done.length) ++ [0]).map some ++ rest').length = requestSize := by
  have whole : requestSize = 1536 := rfl
  have room : ((requestSize - out.length) % 2 ^ 64 : Int).toNat = 1536 - done.length := by
    rw [length]
    omega
  have left : 1536 - done.length - 1 = 1535 - done.length := by omega
  have taken : (text.take (1535 - done.length) ++ [0]).length ≤ 1536 - done.length := by
    rw [List.length_append, List.length_take, List.length_singleton]
    omega
  have fits : 0 ≤ out.length ∧ out.length + (text.take (1535 - done.length) ++ [0]).length ≤ requestSize := by
    rw [length]
    omega
  have start : out.length.toNat = done.length := by rw [length, Int.toNat_natCast]
  have kept : out.request.take done.length = done.map some := by
    rw [request, ← List.length_map (f := some), List.take_left]
  refine ⟨out.request.drop (done.length + (text.take (1535 - done.length) ++ [0]).length), ?_, ?_⟩
  · have some_ : ¬ 1536 - done.length = 0 := by omega
    rw [← length]
    simp only [snprintf, room, if_neg some_, left, if_pos fits, start, kept, List.map_append, List.append_assoc]
  · rw [List.length_append, List.length_map, List.length_drop, size, List.append_assoc, List.length_append]
    omega

theorem snprintf_outside (outside : out.length < 0 ∨ requestSize < out.length) (int : -(2 ^ 31) ≤ out.length ∧ out.length < 2 ^ 31)
    (text : Bytes) : snprintf out text = .error .outside := by
  have whole : requestSize = 1536 := rfl
  have some_ : ¬ ((requestSize - out.length) % 2 ^ 64 : Int).toNat = 0 := by
    omega
  have far : ¬ (0 ≤ out.length ∧ out.length +
      (text.take (((requestSize - out.length) % 2 ^ 64 : Int).toNat - 1) ++ [0]).length ≤ requestSize) := by
    rw [List.length_append, List.length_singleton]
    omega
  simp only [snprintf, if_neg some_, if_neg far]

theorem snprintf_end (length : out.length = requestSize) (text : Bytes) :
    snprintf out text = .ok { out with length := int32 (requestSize + int32 text.length) } := by
  have none_ : ((requestSize - out.length) % 2 ^ 64 : Int).toNat = 0 := by
    rw [length, Int.sub_self]
    rfl
  rw [snprintf, if_pos none_, length]

theorem Filled.print (filled : Filled done out) (moderate : text.length < 2 ^ 31 + 2 ^ 30) :
    (∃ out', snprintf out text = .ok out' ∧ Filled (done ++ text) out') ∨
      snprintf out text = .error .outside ∧ requestSize < done.length := by
  have whole : requestSize = 1536 := rfl
  cases filled with
  | short less length cells =>
    obtain ⟨rest, request, size⟩ := cells
    obtain ⟨rest', run, size'⟩ := snprintf_inside less length request size text
    refine .inl ⟨_, run, ?_⟩
    have total : (done ++ text).length = done.length + text.length := List.length_append
    have next := int32_next (n := done.length) (by omega) moderate
    have int := int32_range (done.length + int32 text.length)
    rcases Nat.lt_trichotomy (done ++ text).length requestSize with fits | exact_ | long
    · have all : text.take (1535 - done.length) = text := List.take_of_length_le (by omega)
      apply Filled.short fits
      · dsimp only
        omega
      · refine ⟨some 0 :: rest', ?_, size'⟩
        simp [all]
    · apply Filled.full exact_
      · dsimp only
        omega
      · have parted : (done ++ text).take (requestSize - 1) = done ++ text.take (1535 - done.length) := by
          rw [List.take_append, List.take_of_length_le (by omega), whole]
        have rest_ : rest' = [] := by
          apply List.eq_nil_of_length_eq_zero
          rw [List.length_append, List.length_map, List.length_append, List.length_append, List.length_take,
            List.length_singleton] at size'
          omega
        rw [parted, rest_, List.append_nil]
    · refine Filled.lost long ?_ ?_
      · dsimp only
        omega
      · dsimp only
        omega
  | full all length cells =>
    refine .inl ⟨_, snprintf_end length text, ?_⟩
    have next := int32_next (n := requestSize) (Nat.le_refl _) moderate
    have int := int32_range (requestSize + int32 text.length)
    cases text with
    | nil =>
      rw [List.append_nil]
      exact .full all rfl cells
    | cons c text =>
      rw [List.length_cons] at *
      refine Filled.lost ?_ ?_ ?_
      · rw [List.length_append, List.length_cons]
        omega
      · dsimp only
        omega
      · dsimp only
        omega
  | lost long outside int => exact .inr ⟨snprintf_outside outside int text, long⟩

theorem Filled.prints {texts : List Bytes} (filled : Filled done out) (moderate : ∀ t ∈ texts, t.length < 2 ^ 31 + 2 ^ 30) :
    (∃ out', texts.foldlM snprintf out = .ok out' ∧ Filled (done ++ texts.flatten) out') ∨
      texts.foldlM snprintf out = .error .outside ∧ requestSize < (done ++ texts.flatten).length := by
  induction texts generalizing done out with
  | nil => exact .inl ⟨out, rfl, by rwa [List.flatten_nil, List.append_nil]⟩
  | cons t texts ih =>
    obtain ⟨here, later⟩ := List.forall_mem_cons.mp moderate
    rw [List.foldlM_cons, List.flatten_cons, ← List.append_assoc]
    rcases filled.print here with ⟨out', run, filled'⟩ | ⟨lost, long⟩
    · rw [run]
      exact ih filled' later
    · refine .inr ⟨by rw [lost]; rfl, ?_⟩
      rw [List.length_append, List.length_append]
      omega

theorem all_some (bytes : Bytes) : (bytes.map some).all Option.isSome = true ∧ (bytes.map some).filterMap id = bytes := by
  constructor
  · rw [List.all_eq_true]
    intro cell member
    obtain ⟨c, -, rfl⟩ := List.mem_map.mp member
    rfl
  · rw [List.filterMap_map]
    exact List.filterMap_some

theorem handed_cells {bytes : Bytes} {rest : List (Option UInt8)} (length : out.length = bytes.length)
    (fits : bytes.length ≤ requestSize) (request : out.request = bytes.map some ++ rest) : handed out = .ok bytes := by
  have whole : requestSize = 1536 := rfl
  have len : (out.length % 2 ^ 64).toNat = bytes.length := by
    rw [length]
    omega
  have cells : out.request.take bytes.length = bytes.map some := by
    rw [request, ← List.length_map (f := some), List.take_left]
  simp only [handed, len, if_neg (Nat.not_lt.mpr fits), cells, (all_some bytes).1, (all_some bytes).2, if_true]

theorem Filled.handed_short (filled : Filled done out) (less : done.length < requestSize) : handed out = .ok done := by
  cases filled with
  | short less length cells =>
    obtain ⟨rest, request, -⟩ := cells
    exact handed_cells length (Nat.le_of_lt less) request
  | full all => omega
  | lost long => omega

theorem Filled.handed_full (filled : Filled done out) (all : done.length = requestSize) :
    handed out = .ok (done.take (requestSize - 1) ++ [0]) := by
  have whole : requestSize = 1536 := rfl
  cases filled with
  | short less => omega
  | full _ length cells =>
    have size : (done.take (requestSize - 1) ++ [0]).length = requestSize := by
      rw [List.length_append, List.length_take, List.length_singleton]
      omega
    apply handed_cells _ (Nat.le_of_eq size) (by rw [cells, List.append_nil])
    rw [length, size]
  | lost long => omega

theorem Filled.handed_lost (filled : Filled done out) (long : requestSize < done.length) : handed out = .error .outside := by
  have whole : requestSize = 1536 := rfl
  cases filled with
  | short less => omega
  | full all => omega
  | lost _ outside int =>
    have far : (out.length % 2 ^ 64).toNat > requestSize := by omega
    rw [handed, if_pos far]

end Printing

section Heads
variable {options : Option HttpOptions} {url : HttpUrl} {current : Bytes}

/-- The texts as they are printed. -/
def printedHead (options : Option HttpOptions) (url : HttpUrl) : Bytes := (headTexts printed options url).flatten

/-- What http_parse_url leaves in its arrays. -/
def HttpUrl.Sized (url : HttpUrl) : Prop := url.host.length ≤ 127 ∧ url.path.length ≤ 255

theorem parsePath_length (cursor : Bytes) : (parsePath cursor).length ≤ 255 := by
  unfold parsePath
  split
  · exact List.length_take_le ..
  · decide

theorem httpParseUrl_sized (parsed : httpParseUrl current = some url) : url.Sized := by
  unfold httpParseUrl at parsed
  split at parsed
  · cases parsed
  · dsimp only at parsed
    split at parsed
    · cases parsed
    · cases Option.some.inj parsed
      exact ⟨List.length_take_le .., parsePath_length _⟩

theorem printed_length (s : Bytes) : (printed s).length < 2 ^ 31 ∧ (printed s).length ≤ s.length := by
  have range := int32_range s.length
  rw [printed, List.length_take]
  omega

theorem decimal_short (n : UInt64) : (decimal n.toNat).length ≤ 20 := by
  have small : n.toNat < 10 ^ 20 := Nat.lt_trans n.toNat_lt (by decide)
  rw [decimal, List.length_map]
  exact (Nat.length_toDigits_le_iff (by decide) (by decide)).mpr small

theorem printed_moderate (sized : url.Sized) : ∀ t ∈ headTexts printed options url, t.length < 2 ^ 31 + 2 ^ 30 := by
  have method := (printed_length ((options.bind (·.method)).getD (ascii "GET"))).1
  have path := (printed_length url.path).2
  have host := (printed_length url.host).2
  obtain ⟨host', path'⟩ := sized
  intro t member
  simp only [headTexts, List.mem_append, List.mem_singleton, Option.mem_toList, Option.map_eq_some_iff] at member
  rcases member with ((same | ⟨extra, -, same⟩) | ⟨o, -, same⟩) | same
  · have fixed : (ascii " HTTP/1.1\r\nHost: ").length ≤ 20 ∧
        (ascii "\r\nUser-Agent: QitoOS/0.4a\r\nAccept: */*\r\nConnection: close\r\n").length ≤ 80 ∧ (ascii " ").length ≤ 1 := by
      decide
    rw [same]
    simp only [List.length_append]
    omega
  · have short := (printed_length extra).1
    rw [same] at short
    omega
  · have digits := decimal_short o.bodyLength
    have fixed : (ascii "Content-Length: ").length = 16 ∧ (ascii "\r\n").length = 2 := by decide
    rw [← same]
    simp only [List.length_append, fixed.1, fixed.2]
    omega
  · rw [same]
    decide

theorem buildRequest_cases (options : Option HttpOptions) (sized : url.Sized) :
    ((printedHead options url).length < requestSize ∧ buildRequest options url = .ok (printedHead options url)) ∨
    ((printedHead options url).length = requestSize ∧
      buildRequest options url = .ok ((printedHead options url).take (requestSize - 1) ++ [0])) ∨
    (requestSize < (printedHead options url).length ∧ buildRequest options url = .error .outside) := by
  rcases blank_filled.prints (printed_moderate sized) with ⟨out, run, filled⟩ | ⟨lost, long⟩
  · rw [List.nil_append] at filled
    have build : buildRequest options url = handed out := by
      rw [buildRequest, run]
      rfl
    rw [build]
    rcases Nat.lt_trichotomy (printedHead options url).length requestSize with less | all | long
    · exact .inl ⟨less, filled.handed_short less⟩
    · exact .inr (.inl ⟨all, filled.handed_full all⟩)
    · exact .inr (.inr ⟨long, filled.handed_lost long⟩)
  · rw [List.nil_append] at long
    refine .inr (.inr ⟨long, ?_⟩)
    rw [buildRequest, lost]
    rfl

theorem buildRequest_returns (options : Option HttpOptions) (sized : url.Sized) :
    ((∃ head, buildRequest options url = .ok head) ∧ (printedHead options url).length ≤ requestSize) ∨
    (requestSize < (printedHead options url).length ∧ buildRequest options url = .error .outside) := by
  rcases buildRequest_cases options sized with ⟨less, build⟩ | ⟨all, build⟩ | lost
  · exact .inl ⟨⟨_, build⟩, Nat.le_of_lt less⟩
  · exact .inl ⟨⟨_, build⟩, Nat.le_of_eq all⟩
  · exact .inr lost

theorem printed_eq {s : Bytes} (short : s.length < requestSize) : printed s = s := by
  have whole : requestSize = 1536 := rfl
  rw [printed, int32_small (by omega) (by omega), Int.toNat_natCast, List.take_length]

theorem printedHead_eq (short : (requestHead options url).length < requestSize) :
    printedHead options url = requestHead options url := by
  rw [requestHead, headTexts] at short
  simp only [List.flatten_append, List.flatten_cons, List.flatten_nil, List.append_nil, List.length_append, id] at short
  have method : printed ((options.bind (·.method)).getD (ascii "GET")) = (options.bind (·.method)).getD (ascii "GET") :=
    printed_eq (by omega)
  have path : printed url.path = url.path := printed_eq (by omega)
  have host : printed url.host = url.host := printed_eq (by omega)
  have extra : (options.bind (·.extraHeaders)).map printed = (options.bind (·.extraHeaders)).map id := by
    cases some_ : options.bind (·.extraHeaders) with
    | none => rw [Option.map_none, Option.map_none]
    | some extra =>
      have less : extra.length < requestSize := by
        rw [some_] at short
        simp only [Option.map_some, Option.toList_some, List.flatten_cons, List.flatten_nil, List.append_nil, id] at short
        omega
      rw [Option.map_some, Option.map_some, printed_eq less]
      rfl
  simp only [printedHead, requestHead, headTexts, method, path, host, extra, id]

theorem requestHead_ends (options : Option HttpOptions) (url : HttpUrl) : (requestHead options url).getLast? = some 10 := by
  have ends : (headTexts id options url).flatten = (headTexts id options url).dropLast.flatten ++ ascii "\r\n" := by
    rw [headTexts, List.dropLast_concat, List.flatten_append]
    simp
  rw [requestHead, ends, List.getLast?_append]
  rfl

theorem handed_whole_iff (sized : url.Sized) {head : Bytes} (run : buildRequest options url = .ok head) :
    head = requestHead options url ↔ (requestHead options url).length < requestSize := by
  have whole : requestSize = 1536 := rfl
  rcases buildRequest_cases options sized with ⟨less, build⟩ | ⟨all, build⟩ | ⟨-, build⟩
  · have is : head = printedHead options url := Except.ok.inj (run.symm.trans build)
    rw [is]
    constructor
    · intro same
      rwa [← same]
    · exact printedHead_eq
  · have is : head = (printedHead options url).take (requestSize - 1) ++ [0] := Except.ok.inj (run.symm.trans build)
    rw [is]
    constructor
    · intro same
      have ends := requestHead_ends options url
      rw [← same, List.getLast?_concat] at ends
      cases ends
    · intro short
      rw [printedHead_eq short] at all
      omega
  · cases run.symm.trans build

end Heads

section Rounds
variable {options : Option HttpOptions} {network : Nat → Outcome} {current : Bytes} {rounds : Nat}

/-- A run builds the requests for the URLs that are asked for, or faults at one. -/
inductive Ran (options : Option HttpOptions) (asked : List HttpUrl × Bool) (run : Except Fault (List Request × Bool)) : Prop where
  | ends (sent : List Request) (result : run = .ok (sent, asked.2)) (urls : sent.map (·.url) = asked.1)
      (built : ∀ r ∈ sent, r.url.Sized ∧ buildRequest options r.url = .ok r.head)
  | faults (result : run = .error .outside) (long : ∃ u ∈ asked.1, requestSize < (printedHead options u).length)

theorem ran_none : Ran options ([], false) (.ok ([], false)) := .ends [] rfl rfl (fun _ member => absurd member List.not_mem_nil)

theorem ran_one {url : HttpUrl} (sized : url.Sized) (ok : Bool) : Ran options ([url], ok) (do
    let head ← buildRequest options url
    return ([⟨url, head⟩], ok)) := by
  rcases buildRequest_returns options sized with ⟨⟨head, build⟩, -⟩ | ⟨long, build⟩
  · rw [build]
    refine .ends [⟨url, head⟩] rfl rfl ?_
    intro r member
    rw [List.mem_singleton.mp member]
    exact ⟨sized, build⟩
  · rw [build]
    exact .faults rfl ⟨url, List.mem_singleton_self _, long⟩

theorem ran_more {url : HttpUrl} {asked : List HttpUrl × Bool} {run : Except Fault (List Request × Bool)} (sized : url.Sized)
    (later : Ran options asked run) : Ran options (url :: asked.1, asked.2) (do
      let head ← buildRequest options url
      let (more, ok) ← run
      return (⟨url, head⟩ :: more, ok)) := by
  rcases buildRequest_returns options sized with ⟨⟨head, build⟩, -⟩ | ⟨long, build⟩
  · rw [build]
    cases later with
    | ends sent result urls built =>
      rw [result]
      refine .ends (⟨url, head⟩ :: sent) rfl ?_ (List.forall_mem_cons.mpr ⟨⟨sized, build⟩, built⟩)
      rw [List.map_cons, urls]
    | faults result long =>
      obtain ⟨u, member, long⟩ := long
      rw [result]
      exact .faults rfl ⟨u, List.mem_cons_of_mem _ member, long⟩
  · rw [build]
    exact .faults rfl ⟨url, List.mem_cons_self, long⟩

theorem httpRounds_ran : Ran options (requested options rounds network current) (httpRounds options rounds network current) := by
  induction rounds generalizing network current with
  | zero => exact ran_none
  | succ rounds ih =>
    unfold requested httpRounds
    cases parsed : httpParseUrl current with
    | none => exact ran_none
    | some url =>
      have sized := httpParseUrl_sized parsed
      dsimp only
      split
      · exact ran_none
      · cases network 0 with
        | unresolved => exact ran_none
        | unconnected => exact ran_none
        | unsent => exact ran_one sized false
        | failed => exact ran_one sized false
        | answered => exact ran_one sized true
        | redirected value =>
          dsimp only
          split
          · exact ran_more sized ih
          · exact ran_one sized true

/-- Nothing outside the buffer is used, and a call that returns 0 has handed over the
whole head of each of its requests. -/
def Whole (options : Option HttpOptions) (run : Except Fault (List Request × Bool)) : Prop :=
  ∃ sent ok, run = .ok (sent, ok) ∧ (ok = true → ∀ r ∈ sent, r.head = requestHead options r.url)

/-- Every head that is asked for leaves room for a NUL; in a call that fails anyway it
is enough that what is printed of it fits. -/
def Fitting (options : Option HttpOptions) (network : Nat → Outcome) (url : Bytes) : Prop :=
  if (requested options 5 network (strlcpy url 512)).2 then
    ∀ u ∈ (requested options 5 network (strlcpy url 512)).1, (requestHead options u).length < requestSize
  else ∀ u ∈ (requested options 5 network (strlcpy url 512)).1, (printedHead options u).length ≤ requestSize

theorem requests_whole_iff (options : Option HttpOptions) (network : Nat → Outcome) (url : Bytes) :
    Whole options (httpRequest options network url) ↔ Fitting options network url := by
  have ran := @httpRounds_ran options network (strlcpy url 512) 5
  unfold Fitting
  change Whole options (httpRounds options 5 network (strlcpy url 512)) ↔ _
  cases ran with
  | ends sent result urls built =>
    have asked (u : HttpUrl) : u ∈ (requested options 5 network (strlcpy url 512)).1 ↔ ∃ r ∈ sent, r.url = u := by
      rw [← urls, List.mem_map]
    have fits : ∀ r ∈ sent, (printedHead options r.url).length ≤ requestSize := by
      intro r member
      obtain ⟨sized, build⟩ := built r member
      rcases buildRequest_returns options sized with ⟨-, fits⟩ | ⟨-, lost⟩
      · exact fits
      · cases build.symm.trans lost
    rw [result]
    split
    · rename_i answered
      constructor
      · rintro ⟨sent', ok, same, whole⟩ u member
        cases Except.ok.inj same
        obtain ⟨r, here, rfl⟩ := (asked u).mp member
        exact (handed_whole_iff (built r here).1 (built r here).2).mp (whole answered r here)
      · intro short
        refine ⟨sent, _, rfl, ?_⟩
        intro _ r member
        exact (handed_whole_iff (built r member).1 (built r member).2).mpr (short r.url ((asked r.url).mpr ⟨r, member, rfl⟩))
    · rename_i failed
      constructor
      · rintro - u member
        obtain ⟨r, here, rfl⟩ := (asked u).mp member
        exact fits r here
      · intro _
        exact ⟨sent, _, rfl, fun ok => absurd ok failed⟩
  | faults result long =>
    obtain ⟨u, member, long⟩ := long
    have whole : requestSize = 1536 := rfl
    rw [result]
    constructor
    · rintro ⟨sent, ok, same, -⟩
      cases same
    · intro fitting
      split at fitting
      · have short := fitting u member
        rw [printedHead_eq short] at long
        omega
      · have short := fitting u member
        omega

/-- The network answers at once. -/
def answers : Nat → Outcome := fun _ => .answered

/-- An extra header of 1500 bytes: the call behind it prints behind the buffer. -/
def longHeader : HttpOptions where
  method := none
  extraHeaders := some (List.replicate 1500 97)
  body := false
  bodyLength := 0
  noRedirect := false

theorem long_header_overruns : ¬ ∀ options network url, Whole options (httpRequest options network url) := by
  intro always
  obtain ⟨sent, ok, run, -⟩ := always (some longHeader) answers (ascii "http://h/")
  have lost : (httpRequest (some longHeader) answers (ascii "http://h/")).toOption.isNone = true := by decide +kernel
  rw [run] at lost
  cases lost

end Rounds

end Qito.Http
