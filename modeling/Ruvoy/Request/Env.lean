import Ruvoy.Lib.Hash
import Ruvoy.Rack.Model
import Ruvoy.Request.Authority

/-!
# The Rack environment of a request

`build_env` of `src/rack.rs`: the entries it makes of the request itself, then one for each header,
under the key that `env_header_key` makes of its name in a buffer that all headers share.

* `CallContext`, `EnvRequest`: what an environment is made of; Ruby objects stand for themselves;
* `envHeaderKey`, `set`, `buildEnv`;
* `headerKey`, `keyed`: the key of a name, and the values that arrived under a key;
* `KeepsHeaders`: every value of a key is in its entry, and no other entry is touched;
* **`env_keeps_headers`**: so it is when no two headers have the same key, and only then;
* `repeated_header_lost`: of two headers with one name the first is lost.
-/

set_option autoImplicit false

namespace Ruvoy.Request

open Text
open Ruvoy.Rack (inContext)

/-- Whether the runtime may re-enter `app.call` before an earlier call returns. -/
inductive Concurrency
  | Serial
  | Interleaved
  deriving DecidableEq, Repr

def Concurrency.multithread : Concurrency → Bool
  | .Interleaved => true
  | .Serial => false

/-- The Ruby values a runtime needs on hand, and what it calls. -/
structure CallContext (V : Type) where
  rackErrors : V
  /-- `StringIO.new`. -/
  stringIO : Bytes → Except String V
  binmode : V → Except String Unit
  /-- `RequestBody.new(chunks)`, when the runtime has the class. -/
  requestBody : Option (V → Except String V)
  concurrency : Concurrency
  extensions : Bool
  /-- `String::from_utf8_lossy`. -/
  lossy : Bytes → List Char

/-- What `build_env` reads of a request. -/
structure EnvRequest (V : Type) where
  method : List Char
  path : List Char
  body : Bytes
  bodyStream : Option V
  headers : List (List Char × Bytes)
  metadata : RequestMetadata
  context : Option V
  upstreams : Option V
  forceGc : Bool

/-- A value in the environment. -/
inductive EnvValue (V : Type)
  | text (s : List Char)
  /-- `str_from_slice`. -/
  | bytes (b : Bytes)
  | bool (b : Bool)
  | texts (l : List (List Char))
  | object (v : V)
  deriving DecidableEq

abbrev Env (V : Type) : Type := Hash (List Char) (EnvValue V)

structure EnvBuild (V : Type) where
  env : Env V
  input : V
  protocols : Option (List (List Char))
  streamingInput : Option V

/-- `INTERNED_KEYS`. -/
def internedKeys : List (List Char) :=
  ["CONTENT_LENGTH", "CONTENT_TYPE", "HTTP_ACCEPT", "HTTP_ACCEPT_ENCODING", "HTTP_ACCEPT_LANGUAGE",
    "HTTP_AUTHORIZATION", "HTTP_CACHE_CONTROL", "HTTP_CONNECTION", "HTTP_COOKIE", "HTTP_HOST",
    "HTTP_IF_MODIFIED_SINCE", "HTTP_IF_NONE_MATCH", "HTTP_ORIGIN", "HTTP_RANGE", "HTTP_REFERER",
    "HTTP_USER_AGENT", "HTTP_X_FORWARDED_FOR", "HTTP_X_FORWARDED_PROTO", "HTTP_X_REQUEST_ID",
    "PATH_INFO", "QUERY_STRING", "REMOTE_ADDR", "REQUEST_METHOD", "SCRIPT_NAME", "SERVER_NAME",
    "SERVER_PORT", "SERVER_PROTOCOL", "rack.errors", "rack.input", "rack.multiprocess",
    "rack.multithread", "rack.run_once", "rack.url_scheme", "ruvoy.context", "ruvoy.force_gc",
    "ruvoy.upstream"].map String.toList

section Build

variable {V : Type}

/-- `set`: under the interned key when there is one. -/
def set (env : Env V) (key : List Char) (value : EnvValue V) : Env V :=
  match internedKeys.find? (· = key) with
  | some interned => env.set interned value
  | none => env.set key value

/-- `set`, when there is a value. -/
def setIf (env : Env V) (key : List Char) : Option (EnvValue V) → Env V
  | some value => set env key value
  | none => env

/-- `eq_ignore_ascii_case`. -/
def eqIgnoreCase (a b : List Char) : Bool := a.map Char.toLower = b.map Char.toLower

/-- `env_header_key`: the key for a name, and the buffer it was made in. -/
def envHeaderKey (name key : List Char) : Option (List Char) × List Char :=
  if name.head? = some ':' then (none, key)
  else
    let key :=
      if eqIgnoreCase name "content-type".toList then "CONTENT_TYPE".toList
      else if eqIgnoreCase name "content-length".toList then "CONTENT_LENGTH".toList
      else "HTTP_".toList ++ name.map fun c => if c = '-' then '_' else c.toUpper
    (some key, key)

/-- One turn of the loop over the headers. -/
def copyRequestHeader (p : Env V × List Char) (header : List Char × Bytes) : Env V × List Char :=
  match envHeaderKey header.1 p.2 with
  | (some key, buffer) => (set p.1 key (.bytes header.2), buffer)
  | (none, buffer) => (p.1, buffer)

/-- `White_Space` of Unicode. -/
def isWhiteSpace (c : Char) : Bool :=
  let n := c.toNat
  (9 ≤ n && n ≤ 13) || n = 0x20 || n = 0x85 || n = 0xA0 || n = 0x1680 ||
    (0x2000 ≤ n && n ≤ 0x200A) || n = 0x2028 || n = 0x2029 || n = 0x202F || n = 0x205F || n = 0x3000

def trim (s : List Char) : List Char := (s.dropWhile isWhiteSpace).rdropWhile isWhiteSpace

/-- The tokens of the headers with a name. -/
def tokens (lossy : Bytes → List Char) (headers : List (List Char × Bytes)) (wanted : List Char) :
    List (List Char) :=
  (headers.filter fun h => eqIgnoreCase h.1 wanted).flatMap fun h =>
    (((lossy h.2).splitOn ',').map trim).filter (· ≠ [])

def upgradeProtocols (lossy : Bytes → List Char) (headers : List (List Char × Bytes)) :
    Option (List (List Char)) :=
  if (tokens lossy headers "connection".toList).any (eqIgnoreCase · "upgrade".toList) then
    match tokens lossy headers "upgrade".toList with
    | [] => none
    | protocols => some protocols
  else none

variable (ctx : CallContext V) (request : EnvRequest V)

/-- The protocols the client offered to upgrade to, where the runtime has extensions. -/
def protocols : Option (List (List Char)) :=
  if ctx.extensions then upgradeProtocols ctx.lossy request.headers else none

/-- What `build_env` sets before the headers. -/
def ownEntries : Env V :=
  let parts := (splitOnce '?' request.path).getD (request.path, [])
  let env := set Hash.empty "REQUEST_METHOD".toList (.text request.method)
  let env := set env "SCRIPT_NAME".toList (.text [])
  let env := set env "PATH_INFO".toList (.text parts.1)
  let env := set env "QUERY_STRING".toList (.text parts.2)
  let env := set env "SERVER_NAME".toList (.text request.metadata.serverName)
  let env := set env "SERVER_PORT".toList (.text (decimal request.metadata.serverPort))
  let env := set env "SERVER_PROTOCOL".toList (.text request.metadata.protocol)
  let env := set env "HTTP_HOST".toList (.text request.metadata.authority)
  let env := setIf env "REMOTE_ADDR".toList (request.metadata.remoteAddr.map .text)
  let env := set env "rack.url_scheme".toList (.text request.metadata.scheme)
  let env := set env "rack.errors".toList (.object ctx.rackErrors)
  let env := set env "rack.multithread".toList (.bool ctx.concurrency.multithread)
  let env := set env "rack.multiprocess".toList (.bool false)
  let env := set env "rack.run_once".toList (.bool false)
  let env := set env "ruvoy.force_gc".toList (.bool request.forceGc)
  let env := setIf env "ruvoy.context".toList
    ((request.context.filter fun _ => ctx.extensions).map .object)
  let env := setIf env "ruvoy.upstream".toList
    ((request.upstreams.filter fun _ => ctx.extensions).map .object)
  setIf env "rack.protocol".toList ((protocols ctx request).map .texts)

/-- `streaming_input`. -/
def streamingInput (handle : V) : Except BridgeError V :=
  match ctx.requestBody with
  | none => .error (.InvalidResponse "this runtime cannot serve a streaming request body")
  | some new => inContext "creating rack.input" (new handle)

/-- `collected_input`. -/
def collectedInput : Except BridgeError V := do
  let input ← inContext "creating rack.input StringIO" (ctx.stringIO request.body)
  inContext "setting rack.input binary mode" (ctx.binmode input)
  return input

/-- The input, and whether it is closed after the request. -/
def rackInput : Except BridgeError (V × Option V) :=
  match request.bodyStream with
  | some handle => (streamingInput ctx handle).map fun input => (input, some input)
  | none => (collectedInput ctx request).map fun input => (input, none)

/-- `build_env`. -/
def buildEnv : Except BridgeError (EnvBuild V) := do
  let p := request.headers.foldl copyRequestHeader (ownEntries ctx request, [])
  let (input, closedAfter) ← rackInput ctx request
  return {
    env := set p.1 "rack.input".toList (.object input)
    input
    protocols := protocols ctx request
    streamingInput := closedAfter }

end Build

/-! ## What the loop leaves -/

/-- The key of a name. -/
def headerKey (name : List Char) : Option (List Char) := (envHeaderKey name []).1

/-- The values that arrived under a key, in order. -/
def keyed (k : List Char) (headers : List (List Char × Bytes)) : List Bytes :=
  (headers.filter fun h => headerKey h.1 = some k).map Prod.snd

variable {V : Type} {env : Env V} {k : List Char} {headers : List (List Char × Bytes)}

theorem set_eq (env : Env V) (key : List Char) (value : EnvValue V) :
    set env key value = env.set key value := by
  unfold set
  cases h : internedKeys.find? (· = key) with
  | none => rfl
  | some interned =>
    have he := List.find?_some h
    rw [decide_eq_true_eq] at he
    rw [he]

/-- The buffer carries nothing from the header before. -/
theorem envHeaderKey_fst (name buffer : List Char) : (envHeaderKey name buffer).1 = headerKey name := by
  rw [headerKey, envHeaderKey, envHeaderKey]
  split_ifs <;> rfl

theorem copyRequestHeader_none {p : Env V × List Char} {h : List Char × Bytes}
    (hk : headerKey h.1 = none) : (copyRequestHeader p h).1 = p.1 := by
  have he : (envHeaderKey h.1 p.2).1 = none := by rw [envHeaderKey_fst, hk]
  unfold copyRequestHeader
  cases hr : envHeaderKey h.1 p.2 with
  | mk key buffer =>
    rw [hr] at he
    cases he
    rfl

theorem copyRequestHeader_some {p : Env V × List Char} {h : List Char × Bytes}
    (hk : headerKey h.1 = some k) : (copyRequestHeader p h).1 = p.1.set k (.bytes h.2) := by
  have he : (envHeaderKey h.1 p.2).1 = some k := by rw [envHeaderKey_fst, hk]
  unfold copyRequestHeader
  cases hr : envHeaderKey h.1 p.2 with
  | mk key buffer =>
    rw [hr] at he
    cases he
    exact set_eq _ _ _

/-- The environment after the loop over the headers. -/
def copied (env : Env V) (headers : List (List Char × Bytes)) : Env V :=
  (headers.foldl copyRequestHeader (env, [])).1

theorem copied_concat (env : Env V) (headers : List (List Char × Bytes)) (h : List Char × Bytes) :
    copied env (headers ++ [h]) =
      (copyRequestHeader (headers.foldl copyRequestHeader (env, [])) h).1 := by
  rw [copied, List.foldl_append]
  rfl

theorem keyed_concat_of_eq {h : List Char × Bytes} (hk : headerKey h.1 = some k) :
    keyed k (headers ++ [h]) = keyed k headers ++ [h.2] := by
  rw [keyed, List.filter_append, List.filter_cons_of_pos (by simpa using hk), List.map_append]
  rfl

theorem keyed_concat_of_ne {h : List Char × Bytes} (hk : headerKey h.1 ≠ some k) :
    keyed k (headers ++ [h]) = keyed k headers := by
  rw [keyed, List.filter_append, List.filter_cons_of_neg (by simpa using hk), List.map_append]
  exact List.append_nil _

/-- **An entry is the last value that arrived under its key**, or what it was before the loop. -/
theorem get_copied (env : Env V) (headers : List (List Char × Bytes)) (k : List Char) :
    (copied env headers).get k =
      (((keyed k headers).getLast?).map EnvValue.bytes).or (env.get k) := by
  induction headers using List.reverseRecOn with
  | nil => rfl
  | append_singleton headers h ih =>
    rw [copied_concat]
    by_cases hk : headerKey h.1 = some k
    · rw [copyRequestHeader_some hk, Hash.get_set_self, keyed_concat_of_eq hk, List.getLast?_concat]
      rfl
    · rw [keyed_concat_of_ne hk, ← ih]
      cases hj : headerKey h.1 with
      | none => rw [copyRequestHeader_none hj]; rfl
      | some j =>
        have hne : k ≠ j := fun he => hk (by rw [hj, he])
        rw [copyRequestHeader_some hj, Hash.get_set_of_ne _ _ hne]
        rfl

/-- The input has a key of its own. -/
theorem headerKey_ne_input {name : List Char} (h : headerKey name = some k) :
    k ≠ "rack.input".toList := by
  rw [headerKey, envHeaderKey] at h
  split_ifs at h <;> cases h <;> simp

/-! ## Values combined into one -/

/-- The values one after the other, with something between every two. -/
inductive Joins : List Bytes → Bytes → Prop
  | one (v : Bytes) : Joins [v] v
  | cons (v separator : Bytes) {vs : List Bytes} {b : Bytes} (hs : separator ≠ []) (h : Joins vs b) :
      Joins (v :: vs) (v ++ separator ++ b)

theorem Joins.length {vs : List Bytes} {b : Bytes} (h : Joins vs b) :
    (vs.map List.length).sum + vs.length ≤ b.length + 1 := by
  induction h with
  | one v => simp
  | cons v separator hs h ih =>
    have hpos : 0 < separator.length := List.length_pos_iff.mpr hs
    simp only [List.map_cons, List.sum_cons, List.length_cons, List.length_append]
    omega

theorem Joins.singleton {vs : List Bytes} {b : Bytes} (h : Joins vs b) (hb : b ∈ vs.getLast?) :
    vs = [b] := by
  obtain ⟨rest, rfl⟩ : ∃ rest, vs = rest ++ [b] := by
    rw [Option.mem_def, List.getLast?_eq_some_iff] at hb
    exact hb
  have hl := h.length
  rw [List.map_append, List.sum_append, List.length_append] at hl
  simp only [List.map_cons, List.map_nil, List.sum_cons, List.sum_nil, List.length_cons,
    List.length_nil] at hl
  have hnil : rest = [] := List.length_eq_zero_iff.mp (by omega)
  rw [hnil, List.nil_append]

/-- Every value that arrived under a key is in the entry of the key, in order and combined into one;
and an entry that no header has the key of is `build_env`'s own. -/
structure KeepsHeaders (headers : List (List Char × Bytes)) (own env : Env V) : Prop where
  combined : ∀ h ∈ headers, ∀ k, headerKey h.1 = some k →
    ∃ b, env.get k = some (.bytes b) ∧ Joins (keyed k headers) b
  others : ∀ k, (∀ h ∈ headers, headerKey h.1 ≠ some k) → env.get k = own.get k

/-- No two headers have the same key. -/
def DistinctKeys (headers : List (List Char × Bytes)) : Prop :=
  (headers.filterMap fun h => headerKey h.1).Nodup

instance (headers : List (List Char × Bytes)) : Decidable (DistinctKeys headers) :=
  inferInstanceAs (Decidable (headers.filterMap fun h => headerKey h.1).Nodup)

theorem keyed_length (k : List Char) (headers : List (List Char × Bytes)) :
    (keyed k headers).length = (headers.filterMap fun h => headerKey h.1).count k := by
  rw [keyed, List.length_map, List.count_filterMap, ← List.countP_eq_length_filter]
  refine List.countP_congr fun h _ => ?_
  rw [decide_eq_true_eq, beq_iff_eq]

theorem distinctKeys_iff : DistinctKeys headers ↔ ∀ k, (keyed k headers).length ≤ 1 := by
  rw [DistinctKeys, List.nodup_iff_count_le_one]
  exact forall_congr' fun k => by rw [keyed_length]

theorem mem_keyed {h : List Char × Bytes} (hm : h ∈ headers) (hk : headerKey h.1 = some k) :
    h.2 ∈ keyed k headers :=
  List.mem_map_of_mem (List.mem_filter.mpr ⟨hm, by simpa using hk⟩)

theorem keyed_eq_nil (h : ∀ h ∈ headers, headerKey h.1 ≠ some k) : keyed k headers = [] := by
  rw [keyed, List.map_eq_nil_iff, List.filter_eq_nil_iff]
  exact fun e he => by simpa using h e he

/-! ## When no header is lost -/

section Keeps

variable {base : Env V} {input : EnvValue V}

/-- The entry of a header's key, in the finished environment, is the last value of the key. -/
theorem get_header {b : Bytes} {n : List Char} (hk : headerKey n = some k)
    (hb : (keyed k headers).getLast? = some b) :
    ((copied base headers).set "rack.input".toList input).get k = some (.bytes b) := by
  rw [Hash.get_set_of_ne _ _ (headerKey_ne_input hk), get_copied, hb]
  rfl

theorem keepsHeaders_of_distinct (h : DistinctKeys headers) :
    KeepsHeaders headers (base.set "rack.input".toList input)
      ((copied base headers).set "rack.input".toList input) where
  combined e he k hk := by
    have hlen := distinctKeys_iff.mp h k
    have hmem := mem_keyed he hk
    cases hv : keyed k headers with
    | nil => rw [hv] at hmem; cases hmem
    | cons b rest =>
      have hrest : rest = [] := by
        rw [hv, List.length_cons] at hlen
        exact List.length_eq_zero_iff.mp (by omega)
      subst hrest
      exact ⟨b, get_header hk (by rw [hv]; rfl), .one b⟩
  others k hk := by
    by_cases hi : k = "rack.input".toList
    · rw [hi, Hash.get_set_self, Hash.get_set_self]
    · rw [Hash.get_set_of_ne _ _ hi, Hash.get_set_of_ne _ _ hi, get_copied, keyed_eq_nil hk]
      rfl

theorem distinct_of_keepsHeaders
    (h : KeepsHeaders headers (base.set "rack.input".toList input)
      ((copied base headers).set "rack.input".toList input)) : DistinctKeys headers := by
  rw [distinctKeys_iff]
  intro k
  cases hb : (keyed k headers).getLast? with
  | none =>
    rw [List.getLast?_eq_none_iff.mp hb]
    exact Nat.zero_le 1
  | some b =>
    obtain ⟨e, hf, -⟩ := List.mem_map.mp (List.mem_of_getLast? hb)
    obtain ⟨he, hk⟩ := List.mem_filter.mp hf
    rw [decide_eq_true_eq] at hk
    obtain ⟨b', hget, hjoin⟩ := h.combined e he k hk
    rw [get_header hk hb, Option.some.injEq, EnvValue.bytes.injEq] at hget
    subst hget
    rw [hjoin.singleton hb]
    exact Nat.le_refl 1

end Keeps

theorem buildEnv_env {ctx : CallContext V} {request : EnvRequest V} {build : EnvBuild V}
    (h : buildEnv ctx request = .ok build) :
    build.env = (copied (ownEntries ctx request) request.headers).set "rack.input".toList
      (.object build.input) := by
  unfold buildEnv at h
  cases hi : rackInput ctx request with
  | error e => rw [hi] at h; cases h
  | ok p =>
    rw [hi] at h
    cases h
    dsimp only
    rw [set_eq]
    rfl

/-- **No header is lost, and none touches an entry of another, exactly when no two have one key.** -/
theorem env_keeps_headers {ctx : CallContext V} {request : EnvRequest V} {build : EnvBuild V}
    (h : buildEnv ctx request = .ok build) :
    KeepsHeaders request.headers
      ((ownEntries ctx request).set "rack.input".toList (.object build.input)) build.env ↔
      DistinctKeys request.headers := by
  rw [buildEnv_env h]
  exact ⟨distinct_of_keepsHeaders, keepsHeaders_of_distinct⟩

/-- A runtime whose every object is `()`, and that reads headers as ASCII. -/
def plainContext : CallContext Unit where
  rackErrors := ()
  stringIO _ := .ok ()
  binmode _ := .ok ()
  requestBody := none
  concurrency := .Interleaved
  extensions := true
  lossy b := b.map fun byte => Char.ofNat byte.toNat

/-- A request for `/` with some headers. -/
def plainRequest (headers : List (List Char × Bytes)) : EnvRequest Unit where
  method := "GET".toList
  path := "/".toList
  body := []
  bodyStream := none
  headers
  metadata :=
    { authority := "a".toList
      scheme := "http".toList
      serverName := "a".toList
      serverPort := 80
      protocol := "HTTP/1.1".toList
      remoteAddr := none }
  context := none
  upstreams := none
  forceGc := false

theorem plain_built (headers : List (List Char × Bytes)) :
    ∃ build, buildEnv plainContext (plainRequest headers) = .ok build :=
  ⟨_, rfl⟩

/-- Two headers with keys of their own are kept. -/
theorem env_keeps_headers_two : ∃ build : EnvBuild Unit,
    buildEnv plainContext (plainRequest [("accept".toList, [42]), ("cookie".toList, [97])]) = .ok build ∧
      KeepsHeaders [("accept".toList, [42]), ("cookie".toList, [97])]
        ((ownEntries plainContext
          (plainRequest [("accept".toList, [42]), ("cookie".toList, [97])])).set
            "rack.input".toList (.object build.input)) build.env := by
  obtain ⟨build, h⟩ := plain_built [("accept".toList, [42]), ("cookie".toList, [97])]
  exact ⟨build, h, (env_keeps_headers h).mpr (by decide)⟩

/-- Of two headers with one name, `a` and `b`, only the second is in the environment. -/
theorem repeated_header_lost : ∃ build : EnvBuild Unit,
    buildEnv plainContext (plainRequest [("x-tag".toList, [97]), ("x-tag".toList, [98])]) = .ok build ∧
      build.env.get "HTTP_X_TAG".toList = some (.bytes [98]) ∧
      ¬ KeepsHeaders [("x-tag".toList, [97]), ("x-tag".toList, [98])]
        ((ownEntries plainContext
          (plainRequest [("x-tag".toList, [97]), ("x-tag".toList, [98])])).set
            "rack.input".toList (.object build.input)) build.env := by
  obtain ⟨build, h⟩ := plain_built [("x-tag".toList, [97]), ("x-tag".toList, [98])]
  refine ⟨build, h, ?_, ?_⟩
  · rw [buildEnv_env h]
    exact get_header (n := "x-tag".toList) rfl rfl
  · rw [buildEnv_env h]
    intro hkeeps
    exact absurd (distinct_of_keepsHeaders hkeeps) (by decide)

end Ruvoy.Request
