import Mathlib
import Ruvoy.Lib.Text

/-!
# Where a request says it was sent

`request_metadata` of the worker: the server's name and port, taken from the request's authority
and from what Envoy knows of the connection. `authority_host` and `authority_port` split the same
text on their own, the one for the first closing bracket and the other for the last colon.

* `authorityHost`, `authorityPort`: the two halves, with the slices that may fail;
* `Split`: the three forms of an authority, and what either function makes of each;
* **`authority_halves_agree`**: no slice fails, and the halves are of one text;
* `requestMetadata`, and what it says of a request for a host and a port.
-/

set_option autoImplicit false

namespace Ruvoy.Request

open Text

/-- `str::parse::<u16>`. -/
def parseU16 (s : List Char) : Option UInt16 := (parse 65535 s).map UInt16.ofNat

/-- `(!s.is_empty()).then_some(s)`. -/
def nonEmpty (s : List Char) : Option (List Char) := if s = [] then none else some s

/-- `authority_host`. -/
def authorityHost (authority : List Char) : Except SliceError (Option (List Char)) :=
  match stripPrefix '[' authority with
  | some rest =>
    match find ']' rest with
    | none => .ok none
    | some closing => (sliceTo authority (closing + 2)).map some
  | none =>
    match rsplitOnce ':' authority with
    | some (host, port) =>
      if ':' ∉ host ∧ (parseU16 port).isSome then .ok (nonEmpty host) else .ok (nonEmpty authority)
    | none => .ok (nonEmpty authority)

/-- `authority_port`. -/
def authorityPort (authority : List Char) : Except SliceError (Option UInt16) :=
  match stripPrefix '[' authority with
  | some rest =>
    match find ']' rest with
    | none => .ok none
    | some closing => (sliceFrom rest (closing + 1)).map fun s => (stripPrefix ':' s).bind parseU16
  | none =>
    match rsplitOnce ':' authority with
    | some (host, port) => .ok (if ':' ∉ host then parseU16 port else none)
    | none => .ok none

/-! ## The forms of an authority -/

/-- A bracketed literal with what follows it, an open bracket, or anything else. -/
inductive Split : List Char → Prop
  | bracketed (a b : List Char) (h : ']' ∉ a) : Split ('[' :: (a ++ ']' :: b))
  | unclosed (a : List Char) (h : ']' ∉ a) : Split ('[' :: a)
  | plain (s : List Char) (h : s.head? ≠ some '[') : Split s

theorem split_all (s : List Char) : Split s := by
  cases s with
  | nil => exact .plain [] (by rintro ⟨⟩)
  | cons c s =>
    by_cases hc : c = '['
    · subst hc
      by_cases hs : ']' ∈ s
      · obtain ⟨a, b, rfl, ha⟩ := List.eq_append_cons_of_mem hs
        exact .bracketed a b ha
      · exact .unclosed s hs
    · refine .plain (c :: s) fun h => hc ?_
      rwa [List.head?_cons, Option.some.injEq] at h

theorem stripPrefix_of_plain {c : Char} {s : List Char} (h : s.head? ≠ some c) :
    stripPrefix c s = none := by
  cases s with
  | nil => rfl
  | cons d s =>
    rw [List.head?_cons, ne_eq, Option.some.injEq] at h
    exact if_neg h

theorem authorityHost_bracketed {a : List Char} (h : ']' ∉ a) (b : List Char) :
    authorityHost ('[' :: (a ++ ']' :: b)) = .ok (some ('[' :: (a ++ [']']))) := by
  have hsize : size a + 2 = size ('[' :: (a ++ [']'])) := by
    rw [size, size_append, size, size]
    have h1 : '['.utf8Size = 1 := rfl
    have h2 : ']'.utf8Size = 1 := rfl
    omega
  have hslice : sliceTo ('[' :: (a ++ ']' :: b)) (size a + 2) = .ok ('[' :: (a ++ [']'])) := by
    rw [hsize, show '[' :: (a ++ ']' :: b) = ('[' :: (a ++ [']'])) ++ b by simp]
    exact sliceTo_size _ b
  simp only [authorityHost, stripPrefix, if_pos, find_append_cons h, hslice, Except.map]

theorem authorityPort_bracketed {a : List Char} (h : ']' ∉ a) (b : List Char) :
    authorityPort ('[' :: (a ++ ']' :: b)) = .ok ((stripPrefix ':' b).bind parseU16) := by
  have hsize : size a + 1 = size (a ++ [']']) := by
    rw [size_append]
    rfl
  have hslice : sliceFrom (a ++ ']' :: b) (size a + 1) = .ok b := by
    rw [hsize, show a ++ ']' :: b = (a ++ [']']) ++ b by simp]
    exact sliceFrom_size _ b
  simp only [authorityPort, stripPrefix, if_pos, find_append_cons h, hslice, Except.map]

theorem authorityHost_unclosed {a : List Char} (h : ']' ∉ a) : authorityHost ('[' :: a) = .ok none := by
  simp only [authorityHost, stripPrefix, if_pos, find_of_notMem h]

theorem authorityPort_unclosed {a : List Char} (h : ']' ∉ a) : authorityPort ('[' :: a) = .ok none := by
  simp only [authorityPort, stripPrefix, if_pos, find_of_notMem h]

/-- With one colon and a number behind it, a text without a bracket is a host and a port. -/
theorem authority_hostPort {host port : List Char} (hb : (host ++ ':' :: port).head? ≠ some '[')
    (hh : ':' ∉ host) (hport : ':' ∉ port) {p : UInt16} (hp : parseU16 port = some p) :
    authorityHost (host ++ ':' :: port) = .ok (nonEmpty host) ∧
      authorityPort (host ++ ':' :: port) = .ok (some p) := by
  have hsplit : rsplitOnce ':' (host ++ ':' :: port) = some (host, port) :=
    rsplitOnce_append_cons hport host
  have hsome : (parseU16 port).isSome = true := by rw [hp]; rfl
  refine ⟨?_, ?_⟩
  · simp only [authorityHost, stripPrefix_of_plain hb, hsplit]
    exact if_pos ⟨hh, hsome⟩
  · simp only [authorityPort, stripPrefix_of_plain hb, hsplit, if_pos hh, hp]

theorem authority_plain {s : List Char} (hb : s.head? ≠ some '[') :
    (∃ host port p, s = host ++ ':' :: port ∧ ':' ∉ host ∧ ':' ∉ port ∧ parseU16 port = some p) ∨
      authorityHost s = .ok (nonEmpty s) ∧ authorityPort s = .ok none := by
  by_cases hs : ':' ∈ s
  · obtain ⟨host, port, rfl, hport⟩ := exists_last hs
    have hsplit : rsplitOnce ':' (host ++ ':' :: port) = some (host, port) :=
      rsplitOnce_append_cons hport host
    simp only [authorityHost, authorityPort, stripPrefix_of_plain hb, hsplit]
    by_cases hh : ':' ∈ host
    · exact Or.inr ⟨if_neg fun h => h.1 hh, by rw [if_neg (not_not_intro hh)]⟩
    · cases hp : parseU16 port with
      | none => exact Or.inr ⟨if_neg fun h => by simp at h, by rw [if_pos hh]⟩
      | some p => exact Or.inl ⟨host, port, p, rfl, hh, hport, hp⟩
  · refine Or.inr ⟨?_, ?_⟩
    · simp only [authorityHost, stripPrefix_of_plain hb, rsplitOnce_of_notMem hs]
    · simp only [authorityPort, stripPrefix_of_plain hb, rsplitOnce_of_notMem hs]

/-! ## The two halves together -/

/-- No slice is out of range or inside a character. -/
theorem authority_total (authority : List Char) :
    ∃ host port, authorityHost authority = .ok host ∧ authorityPort authority = .ok port := by
  cases split_all authority with
  | bracketed a b h => exact ⟨_, _, authorityHost_bracketed h b, authorityPort_bracketed h b⟩
  | unclosed a h => exact ⟨_, _, authorityHost_unclosed h, authorityPort_unclosed h⟩
  | plain _ hb =>
    rcases authority_plain hb with ⟨host, port, p, rfl, hh, hport, hp⟩ | ⟨h₁, h₂⟩
    · exact ⟨_, _, authority_hostPort hb hh hport hp⟩
    · exact ⟨_, _, h₁, h₂⟩

theorem nonEmpty_of_ne {s : List Char} (h : s ≠ []) : nonEmpty s = some s := if_neg h

theorem nonEmpty_cases (s : List Char) : nonEmpty s = some s ∨ s = [] ∧ nonEmpty s = none := by
  by_cases h : s = []
  · exact Or.inr ⟨h, if_pos h⟩
  · exact Or.inl (nonEmpty_of_ne h)

/-- A port is a number behind a colon, and the host is what stands before the colon. -/
theorem host_before_port {authority : List Char} {p : UInt16}
    (h : authorityPort authority = .ok (some p)) :
    ∃ host text, authority = host ++ ':' :: text ∧ parseU16 text = some p ∧
      (authorityHost authority = .ok (some host) ∨ host = [] ∧ authorityHost authority = .ok none) := by
  cases split_all authority with
  | bracketed a b ha =>
    rw [authorityPort_bracketed ha, Except.ok.injEq, Option.bind_eq_some_iff] at h
    obtain ⟨text, hb, hp⟩ := h
    obtain rfl : b = ':' :: text := by
      cases b with
      | nil => cases hb
      | cons c b =>
        rw [stripPrefix] at hb
        split_ifs at hb with hc
        rw [hc, Option.some.inj hb]
    exact ⟨'[' :: (a ++ [']']), text, by simp, hp, Or.inl (authorityHost_bracketed ha _)⟩
  | unclosed a ha =>
    rw [authorityPort_unclosed ha] at h
    cases h
  | plain _ hb =>
    rcases authority_plain hb with ⟨host, port, q, rfl, hh, hport, hq⟩ | ⟨-, hnone⟩
    · obtain ⟨h₁, h₂⟩ := authority_hostPort hb hh hport hq
      rw [h₂, Except.ok.injEq, Option.some.injEq] at h
      refine ⟨host, port, rfl, h ▸ hq, ?_⟩
      rw [h₁]
      rcases nonEmpty_cases host with hn | ⟨rfl, hn⟩
      · exact Or.inl (by rw [hn])
      · exact Or.inr ⟨rfl, by rw [hn]⟩
    · rw [hnone] at h
      cases h

/-- Without a port, a text that is not bracketed is a host. -/
theorem host_without_port {authority : List Char} (h : authorityPort authority = .ok none)
    (hb : authority.head? ≠ some '[') : authorityHost authority = .ok (nonEmpty authority) := by
  rcases authority_plain hb with ⟨host, port, q, rfl, hh, hport, hq⟩ | ⟨h₁, -⟩
  · rw [(authority_hostPort hb hh hport hq).2] at h
    cases h
  · exact h₁

/-! ## What was put together is taken apart -/

/-- A port in decimal. -/
def decimal (p : UInt16) : List Char := Nat.toDigits 10 p.toNat

theorem parseU16_decimal (p : UInt16) : parseU16 (decimal p) = some p := by
  have hle : p.toNat ≤ 65535 := Nat.le_of_lt_succ p.toNat_lt
  rw [parseU16, decimal, parse_toDigits hle]
  exact congrArg some UInt16.ofNat_toNat

theorem colon_notMem_decimal (p : UInt16) : ':' ∉ decimal p := by
  intro h
  exact absurd (Nat.isDigit_of_mem_toDigits (by decide) (by decide) h) (by decide)

theorem hostPort_decimal {host : List Char} (hne : host ≠ []) (hh : ':' ∉ host)
    (hb : host.head? ≠ some '[') (p : UInt16) :
    authorityHost (host ++ ':' :: decimal p) = .ok (some host) ∧
      authorityPort (host ++ ':' :: decimal p) = .ok (some p) := by
  have hb' : (host ++ ':' :: decimal p).head? ≠ some '[' := by
    cases host with
    | nil => exact absurd rfl hne
    | cons c host => exact hb
  rw [← nonEmpty_of_ne hne]
  exact authority_hostPort hb' hh (colon_notMem_decimal p) (parseU16_decimal p)

theorem bracketed_decimal {a : List Char} (h : ']' ∉ a) (p : UInt16) :
    authorityHost ('[' :: (a ++ ']' :: ':' :: decimal p)) = .ok (some ('[' :: (a ++ [']']))) ∧
      authorityPort ('[' :: (a ++ ']' :: ':' :: decimal p)) = .ok (some p) := by
  refine ⟨authorityHost_bracketed h _, ?_⟩
  rw [authorityPort_bracketed h]
  exact congrArg Except.ok (parseU16_decimal p)

/-- **The two halves are of one text**: no slice fails; a port is a number behind a colon and the host
what stands before it; without a port the host is the bracketed literal, nothing, or the whole text;
and a host with a port put behind it is taken apart again. -/
theorem authority_halves_agree (authority : List Char) :
    ∃ host port, authorityHost authority = .ok host ∧ authorityPort authority = .ok port ∧
      (∀ p, port = some p → ∃ h text, authority = h ++ ':' :: text ∧ parseU16 text = some p ∧
        (host = some h ∨ h = [] ∧ host = none)) ∧
      (port = none →
        (∀ a b, authority = '[' :: (a ++ ']' :: b) → ']' ∉ a → host = some ('[' :: (a ++ [']']))) ∧
        (∀ a, authority = '[' :: a → ']' ∉ a → host = none) ∧
        (authority = [] → host = none) ∧
        (authority ≠ [] → authority.head? ≠ some '[' → host = some authority)) ∧
      (∀ h p, h ≠ [] → ':' ∉ h → h.head? ≠ some '[' → authority = h ++ ':' :: decimal p →
        host = some h ∧ port = some p) ∧
      (∀ a p, ']' ∉ a → authority = '[' :: (a ++ ']' :: ':' :: decimal p) →
        host = some ('[' :: (a ++ [']'])) ∧ port = some p) := by
  obtain ⟨host, port, h₁, h₂⟩ := authority_total authority
  refine ⟨host, port, h₁, h₂, ?_, ?_, ?_, ?_⟩
  · rintro p rfl
    obtain ⟨h, text, he, hp, hhost⟩ := host_before_port h₂
    refine ⟨h, text, he, hp, ?_⟩
    rw [h₁, Except.ok.injEq, Except.ok.injEq] at hhost
    exact hhost
  · rintro rfl
    refine ⟨?_, ?_, ?_, ?_⟩
    · rintro a b rfl ha
      rw [authorityHost_bracketed ha, Except.ok.injEq] at h₁
      exact h₁.symm
    · rintro a rfl ha
      rw [authorityHost_unclosed ha, Except.ok.injEq] at h₁
      exact h₁.symm
    · rintro rfl
      exact (Except.ok.inj h₁).symm
    · intro hne hb
      rw [host_without_port h₂ hb, nonEmpty_of_ne hne, Except.ok.injEq] at h₁
      exact h₁.symm
  · rintro h p hne hh hb rfl
    obtain ⟨e₁, e₂⟩ := hostPort_decimal hne hh hb p
    rw [e₁, Except.ok.injEq] at h₁
    rw [e₂, Except.ok.injEq] at h₂
    exact ⟨h₁.symm, h₂.symm⟩
  · rintro a p ha rfl
    obtain ⟨e₁, e₂⟩ := bracketed_decimal ha p
    rw [e₁, Except.ok.injEq] at h₁
    rw [e₂, Except.ok.injEq] at h₂
    exact ⟨h₁.symm, h₂.symm⟩

example : authorityHost "[::1]:18083".toList = .ok (some "[::1]".toList) := by rfl

example : authorityPort "[::1]:18083".toList = .ok (some 18083) := by rfl

/-! ## The metadata of a request -/

/-- What the worker asks Envoy about a request: its attributes, and the `:authority` header. -/
structure Attributes where
  requestScheme : Option (List Char)
  requestHost : Option (List Char)
  requestProtocol : Option (List Char)
  destinationAddress : Option (List Char)
  destinationPort : Option ℤ
  sourceAddress : Option (List Char)
  authorityHeader : Option (List Char)

structure RequestMetadata where
  authority : List Char
  scheme : List Char
  serverName : List Char
  serverPort : UInt16
  protocol : List Char
  remoteAddr : Option (List Char)
  deriving DecidableEq

/-- A request is refused with a message, or a slice fails. -/
inductive Failure
  | invalidRequest (message : String)
  | slice (e : SliceError)
  deriving DecidableEq, Repr

/-- `attribute_string`: an empty attribute is none. -/
def attributeString (a : Option (List Char)) : Option (List Char) := a.bind nonEmpty

/-- `u16::try_from` of an `i64`. -/
def portOfInt (n : ℤ) : Option UInt16 :=
  if 0 ≤ n ∧ n ≤ 65535 then some (UInt16.ofNat n.toNat) else none

def defaultPort (scheme : List Char) : Option UInt16 :=
  if scheme = "http".toList ∨ scheme = "ws".toList then some 80
  else if scheme = "https".toList ∨ scheme = "wss".toList then some 443
  else none

/-- `ok_or(InvalidRequest(message))`. -/
def orInvalid {α : Type} (message : String) : Option α → Except Failure α
  | some a => .ok a
  | none => .error (.invalidRequest message)

/-- The host of an address that may be missing. -/
def hostOf : Option (List Char) → Except Failure (Option (List Char))
  | none => .ok none
  | some address => (authorityHost address).mapError .slice

/-- `host.or_else(|| address.and_then(authority_host))`. -/
def orHostOf (host address : Option (List Char)) : Except Failure (Option (List Char)) :=
  match host with
  | some h => .ok (some h)
  | none => hostOf address

/-- `request_metadata`. -/
def requestMetadata (r : Attributes) : Except Failure RequestMetadata := do
  let scheme ← orInvalid "missing request scheme" (attributeString r.requestScheme)
  let authority ← orInvalid "missing request authority"
    ((attributeString r.requestHost).or r.authorityHeader)
  let protocol ← orInvalid "missing request protocol" (attributeString r.requestProtocol)
  let host ← hostOf (some authority)
  let host ← orHostOf host (attributeString r.destinationAddress)
  let serverName ← orInvalid "invalid request authority" host
  let port ← (authorityPort authority).mapError .slice
  let serverPort ← orInvalid "missing destination port"
    (((r.destinationPort.bind portOfInt).or port).or (defaultPort scheme))
  let remoteAddr ← hostOf (attributeString r.sourceAddress)
  return { authority, scheme, serverName, serverPort, protocol, remoteAddr }

theorem authorityHost_ne_nil {s h : List Char} (hs : authorityHost s = .ok (some h)) : h ≠ [] := by
  have hne : ∀ s' : List Char, nonEmpty s' = some h → h ≠ [] := by
    intro s' he
    rw [nonEmpty] at he
    split_ifs at he with hs'
    rwa [← Option.some.inj he]
  cases split_all s with
  | bracketed a b ha =>
    rw [authorityHost_bracketed ha, Except.ok.injEq, Option.some.injEq] at hs
    rw [← hs]
    exact List.cons_ne_nil _ _
  | unclosed a ha =>
    rw [authorityHost_unclosed ha] at hs
    cases hs
  | plain _ hb =>
    rcases authority_plain hb with ⟨host, port, q, rfl, hh, hport, hq⟩ | ⟨h₁, -⟩
    · rw [(authority_hostPort hb hh hport hq).1, Except.ok.injEq] at hs
      exact hne host hs
    · rw [h₁, Except.ok.injEq] at hs
      exact hne s hs

/-- A result with a property, or a refusal with a message; never a failed slice. -/
def Answers {α : Type} (P : α → Prop) (x : Except Failure α) : Prop :=
  (∃ a, x = .ok a ∧ P a) ∨ ∃ message, x = .error (.invalidRequest message)

theorem Answers.bind {α β : Type} {P : α → Prop} {Q : β → Prop} {x : Except Failure α}
    {f : α → Except Failure β} (hx : Answers P x) (hf : ∀ a, P a → Answers Q (f a)) :
    Answers Q (x >>= f) := by
  rcases hx with ⟨a, rfl, ha⟩ | ⟨message, rfl⟩
  · exact hf a ha
  · exact Or.inr ⟨message, rfl⟩

theorem orInvalid_answers {α : Type} (message : String) (o : Option α) :
    Answers (fun a => o = some a) (orInvalid message o) := by
  cases o with
  | none => exact Or.inr ⟨message, rfl⟩
  | some a => exact Or.inl ⟨a, rfl, rfl⟩

theorem hostOf_answers (a : Option (List Char)) :
    Answers (fun host => ∀ h, host = some h → h ≠ []) (hostOf a) := by
  cases a with
  | none => exact Or.inl ⟨none, rfl, fun _ h => by cases h⟩
  | some address =>
    obtain ⟨host, -, h₁, -⟩ := authority_total address
    refine Or.inl ⟨host, by rw [hostOf, h₁]; rfl, ?_⟩
    rintro h rfl
    exact authorityHost_ne_nil h₁

theorem orHostOf_answers {host : Option (List Char)} (hhost : ∀ h, host = some h → h ≠ [])
    (address : Option (List Char)) :
    Answers (fun host => ∀ h, host = some h → h ≠ []) (orHostOf host address) := by
  cases host with
  | none => exact hostOf_answers address
  | some h => exact Or.inl ⟨some h, rfl, hhost⟩

theorem port_answers (authority : List Char) :
    Answers (fun _ => True) ((authorityPort authority).mapError Failure.slice) := by
  obtain ⟨-, port, -, h₂⟩ := authority_total authority
  exact Or.inl ⟨port, by rw [h₂]; rfl, trivial⟩

/-- **A request has a name for its server and a port, or is refused with a message.** -/
theorem requestMetadata_answers (r : Attributes) :
    Answers (fun m => m.serverName ≠ [] ∧ ∀ a, m.remoteAddr = some a → a ≠ []) (requestMetadata r) := by
  refine (orInvalid_answers _ _).bind fun scheme _ => ?_
  refine (orInvalid_answers _ _).bind fun authority _ => ?_
  refine (orInvalid_answers _ _).bind fun protocol _ => ?_
  refine (hostOf_answers _).bind fun host hhost => ?_
  refine (orHostOf_answers hhost _).bind fun host hhost => ?_
  refine (orInvalid_answers _ _).bind fun serverName hname => ?_
  refine (port_answers authority).bind fun port _ => ?_
  refine (orInvalid_answers _ _).bind fun serverPort _ => ?_
  refine (hostOf_answers _).bind fun remoteAddr hremote => ?_
  exact Or.inl ⟨_, rfl, hhost serverName hname, hremote⟩

end Ruvoy.Request
