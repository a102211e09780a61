import Ruvoy.Streamed.Body

/-!
# The fields a call goes out with

`Upstream#fields` of `ruby/upstream.rb` and `with_trace` of the worker, for calls and for streams.

* `RubyText.Downcases`: what is relied on of Ruby's `downcase`;
* `appFields`, `own`, `hostOf`: what is sent of the application's headers;
* `fields_ok_iff`: which calls are made, and with which fields;
* **`call_fields`**: the pseudo-headers first, one host, every header under its lower-case name with all
  of its values in order, and of the request's trace context what the application did not set.
-/

set_option autoImplicit false

namespace Ruvoy.Streamed.Body

open Upstream

variable {text : RubyText} {cluster method path name host : String}
  {headers : List (String × HeaderValue)} {body : Option Bytes} {fs gs : Fields}

/-! ## Names -/

theorem startsWith_false_iff {s p : String} : s.startsWith p = false ↔ ¬ p.toList <+: s.toList := by
  rw [← Bool.not_eq_true, String.startsWith_string_iff]

/-- `String#downcase` maps the capital letters of an ASCII text, and has nothing to do on what it gave. -/
structure RubyText.Downcases (text : RubyText) : Prop where
  ascii : ∀ s : String, s.toList.all (·.toNat < 128) → text.downcase s = s.toLower
  idempotent : ∀ s, text.downcase (text.downcase s) = text.downcase s

theorem toLower_eq_self {s : String} (h : s.toList.map Char.toLower = s.toList) : s.toLower = s := by
  rw [← String.toList_inj, String.toLower, String.toList_map, h]

theorem toLower_toLower (s : String) : s.toLower.toLower = s.toLower := by
  apply toLower_eq_self
  rw [String.toLower, String.toList_map, List.map_map]
  exact List.map_congr_left fun c _ => Char.toLower_toLower_eq_toLower c

theorem asciiText_downcases : asciiText.Downcases := ⟨fun _ _ => rfl, toLower_toLower⟩

/-- The name of a field that is no pseudo-header, as it is sent. -/
def Plain (text : RubyText) (name : String) : Prop :=
  name.startsWith ":" = false ∧ text.downcase name = name

/-- A name of the code's own. -/
def PlainAscii (name : String) : Prop :=
  ¬ ":".toList <+: name.toList ∧ name.toList.all (·.toNat < 128) ∧
    name.toList.map Char.toLower = name.toList

instance (name : String) : Decidable (PlainAscii name) := inferInstanceAs (Decidable (_ ∧ _ ∧ _))

theorem PlainAscii.plain (hd : text.Downcases) (h : PlainAscii name) : Plain text name :=
  ⟨startsWith_false_iff.mpr h.1, (hd.ascii name h.2.1).trans (toLower_eq_self h.2.2)⟩

theorem plain_host (hd : text.Downcases) : Plain text "host" := PlainAscii.plain hd (by decide)

theorem plain_contentLength (hd : text.Downcases) : Plain text "content-length" :=
  PlainAscii.plain hd (by decide)

theorem plain_trace (hd : text.Downcases) (h : name ∈ traceHeaders) : Plain text name := by
  simp only [traceHeaders, List.mem_cons, List.not_mem_nil, or_false] at h
  rcases h with rfl | rfl | rfl | rfl | rfl | rfl | rfl | rfl | rfl <;>
    exact PlainAscii.plain hd (by decide)

/-! ## Values -/

/-- The values under a name, in order. -/
def values (fs : Fields) (name : String) : List Bytes := (fs.filter (·.1 == name)).map Prod.snd

theorem values_append : values (fs ++ gs) name = values fs name ++ values gs name := by
  rw [values, List.filter_append, List.map_append]
  rfl

theorem values_cons (f : String × Bytes) :
    values (f :: fs) name = (if f.1 = name then [f.2] else []) ++ values fs name := by
  by_cases h : f.1 = name <;> simp [values, h]

@[simp] theorem values_nil : values [] name = [] := rfl

theorem values_eq_nil_iff : values fs name = [] ↔ ∀ f ∈ fs, f.1 ≠ name := by
  simp [values, List.filter_eq_nil_iff]

theorem values_map {vs : List String} {under : String} :
    values (vs.map fun v => (under, utf8 v)) name = if under = name then vs.map utf8 else [] := by
  induction vs with
  | nil => simp
  | cons v vs ih =>
    rw [List.map_cons, values_cons, ih]
    by_cases h : under = name <;> simp [h]

/-- The fields of the application's headers. -/
def appFields (text : RubyText) (headers : List (String × HeaderValue)) : Fields :=
  headers.flatMap fun h =>
    if text.downcase h.1 = "host" then []
    else h.2.elements.map fun element => (text.downcase h.1, utf8 element)

/-- The values of the application's headers of a name. -/
def own (text : RubyText) (headers : List (String × HeaderValue)) (name : String) : List Bytes :=
  headers.flatMap fun h => if text.downcase h.1 = name then h.2.elements.map utf8 else []

/-- The last host that is given, or the cluster. -/
def hostOf (text : RubyText) (cluster : String) (headers : List (String × HeaderValue)) : String :=
  headers.foldl (fun host h => if text.downcase h.1 = "host" then h.2.text else host) cluster

theorem values_appFields (h : name ≠ "host") :
    values (appFields text headers) name = own text headers name := by
  induction headers with
  | nil => rfl
  | cons header headers ih =>
    have hcons : appFields text (header :: headers) = (if text.downcase header.1 = "host" then [] else
        header.2.elements.map fun element => (text.downcase header.1, utf8 element)) ++
          appFields text headers := rfl
    have hown : own text (header :: headers) name = (if text.downcase header.1 = name then
        header.2.elements.map utf8 else []) ++ own text headers name := rfl
    rw [hcons, hown, values_append, ih]
    by_cases hhost : text.downcase header.1 = "host"
    · rw [if_pos hhost, if_neg (by rw [hhost]; exact h.symm)]
      rfl
    · rw [if_neg hhost, values_map]

theorem appFields_names (hd : text.Downcases)
    (hall : ∀ h ∈ headers, (text.downcase h.1).startsWith ":" = false) {f : String × Bytes}
    (hf : f ∈ appFields text headers) : Plain text f.1 ∧ f.1 ≠ "host" := by
  obtain ⟨h, hh, hf⟩ := List.mem_flatMap.mp hf
  split at hf
  · cases hf
  · rename_i hhost
    obtain ⟨element, -, rfl⟩ := List.mem_map.mp hf
    exact ⟨⟨hall h hh, hd.idempotent h.1⟩, hhost⟩

/-! ## The fields of a call -/

/-- The loop over the headers refuses pseudo-headers, and nothing else. -/
theorem addHeaders_ok_iff {r : String × Fields} :
    addHeaders text headers (host, fs) = .ok r ↔
      (∀ h ∈ headers, (text.downcase h.1).startsWith ":" = false) ∧
        r = (hostOf text host headers, fs ++ appFields text headers) := by
  induction headers generalizing host fs with
  | nil =>
    simp only [addHeaders, Except.ok.injEq, hostOf, appFields, List.foldl_nil, List.flatMap_nil, List.append_nil]
    constructor
    · rintro rfl
      exact ⟨by simp, rfl⟩
    · rintro ⟨-, rfl⟩
      rfl
  | cons header headers ih =>
    obtain ⟨name, value⟩ := header
    simp only [addHeaders, List.forall_mem_cons]
    split_ifs with hcolon hhost
    · constructor
      · rintro ⟨⟩
      · rintro ⟨⟨hnot, -⟩, -⟩
        rw [hcolon] at hnot
        cases hnot
    · rw [ih]
      simp only [hostOf, appFields, List.foldl_cons, List.flatMap_cons, if_pos hhost, List.nil_append]
      exact ⟨fun h => ⟨⟨Bool.not_eq_true _ ▸ hcolon, h.1⟩, h.2⟩, fun h => ⟨h.1.2, h.2⟩⟩
    · rw [ih]
      simp only [hostOf, appFields, List.foldl_cons, List.flatMap_cons, if_neg hhost, List.append_assoc]
      exact ⟨fun h => ⟨⟨Bool.not_eq_true _ ▸ hcolon, h.1⟩, h.2⟩, fun h => ⟨h.1.2, h.2⟩⟩

/-- The length of a body whose headers have none. -/
def lengthOf (text : RubyText) (headers : List (String × HeaderValue)) (body : Option Bytes) : Fields :=
  if own text headers "content-length" = [] then
    (body.map fun bytes => ("content-length", utf8 (toString bytes.length))).toList
  else []

/-- **Which calls are made, and with which fields.** -/
theorem fields_ok_iff :
    fields text cluster method path headers body = .ok fs ↔
      method.isEmpty = false ∧ path.startsWith "/" = true ∧
      (∀ h ∈ headers, (text.downcase h.1).startsWith ":" = false) ∧
      fs = (":method", utf8 (text.upcase method)) :: (":path", utf8 path) ::
        (appFields text headers ++ lengthOf text headers body ++
          [("host", utf8 (hostOf text cluster headers))]) := by
  have hall : (":method", utf8 (text.upcase method)) :: (":path", utf8 path) :: appFields text headers =
      [(":method", utf8 (text.upcase method)), (":path", utf8 path)] ++ appFields text headers := rfl
  have hlength : (([(":method", utf8 (text.upcase method)), (":path", utf8 path)] ++
      appFields text headers).all (·.1 != "content-length") = true) ↔ own text headers "content-length" = [] := by
    rw [← values_appFields (by decide), values_eq_nil_iff]
    simp only [List.all_append, List.all_cons, List.all_nil, Bool.and_eq_true, List.all_eq_true,
      bne_iff_ne, Bool.and_true]
    exact ⟨fun h => h.2, fun h => ⟨by decide, h⟩⟩
  unfold fields
  split_ifs with hmethod hpath
  · simp [hmethod]
  · simp only [Bool.not_eq_true'] at hpath
    simp [hpath]
  · cases ha : addHeaders text headers
        (cluster, [(":method", utf8 (text.upcase method)), (":path", utf8 path)]) with
    | error message =>
      constructor
      · rintro ⟨⟩
      · rintro ⟨-, -, hnames, -⟩
        rw [addHeaders_ok_iff.mpr ⟨hnames, rfl⟩] at ha
        cases ha
    | ok r =>
      obtain ⟨hnames, rfl⟩ := addHeaders_ok_iff.mp ha
      have hend : ∀ length : Fields, length = lengthOf text headers body →
          [(":method", utf8 (text.upcase method)), (":path", utf8 path)] ++ appFields text headers ++
            length ++ [("host", utf8 (hostOf text cluster headers))] =
          (":method", utf8 (text.upcase method)) :: (":path", utf8 path) ::
            (appFields text headers ++ lengthOf text headers body ++
              [("host", utf8 (hostOf text cluster headers))]) := by
        rintro _ rfl
        simp
      simp only [Except.map, Except.ok.injEq]
      rw [hend]
      · simp only [Bool.not_eq_true'] at hmethod hpath
        exact ⟨fun h => ⟨by simpa using hmethod, by simpa using hpath, hnames, h.symm⟩, fun h => h.2.2.2.symm⟩
      · unfold lengthOf
        cases body with
        | none => simp
        | some bytes =>
          by_cases hown : own text headers "content-length" = []
          · simp only [hlength.mpr hown, if_true, if_pos hown]
            rfl
          · rw [if_neg hown]
            exact if_neg (fun h => hown (hlength.mp h))

/-! ## The trace context -/

theorem values_filter (q : String → Bool) :
    values (fs.filter fun f => q f.1) name = if q name then values fs name else [] := by
  induction fs with
  | nil => simp
  | cons f fs ih =>
    rw [List.filter_cons]
    by_cases hq : q f.1 = true
    · rw [if_pos hq, values_cons, ih, values_cons]
      by_cases hf : f.1 = name
      · rw [← hf, if_pos hq, if_pos hq]
      · rw [if_neg hf, List.nil_append, List.nil_append]
    · rw [if_neg hq, ih, values_cons]
      by_cases hf : f.1 = name
      · rw [← hf, if_neg hq, if_neg hq]
      · rw [if_neg hf, List.nil_append]

theorem values_filterMap {names : List String} (hn : names.Nodup) (f : String → Option Bytes) :
    values (names.filterMap fun n => (f n).map fun v => (n, v)) name =
      if name ∈ names then (f name).toList else [] := by
  induction names with
  | nil => rfl
  | cons n names ih =>
    obtain ⟨hnot, hn⟩ := List.nodup_cons.mp hn
    have hcons : values ((n :: names).filterMap fun n => (f n).map fun v => (n, v)) name =
        (if n = name then (f n).toList else []) ++
          values (names.filterMap fun n => (f n).map fun v => (n, v)) name := by
      rw [List.filterMap_cons]
      cases f n with
      | none => simp
      | some v => simp [values_cons]
    rw [hcons, ih hn]
    by_cases hname : n = name
    · rw [if_pos hname, ← hname, if_neg hnot, if_pos List.mem_cons_self, List.append_nil]
    · rw [if_neg hname, List.nil_append]
      simp [Ne.symm hname]

theorem values_readTrace (up : Upstream.State) :
    values up.readTrace name = if name ∈ traceHeaders then (up.config.requestHeader name).toList else [] :=
  values_filterMap (by decide) _

theorem trace_ne (h : name ∈ traceHeaders) :
    ":method" ≠ name ∧ ":path" ≠ name ∧ name ≠ "host" ∧ name ≠ "content-length" := by
  have hall : ∀ name ∈ traceHeaders,
      ":method" ≠ name ∧ ":path" ≠ name ∧ name ≠ "host" ∧ name ≠ "content-length" := by decide
  exact hall name h

/-- What is left of other fields where a call has its own. -/
theorem values_filter_own (others : Fields) :
    values (others.filter fun f => !fs.any (·.1 == f.1)) name =
      if values fs name = [] then values others name else [] := by
  have hany : (!fs.any (·.1 == name)) = true ↔ values fs name = [] := by simp [values_eq_nil_iff]
  rw [values_filter fun n => !fs.any (·.1 == n)]
  simp only [hany]

/-! ## What goes out -/

/-- The values that a call goes out with under a name. -/
def sent (text : RubyText) (cluster : String) (headers : List (String × HeaderValue))
    (body : Option Bytes) (up : Upstream.State) (name : String) : List Bytes :=
  if name = "host" then [utf8 (hostOf text cluster headers)]
  else if own text headers name ≠ [] then own text headers name
  else if name = "content-length" then (body.map fun bytes => utf8 (toString bytes.length)).toList
  else if name ∈ traceHeaders then (up.config.requestHeader name).toList
  else []

theorem values_lengthOf :
    values (lengthOf text headers body) name =
      if name = "content-length" ∧ own text headers name = [] then
        (body.map fun bytes => utf8 (toString bytes.length)).toList
      else [] := by
  unfold lengthOf
  by_cases hown : own text headers "content-length" = []
  · rw [if_pos hown]
    by_cases hname : name = "content-length"
    · subst hname
      cases body <;> simp [values_cons, hown]
    · cases body <;> simp [values_cons, hname, Ne.symm hname]
  · rw [if_neg hown]
    by_cases hname : name = "content-length"
    · subst hname
      simp [hown]
    · simp [hname]

theorem values_plain :
    values (appFields text headers ++ lengthOf text headers body ++
        [("host", utf8 (hostOf text cluster headers))]) name =
      if name = "host" then [utf8 (hostOf text cluster headers)]
      else if own text headers name ≠ [] then own text headers name
      else if name = "content-length" then (body.map fun bytes => utf8 (toString bytes.length)).toList
      else [] := by
  rw [values_append, values_append, values_lengthOf]
  by_cases hhost : name = "host"
  · have hnone : values (appFields text headers) "host" = [] := by
      rw [values_eq_nil_iff]
      intro f hf
      obtain ⟨h, -, hf⟩ := List.mem_flatMap.mp hf
      split at hf
      · cases hf
      · rename_i hnot
        obtain ⟨element, -, rfl⟩ := List.mem_map.mp hf
        exact hnot
    subst hhost
    rw [hnone, if_neg fun h => absurd h.1 (by decide), if_pos rfl]
    simp [values_cons]
  · have hend : values [("host", utf8 (hostOf text cluster headers))] name = [] := by
      simp [values_cons, Ne.symm hhost]
    rw [values_appFields hhost, hend, if_neg hhost, List.append_nil]
    by_cases hown : own text headers name = []
    · simp [hown]
    · simp [hown]

/-- **What a call goes out with**: `fields` raises if its method is empty, its path does not begin with a
slash or a header is a pseudo-header, and only then. What it gives, with the trace context of the request,
begins with the two pseudo-headers; all other names are plain, and under each are the values of `sent`, in
order. -/
theorem call_fields (hd : text.Downcases) (cluster method path : String)
    (headers : List (String × HeaderValue)) (body : Option Bytes) :
    ((∃ fs, fields text cluster method path headers body = .ok fs) ↔
      method.isEmpty = false ∧ path.startsWith "/" = true ∧
        ∀ h ∈ headers, (text.downcase h.1).startsWith ":" = false) ∧
    ∀ fs (up : Upstream.State), fields text cluster method path headers body = .ok fs →
      ∃ rest, withTrace fs up.readTrace =
          (":method", utf8 (text.upcase method)) :: (":path", utf8 path) :: rest ∧
        (∀ f ∈ rest, Plain text f.1) ∧ ∀ name, values rest name = sent text cluster headers body up name := by
  constructor
  · constructor
    · rintro ⟨fs, hf⟩
      obtain ⟨hmethod, hpath, hnames, -⟩ := fields_ok_iff.mp hf
      exact ⟨hmethod, hpath, hnames⟩
    · rintro ⟨hmethod, hpath, hnames⟩
      exact ⟨_, fields_ok_iff.mpr ⟨hmethod, hpath, hnames, rfl⟩⟩
  intro fs up hf
  obtain ⟨-, -, hnames, rfl⟩ := fields_ok_iff.mp hf
  set plain := appFields text headers ++ lengthOf text headers body ++
    [("host", utf8 (hostOf text cluster headers))] with hplain
  set all : Fields := (":method", utf8 (text.upcase method)) :: (":path", utf8 path) :: plain with hall
  refine ⟨plain ++ up.readTrace.filter fun f => !all.any (·.1 == f.1), rfl, fun f hf => ?_,
    fun name => ?_⟩
  · rcases List.mem_append.mp hf with hf | hf
    · rcases List.mem_append.mp hf with hf | hf
      · rcases List.mem_append.mp hf with hf | hf
        · exact (appFields_names hd hnames hf).1
        · unfold lengthOf at hf
          split at hf
          · obtain ⟨bytes, -, rfl⟩ := by simpa using hf
            exact plain_contentLength hd
          · cases hf
      · rw [List.mem_singleton.mp hf]
        exact plain_host hd
    · obtain ⟨name, hname, hfield⟩ := List.mem_filterMap.mp (List.mem_of_mem_filter hf)
      cases hv : up.config.requestHeader name with
      | none => simp [hv] at hfield
      | some value =>
        rw [hv] at hfield
        cases hfield
        exact plain_trace hd hname
  · have htrace : values (up.readTrace.filter fun f => !all.any (·.1 == f.1)) name =
        if values all name = [] then values up.readTrace name else [] :=
      values_filter_own up.readTrace
    rw [values_append, htrace, values_readTrace]
    by_cases hname : name ∈ traceHeaders
    · -- the trace context counts where the call has nothing of its own
      obtain ⟨hmethod, hpath, hhost, hlength⟩ := trace_ne hname
      have hvalues : values all name = values plain name := by
        rw [hall, values_cons, values_cons, if_neg hmethod, if_neg hpath]
        rfl
      rw [hvalues, hplain, values_plain, sent]
      simp only [if_neg hhost, if_neg hlength, if_pos hname]
      by_cases hown : own text headers name = []
      · simp [hown]
      · simp [hown]
    · rw [if_neg hname, ite_self, List.append_nil, hplain, values_plain, sent]
      simp only [if_neg hname]

/-- A worker whose request has a trace. -/
def traced : Upstream.State :=
  { config :=
    { settings := ⟨1, 1⟩
      requestHeader := fun name => if name = "traceparent" then some [48, 48] else none } }

theorem call_fields_accept :
    ∃ fs rest, fields asciiText "users" "get" "/1" [("Accept", ⟨"*/*", ["*/*"]⟩)] none = .ok fs ∧
      withTrace fs traced.readTrace = (":method", utf8 "get".toUpper) :: (":path", utf8 "/1") :: rest ∧
      values rest "host" = [utf8 "users"] ∧ values rest "accept" = [utf8 "*/*"] ∧
      values rest "traceparent" = [[48, 48]] := by
  have haccept : asciiText.downcase "Accept" = "accept" := by
    show "Accept".toLower = "accept"
    rw [← String.toList_inj, String.toLower, String.toList_map]
    decide
  obtain ⟨hmade, hsent⟩ :=
    call_fields asciiText_downcases "users" "get" "/1" [("Accept", ⟨"*/*", ["*/*"]⟩)] none
  obtain ⟨fs, hf⟩ := hmade.mpr ⟨rfl, String.startsWith_string_iff.mpr (by decide), by simp [haccept]⟩
  obtain ⟨rest, hrest, -, hvalues⟩ := hsent fs traced hf
  refine ⟨fs, rest, hf, hrest, ?_, ?_, ?_⟩
  · rw [hvalues]
    simp [sent, hostOf, haccept]
  · rw [hvalues]
    simp [sent, own, haccept]
  · rw [hvalues]
    simp [sent, own, haccept, traceHeaders, traced]

end Ruvoy.Streamed.Body
