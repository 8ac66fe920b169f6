import FerricStore.Base64
import FerricStore.Text
import FerricStore.Value
import Mathlib.Data.List.DropRight

/-!
# Schemes of URLs

`urlsplit` drops leading control characters and blanks, removes tabs and line breaks, and
takes what stands before the first colon as the scheme if it is spelled like one. `urljoin`
returns a location that names another scheme as it is, and otherwise writes the scheme of
the base. Hosts, paths and queries stay with the library.
-/

set_option autoImplicit false

namespace FerricStore.HttpUrls

open Text

/-- What `urlparse` returns beside the scheme and the path. -/
structure UrlParts where
  hostname : Option Str
  username : Option Str
  password : Option Str
  query : Str
  fragment : Str

/-- `urlparse`, which raises on a malformed host, and what `urljoin` writes after the
scheme. -/
structure Urls where
  parts : Str → Option UrlParts
  joined : Str → Str → Str

def colon : CodePoint := point 58

def isControlOrSpace (c : CodePoint) : Bool := c.val ≤ 0x20

/-- Not a tab, a line feed or a carriage return. -/
def isSafe (c : CodePoint) : Bool := !(c.val = 9 || c.val = 10 || c.val = 13)

def isAsciiAlpha (c : CodePoint) : Bool :=
  (65 ≤ c.val && c.val ≤ 90) || (97 ≤ c.val && c.val ≤ 122)

/-- A letter, a digit, `+`, `-` or `.`. -/
def isSchemeChar (c : CodePoint) : Bool :=
  isAsciiAlpha c || (48 ≤ c.val && c.val ≤ 57) || c.val = 43 || c.val = 45 || c.val = 46

def stripUrl (url : Str) : Str := (url.dropWhile isControlOrSpace).filter isSafe

/-- The scheme that a URL names. -/
def urlScheme (url : Str) : Option Str :=
  if colon ∈ stripUrl url ∧ ((stripUrl url).head?.any isAsciiAlpha) = true ∧
      ((stripUrl url).takeWhile (· ≠ colon)).all isSchemeChar = true then
    some (((stripUrl url).takeWhile (· ≠ colon)).map lowerAscii)
  else none

/-- `uses_relative` -/
def usesRelative : List Str :=
  ["", "ftp", "http", "gopher", "nntp", "imap", "wais", "file", "https", "shttp", "mms",
    "prospero", "rtsp", "rtsps", "rtspu", "sftp", "svn", "svn+ssh", "ws", "wss"].map lit

/-- `urlunparse` from the scheme and the rest. -/
def withScheme (scheme rest : Str) : Str := if scheme = [] then rest else scheme++colon::rest

def urljoin (urls : Urls) (base url : Str) : Option Str :=
  if base = [] then some url
  else if url = [] then some base
  else
    (urls.parts base).bind fun _ => (urls.parts url).bind fun _ =>
      if (urlScheme url).getD ((urlScheme base).getD []) ≠ (urlScheme base).getD [] ∨
          (urlScheme url).getD ((urlScheme base).getD []) ∉ usesRelative then some url
      else some (withScheme ((urlScheme url).getD ((urlScheme base).getD []))
        (urls.joined base url))

theorem stripUrl_append {u : Str} (h : stripUrl u ≠ []) (v : Str) :
    stripUrl (u++v) = stripUrl u++v.filter isSafe := by
  have hdrop : u.dropWhile isControlOrSpace ≠ [] := fun hnil => h (by simp [stripUrl, hnil])
  have hempty : (u.dropWhile isControlOrSpace).isEmpty = false := by simpa using hdrop
  rw [stripUrl, List.dropWhile_append, hempty]
  simp [stripUrl]

/-- What follows a URL does not change its scheme. -/
theorem urlScheme_append {u s : Str} (h : urlScheme u = some s) (v : Str) :
    urlScheme (u++v) = some s := by
  by_cases hcond : colon ∈ stripUrl u ∧ ((stripUrl u).head?.any isAsciiAlpha) = true ∧
      ((stripUrl u).takeWhile (· ≠ colon)).all isSchemeChar = true
  · obtain ⟨hcolon, hhead, hchars⟩ := hcond
    have hne : stripUrl u ≠ [] := List.ne_nil_of_mem hcolon
    have htake : (stripUrl u++v.filter isSafe).takeWhile (· ≠ colon) =
        (stripUrl u).takeWhile (· ≠ colon) := by
      rw [List.takeWhile_append, if_neg]
      intro hlength
      have hall := List.IsPrefix.eq_of_length (List.takeWhile_prefix (· ≠ colon)) hlength
      have hmem : colon ∈ (stripUrl u).takeWhile (· ≠ colon) := by rwa [hall]
      simpa using List.all_eq_true.mp List.all_takeWhile colon hmem
    have hhead' : (stripUrl u++v.filter isSafe).head? = (stripUrl u).head? := by
      cases hu : stripUrl u with
      | nil => exact absurd hu hne
      | cons c rest => rfl
    rw [urlScheme, if_pos ⟨hcolon, hhead, hchars⟩] at h
    rw [urlScheme, stripUrl_append hne, htake, hhead',
      if_pos ⟨List.mem_append_left _ hcolon, hhead, hchars⟩]
    exact h
  · rw [urlScheme, if_neg hcond] at h
    cases h

theorem lowerAscii_val (c : CodePoint) :
    (lowerAscii c).val = if 0x41 ≤ c.val ∧ c.val ≤ 0x5A then c.val+0x20 else c.val := by
  unfold lowerAscii point
  split_ifs with h
  · exact Nat.mod_eq_of_lt (by omega)
  · rfl

theorem lowerAscii_lowerAscii (c : CodePoint) : lowerAscii (lowerAscii c) = lowerAscii c := by
  refine Fin.ext ?_
  rw [lowerAscii_val (lowerAscii c), lowerAscii_val c]
  split_ifs <;> omega

/-- Schemes are in lower case. -/
theorem lowerText_of_urlScheme (rt : Runtime) {u s : Str} (h : urlScheme u = some s) :
    rt.lowerText s = s := by
  unfold urlScheme at h
  split_ifs at h with hcond
  obtain rfl := Option.some.inj h
  have hascii : isAscii (((stripUrl u).takeWhile (· ≠ colon)).map lowerAscii) = true := by
    simp only [isAscii, List.all_map, List.all_eq_true, Function.comp_apply, decide_eq_true_eq]
    intro c hc
    have hchar := List.all_eq_true.mp hcond.2.2 c hc
    simp only [isSchemeChar, isAsciiAlpha, Bool.or_eq_true, Bool.and_eq_true,
      decide_eq_true_eq] at hchar
    rw [lowerAscii_val]
    split_ifs <;> omega
  rw [Runtime.lowerText, if_pos hascii, List.map_map]
  exact List.map_congr_left fun c _ => lowerAscii_lowerAscii c

def IsHttp (scheme : Str) : Prop := scheme = lit "http" ∨ scheme = lit "https"

instance (scheme : Str) : Decidable (IsHttp scheme) := inferInstanceAs (Decidable (_ ∨ _))

theorem IsHttp.usesRelative {s : Str} (h : IsHttp s) : s ∈ usesRelative := by
  rcases h with rfl | rfl <;> decide

theorem IsHttp.urlScheme_withScheme {s : Str} (h : IsHttp s) (rest : Str) :
    urlScheme (withScheme s rest) = some s := by
  have hsplit : withScheme s rest = (s++[colon])++rest := by
    have hne : s ≠ [] := by rcases h with rfl | rfl <;> decide
    simp [withScheme, hne]
  rw [hsplit]
  refine urlScheme_append ?_ rest
  rcases h with rfl | rfl <;> decide

/-- A joined URL has the scheme that the location names, or that of its base. -/
theorem urljoin_scheme {urls : Urls} {base url next s : Str} (hbase : urlScheme base = some s)
    (hs : IsHttp s) (h : urljoin urls base url = some next) :
    urlScheme next = some ((urlScheme url).getD s) := by
  have hnil : urlScheme [] = none := by decide
  have hne : base ≠ [] := by
    rintro rfl
    rw [hnil] at hbase
    cases hbase
  rw [urljoin, if_neg hne] at h
  by_cases hurl : url = []
  · rw [if_pos hurl] at h
    obtain rfl := Option.some.inj h
    rw [hurl, hnil]
    exact hbase
  · rw [if_neg hurl] at h
    obtain ⟨_, -, h⟩ := Option.bind_eq_some_iff.mp h
    obtain ⟨_, -, h⟩ := Option.bind_eq_some_iff.mp h
    rw [hbase, Option.getD_some] at h
    cases hscheme : urlScheme url with
    | none =>
      rw [hscheme, Option.getD_none, if_neg (by simp [hs.usesRelative])] at h
      obtain rfl := Option.some.inj h
      exact hs.urlScheme_withScheme _
    | some t =>
      rw [hscheme, Option.getD_some] at h
      by_cases hcond : t ≠ s ∨ t ∉ usesRelative
      · rw [if_pos hcond] at h
        obtain rfl := Option.some.inj h
        exact hscheme
      · rw [if_neg hcond] at h
        obtain rfl := Option.some.inj h
        obtain rfl : t = s := not_not.mp fun hts => hcond (.inl hts)
        exact hs.urlScheme_withScheme _

end FerricStore.HttpUrls

/-!
## Credentials and redirects

A transport checks its base URL and builds its headers once. Each request follows redirects
in a loop of its own, over the pooled HTTP/1 path or over the HTTP/2 backend: the next URL
is the `Location` joined to the current one, and the headers go along. The server's
answers are a list, one for each request that reaches it.
-/

namespace FerricStore.HttpRedirects

open Text HttpUrls

abbrev Headers := Dict Str Str

inductive SetupError where
  | typeError (message : String)
  | valueError (message : String)
  | unicodeEncode
  deriving DecidableEq

/-- The library functions, the proxies of the process, and the URL that `httpx` shows for a
request. -/
structure Env where
  rt : Runtime
  urls : Urls
  useOpenerFor : Str → Bool
  shown : Str → Str

def hasNewline (s : Str) : Bool := s.any fun c => c.val = 13 || c.val = 10

/-- `validate_base_url` -/
def validateBaseUrl (env : Env) (url : Str) : Except SetupError Str := do
  if url = [] then throw (.valueError "HTTP endpoint URL must be a non-empty string")
  let parts ← match env.urls.parts url with
    | some parts => pure parts
    | none => throw (.valueError "malformed URL")
  if ¬IsHttp (env.rt.lowerText ((urlScheme url).getD [])) then
    throw (.valueError "FerricStore HTTP endpoint URLs must use http:// or https://")
  if parts.hostname.getD [] = [] then
    throw (.valueError "FerricStore HTTP endpoint URL must include a host")
  if parts.username.isSome || parts.password.isSome then
    throw (.valueError
      "HTTP endpoint credentials must use explicit options, not URL user info")
  if parts.query ≠ [] ∨ parts.fragment ≠ [] then
    throw (.valueError "FerricStore HTTP endpoint URL cannot contain a query or fragment")
  pure (url.rdropWhile (· = point 47))

/-- `require_https_for_basic_credentials` -/
def requireHttpsForBasicCredentials (env : Env) (baseUrl : Str)
    (username password : Option Str) : Except SetupError Unit :=
  if (username.isSome || password.isSome) &&
      env.rt.lowerText ((urlScheme baseUrl).getD []) ≠ lit "https" then
    throw (.valueError "HTTP Basic username/password credentials require an https:// URL")
  else pure ()

/-- `validated_headers` -/
def validatedHeaders (headers : Headers) : Except SetupError Headers :=
  headers.foldlM (fun result e => do
    if e.1 = [] then
      throw (SetupError.typeError "HTTP headers must map non-empty strings to strings")
    if hasNewline e.1 || hasNewline e.2 then
      throw (SetupError.valueError "HTTP headers cannot contain newlines")
    pure (Dict.set result e.1 e.2)) []

def authorization : Str := lit "Authorization"

/-- `build_headers` -/
def buildHeaders (env : Env) (headers : Headers) (bearerToken username password : Option Str) :
    Except SetupError Headers := do
  let mut result ← validatedHeaders headers
  let hasAuthorization := result.any fun e => env.rt.lowerText e.1 = lit "authorization"
  if bearerToken.isSome && (username.isSome || password.isSome) then
    throw (.valueError
      "bearer_token and username/password credentials are mutually exclusive")
  if let some token := bearerToken then
    if token = [] then throw (.valueError "bearer_token must be a non-empty string")
    if hasNewline token then throw (.valueError "bearer_token cannot contain newlines")
    if hasAuthorization then
      throw (.valueError "bearer_token and an Authorization header are mutually exclusive")
    result := Dict.set result authorization (lit "Bearer "++token)
  if username.isSome && password.isNone then
    throw (.valueError "username requires password for HTTP Basic authentication")
  if let some password := password then
    let resolved := username.getD (lit "default")
    if resolved = [] then throw (.valueError "username must be a non-empty string")
    if colon ∈ resolved then
      throw (.valueError "username cannot contain ':' for HTTP Basic authentication")
    if hasNewline resolved || hasNewline password then
      throw (.valueError "username and password cannot contain newlines")
    if hasAuthorization then
      throw (.valueError
        "username/password and an Authorization header are mutually exclusive")
    let encoded ← match encode (resolved++colon::password) with
      | some bytes => pure (Base64.b64encode bytes)
      | none => throw .unicodeEncode
    result := Dict.set result authorization (lit "Basic "++encoded)
  pure result

structure Transport where
  baseUrl : Str
  headers : Headers
  deriving DecidableEq

/-- The part of `JsonHttpTransport.__init__` that concerns URL and credentials. -/
def init (env : Env) (baseUrl : Str) (bearerToken username password : Option Str)
    (headers : Headers) : Except SetupError Transport := do
  let url ← validateBaseUrl env baseUrl
  requireHttpsForBasicCredentials env url username password
  let built ← buildHeaders env headers bearerToken username password
  pure ⟨url, built⟩

/-- `validate_path` -/
def validatePath (path : Str) : Except SetupError Str :=
  if path.head? ≠ some (point 47) ∨ hasNewline path = true then
    throw (.valueError "HTTP endpoint request path must be an absolute safe path")
  else pure path

structure Sent where
  method : Str
  url : Str
  headers : Headers
  data : Option Bytes
  deriving DecidableEq

structure Reply where
  status : ℕ
  location : Option Str
  deriving DecidableEq

/-- What comes of an attempt: it raises before the request is sent or after it, or there is a
reply. -/
inductive Exchange where
  | notSent
  | raised
  | reply (reply : Reply)

def Exchange.location : Exchange → Option Str
  | .reply answer => answer.location
  | _ => none

inductive Outcome where
  | reply (reply : Reply)
  | raised
  | tooManyRedirects
  /-- The request goes on through the opener. -/
  | opener (request : Sent)
  deriving DecidableEq

def isRedirect (status : ℕ) : Bool := status ∈ [301, 302, 303, 307, 308]

/-- `_redirect_request` -/
def redirectRequest (rt : Runtime) (status : ℕ) (method : Str) (data : Option Bytes)
    (headers : Headers) : Str × Option Bytes × Headers :=
  if (status = 303 ∧ method ≠ lit "HEAD") ∨
      (status ∈ [301, 302] ∧ method = lit "POST") then
    (lit "GET", none, headers.filter fun e => rt.lowerText e.1 ∉
      ["content-length", "content-type", "transfer-encoding"].map lit)
  else (method, data, headers)

/-- The request of the next turn, unless joining the URLs raises. -/
def redirected (env : Env) (base : Str) (status : ℕ) (location : Str) (request : Sent) :
    Option Sent :=
  (urljoin env.urls base location).map fun url =>
    let next := redirectRequest env.rt status request.method request.data request.headers
    ⟨next.1, url, next.2.2, next.2.1⟩

/-- The requests that were sent, in order, and what came of the last. -/
structure Trace where
  sent : List Sent
  outcome : Outcome
  deriving DecidableEq

def Trace.cons (request : Sent) (trace : Trace) : Trace :=
  { trace with sent := request::trace.sent }

/-- The checks of `_request_http1_once` before it asks for a connection. -/
def http1Target (env : Env) (url : Str) : Bool :=
  ((urlScheme url).any fun s => IsHttp s) && ((env.urls.parts url).any fun p => p.hostname.isSome)

/-- `_request_http1_direct` with so many turns left. -/
def requestHttp1Direct (env : Env) : ℕ → Sent → List Exchange → Trace
  | 0, _, _ => ⟨[], .tooManyRedirects⟩
  | turns+1, request, exchanges =>
    if env.useOpenerFor request.url then ⟨[], .opener request⟩
    else if http1Target env request.url = false then ⟨[], .raised⟩
    else
      match exchanges with
      | [] | .notSent::_ => ⟨[], .raised⟩
      | .raised::_ => ⟨[request], .raised⟩
      | .reply reply::rest =>
        match reply.location with
        | none => ⟨[request], .reply reply⟩
        | some location =>
          if isRedirect reply.status = false then ⟨[request], .reply reply⟩
          else if turns = 0 then ⟨[request], .tooManyRedirects⟩
          else
            match redirected env request.url reply.status location request with
            | none => ⟨[request], .raised⟩
            | some next => (requestHttp1Direct env turns next rest).cons request

/-- `_Http2Backend.request` with so many turns left; `httpx` refuses other schemes. -/
def requestHttp2 (env : Env) : ℕ → Sent → List Exchange → Trace
  | 0, _, _ => ⟨[], .tooManyRedirects⟩
  | turns+1, request, exchanges =>
    if ((urlScheme request.url).any fun s => IsHttp s) = false then ⟨[], .raised⟩
    else
      match exchanges with
      | [] | .notSent::_ => ⟨[], .raised⟩
      | .raised::_ => ⟨[request], .raised⟩
      | .reply reply::rest =>
        match reply.location with
        | none => ⟨[request], .reply reply⟩
        | some location =>
          if isRedirect reply.status = false ∨ turns = 0 then ⟨[request], .reply reply⟩
          else
            match redirected env (env.shown request.url) reply.status location request with
            | none => ⟨[request], .raised⟩
            | some next => (requestHttp2 env turns next rest).cons request

/-- `_request_raw` over one of the two backends. -/
def requestRaw (env : Env) (http2 : Bool) (transport : Transport) (method path : Str)
    (data : Option Bytes) (headers : Headers) (exchanges : List Exchange) :
    Except SetupError Trace := do
  let path ← validatePath path
  let request : Sent := ⟨method, transport.baseUrl++path, headers, data⟩
  pure (if http2 then requestHttp2 env 11 request exchanges
    else requestHttp1Direct env 11 request exchanges)

end FerricStore.HttpRedirects
