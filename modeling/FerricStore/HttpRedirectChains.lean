import FerricStore.HttpUrls

/-!
# Chains of redirects

Both loops send a chain of requests in which each follows from the one before it and its
`Location`. The scheme of a request is the last one that a `Location` before it named, and
`https` if none did. The body goes along only under the method it came with.
-/

set_option autoImplicit false

namespace FerricStore.HttpRedirects

open Text HttpUrls

/-- The requests of at most so many turns, from the first one and the answers. -/
inductive Hops (env : Env) : ℕ → Sent → List Exchange → List Sent → Prop where
  | stop (turns : ℕ) (request : Sent) (exchanges : List Exchange) :
      Hops env turns request exchanges []
  | last {turns : ℕ} {request : Sent} {exchanges : List Exchange} :
      Hops env (turns+1) request exchanges [request]
  | next {turns : ℕ} {request next : Sent} {exchange : Exchange} {rest : List Exchange}
      {base location : Str} {status : ℕ} {sent : List Sent}
      (hscheme : ∃ s, urlScheme request.url = some s ∧ IsHttp s)
      (hlocation : exchange.location = some location)
      (hbase : urlScheme base = urlScheme request.url)
      (hnext : redirected env base status location request = some next)
      (h : Hops env turns next rest sent) :
      Hops env (turns+1) request (exchange::rest) (request::sent)

theorem http_scheme {url : Str} (h : ((urlScheme url).any fun s => IsHttp s) = true) :
    ∃ s, urlScheme url = some s ∧ IsHttp s := by
  cases hs : urlScheme url with
  | none => rw [hs] at h; cases h
  | some s =>
    rw [hs] at h
    exact ⟨s, rfl, by simpa using h⟩

theorem requestHttp1Direct_hops (env : Env) (turns : ℕ) (request : Sent)
    (exchanges : List Exchange) :
    Hops env turns request exchanges (requestHttp1Direct env turns request exchanges).sent := by
  fun_induction requestHttp1Direct env turns request exchanges with
  | case11 turns request hopener htarget reply rest location hlocation hredirect hturns next
      hnext ih =>
    have htarget := Bool.and_eq_true_iff.mp ((Bool.not_eq_false _).mp htarget)
    exact .next (http_scheme htarget.1) hlocation rfl hnext ih
  | case1 | case2 | case3 | case4 | case5 => exact .stop _ _ _
  | _ => exact .last

theorem requestHttp2_hops (env : Env) (hshown : ∀ url, urlScheme (env.shown url) = urlScheme url)
    (turns : ℕ) (request : Sent) (exchanges : List Exchange) :
    Hops env turns request exchanges (requestHttp2 env turns request exchanges).sent := by
  fun_induction requestHttp2 env turns request exchanges with
  | case9 turns request htarget reply rest location hlocation hredirect next hnext ih =>
    exact .next (http_scheme ((Bool.not_eq_false _).mp htarget)) hlocation (hshown _) hnext ih
  | case1 | case2 | case3 | case4 => exact .stop _ _ _
  | _ => exact .last

theorem Hops.length_le {env : Env} {turns : ℕ} {request : Sent} {exchanges : List Exchange}
    {sent : List Sent} (h : Hops env turns request exchanges sent) : sent.length ≤ turns := by
  induction h with
  | stop => exact Nat.zero_le _
  | last => simp
  | next _ _ _ _ _ ih => simpa using ih

/-- The scheme that an answer names for the next request. -/
def Exchange.namedScheme (exchange : Exchange) : Option Str := exchange.location.bind urlScheme

/-- The scheme of a request: the last one named before it, or that of the first request. -/
theorem Hops.scheme {env : Env} {turns : ℕ} {request : Sent} {exchanges : List Exchange}
    {sent : List Sent} (h : Hops env turns request exchanges sent) {s : Str}
    (hs : urlScheme request.url = some s) (k : ℕ) {r : Sent} (hr : sent[k]? = some r) :
    urlScheme r.url =
      some (((exchanges.take k).filterMap Exchange.namedScheme).getLast?.getD s) := by
  induction h generalizing s k with
  | stop => simp at hr
  | last =>
    cases k with
    | zero =>
      obtain rfl := Option.some.inj hr
      simpa using hs
    | succ k => simp at hr
  | @next turns request next exchange rest base location status sent hscheme hlocation hbase
      hnext _ ih =>
    cases k with
    | zero =>
      obtain rfl := Option.some.inj hr
      simpa using hs
    | succ k =>
      obtain ⟨t, ht, hhttp⟩ := hscheme
      obtain rfl : s = t := Option.some.inj (hs.symm.trans ht)
      obtain ⟨url, hurl, rfl⟩ := Option.map_eq_some_iff.mp hnext
      have hjoined := urljoin_scheme (hbase.trans hs) hhttp hurl
      rw [ih hjoined k hr]
      have hnamed : exchange.namedScheme = urlScheme location := by
        simp [Exchange.namedScheme, hlocation]
      cases hlocationScheme : urlScheme location with
      | none => simp [hnamed, hlocationScheme]
      | some t => simp [hnamed, hlocationScheme, List.getLast?_cons]

theorem redirected_eq {env : Env} {base location : Str} {status : ℕ} {request next : Sent}
    (h : redirected env base status location request = some next) :
    (next.data = none ∨ next.data = request.data ∧ next.method = request.method) ∧
      ∀ name value, env.rt.lowerText name ∉
          ["content-length", "content-type", "transfer-encoding"].map lit →
        (name, value) ∈ request.headers → (name, value) ∈ next.headers := by
  obtain ⟨url, -, rfl⟩ := Option.map_eq_some_iff.mp h
  simp only [redirectRequest]
  split_ifs
  · refine ⟨.inl rfl, fun name value hname hmem => ?_⟩
    exact List.mem_filter.mpr ⟨hmem, by simpa using hname⟩
  · exact ⟨.inr ⟨rfl, rfl⟩, fun _ _ _ hmem => hmem⟩

/-- A request has the body only with the method that the body came with. -/
theorem Hops.data {env : Env} {turns : ℕ} {request : Sent} {exchanges : List Exchange}
    {sent : List Sent} (h : Hops env turns request exchanges sent) {r : Sent} (hr : r ∈ sent)
    (hdata : r.data ≠ none) : r.data = request.data ∧ r.method = request.method := by
  induction h with
  | stop => cases hr
  | last =>
    obtain rfl := List.mem_singleton.mp hr
    exact ⟨rfl, rfl⟩
  | next _ _ _ hnext _ ih =>
    rcases List.mem_cons.mp hr with rfl | hr
    · exact ⟨rfl, rfl⟩
    · obtain ⟨hd, hm⟩ := ih hr
      rcases (redirected_eq hnext).1 with hnone | ⟨hd', hm'⟩
      · exact absurd (hd.trans hnone) hdata
      · exact ⟨hd.trans hd', hm.trans hm'⟩

/-- The authorization goes along. -/
theorem Hops.headers {env : Env} {turns : ℕ} {request : Sent} {exchanges : List Exchange}
    {sent : List Sent} (h : Hops env turns request exchanges sent) {r : Sent} (hr : r ∈ sent)
    {value : Str} (hvalue : (authorization, value) ∈ request.headers) :
    (authorization, value) ∈ r.headers := by
  induction h with
  | stop => cases hr
  | last =>
    obtain rfl := List.mem_singleton.mp hr
    exact hvalue
  | next _ _ _ hnext _ ih =>
    rcases List.mem_cons.mp hr with rfl | hr
    · exact hvalue
    · refine ih hr ((redirected_eq hnext).2 _ _ ?_ hvalue)
      have hascii : isAscii authorization = true := by decide
      rw [Runtime.lowerText, if_pos hascii]
      decide

theorem requestRaw_hops {env : Env}
    (hshown : ∀ url, urlScheme (env.shown url) = urlScheme url) {http2 : Bool}
    {transport : Transport} {method path : Str} {data : Option Bytes} {headers : Headers}
    {exchanges : List Exchange} {trace : Trace}
    (h : requestRaw env http2 transport method path data headers exchanges = .ok trace) :
    Hops env 11 ⟨method, transport.baseUrl++path, headers, data⟩ exchanges trace.sent := by
  unfold requestRaw at h
  obtain ⟨checked, hchecked, hrun⟩ := except_bind_eq_ok h
  have heq : checked = path := by
    unfold validatePath at hchecked
    split_ifs at hchecked with hpath
    exact (Except.ok.inj hchecked).symm
  subst heq
  cases http2 with
  | true =>
    obtain rfl := Except.ok.inj hrun
    exact requestHttp2_hops env hshown _ _ _
  | false =>
    obtain rfl := Except.ok.inj hrun
    exact requestHttp1Direct_hops env _ _ _

theorem init_https {env : Env} {url : Str} {bearerToken username password : Option Str}
    {headers : Headers} {transport : Transport}
    (h : init env url bearerToken username password headers = .ok transport)
    (hcredentials : username.isSome = true ∨ password.isSome = true) :
    urlScheme transport.baseUrl = some (lit "https") := by
  unfold init at h
  obtain ⟨base, -, h⟩ := except_bind_eq_ok h
  obtain ⟨_, hrequire, h⟩ := except_bind_eq_ok h
  obtain ⟨built, -, h⟩ := except_bind_eq_ok h
  obtain rfl := Except.ok.inj h
  unfold requireHttpsForBasicCredentials at hrequire
  split_ifs at hrequire with hcond
  · have hgiven : (username.isSome || password.isSome) = true := by simpa using hcredentials
    simp only [hgiven, Bool.true_and, decide_eq_true_eq, not_not] at hcond
    cases hscheme : urlScheme base with
    | none =>
      have hnil : env.rt.lowerText [] = [] := rfl
      rw [hscheme, Option.getD_none, hnil] at hcond
      exact absurd hcond (by decide)
    | some s =>
      rw [hscheme, Option.getD_some, lowerText_of_urlScheme env.rt hscheme] at hcond
      rw [hcond]

/-- A library that finds the host `h` in every URL. -/
def sampleEnv : Env where
  rt := Runtime.ascii
  urls := ⟨fun _ => some ⟨some (lit "h"), none, none, [], []⟩, fun _ url => lit "//h"++url⟩
  useOpenerFor := fun _ => false
  shown := id

def sampleTransport : Transport :=
  ⟨lit "https://h", [(authorization, lit "Basic dTpw")]⟩

theorem sampleTransport_init :
    init sampleEnv (lit "https://h/") none (some (lit "u")) (some (lit "p")) [] =
      .ok sampleTransport := by
  decide +kernel

def relativeExchanges : List Exchange := [.reply ⟨307, some (lit "/v2")⟩, .reply ⟨200, none⟩]

def relativeTrace : Trace :=
  ⟨[⟨lit "POST", lit "https://h/v1", sampleTransport.headers, some [1]⟩,
    ⟨lit "POST", lit "https://h/v2", sampleTransport.headers, some [1]⟩], .reply ⟨200, none⟩⟩

theorem relativeTrace_requested :
    requestRaw sampleEnv false sampleTransport (lit "POST") (lit "/v1") (some [1])
      sampleTransport.headers relativeExchanges = .ok relativeTrace := by
  decide +kernel

end FerricStore.HttpRedirects
