import Conduit.Models
import Conduit.Strings
import Conduit.Transition

/-!
# The Webhook Executor

`Executor.Handler` of package `webhook` sends a job to the URL in its metadata. Before the first
request, and before each request that a redirect asks for, `validateURL` checks the URL: the
host must be a public address, or a name that the resolver has only public addresses for. The
HTTP client then opens the connection. It takes a literal address as it is, but looks a name up
again, and may get other answers.

A run of the handler is a list of actions of its environment: the job with the answer to its
check, each address the client connects to with the answers to the client's own lookup, the
response to each request with the answer to the check of a redirect, and a failure. Parsing of
URLs and addresses is a parameter, and so is what the servers answer.

## Main results

* `validateURL_ok`: what the check has seen is public.
* `phaseOk_of_exec`: at every request, the addresses that the check of its URL has seen are
  public.
* `public_of_not_rebinds`: a connection to a literal address, or to one that the check of the
  name has seen, goes to a public address.
* `dialsPublic_iff`: a run opens connections to public addresses only, if the client's lookups
  lead to addresses that the checks have seen; and if and only if they lead to public addresses
  where they do not.
-/

namespace Conduit

open Strings Transition

/-! ### Addresses -/

/-- A `netip.Addr`. -/
inductive Addr
  /-- The zero value. -/
  | zero
  | v4 (a b c d : UInt8)
  | v6 (hi lo : UInt64) (zone : Bytes)
  deriving DecidableEq

/-- `Addr.Unmap`: an IPv4 address in an IPv6 address is the former. -/
def Addr.unmap : Addr → Addr
  | .zero => .zero
  | .v4 a b c d => .v4 a b c d
  | .v6 hi lo zone =>
    if hi = 0 ∧ lo >>> 32 = 0xFFFF then
      .v4 (lo >>> 24).toUInt8 (lo >>> 16).toUInt8 (lo >>> 8).toUInt8 lo.toUInt8
    else .v6 hi lo zone

/-- A test for both families of addresses, with IPv4 in IPv6 taken for IPv4. -/
def Addr.test (addr : Addr) (four : UInt8 → UInt8 → UInt8 → Bool) (six : UInt64 → UInt64 → Bool) :
    Bool :=
  match addr.unmap with
  | .zero => false
  | .v4 a b c _ => four a b c
  | .v6 hi lo _ => six hi lo

def Addr.isLoopback (addr : Addr) : Bool :=
  addr.test (fun a _ _ => a = 127) fun hi lo => hi = 0 && lo = 1

def Addr.isPrivate (addr : Addr) : Bool :=
  addr.test (fun a b _ => a = 10 || (a = 172 && b &&& 0xF0 = 16) || (a = 192 && b = 168))
    fun hi _ => (hi >>> 56) &&& 0xFE = 0xFC

def Addr.isLinkLocalUnicast (addr : Addr) : Bool :=
  addr.test (fun a b _ => a = 169 && b = 254) fun hi _ => (hi >>> 48) &&& 0xFFC0 = 0xFE80

def Addr.isLinkLocalMulticast (addr : Addr) : Bool :=
  addr.test (fun a b c => a = 224 && b = 0 && c = 0) fun hi _ => (hi >>> 48) &&& 0xFF0F = 0xFF02

def Addr.isMulticast (addr : Addr) : Bool :=
  addr.test (fun a _ _ => a &&& 0xF0 = 0xE0) fun hi _ => hi >>> 56 = 0xFF

/-- `Addr.IsUnspecified`, which does not unmap and looks at the zone. -/
def Addr.isUnspecified (addr : Addr) : Bool := addr = .v4 0 0 0 0 || addr = .v6 0 0 []

/-! ### URLs -/

/-- A parsed URL, as far as it is looked at. -/
structure Url where
  scheme : Bytes
  hostname : Bytes
  /-- There is userinfo. -/
  user : Bool
  deriving DecidableEq

/-- `url.Parse` and `netip.ParseAddr`. -/
structure WebParsers where
  parseURL : Bytes → Option Url
  parseAddr : Bytes → Option Addr

/-- The errors of `validateURL`. -/
inductive UrlError
  /-- "url scheme must be http or https" -/
  | scheme
  /-- "url userinfo is not allowed" -/
  | userinfo
  /-- "url host is required" -/
  | hostRequired
  /-- "localhost is not allowed" -/
  | localhost
  /-- "address %s is not public" -/
  | notPublic (addr : Addr)
  /-- "resolve host %q: %w" -/
  | resolve (hostname : Bytes)
  /-- "host %q resolved to no addresses" -/
  | noAddresses (hostname : Bytes)
  deriving DecidableEq

/-- The settings of an `Executor` with the built-in client. -/
structure WebhookExecutor where
  allowPrivateNetworks : Bool
  maxRedirects : ℤ

/-- `validateAddr`. -/
def WebhookExecutor.validateAddr (e : WebhookExecutor) (addr : Addr) : Except UrlError Unit :=
  if e.allowPrivateNetworks then .ok ()
  else if addr.isLoopback || addr.isPrivate || addr.isLinkLocalUnicast ||
      addr.isLinkLocalMulticast || addr.isMulticast || addr.isUnspecified then
    .error (.notPublic addr)
  else .ok ()

def httpScheme : Bytes := ascii ['h', 't', 't', 'p']

def httpsScheme : Bytes := ascii ['h', 't', 't', 'p', 's']

/-- `strings.EqualFold` with "localhost". -/
def isLocalhost (hostname : Bytes) : Bool :=
  toUpper hostname = ascii ['L', 'O', 'C', 'A', 'L', 'H', 'O', 'S', 'T']

/-- `validateURL`; `answer` is what the resolver has for the host, if it is asked. -/
def WebhookExecutor.validateURL (e : WebhookExecutor) (p : WebParsers)
    (answer : Option (List Addr)) (url : Url) : Except UrlError Unit :=
  if url.scheme ≠ httpScheme ∧ url.scheme ≠ httpsScheme then .error .scheme
  else if url.user then .error .userinfo
  else if url.hostname = [] then .error .hostRequired
  else if isLocalhost url.hostname then .error .localhost
  else
    match p.parseAddr url.hostname with
    | some addr => e.validateAddr addr
    | none =>
      match answer with
      | none => .error (.resolve url.hostname)
      | some [] => .error (.noAddresses url.hostname)
      | some (addr :: addrs) => (addr :: addrs).forM e.validateAddr

/-! ### The handler -/

/-- Why a request failed. -/
inductive RequestError
  /-- The transport: no connection, a timeout, a broken response. -/
  | transport
  /-- The client cannot parse the `Location` of a redirect. -/
  | location
  /-- `CheckRedirect` has refused a redirect. -/
  | redirect (e : UrlError)
  deriving DecidableEq

/-- The errors of `Handler`. -/
inductive WebhookError
  /-- "webhook: task.metadata.url is required", with `retry.ErrNoRetry` -/
  | urlRequired
  /-- "webhook: invalid url: %w", with `retry.ErrNoRetry` -/
  | invalidURL
  /-- "webhook: unsafe url: %w", with `retry.ErrNoRetry` -/
  | unsafeURL (e : UrlError)
  /-- "webhook: unsupported method %q", with `retry.ErrNoRetry` -/
  | unsupportedMethod (method : Bytes)
  /-- "webhook: request failed: %w" -/
  | requestFailed (e : RequestError)
  /-- "webhook: status %d: %s", with `retry.ErrNoRetry` or without -/
  | status (code : ℕ) (message : Bytes)
  deriving DecidableEq

/-- The error carries `retry.ErrNoRetry`. -/
def WebhookError.noRetry : WebhookError → Bool
  | .urlRequired | .invalidURL | .unsafeURL _ | .unsupportedMethod _ => true
  | .requestFailed _ => false
  | .status code _ => !(code = 408 || code = 429 || 500 ≤ code)

/-- The `Location` of a response, as the client reads it. -/
inductive RedirectTarget
  | missing
  | unparsable
  | url (url : Url)

/-- A response. -/
structure Response where
  status : ℕ
  body : Bytes
  location : RedirectTarget

/-- The statuses the client takes for redirects. -/
def redirectStatuses : List ℕ := [301, 302, 303, 307, 308]

/-- Where a call of `Handler` stands. -/
inductive WebhookPhase
  | idle
  /-- The client sends a request, the given number of them by now. `seen` is what the resolver
  has answered to the check of the URL. -/
  | sending (url : Url) (requests : ℕ) (seen : List Addr)
  | done (result : Except WebhookError Unit)

def urlKey : Bytes := ascii ['u', 'r', 'l']

def methodKey : Bytes := ascii ['m', 'e', 't', 'h', 'o', 'd']

/-- The methods that are supported, the default first. -/
def methods : List Bytes :=
  [ascii ['P', 'O', 'S', 'T'], ascii ['P', 'U', 'T'], ascii ['P', 'A', 'T', 'C', 'H']]

/-- The method of a job. -/
def methodOf (value : Bytes) : Bytes :=
  let method := toUpper (trimSpace value)
  if method = [] then ascii ['P', 'O', 'S', 'T'] else method

/-- `Handler` up to its first request. -/
def WebhookExecutor.begin (e : WebhookExecutor) (p : WebParsers) (metadata : Bytes → Bytes)
    (answer : Option (List Addr)) : WebhookPhase :=
  let targetURL := trimSpace (metadata urlKey)
  if targetURL = [] then .done (.error .urlRequired)
  else
    match p.parseURL targetURL with
    | none => .done (.error .invalidURL)
    | some url =>
      match e.validateURL p answer url with
      | .error err => .done (.error (.unsafeURL err))
      | .ok () =>
        let method := methodOf (metadata methodKey)
        if method ∈ methods then .sending url 1 (answer.getD [])
        else .done (.error (.unsupportedMethod method))

/-- What `Handler` makes of the last response. -/
def finalResult (r : Response) : Except WebhookError Unit :=
  if 200 ≤ r.status ∧ r.status < 300 then .ok ()
  else .error (.status r.status (trimSpace (r.body.take 4096)))

/-- The client gets a response: it follows a redirect, if `CheckRedirect` lets it, or returns
the response. -/
def WebhookExecutor.receive (e : WebhookExecutor) (p : WebParsers) (requests : ℕ) (r : Response)
    (answer : Option (List Addr)) : WebhookPhase :=
  if r.status ∈ redirectStatuses then
    match r.location with
    | .missing => .done (finalResult r)
    | .unparsable => .done (.error (.requestFailed .location))
    | .url url =>
      if e.maxRedirects ≤ requests then .done (finalResult r)
      else
        match e.validateURL p answer url with
        | .error err => .done (.error (.requestFailed (.redirect err)))
        | .ok () => .sending url (requests + 1) (answer.getD [])
  else .done (finalResult r)

/-- What the environment of `Handler` does. -/
inductive WebhookAct
  /-- A job comes in; `answer` is for the check of its URL. -/
  | start (metadata : Bytes → Bytes) (answer : Option (List Addr))
  /-- The client opens a connection; `answers` is for its own lookup of the host. -/
  | dial (answers : List Addr) (addr : Addr)
  /-- A response comes in; `answer` is for the check of a redirect. -/
  | respond (r : Response) (answer : Option (List Addr))
  /-- The transport fails. -/
  | fail

/-- What the client may connect to: a literal address as it is, or an answer for the name. -/
def dialable (p : WebParsers) (url : Url) (answers : List Addr) (addr : Addr) : Bool :=
  match p.parseAddr url.hostname with
  | some literal => addr = literal
  | none => answers.contains addr

/-- One step of a call of `Handler`. -/
def webhookStep (e : WebhookExecutor) (p : WebParsers) (s : WebhookPhase) (a : WebhookAct) :
    Option WebhookPhase :=
  match a, s with
  | .start metadata answer, .idle => some (e.begin p metadata answer)
  | .dial answers addr, .sending url requests seen =>
    if dialable p url answers addr then some (.sending url requests seen) else none
  | .respond r answer, .sending _ requests _ => some (e.receive p requests r answer)
  | .fail, .sending _ _ _ => some (.done (.error (.requestFailed .transport)))
  | _, _ => none

/-- The steps of a call of `Handler`, one by one. -/
inductive WebhookStep (e : WebhookExecutor) (p : WebParsers) :
    WebhookPhase → WebhookAct → WebhookPhase → Prop
  | start {metadata : Bytes → Bytes} {answer : Option (List Addr)} :
      WebhookStep e p .idle (.start metadata answer) (e.begin p metadata answer)
  | dial {url : Url} {requests : ℕ} {seen answers : List Addr} {addr : Addr}
      (h : dialable p url answers addr = true) :
      WebhookStep e p (.sending url requests seen) (.dial answers addr)
        (.sending url requests seen)
  | respond {url : Url} {requests : ℕ} {seen : List Addr} {r : Response}
      {answer : Option (List Addr)} :
      WebhookStep e p (.sending url requests seen) (.respond r answer)
        (e.receive p requests r answer)
  | fail {url : Url} {requests : ℕ} {seen : List Addr} :
      WebhookStep e p (.sending url requests seen) .fail
        (.done (.error (.requestFailed .transport)))

section Step

variable {e : WebhookExecutor} {p : WebParsers} {s s' : WebhookPhase} {a : WebhookAct}
  {answer : Option (List Addr)} {url : Url}

/-- Every step of `webhookStep` is one of the listed steps. -/
theorem webhookStep_sound (h : webhookStep e p s a = some s') : WebhookStep e p s a s' := by
  unfold webhookStep at h
  split at h
  · obtain rfl := Option.some.inj h
    exact .start
  · obtain ⟨hdial, h⟩ := Option.ite_none_right_eq_some.mp h
    obtain rfl := Option.some.inj h
    exact .dial hdial
  · obtain rfl := Option.some.inj h
    exact .respond
  · obtain rfl := Option.some.inj h
    exact .fail
  · cases h

/-! ### What is checked -/

/-- A URL that passes the check has a public address for host, or a name that the resolver has
answered with public addresses only. -/
theorem validateURL_ok (h : e.validateURL p answer url = .ok ()) :
    (∀ addr, p.parseAddr url.hostname = some addr → e.validateAddr addr = .ok ()) ∧
      (p.parseAddr url.hostname = none →
        ∀ addr ∈ answer.getD [], e.validateAddr addr = .ok ()) := by
  unfold WebhookExecutor.validateURL at h
  split_ifs at h
  split at h
  · rename_i literal hliteral
    rw [hliteral]
    refine ⟨fun addr haddr => ?_, nofun⟩
    obtain rfl := Option.some.inj haddr
    exact h
  · rename_i hname
    rw [hname]
    refine ⟨nofun, fun _ => ?_⟩
    split at h
    · cases h
    · cases h
    · exact forall_of_forM_eq_ok h

/-- At a request, the host is a public address, or the check has seen public addresses only. -/
def WebhookPhase.Ok (e : WebhookExecutor) (p : WebParsers) : WebhookPhase → Prop
  | .sending url _ seen =>
    (∀ addr, p.parseAddr url.hostname = some addr → e.validateAddr addr = .ok ()) ∧
      (p.parseAddr url.hostname = none → ∀ addr ∈ seen, e.validateAddr addr = .ok ())
  | .idle | .done _ => True

theorem begin_ok (metadata : Bytes → Bytes) : (e.begin p metadata answer).Ok e p := by
  unfold WebhookExecutor.begin
  dsimp only
  split
  · trivial
  · split
    · trivial
    · split
      · trivial
      · rename_i url _ hvalid
        split
        · exact validateURL_ok hvalid
        · trivial

theorem receive_ok (requests : ℕ) (r : Response) : (e.receive p requests r answer).Ok e p := by
  unfold WebhookExecutor.receive
  split
  · split
    · trivial
    · trivial
    · split
      · trivial
      · split
        · trivial
        · exact validateURL_ok ‹_›
  · trivial

/-- Every step keeps it. -/
theorem step_phaseOk (hs : s.Ok e p) (h : webhookStep e p s a = some s') : s'.Ok e p := by
  cases webhookStep_sound h with
  | start => exact begin_ok _
  | dial => exact hs
  | respond => exact receive_ok _ _
  | fail => trivial

theorem phaseOk_of_exec {as : List WebhookAct}
    (h : exec (webhookStep e p) .idle as = some s) : s.Ok e p :=
  exec_invariant (I := fun s => s.Ok e p) (fun _ _ _ => step_phaseOk) trivial h

end Step

/-! ### Connections -/

/-- A connection goes to an address that `validateAddr` lets pass. -/
def DialsPublic (e : WebhookExecutor) (_ : WebhookPhase) (a : WebhookAct) (_ : WebhookPhase) :
    Prop :=
  ∀ answers addr, a = .dial answers addr → e.validateAddr addr = .ok ()

/-- The client's lookup of a name leads to an address that the check of the same URL has not
seen. -/
def rebinds (p : WebParsers) : WebhookPhase → WebhookAct → Bool
  | .sending url _ seen, .dial _ addr =>
    (p.parseAddr url.hostname).isNone && !seen.contains addr
  | _, _ => false

/-- The client's lookups lead to addresses that the check has seen. -/
def NoRebinding (p : WebParsers) (s : WebhookPhase) (a : WebhookAct) (_ : WebhookPhase) : Prop :=
  rebinds p s a = false

/-- Where they do not, they lead to public addresses. -/
def RebindsPublic (e : WebhookExecutor) (p : WebParsers) (s : WebhookPhase) (a : WebhookAct)
    (s' : WebhookPhase) : Prop :=
  rebinds p s a = true → DialsPublic e s a s'

/-- A connection to a literal address, or to one that the check of the name has seen, goes to a
public address. -/
theorem public_of_not_rebinds {e : WebhookExecutor} {p : WebParsers} {s s' : WebhookPhase}
    {a : WebhookAct} (hok : s.Ok e p) (h : webhookStep e p s a = some s')
    (hno : rebinds p s a = false) : DialsPublic e s a s' := by
  rintro answers addr rfl
  cases webhookStep_sound h with
  | @dial url requests seen _ _ hdial =>
      cases hname : p.parseAddr url.hostname with
      | some literal =>
          have haddr : addr = literal := by simpa [dialable, hname] using hdial
          rw [haddr]
          exact hok.1 literal hname
      | none =>
          have hseen : addr ∈ seen := by simpa [rebinds, hname] using hno
          exact hok.2 hname addr hseen

/-- **Public addresses.** A run of the handler, over any chain of redirects and with any answers
to any lookup, connects to public addresses only if and only if every lookup by the client that
leads to an address the check has not seen leads to a public one. With answers that do not
change between the two lookups, it does. -/
theorem dialsPublic_iff (e : WebhookExecutor) (p : WebParsers) (as : List WebhookAct) :
    (AllSteps (webhookStep e p) (DialsPublic e) .idle as ↔
        AllSteps (webhookStep e p) (RebindsPublic e p) .idle as) ∧
      (AllSteps (webhookStep e p) (NoRebinding p) .idle as →
        AllSteps (webhookStep e p) (DialsPublic e) .idle as) := by
  constructor
  · refine allSteps_congr fun pre a post s s' has hpre ha => ⟨fun hpublic _ => hpublic, ?_⟩
    intro hpublic
    cases hrebinds : rebinds p s a with
    | true => exact hpublic hrebinds
    | false => exact public_of_not_rebinds (phaseOk_of_exec hpre) ha hrebinds
  · intro hno pre a post s s' has hpre ha
    exact public_of_not_rebinds (phaseOk_of_exec hpre) ha (hno pre a post s s' has hpre ha)

/-- The URL `http://example.com/`. -/
def sampleURL : Bytes :=
  ascii ['h', 't', 't', 'p', ':', '/', '/', 'e', 'x', 'a', 'm', 'p', 'l', 'e', '.', 'c', 'o', 'm',
    '/']

/-- The parsers, for that URL only. -/
def sampleParsers : WebParsers where
  parseURL text :=
    if text = sampleURL then
      some ⟨httpScheme, ascii ['e', 'x', 'a', 'm', 'p', 'l', 'e', '.', 'c', 'o', 'm'], false⟩
    else none
  parseAddr _ := none

/-- The name has a public address when it is checked, and the given one when the client looks it
up. -/
def sampleCall (addr : Addr) : List WebhookAct :=
  [.start (fun key => if key = urlKey then sampleURL else []) (some [.v4 93 184 216 34]),
    .dial [addr] addr]

/-- The same address both times. -/
theorem dialsPublic_iff_sampleCall :
    (exec (webhookStep ⟨false, 0⟩ sampleParsers) .idle
        (sampleCall (.v4 93 184 216 34))).isSome = true ∧
      AllSteps (webhookStep ⟨false, 0⟩ sampleParsers) (DialsPublic ⟨false, 0⟩) .idle
        (sampleCall (.v4 93 184 216 34)) := by
  refine ⟨by decide +kernel, (dialsPublic_iff _ _ _).2 ?_⟩
  exact allSteps_of_checkSteps_not (p := rebinds sampleParsers) (by decide +kernel)

/-- The loopback address when the client looks the name up. -/
theorem not_dialsPublic_loopback :
    ¬ AllSteps (webhookStep ⟨false, 0⟩ sampleParsers) (DialsPublic ⟨false, 0⟩) .idle
        (sampleCall (.v4 127 0 0 1)) := by
  intro h
  obtain ⟨s, hs, hstep⟩ := (Option.any_eq_true _ _).mp
    (show (exec (webhookStep ⟨false, 0⟩ sampleParsers) .idle
      ((sampleCall (.v4 127 0 0 1)).take 1)).any (fun s =>
      (webhookStep ⟨false, 0⟩ sampleParsers s (.dial [.v4 127 0 0 1] (.v4 127 0 0 1))).isSome) =
        true by decide +kernel)
  obtain ⟨s', hs'⟩ := Option.isSome_iff_exists.mp hstep
  have hpublic := h _ _ [] s s' rfl hs hs' _ _ rfl
  revert hpublic
  decide +kernel

end Conduit
