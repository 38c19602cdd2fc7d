import Conduit.Webhook

/-!
# The Class of a Webhook Failure

An error of `Handler` that carries `retry.ErrNoRetry` sends its job to the dead letters at once;
any other is tried again. A failure should be of the first kind if the job's target or data are
at fault, or if the server has refused the request for good, and of the second kind otherwise.

`Handler` marks everything that goes wrong before the first request, so a resolver that does not
answer counts as a bad URL; and it marks nothing that the HTTP client returns, so a redirect to a
forbidden target counts as a failure of the network. These, and statuses beyond 599, are the only
failures that it puts into the wrong class.

## Main results

* `validateURL_lookup`: when the check of a URL fails for its lookup.
* `classified_iff`: which calls put a failure into the wrong class.
-/

namespace Conduit

open Strings Transition

/-! ### Causes -/

/-- The URL is at fault, and not the lookup of its host. -/
def UrlError.ofTarget : UrlError → Bool
  | .resolve _ | .noAddresses _ => false
  | .scheme | .userinfo | .hostRequired | .localhost | .notPublic _ => true

/-- The failure is due to the job's target or data, or is a final status that is neither a
success nor one of 408, 429 and 5xx. -/
def WebhookError.permanent : WebhookError → Bool
  | .urlRequired | .invalidURL | .unsupportedMethod _ => true
  | .unsafeURL e => e.ofTarget
  | .requestFailed .transport => false
  | .requestFailed .location => true
  | .requestFailed (.redirect e) => e.ofTarget
  | .status code _ => !(code = 408 || code = 429 || (500 ≤ code && code < 600))

/-- A call that ends with an error puts it into the right class. -/
def Classified (_ : WebhookPhase) (_ : WebhookAct) (s' : WebhookPhase) : Prop :=
  ∀ err, s' = .done (.error err) → err.noRetry = err.permanent

/-- The check of the URL comes to its lookup, which has no answer or no address. -/
def lookupFails (p : WebParsers) (answer : Option (List Addr)) (url : Url) : Bool :=
  (url.scheme = httpScheme || url.scheme = httpsScheme) && !url.user && url.hostname ≠ [] &&
    !isLocalhost url.hostname && (p.parseAddr url.hostname).isNone && (answer.getD []).isEmpty

/-- The check of the URL fails, and not for its lookup. -/
def targetRefused (e : WebhookExecutor) (p : WebParsers) (answer : Option (List Addr))
    (url : Url) : Bool :=
  !(e.validateURL p answer url).isOk && !lookupFails p answer url

/-- What puts a failure into the wrong class: a lookup that fails before the first request, a
redirect to a target that is refused or cannot be parsed, or a final status beyond 599. -/
def misclassifies (e : WebhookExecutor) (p : WebParsers) : WebhookPhase → WebhookAct → Bool
  | .idle, .start metadata answer =>
    trimSpace (metadata urlKey) ≠ [] &&
      (p.parseURL (trimSpace (metadata urlKey))).any (lookupFails p answer)
  | .sending _ requests _, .respond r answer =>
    if r.status ∈ redirectStatuses then
      match r.location with
      | .missing => false
      | .unparsable => true
      | .url url => requests < e.maxRedirects && targetRefused e p answer url
    else 600 ≤ r.status
  | _, _ => false

section Class

variable {e : WebhookExecutor} {p : WebParsers} {answer : Option (List Addr)} {url : Url}

/-- An address that is refused is at fault. -/
theorem ofTarget_of_validateAddr {addr : Addr} {err : UrlError}
    (h : e.validateAddr addr = .error err) : err.ofTarget = true := by
  unfold WebhookExecutor.validateAddr at h
  split_ifs at h
  obtain rfl := Except.error.inj h
  rfl

theorem ofTarget_of_validateAddrs {addrs : List Addr} {err : UrlError}
    (h : addrs.forM e.validateAddr = .error err) : err.ofTarget = true := by
  induction addrs with
  | nil => cases h
  | cons addr addrs ih =>
      cases haddr : e.validateAddr addr with
      | error err' =>
          have herr : err' = err := by
            simpa [List.forM_cons, haddr, bind, Except.bind] using h
          exact ofTarget_of_validateAddr (herr ▸ haddr)
      | ok u =>
          refine ih ?_
          simpa [List.forM_cons, haddr, bind, Except.bind] using h

/-- **The check of a URL** fails for its lookup exactly when it comes to it and there is no
answer or no address. -/
theorem validateURL_lookup {err : UrlError} (h : e.validateURL p answer url = .error err) :
    err.ofTarget = !lookupFails p answer url := by
  unfold WebhookExecutor.validateURL at h
  unfold lookupFails
  split_ifs at h with hscheme huser hhost hlocal
  · obtain rfl := Except.error.inj h
    simp [UrlError.ofTarget, hscheme]
  · obtain rfl := Except.error.inj h
    simp [UrlError.ofTarget, huser]
  · obtain rfl := Except.error.inj h
    simp [UrlError.ofTarget, hhost]
  · obtain rfl := Except.error.inj h
    simp [UrlError.ofTarget, hlocal]
  · have hscheme' : (decide (url.scheme = httpScheme) || decide (url.scheme = httpsScheme)) =
        true := by
      simp only [Bool.or_eq_true, decide_eq_true_eq]
      tauto
    split at h
    · rename_i addr haddr
      simp [ofTarget_of_validateAddr h, haddr]
    · rename_i hname
      split at h
      · obtain rfl := Except.error.inj h
        simp [UrlError.ofTarget, hscheme', huser, hhost, hlocal, hname]
      · obtain rfl := Except.error.inj h
        simp [UrlError.ofTarget, hscheme', huser, hhost, hlocal, hname]
      · simp [ofTarget_of_validateAddrs h]

/-- A URL that passes the check has been looked up, if it was. -/
theorem not_lookupFails (h : e.validateURL p answer url = .ok ()) :
    lookupFails p answer url = false := by
  rw [Bool.eq_false_iff]
  intro hfails
  simp only [lookupFails, Bool.and_eq_true, Bool.or_eq_true, decide_eq_true_eq,
    Bool.not_eq_true', Option.isNone_iff_eq_none, List.isEmpty_iff] at hfails
  obtain ⟨⟨⟨⟨⟨hscheme, huser⟩, hhost⟩, hlocal⟩, hname⟩, hanswer⟩ := hfails
  unfold WebhookExecutor.validateURL at h
  rw [if_neg (by tauto), if_neg (by simp [huser]), if_neg hhost, if_neg (by simp [hlocal]),
    hname] at h
  match answer, hanswer with
  | none, _ => cases h
  | some [], _ => cases h

/-- Only an error has a class. -/
theorem classified_of_ne {s s' : WebhookPhase} {a : WebhookAct}
    (h : ∀ err, s' ≠ .done (.error err)) : Classified s a s' := fun err hdone =>
  absurd hdone (h err)

theorem classified_error_iff {s : WebhookPhase} {a : WebhookAct} {err : WebhookError} :
    Classified s a (.done (.error err)) ↔ err.noRetry = err.permanent := by
  constructor
  · intro h
    exact h err rfl
  · rintro h err' hdone
    injection hdone with hdone
    obtain rfl := Except.error.inj hdone
    exact h

/-- Before the first request, a failed lookup is what goes into the wrong class. -/
theorem classified_begin_iff (metadata : Bytes → Bytes) :
    Classified .idle (.start metadata answer) (e.begin p metadata answer) ↔
      misclassifies e p .idle (.start metadata answer) = false := by
  unfold WebhookExecutor.begin misclassifies
  dsimp only
  by_cases hempty : trimSpace (metadata urlKey) = []
  · rw [if_pos hempty, classified_error_iff]
    simp [hempty, WebhookError.noRetry, WebhookError.permanent]
  · rw [if_neg hempty]
    cases hparse : p.parseURL (trimSpace (metadata urlKey)) with
    | none =>
        dsimp only
        rw [classified_error_iff]
        simp [WebhookError.noRetry, WebhookError.permanent]
    | some url =>
        dsimp only
        cases hvalid : e.validateURL p answer url with
        | error err =>
            dsimp only
            rw [classified_error_iff, WebhookError.noRetry, WebhookError.permanent,
              validateURL_lookup hvalid]
            simp [hempty]
        | ok u =>
            dsimp only
            simp only [Option.any_some, not_lookupFails hvalid, Bool.and_false, iff_true]
            split
            · exact classified_of_ne nofun
            · rw [classified_error_iff]
              rfl

/-- A status that is final. -/
theorem classified_final_iff {s : WebhookPhase} {a : WebhookAct} (r : Response) :
    Classified s a (.done (finalResult r)) ↔ r.status < 600 := by
  unfold finalResult
  split
  · rename_i hok
    refine iff_of_true (classified_of_ne nofun) (by omega)
  · rw [classified_error_iff, WebhookError.noRetry, WebhookError.permanent]
    by_cases hlt : r.status < 600
    · simp [hlt]
    · have hhigh : 500 ≤ r.status := by omega
      have hne : r.status ≠ 408 ∧ r.status ≠ 429 := by omega
      simp [hlt, hhigh, hne]

/-- After a request. -/
theorem classified_receive_iff (url : Url) (requests : ℕ) (seen : List Addr) (r : Response) :
    Classified (.sending url requests seen) (.respond r answer)
        (e.receive p requests r answer) ↔
      misclassifies e p (.sending url requests seen) (.respond r answer) = false := by
  unfold WebhookExecutor.receive misclassifies
  by_cases hredirect : r.status ∈ redirectStatuses
  · have hlow : ∀ code ∈ redirectStatuses, code < 600 := by decide
    have hfinal : Classified (.sending url requests seen) (.respond r answer)
        (.done (finalResult r)) := (classified_final_iff r).mpr (hlow _ hredirect)
    rw [if_pos hredirect]
    dsimp only
    rw [if_pos hredirect]
    cases r.location with
    | missing => exact iff_of_true hfinal rfl
    | unparsable =>
        rw [classified_error_iff]
        exact iff_of_false nofun nofun
    | url target =>
        dsimp only
        by_cases hlast : e.maxRedirects ≤ requests
        · rw [if_pos hlast, decide_eq_false (Int.not_lt.mpr hlast)]
          exact iff_of_true hfinal rfl
        · rw [if_neg hlast, decide_eq_true (Int.not_le.mp hlast), Bool.true_and, targetRefused]
          cases hvalid : e.validateURL p answer target with
          | error err =>
              dsimp only
              rw [classified_error_iff, WebhookError.noRetry, WebhookError.permanent,
                validateURL_lookup hvalid]
              cases lookupFails p answer target <;> simp [Except.isOk, Except.toBool]
          | ok u => exact iff_of_true (classified_of_ne nofun) rfl
  · rw [if_neg hredirect]
    dsimp only
    rw [if_neg hredirect, classified_final_iff, decide_eq_false_iff_not, Nat.not_le]

end Class

/-- **The class of a failure.** A call of `Handler`, over any answers of the resolver, any chain
of redirects and any responses, puts its failure into the right class if and only if none of the
steps of the call is one of those that do not. -/
theorem classified_iff (e : WebhookExecutor) (p : WebParsers) (as : List WebhookAct) :
    AllSteps (webhookStep e p) Classified .idle as ↔
      AllSteps (webhookStep e p) (fun s a _ => misclassifies e p s a = false) .idle as := by
  refine allSteps_congr fun pre a post s s' has hpre ha => ?_
  cases webhookStep_sound ha with
  | start => exact classified_begin_iff _
  | dial => exact iff_of_true (classified_of_ne nofun) rfl
  | respond => exact classified_receive_iff _ _ _ _
  | fail => exact iff_of_true (classified_error_iff.mpr rfl) rfl

/-- The URL of `sampleCall`. -/
def sampleTarget : Bytes → Bytes := fun key => if key = urlKey then sampleURL else []

/-- A redirect to "http://localhost". -/
def redirectToLocalhost : Response where
  status := 302
  body := []
  location := .url ⟨httpScheme, ascii ['l', 'o', 'c', 'a', 'l', 'h', 'o', 's', 't'], false⟩

/-- A resolver that does not answer before the first request makes the failure permanent, and a
redirect to a forbidden host makes one that is tried again. -/
theorem not_classified_samples :
    ¬ AllSteps (webhookStep ⟨false, 3⟩ sampleParsers) Classified .idle
        [.start sampleTarget none] ∧
      ¬ AllSteps (webhookStep ⟨false, 3⟩ sampleParsers) Classified .idle
        [.start sampleTarget (some [.v4 93 184 216 34]), .respond redirectToLocalhost none] := by
  constructor
  · intro h
    have hstep := classified_begin_iff sampleTarget |>.mp (h [] _ [] _ _ rfl rfl rfl)
    revert hstep
    decide +kernel
  · intro h
    obtain ⟨s, hs, hsending⟩ := (Option.any_eq_true _ _).mp
      (show (exec (webhookStep ⟨false, 3⟩ sampleParsers) .idle
        [.start sampleTarget (some [.v4 93 184 216 34])]).any (fun s =>
          misclassifies ⟨false, 3⟩ sampleParsers s (.respond redirectToLocalhost none)) = true by
        decide +kernel)
    cases s with
    | sending url requests seen =>
        have hstep := (classified_receive_iff url requests seen redirectToLocalhost).mp
          (h _ _ [] _ _ rfl hs rfl)
        rw [hsending] at hstep
        cases hstep
    | _ => cases hsending

end Conduit
