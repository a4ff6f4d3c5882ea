import Dkron.AgentServer
import Dkron.ClientPool
import Dkron.Headers
import Dkron.Lib.Decimal
import Dkron.Lib.Pooling

/-!
# The HTTP executor

`HTTP.ExecuteImpl` sends the request of a job with a client that is shared by all jobs whose
configurations have the same key, and compares the response with what the configuration expects.

* Requests run at the same time, look up their client and add one that they had to create. Along
  all runs each has the client of its own configuration if no value in the configurations reads as
  two settings (`own_client_iff`).
* The expected codes are searched as a text: a code is accepted if a part of the list ends with it
  (`http_success_iff`).

Files do not change while clients are created from them.
-/

namespace Dkron

open Pooling

/-! ## Clients -/

/-- What the executor calls. -/
structure HttpHost where
  /-- The text of the error of `strconv.Atoi`. -/
  atoiError : String → String
  /-- The text of the error of `strconv.ParseBool`. -/
  parseBoolError : String → String
  /-- `tls.LoadX509KeyPair`. -/
  loadX509KeyPair : String → String → Except String String
  loadCertPool : String → Except String String
  /-- `http.NewRequest`, of the method, the URL and the body. -/
  newRequest : String → String → String → Except String Unit
  /-- `json.Unmarshal` of the headers: what it fills in, and whether it succeeds. -/
  unmarshalHeaders : String → List String × Bool
  /-- `regexp.MatchString`. -/
  matchString : String → Bytes → Bool
  /-- The format `%#v` of the configuration. -/
  formatConfig : StrMap → String

/-- `http.Client`, as far as it depends on the configuration; its timeout in nanoseconds. -/
structure HttpClient where
  timeout : Int
  insecureSkipVerify : Bool
  certificates : List String
  rootCAs : Option String
deriving DecidableEq, Repr

/-- `atoiOrDefault`, with the text of its error. -/
def atoiOrDefault (host : HttpHost) (s : String) (default : Int) : Int × Option String :=
  match parseInt s with
  | some i => (i, none)
  | none =>
    (default, some ("\"" ++ s ++ "\" not understood (" ++ host.atoiError s ++
      "), using default value of " ++ toString default))

/-- `strconv.ParseBool`. -/
def parseBool (s : String) : Option Bool :=
  if s ∈ ["1", "t", "T", "TRUE", "true", "True"] then some true
  else if s ∈ ["0", "f", "F", "FALSE", "false", "False"] then some false
  else none

/-- The timeout in seconds if none is given. -/
def httpTimeout : Int := 30

/-- `createClient`, with its warnings. -/
def createClient (host : HttpHost) (config : StrMap) : HttpClient × List String :=
  let (seconds, atoiErr) := atoiOrDefault host (config.at "timeout") httpTimeout
  let verify := parseBool (config.at "tlsNoVerifyPeer")
  let cert :=
    if config.at "tlsCertificateFile" = "" then none
    else some (host.loadX509KeyPair (config.at "tlsCertificateFile")
      (config.at "tlsCertificateKeyFile"))
  let pool :=
    if config.at "tlsRootCAsFile" = "" then none
    else some (host.loadCertPool (config.at "tlsRootCAsFile"))
  ({ timeout := wrap64 (seconds * 10 ^ 9)
     insecureSkipVerify := verify.getD false
     certificates := match cert with
       | some (.ok cert) => [cert]
       | _ => []
     rootCAs := match pool with
       | some (.ok roots) => some roots
       | _ => none },
   (match atoiErr with
    | some err => if config.at "timeout" ≠ "" then ["invalid timeout value: " ++ err] else []
    | none => []) ++
   (if config.at "tlsNoVerifyPeer" ≠ "" ∧ verify = none then
      ["not disabling certificate validation: " ++
        host.parseBoolError (config.at "tlsNoVerifyPeer")] else []) ++
   (match cert with
    | some (.error err) => ["not using client certificate: " ++ err]
    | _ => []) ++
   match pool with
   | some (.error err) => ["using system root CAs instead of configured CAs: " ++ err]
   | _ => [])

def maxClientPoolSize : ℕ := 100

/-- The pool of the clients, an `lru.Cache`. -/
def clientPool : Pool (List (String × HttpClient)) String HttpClient :=
  .recent (maxClientPoolSize - 1)

/-- Requests that look up and add clients. -/
def clientRun {σ : Type} (pool : Pool σ String HttpClient) (host : HttpHost)
    (sha256 : String → String) (events : List (Pooling.Event StrMap)) :
    Pooling.State σ StrMap HttpClient :=
  Pooling.run pool (generateClientKey sha256) (fun config => (createClient host config).1) events

/-! ## Requests -/

/-- The client that was found in the pool, or a new one, with its warnings. -/
def HttpHost.client (host : HttpHost) (found : Option HttpClient) (config : StrMap) :
    HttpClient × List String :=
  match found with
  | some client => (client, [])
  | none => createClient host config

/-- The headers of the configuration, and whether they could be parsed. -/
def HttpHost.headers (host : HttpHost) (config : StrMap) : List String × Bool :=
  if config.at "headers" ≠ "" then host.unmarshalHeaders (config.at "headers") else ([], true)

/-- What is wrong with a response. -/
def HttpHost.mismatch (host : HttpHost) (config : StrMap) (statusCode : ℕ) (out : Bytes) :
    Option String :=
  if config.at "expectCode" ≠ "" ∧
      ¬containsText (config.at "expectCode" ++ ",") (toString statusCode ++ ",") then
    some "received response code does not match the expected code"
  else if config.at "expectBody" ≠ "" ∧ ¬host.matchString (config.at "expectBody") out then
    some "received response body did not match the expected body"
  else none

/-- `ExecuteImpl`: what is written to the output, and the error. `send` does a request and reads the
body of the response. There is no result when a header panics. -/
def HttpHost.executeImpl (host : HttpHost)
    (send : HttpClient → StrMap → List HeaderSetting → Except String (ℕ × Except String Bytes))
    (found : Option HttpClient) (config : StrMap) : Option (List Bytes × Option String) :=
  let output :=
    if config.at "debug" ≠ "" then
      [("Config: " ++ host.formatConfig config ++ "\n").toUTF8.toList]
    else []
  if config.at "url" = "" then some (output, some "url is empty")
  else if config.at "method" = "" then some (output, some "method is empty")
  else
    match host.newRequest (config.at "method") (config.at "url") (config.at "body") with
    | .error err => some (output, some err)
    | .ok () =>
      let (headers, parsed) := host.headers config
      let output := output ++
        if parsed then [] else ["Error: parsing headers failed\n".toUTF8.toList]
      match executeImplHeaders headers with
      | none => none
      | some settings =>
        let (client, warns) := host.client found config
        let output := output ++ warns.map fun warn => ("Warning: " ++ warn ++ ".\n").toUTF8.toList
        match send client config settings with
        | .error err | .ok (_, .error err) => some (output, some err)
        | .ok (statusCode, .ok out) =>
          some (output ++ [out], host.mismatch config statusCode out)

/-- `Execute`. -/
def HttpHost.execute (host : HttpHost) (buffer : List Bytes → Bytes)
    (send : HttpClient → StrMap → List HeaderSetting → Except String (ℕ × Except String Bytes))
    (found : Option HttpClient) (config : StrMap) : Option ExecuteResponse :=
  (host.executeImpl send found config).map fun (output, err) =>
    { output := buffer output, error := err.getD "" }

/-! ## Whose client it is -/

/-- A client depends on nothing but the settings in its key. -/
theorem createClient_congr (host : HttpHost) {c c' : StrMap} (h : SameSettings c c') :
    createClient host c = createClient host c' := by
  have hsettings (k : ClientSetting) : c.at k.key = c'.at k.key := h k (mem_relevantKeys k)
  have htimeout : c.at "timeout" = c'.at "timeout" := hsettings .timeout
  have hverify : c.at "tlsNoVerifyPeer" = c'.at "tlsNoVerifyPeer" := hsettings .tlsNoVerifyPeer
  have hroots : c.at "tlsRootCAsFile" = c'.at "tlsRootCAsFile" := hsettings .tlsRootCAsFile
  have hcert : c.at "tlsCertificateFile" = c'.at "tlsCertificateFile" :=
    hsettings .tlsCertificateFile
  have hkey : c.at "tlsCertificateKeyFile" = c'.at "tlsCertificateKeyFile" :=
    hsettings .tlsCertificateKeyFile
  simp only [createClient, htimeout, hverify, hroots, hcert, hkey]

/-- Configurations without a value that reads as two settings have a key of their own. -/
theorem sameSettings_of_key {sha256 : String → String} (hsha256 : Function.Injective sha256)
    {c c' : StrMap} (hc : ∀ p ∈ settings c, ¬Splits p) (hc' : ∀ p ∈ settings c', ¬Splits p)
    (hkey : generateClientKey sha256 c = generateClientKey sha256 c') : SameSettings c c' := by
  rw [generateClientKey, generateClientKey, hsha256.eq_iff, clientText_eq_iff] at hkey
  rw [sameSettings_iff]
  exact (Tagged.Tagging.encode_inj (settings_valid c) (settings_valid c') hc hc' hkey).symm

/-- **Shared clients.** Whatever the pool drops, in all runs of allowed configurations each request
has the client that its own configuration creates, if and only if allowed configurations with one
key create one client. With an injective hash, configurations none of whose values reads as two
settings are such. -/
theorem own_client_iff {σ : Type} (pool : Pool σ String HttpClient) (host : HttpHost)
    (sha256 : String → String) :
    (∀ allowed : StrMap → Prop,
      (∀ events, (∀ c, .start c ∈ events → allowed c) →
        ∀ p ∈ (clientRun pool host sha256 events).processes,
          p.value = (createClient host p.request).1) ↔
      ∀ c c', allowed c → allowed c' →
        generateClientKey sha256 c = generateClientKey sha256 c' →
        (createClient host c).1 = (createClient host c').1) ∧
    (Function.Injective sha256 →
      ∀ events, (∀ c, .start c ∈ events → ∀ p ∈ settings c, ¬Splits p) →
        ∀ p ∈ (clientRun pool host sha256 events).processes,
          p.value = (createClient host p.request).1) := by
  refine ⟨fun allowed => own_iff allowed, fun hsha256 => (own_iff _).2 fun c c' hc hc' hkey => ?_⟩
  rw [createClient_congr host (sameSettings_of_key hsha256 hc hc' hkey)]

/-- A host on which nothing is found. -/
def HttpHost.small : HttpHost where
  atoiError s := s
  parseBoolError s := s
  loadX509KeyPair _ _ := .error "no such file or directory"
  loadCertPool _ := .error "no such file or directory"
  newRequest _ _ _ := .ok ()
  unmarshalHeaders _ := ([], true)
  matchString _ _ := true
  formatConfig _ := ""

/-- A request that asks for no verification gets a client that verifies. -/
example : ((clientRun clientPool .small id
    [.start longTimeout, .add 0, .start uncheckedPeer]).processes.map
      fun p => p.value.insecureSkipVerify) = [false, false] ∧
    (createClient .small uncheckedPeer).1.insecureSkipVerify = true := by decide

/-! ## What is expected -/

/-- What stands before the first comma and what stands behind it. -/
theorem cut_at_comma {u v w t : List Char} (hu : ',' ∉ u) (hw : ',' ∉ w)
    (h : u ++ ',' :: v = w ++ ',' :: t) : u = w ∧ v = t := by
  have hparts := congrArg (List.splitOn ',') h
  rw [List.splitOn_append_cons_self_of_not_mem hu, List.splitOn_append_cons_self_of_not_mem hw]
    at hparts
  obtain rfl := (List.cons.inj hparts).1
  exact ⟨rfl, (List.cons.inj (List.append_cancel_left h)).2⟩

theorem infix_cons_comma_iff {d w : List Char} (hd : ',' ∉ d) (hw : ',' ∉ w) (t : List Char) :
    d ++ [','] <:+: w ++ ',' :: t ↔ d <:+ w ∨ d ++ [','] <:+: t := by
  constructor
  · rintro ⟨u, v, h⟩
    by_cases hu : ',' ∈ u
    · obtain ⟨u₁, u₂, rfl, hu₁⟩ := List.eq_append_cons_of_mem hu
      have hcut : u₁ ++ ',' :: (u₂ ++ (d ++ [',']) ++ v) = w ++ ',' :: t := by simpa using h
      obtain ⟨-, rfl⟩ := cut_at_comma hu₁ hw hcut
      exact .inr ⟨u₂, v, rfl⟩
    · have hcut : (u ++ d) ++ ',' :: v = w ++ ',' :: t := by simpa using h
      have hud : ',' ∉ u ++ d := fun hmem => (List.mem_append.1 hmem).elim hu hd
      obtain ⟨rfl, -⟩ := cut_at_comma hud hw hcut
      exact .inl (List.suffix_append u d)
  · rintro (⟨u, rfl⟩ | ⟨u, v, rfl⟩)
    · exact ⟨u, t, by simp⟩
    · exact ⟨w ++ ',' :: u, v, by simp⟩

/-- A text without commas is found before a comma exactly if a part of the list ends with it. -/
theorem infix_append_comma_iff {d : List Char} (hd : ',' ∉ d) (cs : List Char) :
    d ++ [','] <:+: cs ++ [','] ↔ ∃ part ∈ cs.splitOn ',', d <:+ part := by
  induction hn : cs.length using Nat.strong_induction_on generalizing cs with
  | _ n ih =>
    by_cases hcomma : ',' ∈ cs
    · obtain ⟨w, rest, rfl, hw⟩ := List.eq_append_cons_of_mem hcomma
      have hrest := ih rest.length (by rw [← hn]; simp; omega) rest rfl
      rw [List.splitOn_append_cons_self_of_not_mem hw, List.append_assoc, List.cons_append,
        infix_cons_comma_iff hd hw, hrest]
      simp
    · rw [List.splitOn_eq_singleton hcomma, infix_cons_comma_iff hd hcomma]
      simp

/-- The code is accepted if a part of the list ends with it. -/
theorem containsText_code_iff (expected : String) (statusCode : ℕ) :
    containsText (expected ++ ",") (toString statusCode ++ ",") ↔
      ∃ part ∈ splitText ',' expected, (toString statusCode).toList <:+ part.toList := by
  have hd : ',' ∉ (toString statusCode).toList := fun hmem =>
    absurd (Decimal.isDigit_of_mem_repr hmem) (by decide)
  have hcomma : ",".toList = [','] := rfl
  rw [containsText, decide_eq_true_iff, String.toList_append, String.toList_append, hcomma,
    infix_append_comma_iff hd, splitText]
  simp

theorem mismatch_eq_none_iff (host : HttpHost) (config : StrMap) (statusCode : ℕ) (out : Bytes) :
    host.mismatch config statusCode out = none ↔
      (config.at "expectCode" = "" ∨ ∃ part ∈ splitText ',' (config.at "expectCode"),
        (toString statusCode).toList <:+ part.toList) ∧
      (config.at "expectBody" = "" ∨ host.matchString (config.at "expectBody") out) := by
  rw [HttpHost.mismatch, ← containsText_code_iff]
  by_cases hcode : config.at "expectCode" = "" ∨
      containsText (config.at "expectCode" ++ ",") (toString statusCode ++ ",")
  · rw [if_neg (by tauto), and_iff_right hcode]
    split_ifs with hbody
    · simp only [false_iff]
      tauto
    · simp only [true_iff]
      tauto
  · rw [if_pos (by tauto)]
    simp only [reduceCtorEq, false_iff]
    exact fun h => hcode h.1

/-- **When a request succeeds.** The executor reports no error exactly if the configuration gives a
method, a URL and headers that can be set, a response is read, one of the parts of the expected
codes ends with its code, and its body matches; what is not configured is not asked. -/
theorem http_success_iff (host : HttpHost)
    (send : HttpClient → StrMap → List HeaderSetting → Except String (ℕ × Except String Bytes))
    (found : Option HttpClient) (config : StrMap) :
    (∃ output, host.executeImpl send found config = some (output, none)) ↔
      config.at "url" ≠ "" ∧ config.at "method" ≠ "" ∧
      host.newRequest (config.at "method") (config.at "url") (config.at "body") = .ok () ∧
      ∃ settings, executeImplHeaders (host.headers config).1 = some settings ∧
        ∃ statusCode out,
          send (host.client found config).1 config settings = .ok (statusCode, .ok out) ∧
          (config.at "expectCode" = "" ∨ ∃ part ∈ splitText ',' (config.at "expectCode"),
            (toString statusCode).toList <:+ part.toList) ∧
          (config.at "expectBody" = "" ∨ host.matchString (config.at "expectBody") out) := by
  simp only [← mismatch_eq_none_iff]
  unfold HttpHost.executeImpl
  by_cases hurl : config.at "url" = ""
  · simp [hurl]
  by_cases hmethod : config.at "method" = ""
  · simp [hurl, hmethod]
  simp only [hurl, hmethod, if_false, ne_eq, not_false_eq_true, true_and]
  cases host.newRequest (config.at "method") (config.at "url") (config.at "body") with
  | error err => simp
  | ok u =>
    simp only [true_and]
    cases executeImplHeaders (host.headers config).1 with
    | none => simp
    | some settings =>
      simp only [Option.some.injEq, exists_eq_left']
      rcases send (host.client found config).1 config settings with err | ⟨statusCode, err | out⟩
      · simp
      · simp
      · simp

end Dkron
