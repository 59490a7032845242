/-
Kairon/Memory/EgressGateway.lean

The symbol egress gateway: `symbol_egress_gateway`.

`_download` builds the first URL from the signed payload, follows redirects and hands out
the body of the last response.  A run is given by one `Exchange` for each turn of its
loop: what the clock, the name service and the server say there.  `connect` is what a turn
checks before it connects, `answer` what it makes of the response, and `download` gathers
the connections that were opened.

The policy of the module's docstring is `Safe`.  It does not hold of every run:
`download_safe_iff` says which answers of the servers break it.
-/
import Kairon.Lib.Settle
import Kairon.Lib.Url
import Kairon.Search.Value

namespace Kairon.Gateway

open Search Settle

/-! ### What the module uses of the library -/

structure GatewayError where
  statusCode : ℕ
  code : String
  message : String

/-- What a call raises: an error of the gateway, or another exception. -/
inductive Failure
  | gateway (e : GatewayError)
  | other

abbrev Attempt := Except Failure

/-- The flags of an `ipaddress.ip_address`. -/
structure Address where
  isGlobal : Bool
  isLoopback : Bool
  isLinkLocal : Bool
  isMulticast : Bool
  isUnspecified : Bool
  isReserved : Bool
  isPrivate : Bool

structure Net where
  conv : Url.Conventions
  upper : Text → Text
  /-- `int(s)`; `none` where it raises. -/
  parseInt : Text → Option ℤ
  parseInt_comma : ∀ text, ',' ∈ text → parseInt text = none
  /-- `ipaddress.ip_address`; `none` where it raises. -/
  ipAddress : Text → Option Address
  /-- Whether `http.client` takes the host and the target of a request. -/
  sendable : Text → Text → Bool

def Net.lower (net : Net) : Text → Text := net.conv.lower

def raised (statusCode : ℕ) (code message : String) : Failure :=
  .gateway ⟨statusCode, code, message⟩

/-- `if not c: raise e`. -/
def require (c : Prop) [Decidable c] (e : Failure) : Attempt Unit := if c then .ok () else .error e

/-- The value, where there is one; an exception otherwise. -/
def orRaise {α : Type} (value : Option α) (e : Failure) : Attempt α :=
  match value with
  | some a => .ok a
  | none => .error e

@[simp] theorem require_eq_ok {c : Prop} [Decidable c] {e : Failure} {u : Unit} :
    require c e = .ok u ↔ c := by
  rw [require]
  split_ifs with h
  · exact iff_of_true rfl h
  · exact iff_of_false nofun h

@[simp] theorem orRaise_eq_ok {α : Type} {value : Option α} {e : Failure} {a : α} :
    orRaise value e = .ok a ↔ value = some a := by
  rcases value with - | b
  · exact iff_of_false nofun nofun
  · exact ⟨fun h => congrArg some (Except.ok.inj h), fun h => congrArg Except.ok (Option.some.inj h)⟩

/-- `str.rstrip(".")`. -/
def rstripDots (text : Text) : Text := text.rdropWhile (· = '.')

/-- `str.lstrip(".")`. -/
def lstripDots (text : Text) : Text := text.dropWhile (· = '.')

/-! ### The policy constants -/

def approvedInitialHost : Text := "msdl.microsoft.com".toList

def approvedInitialPathPrefix : Text := "/download/symbols/".toList

def blobSuffix : Text := ".blob.core.windows.net".toList

def approvedRedirectSuffixes : List Text := [blobSuffix]

def defaultMaxRedirects : ℕ := 5

/-- `_TRAVERSAL_SEGMENT`, which ignores case. -/
def isTraversal (segment : Text) : Bool :=
  segment.map Char.toLower = "%2e%2e".toList || segment = "..".toList

/-- `GatewaySettings`, as far as a download reads them. -/
structure Settings where
  initialHost : Text
  pathPrefix : Text
  redirectSuffixes : List Text
  totalTimeout : ℤ
  maxRedirects : ℕ
  maxBytes : ℕ
  host_approved : initialHost = approvedInitialHost
  prefix_approved : pathPrefix = approvedInitialPathPrefix
  suffixes_approved : ∀ suffix ∈ redirectSuffixes, suffix ∈ approvedRedirectSuffixes
  redirects_capped : maxRedirects ≤ defaultMaxRedirects

/-- The default of `chunk_size`. -/
def chunkSize : ℕ := 1024 * 1024

/-! ### The payload -/

/-- `[A-Za-z0-9_.-]`, with the four letters that ignoring case adds to it. -/
def isNameChar (c : Char) : Bool :=
  c.isAlphanum || c ∈ ['_', '.', '-', Char.ofNat 0x130, Char.ofNat 0x131, Char.ofNat 0x212A,
    Char.ofNat 0x17F]

/-- `PDB_NAME`, and no separator. -/
def IsPdbName (value : Text) : Prop :=
  let stem := value.take (value.length - 4)
  (1 ≤ stem.length ∧ stem.length ≤ 120 ∧ stem.all isNameChar ∧
    (value.drop (value.length - 4)).map Char.toLower = ".pdb".toList) ∧
      '/' ∉ value ∧ '\\' ∉ value ∧ '%' ∉ value

instance (value : Text) : Decidable (IsPdbName value) := by unfold IsPdbName; infer_instance

/-- `PDB_GUID`. -/
def IsGuid (value : Text) : Prop :=
  value.length = 32 ∧ value.all fun c => c.isDigit || ('A' ≤ c && c ≤ 'F')

instance (value : Text) : Decidable (IsGuid value) := by unfold IsGuid; infer_instance

def IsAge (age : ℤ) : Prop := 0 ≤ age ∧ age ≤ 0xFFFFFFFF

instance (age : ℤ) : Decidable (IsAge age) := by unfold IsAge; infer_instance

/-- A payload that has been validated. -/
structure Payload where
  pdbName : Text
  guid : Text
  age : ℤ
  name_valid : IsPdbName pdbName
  guid_valid : IsGuid guid
  age_valid : IsAge age

/-- `_validate_pdb_name`, `_validate_guid` and `_validate_age`, in the order of the
handler. -/
def validatePayload (net : Net) (pdbName guid : Text) (age : ℤ) : Attempt Payload :=
  if hname : IsPdbName pdbName then
    if hguid : IsGuid (net.upper guid) then
      if hage : IsAge age then .ok ⟨pdbName, net.upper guid, age, hname, hguid, hage⟩
      else .error (raised 400 "EGRESS_BAD_PAYLOAD" "The age is outside the allowed range.")
    else
      .error (raised 400 "EGRESS_BAD_PAYLOAD" "The guid is not a valid 32-character hex string.")
  else .error (raised 400 "EGRESS_BAD_PAYLOAD" "The pdb_name is not a valid identifier.")

/-- What `quote` leaves as it is whatever `safe` says. -/
def isUnreserved (c : Char) : Bool := c.isAlphanum || c ∈ ['_', '.', '-', '~']

def hexDigit (n : ℕ) : Char := (Nat.digitChar n).toUpper

/-- `urllib.parse.quote`; what `safe` adds is unreserved in both calls. -/
def quote (text : Text) : Text :=
  text.flatMap fun c =>
    if isUnreserved c then [c]
    else (String.utf8EncodeChar c).flatMap fun byte =>
      ['%', hexDigit (byte.toNat / 16), hexDigit (byte.toNat % 16)]

/-- `_build_initial_url`. -/
def buildInitialUrl (settings : Settings) (payload : Payload) : Text :=
  let name := quote payload.pdbName
  let key := quote (payload.guid ++ intStr payload.age)
  "https://".toList ++ (settings.initialHost ++ (settings.pathPrefix ++
    List.intercalate ['/'] [[], name, key, name]))

/-! ### The checks -/

/-- `_validate_host_policy`. -/
def validateHostPolicy (net : Net) (settings : Settings) (host : Text) (initial : Bool) :
    Attempt Unit :=
  if host = [] then .error (raised 403 "EGRESS_DENIED_HOST" "Empty host is not allowed.")
  else if ¬ (settings.initialHost ≠ [] ∧ host = rstripDots (net.lower settings.initialHost)) ∧
      initial then
    .error (raised 403 "EGRESS_DENIED_HOST"
      "Initial host is not the approved Microsoft symbol server.")
  else if initial then .ok ()
  else if host = rstripDots (net.lower settings.initialHost) then .ok ()
  else if settings.redirectSuffixes.any fun suffix =>
      suffix.isSuffixOf host && host ≠ lstripDots suffix then .ok ()
  else
    .error (raised 403 "EGRESS_DENIED_HOST"
      "Redirect host is outside approved official infrastructure.")

/-- `_validate_path`. -/
def validatePath (path : Text) : Attempt Text :=
  if path = [] ∨ path.any (fun c => c.toNat < 32) ∨ '\\' ∈ path then
    .error (raised 403 "EGRESS_DENIED_PATH" "Symbol destination path is invalid.")
  else if (path.splitOn '/').any isTraversal then
    .error (raised 403 "EGRESS_DENIED_PATH"
      "Symbol destination path contains traversal segments.")
  else .ok path

/-- `_validate_path_prefix`. -/
def validatePathPrefix (path expectedPrefix : Text) : Attempt Text :=
  match validatePath path with
  | .error e => .error e
  | .ok _ =>
    let normalizedPrefix := expectedPrefix.rdropWhile (· = '/') ++ ['/']
    if path ≠ normalizedPrefix ∧ ¬ normalizedPrefix.isPrefixOf path then
      .error (raised 403 "EGRESS_DENIED_PATH"
        "Symbol destination path is outside the approved /download/symbols/ prefix.")
    else .ok path

/-- What `_public_addresses` refuses. -/
def Address.denied (address : Address) : Bool :=
  !address.isGlobal || address.isLoopback || address.isLinkLocal || address.isMulticast ||
    address.isUnspecified || address.isReserved || address.isPrivate

/-- The body of the loop in `_public_addresses`. -/
def checkAddress (net : Net) (raw : Text) : Attempt Unit := do
  let address ← orRaise (net.ipAddress raw) .other
  require (address.denied = false)
    (raised 403 "EGRESS_DENIED_ADDRESS"
      "Official symbol destination resolved to a disallowed address.")

/-- `_public_addresses`, of what `getaddrinfo` says: in order, without repetitions. -/
def publicAddresses (net : Net) (infos : Option (List Text)) : Attempt (List Text) := do
  let raw ← orRaise infos
    (raised 502 "EGRESS_DNS_FAILED" "Official symbol destination could not be resolved.")
  let addresses := raw.dedup.mergeSort fun first second => decide (first ≤ second)
  require (addresses ≠ [])
    (raised 502 "EGRESS_DNS_EMPTY" "Official symbol destination returned no addresses.")
  addresses.forM (checkAddress net)
  return addresses

/-! ### A download -/

abbrev Bytes := List UInt8

/-- A response, with the bytes that its body has when the transfer coding is undone. -/
structure Reply where
  status : ℕ
  headers : List (Text × Text)
  body : Bytes

/-- The exceptions of a request that `_download` turns into its own. -/
inductive Trouble
  | timeout | ssl | os

def Trouble.failure : Trouble → Failure
  | .timeout => raised 504 "EGRESS_TIMEOUT" "Official symbol download timed out."
  | .ssl => raised 502 "EGRESS_TLS_FAILED" "Official symbol TLS validation failed."
  | .os => raised 502 "EGRESS_DOWNLOAD_FAILED" "Official symbol download failed."

/-- What the world answers in one turn of the loop: the clock, the name service (`none`
where it raises) and the server. -/
structure Exchange where
  elapsed : ℚ
  infos : Option (List Text)
  reply : Except Trouble Reply

/-- A connection that is opened, and the request that is sent over it. -/
structure Connection where
  scheme : Text
  host : Text
  address : Text
  port : ℕ
  path : Text
  query : Text
  deriving DecidableEq

structure Stream where
  readable : Bytes
  redirectCount : ℕ
  contentType : Option Text
  deriving DecidableEq

section

variable (net : Net)

/-- All values of a header. -/
def Reply.values (reply : Reply) (name : Text) : List Text :=
  (reply.headers.filter fun header => net.lower header.1 = name).map Prod.snd

/-- `getheader`. -/
def Reply.getheader (reply : Reply) (name : Text) : Option Text :=
  if reply.values net name = [] then none
  else some (List.intercalate ", ".toList (reply.values net name))

def Reply.chunked (reply : Reply) : Bool :=
  ((reply.values net "transfer-encoding".toList).head?.map net.lower) = some "chunked".toList

/-- The length that `http.client` knows of a body. -/
def Reply.length (reply : Reply) : Option ℕ :=
  if reply.chunked net then none
  else
    (((reply.values net "content-length".toList).head?.filter (· ≠ [])).bind net.parseInt).bind
      fun n => if n < 0 then none else some n.toNat

/-- What can be read of a body. -/
def Reply.readable (reply : Reply) : Bytes :=
  match reply.length net with
  | none => reply.body
  | some n => reply.body.take n

/-- `(parsed.hostname or "").lower().rstrip(".")`. -/
def hostOf (parsed : Url.SplitResult) : Text :=
  rstripDots (net.lower ((parsed.hostname net.conv).getD []))

/-- `parsed.path or "/"`. -/
def pathOf (parsed : Url.SplitResult) : Text := if parsed.path = [] then ['/'] else parsed.path

variable (settings : Settings)

/-- The prefix counts on the first turn only. -/
def validateFirst (redirects : ℕ) (path : Text) : Attempt Text :=
  if redirects = 0 then validatePathPrefix path settings.pathPrefix else .ok path

/-- A turn of the loop of `_download` up to the request. -/
def connect (redirects : ℕ) (url : Text) (exchange : Exchange) : Attempt Connection := do
  require (¬ exchange.elapsed > settings.totalTimeout)
    (raised 504 "EGRESS_TIMEOUT" "Official symbol download timed out.")
  let parsed ← orRaise (Url.urlsplit net.conv url) .other
  let host := hostOf net parsed
  validateHostPolicy net settings host (redirects = 0)
  require ((net.ipAddress host).isNone)
    (raised 403 "EGRESS_DENIED_HOST" "IP-literal symbol destinations are not allowed.")
  require (parsed.scheme = "https".toList ∧ (parsed.username.getD []) = [] ∧
      (parsed.password.getD []) = [] ∧ parsed.fragment = [])
    (raised 403 "EGRESS_DENIED_URL" "Symbol destination URL is not an approved HTTPS endpoint.")
  let port ← orRaise parsed.port .other
  require (port = none ∨ port = some 443)
    (raised 403 "EGRESS_DENIED_URL" "Symbol destination port is not 443.")
  let path ← validatePath (pathOf parsed)
  let path ← validateFirst settings redirects path
  let addresses ← publicAddresses net exchange.infos
  -- `_PinnedHTTPSConnection` speaks TLS on port 443, whatever the URL says
  require (net.sendable host (path ++ if parsed.query = [] then [] else '?' :: parsed.query))
    .other
  return ⟨parsed.scheme, host, addresses.headD [], 443, path, parsed.query⟩

/-- The URL of the next turn, for a response that redirects. -/
def followed (redirects : ℕ) (connection : Connection) (reply : Reply) : Attempt Text := do
  let location := (reply.getheader net "location".toList).getD []
  require (location ≠ [])
    (raised 502 "EGRESS_BAD_REDIRECT" "Redirect response did not include Location.")
  require (¬ redirects ≥ settings.maxRedirects)
    (raised 502 "EGRESS_REDIRECT_LIMIT" "Official symbol redirect limit was exceeded.")
  let nextUrl :=
    if "://".toList <:+: location then location
    else connection.scheme ++ "://".toList ++ connection.host ++
      (if ['/'].isPrefixOf location then location else '/' :: location)
  let nextParsed ← orRaise (Url.urlsplit net.conv nextUrl) .other
  let nextHost := hostOf net nextParsed
  validateHostPolicy net settings nextHost false
  require ((net.ipAddress nextHost).isNone)
    (raised 403 "EGRESS_DENIED_HOST" "Redirect IP-literal destinations are not allowed.")
  require (nextParsed.scheme = "https".toList)
    (raised 403 "EGRESS_DENIED_URL" "Redirect URL is not an approved HTTPS endpoint.")
  let nextPort ← orRaise nextParsed.port .other
  require (nextPort = none ∨ nextPort = some 443)
    (raised 403 "EGRESS_DENIED_URL" "Redirect URL is not an approved HTTPS endpoint.")
  return nextUrl

/-- The check of a declared size. -/
def checkDeclared (reply : Reply) : Attempt Unit :=
  match (reply.getheader net "content-length".toList).filter (· ≠ []) with
  | none => .ok ()
  | some declared => do
      let declaredSize ← orRaise (net.parseInt declared)
        (raised 502 "EGRESS_BAD_CONTENT_LENGTH"
          "Official symbol source returned an invalid size.")
      require (¬ (declaredSize < 0 ∨ declaredSize > settings.maxBytes))
        (raised 413 "EGRESS_TOO_LARGE" "Official symbol exceeds the configured download limit.")

def redirectStatuses : List ℕ := [301, 302, 303, 307, 308]

inductive Answer
  | next (url : Text)
  | done (stream : Stream)

/-- What a turn makes of the response. -/
def answer (redirects : ℕ) (connection : Connection) (reply : Reply) : Attempt Answer :=
  if reply.status ∈ redirectStatuses then
    (followed net settings redirects connection reply).map Answer.next
  else if reply.status ≠ 200 then
    .error (raised 502 "EGRESS_REMOTE_STATUS"
      ("Official symbol source returned HTTP " ++ toString reply.status ++ "."))
  else
    (checkDeclared net settings reply).map fun () => Answer.done
      ⟨reply.readable net, redirects, reply.getheader net "content-type".toList⟩

/-- `_download`: the connections that are opened, and how it ends; `none` while the world
still owes an answer. -/
def download (redirects : ℕ) (url : Text) :
    List Exchange → List Connection × Option (Attempt Stream)
  | [] => ([], none)
  | exchange :: exchanges =>
    match connect net settings redirects url exchange with
    | .error e => ([], some (.error e))
    | .ok connection =>
      match exchange.reply with
      | .error trouble => ([connection], some (.error trouble.failure))
      | .ok reply =>
        match answer net settings redirects connection reply with
        | .error e => ([connection], some (.error e))
        | .ok (.done stream) => ([connection], some (.ok stream))
        | .ok (.next nextUrl) =>
          let rest := download (redirects + 1) nextUrl exchanges
          (connection :: rest.1, rest.2)

end

/-- `min(chunk_size, max_bytes + 1)`. -/
def readSize (settings : Settings) : ℕ := min chunkSize (settings.maxBytes + 1)

/-- `raw_chunks`, read as often as the clock is: every reading stands for one `next`. -/
def rawChunks (settings : Settings) : List ℚ → Bytes → List Bytes
  | [], _ => []
  | elapsed :: later, readable =>
    if elapsed > settings.totalTimeout then []
    else if readable.take (readSize settings) = [] then []
    else readable.take (readSize settings) ::
      rawChunks settings later (readable.drop (readSize settings))

end Kairon.Gateway
