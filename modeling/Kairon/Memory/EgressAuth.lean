/-
Kairon/Memory/EgressAuth.lean

The signatures between the symbol fetcher and the egress gateway:
`symbol_egress_auth`.

`sign_request` signs a canonical string of the request's fields; `verify_signed_headers`
rebuilds that string from what it is given, checks the signature and the time window,
and asks the nonce store.  Everything up to the store is `authenticate`, a function of
the call alone.  The store is the queue of `Kairon.Lib.Replay` with pairs of nonce and
timestamp for keys.

HMAC and SHA-256 are parameters.  `Ideal` treats them as injective, and `Issued` says
that a signature under the secret that is presented was made by `sign_request`.
-/
import Kairon.Lib.Replay
import Kairon.Lib.Trace
import Kairon.Search.Value

namespace Kairon.Egress

open Search

/-! ### What the module uses of the library -/

abbrev Bytes := List UInt8

structure Primitives where
  /-- `str.lower` and `str.upper`. -/
  lower : Text → Text
  upper : Text → Text
  /-- `int(s)`; `none` where it raises. -/
  parseInt : Text → Option ℤ
  /-- `hmac.new(secret, canonical, sha256).hexdigest()`. -/
  hmac : Text → Text → Text
  /-- `hashlib.sha256(body).hexdigest()`. -/
  sha256 : Bytes → Text

structure EgressAuthError where
  code : String
  message : String

def canonicalVersion : Text := "v1".toList

/-- What is signed: the arguments of `sign_request` other than the secret. -/
structure Request where
  requestId : Text
  timestamp : ℤ
  nonce : Text
  method : Text
  path : Text
  body : Bytes
  deriving DecidableEq

structure SignedRequest where
  requestId : Text
  timestamp : ℤ
  nonce : Text
  signature : Text

section

variable (p : Primitives) (secret : Text)

/-- `_canonical_string`. -/
def canonicalString (version : Text) (request : Request) : Text :=
  List.intercalate ['\n'] [version, request.requestId, intStr request.timestamp, request.nonce,
    p.upper request.method, request.path, p.sha256 request.body]

/-- The signature of a request. -/
def signature (request : Request) : Text :=
  p.hmac secret (canonicalString p canonicalVersion request)

def notConfigured : EgressAuthError :=
  ⟨"EGRESS_AUTH_NOT_CONFIGURED", "Egress gateway shared secret is not configured."⟩

def badRequestId : EgressAuthError :=
  ⟨"EGRESS_AUTH_BAD_REQUEST_ID", "Signed request id is invalid."⟩

def signRequest (request : Request) : Except EgressAuthError SignedRequest :=
  if secret = [] then .error notConfigured
  else if request.requestId = [] ∨ request.requestId.length > 128 then .error badRequestId
  else .ok ⟨request.requestId, request.timestamp, request.nonce, signature p secret request⟩

end

/-! ### The nonce store -/

/-- `NonceStore`: the entries in the order in which they came. -/
structure NonceStore where
  ttl : ℤ
  maxEntries : ℕ
  entries : List (Text × ℤ)

namespace NonceStore

/-- `NonceStore(ttl_seconds, max_entries)`. -/
def create (ttlSeconds : ℤ) (maxEntries : ℕ) : NonceStore :=
  ⟨max 1 ttlSeconds, max 64 maxEntries, []⟩

/-- The store of the gateway, with `MAX_NONCE_STORE` entries. -/
def gateway (replayWindowSeconds : ℤ) : NonceStore :=
  create (max 120 (replayWindowSeconds * 2)) 4096

/-- `check_and_store`; a replay leaves the store without the entries that have expired. -/
def checkAndStore (nonce : Text) (timestamp now : ℤ) (store : NonceStore) :
    Except EgressAuthError Unit × NonceStore :=
  if nonce = [] ∨ nonce.length < 16 ∨ nonce.length > 256 then
    (.error ⟨"EGRESS_AUTH_BAD_NONCE", "Signed request nonce is invalid."⟩, store)
  else if ¬ (0 < timestamp ∧ timestamp < 2 ^ 63) then
    (.error ⟨"EGRESS_AUTH_BAD_TIMESTAMP", "Signed request timestamp is invalid."⟩, store)
  else
    let offered := Replay.offer Prod.snd store.ttl store.maxEntries now (nonce, timestamp)
      store.entries
    if offered.1 then (.ok (), { store with entries := offered.2 })
    else
      (.error ⟨"EGRESS_AUTH_REPLAY", "Signed request nonce has already been used."⟩,
        { store with entries := offered.2 })

end NonceStore

/-! ### Verification -/

/-- A call of `verify_signed_headers`, with the clock it reads. -/
structure Call where
  now : ℤ
  method : Text
  path : Text
  body : Bytes
  headers : List (Text × Text)

section

variable (p : Primitives) (secret : Text) (replayWindowSeconds : ℤ)

/-- `lower.get(name, "")`, where the last of several headers of a name counts. -/
def Call.header (call : Call) (name : Text) : Text :=
  ((call.headers.filter fun header => p.lower header.1 = name).getLast?.map Prod.snd).getD []

def Call.requestId (call : Call) : Text :=
  strip (call.header p "x-kairon-egress-request-id".toList)

def Call.nonce (call : Call) : Text := strip (call.header p "x-kairon-egress-nonce".toList)

def Call.signature (call : Call) : Text :=
  p.lower (strip (call.header p "x-kairon-egress-signature".toList))

/-- `c not in "0123456789abcdef"`, the other way round. -/
def isHexDigit (c : Char) : Bool := ('0' ≤ c && c ≤ '9') || ('a' ≤ c && c ≤ 'f')

/-- `verify_signed_headers` up to the nonce store: the fields that the signature covers. -/
def authenticate (call : Call) : Except EgressAuthError Request :=
  if secret = [] then .error notConfigured
  else if call.header p "x-kairon-egress-version".toList ≠ canonicalVersion then
    .error ⟨"EGRESS_AUTH_BAD_VERSION", "Signed request protocol version is not supported."⟩
  else if call.requestId p = [] ∨ (call.requestId p).length > 128 then .error badRequestId
  else match p.parseInt (strip (call.header p "x-kairon-egress-timestamp".toList)) with
    | none => .error ⟨"EGRESS_AUTH_BAD_TIMESTAMP", "Signed request timestamp is invalid."⟩
    | some timestamp =>
      if call.nonce p = [] then
        .error ⟨"EGRESS_AUTH_BAD_NONCE", "Signed request nonce is missing."⟩
      else if call.signature p = [] ∨ (call.signature p).length ≠ 64 ∨
          ¬ (call.signature p).all isHexDigit then
        .error ⟨"EGRESS_AUTH_BAD_SIGNATURE", "Signed request signature is malformed."⟩
      else if |call.now - timestamp| > replayWindowSeconds then
        .error ⟨"EGRESS_AUTH_EXPIRED", "Signed request is outside the replay window."⟩
      else
        let request : Request :=
          ⟨call.requestId p, timestamp, call.nonce p, call.method, call.path, call.body⟩
        if signature p secret request ≠ call.signature p then
          .error ⟨"EGRESS_AUTH_BAD_SIGNATURE", "Signed request signature does not match."⟩
        else .ok request

/-- `verify_signed_headers`. -/
def verifySignedHeaders (store : NonceStore) (call : Call) :
    Except EgressAuthError Text × NonceStore :=
  match authenticate p secret replayWindowSeconds call with
  | .error e => (.error e, store)
  | .ok request =>
    let checked := store.checkAndStore request.nonce request.timestamp call.now
    (checked.1.map fun () => request.requestId, checked.2)

/-- The store after a call. -/
def step (store : NonceStore) (call : Call) : NonceStore :=
  (verifySignedHeaders p secret replayWindowSeconds store call).2

/-- The request that a call carries, if the call is accepted. -/
def taken (store : NonceStore) (call : Call) : Option Request :=
  match (verifySignedHeaders p secret replayWindowSeconds store call).1 with
  | .error _ => none
  | .ok _ => (authenticate p secret replayWindowSeconds call).toOption

/-- The requests of the accepted calls, in the order of the calls. -/
def accepted : NonceStore → List Call → List Request
  | _, [] => []
  | store, call :: calls =>
    (taken p secret replayWindowSeconds store call).toList ++
      accepted (step p secret replayWindowSeconds store call) calls

end

/-! ### The canonical string -/

theorem append_sep_inj {α : Type} {sep : α} {a b x y : List α} (ha : sep ∉ a) (hb : sep ∉ b)
    (h : a ++ sep :: x = b ++ sep :: y) : a = b ∧ x = y := by
  induction a generalizing b with
  | nil =>
    rcases b with - | ⟨c, b⟩
    · exact ⟨rfl, (List.cons.inj h).2⟩
    · exact absurd (by rw [(List.cons.inj h).1]; exact .head _) hb
  | cons c a ih =>
    rcases b with - | ⟨d, b⟩
    · exact absurd (by rw [← (List.cons.inj h).1]; exact .head _) ha
    · obtain ⟨rfl, hrest⟩ := List.cons.inj h
      obtain ⟨rfl, hxy⟩ := ih (fun hm => ha (.tail _ hm))
        (fun hm => hb (.tail _ hm)) hrest
      exact ⟨rfl, hxy⟩

theorem sep_append_inj {α : Type} {sep : α} {a b x y : List α} (hx : sep ∉ x) (hy : sep ∉ y)
    (h : a ++ sep :: x = b ++ sep :: y) : a = b ∧ x = y := by
  have hreverse := congrArg List.reverse h
  rw [List.reverse_append, List.reverse_append, List.reverse_cons, List.reverse_cons,
    List.append_assoc, List.append_assoc] at hreverse
  obtain ⟨hxy, hab⟩ := append_sep_inj (by rwa [List.mem_reverse]) (by rwa [List.mem_reverse])
    hreverse
  exact ⟨List.reverse_injective hab, List.reverse_injective hxy⟩

theorem newline_notMem_intStr (n : ℤ) : '\n' ∉ intStr n :=
  notMem_intStr (by decide) (by decide) n

/-- The fields that a request keeps free of line breaks. -/
structure Request.Lines (p : Primitives) (request : Request) : Prop where
  requestId : '\n' ∉ request.requestId
  nonce : '\n' ∉ request.nonce
  method : '\n' ∉ request.method
  /-- The method is written as both callers write it. -/
  upper : p.upper request.method = request.method

/-- HMAC and SHA-256 treated as injective; a digest is one line. -/
structure Primitives.Ideal (p : Primitives) (secret : Text) : Prop where
  hmac : Function.Injective (p.hmac secret)
  sha256 : Function.Injective p.sha256
  digest : ∀ body, '\n' ∉ p.sha256 body

section

variable {p : Primitives} {secret : Text} {first second : Request}

theorem canonicalString_eq (version : Text) (request : Request) :
    canonicalString p version request = version ++ '\n' :: (request.requestId ++ '\n' ::
      (intStr request.timestamp ++ '\n' :: (request.nonce ++ '\n' ::
        (p.upper request.method ++ '\n' :: (request.path ++ '\n' :: p.sha256 request.body))))) := by
  simp [canonicalString, List.intercalate]

/-- **The canonical string determines the request.** -/
theorem canonicalString_injective (hp : p.Ideal secret) (hfirst : first.Lines p)
    (hsecond : second.Lines p) (h : canonicalString p canonicalVersion first =
      canonicalString p canonicalVersion second) : first = second := by
  rw [canonicalString_eq, canonicalString_eq, hfirst.upper, hsecond.upper] at h
  have hversion : '\n' ∉ canonicalVersion := by decide
  obtain ⟨hid, h⟩ := append_sep_inj hfirst.requestId hsecond.requestId
    (append_sep_inj hversion hversion h).2
  obtain ⟨htimestamp, h⟩ := append_sep_inj (newline_notMem_intStr _) (newline_notMem_intStr _) h
  obtain ⟨hnonce, h⟩ := append_sep_inj hfirst.nonce hsecond.nonce h
  obtain ⟨hmethod, h⟩ := append_sep_inj hfirst.method hsecond.method h
  obtain ⟨hpath, hbody⟩ := sep_append_inj (hp.digest _) (hp.digest _) h
  have htimestamp := intStr_injective htimestamp
  have hbody := hp.sha256 hbody
  cases first
  cases second
  simp_all

theorem signature_injective (hp : p.Ideal secret) (hfirst : first.Lines p)
    (hsecond : second.Lines p) (h : signature p secret first = signature p secret second) :
    first = second := canonicalString_injective hp hfirst hsecond (hp.hmac h)

end

/-! ### What is accepted was signed -/

section

variable {p : Primitives} {secret : Text} {window : ℤ} {call : Call} {request : Request}
variable {store : NonceStore}

/-- What a call has passed when it comes to the nonce store. -/
theorem authenticate_ok (h : authenticate p secret window call = .ok request) :
    request.requestId = call.requestId p ∧ request.nonce = call.nonce p ∧
      request.method = call.method ∧ request.path = call.path ∧ request.body = call.body ∧
        |call.now - request.timestamp| ≤ window ∧
          signature p secret request = call.signature p := by
  rw [authenticate] at h
  rcases hraw : p.parseInt (strip (call.header p "x-kairon-egress-timestamp".toList)) with
    - | timestamp
  · simp only [hraw] at h
    split_ifs at h
  · simp only [hraw] at h
    split_ifs at h with hsecret hversion hid hnonce hmalformed hexpired hsignature
    obtain rfl := Except.ok.inj h
    exact ⟨rfl, rfl, rfl, rfl, rfl, not_lt.1 hexpired, not_not.1 hsignature⟩

/-- The pair that the nonce store keeps of a request. -/
def Request.key (request : Request) : Text × ℤ := (request.nonce, request.timestamp)

/-- A call is taken if it is authentic and the store has not seen its pair. -/
theorem taken_eq_some (h : taken p secret window store call = some request) :
    authenticate p secret window call = .ok request ∧
      (store.checkAndStore request.nonce request.timestamp call.now).1 = .ok () := by
  rw [taken, verifySignedHeaders] at h
  rcases hauth : authenticate p secret window call with error | authentic
  · simp only [hauth] at h
    cases h
  · simp only [hauth] at h
    rcases hcheck : (store.checkAndStore authentic.nonce authentic.timestamp call.now).1 with
      error | ⟨⟩
    · rw [hcheck] at h
      cases h
    · rw [hcheck] at h
      obtain rfl := Option.some.inj h
      exact ⟨rfl, hcheck⟩

variable {calls : List Call}

theorem mem_accepted (h : request ∈ accepted p secret window store calls) :
    ∃ call ∈ calls, authenticate p secret window call = .ok request := by
  induction calls generalizing store with
  | nil => cases h
  | cons call calls ih =>
    rw [accepted] at h
    rcases List.mem_append.1 h with hfirst | hrest
    · exact ⟨call, .head _, (taken_eq_some (Option.mem_toList.1 hfirst)).1⟩
    · obtain ⟨other, hother, hauth⟩ := ih hrest
      exact ⟨other, .tail _ hother, hauth⟩

/-- The signatures under the secret that the calls present were made by `sign_request`. -/
def Issued (p : Primitives) (secret : Text) (signed : List (Request × SignedRequest))
    (calls : List Call) : Prop :=
  ∀ call ∈ calls, ∀ text, call.signature p = p.hmac secret text →
    ∃ entry ∈ signed, entry.2.signature = call.signature p

/-- The headers that were made and the headers that are presented hold no line breaks, and
methods are written as both callers write them. -/
structure SingleLines (p : Primitives) (signed : List (Request × SignedRequest))
    (calls : List Call) : Prop where
  made : ∀ entry ∈ signed, '\n' ∉ entry.2.requestId ∧ '\n' ∉ entry.2.nonce
  presented : ∀ call ∈ calls, ∀ header ∈ call.headers, '\n' ∉ header.2
  madeMethod : ∀ entry ∈ signed, '\n' ∉ entry.1.method ∧ p.upper entry.1.method = entry.1.method
  presentedMethod : ∀ call ∈ calls, '\n' ∉ call.method ∧ p.upper call.method = call.method

theorem signRequest_ok {made : SignedRequest} (h : signRequest p secret request = .ok made) :
    made = ⟨request.requestId, request.timestamp, request.nonce, signature p secret request⟩ := by
  rw [signRequest] at h
  split_ifs at h
  exact (Except.ok.inj h).symm

theorem newline_notMem_header (p : Primitives) (name : Text)
    (h : ∀ header ∈ call.headers, '\n' ∉ header.2) :
    '\n' ∉ strip (call.header p name) := by
  intro hmem
  have hheader : '\n' ∈ call.header p name := (Search.strip_sublist _).subset hmem
  rw [Call.header] at hheader
  rcases hlast : (call.headers.filter fun header => p.lower header.1 = name).getLast? with
    - | header
  · rw [hlast] at hheader
    cases hheader
  · rw [hlast] at hheader
    exact h header (List.mem_of_mem_filter (List.mem_of_getLast? hlast)) hheader

/-- **An authentic call carries the fields of a request that was signed.** -/
theorem authentic_signed {signed : List (Request × SignedRequest)}
    (hp : p.Ideal secret) (hsigned : ∀ entry ∈ signed, signRequest p secret entry.1 = .ok entry.2)
    (hlines : SingleLines p signed calls) (hissued : Issued p secret signed calls)
    (hcall : call ∈ calls) (h : authenticate p secret window call = .ok request) :
    ∃ entry ∈ signed, entry.1 = request := by
  obtain ⟨hid, hnonce, hmethod, hpath, hbody, -, hsignature⟩ := authenticate_ok h
  obtain ⟨entry, hentry, hmade⟩ := hissued call hcall _ hsignature.symm
  have heq := signRequest_ok (hsigned entry hentry)
  obtain ⟨hentryId, hentryNonce⟩ := hlines.made entry hentry
  obtain ⟨hentryMethod, hentryUpper⟩ := hlines.madeMethod entry hentry
  obtain ⟨hcallMethod, hcallUpper⟩ := hlines.presentedMethod call hcall
  have hheaders := fun name => newline_notMem_header p name
    (hlines.presented call hcall)
  rw [heq] at hentryId hentryNonce hmade
  refine ⟨entry, hentry, signature_injective hp ⟨hentryId, hentryNonce, hentryMethod, hentryUpper⟩
    ⟨?_, ?_, ?_, ?_⟩ (hmade.trans hsignature.symm)⟩
  · rw [hid]
    exact hheaders _
  · rw [hnonce]
    exact hheaders _
  · rwa [hmethod]
  · rwa [hmethod]

/-! ### What is accepted is accepted once -/

/-- A call that would push a pair out of the store pushes out one that is too old to be
accepted again. -/
def Roomy (p : Primitives) (secret : Text) (window : ℤ) (store : NonceStore) (call : Call) :
    Prop :=
  ∀ request, authenticate p secret window call = .ok request →
    request.key ∈ Replay.evict Prod.snd (call.now - store.ttl) store.entries ∨
      Replay.Room Prod.snd store.ttl window store.maxEntries call.now store.entries

/-- A pair that is well formed is offered to the queue, any other leaves the store alone. -/
theorem checkAndStore_cases (nonce : Text) (timestamp now : ℤ) (store : NonceStore) :
    (∃ error, store.checkAndStore nonce timestamp now = (.error error, store)) ∨
      ((store.checkAndStore nonce timestamp now).2 = { store with
          entries := (Replay.offer Prod.snd store.ttl store.maxEntries now (nonce, timestamp)
            store.entries).2 } ∧
        ((store.checkAndStore nonce timestamp now).1 = .ok () ↔
          (Replay.offer Prod.snd store.ttl store.maxEntries now (nonce, timestamp)
            store.entries).1 = true)) := by
  rw [NonceStore.checkAndStore]
  by_cases hnonce : nonce = [] ∨ nonce.length < 16 ∨ nonce.length > 256
  · rw [if_pos hnonce]
    exact .inl ⟨_, rfl⟩
  · rw [if_neg hnonce]
    by_cases htimestamp : 0 < timestamp ∧ timestamp < 2 ^ 63
    · rw [if_neg (not_not.2 htimestamp)]
      rcases Replay.offer Prod.snd store.ttl store.maxEntries now (nonce, timestamp)
        store.entries with ⟨- | -, entries⟩
      · exact .inr ⟨rfl, nofun, nofun⟩
      · exact .inr ⟨rfl, fun _ => rfl, fun _ => rfl⟩
    · rw [if_pos htimestamp]
      exact .inl ⟨_, rfl⟩

/-- What the store knows of the requests that it has let through. -/
structure Knows (window now : ℤ) (taken : List (Text × ℤ)) (store : NonceStore) : Prop where
  remembers : Replay.Remembers Prod.snd window now taken store.entries
  lifetime : window ≤ store.ttl
  room : 0 < store.maxEntries

variable {keys : List (Text × ℤ)}

theorem Knows.later {now now' : ℤ} (h : Knows window now keys store)
    (hle : now ≤ now') : Knows window now' keys store :=
  ⟨h.remembers.later hle, h.lifetime, h.room⟩

/-- **A call leaves a store that knows what it has let through, and lets nothing through
twice.** -/
theorem knows_step (h : Knows window call.now keys store)
    (hroomy : Roomy p secret window store call) :
    Knows window call.now
        ((taken p secret window store call).toList.map Request.key ++ keys)
        (step p secret window store call) ∧
      ∀ request ∈ taken p secret window store call, request.key ∉ keys := by
  rcases hauth : authenticate p secret window call with error | request
  · have hstep : step p secret window store call = store := by
      rw [step, verifySignedHeaders, hauth]
    have htaken : taken p secret window store call = none := by
      rw [taken, verifySignedHeaders, hauth]
    rw [hstep, htaken]
    exact ⟨h, nofun⟩
  · have hstep : step p secret window store call =
        (store.checkAndStore request.nonce request.timestamp call.now).2 := by
      rw [step, verifySignedHeaders, hauth]
    rcases checkAndStore_cases request.nonce request.timestamp call.now store with
      ⟨error, hcheck⟩ | ⟨hentries, hok⟩
    · have htaken : taken p secret window store call = none := by
        rcases htaken : taken p secret window store call with - | other
        · rfl
        · obtain ⟨hother, hpassed⟩ := taken_eq_some htaken
          obtain rfl := Except.ok.inj (hauth.symm.trans hother)
          rw [hcheck] at hpassed
          cases hpassed
      rw [hstep, hcheck, htaken]
      exact ⟨h, nofun⟩
    · have hwindow : call.now - window ≤ request.timestamp := by
        have hle := (authenticate_ok hauth).2.2.2.2.2.1
        have := (abs_le.1 hle).2
        omega
      have hoffer := Replay.remembers_offer h.remembers h.lifetime h.room (hroomy request hauth)
      rcases htaken : taken p secret window store call with - | other
      · have hnot : ¬ (Replay.offer Prod.snd store.ttl store.maxEntries call.now request.key
            store.entries).1 = true := by
          intro hnew
          rw [taken, verifySignedHeaders, hauth] at htaken
          simp only [hok.2 hnew] at htaken
          cases htaken
        rw [if_neg hnot] at hoffer
        rw [hstep, hentries]
        exact ⟨⟨hoffer, h.lifetime, h.room⟩, nofun⟩
      · obtain ⟨hother, hpassed⟩ := taken_eq_some htaken
        obtain rfl := Except.ok.inj (hauth.symm.trans hother)
        have hnew : (Replay.offer Prod.snd store.ttl store.maxEntries call.now request.key
            store.entries).1 = true := hok.1 hpassed
        rw [if_pos hnew] at hoffer
        rw [hstep, hentries]
        refine ⟨⟨hoffer, h.lifetime, h.room⟩, fun other hother => ?_⟩
        obtain rfl := Option.some.inj hother
        exact Replay.not_mem_of_taken h.remembers h.lifetime hwindow hnew

/-- The pairs of the accepted calls are new, and differ from each other. -/
theorem accepted_keys {now : ℤ}
    (h : Knows window now keys store) (hnow : ∀ call ∈ calls, now ≤ call.now)
    (hclock : calls.Pairwise fun first second => first.now ≤ second.now)
    (hroomy : Trace.Meets (step p secret window) (Roomy p secret window) store calls) :
    (∀ request ∈ accepted p secret window store calls, request.key ∉ keys) ∧
      (accepted p secret window store calls).Pairwise fun first second =>
        first.key ≠ second.key := by
  induction calls generalizing store now keys with
  | nil => exact ⟨nofun, List.Pairwise.nil⟩
  | cons call calls ih =>
    obtain ⟨hfirst, hrest⟩ := List.pairwise_cons.1 hclock
    obtain ⟨hroom, hrooms⟩ := Trace.meets_cons.1 hroomy
    obtain ⟨hknows, hfresh⟩ := knows_step (h.later (hnow call (.head _))) hroom
    obtain ⟨hnew, hpairs⟩ := ih hknows hfirst hrest hrooms
    rw [accepted]
    refine ⟨fun request hrequest => ?_, List.pairwise_append.2 ⟨?_, hpairs, ?_⟩⟩
    · rcases List.mem_append.1 hrequest with hnow | hlater
      · exact hfresh request (Option.mem_toList.1 hnow)
      · exact fun hmem => hnew request hlater (List.mem_append_right _ hmem)
    · rcases taken p secret window store call with - | request
      · exact List.Pairwise.nil
      · exact List.pairwise_singleton _ _
    · intro request hrequest other hother heq
      refine hnew other hother (List.mem_append_left _ ?_)
      exact List.mem_map.2 ⟨request, hrequest, heq⟩

/-! ### The gateway -/

/-- No two requests are the same in request id, timestamp, nonce and body. -/
def Once (requests : List Request) : Prop :=
  requests.Pairwise fun first second => ¬ (first.requestId = second.requestId ∧
    first.timestamp = second.timestamp ∧ first.nonce = second.nonce ∧ first.body = second.body)

/-- Every request was signed, field by field. -/
def AllSigned (signed : List (Request × SignedRequest)) (requests : List Request) : Prop :=
  ∀ request ∈ requests, ∃ entry ∈ signed, entry.1 = request

/-- What is assumed of the calls that reach a gateway: the clock does not go back, the
signatures were made by `sign_request`, and headers are single lines. -/
structure Presented (p : Primitives) (secret : Text) (signed : List (Request × SignedRequest))
    (calls : List Call) : Prop where
  clock : calls.Pairwise fun first second => first.now ≤ second.now
  made : ∀ entry ∈ signed, signRequest p secret entry.1 = .ok entry.2
  issued : Issued p secret signed calls
  lines : SingleLines p signed calls

/-- Of any sequence of calls that share the gateway's nonce store, those that are accepted
carry what was signed; and none is accepted twice if no call ever pushes a pair out of a
full store that is still inside the window. -/
theorem accepted_once {signed : List (Request × SignedRequest)} {calls : List Call}
    (hp : p.Ideal secret) (h : Presented p secret signed calls)
    (hroomy : Trace.Meets (step p secret window) (Roomy p secret window)
      (NonceStore.gateway window) calls) :
    Once (accepted p secret window (NonceStore.gateway window) calls) ∧
      AllSigned signed (accepted p secret window (NonceStore.gateway window) calls) := by
  constructor
  · rcases calls with - | ⟨call, calls⟩
    · exact List.Pairwise.nil
    · have hknows : Knows window call.now [] (NonceStore.gateway window) := by
        refine ⟨nofun, ?_, Nat.lt_of_lt_of_le (by decide) (le_max_left 64 4096)⟩
        show window ≤ max 1 (max 120 (window * 2))
        omega
      have hnow : ∀ other ∈ call :: calls, call.now ≤ other.now := by
        intro other hother
        rcases List.mem_cons.1 hother with rfl | hlater
        · exact le_rfl
        · exact (List.pairwise_cons.1 h.clock).1 other hlater
      refine (accepted_keys hknows hnow h.clock hroomy).2.imp fun hne heq => hne ?_
      rw [Request.key, Request.key, heq.2.1, heq.2.2.1]
  · intro request hrequest
    obtain ⟨call, hcall, hauth⟩ := mem_accepted hrequest
    exact authentic_signed hp h.made h.lines h.issued hcall hauth

end

/-! ### Honest requests -/

def SignedRequest.headers (made : SignedRequest) : List (Text × Text) :=
  [("X-Kairon-Egress-Version".toList, canonicalVersion),
    ("X-Kairon-Egress-Request-Id".toList, made.requestId),
    ("X-Kairon-Egress-Timestamp".toList, intStr made.timestamp),
    ("X-Kairon-Egress-Nonce".toList, made.nonce),
    ("X-Kairon-Egress-Signature".toList, made.signature)]

/-- The call that carries a signed request. -/
def Request.call (request : Request) (made : SignedRequest) (now : ℤ) : Call :=
  ⟨now, request.method, request.path, request.body, made.headers⟩

section

variable {p : Primitives} {secret : Text} {window : ℤ} {call : Call} {request : Request}
variable {store : NonceStore} {key : Text × ℤ}

/-- A call puts nothing into the store but the pair of what it carries, if it is accepted. -/
theorem mem_step (h : key ∈ (step p secret window store call).entries) :
    key ∈ store.entries ∨ ∃ request ∈ taken p secret window store call, request.key = key := by
  rw [step, verifySignedHeaders] at h
  rw [taken, verifySignedHeaders]
  rcases hauth : authenticate p secret window call with error | request
  · rw [hauth] at h
    exact .inl h
  · simp only [hauth] at h ⊢
    rcases checkAndStore_cases request.nonce request.timestamp call.now store with
      ⟨error, hcheck⟩ | ⟨hentries, hok⟩
    · rw [hcheck] at h
      exact .inl h
    · rw [hentries] at h
      rcases Replay.mem_offer h with hold | ⟨hnew, rfl⟩
      · exact .inl hold
      · refine .inr ⟨request, ?_, rfl⟩
        rw [hok.2 hnew]
        rfl

theorem mem_entries {calls : List Call}
    (h : key ∈ (Trace.run (step p secret window) store calls).entries) :
    key ∈ store.entries ∨ ∃ request ∈ accepted p secret window store calls, request.key = key := by
  induction calls generalizing store with
  | nil => exact .inl h
  | cons call calls ih =>
    rw [accepted]
    rcases ih h with hmem | ⟨request, hrequest, heq⟩
    · rcases mem_step hmem with hold | ⟨request, htaken, heq⟩
      · exact .inl hold
      · exact .inr ⟨request, List.mem_append_left _ (Option.mem_toList.2 htaken), heq⟩
    · exact .inr ⟨request, List.mem_append_right _ hrequest, heq⟩

/-- The headers of a request arrive as they were sent: names differ in case at most, no field has
blanks around it, and a digest is 64 hexadecimal digits. -/
structure Travels (p : Primitives) (secret : Text) (request : Request) : Prop where
  names : ∀ made : SignedRequest, ∀ header ∈ made.headers,
    p.lower header.1 = header.1.map Char.toLower
  requestId : strip request.requestId = request.requestId
  nonce : strip request.nonce = request.nonce
  nonceLength : 16 ≤ request.nonce.length ∧ request.nonce.length ≤ 256
  timestamp : p.parseInt (strip (intStr request.timestamp)) = some request.timestamp
  timestampRange : 0 < request.timestamp ∧ request.timestamp < 2 ^ 63
  digest : p.lower (strip (signature p secret request)) = signature p secret request
  digestLength : (signature p secret request).length = 64
  digestDigits : (signature p secret request).all isHexDigit = true

theorem header_call (h : Travels p secret request) (made : SignedRequest) (now : ℤ) (name : Text) :
    (request.call made now).header p name = ((made.headers.filter fun header =>
      header.1.map Char.toLower = name).getLast?.map Prod.snd).getD [] := by
  rw [Call.header]
  congr 3
  refine List.filter_congr fun header hheader => ?_
  rw [h.names made header hheader]

/-- What `sign_request` signed is authentic within the window. -/
theorem authenticate_signed {made : SignedRequest} {now : ℤ}
    (hmade : signRequest p secret request = .ok made) (h : Travels p secret request)
    (hwindow : |now - request.timestamp| ≤ window) :
    authenticate p secret window (request.call made now) = .ok request := by
  have heq := signRequest_ok hmade
  rw [signRequest] at hmade
  split_ifs at hmade with hsecret hid
  have hnonce : request.nonce ≠ [] := by
    intro hnil
    have := h.nonceLength.1
    rw [hnil] at this
    cases this
  have hsignature : signature p secret request ≠ [] := by
    intro hnil
    have := h.digestLength
    rw [hnil] at this
    cases this
  have hversion : (request.call made now).header p "x-kairon-egress-version".toList =
      canonicalVersion := header_call h made now _
  have hrequestId : (request.call made now).requestId p = request.requestId := by
    rw [Call.requestId, header_call h made now, heq]
    exact h.requestId
  have htimestamp : p.parseInt (strip ((request.call made now).header p
      "x-kairon-egress-timestamp".toList)) = some request.timestamp := by
    rw [header_call h made now, heq]
    exact h.timestamp
  have hcallNonce : (request.call made now).nonce p = request.nonce := by
    rw [Call.nonce, header_call h made now, heq]
    exact h.nonce
  have hcallSignature : (request.call made now).signature p = signature p secret request := by
    rw [Call.signature, header_call h made now, heq]
    exact h.digest
  rw [authenticate, if_neg hsecret, if_neg (not_not.2 hversion), hrequestId, if_neg hid, htimestamp]
  simp only [hcallNonce, hcallSignature]
  rw [if_neg hnonce, if_neg (by simp [hsignature, h.digestLength, h.digestDigits])]
  exact (if_neg (not_lt.2 hwindow)).trans (if_neg (not_not.2 rfl))

end

/-! ### One request -/

/-- Digests that are known, and for every other text some other one. -/
def knownMac (known : Text → Option Text) (text : Text) : Text := (known text).getD ('x' :: text)

theorem knownMac_injective {known : Text → Option Text}
    (hknown : ∀ first second mac, known first = some mac → known second = some mac → first = second)
    (hmac : ∀ text mac, known text = some mac → mac.head? ≠ some 'x') :
    Function.Injective (knownMac known) := by
  intro first second h
  rw [knownMac, knownMac] at h
  rcases hfirst : known first with - | mac <;> rcases hsecond : known second with - | mac' <;>
    rw [hfirst, hsecond] at h
  · exact (List.cons.inj h).2
  · exact absurd (congrArg List.head? h.symm) (hmac second mac' hsecond)
  · exact absurd (congrArg List.head? h) (hmac first mac hfirst)
  · exact hknown first second mac hfirst (hsecond.trans (congrArg some h.symm))

/-- The digest of the empty body, and for every other body some other one. -/
def sampleHash (body : Bytes) : Text :=
  if body = [] then "e3b0c44298fc1c149afbf4c8996fb92427ae41e4649b934ca495991b7852b855".toList
  else 'x' :: body.map fun byte => Char.ofNat (byte.toNat + 256)

theorem toNat_sampleByte (byte : UInt8) : (Char.ofNat (byte.toNat + 256)).toNat =
    byte.toNat + 256 := by
  have hlt := byte.toNat_lt
  rw [Char.toNat_ofNat, if_pos (.inl (by omega))]

theorem sampleHash_injective : Function.Injective sampleHash := by
  intro first second h
  rw [sampleHash, sampleHash] at h
  split_ifs at h with hfirst hsecond hsecond
  · rw [hfirst, hsecond]
  · exact absurd (List.cons.inj h).1 (by decide)
  · exact absurd (List.cons.inj h).1 (by decide)
  · refine List.map_injective_iff.2 (fun byte other heq => ?_) (List.cons.inj h).2
    have htoNat := congrArg Char.toNat heq
    rw [toNat_sampleByte, toNat_sampleByte] at htoNat
    exact UInt8.toNat_inj.1 (by omega)

theorem newline_notMem_sampleHash (body : Bytes) : '\n' ∉ sampleHash body := by
  rw [sampleHash]
  split_ifs
  · decide
  · rw [List.mem_cons, List.mem_map, not_or]
    refine ⟨by decide, ?_⟩
    rintro ⟨byte, -, heq⟩
    have htoNat := congrArg Char.toNat heq
    rw [toNat_sampleByte] at htoNat
    have : '\n'.toNat = 10 := by decide
    omega

/-- Primitives that agree with the library on texts without letters outside ASCII, on
numerals, and on the digests that are known. -/
def samplePrimitives (known : Text → Option Text) : Primitives where
  lower := List.map Char.toLower
  upper := List.map Char.toUpper
  parseInt := fun text =>
    if text.all Char.isDigit then some (Nat.ofDigitChars 10 text 0) else none
  hmac := fun _ => knownMac known
  sha256 := sampleHash

def sampleSecret : Text := "s3cret".toList

def sampleRequest : Request :=
  ⟨"req-1".toList, 1000, "0123456789abcdef".toList, "POST".toList,
    "/internal/symbol-fetch".toList, []⟩

def sampleMac : Text :=
  "3c5987162e40f33567f0b20d8c24c1497193887e352e45a6db1277e58aa8eae2".toList

def sampleKnown (text : Text) : Option Text :=
  if text = canonicalString (samplePrimitives fun _ => none) canonicalVersion sampleRequest then
    some sampleMac
  else none

def sampleSigned : SignedRequest := ⟨"req-1".toList, 1000, "0123456789abcdef".toList, sampleMac⟩

theorem sampleKnown_eq_some {text mac : Text} (h : sampleKnown text = some mac) :
    text = canonicalString (samplePrimitives fun _ => none) canonicalVersion sampleRequest ∧
      mac = sampleMac := by
  rw [sampleKnown] at h
  split_ifs at h with htext
  exact ⟨htext, (Option.some.inj h).symm⟩

theorem sample_ideal : (samplePrimitives sampleKnown).Ideal sampleSecret where
  hmac := knownMac_injective
    (fun _ _ _ hfirst hsecond =>
      (sampleKnown_eq_some hfirst).1.trans (sampleKnown_eq_some hsecond).1.symm)
    (fun _ _ h => by rw [(sampleKnown_eq_some h).2]; decide)
  sha256 := sampleHash_injective
  digest := newline_notMem_sampleHash

theorem sample_presented : Presented (samplePrimitives sampleKnown) sampleSecret
    [(sampleRequest, sampleSigned)] [sampleRequest.call sampleSigned 1030] where
  clock := List.pairwise_singleton _ _
  made := by
    intro entry hentry
    obtain rfl := List.mem_singleton.1 hentry
    rfl
  issued := by
    intro call hcall text _
    obtain rfl := List.mem_singleton.1 hcall
    exact ⟨_, List.mem_singleton_self _, rfl⟩
  lines := by
    constructor
    · decide
    · decide
    · intro entry hentry
      obtain rfl := List.mem_singleton.1 hentry
      exact ⟨by decide, rfl⟩
    · intro call hcall
      obtain rfl := List.mem_singleton.1 hcall
      exact ⟨by decide, rfl⟩

theorem sampleRequest_accepted :
    accepted (samplePrimitives sampleKnown) sampleSecret 60 (NonceStore.gateway 60)
        [sampleRequest.call sampleSigned 1030] = [sampleRequest] ∧
      Once (accepted (samplePrimitives sampleKnown) sampleSecret 60 (NonceStore.gateway 60)
        [sampleRequest.call sampleSigned 1030]) ∧
      AllSigned [(sampleRequest, sampleSigned)]
        (accepted (samplePrimitives sampleKnown) sampleSecret 60 (NonceStore.gateway 60)
          [sampleRequest.call sampleSigned 1030]) :=
  ⟨by decide +kernel, accepted_once sample_ideal sample_presented
    (Trace.meets_cons.2 ⟨fun _ _ => .inr (.inl (by decide)), Trace.meets_nil⟩)⟩

theorem sample_travels : Travels (samplePrimitives sampleKnown) sampleSecret sampleRequest where
  names := by
    intro made header hheader
    rfl
  requestId := by decide
  nonce := by decide
  nonceLength := by decide
  timestamp := by decide
  timestampRange := by decide
  digest := by decide +kernel
  digestLength := by decide +kernel
  digestDigits := by decide +kernel

end Kairon.Egress
