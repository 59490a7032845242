/-
Kairon/Memory/EgressFull.lean

What a full nonce store forgets.

The store keeps `MAX_NONCE_STORE` pairs, and the module's docstring promises to refuse
the nonces of the last `2 * replay_window_seconds`.  Both cannot hold for more requests
than that within the window: `accepted_again` shows, for every batch of one request more
than the store has room for, that the first of them is accepted a second time.  The
counterexample is a batch whose nonces are the numerals of 64 digits.
-/
import Kairon.Memory.EgressAuth

namespace Kairon.Egress

open Search

section

variable {p : Primitives} {secret : Text} {window now : ℤ} {store : NonceStore}
variable {call first : Call} {calls : List Call} {request head : Request} {requests : List Request}

/-- The store takes the pair of the request, as far as its form is concerned. -/
structure Fits (now ttl : ℤ) (request : Request) : Prop where
  long : 16 ≤ request.nonce.length
  short : request.nonce.length ≤ 256
  positive : 0 < request.timestamp
  bounded : request.timestamp < 2 ^ 63
  live : now - ttl ≤ request.timestamp

theorem checkAndStore_of_fits (store : NonceStore) {ttl : ℤ} (h : Fits now ttl request) :
    store.checkAndStore request.nonce request.timestamp now =
      (if (Replay.offer Prod.snd store.ttl store.maxEntries now request.key store.entries).1 then
          .ok ()
        else .error ⟨"EGRESS_AUTH_REPLAY", "Signed request nonce has already been used."⟩,
        { store with entries := (Replay.offer Prod.snd store.ttl store.maxEntries now request.key
            store.entries).2 }) := by
  have hlong := h.long
  have hshort := h.short
  have hnonce : ¬ (request.nonce = [] ∨ request.nonce.length < 16 ∨ request.nonce.length > 256) := by
    rintro (hnil | hlt | hgt)
    · rw [hnil, List.length_nil] at hlong
      omega
    · omega
    · omega
  rw [NonceStore.checkAndStore, if_neg hnonce, if_neg (not_not.2 ⟨h.positive, h.bounded⟩)]
  show (if (Replay.offer Prod.snd store.ttl store.maxEntries now request.key store.entries).1 then _
    else _) = _
  split_ifs <;> rfl

/-- An authentic request that the store does not hold is taken, and its pair is stored. -/
theorem taken_of_new (hauth : authenticate p secret window call = .ok request)
    (hfits : Fits call.now store.ttl request)
    (hlive : ∀ key ∈ store.entries, call.now - store.ttl ≤ key.2)
    (hnew : request.key ∉ store.entries) :
    taken p secret window store call = some request ∧ step p secret window store call =
        { store with entries := Replay.store store.maxEntries store.entries request.key } := by
  have hevict : Replay.evict Prod.snd (call.now - store.ttl) store.entries = store.entries :=
    Replay.evict_of_live hlive
  have hcheck := checkAndStore_of_fits store hfits
  rw [Replay.offer_of_notMem (by rwa [hevict]), hevict] at hcheck
  constructor
  · rw [taken, verifySignedHeaders, hauth]
    simp only [hcheck]
    rfl
  · rw [step, verifySignedHeaders, hauth]
    simp only [hcheck]

theorem accepted_append {later : List Call} :
    accepted p secret window store (calls ++ later) = accepted p secret window store calls ++
      accepted p secret window (Trace.run (step p secret window) store calls) later := by
  induction calls generalizing store with
  | nil => rfl
  | cons call calls ih =>
    rw [List.cons_append, accepted, accepted, ih, List.append_assoc]
    rfl

/-- Calls at one time that carry authentic requests with different pairs. -/
structure Batch (p : Primitives) (secret : Text) (window now ttl : ℤ) (calls : List Call)
    (requests : List Request) : Prop where
  authentic : List.Forall₂ (fun call request =>
    call.now = now ∧ authenticate p secret window call = .ok request) calls requests
  fits : ∀ request ∈ requests, Fits now ttl request
  nodup : (requests.map Request.key).Nodup

/-- **A batch of new requests is accepted as a whole**, and the store takes pair after
pair. -/
theorem accepted_batch (h : Batch p secret window now store.ttl calls requests)
    (hlive : ∀ key ∈ store.entries, now - store.ttl ≤ key.2)
    (hnew : ∀ request ∈ requests, request.key ∉ store.entries) :
    accepted p secret window store calls = requests ∧
      Trace.run (step p secret window) store calls = { store with
        entries := (requests.map Request.key).foldl (Replay.store store.maxEntries)
          store.entries } := by
  obtain ⟨hauth, hfits, hnodup⟩ := h
  induction hauth generalizing store with
  | nil => exact ⟨rfl, rfl⟩
  | @cons call request calls requests hfirst hrest ih =>
    obtain ⟨rfl, hfirst⟩ := hfirst
    obtain ⟨hfit, hfits⟩ := List.forall_mem_cons.1 hfits
    obtain ⟨hnotMem, hnodup⟩ := List.nodup_cons.1 hnodup
    obtain ⟨hhead, htail⟩ := List.forall_mem_cons.1 hnew
    obtain ⟨htaken, hstep⟩ := taken_of_new hfirst hfit hlive hhead
    -- whatever the store held back, it holds nothing but old pairs and this one
    have hsub : ∀ key ∈ (step p secret window store call).entries,
        key ∈ store.entries ∨ key = request.key := by
      intro key hkey
      have happend : key ∈ store.entries ++ [request.key] := by
        rw [hstep] at hkey
        change key ∈ Replay.store _ _ _ at hkey
        rw [Replay.store] at hkey
        split_ifs at hkey
        · exact List.mem_of_mem_tail hkey
        · exact hkey
      exact (List.mem_append.1 happend).imp_right List.mem_singleton.1
    have httl : (step p secret window store call).ttl = store.ttl := by rw [hstep]
    obtain ⟨haccepted, hrun⟩ := @ih (step p secret window store call)
      (by
        intro key hkey
        rw [httl]
        rcases hsub key hkey with hold | rfl
        · exact hlive key hold
        · exact hfit.live)
      (by
        intro other hother hkey
        rcases hsub _ hkey with hold | heq
        · exact htail other hother hold
        · exact hnotMem (List.mem_map.2 ⟨other, hother, heq⟩))
      (by rwa [httl]) hnodup
    constructor
    · rw [accepted, htaken, haccepted]
      rfl
    · rw [Trace.run_cons, hrun, hstep]
      rfl

/-- **One request too many, and the first comes through again.** -/
theorem accepted_again (hentries : store.entries = [])
    (h : Batch p secret window now store.ttl (first :: calls) (head :: requests))
    (hfull : requests.length = store.maxEntries) :
    accepted p secret window store (first :: calls ++ [first]) = head :: requests ++ [head] := by
  obtain ⟨haccepted, hrun⟩ := accepted_batch h (by rw [hentries]; exact nofun)
    (by rw [hentries]; exact nofun)
  have hkept : (Trace.run (step p secret window) store (first :: calls)).entries =
      requests.map Request.key := by
    rw [hrun, hentries]
    show List.foldl _ _ _ = _
    rw [Replay.foldl_store (Nat.zero_le _), List.nil_append, List.length_map, List.length_cons,
      hfull, Nat.add_sub_cancel_left]
    rfl
  have httl : (Trace.run (step p secret window) store (first :: calls)).ttl = store.ttl := by
    rw [hrun]
  have hlive : ∀ key ∈ requests.map Request.key, now - store.ttl ≤ key.2 := by
    intro key hkey
    obtain ⟨request, hrequest, rfl⟩ := List.mem_map.1 hkey
    exact (h.fits request (.tail _ hrequest)).live
  obtain ⟨⟨rfl, hfirst⟩, -⟩ := List.forall₂_cons.1 h.authentic
  obtain ⟨hlast, -⟩ := taken_of_new hfirst (by rw [httl]; exact h.fits head (.head _))
    (by rwa [httl, hkept]) (by rw [hkept]; exact (List.nodup_cons.1 h.nodup).1)
  rw [accepted_append, haccepted, accepted, hlast]
  rfl

end

/-! ### A batch of numbered requests -/

theorem dropWhile_isSpace {text : Text} (h : ∀ c ∈ text, isSpace c = false) :
    text.dropWhile isSpace = text := by
  rcases text with - | ⟨c, text⟩
  · rfl
  · exact List.dropWhile_cons_of_neg (Bool.not_eq_true _ ▸ h c (.head _))

theorem strip_of_forall {text : Text} (h : ∀ c ∈ text, isSpace c = false) : strip text = text := by
  rw [strip, dropWhile_isSpace h,
    dropWhile_isSpace fun c hc => h c (List.mem_reverse.1 hc), List.reverse_reverse]

/-- A text of the form of a signature. -/
structure Plain (text : Text) : Prop where
  length : text.length = 64
  digits : ∀ c ∈ text, ∃ d < 10, c = Nat.digitChar d

namespace Plain

variable {text : Text}

/-- What the module does to the characters of a header leaves digits alone. -/
theorem char {c : Char} (h : Plain text) (hc : c ∈ text) :
    isSpace c = false ∧ c.toLower = c ∧ isHexDigit c = true ∧ c ≠ 'x' ∧ c ≠ '\n' := by
  obtain ⟨d, hd, rfl⟩ := h.digits c hc
  interval_cases d <;> decide

theorem strip (h : Plain text) : Search.strip text = text :=
  strip_of_forall fun _ hc => (h.char hc).1

theorem lower (h : Plain text) : text.map Char.toLower = text := by
  conv_rhs => rw [← List.map_id text]
  exact List.map_congr_left fun c hc => (h.char hc).2.1

theorem head (h : Plain text) : text.head? ≠ some 'x' :=
  fun hx => (h.char (List.mem_of_mem_head? hx)).2.2.2.1 rfl

theorem newline (h : Plain text) : '\n' ∉ text := fun hmem => (h.char hmem).2.2.2.2 rfl

end Plain

theorem plain_digits (i : ℕ) : Plain (Numeral.digits 64 i) :=
  ⟨Numeral.length_digits 64 i, fun _ => Numeral.exists_digitChar_of_mem⟩

/-- A request and what it is signed with. -/
def plainRequest (nonce : Text) : Request :=
  ⟨"r".toList, 1000, nonce, "POST".toList, "/internal/symbol-fetch".toList, []⟩

def plainSigned (nonce : Text) : SignedRequest := ⟨"r".toList, 1000, nonce, nonce⟩

def plainCall (nonce : Text) : Call := (plainRequest nonce).call (plainSigned nonce) 1000

def plainFront : Text := "v1\nr\n1000\n".toList

def plainBack : Text := "\nPOST\n/internal/symbol-fetch\n".toList ++ sampleHash []

/-- The digest of a plain request is its nonce. -/
def plainKnown (text : Text) : Option Text :=
  let nonce := (text.drop plainFront.length).take 64
  if text = plainFront ++ (nonce ++ plainBack) ∧ nonce.head? ≠ some 'x' then some nonce else none

def plainPrimitives : Primitives := samplePrimitives plainKnown

theorem plainKnown_eq_some {text mac : Text} (h : plainKnown text = some mac) :
    text = plainFront ++ (mac ++ plainBack) ∧ mac.head? ≠ some 'x' := by
  rw [plainKnown] at h
  split_ifs at h with hform
  obtain rfl := Option.some.inj h
  exact hform

theorem plain_ideal : plainPrimitives.Ideal sampleSecret where
  hmac := knownMac_injective
    (fun _ _ _ hfirst hsecond =>
      (plainKnown_eq_some hfirst).1.trans (plainKnown_eq_some hsecond).1.symm)
    (fun _ _ h => (plainKnown_eq_some h).2)
  sha256 := sampleHash_injective
  digest := newline_notMem_sampleHash

section

variable {nonce : Text}

theorem intStr_thousand : intStr 1000 = "1000".toList := by decide +kernel

theorem header_timestamp (request : Request) (made : SignedRequest) (now : ℤ) :
    (request.call made now).header plainPrimitives "x-kairon-egress-timestamp".toList =
      intStr made.timestamp := rfl

theorem canonicalString_plain :
    canonicalString plainPrimitives canonicalVersion (plainRequest nonce) =
      plainFront ++ (nonce ++ plainBack) := by
  rw [canonicalString_eq, show (plainRequest nonce).timestamp = 1000 from rfl, intStr_thousand]
  rfl

theorem signature_plain (h : Plain nonce) :
    signature plainPrimitives sampleSecret (plainRequest nonce) = nonce := by
  have hmiddle : ((plainFront ++ (nonce ++ plainBack)).drop plainFront.length).take 64 = nonce := by
    rw [List.drop_left, ← h.length, List.take_left]
  have hknown : plainKnown (plainFront ++ (nonce ++ plainBack)) = some nonce := by
    rw [plainKnown, hmiddle]
    exact if_pos ⟨rfl, h.head⟩
  show knownMac plainKnown _ = _
  rw [canonicalString_plain, knownMac, hknown]
  rfl

theorem signRequest_plain (h : Plain nonce) :
    signRequest plainPrimitives sampleSecret (plainRequest nonce) = .ok (plainSigned nonce) := by
  have hid : (plainRequest nonce).requestId = "r".toList := rfl
  rw [signRequest, if_neg (by decide), hid, if_neg (by decide), signature_plain h]
  rfl

theorem signature_plainCall (h : Plain nonce) :
    (plainCall nonce).signature plainPrimitives = nonce := by
  show (strip nonce).map Char.toLower = nonce
  rw [h.strip, h.lower]

theorem authenticate_plain (h : Plain nonce) :
    authenticate plainPrimitives sampleSecret 60 (plainCall nonce) = .ok (plainRequest nonce) := by
  have hnonce : (plainCall nonce).nonce plainPrimitives = nonce := h.strip
  have hsignature := signature_plainCall h
  have hid : (plainCall nonce).requestId plainPrimitives = "r".toList := rfl
  have hversion : (plainCall nonce).header plainPrimitives "x-kairon-egress-version".toList =
      canonicalVersion := rfl
  have htimestamp : plainPrimitives.parseInt
      (strip ((plainCall nonce).header plainPrimitives "x-kairon-egress-timestamp".toList)) =
      some 1000 := by
    rw [plainCall, header_timestamp, show (plainSigned nonce).timestamp = 1000 from rfl,
      intStr_thousand]
    decide
  have hne : nonce ≠ [] := by
    intro hnil
    have := h.length
    rw [hnil] at this
    cases this
  have hhex : nonce.all isHexDigit = true := List.all_eq_true.2 fun c hc => (h.char hc).2.2.1
  rw [authenticate, if_neg (by decide), hversion, if_neg (not_not.2 rfl), hid, if_neg (by decide)]
  simp only [htimestamp, hnonce, hsignature]
  rw [if_neg hne, if_neg (by simp [hne, h.length, hhex]),
    show (plainCall nonce).now = 1000 from rfl, if_neg (by decide)]
  exact if_neg (not_not.2 (signature_plain h))

end

/-- The nonces of one request more than the gateway's store has room for, after the first. -/
def floodNonces : List Text := (List.range 4096).map fun i => Numeral.digits 64 (i + 1)

def firstNonce : Text := Numeral.digits 64 0

/-- Every request once, and then the first one again. -/
def floodCalls : List Call :=
  plainCall firstNonce :: floodNonces.map plainCall ++ [plainCall firstNonce]

def floodSigned : List (Request × SignedRequest) :=
  (firstNonce :: floodNonces).map fun nonce => (plainRequest nonce, plainSigned nonce)

theorem plain_flood {nonce : Text} (h : nonce ∈ firstNonce :: floodNonces) : Plain nonce := by
  rcases List.mem_cons.1 h with rfl | hrest
  · exact plain_digits 0
  · obtain ⟨i, -, rfl⟩ := List.mem_map.1 hrest
    exact plain_digits (i + 1)

theorem nodup_flood : (firstNonce :: floodNonces).Nodup := by
  have hrange : firstNonce :: floodNonces = (List.range 4097).map (Numeral.digits 64) := by
    rw [List.range_succ_eq_map, List.map_cons, List.map_map]
    rfl
  rw [hrange]
  refine List.Nodup.map_on (fun i hi j hj heq => ?_) List.nodup_range
  have hsmall : ∀ n ∈ List.range 4097, n < 10 ^ 64 := fun n hn =>
    (List.mem_range.1 hn).trans (by norm_num)
  exact Numeral.digits_injOn 64 (hsmall i hi) (hsmall j hj) heq

theorem mem_floodCalls {call : Call} (h : call ∈ floodCalls) :
    ∃ nonce ∈ firstNonce :: floodNonces, call = plainCall nonce := by
  rcases List.mem_append.1 h with hbatch | hagain
  · obtain ⟨nonce, hnonce, rfl⟩ := List.mem_map.1
      (show call ∈ (firstNonce :: floodNonces).map plainCall from hbatch)
    exact ⟨nonce, hnonce, rfl⟩
  · exact ⟨firstNonce, .head _, List.mem_singleton.1 hagain⟩

theorem mem_floodSigned {entry : Request × SignedRequest} (h : entry ∈ floodSigned) :
    ∃ nonce ∈ firstNonce :: floodNonces, entry = (plainRequest nonce, plainSigned nonce) := by
  obtain ⟨nonce, hnonce, rfl⟩ := List.mem_map.1 h
  exact ⟨nonce, hnonce, rfl⟩

theorem flood_batch : Batch plainPrimitives sampleSecret 60 1000 (NonceStore.gateway 60).ttl
    (plainCall firstNonce :: floodNonces.map plainCall)
    (plainRequest firstNonce :: floodNonces.map plainRequest) where
  authentic := by
    rw [← List.map_cons, ← List.map_cons, List.forall₂_map_left_iff, List.forall₂_map_right_iff,
      List.forall₂_same]
    exact fun nonce hnonce => ⟨rfl, authenticate_plain (plain_flood hnonce)⟩
  fits := by
    intro request hrequest
    rw [← List.map_cons] at hrequest
    obtain ⟨nonce, hnonce, rfl⟩ := List.mem_map.1 hrequest
    have hlength : (plainRequest nonce).nonce.length = 64 := (plain_flood hnonce).length
    exact ⟨by omega, by omega, (by decide : (0 : ℤ) < 1000), (by decide : (1000 : ℤ) < 2 ^ 63),
      (by decide : (1000 : ℤ) - (NonceStore.gateway 60).ttl ≤ 1000)⟩
  nodup := by
    rw [← List.map_cons, List.map_map]
    exact nodup_flood.map fun nonce other heq => (Prod.mk.inj heq).1

theorem flood_presented : Presented plainPrimitives sampleSecret floodSigned floodCalls where
  clock := by
    refine List.pairwise_of_forall_mem_list fun first hfirst second hsecond => ?_
    obtain ⟨nonce, -, rfl⟩ := mem_floodCalls hfirst
    obtain ⟨other, -, rfl⟩ := mem_floodCalls hsecond
    exact le_rfl
  made := by
    intro entry hentry
    obtain ⟨nonce, hnonce, rfl⟩ := mem_floodSigned hentry
    exact signRequest_plain (plain_flood hnonce)
  issued := by
    intro call hcall text _
    obtain ⟨nonce, hnonce, rfl⟩ := mem_floodCalls hcall
    exact ⟨_, List.mem_map.2 ⟨nonce, hnonce, rfl⟩, (signature_plainCall (plain_flood hnonce)).symm⟩
  lines := by
    constructor
    · intro entry hentry
      obtain ⟨nonce, hnonce, rfl⟩ := mem_floodSigned hentry
      exact ⟨(by decide : '\n' ∉ "r".toList), (plain_flood hnonce).newline⟩
    · intro call hcall header hheader
      obtain ⟨nonce, hnonce, rfl⟩ := mem_floodCalls hcall
      have hnewline := (plain_flood hnonce).newline
      have hmem : header ∈ (plainSigned nonce).headers := hheader
      rw [SignedRequest.headers, show (plainSigned nonce).timestamp = 1000 from rfl,
        intStr_thousand] at hmem
      simp only [List.mem_cons, List.not_mem_nil, or_false] at hmem
      rcases hmem with rfl | rfl | rfl | rfl | rfl
      · decide
      · exact (by decide : '\n' ∉ "r".toList)
      · decide
      · exact hnewline
      · exact hnewline
    · intro entry hentry
      obtain ⟨nonce, -, rfl⟩ := mem_floodSigned hentry
      exact ⟨(by decide : '\n' ∉ "POST".toList), rfl⟩
    · intro call hcall
      obtain ⟨nonce, -, rfl⟩ := mem_floodCalls hcall
      exact ⟨(by decide : '\n' ∉ "POST".toList), rfl⟩

theorem flood_accepted_twice : plainPrimitives.Ideal sampleSecret ∧
    Presented plainPrimitives sampleSecret floodSigned floodCalls ∧
      ¬ Once (accepted plainPrimitives sampleSecret 60 (NonceStore.gateway 60) floodCalls) := by
  refine ⟨plain_ideal, flood_presented, fun honce => ?_⟩
  have hfull : (floodNonces.map plainRequest).length = (NonceStore.gateway 60).maxEntries := by
    rw [List.length_map, floodNonces, List.length_map, List.length_range]
    rfl
  rw [floodCalls, accepted_again rfl flood_batch hfull] at honce
  exact (List.pairwise_append.1 honce).2.2 _ (.head _) _ (.head _)
    ⟨rfl, rfl, rfl, rfl⟩

end Kairon.Egress
