/-
Kairon/Memory/EgressPolicy.lean

Where the symbol egress gateway keeps its policy, and where not.

`Safe` is the policy of the module's docstring, said of a whole download.  Three things
get past the checks: a host with several labels (or none) before the blob suffix, a path
segment that mixes plain and encoded dots, and a body of no declared length.  `Tidy`
excludes the first two of a URL, and `Orderly` all three of a chain of answers;
`download_safe_iff` is exact.
-/
import Kairon.Memory.EgressGateway

namespace Kairon.Gateway

open Search Settle

/-! ### The policy -/

/-- The characters that the name service takes for a dot. -/
def isDot (c : Char) : Bool :=
  c ∈ ['.', Char.ofNat 0x3002, Char.ofNat 0xFF0E, Char.ofNat 0xFF61]

/-- Exactly one label before the blob suffix. -/
def OneLabel (host : Text) : Prop :=
  ∃ label : Text, label ≠ [] ∧ (∀ c ∈ label, isDot c = false) ∧ host = label ++ blobSuffix

def dots : List Text := [".".toList, "%2e".toList, "%2E".toList]

/-- Two dots, each of them plain or encoded. -/
def DotDot (segment : Text) : Prop := ∃ first ∈ dots, ∃ second ∈ dots, segment = first ++ second

/-- A connection that the policy permits. -/
structure Allowed (net : Net) (connection : Connection) : Prop where
  https : connection.scheme = "https".toList
  port : connection.port = 443
  host : connection.host = approvedInitialHost ∨ OneLabel connection.host
  address : ∃ address, net.ipAddress connection.address = some address ∧ address.denied = false
  path : ∀ segment ∈ connection.path.splitOn '/', ¬ DotDot segment

/-- The policy, for a whole download and every way to read the stream it returns. -/
structure Safe (net : Net) (settings : Settings)
    (outcome : List Connection × Option (Attempt Stream)) : Prop where
  allowed : ∀ connection ∈ outcome.1, Allowed net connection
  hops : outcome.1.length ≤ settings.maxRedirects + 1
  redirects : ∀ stream, outcome.2 = some (.ok stream) → stream.redirectCount ≤ settings.maxRedirects
  bounded : ∀ stream, outcome.2 = some (.ok stream) →
    ∀ readings, (rawChunks settings readings stream.readable).flatten.length ≤ settings.maxBytes

/-! ### The answers that break it -/

/-- A segment of a plain dot and an encoded one. -/
def isMixed (segment : Text) : Bool :=
  segment.map Char.toLower ∈ [".%2e".toList, "%2e.".toList]

/-- A URL whose host has one label before the blob suffix, where it has that suffix, and
whose path mixes no dots. -/
def Tidy (net : Net) (url : Text) : Prop :=
  ∀ parsed ∈ Url.urlsplit net.conv url,
    (blobSuffix <:+ hostOf net parsed → OneLabel (hostOf net parsed)) ∧
      ∀ segment ∈ (pathOf parsed).splitOn '/', isMixed segment = false

/-- Every URL that a redirect leads to and the checks let pass is tidy, and a body without
a declared length stays below the limit. -/
def Orderly (net : Net) (settings : Settings) (redirects : ℕ) (url : Text) :
    List Exchange → Prop
  | [] => True
  | exchange :: exchanges =>
    ∀ connection, connect net settings redirects url exchange = .ok connection →
      (redirects = 0 ∨ Tidy net url) ∧ ∀ reply, exchange.reply = .ok reply →
        (reply.status = 200 → checkDeclared net settings reply = .ok () →
          reply.length net = none → reply.body.length ≤ settings.maxBytes) ∧
        (reply.status ∈ redirectStatuses → ∀ nextUrl,
          followed net settings redirects connection reply = .ok nextUrl →
            Orderly net settings (redirects + 1) nextUrl exchanges)

/-! ### What the checks let pass -/

section

variable {net : Net} {settings : Settings} {redirects : ℕ} {url path : Text}
variable {exchange : Exchange} {connection : Connection} {reply : Reply}

theorem forM_eq_ok {α : Type} {xs : List α} {f : α → Attempt Unit} :
    xs.forM f = .ok () ↔ ∀ x ∈ xs, f x = .ok () := by
  induction xs with
  | nil => exact iff_of_true rfl nofun
  | cons x xs ih =>
    show (f x >>= fun _ => xs.forM f) = .ok () ↔ _
    rw [bind_eq_ok, List.forall_mem_cons, ← ih]
    exact ⟨fun ⟨_, hx, hxs⟩ => ⟨hx, hxs⟩, fun ⟨hx, hxs⟩ => ⟨(), hx, hxs⟩⟩

theorem publicAddresses_ok {infos : Option (List Text)} {addresses : List Text}
    (h : publicAddresses net infos = .ok addresses) :
    ∃ address, net.ipAddress (addresses.headD []) = some address ∧ address.denied = false := by
  simp only [publicAddresses, bind_eq_ok, orRaise_eq_ok, require_eq_ok, pure, Except.pure,
    Except.ok.injEq] at h
  obtain ⟨raw, -, ⟨⟩, hne, ⟨⟩, hcheck, rfl⟩ := h
  obtain ⟨first, rest, hfirst⟩ := List.exists_cons_of_ne_nil hne
  have hchecked := forM_eq_ok.1 hcheck first (by rw [hfirst]; exact .head _)
  simp only [checkAddress, bind_eq_ok, orRaise_eq_ok, require_eq_ok] at hchecked
  obtain ⟨address, haddress, hpublic⟩ := hchecked
  rw [hfirst]
  exact ⟨address, haddress, hpublic⟩

/-- What `_validate_path` lets pass. -/
theorem validatePath_ok {path' : Text} (h : validatePath path = .ok path') :
    path' = path ∧ ∀ segment ∈ path.splitOn '/', isTraversal segment = false := by
  rw [validatePath] at h
  split_ifs at h with hinvalid htraversal
  refine ⟨(Except.ok.inj h).symm, fun segment hsegment => ?_⟩
  rw [Bool.not_eq_true, List.any_eq_false] at htraversal
  exact Bool.not_eq_true _ ▸ htraversal segment hsegment

/-- What `_validate_host_policy` lets pass. -/
theorem validateHostPolicy_ok {host : Text} {initial : Bool}
    (h : validateHostPolicy net settings host initial = .ok ()) :
    host = rstripDots (net.lower settings.initialHost) ∨
      initial = false ∧ ∃ suffix ∈ settings.redirectSuffixes, suffix <:+ host ∧
        host ≠ lstripDots suffix := by
  rw [validateHostPolicy] at h
  split_ifs at h with hempty hrefused hinitial hsame hsuffix
  · exact .inl (Classical.not_not.1 fun hne => hrefused ⟨fun hboth => hne hboth.2, hinitial⟩)
  · exact .inl hsame
  · obtain ⟨suffix, hmem, hboth⟩ := List.any_eq_true.1 hsuffix
    rw [Bool.and_eq_true, List.isSuffixOf_iff_suffix, decide_eq_true_iff] at hboth
    exact .inr ⟨Bool.not_eq_true _ ▸ hinitial, suffix, hmem, hboth⟩

theorem validateFirst_ok {path' : Text} (h : validateFirst settings redirects path = .ok path') :
    path' = path := by
  rw [validateFirst] at h
  split_ifs at h
  · rw [validatePathPrefix] at h
    rcases hvalid : validatePath path with e | valid
    · rw [hvalid] at h
      cases h
    · rw [hvalid] at h
      dsimp only at h
      split_ifs at h
      exact (Except.ok.inj h).symm
  · exact (Except.ok.inj h).symm

/-- **What a turn has checked when it connects.** -/
theorem connect_ok (h : connect net settings redirects url exchange = .ok connection) :
    ∃ parsed, Url.urlsplit net.conv url = some parsed ∧
      connection.scheme = "https".toList ∧ connection.port = 443 ∧
        connection.host = hostOf net parsed ∧ connection.path = pathOf parsed ∧
          validateHostPolicy net settings connection.host (redirects = 0) = .ok () ∧
            (∀ segment ∈ connection.path.splitOn '/', isTraversal segment = false) ∧
              ∃ address, net.ipAddress connection.address = some address ∧
                address.denied = false := by
  simp only [connect, bind_eq_ok, orRaise_eq_ok, require_eq_ok, pure, Except.pure,
    Except.ok.injEq] at h
  obtain ⟨⟨⟩, -, parsed, hparsed, ⟨⟩, hpolicy, ⟨⟩, -, ⟨⟩, hscheme, port, -, ⟨⟩, -, path, hpath,
    path', hfirst, addresses, haddresses, ⟨⟩, -, rfl⟩ := h
  obtain ⟨rfl, htraversal⟩ := validatePath_ok hpath
  obtain rfl := validateFirst_ok hfirst
  exact ⟨parsed, hparsed, hscheme.1, rfl, rfl, rfl, hpolicy, htraversal,
    publicAddresses_ok haddresses⟩

/-! ### Which connections the policy permits -/

variable {segment : Text}

/-- An encoded dot, in both cases of its last digit. -/
theorem mem_dots (h : segment.map Char.toLower = ['%', '2', 'e']) : segment ∈ dots := by
  obtain ⟨a, segment, rfl, ha, h⟩ := List.map_eq_cons_iff.1 h
  obtain ⟨b, segment, rfl, hb, h⟩ := List.map_eq_cons_iff.1 h
  obtain ⟨c, segment, rfl, hc, h⟩ := List.map_eq_cons_iff.1 h
  obtain rfl := List.map_eq_nil_iff.1 h
  obtain rfl := Url.toLower_eq_plain ha (by decide)
  obtain rfl := Url.toLower_eq_plain hb (by decide)
  rcases Url.toLower_eq hc with rfl | ⟨-, -, hshift⟩
  · decide
  · have hcode : c.toNat = 'E'.toNat := by
      have : 'e'.toNat = 101 := rfl
      have : 'E'.toNat = 69 := rfl
      omega
    obtain rfl := Char.toNat_inj.1 hcode
    decide

theorem dotDot_iff (h : isTraversal segment = false) : DotDot segment ↔ isMixed segment = true := by
  rw [isTraversal, Bool.or_eq_false_iff, decide_eq_false_iff_not, decide_eq_false_iff_not] at h
  constructor
  · rintro ⟨first, hfirst, second, hsecond, rfl⟩
    simp only [dots, List.mem_cons, List.not_mem_nil, or_false] at hfirst hsecond
    rcases hfirst with rfl | rfl | rfl <;> rcases hsecond with rfl | rfl | rfl <;>
      first | decide | exact absurd (by decide) h.1 | exact absurd (by decide) h.2
  · intro hmixed
    have hcases : segment.map Char.toLower = ['.', '%', '2', 'e'] ∨
        segment.map Char.toLower = ['%', '2', 'e', '.'] := by
      simpa [isMixed] using hmixed
    rcases hcases with hplain | hencoded
    · obtain ⟨a, rest, rfl, ha, hrest⟩ := List.map_eq_cons_iff.1 hplain
      obtain rfl := Url.toLower_eq_plain ha (by decide)
      exact ⟨['.'], by decide, rest, mem_dots hrest, rfl⟩
    · obtain ⟨rest, last, rfl, hrest, hlast⟩ :=
        List.map_eq_append_iff.1 (show segment.map Char.toLower = ['%', '2', 'e'] ++ ['.'] from
          hencoded)
      obtain ⟨a, tail, rfl, ha, htail⟩ := List.map_eq_cons_iff.1 hlast
      obtain rfl := List.map_eq_nil_iff.1 htail
      obtain rfl := Url.toLower_eq_plain ha (by decide)
      exact ⟨rest, mem_dots hrest, ['.'], by decide, rfl⟩

theorem lower_approvedInitialHost : net.lower approvedInitialHost = approvedInitialHost := by
  have hall : approvedInitialHost.all (fun c => decide (c.toNat < 128)) = true := by decide
  have hascii : ∀ c ∈ approvedInitialHost, c.toNat < 128 := fun c hc =>
    of_decide_eq_true (List.all_eq_true.1 hall c hc)
  rw [Net.lower, net.conv.lower_ascii _ hascii]
  decide

theorem initialHost_eq : rstripDots (net.lower settings.initialHost) = approvedInitialHost := by
  rw [settings.host_approved, lower_approvedInitialHost]
  decide

/-- Of the hosts that the checks let pass, the policy permits those with one label. -/
theorem host_iff {host : Text} {initial : Bool}
    (h : validateHostPolicy net settings host initial = .ok ()) :
    (host = approvedInitialHost ∨ OneLabel host) ↔ (blobSuffix <:+ host → OneLabel host) := by
  rcases validateHostPolicy_ok h with hinitial | ⟨-, suffix, hsuffix, hmem, -⟩
  · rw [initialHost_eq] at hinitial
    refine ⟨fun _ hblob => ?_, fun _ => .inl hinitial⟩
    rw [hinitial] at hblob
    exact absurd hblob (by decide)
  · obtain rfl := List.mem_singleton.1 (settings.suffixes_approved suffix hsuffix)
    refine ⟨?_, fun hone => .inr (hone hmem)⟩
    rintro (rfl | hone) -
    · exact absurd hmem (by decide)
    · exact hone

/-- **A connection is permitted iff the URL that led to it is tidy.** -/
theorem allowed_iff (h : connect net settings redirects url exchange = .ok connection) :
    Allowed net connection ↔ Tidy net url := by
  obtain ⟨parsed, hparsed, hscheme, hport, hhost, hpath, hpolicy, htraversal, haddress⟩ :=
    connect_ok h
  constructor
  · intro hallowed other hother
    rw [hparsed, Option.mem_some_iff] at hother
    rw [← hother, ← hhost, ← hpath]
    refine ⟨(host_iff hpolicy).1 hallowed.host, fun segment hsegment => ?_⟩
    rw [← Bool.not_eq_true, ← dotDot_iff (htraversal segment hsegment)]
    exact hallowed.path segment hsegment
  · intro htidy
    obtain ⟨hone, hmixed⟩ := htidy parsed (Option.mem_def.2 hparsed)
    rw [← hhost] at hone
    rw [← hpath] at hmixed
    refine ⟨hscheme, hport, (host_iff hpolicy).2 hone, haddress, fun segment hsegment => ?_⟩
    rw [dotDot_iff (htraversal segment hsegment), hmixed segment hsegment]
    exact nofun

/-! ### The first URL -/

theorem isUnreserved_notMem {c : Char} (h : isUnreserved c = true) : c ∉ ['/', '?', '#', '%'] := by
  intro hmem
  simp only [List.mem_cons, List.not_mem_nil, or_false] at hmem
  rcases hmem with rfl | rfl | rfl | rfl
  · exact absurd h (by decide)
  · exact absurd h (by decide)
  · exact absurd h (by decide)
  · exact absurd h (by decide)

theorem isUnreserved_visible {c : Char} (h : isUnreserved c = true) : 32 < c.toNat := by
  rw [isUnreserved, Bool.or_eq_true, decide_eq_true_iff] at h
  rcases h with halnum | hother
  · rw [Char.isAlphanum, Bool.or_eq_true, Char.isAlpha, Bool.or_eq_true] at halnum
    rcases halnum with (hupper | hlower) | hdigit
    · rw [Char.isUpper, decide_eq_true_iff] at hupper
      have : 65 ≤ c.toNat := hupper.1
      omega
    · rw [Char.isLower, Bool.and_eq_true, decide_eq_true_iff, decide_eq_true_iff] at hlower
      have : 97 ≤ c.toNat := hlower.1
      omega
    · rw [Char.isDigit, Bool.and_eq_true, decide_eq_true_iff, decide_eq_true_iff] at hdigit
      have : 48 ≤ c.toNat := hdigit.1
      omega
  · simp only [List.mem_cons, List.not_mem_nil, or_false] at hother
    rcases hother with rfl | rfl | rfl | rfl
    · decide
    · decide
    · decide
    · decide

/-- What `quote` writes is unreserved, but for the percent sign. -/
theorem mem_quote {c : Char} {text : Text} (h : c ∈ quote text) :
    isUnreserved c = true ∨ c = '%' := by
  obtain ⟨d, -, hd⟩ := List.mem_flatMap.1 h
  split_ifs at hd with hunreserved
  · rw [List.mem_singleton.1 hd]
    exact .inl hunreserved
  · obtain ⟨byte, -, hbyte⟩ := List.mem_flatMap.1 hd
    have hlt := byte.toNat_lt
    have hhex : ∀ n, n < 16 → isUnreserved (hexDigit n) = true := by
      intro n hn
      interval_cases n <;> decide
    simp only [List.mem_cons, List.not_mem_nil, or_false] at hbyte
    rcases hbyte with rfl | rfl | rfl
    · exact .inr rfl
    · exact .inl (hhex _ (by omega))
    · exact .inl (hhex _ (by omega))

theorem quote_plain {c : Char} {text : Text} (h : c ∈ quote text) :
    32 < c.toNat ∧ c ∉ ['/', '?', '#'] := by
  rcases mem_quote h with hunreserved | rfl
  · refine ⟨isUnreserved_visible hunreserved, fun hmem => isUnreserved_notMem hunreserved ?_⟩
    simp only [List.mem_cons, List.not_mem_nil, or_false] at hmem ⊢
    tauto
  · decide

theorem quote_of_unreserved {text : Text} (h : ∀ c ∈ text, isUnreserved c = true) :
    quote text = text := by
  induction text with
  | nil => rfl
  | cons c text ih =>
    obtain ⟨hc, htext⟩ := List.forall_mem_cons.1 h
    rw [quote, List.flatMap_cons, if_pos hc]
    exact congrArg (c :: ·) (ih htext)

/-- A segment that ends in another letter than an encoded dot does. -/
theorem not_isMixed_of_last {c : Char} (h : c.toLower ∉ ['e', '.']) :
    isMixed (segment ++ [c]) = false := by
  rw [isMixed, decide_eq_false_iff_not, List.map_append]
  intro hmem
  refine h ?_
  simp only [List.mem_cons, List.not_mem_nil, or_false] at hmem
  rcases hmem with hmixed | hmixed
  · have := congrArg List.getLast? hmixed
    simp at this
    simp [this]
  · have := congrArg List.getLast? hmixed
    simp at this
    simp [this]

variable {payload : Payload}

/-- The name of a file keeps the last letter of its extension. -/
theorem quote_pdbName (payload : Payload) :
    ∃ front c, quote payload.pdbName = front ++ [c] ∧ c.toLower = 'b' := by
  obtain ⟨⟨-, -, -, hsuffix⟩, -⟩ := payload.name_valid
  have hsplit := List.take_append_drop (payload.pdbName.length - 4) payload.pdbName
  obtain ⟨front, last, hdrop, -, hlast⟩ := List.map_eq_append_iff.1
    (show (payload.pdbName.drop _).map Char.toLower = ['.', 'p', 'd'] ++ ['b'] from hsuffix)
  obtain ⟨c, tail, rfl, hc, htail⟩ := List.map_eq_cons_iff.1 hlast
  obtain rfl := List.map_eq_nil_iff.1 htail
  have hunreserved : isUnreserved c = true := by
    rcases Url.toLower_eq hc with rfl | ⟨-, -, hshift⟩
    · decide
    · have hcode : c.toNat = 'B'.toNat := by
        have : 'b'.toNat = 98 := rfl
        have : 'B'.toNat = 66 := rfl
        omega
      obtain rfl := Char.toNat_inj.1 hcode
      decide
  refine ⟨quote (payload.pdbName.take (payload.pdbName.length - 4) ++ front), c, ?_, hc⟩
  rw [← quote_of_unreserved (List.forall_mem_singleton.2 hunreserved), quote, quote, quote,
    ← List.flatMap_append, List.append_assoc, ← hdrop, hsplit]

/-- The segments of the first path. -/
def initialSegments (payload : Payload) : List Text :=
  [[], "download".toList, "symbols".toList, [], quote payload.pdbName,
    quote (payload.guid ++ intStr payload.age), quote payload.pdbName]

theorem intercalate_approved (name key : Text) :
    approvedInitialPathPrefix ++ List.intercalate ['/'] [[], name, key, name] =
      List.intercalate ['/'] [[], "download".toList, "symbols".toList, [], name, key, name] := rfl

theorem buildInitialUrl_eq : buildInitialUrl settings payload = "https://".toList ++
    (approvedInitialHost ++ List.intercalate ['/'] (initialSegments payload)) := by
  have hpath : settings.pathPrefix ++ List.intercalate ['/'] [[], quote payload.pdbName,
      quote (payload.guid ++ intStr payload.age), quote payload.pdbName] =
        List.intercalate ['/'] (initialSegments payload) := by
    rw [settings.prefix_approved, intercalate_approved]
    unfold initialSegments
    rfl
  unfold buildInitialUrl
  dsimp only
  rw [hpath, settings.host_approved]

theorem initialSegments_plain (h : segment ∈ initialSegments payload) :
    ∀ c ∈ segment, 32 < c.toNat ∧ c ∉ ['/', '?', '#'] := by
  have hfixed : ∀ fixed : Text,
      fixed.all (fun c => decide (32 < c.toNat ∧ c ∉ ['/', '?', '#'])) = true →
        ∀ c ∈ fixed, 32 < c.toNat ∧ c ∉ ['/', '?', '#'] :=
    fun fixed hall c hc => of_decide_eq_true (List.all_eq_true.1 hall c hc)
  simp only [initialSegments, List.mem_cons, List.not_mem_nil, or_false] at h
  rcases h with rfl | rfl | rfl | rfl | rfl | rfl | rfl
  · exact fun c hc => absurd hc List.not_mem_nil
  · exact hfixed _ (by decide)
  · exact hfixed _ (by decide)
  · exact fun c hc => absurd hc List.not_mem_nil
  · exact fun c => quote_plain
  · exact fun c => quote_plain
  · exact fun c => quote_plain

/-- The key is the guid and more, too long for dots. -/
theorem not_isMixed_key (payload : Payload) :
    isMixed (quote (payload.guid ++ intStr payload.age)) = false := by
  obtain ⟨hlength, hguid⟩ := payload.guid_valid
  have hunreserved : ∀ c ∈ payload.guid, isUnreserved c = true := by
    intro c hc
    have hchar := List.all_eq_true.1 hguid c hc
    rw [Bool.or_eq_true] at hchar
    rw [isUnreserved, Char.isAlphanum, Char.isAlpha]
    rcases hchar with hdigit | hupper
    · rw [hdigit, Bool.or_true, Bool.true_or]
    · have hisUpper : c.isUpper = true := by
        rw [Bool.and_eq_true, decide_eq_true_iff, decide_eq_true_iff] at hupper
        rw [Char.isUpper, decide_eq_true_iff]
        exact ⟨hupper.1, hupper.2.trans (by decide)⟩
      rw [hisUpper, Bool.true_or, Bool.true_or, Bool.true_or]
  have hquote : quote (payload.guid ++ intStr payload.age) =
      payload.guid ++ quote (intStr payload.age) := by
    rw [quote, List.flatMap_append]
    exact congrArg (· ++ _) (quote_of_unreserved hunreserved)
  rw [isMixed, decide_eq_false_iff_not, hquote]
  intro hmem
  have hfour : ((payload.guid ++ quote (intStr payload.age)).map Char.toLower).length = 4 := by
    simp only [List.mem_cons, List.not_mem_nil, or_false] at hmem
    rcases hmem with hmixed | hmixed
    · rw [hmixed]
      rfl
    · rw [hmixed]
      rfl
  rw [List.length_map, List.length_append, hlength] at hfour
  omega

theorem initialSegments_not_mixed (h : segment ∈ initialSegments payload) :
    isMixed segment = false := by
  obtain ⟨front, c, hname, hc⟩ := quote_pdbName payload
  have hb : c.toLower ∉ ['e', '.'] := by
    rw [hc]
    decide
  simp only [initialSegments, hname, List.mem_cons, List.not_mem_nil, or_false] at h
  rcases h with rfl | rfl | rfl | rfl | rfl | rfl | rfl
  · rfl
  · decide
  · decide
  · rfl
  · exact not_isMixed_of_last hb
  · exact not_isMixed_key payload
  · exact not_isMixed_of_last hb

theorem approvedInitialHost_plain : Url.PlainHost approvedInitialHost := by
  have hall : approvedInitialHost.all (fun c => decide (32 < c.toNat ∧
      c ∉ ['/', '?', '#', '[', ']', '@', ':', '%'])) = true := by decide
  exact ⟨by decide, fun c hc => of_decide_eq_true (List.all_eq_true.1 hall c hc)⟩

theorem initialPath_plain : Url.PlainPath (List.intercalate ['/'] (initialSegments payload)) := by
  refine ⟨rfl, fun c hc => ?_⟩
  rcases Search.mem_intercalate hc with rfl | ⟨segment, hsegment, hc⟩
  · decide
  · obtain ⟨hvisible, hother⟩ := initialSegments_plain hsegment c hc
    exact ⟨hvisible, fun hmem => hother (.tail _ hmem)⟩

/-- **The first URL is tidy**, whatever the payload. -/
theorem tidy_initial : Tidy net (buildInitialUrl settings payload) := by
  intro parsed hparsed
  rw [buildInitialUrl_eq, Url.urlsplit_https approvedInitialHost_plain initialPath_plain,
    Option.mem_ite_none_right, Option.mem_some_iff] at hparsed
  obtain ⟨-, rfl⟩ := hparsed
  have hhost : hostOf net ⟨"https".toList, approvedInitialHost,
      List.intercalate ['/'] (initialSegments payload), [], []⟩ = approvedInitialHost := by
    rw [hostOf, Url.hostname_of_plain approvedInitialHost_plain]
    show rstripDots (net.lower (net.lower approvedInitialHost)) = _
    rw [lower_approvedInitialHost, lower_approvedInitialHost]
    decide
  have hpath : pathOf ⟨"https".toList, approvedInitialHost,
      List.intercalate ['/'] (initialSegments payload), [], []⟩ =
        List.intercalate ['/'] (initialSegments payload) := if_neg (List.cons_ne_nil _ _)
  have hslash : ∀ segment ∈ initialSegments payload, '/' ∉ segment :=
    fun segment hsegment hslash => (initialSegments_plain hsegment '/' hslash).2 (.head _)
  rw [hhost, hpath, List.splitOn_intercalate '/' hslash (List.cons_ne_nil _ _)]
  exact ⟨fun hblob => absurd hblob (by decide), fun segment => initialSegments_not_mixed⟩

/-! ### The stream -/

theorem rawChunks_initial (readings : List ℚ) (readable : Bytes) :
    (rawChunks settings readings readable).flatten <+: readable := by
  induction readings generalizing readable with
  | nil => exact List.nil_prefix
  | cons elapsed later ih =>
    rw [rawChunks]
    split_ifs
    · exact List.nil_prefix
    · exact List.nil_prefix
    · rw [List.flatten_cons]
      conv_rhs => rw [← List.take_append_drop (readSize settings) readable]
      exact (List.prefix_append_right_inj _).2 (ih _)

/-- Read in time and often enough, the stream yields everything. -/
theorem rawChunks_all {n : ℕ} {readable : Bytes} (h : readable.length ≤ n) :
    (rawChunks settings (List.replicate n (settings.totalTimeout : ℚ)) readable).flatten =
      readable := by
  induction n generalizing readable with
  | zero =>
    obtain rfl := List.length_eq_zero_iff.1 (Nat.le_zero.1 h)
    rfl
  | succ n ih =>
    have hsize : 0 < readSize settings := lt_min (by decide) (Nat.succ_pos _)
    rw [List.replicate_succ, rawChunks, if_neg (lt_irrefl _)]
    split_ifs with hempty
    · rcases List.take_eq_nil_iff.1 hempty with hzero | hnil
      · omega
      · exact hnil.symm
    · rw [List.flatten_cons, ih (by rw [List.length_drop]; omega), List.take_append_drop]

/-- **The stream stays below the limit iff what can be read of the body does.** -/
theorem bounded_iff {readable : Bytes} :
    (∀ readings, (rawChunks settings readings readable).flatten.length ≤ settings.maxBytes) ↔
      readable.length ≤ settings.maxBytes := by
  constructor
  · intro h
    have hall := h (List.replicate readable.length (settings.totalTimeout : ℚ))
    rwa [rawChunks_all le_rfl] at hall
  · exact fun h readings => (rawChunks_initial readings readable).length_le.trans h

theorem checkDeclared_ok {declared : Text} (h : checkDeclared net settings reply = .ok ())
    (hdeclared : reply.getheader net "content-length".toList = some declared)
    (hne : declared ≠ []) :
    ∃ size, net.parseInt declared = some size ∧ ¬ (size < 0 ∨ size > settings.maxBytes) := by
  rw [checkDeclared, hdeclared, Option.filter_some_pos (by rwa [decide_eq_true_iff])] at h
  simp only [bind_eq_ok, orRaise_eq_ok, require_eq_ok] at h
  exact h

/-- A declared length that is let pass is the one that bounds the reading. -/
theorem length_le_of_checked {n : ℕ} (hcheck : checkDeclared net settings reply = .ok ())
    (hlength : reply.length net = some n) : n ≤ settings.maxBytes := by
  rw [Reply.length] at hlength
  split_ifs at hlength
  rw [Option.bind_eq_some_iff] at hlength
  obtain ⟨size, hsize, hn⟩ := hlength
  split_ifs at hn with hnegative
  obtain ⟨declared, hfirst, hparse⟩ := Option.bind_eq_some_iff.1 hsize
  obtain ⟨hhead, hne⟩ := Option.filter_eq_some_iff.1 hfirst
  rcases hvalues : reply.values net "content-length".toList with - | ⟨value, values⟩
  · rw [hvalues] at hhead
    cases hhead
  · rw [hvalues] at hhead
    obtain rfl := Option.some.inj hhead
    have hheader : reply.getheader net "content-length".toList =
        some (List.intercalate ", ".toList (value :: values)) := by
      rw [Reply.getheader, hvalues, if_neg (List.cons_ne_nil _ _)]
    rcases values with - | ⟨second, values⟩
    · rw [List.intercalate_singleton] at hheader
      obtain ⟨other, hother, hsmall⟩ := checkDeclared_ok hcheck hheader (of_decide_eq_true hne)
      obtain rfl := Option.some.inj (hparse.symm.trans hother)
      have := Option.some.inj hn
      omega
    · -- a second header puts a comma into what is parsed
      rw [List.intercalate_cons_cons] at hheader
      have hcomma : ',' ∈ value ++ ", ".toList ++ List.intercalate ", ".toList (second :: values) :=
        List.mem_append_left _ (List.mem_append_right _ (by decide))
      obtain ⟨other, hother, -⟩ := checkDeclared_ok hcheck hheader (List.ne_nil_of_mem hcomma)
      rw [net.parseInt_comma _ hcomma] at hother
      cases hother

theorem readable_iff (hcheck : checkDeclared net settings reply = .ok ()) :
    (reply.readable net).length ≤ settings.maxBytes ↔
      (reply.length net = none → reply.body.length ≤ settings.maxBytes) := by
  rw [Reply.readable]
  rcases hlength : reply.length net with - | n
  · exact ⟨fun h _ => h, fun h => h rfl⟩
  · refine iff_of_true ?_ nofun
    exact (List.length_take_le _ _).trans (length_le_of_checked hcheck hlength)

/-! ### The chain -/

theorem followed_ok {nextUrl : Text}
    (h : followed net settings redirects connection reply = .ok nextUrl) :
    redirects < settings.maxRedirects := by
  simp only [followed, bind_eq_ok, require_eq_ok] at h
  obtain ⟨⟨⟩, -, ⟨⟩, hlimit, -⟩ := h
  exact not_le.1 hlimit

/-- A turn ends with an error, with the stream, or with the next URL. -/
theorem answer_cases (net : Net) (settings : Settings) (redirects : ℕ) (connection : Connection)
    (reply : Reply) :
    (∃ e, answer net settings redirects connection reply = .error e ∧
      ¬ (reply.status = 200 ∧ checkDeclared net settings reply = .ok ()) ∧
      ∀ nextUrl, reply.status ∈ redirectStatuses →
        followed net settings redirects connection reply ≠ .ok nextUrl) ∨
    (∃ contentType, answer net settings redirects connection reply =
        .ok (.done ⟨reply.readable net, redirects, contentType⟩) ∧
      reply.status = 200 ∧ checkDeclared net settings reply = .ok ()) ∨
    (∃ nextUrl, answer net settings redirects connection reply = .ok (.next nextUrl) ∧
      reply.status ∈ redirectStatuses ∧
      followed net settings redirects connection reply = .ok nextUrl) := by
  rw [answer]
  by_cases hredirect : reply.status ∈ redirectStatuses
  · have hnot : reply.status ≠ 200 := by
      intro h
      rw [h] at hredirect
      exact absurd hredirect (by decide)
    rw [if_pos hredirect]
    rcases hfollowed : followed net settings redirects connection reply with e | nextUrl
    · exact .inl ⟨e, rfl, fun h => hnot h.1, fun _ _ => nofun⟩
    · exact .inr (.inr ⟨nextUrl, rfl, hredirect, rfl⟩)
  · rw [if_neg hredirect]
    by_cases hstatus : reply.status = 200
    · rw [if_neg (not_not.2 hstatus)]
      rcases hcheck : checkDeclared net settings reply with e | ⟨⟩
      · refine .inl ⟨e, rfl, ?_, fun _ h => absurd h hredirect⟩
        rintro ⟨-, hok⟩
        cases hok
      · exact .inr (.inl ⟨_, rfl, hstatus, rfl⟩)
    · rw [if_pos hstatus]
      exact .inl ⟨_, rfl, fun h => hstatus h.1, fun _ h => absurd h hredirect⟩

/-- What a download keeps of the policy if it is orderly, and loses otherwise. -/
structure Kept (net : Net) (settings : Settings)
    (outcome : List Connection × Option (Attempt Stream)) : Prop where
  allowed : ∀ connection ∈ outcome.1, Allowed net connection
  bounded : ∀ stream, outcome.2 = some (.ok stream) →
    ∀ readings, (rawChunks settings readings stream.readable).flatten.length ≤ settings.maxBytes

theorem kept_failed {e : Failure} :
    Kept net settings ([connection], some (.error e)) ↔ Allowed net connection :=
  ⟨fun h => h.allowed connection (.head _),
    fun h => ⟨List.forall_mem_singleton.2 h, nofun⟩⟩

theorem kept_done {stream : Stream} : Kept net settings ([connection], some (.ok stream)) ↔
    Allowed net connection ∧ stream.readable.length ≤ settings.maxBytes := by
  refine ⟨fun h => ⟨h.allowed connection (.head _), bounded_iff.1 (h.bounded _ rfl)⟩,
    fun h => ⟨List.forall_mem_singleton.2 h.1, fun other hother => ?_⟩⟩
  obtain rfl := Except.ok.inj (Option.some.inj hother)
  exact bounded_iff.2 h.2

theorem kept_next {outcome : List Connection × Option (Attempt Stream)} :
    Kept net settings (connection :: outcome.1, outcome.2) ↔
      Allowed net connection ∧ Kept net settings outcome :=
  ⟨fun h => ⟨h.allowed connection (.head _),
      fun other hother => h.allowed other (.tail _ hother), h.bounded⟩,
    fun h => ⟨List.forall_mem_cons.2 ⟨h.1, h.2.allowed⟩, h.2.bounded⟩⟩

variable {exchanges : List Exchange}

theorem orderly_cons (h : connect net settings redirects url exchange = .ok connection) :
    Orderly net settings redirects url (exchange :: exchanges) ↔
      (redirects = 0 ∨ Tidy net url) ∧ ∀ reply, exchange.reply = .ok reply →
        (reply.status = 200 → checkDeclared net settings reply = .ok () →
          reply.length net = none → reply.body.length ≤ settings.maxBytes) ∧
        (reply.status ∈ redirectStatuses → ∀ nextUrl,
          followed net settings redirects connection reply = .ok nextUrl →
            Orderly net settings (redirects + 1) nextUrl exchanges) := by
  rw [Orderly]
  refine ⟨fun horderly => horderly connection h, fun horderly other hother => ?_⟩
  obtain rfl := Except.ok.inj (h.symm.trans hother)
  exact horderly

/-- **Along a chain that begins with a tidy URL, the policy is kept iff the answers are
orderly.** -/
theorem keptAll_iff (hinitial : redirects = 0 → Tidy net url) :
    Kept net settings (download net settings redirects url exchanges) ↔
      Orderly net settings redirects url exchanges := by
  induction exchanges generalizing redirects url with
  | nil => exact iff_of_true ⟨nofun, nofun⟩ trivial
  | cons exchange exchanges ih =>
    rcases hconnect : connect net settings redirects url exchange with e | connection
    · rw [download, hconnect, Orderly, hconnect]
      exact iff_of_true ⟨nofun, nofun⟩ nofun
    · have htidy : (redirects = 0 ∨ Tidy net url) ↔ Allowed net connection := by
        rw [allowed_iff hconnect]
        exact ⟨fun h => h.elim hinitial id, .inr⟩
      rw [orderly_cons hconnect, htidy, download, hconnect]
      dsimp only
      rcases hreply : exchange.reply with trouble | reply
      · rw [kept_failed]
        exact (and_iff_left nofun).symm
      · dsimp only
        have hforall : ∀ P : Reply → Prop,
            (∀ other, Except.ok reply = (.ok other : Except Trouble Reply) → P other) ↔ P reply :=
          fun P => ⟨fun h => h reply rfl, fun h other hother => Except.ok.inj hother ▸ h⟩
        rw [hforall]
        rcases answer_cases net settings redirects connection reply with
          ⟨e, hanswer, hnot, hnext⟩ | ⟨contentType, hanswer, hstatus, hcheck⟩ |
            ⟨nextUrl, hanswer, hstatus, hfollowed⟩
        · rw [hanswer, kept_failed]
          exact (and_iff_left ⟨fun hstatus hcheck => absurd ⟨hstatus, hcheck⟩ hnot,
            fun hstatus nextUrl hfollowed => absurd hfollowed (hnext nextUrl hstatus)⟩).symm
        · have hredirect : reply.status ∉ redirectStatuses := by
            rw [hstatus]
            decide
          rw [hanswer, kept_done, readable_iff hcheck]
          exact and_congr_right fun _ => ⟨fun h => ⟨fun _ _ => h, fun h => absurd h hredirect⟩,
            fun h => h.1 hstatus hcheck⟩
        · have hnot : reply.status ≠ 200 := by
            intro h
            rw [h] at hstatus
            exact absurd hstatus (by decide)
          rw [hanswer, kept_next, ih fun h => absurd h (Nat.succ_ne_zero _)]
          refine and_congr_right fun _ => ⟨fun h => ⟨fun h => absurd h hnot,
            fun _ other hother => ?_⟩, fun h => h.2 hstatus nextUrl hfollowed⟩
          obtain rfl := Except.ok.inj (hfollowed.symm.trans hother)
          exact h

/-- The count of redirects stays below the limit, whatever the servers answer. -/
theorem download_counted (net : Net) (url : Text) (exchanges : List Exchange)
    (h : redirects ≤ settings.maxRedirects) :
    redirects + (download net settings redirects url exchanges).1.length ≤
        settings.maxRedirects + 1 ∧
      ∀ stream, (download net settings redirects url exchanges).2 = some (.ok stream) →
        stream.redirectCount ≤ settings.maxRedirects := by
  induction exchanges generalizing redirects url with
  | nil => exact ⟨Nat.le_succ_of_le h, nofun⟩
  | cons exchange exchanges ih =>
    rw [download]
    rcases hconnect : connect net settings redirects url exchange with e | connection
    · exact ⟨Nat.le_succ_of_le h, nofun⟩
    · dsimp only
      rcases hreply : exchange.reply with trouble | reply
      · exact ⟨Nat.succ_le_succ h, nofun⟩
      · dsimp only
        rcases answer_cases net settings redirects connection reply with
          ⟨e, hanswer, -, -⟩ | ⟨contentType, hanswer, -, -⟩ |
            ⟨nextUrl, hanswer, -, hfollowed⟩
        · rw [hanswer]
          exact ⟨Nat.succ_le_succ h, nofun⟩
        · rw [hanswer]
          refine ⟨Nat.succ_le_succ h, fun stream hstream => ?_⟩
          obtain rfl := Except.ok.inj (Option.some.inj hstream)
          exact h
        · rw [hanswer]
          obtain ⟨hlength, hcount⟩ := @ih (redirects + 1) nextUrl (followed_ok hfollowed)
          refine ⟨?_, hcount⟩
          rw [List.length_cons]
          omega

/-- The gateway keeps its policy exactly when no redirect leads to a host with several
labels or none before the blob suffix, or to a path that mixes plain and encoded dots, and
no body without a declared length is longer than the limit. -/
theorem download_safe_iff (net : Net) (settings : Settings) (payload : Payload)
    (exchanges : List Exchange) :
    Safe net settings (download net settings 0 (buildInitialUrl settings payload) exchanges) ↔
      Orderly net settings 0 (buildInitialUrl settings payload) exchanges := by
  obtain ⟨hlength, hcount⟩ := download_counted net (buildInitialUrl settings payload) exchanges
    (Nat.zero_le settings.maxRedirects)
  rw [← keptAll_iff fun _ => tidy_initial]
  refine ⟨fun h => ⟨h.allowed, h.bounded⟩, fun h => ⟨h.allowed, ?_, hcount, h.bounded⟩⟩
  rwa [Nat.zero_add] at hlength

end

/-! ### Three chains that leave the policy -/

/-- A library for texts in ASCII, and one public address. -/
def sampleNet : Net where
  conv :=
    { lower := List.map Char.toLower
      lower_ascii := fun _ _ => rfl
      bracketed := fun _ => true
      normal := fun _ => true }
  upper := List.map Char.toUpper
  parseInt := fun text =>
    if ',' ∈ text ∨ text = [] ∨ ¬ text.all Char.isDigit then none
    else some (Nat.ofDigitChars 10 text 0)
  parseInt_comma := fun _ h => if_pos (.inl h)
  ipAddress := fun text =>
    if text = "20.60.1.1".toList then some ⟨true, false, false, false, false, false, false⟩
    else none
  sendable := fun _ _ => true

/-- The defaults of the environment, with a limit that is set. -/
def sampleSettings (maxBytes : ℕ) : Settings where
  initialHost := approvedInitialHost
  pathPrefix := approvedInitialPathPrefix
  redirectSuffixes := [blobSuffix]
  totalTimeout := 180
  maxRedirects := 5
  maxBytes := maxBytes
  host_approved := rfl
  prefix_approved := rfl
  suffixes_approved := fun _ h => h
  redirects_capped := le_rfl

theorem samplePayload_valid : IsPdbName "ntkrnlmp.pdb".toList ∧
    IsGuid "0123456789ABCDEF0123456789ABCDEF".toList ∧ IsAge 1 := by decide +kernel

def samplePayload : Payload where
  pdbName := "ntkrnlmp.pdb".toList
  guid := "0123456789ABCDEF0123456789ABCDEF".toList
  age := 1
  name_valid := samplePayload_valid.1
  guid_valid := samplePayload_valid.2.1
  age_valid := samplePayload_valid.2.2

/-- A redirect to some URL, and a server there that has nothing to say. -/
def redirectTo (location : Text) : List Exchange :=
  [⟨0, some ["20.60.1.1".toList], .ok ⟨302, [("Location".toList, location)], []⟩⟩,
    ⟨1, some ["20.60.1.1".toList], .ok ⟨404, [], []⟩⟩]

def sampleDownload (maxBytes : ℕ) (exchanges : List Exchange) :
    List Connection × Option (Attempt Stream) :=
  download sampleNet (sampleSettings maxBytes) 0
    (buildInitialUrl (sampleSettings maxBytes) samplePayload) exchanges

/-- The connection that a redirect leads to. -/
def blobConnection (host path : Text) : Connection :=
  ⟨"https".toList, host, "20.60.1.1".toList, 443, path, []⟩

/-- A body of no declared length. -/
def plainReply (body : Bytes) : Exchange :=
  ⟨0, some ["20.60.1.1".toList], .ok ⟨200, [], body⟩⟩

theorem gateway_leaves_policy :
    ¬ Safe sampleNet (sampleSettings 1073741824) (sampleDownload 1073741824
        (redirectTo "https://a.b.blob.core.windows.net/x.pdb".toList)) ∧
      ¬ Safe sampleNet (sampleSettings 1073741824) (sampleDownload 1073741824
        (redirectTo "https://a.blob.core.windows.net/.%2e/x.pdb".toList)) ∧
      ¬ Safe sampleNet (sampleSettings 4) (sampleDownload 4 [plainReply [1, 2, 3, 4, 5]]) := by
  refine ⟨fun h => ?_, fun h => ?_, fun h => ?_⟩
  · have hmem : blobConnection "a.b.blob.core.windows.net".toList "/x.pdb".toList ∈
        (sampleDownload 1073741824
          (redirectTo "https://a.b.blob.core.windows.net/x.pdb".toList)).1 := by
      decide +kernel
    rcases (h.allowed _ hmem).host with hinitial | ⟨label, -, hdots, heq⟩
    · exact absurd hinitial (by decide)
    · have hlabel : "a.b".toList = label := List.append_cancel_right
        (show "a.b".toList ++ blobSuffix = label ++ blobSuffix from heq)
      exact absurd (hdots '.' (by rw [← hlabel]; decide)) (by decide)
  · have hmem : blobConnection "a.blob.core.windows.net".toList "/.%2e/x.pdb".toList ∈
        (sampleDownload 1073741824
          (redirectTo "https://a.blob.core.windows.net/.%2e/x.pdb".toList)).1 := by
      decide +kernel
    exact (h.allowed _ hmem).path ".%2e".toList (by decide +kernel)
      ⟨".".toList, by decide, "%2e".toList, by decide, rfl⟩
  · have hstream : (sampleDownload 4 [plainReply [1, 2, 3, 4, 5]]).2.bind Except.toOption =
        some ⟨[1, 2, 3, 4, 5], 0, none⟩ := by decide +kernel
    obtain ⟨ended, hended, hok⟩ := Option.bind_eq_some_iff.1 hstream
    rcases ended with e | stream
    · cases hok
    · obtain rfl := Option.some.inj hok
      exact absurd (bounded_iff.1 (h.bounded _ hended)) (by decide)

end Kairon.Gateway
