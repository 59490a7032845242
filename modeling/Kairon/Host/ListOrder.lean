/-
Kairon/Host/ListOrder.lean

When the host of an evidence does not depend on the order of its candidates.

The tables of a case come with what the database checks (`CaseTables`).  A candidate is a
hostname (`hostname_of_mem`), so that a name without a host makes one without an error
(`createManualCaseHost_new`).  With that the first host is the host of the first candidate
where hosts are made, and that of the first known candidate elsewhere (`firstHost_known`,
`firstHost_make`); behind it, only the number of the candidates counts.
-/
import Kairon.Host.Resolution
import Kairon.Lib.Postings

namespace Kairon.Identity

open Search (Text strip strip_sublist isSpace)
open Txn

/-! ### Hostnames -/

def IsNameChar (c : Char) : Prop := c.isAlphanum = true ∨ c ∈ ['_', '-', '.']

/-- What the checks of a hostname leave. -/
structure Hostname (name : Text) : Prop where
  ne_nil : name ≠ []
  length : name.length ≤ 255
  valid : isInvalidHostValue name = false
  chars : ∀ c ∈ name, IsNameChar c

theorem chars_of_labels {name : Text} (h : ∀ label ∈ name.splitOn '.', isHostLabel label = true) :
    ∀ c ∈ name, IsNameChar c := by
  intro c hc
  have hname : List.intercalate ['.'] (name.splitOn '.') = name := List.intercalate_splitOn '.'
  rw [← hname] at hc
  rcases Search.mem_intercalate hc with rfl | ⟨label, hlabel, hc⟩
  · exact .inr (by decide)
  · have hmatch := h label hlabel
    rcases label with - | ⟨first, rest⟩
    · cases hc
    · rw [isHostLabel, Bool.and_eq_true, Bool.and_eq_true, List.all_eq_true] at hmatch
      obtain ⟨⟨hfirst, _⟩, hrest⟩ := hmatch
      rcases List.mem_cons.1 hc with rfl | hc
      · exact .inl hfirst
      · have hd := hrest c hc
        simp only [Bool.or_eq_true, decide_eq_true_eq] at hd
        rcases hd with (hd | rfl) | rfl
        · exact .inl hd
        · exact .inr (by decide)
        · exact .inr (by decide)

theorem hostname_of_normalize {value name : Text} (h : normalizeHostname value = some name) :
    Hostname name := by
  rw [normalizeHostname] at h
  dsimp only at h
  generalize rstripChar '.' (stripChar quote (stripChar '"' (strip value))) = text at h
  generalize ['.'].intercalate ((text.splitOn '.').filter fun part => part ≠ []) = joined at h
  split_ifs at h with _ _ _ hlong hlabels hnil
  obtain rfl := Option.some.inj h
  rw [not_or, not_lt, Bool.not_eq_true] at hlong
  refine ⟨hnil, hlong.1, hlong.2, chars_of_labels fun label hlabel => ?_⟩
  rw [List.any_eq_true, not_exists] at hlabels
  have hmatch := hlabels label
  rw [not_and, Bool.not_eq_true, Bool.not_eq_false'] at hmatch
  exact hmatch hlabel

theorem hostname_of_mem {values : List Text} {name : Text} (h : name ∈ hostnameCandidates values) :
    Hostname name := by
  rw [hostnameCandidates, List.mem_eraseDups] at h
  obtain ⟨_, _, hname⟩ := List.mem_filterMap.1 h
  exact hostname_of_normalize hname

theorem IsNameChar.bounds {c : Char} (h : IsNameChar c) : 45 ≤ c.toNat ∧ c.toNat ≤ 122 := by
  rcases h with h | h
  · simp only [Char.isAlphanum, Char.isAlpha, Char.isUpper, Char.isLower, Char.isDigit,
      Bool.or_eq_true, Bool.and_eq_true, decide_eq_true_eq, ge_iff_le,
      UInt32.le_iff_toNat_le] at h
    change ((65 ≤ c.toNat ∧ c.toNat ≤ 90) ∨ 97 ≤ c.toNat ∧ c.toNat ≤ 122) ∨
      48 ≤ c.toNat ∧ c.toNat ≤ 57 at h
    omega
  · simp only [List.mem_cons, List.not_mem_nil, or_false] at h
    rcases h with rfl | rfl | rfl <;> decide

theorem IsNameChar.not_isSpace {c : Char} (h : IsNameChar c) : isSpace c = false := by
  have hbounds := h.bounds
  rw [Bool.eq_false_iff]
  simp only [isSpace, ne_eq, Bool.or_eq_true, Bool.and_eq_true, decide_eq_true_eq,
    List.mem_cons, List.not_mem_nil, or_false]
  omega

theorem IsNameChar.toLower_ne {c : Char} (h : IsNameChar c) : c.toLower ≠ Char.ofNat 0 := by
  intro hlower
  have hbounds := h.bounds
  have hnat : c.toLower.toNat = 0 := by rw [hlower]; rfl
  have hge : c.toNat ≤ c.toLower.toNat := by
    rw [Char.toLower]
    split
    · rename_i hupper
      have hval : (c.val + ('a'.val - 'A'.val)).toNat = c.toNat + 32 := by
        rw [UInt32.toNat_add]
        change (c.toNat + 32) % 2 ^ 32 = c.toNat + 32
        omega
      exact (Nat.le_add_right _ 32).trans hval.ge
    · exact le_rfl
  omega

theorem rstripChar_sublist (c : Char) (s : Text) : (rstripChar c s).Sublist s := by
  have hsub := List.reverse_sublist.2 (List.dropWhile_sublist (· == c) (l := s.reverse))
  rwa [List.reverse_reverse] at hsub

theorem stripChar_sublist (c : Char) (s : Text) : (stripChar c s).Sublist s :=
  (rstripChar_sublist c _).trans (List.dropWhile_sublist _)

namespace Hostname

variable {name : Text}

theorem strip_eq (h : Hostname name) : strip name = name := by
  have hnone : ∀ l : Text, (∀ c ∈ l, IsNameChar c) → l.dropWhile isSpace = l := by
    intro l hl
    rw [List.dropWhile_eq_self_iff]
    exact fun hpos => by rw [(hl _ (List.getElem_mem hpos)).not_isSpace]; exact Bool.false_ne_true
  rw [strip, hnone name h.chars, hnone, List.reverse_reverse]
  exact fun c hc => h.chars c (List.mem_reverse.1 hc)

/-- The name it is looked up by. -/
theorem normalized (h : Hostname name) : ∃ normalized,
    normalizeHostAlias lowerName name = some normalized ∧ normalized ∉ invalidHostValues := by
  have hvalid := h.valid
  rw [isInvalidHostValue] at hvalid
  rcases hname : normalizeHostAlias lowerName name with - | normalized
  · rw [hname] at hvalid
    exact absurd hvalid Bool.noConfusion
  · rw [hname] at hvalid
    exact ⟨normalized, rfl, of_decide_eq_false hvalid⟩

theorem storable (h : Hostname name) : Storable name :=
  ⟨h.length, fun hmem => absurd (h.chars _ hmem).bounds.1 (by decide)⟩

theorem storable_normalized (h : Hostname name) {normalized : Text}
    (hname : normalizeHostAlias lowerName name = some normalized) : Storable normalized := by
  rw [normalizeHostAlias] at hname
  split_ifs at hname with hnil
  obtain rfl := Option.some.inj hname
  have hsub : (rstripChar '.' (stripChar quote (stripChar '"' (strip name)))).Sublist name :=
    (rstripChar_sublist _ _).trans ((stripChar_sublist _ _).trans
      ((stripChar_sublist _ _).trans (strip_sublist name)))
  refine ⟨?_, fun hmem => ?_⟩
  · rw [lowerName, List.length_map]
    exact hsub.length_le.trans h.length
  · rw [lowerName] at hmem
    obtain ⟨c, hc, hlower⟩ := List.mem_map.1 hmem
    exact (h.chars c (hsub.subset hc)).toLower_ne hlower

theorem manualName_eq (h : Hostname name) {normalized : Text}
    (hname : normalizeHostAlias lowerName name = some normalized) :
    manualName lowerName Char.isAlphanum name = .ok (name, normalized) := by
  obtain ⟨other, hother, hvalid⟩ := h.normalized
  obtain rfl := Option.some.inj (hname.symm.trans hother)
  have hchars : name.all (fun c => c.isAlphanum || c ∈ ['-', '_', '.']) = true := by
    refine List.all_eq_true.2 fun c hc => ?_
    rw [Bool.or_eq_true, decide_eq_true_eq]
    refine (h.chars c hc).imp_right fun hmem => ?_
    exact (List.Perm.mem_iff (by decide)).1 hmem
  rw [manualName, h.strip_eq, hname]
  simp only [hvalid, not_lt.2 h.length, hchars, not_true_eq_false, if_false]

end Hostname

/-! ### The tables of a case -/

/-- The tables with the constraints of the database; new ids are free. -/
structure CaseTables where
  tables : Directory
  hostIds : (tables.hosts.map CaseHost.id).Nodup
  canonicalNames : (tables.hosts.map CaseHost.canonicalName).Nodup
  aliasNames : (tables.aliases.map CaseHostAlias.normalizedAlias).Nodup
  owned : ∀ a ∈ tables.aliases, ∃ h ∈ tables.hosts, h.id = a.caseHostId
  storedHosts : ∀ h ∈ tables.hosts, h.Stored
  storedAliases : ∀ a ∈ tables.aliases, a.Stored
  fresh : ∀ h ∈ tables.hosts, h.id < tables.nextId

variable (s : CaseTables) {name normalized : Text}

theorem CaseTables.names_free (hname : normalizeHostAlias lowerName name = some normalized)
    (hnone : findHostByName s.tables name = none) :
    (s.tables.hosts.find? fun h => h.canonicalName = normalized) = none ∧
      s.tables.aliasNamed normalized = none := by
  rw [findHostByName, hname] at hnone
  dsimp only at hnone
  rcases hhost : s.tables.hosts.find? fun h => h.canonicalName = normalized with - | host
  · rw [hhost] at hnone
    refine ⟨hhost, ?_⟩
    rcases halias : s.tables.aliasNamed normalized with - | a
    · rfl
    · rw [halias] at hnone
      obtain ⟨hmem, _⟩ := aliasNamed_some halias
      exact absurd (s.owned a hmem) (host?_eq_none.1 hnone)
  · rw [hhost] at hnone
    exact absurd hnone nofun

/-- The tables with a new host and its alias. -/
def CaseTables.withHost (name normalized : Text) : Directory :=
  (s.tables.addHost normalized name).2.addAlias s.tables.nextId name normalized true

/-- A name without a host makes one. -/
theorem CaseTables.getOrCreateHost_new (h : Hostname name)
    (hname : normalizeHostAlias lowerName name = some normalized)
    (hnone : findHostByName s.tables name = none) :
    getOrCreateHost name s.tables =
      (.ok (⟨s.tables.nextId, normalized, name⟩, true), s.withHost name normalized) := by
  obtain ⟨hhosts, halias⟩ := s.names_free hname hnone
  have hstored : Storable normalized ∧ Storable name :=
    ⟨h.storable_normalized hname, h.storable⟩
  have hhostsStored : ∀ x ∈ (s.tables.addHost normalized name).2.hosts, x.Stored := by
    intro x hx
    rcases List.mem_append.1 hx with hx | hx
    · exact s.storedHosts x hx
    · rw [List.mem_singleton.1 hx]
      exact hstored
  have hcanonical : ((s.tables.addHost normalized name).2.hosts.map
      CaseHost.canonicalName).Nodup := by
    show (List.map _ (s.tables.hosts ++ [_])).Nodup
    rw [List.map_append, List.map_singleton, List.nodup_append_comm, List.singleton_append,
      List.nodup_cons]
    refine ⟨fun hmem => ?_, s.canonicalNames⟩
    obtain ⟨x, hx, hx'⟩ := List.mem_map.1 hmem
    exact List.find?_eq_none.1 hhosts x hx (decide_eq_true hx')
  have hfirst : flush (s.tables.addHost normalized name).2 =
      (.ok (), (s.tables.addHost normalized name).2) :=
    flush_ok hhostsStored s.storedAliases hcanonical s.aliasNames
  have hsecond : flush (s.withHost name normalized) = (.ok (), s.withHost name normalized) := by
    refine flush_ok hhostsStored (fun a ha => ?_) hcanonical ?_
    · rcases List.mem_append.1 ha with ha | ha
      · exact s.storedAliases a ha
      · rw [List.mem_singleton.1 ha]
        exact ⟨hstored.2, hstored.1⟩
    · show (List.map _ (s.tables.aliases ++ [_])).Nodup
      rw [List.map_append, List.map_singleton, List.nodup_append_comm, List.singleton_append,
        List.nodup_cons]
      refine ⟨fun hmem => ?_, s.aliasNames⟩
      obtain ⟨a, ha, ha'⟩ := List.mem_map.1 hmem
      exact aliasNamed_eq_none.1 halias a ha ha'
  have hcreate : createManualCaseHost lowerName Char.isAlphanum name s.tables =
      (.ok (s.tables.nextId, true), s.withHost name normalized) := by
    refine atomically_ok ?_
    dsimp only
    rw [h.manualName_eq hname]
    dsimp only
    rw [halias, hhosts]
    exact (andThen_ok hfirst).trans (andThen_ok hsecond)
  have hget : (s.withHost name normalized).host? s.tables.nextId =
      some ⟨s.tables.nextId, normalized, name⟩ := by
    have hold : s.tables.hosts.find? (fun h => h.id = s.tables.nextId) = none := by
      rw [List.find?_eq_none]
      intro x hx hid
      exact absurd (of_decide_eq_true hid) (s.fresh x hx).ne
    show (s.tables.hosts ++ [_]).find? _ = _
    rw [List.find?_append, hold, Option.none_or]
    exact List.find?_cons_of_pos (decide_eq_true rfl)
  rw [getOrCreateHost, hnone]
  dsimp only
  rw [hcreate]
  dsimp only
  rw [hget]

theorem CaseTables.getOrCreateHost_known {host : CaseHost}
    (h : findHostByName s.tables name = some host) :
    getOrCreateHost name s.tables = (.ok (host, false), s.tables) := by
  rw [getOrCreateHost, h]

/-! ### The verdict -/

/-- The error code that a caller sees; an error without one has none. -/
def Refusal.code : Refusal → Option String
  | .structured code _ _ => some code
  | .badRequest _ => none
  | .database _ => none

/-- The outcome and the host, by its name in the case, or the error code. -/
abbrev Verdict := Except (Option String) (Outcome × Option Text)

def verdictOf : Except Refusal HostResolution → Verdict
  | .ok resolution => .ok (resolution.outcome, resolution.host.map CaseHost.canonicalName)
  | .error refusal => .error refusal.code

/-- A call with candidates alone. -/
def onlyCandidates (evidenceType : Text) (allowCreate autoAssign : Bool)
    (requireHost : Option Bool) (names : List Text) : HostRequest :=
  { evidenceType := evidenceType
    hostnameCandidates := names
    allowCreate := allowCreate
    autoAssign := autoAssign
    requireHost := requireHost }

def HostRequest.verdict (r : HostRequest) : Verdict := verdictOf (resolveHost r s.tables).1

/-- `Multiple plausible host candidates were found`. -/
def HostRequest.ambiguousVerdict (r : HostRequest) : Verdict :=
  if r.mustHaveHost then .error (some "HOST_AMBIGUOUS") else .ok (.ambiguous, none)

section Run

variable {r : HostRequest}

variable {allowCreate autoAssign : Bool} {requireHost : Option Bool}

theorem verdict_onlyCandidates {evidenceType : Text} {names : List Text}
    (hr : r = onlyCandidates evidenceType allowCreate autoAssign requireHost names) :
    r.verdict s = verdictOf (r.detect none s.tables).1 := by
  subst hr
  have hnil : normalizeHostname [] = none := rfl
  rw [HostRequest.verdict, resolveHost]
  dsimp only [onlyCandidates]
  rw [HostRequest.provide]
  dsimp only
  rw [hnil]
  rfl

/-- What the first candidate comes to where hosts are made. -/
def target (name : Text) : Verdict :=
  match findHostByName s.tables name with
  | some host => .ok (.resolved, some host.canonicalName)
  | none => .ok (.created, normalizeHostAlias lowerName name)

theorem verdict_make {others : List Text} (hcreate : r.canCreate = true)
    (hcandidates : r.candidates = name :: others) (h : Hostname name) :
    verdictOf (r.detect none s.tables).1 = target s name := by
  obtain ⟨normalized, hname, _⟩ := h.normalized
  rw [HostRequest.detect, hcandidates, hcreate, target]
  rcases hfind : findHostByName s.tables name with - | host
  · have hnamed := s.getOrCreateHost_new h hname hfind
    have hhost : hostNamed true name s.tables = (.ok (some (⟨s.tables.nextId, normalized, name⟩,
        true)), s.withHost name normalized) := by
      rw [hostNamed, if_pos rfl, andThen_ok hnamed]
    rw [firstHost, andThen, andThen_ok hhost, hname]
    rfl
  · have hhost : hostNamed true name s.tables = (.ok (some (host, false)), s.tables) := by
      rw [hostNamed, if_pos rfl, andThen_ok (s.getOrCreateHost_known hfind)]
    rw [firstHost, andThen, andThen_ok hhost]
    rfl

theorem firstHost_known (names : List Text) : ∃ found,
    firstHost false names s.tables = (.ok found, s.tables) ∧ (found.map fun f => (f.2.1, f.2.2)) =
        (names.findSome? (findHostByName s.tables)).map fun host => (host, false) := by
  induction names with
  | nil => exact ⟨none, rfl, rfl⟩
  | cons name names ih =>
    rcases hfind : findHostByName s.tables name with - | host
    · have hhost : hostNamed false name s.tables = (.ok none, s.tables) := by
        rw [hostNamed, if_neg Bool.false_ne_true, hfind, Option.map_none]
      rw [firstHost, andThen_ok hhost, List.findSome?_cons, hfind]
      exact ih
    · have hhost : hostNamed false name s.tables = (.ok (some (host, false)), s.tables) := by
        rw [hostNamed, if_neg Bool.false_ne_true, hfind, Option.map_some]
      refine ⟨some (name, host, false), ?_, ?_⟩
      · rw [firstHost, andThen_ok hhost]
      · rw [List.findSome?_cons, hfind]
        rfl

theorem verdict_known {host : CaseHost} (hcreate : r.canCreate = false)
    (hfind : r.candidates.findSome? (findHostByName s.tables) = some host) :
    verdictOf (r.detect none s.tables).1 = .ok (.resolved, some host.canonicalName) := by
  obtain ⟨found, hfirst, hfound⟩ := firstHost_known s r.candidates
  rw [hfind] at hfound
  rcases found with - | ⟨name, other, created⟩
  · exact absurd hfound nofun
  · obtain ⟨rfl, rfl⟩ := Prod.mk.inj (Option.some.inj hfound)
    rw [HostRequest.detect, hcreate, andThen_ok hfirst]
    rfl

theorem detect_unknown (h : r.canCreate = true → r.candidates = [])
    (hfind : r.candidates.findSome? (findHostByName s.tables) = none) :
    verdictOf (r.detect none s.tables).1 = verdictOf (r.assignAutomatically s.tables none) := by
  rcases hcreate : r.canCreate with - | -
  · obtain ⟨found, hfirst, hfound⟩ := firstHost_known s r.candidates
    rw [hfind] at hfound
    obtain rfl := Option.map_eq_none_iff.1 hfound
    rw [HostRequest.detect, hcreate, andThen_ok hfirst]
  · have hfirst : firstHost true r.candidates s.tables = (.ok none, s.tables) := by
      rw [h hcreate]
      rfl
    rw [HostRequest.detect, hcreate, andThen_ok hfirst]

/-- Behind the loop only the number of the candidates counts. -/
theorem assignAutomatically_verdict {evidenceType : Text} {names names' : List Text}
    {r' : HostRequest}
    (hr : r = onlyCandidates evidenceType allowCreate autoAssign requireHost names)
    (hr' : r' = onlyCandidates evidenceType allowCreate autoAssign requireHost names')
    (hlength : r.candidates.length = r'.candidates.length)
    (hfind : r.candidates.findSome? (findHostByName s.tables) = none)
    (hfind' : r'.candidates.findSome? (findHostByName s.tables) = none) :
    verdictOf (r.assignAutomatically s.tables none) =
      verdictOf (r'.assignAutomatically s.tables none) := by
  have hmust : r.mustHaveHost = r'.mustHaveHost := by rw [hr, hr']; rfl
  have hpolicy : r.policy = r'.policy := by rw [hr, hr']; rfl
  have hauto : r.autoAssign = r'.autoAssign := by rw [hr, hr']; rfl
  have hunassigned : verdictOf (r.unassigned none) = verdictOf (r'.unassigned none) := by
    rw [HostRequest.unassigned, HostRequest.unassigned, hmust]
    split_ifs <;> rfl
  have hambiguous : ∀ reason candidates candidates',
      verdictOf (r.ambiguous reason candidates) = verdictOf (r'.ambiguous reason candidates') := by
    intro reason candidates candidates'
    rw [HostRequest.ambiguous, HostRequest.ambiguous, hmust]
    split_ifs <;> rfl
  have hsingleton : verdictOf (r.caseSingleton s.tables none) =
      verdictOf (r'.caseSingleton s.tables none) := by
    rw [HostRequest.caseSingleton, HostRequest.caseSingleton, hpolicy]
    split_ifs
    · rcases s.tables.hosts with - | ⟨host, - | ⟨_, _⟩⟩
      · exact hunassigned
      · rfl
      · exact hambiguous _ _ _
    · exact hunassigned
  rw [HostRequest.assignAutomatically, HostRequest.assignAutomatically, hauto, hpolicy]
  split_ifs
  · rcases hmany : r.candidates with - | ⟨first, - | ⟨second, others⟩⟩
    · have hmany' : r'.candidates = [] := by
        rw [← List.length_eq_zero_iff, ← hlength, hmany]
        rfl
      rw [hmany']
      exact hsingleton
    · obtain ⟨first', hmany'⟩ := List.length_eq_one_iff.1 (hlength ▸ congrArg List.length hmany)
      rw [hmany, List.findSome?_singleton] at hfind
      rw [hmany', List.findSome?_singleton] at hfind'
      rw [hmany']
      dsimp only
      rw [hfind, hfind']
      exact hsingleton
    · rw [hmany, List.length_cons, List.length_cons] at hlength
      rcases hmany' : r'.candidates with - | ⟨first', - | ⟨second', others'⟩⟩
      · rw [hmany', List.length_nil] at hlength
        omega
      · rw [hmany', List.length_singleton] at hlength
        omega
      · exact hambiguous _ _ _
  · exact hunassigned

end Run

/-! ### The order of the candidates -/

section Order

variable {evidenceType : Text} {allowCreate autoAssign : Bool} {requireHost : Option Bool}

theorem mem_candidates {names : List Text} :
    name ∈ (onlyCandidates evidenceType allowCreate autoAssign requireHost names).candidates ↔
      (hostPolicyFor evidenceType).detectedHostnameAllowed = true ∧
        ∃ value ∈ names, normalizeHostname value = some name := by
  have hnil : normalizeHostname [] = none := rfl
  rw [HostRequest.candidates]
  show name ∈ (if (hostPolicyFor evidenceType).detectedHostnameAllowed then
    hostnameCandidates ([] :: names) else []) ↔ _
  split_ifs with hallowed
  · rw [hostnameCandidates, List.mem_eraseDups, List.filterMap_cons_none hnil,
      List.mem_filterMap, and_iff_right hallowed]
  · exact iff_of_false List.not_mem_nil fun h => hallowed h.1

theorem canCreate_onlyCandidates (names : List Text) :
    (onlyCandidates evidenceType allowCreate autoAssign requireHost names).canCreate =
      (allowCreate && (hostPolicyFor evidenceType).hostCreationAllowed) := rfl

theorem candidates_perm {names names' : List Text} (h : names'.Perm names) :
    (onlyCandidates evidenceType allowCreate autoAssign requireHost names').candidates.Perm
      (onlyCandidates evidenceType allowCreate autoAssign requireHost names).candidates := by
  have hnodup : ∀ names,
      (onlyCandidates evidenceType allowCreate autoAssign requireHost names).candidates.Nodup := by
    intro names
    rw [HostRequest.candidates]
    split_ifs
    · rw [hostnameCandidates]
      exact Postings.nodup_eraseDups _
    · exact List.nodup_nil
  rw [List.perm_ext_iff_of_nodup (hnodup _) (hnodup _)]
  intro name
  rw [mem_candidates, mem_candidates]
  simp only [h.mem_iff]

/-- Every candidate is the first of some order. -/
theorem exists_first {names : List Text} (h : name ∈
    (onlyCandidates evidenceType allowCreate autoAssign requireHost names).candidates) :
    ∃ names' others, names'.Perm names ∧
      (onlyCandidates evidenceType allowCreate autoAssign requireHost names').candidates =
        name :: others := by
  obtain ⟨hallowed, value, hvalue, hname⟩ := mem_candidates.1 h
  have hnil : normalizeHostname [] = none := rfl
  have hfirst : (if (hostPolicyFor evidenceType).detectedHostnameAllowed then
      hostnameCandidates ([] :: value :: names.erase value) else []) = name ::
        (((names.erase value).filterMap normalizeHostname).filter fun b => !b == name).eraseDups := by
    rw [if_pos hallowed, hostnameCandidates, List.filterMap_cons_none hnil,
      List.filterMap_cons_some hname, List.eraseDups_cons]
  exact ⟨value :: names.erase value, _, (List.perm_cons_erase hvalue).symm, hfirst⟩

end Order

theorem hostname_of_candidate {r : HostRequest} (h : name ∈ r.candidates) : Hostname name := by
  rw [HostRequest.candidates] at h
  split_ifs at h
  · exact hostname_of_mem h
  · cases h

variable {allowCreate autoAssign : Bool} {requireHost : Option Bool}

/-- A candidate with a host ends in some host. -/
theorem verdict_found {r : HostRequest} {evidenceType : Text} {names : List Text} {host : CaseHost}
    (hr : r = onlyCandidates evidenceType allowCreate autoAssign requireHost names)
    (hname : name ∈ r.candidates) (hfind : findHostByName s.tables name = some host) :
    ∃ outcome text, r.verdict s = .ok (outcome, some text) := by
  rw [verdict_onlyCandidates s hr]
  rcases hcreate : r.canCreate with - | -
  · have hsome : (r.candidates.findSome? (findHostByName s.tables)).isSome = true :=
      List.findSome?_isSome_iff.2 ⟨name, hname, by rw [hfind]; rfl⟩
    obtain ⟨first, hfirst⟩ := Option.isSome_iff_exists.1 hsome
    exact ⟨_, _, verdict_known s hcreate hfirst⟩
  · rcases hcandidates : r.candidates with - | ⟨first, others⟩
    · rw [hcandidates] at hname
      cases hname
    · have hfirst : Hostname first :=
        hostname_of_candidate (r := r) (by rw [hcandidates]; exact .head _)
      rw [verdict_make s hcreate hcandidates hfirst, target]
      obtain ⟨normalized, hnormalized, _⟩ := hfirst.normalized
      rcases findHostByName s.tables first with - | found
      · exact ⟨_, normalized, by rw [hnormalized]⟩
      · exact ⟨_, _, rfl⟩

/-- Evidence is not given to one of several hosts by list order. -/
structure OrderFree (evidenceType : Text) (allowCreate autoAssign : Bool)
    (requireHost : Option Bool) (names : List Text) : Prop where
  order : ∀ names', names'.Perm names →
    (onlyCandidates evidenceType allowCreate autoAssign requireHost names').verdict s =
      (onlyCandidates evidenceType allowCreate autoAssign requireHost names).verdict s
  ambiguous : ∀ r, r = onlyCandidates evidenceType allowCreate autoAssign requireHost names →
    ∀ a ∈ r.candidates, ∀ b ∈ r.candidates, ∀ host other,
      findHostByName s.tables a = some host → findHostByName s.tables b = some other →
        host ≠ other → r.verdict s = r.ambiguousVerdict

/-- No two candidates belong to different hosts; where hosts are made, all candidates
belong to a host or they are one name that belongs to none. -/
structure Agreeing (r : HostRequest) : Prop where
  sameHost : ∀ a ∈ r.candidates, ∀ b ∈ r.candidates, ∀ host other,
    findHostByName s.tables a = some host → findHostByName s.tables b = some other → host = other
  sameName : r.canCreate = true → ∀ a ∈ r.candidates, ∀ b ∈ r.candidates,
    ((findHostByName s.tables a).isSome = (findHostByName s.tables b).isSome) ∧
      (findHostByName s.tables a = none →
        normalizeHostAlias lowerName a = normalizeHostAlias lowerName b)

/-- Candidates that agree come to the same in every order. -/
theorem Agreeing.verdict_eq {evidenceType : Text} {names names' : List Text} {r r' : HostRequest}
    (hr : r = onlyCandidates evidenceType allowCreate autoAssign requireHost names)
    (hr' : r' = onlyCandidates evidenceType allowCreate autoAssign requireHost names')
    (h : Agreeing s r) (hperm : r'.candidates.Perm r.candidates) :
    r'.verdict s = r.verdict s := by
  have hmake : r'.canCreate = r.canCreate := by
    rw [hr, hr', canCreate_onlyCandidates, canCreate_onlyCandidates]
  rw [verdict_onlyCandidates s hr', verdict_onlyCandidates s hr]
  have hunknown (hnever : r.canCreate = true → r.candidates = [])
      (hfind : r.candidates.findSome? (findHostByName s.tables) = none) :
      verdictOf (r'.detect none s.tables).1 = verdictOf (r.detect none s.tables).1 := by
    have hfind' : r'.candidates.findSome? (findHostByName s.tables) = none := by
      rw [List.findSome?_eq_none_iff] at hfind ⊢
      exact fun name hname => hfind name (hperm.mem_iff.1 hname)
    have hnever' : r'.canCreate = true → r'.candidates = [] := by
      intro hcreate
      rw [hnever (hmake ▸ hcreate)] at hperm
      exact hperm.eq_nil
    rw [detect_unknown s hnever hfind, detect_unknown s hnever' hfind',
      assignAutomatically_verdict s hr' hr hperm.length_eq hfind' hfind]
  rcases hcreate : r.canCreate with - | -
  · rcases hfind : r.candidates.findSome? (findHostByName s.tables) with - | host
    · exact hunknown (fun hmade => absurd (hcreate.symm.trans hmade) Bool.false_ne_true) hfind
    · obtain ⟨a, ha, hhost⟩ := List.exists_of_findSome?_eq_some hfind
      have hsome : (r'.candidates.findSome? (findHostByName s.tables)).isSome = true :=
        List.findSome?_isSome_iff.2 ⟨a, hperm.mem_iff.2 ha, by rw [hhost]; rfl⟩
      obtain ⟨other, hfind'⟩ := Option.isSome_iff_exists.1 hsome
      obtain ⟨b, hb, hother⟩ := List.exists_of_findSome?_eq_some hfind'
      rw [verdict_known s hcreate hfind, verdict_known s (hmake.trans hcreate) hfind',
        h.sameHost a ha b (hperm.mem_iff.1 hb) host other hhost hother]
  · rcases hcandidates : r.candidates with - | ⟨a, others⟩
    · exact hunknown (fun _ => hcandidates) (by rw [hcandidates]; rfl)
    · rcases hcandidates' : r'.candidates with - | ⟨b, others'⟩
      · rw [hcandidates', hcandidates] at hperm
        exact absurd hperm.symm.eq_nil (List.cons_ne_nil _ _)
      have ha : a ∈ r.candidates := by
        rw [hcandidates]
        exact .head _
      have hb : b ∈ r.candidates := by
        rw [← hperm.mem_iff, hcandidates']
        exact .head _
      obtain ⟨hknown, hname⟩ := h.sameName hcreate b hb a ha
      rw [verdict_make s hcreate hcandidates (hostname_of_candidate ha),
        verdict_make s (hmake.trans hcreate) hcandidates' (hostname_of_candidate hb), target,
        target]
      rcases hfindb : findHostByName s.tables b with - | other <;>
        rcases hfinda : findHostByName s.tables a with - | host <;>
        rw [hfinda, hfindb] at hknown
      · rw [hname hfindb]
      · cases hknown
      · cases hknown
      · rw [h.sameHost a ha b hb host other hfinda hfindb]

/-- **The order of the candidates is free exactly if they agree.** -/
theorem orderFree_iff_agreeing (evidenceType : Text) (allowCreate autoAssign : Bool)
    (requireHost : Option Bool) (names : List Text) :
    OrderFree s evidenceType allowCreate autoAssign requireHost names ↔
      Agreeing s (onlyCandidates evidenceType allowCreate autoAssign requireHost names) := by
  constructor
  · intro h
    refine ⟨fun a ha b hb host other hhost hother => ?_, fun hcreate a ha b hb => ?_⟩
    · -- Someone is always found, so that the branch for several candidates is not reached.
      by_contra hne
      have hverdict := h.ambiguous _ rfl a ha b hb host other hhost hother hne
      obtain ⟨outcome, text, hfound⟩ := verdict_found s rfl ha hhost
      rw [hfound, HostRequest.ambiguousVerdict] at hverdict
      split_ifs at hverdict
      exact absurd (Except.ok.inj hverdict) nofun
    · obtain ⟨names₁, others₁, hperm₁, hfirst₁⟩ := exists_first ha
      obtain ⟨names₂, others₂, hperm₂, hfirst₂⟩ := exists_first hb
      rw [canCreate_onlyCandidates] at hcreate
      have hmake₁ := verdict_make s (by rw [canCreate_onlyCandidates, hcreate]) hfirst₁
        (hostname_of_candidate ha)
      have hmake₂ := verdict_make s (by rw [canCreate_onlyCandidates, hcreate]) hfirst₂
        (hostname_of_candidate hb)
      rw [← verdict_onlyCandidates s rfl, h.order names₁ hperm₁] at hmake₁
      rw [← verdict_onlyCandidates s rfl, h.order names₂ hperm₂] at hmake₂
      have hsame := hmake₁.symm.trans hmake₂
      rw [target, target] at hsame
      rcases hfinda : findHostByName s.tables a with - | host <;>
        rcases hfindb : findHostByName s.tables b with - | other <;>
        rw [hfinda, hfindb] at hsame
      · exact ⟨rfl, fun _ => (Prod.mk.inj (Except.ok.inj hsame)).2⟩
      · exact absurd (Prod.mk.inj (Except.ok.inj hsame)).1 nofun
      · exact absurd (Prod.mk.inj (Except.ok.inj hsame)).1 nofun
      · exact ⟨rfl, nofun⟩
  · intro h
    refine ⟨fun names' hperm => ?_, fun r hr a ha b hb host other hhost hother hne => ?_⟩
    · exact h.verdict_eq s rfl rfl (candidates_perm hperm)
    · subst hr
      exact absurd (h.sameHost a ha b hb host other hhost hother) hne

/-- Two hosts whose names were both detected. -/
def twoHosts : CaseTables where
  tables :=
    { hosts := [⟨0, "alpha".toList, "alpha".toList⟩, ⟨1, "beta".toList, "beta".toList⟩]
      aliases := [⟨2, 0, "alpha".toList, "alpha".toList, true⟩,
        ⟨3, 1, "beta".toList, "beta".toList, true⟩]
      nextId := 4 }
  hostIds := by decide
  canonicalNames := by decide
  aliasNames := by decide
  owned := by decide
  storedHosts := by decide
  storedAliases := by decide
  fresh := by decide

/-- The first of the two is taken. -/
theorem twoHosts_ordered : ¬ OrderFree twoHosts "disk_image".toList false true none
    ["alpha".toList, "beta".toList] := by
  intro h
  have hfirst : (onlyCandidates "disk_image".toList false true none
      ["alpha".toList, "beta".toList]).verdict twoHosts = .ok (.resolved, some "alpha".toList) := by
    decide +kernel
  have hsecond : (onlyCandidates "disk_image".toList false true none
      ["beta".toList, "alpha".toList]).verdict twoHosts = .ok (.resolved, some "beta".toList) := by
    decide +kernel
  have hsame := h.order ["beta".toList, "alpha".toList] (List.Perm.swap _ _ _)
  rw [hfirst, hsecond] at hsame
  exact absurd hsame (by decide)

end Kairon.Identity
