/-
Kairon/Host/Identity.lean

Host identities (`host_identity.py`): the names a machine was seen under, and the
hosts they were put together into.

Every operation works on the two tables of a case and ends in a commit, where the
database checks its constraints: canonical names are unique, normalized aliases
are unique, and texts fit into their columns.  An operation that raises leaves
what was committed before it.

`Partition` says what the tables mean: every alias has one host, every host has
one primary alias and is named after it.  The operations are built from few
changes (`addHost`, `updateAlias`, `ensurePrimaryAlias`, `dropHost`), and the
invariant `Sound` is followed through each of them; `SoundBut` is the same with
one host whose primary alias may have been taken away, as it stands between the
move of an alias and `_ensure_primary_alias`.  The main result is
`Reached.partition`.

`str.lower` and `str.isalnum` are parameters.  Columns that only count or date
what was seen are left out.
-/
import Kairon.Search.Syntax
import Kairon.Lib.Txn

namespace Kairon.Identity

open Search (Text strip strip_sublist strip_strip isSpace)
open Txn

/-! ### Names -/

/-- `str.strip` of one character. -/
def stripChar (c : Char) (s : Text) : Text :=
  ((s.dropWhile (· == c)).reverse.dropWhile (· == c)).reverse

/-- `str.rstrip` of one character. -/
def rstripChar (c : Char) (s : Text) : Text :=
  (s.reverse.dropWhile (· == c)).reverse

/-- The apostrophe. -/
def quote : Char := Char.ofNat 39

def normalizeHostAlias (lower : Text → Text) (name : Text) : Option Text :=
  let text := lower (rstripChar '.' (stripChar quote (stripChar '"' (strip name))))
  if text = [] then none else some text

theorem normalizeHostAlias_strip (lower : Text → Text) (name : Text) :
    normalizeHostAlias lower (strip name) = normalizeHostAlias lower name := by
  rw [normalizeHostAlias, normalizeHostAlias, strip_strip]

theorem normalizeHostAlias_ne_nil {lower : Text → Text} {name normalized : Text}
    (h : normalizeHostAlias lower name = some normalized) : normalized ≠ [] := by
  rw [normalizeHostAlias] at h
  split_ifs at h with hnil
  rwa [← Option.some.inj h]

/-- `INVALID_HOST_VALUES`. -/
def invalidHostValues : List Text :=
  ["", "-", "unknown", "template", "n/a", "na", "none", "null", "localhost"].map String.toList

/-! ### The tables of a case -/

/-- A row of `case_hosts`. -/
structure CaseHost where
  id : ℕ
  canonicalName : Text
  displayName : Text
  deriving DecidableEq

/-- A row of `case_host_aliases`. -/
structure CaseHostAlias where
  id : ℕ
  caseHostId : ℕ
  aliasText : Text
  normalizedAlias : Text
  isPrimary : Bool
  deriving DecidableEq

/-- Both tables; ids are drawn from a counter.  The rows stand in the order in
which the database returns them. -/
structure Directory where
  hosts : List CaseHost
  aliases : List CaseHostAlias
  nextId : ℕ
  deriving DecidableEq

inductive Failure
  /-- A `ValueError` with its message. -/
  | valueError (message : String)
  /-- A unique constraint does not hold. -/
  | integrityError
  /-- A text does not go into its column. -/
  | dataError
  deriving DecidableEq

/-- What a `VARCHAR(255)` column takes. -/
def Storable (text : Text) : Prop := text.length ≤ 255 ∧ Char.ofNat 0 ∉ text

instance (text : Text) : Decidable (Storable text) := inferInstanceAs (Decidable (_ ∧ _))

theorem Storable.strip {text : Text} (h : Storable text) : Storable (strip text) :=
  ⟨(strip_sublist text).length_le.trans h.1, fun hmem => h.2 ((strip_sublist text).subset hmem)⟩

def CaseHost.Stored (h : CaseHost) : Prop := Storable h.canonicalName ∧ Storable h.displayName

def CaseHostAlias.Stored (a : CaseHostAlias) : Prop :=
  Storable a.aliasText ∧ Storable a.normalizedAlias

instance : DecidablePred CaseHost.Stored := fun _ => inferInstanceAs (Decidable (_ ∧ _))

instance : DecidablePred CaseHostAlias.Stored := fun _ => inferInstanceAs (Decidable (_ ∧ _))

namespace Directory

def host? (s : Directory) (id : ℕ) : Option CaseHost := s.hosts.find? fun h => h.id = id

/-- The alias with a normalized name. -/
def aliasNamed (s : Directory) (normalized : Text) : Option CaseHostAlias :=
  s.aliases.find? fun a => a.normalizedAlias = normalized

/-- `host.aliases`. -/
def aliasesOf (s : Directory) (id : ℕ) : List CaseHostAlias :=
  s.aliases.filter fun a => a.caseHostId = id

/-- A new host, with the id it gets. -/
def addHost (s : Directory) (canonicalName displayName : Text) : ℕ × Directory :=
  (s.nextId, { s with
    hosts := s.hosts ++ [⟨s.nextId, canonicalName, displayName⟩]
    nextId := s.nextId + 1 })

def addAlias (s : Directory) (hostId : ℕ) (aliasText normalized : Text) (primary : Bool) :
    Directory :=
  { s with
    aliases := s.aliases ++ [⟨s.nextId, hostId, aliasText, normalized, primary⟩]
    nextId := s.nextId + 1 }

def updateHost (s : Directory) (id : ℕ) (f : CaseHost → CaseHost) : Directory :=
  { s with hosts := s.hosts.map fun h => if h.id = id then f h else h }

def updateAlias (s : Directory) (id : ℕ) (f : CaseHostAlias → CaseHostAlias) : Directory :=
  { s with aliases := s.aliases.map fun a => if a.id = id then f a else a }

/-- `db.delete(host)`, which takes the aliases of the host with it. -/
def dropHost (s : Directory) (id : ℕ) : Directory :=
  { s with
    hosts := s.hosts.filter fun h => h.id ≠ id
    aliases := s.aliases.filter fun a => a.caseHostId ≠ id }

/-- `_ensure_primary_alias`. -/
def ensurePrimaryAlias (s : Directory) (id : ℕ) : Directory :=
  match (s.aliasesOf id).find? CaseHostAlias.isPrimary with
  | some primary => s.updateHost id fun h =>
    { h with canonicalName := primary.normalizedAlias, displayName := primary.aliasText }
  | none =>
    match s.aliasesOf id with
    | [] => s
    | first :: _ =>
      (s.updateAlias first.id fun a => { a with isPrimary := true }).updateHost id fun h =>
        { h with canonicalName := first.normalizedAlias, displayName := first.aliasText }

end Directory

/-- `db.flush` and `db.commit`: the constraints are checked on what the session has
written. -/
def flush : Work Directory Failure Unit := fun s =>
  if ¬ ((∀ h ∈ s.hosts, h.Stored) ∧ ∀ a ∈ s.aliases, a.Stored) then (.error .dataError, s)
  else if ¬ ((s.hosts.map CaseHost.canonicalName).Nodup ∧
      (s.aliases.map CaseHostAlias.normalizedAlias).Nodup) then (.error .integrityError, s)
  else (.ok (), s)

/-- `raise ValueError`. -/
def raise {α : Type} (message : String) : Work Directory Failure α := fun s =>
  (.error (.valueError message), s)

/-! ### The operations -/

section Operations

variable (lower : Text → Text) (isAlnum : Char → Bool)

/-- The keys of `_observed_host_counts`, from the host names of the snapshot. -/
def observedHostCounts (observed : List Text) : List Text :=
  ((observed.filterMap (normalizeHostAlias lower)).filter (· ≠ "unknown".toList)).eraseDups

/-- `_merge_alias_values`. -/
def mergeAliasValues (text : Text) (a : CaseHostAlias) : CaseHostAlias :=
  let merged := strip (if text = [] then a.aliasText else text)
  { a with aliasText := if merged = [] then a.aliasText else merged }

/-- The upsert of a host by its canonical name. -/
def caseHostUpsert (s : Directory) (normalized : Text) : ℕ × Directory :=
  match s.hosts.find? fun h => h.canonicalName = normalized with
  | some h => (h.id, s)
  | none => s.addHost normalized normalized

/-- `_upsert_observed_case_host`.  The upsert of the alias is an insert: it was just
looked up. -/
def upsertObservedCaseHost (s : Directory) (normalized : Text) : Directory :=
  match s.aliasNamed normalized with
  | some a => s.updateAlias a.id (mergeAliasValues normalized)
  | none =>
    let (hostId, t) := caseHostUpsert s normalized
    t.addAlias hostId normalized normalized true

/-- `_ensure_default_case_hosts`. -/
def ensureDefaultCaseHosts (observed : List Text) : Work Directory Failure Unit :=
  atomically fun s =>
    if observedHostCounts lower observed = [] then (.ok (), s)
    else flush ((observedHostCounts lower observed).foldl upsertObservedCaseHost s)

/-- The checks of `create_manual_case_host`: the display name and the alias. -/
def manualName (hostName : Text) : Except String (Text × Text) :=
  match normalizeHostAlias lower (strip hostName) with
  | none => .error "Host name is required"
  | some normalized =>
    if normalized ∈ invalidHostValues then .error "Host name is required"
    else if 255 < (strip hostName).length then .error "Host name is too long"
    else if ¬ (strip hostName).all (fun c => isAlnum c || c ∈ ['-', '_', '.']) then
      .error "Host name contains unsupported characters"
    else .ok (strip hostName, normalized)

/-- `create_manual_case_host`: the host, and whether it is new. -/
def createManualCaseHost (hostName : Text) : Work Directory Failure (ℕ × Bool) :=
  atomically fun s =>
    match manualName lower isAlnum hostName with
    | .error message => raise message s
    | .ok (displayName, normalized) =>
      match s.aliasNamed normalized with
      | some a => (.ok (a.caseHostId, false), s)
      | none =>
        match s.hosts.find? fun h => h.canonicalName = normalized with
        | some h => (.ok (h.id, false), s)
        | none =>
          let (hostId, t) := s.addHost normalized displayName
          andThen flush (fun _ t => andThen flush (fun _ u => (.ok (hostId, true), u))
            (t.addAlias hostId displayName normalized true)) t

/-- `resolve_canonical_host`. -/
def resolveCanonicalHost (observed : List Text) (name : Text) :
    Work Directory Failure (Option CaseHost) := fun s =>
  match normalizeHostAlias lower name with
  | none => (.ok none, s)
  | some normalized =>
    andThen (ensureDefaultCaseHosts lower observed)
      (fun _ t => (.ok ((t.aliasNamed normalized).bind fun a => t.host? a.caseHostId), t)) s

/-- One alias of `merge_hosts`.  Beside the tables stand the aliases whose move is
not flushed yet: their column still names the host they came from, so that a name
that is given twice is taken again. -/
def moveAlias (hostId : ℕ) : Directory × List ℕ → Text → Directory × List ℕ
  | (s, unflushed), aliasName =>
    match (normalizeHostAlias lower aliasName).bind s.aliasNamed with
    | none => (s, unflushed)
    | some a =>
      if a.caseHostId = hostId ∧ a.id ∉ unflushed then (s, unflushed)
      else
        let t := (s.updateAlias a.id fun b =>
          { b with caseHostId := hostId, isPrimary := false }).ensurePrimaryAlias a.caseHostId
        if t.aliasesOf a.caseHostId = [] then (t.dropHost a.caseHostId, [])
        else (t, a.id :: unflushed)

def mergeHosts (observed : List Text) (canonicalHostId : ℕ) (aliases : List Text) :
    Work Directory Failure Unit :=
  andThen (ensureDefaultCaseHosts lower observed) fun _ => atomically fun s =>
    match s.host? canonicalHostId with
    | none => raise "Canonical host not found" s
    | some host =>
      flush ((aliases.foldl (moveAlias lower host.id) (s, [])).1.ensurePrimaryAlias host.id)

def splitAlias (aliasId : ℕ) : Work Directory Failure Unit := atomically fun s =>
  match s.aliases.find? fun a => a.id = aliasId with
  | none => raise "Alias not found" s
  | some a =>
    if a.isPrimary then raise "Primary alias cannot be split from its own host" s
    else
      let (newHostId, t) := s.addHost a.normalizedAlias a.aliasText
      andThen flush (fun _ t => flush ((t.updateAlias a.id fun b =>
        { b with caseHostId := newHostId, isPrimary := true }).ensurePrimaryAlias
          a.caseHostId)) t

/-- What `rename_canonical_host` does to the aliases of the host. -/
def renamePrimary (s : Directory) (hostId : ℕ) (newName normalized : Text) : Directory :=
  match (s.aliasesOf hostId).find? CaseHostAlias.isPrimary with
  | none => s.addAlias hostId newName normalized true
  | some primary =>
    let t := s.updateAlias primary.id fun a =>
      { a with aliasText := newName, normalizedAlias := normalized }
    if primary.normalizedAlias ≠ normalized ∧ ¬ ∃ a ∈ t.aliasesOf hostId,
          a.normalizedAlias = primary.normalizedAlias ∧ ¬ a.isPrimary then
      t.addAlias hostId primary.aliasText primary.normalizedAlias false
    else t

def renameCanonicalHost (hostId : ℕ) (newName : Text) : Work Directory Failure Unit :=
  atomically fun s =>
    match normalizeHostAlias lower newName with
    | none => raise "New canonical host name is empty" s
    | some normalized =>
      match s.host? hostId with
      | none => raise "Host not found" s
      | some host =>
        if ∃ a ∈ s.aliases, a.normalizedAlias = normalized ∧ a.caseHostId ≠ host.id then
          raise "New canonical host name already belongs to another host" s
        else
          flush ((renamePrimary s host.id (strip newName) normalized).updateHost host.id
            fun h => { h with canonicalName := normalized, displayName := strip newName })

/-- `delete_case_host`, for a host with the given evidences. -/
def deleteCaseHost (hostId : ℕ) (evidences : List Text) (targetHostId : Option ℕ) :
    Work Directory Failure Unit := atomically fun s =>
  match s.host? hostId with
  | none => raise "Host not found" s
  | some host =>
    if evidences = [] then flush (s.dropHost host.id)
    else
      match targetHostId with
      | none => raise ("This host has evidence assigned. Move its evidence to another host " ++
          "before deleting, or cancel.") s
      | some targetId =>
        match s.host? targetId with
        | none => raise "Target host not found in this case" s
        | some target =>
          if target.id = host.id then
            raise "Target host must be different from the host being deleted" s
          else flush (s.dropHost host.id)

end Operations

/-! ### What the tables mean -/

/-- Every alias has one host, and every host one primary alias that it is named
after. -/
structure Partition (s : Directory) : Prop where
  hosts : (s.hosts.map CaseHost.id).Nodup
  names : (s.aliases.map CaseHostAlias.normalizedAlias).Nodup
  owned : ∀ a ∈ s.aliases, ∃ h ∈ s.hosts, h.id = a.caseHostId
  primary : ∀ h ∈ s.hosts, ∃ a ∈ s.aliases,
    a.caseHostId = h.id ∧ a.isPrimary = true ∧ a.normalizedAlias = h.canonicalName
  onePrimary : ∀ a ∈ s.aliases, ∀ b ∈ s.aliases,
    a.caseHostId = b.caseHostId → a.isPrimary = true → b.isPrimary = true → a = b

/-- A normalized name that its column takes and that is looked up as it stands. -/
def Fits (lower : Text → Text) (normalized : Text) : Prop :=
  Storable normalized ∧ normalizeHostAlias lower normalized = some normalized

instance (lower : Text → Text) (normalized : Text) : Decidable (Fits lower normalized) :=
  inferInstanceAs (Decidable (_ ∧ _))

/-- `Partition` with what keeps it: ids below the counter, texts that fit.  The host
`skip` need not have a primary alias. -/
structure SoundBut (lower : Text → Text) (skip : Option ℕ) (s : Directory) : Prop where
  hosts : (s.hosts.map CaseHost.id).Nodup
  ids : (s.aliases.map CaseHostAlias.id).Nodup
  names : (s.aliases.map CaseHostAlias.normalizedAlias).Nodup
  owned : ∀ a ∈ s.aliases, ∃ h ∈ s.hosts, h.id = a.caseHostId
  primary : ∀ h ∈ s.hosts, skip ≠ some h.id → ∃ a ∈ s.aliases,
    a.caseHostId = h.id ∧ a.isPrimary = true ∧ a.normalizedAlias = h.canonicalName
  onePrimary : ∀ a ∈ s.aliases, ∀ b ∈ s.aliases,
    a.caseHostId = b.caseHostId → a.isPrimary = true → b.isPrimary = true → a = b
  host_lt : ∀ h ∈ s.hosts, h.id < s.nextId
  alias_lt : ∀ a ∈ s.aliases, a.id < s.nextId
  display : ∀ h ∈ s.hosts, Storable h.displayName
  text : ∀ a ∈ s.aliases, Storable a.aliasText
  fits : ∀ a ∈ s.aliases, Fits lower a.normalizedAlias
  named : ∀ a ∈ s.aliases, normalizeHostAlias lower a.aliasText = some a.normalizedAlias

/-- The invariant between two operations. -/
abbrev Sound (lower : Text → Text) (s : Directory) : Prop := SoundBut lower none s

section Invariant

variable {lower : Text → Text} {skip skip' : Option ℕ} {s : Directory} {a : CaseHostAlias}

theorem Sound.isPartition (h : Sound lower s) : Partition s :=
  ⟨h.hosts, h.names, h.owned, fun host hhost => h.primary host hhost nofun, h.onePrimary⟩

variable {b : CaseHostAlias}

theorem SoundBut.alias_eq_of_id (h : SoundBut lower skip s)
    (ha : a ∈ s.aliases) (hb : b ∈ s.aliases) (hid : a.id = b.id) : a = b :=
  List.inj_on_of_nodup_map h.ids ha hb hid

theorem SoundBut.alias_eq_of_name (h : SoundBut lower skip s)
    (ha : a ∈ s.aliases) (hb : b ∈ s.aliases) (hname : a.normalizedAlias = b.normalizedAlias) :
    a = b :=
  List.inj_on_of_nodup_map h.names ha hb hname

theorem SoundBut.host_eq_of_id (h : SoundBut lower skip s) {x y : CaseHost}
    (hx : x ∈ s.hosts) (hy : y ∈ s.hosts) (hid : x.id = y.id) : x = y :=
  List.inj_on_of_nodup_map h.hosts hx hy hid

/-- Any host may be the one that is skipped. -/
theorem Sound.but (h : Sound lower s) (B : ℕ) : SoundBut lower (some B) s where
  __ := h
  primary := fun host hhost _ => h.primary host hhost nofun

/-- A skipped host that has its primary alias need not be skipped. -/
theorem SoundBut.close {B : ℕ} (h : SoundBut lower (some B) s)
    (hB : ∀ host ∈ s.hosts, host.id = B → ∃ a ∈ s.aliases,
      a.caseHostId = B ∧ a.isPrimary = true ∧ a.normalizedAlias = host.canonicalName) :
    Sound lower s where
  __ := h
  primary := fun host hhost _ => by
    by_cases hid : host.id = B
    · rw [hid]
      exact hB host hhost hid
    · exact h.primary host hhost fun heq => hid (Option.some.inj heq).symm

/-! ### Changes of the aliases -/

variable {f : CaseHostAlias → CaseHostAlias}

theorem SoundBut.mem_updateAlias (h : SoundBut lower skip s) (ha : a ∈ s.aliases) :
    b ∈ (s.updateAlias a.id f).aliases ↔ b = f a ∨ (b ∈ s.aliases ∧ b ≠ a) := by
  show b ∈ s.aliases.map _ ↔ _
  rw [List.mem_map]
  constructor
  · rintro ⟨x, hx, rfl⟩
    by_cases hid : x.id = a.id
    · rw [if_pos hid, h.alias_eq_of_id hx ha hid]
      exact .inl rfl
    · rw [if_neg hid]
      exact .inr ⟨hx, fun heq => hid (heq ▸ rfl)⟩
  · rintro (rfl | ⟨hb, hne⟩)
    · exact ⟨a, ha, if_pos rfl⟩
    · exact ⟨b, hb, if_neg fun hid => hne (h.alias_eq_of_id hb ha hid)⟩

/-- One alias gets other values. -/
theorem SoundBut.updateAlias (h : SoundBut lower skip s) (ha : a ∈ s.aliases) {a' : CaseHostAlias}
    (hf : f a = a') (hid : a'.id = a.id)
    (hname : ∀ b ∈ s.aliases, b ≠ a → b.normalizedAlias ≠ a'.normalizedAlias)
    (howner : ∃ host ∈ s.hosts, host.id = a'.caseHostId)
    (hone : a'.isPrimary = true → ∀ b ∈ s.aliases, b.caseHostId = a'.caseHostId →
      b.isPrimary = true → b = a)
    (hskip : ∀ host ∈ s.hosts, skip' ≠ some host.id → skip ≠ some host.id ∧
      (a.caseHostId = host.id → a.isPrimary = true → a'.caseHostId = host.id ∧
        a'.isPrimary = true ∧ a'.normalizedAlias = a.normalizedAlias))
    (htext : Storable a'.aliasText) (hfits : Fits lower a'.normalizedAlias)
    (hnamed : normalizeHostAlias lower a'.aliasText = some a'.normalizedAlias) :
    SoundBut lower skip' (s.updateAlias a.id f) := by
  subst hf
  have hmem : ∀ {b}, b ∈ (s.updateAlias a.id f).aliases → b = f a ∨ (b ∈ s.aliases ∧ b ≠ a) :=
    fun hb => (h.mem_updateAlias ha).1 hb
  have hkept : ∀ x ∈ s.aliases, x ≠ a → (if x.id = a.id then f x else x) = x :=
    fun x hx hne => if_neg fun heq => hne (h.alias_eq_of_id hx ha heq)
  refine ⟨h.hosts, ?_, ?_, ?_, ?_, ?_, h.host_lt, ?_, h.display, ?_, ?_, ?_⟩
  · -- the ids are the same
    have hsame : (s.updateAlias a.id f).aliases.map CaseHostAlias.id =
        s.aliases.map CaseHostAlias.id := by
      show (s.aliases.map _).map _ = _
      rw [List.map_map]
      refine List.map_congr_left fun x hx => ?_
      by_cases hx' : x = a
      · rw [hx', Function.comp_apply, if_pos rfl, hid]
      · rw [Function.comp_apply, hkept x hx hx']
    rw [hsame]
    exact h.ids
  · show ((s.aliases.map _).map _).Nodup
    rw [List.map_map]
    refine List.Nodup.map_on (fun x hx y hy hxy => ?_) (List.Nodup.of_map _ h.ids)
    rw [Function.comp_apply, Function.comp_apply] at hxy
    by_cases hx' : x = a
    · by_cases hy' : y = a
      · rw [hx', hy']
      · rw [hkept y hy hy', hx', if_pos rfl] at hxy
        exact absurd hxy.symm (hname y hy hy')
    · by_cases hy' : y = a
      · rw [hkept x hx hx', hy', if_pos rfl] at hxy
        exact absurd hxy (hname x hx hx')
      · rw [hkept x hx hx', hkept y hy hy'] at hxy
        exact h.alias_eq_of_name hx hy hxy
  · intro b hb
    rcases hmem hb with rfl | ⟨hb, -⟩
    · exact howner
    · exact h.owned b hb
  · intro host hhost hne
    obtain ⟨hskip, hsame⟩ := hskip host hhost hne
    obtain ⟨p, hp, hpowner, hprimary, hpname⟩ := h.primary host hhost hskip
    by_cases hpa : p = a
    · subst hpa
      obtain ⟨h₁, h₂, h₃⟩ := hsame hpowner hprimary
      exact ⟨f p, (h.mem_updateAlias ha).2 (.inl rfl), h₁, h₂, h₃.trans hpname⟩
    · exact ⟨p, (h.mem_updateAlias ha).2 (.inr ⟨hp, hpa⟩), hpowner, hprimary, hpname⟩
  · intro b hb c hc howner hbp hcp
    rcases hmem hb with rfl | ⟨hb, hb'⟩
    · rcases hmem hc with rfl | ⟨hc, hc'⟩
      · rfl
      · exact absurd (hone hbp c hc howner.symm hcp) hc'
    · rcases hmem hc with rfl | ⟨hc, -⟩
      · exact absurd (hone hcp b hb howner hbp) hb'
      · exact h.onePrimary b hb c hc howner hbp hcp
  · intro b hb
    rcases hmem hb with rfl | ⟨hb, -⟩
    · rw [hid]
      exact h.alias_lt a ha
    · exact h.alias_lt b hb
  · intro b hb
    rcases hmem hb with rfl | ⟨hb, -⟩
    · exact htext
    · exact h.text b hb
  · intro b hb
    rcases hmem hb with rfl | ⟨hb, -⟩
    · exact hfits
    · exact h.fits b hb
  · intro b hb
    rcases hmem hb with rfl | ⟨hb, -⟩
    · exact hnamed
    · exact h.named b hb

/-- A new alias. -/
theorem SoundBut.addAlias (h : SoundBut lower skip s) {B : ℕ} {text normalized : Text}
    {primary : Bool} (howner : ∃ host ∈ s.hosts, host.id = B)
    (hname : ∀ b ∈ s.aliases, b.normalizedAlias ≠ normalized)
    (hone : primary = true → ∀ b ∈ s.aliases, b.caseHostId = B → b.isPrimary = false)
    (htext : Storable text) (hfits : Fits lower normalized)
    (hnamed : normalizeHostAlias lower text = some normalized) :
    SoundBut lower skip (s.addAlias B text normalized primary) := by
  have hmem : ∀ {b}, b ∈ (s.addAlias B text normalized primary).aliases →
      b ∈ s.aliases ∨ b = ⟨s.nextId, B, text, normalized, primary⟩ := fun hb =>
    (List.mem_append.1 hb).imp_right List.mem_singleton.1
  refine ⟨h.hosts, ?_, ?_, ?_, ?_, ?_, ?_, ?_, h.display, ?_, ?_, ?_⟩
  · show (List.map _ (s.aliases ++ [_])).Nodup
    rw [List.map_append, List.map_singleton, List.nodup_append_comm, List.singleton_append,
      List.nodup_cons]
    refine ⟨fun hin => ?_, h.ids⟩
    obtain ⟨b, hb, hid⟩ := List.mem_map.1 hin
    exact (h.alias_lt b hb).ne hid
  · show (List.map _ (s.aliases ++ [_])).Nodup
    rw [List.map_append, List.map_singleton, List.nodup_append_comm, List.singleton_append,
      List.nodup_cons]
    refine ⟨fun hin => ?_, h.names⟩
    obtain ⟨b, hb, hb'⟩ := List.mem_map.1 hin
    exact hname b hb hb'
  · intro b hb
    rcases hmem hb with hb | rfl
    · exact h.owned b hb
    · exact howner
  · intro host hhost hne
    obtain ⟨p, hp, hrest⟩ := h.primary host hhost hne
    exact ⟨p, List.mem_append_left _ hp, hrest⟩
  · intro b hb c hc howner hbp hcp
    rcases hmem hb with hb | rfl
    · rcases hmem hc with hc | rfl
      · exact h.onePrimary b hb c hc howner hbp hcp
      · rw [hone hcp b hb howner] at hbp
        cases hbp
    · rcases hmem hc with hc | rfl
      · rw [hone hbp c hc howner.symm] at hcp
        cases hcp
      · rfl
  · exact fun host hhost => (h.host_lt host hhost).trans (Nat.lt_succ_self _)
  · intro b hb
    rcases hmem hb with hb | rfl
    · exact (h.alias_lt b hb).trans (Nat.lt_succ_self _)
    · exact Nat.lt_succ_self _
  · intro b hb
    rcases hmem hb with hb | rfl
    · exact h.text b hb
    · exact htext
  · intro b hb
    rcases hmem hb with hb | rfl
    · exact h.fits b hb
    · exact hfits
  · intro b hb
    rcases hmem hb with hb | rfl
    · exact h.named b hb
    · exact hnamed

/-! ### Changes of the hosts -/

/-- A new host, which has no alias yet. -/
theorem Sound.addHost (h : Sound lower s) {canonicalName displayName : Text}
    (hdisplay : Storable displayName) :
    SoundBut lower (some s.nextId) (s.addHost canonicalName displayName).2 := by
  have hmem : ∀ {x}, x ∈ (s.addHost canonicalName displayName).2.hosts →
      x ∈ s.hosts ∨ x = ⟨s.nextId, canonicalName, displayName⟩ := fun hx =>
    (List.mem_append.1 hx).imp_right List.mem_singleton.1
  refine ⟨?_, h.ids, h.names, ?_, ?_, h.onePrimary, ?_, ?_, ?_, h.text, h.fits, h.named⟩
  · show (List.map _ (s.hosts ++ [_])).Nodup
    rw [List.map_append, List.map_singleton, List.nodup_append_comm, List.singleton_append,
      List.nodup_cons]
    refine ⟨fun hin => ?_, h.hosts⟩
    obtain ⟨x, hx, hid⟩ := List.mem_map.1 hin
    exact (h.host_lt x hx).ne hid
  · intro b hb
    obtain ⟨x, hx, hid⟩ := h.owned b hb
    exact ⟨x, List.mem_append_left _ hx, hid⟩
  · intro x hx hne
    rcases hmem hx with hx | rfl
    · exact h.primary x hx nofun
    · exact absurd rfl hne
  · intro x hx
    rcases hmem hx with hx | rfl
    · exact (h.host_lt x hx).trans (Nat.lt_succ_self _)
    · exact Nat.lt_succ_self _
  · exact fun b hb => (h.alias_lt b hb).trans (Nat.lt_succ_self _)
  · intro x hx
    rcases hmem hx with hx | rfl
    · exact h.display x hx
    · exact hdisplay

theorem ids_updateHost (s : Directory) (B : ℕ) {f : CaseHost → CaseHost} (hf : ∀ x, (f x).id = x.id) :
    (s.updateHost B f).hosts.map CaseHost.id = s.hosts.map CaseHost.id := by
  show (s.hosts.map _).map _ = _
  rw [List.map_map]
  refine List.map_congr_left fun x _ => ?_
  rw [Function.comp_apply]
  split_ifs
  · exact hf x
  · rfl

/-- A host is named after its primary alias. -/
theorem SoundBut.updateHost {B : ℕ} (h : SoundBut lower (some B) s) (ha : a ∈ s.aliases)
    (howner : a.caseHostId = B) (hprimary : a.isPrimary = true) {f : CaseHost → CaseHost}
    (hf : ∀ x, f x = { x with canonicalName := a.normalizedAlias, displayName := a.aliasText }) :
    Sound lower (s.updateHost B f) := by
  have hmem : ∀ {y}, y ∈ (s.updateHost B f).hosts → ∃ x ∈ s.hosts,
      y.id = x.id ∧ ((x.id ≠ B ∧ y = x) ∨
        (x.id = B ∧ y.canonicalName = a.normalizedAlias ∧ y.displayName = a.aliasText)) := by
    intro y hy
    obtain ⟨x, hx, rfl⟩ := List.mem_map.1 hy
    by_cases hid : x.id = B
    · rw [if_pos hid, hf]
      exact ⟨x, hx, rfl, .inr ⟨hid, rfl, rfl⟩⟩
    · rw [if_neg hid]
      exact ⟨x, hx, rfl, .inl ⟨hid, rfl⟩⟩
  have hsame := ids_updateHost s B (f := f) fun x => by rw [hf]
  refine ⟨hsame ▸ h.hosts, h.ids, h.names, ?_, ?_, h.onePrimary, ?_, h.alias_lt, ?_, h.text,
    h.fits, h.named⟩
  · intro b hb
    obtain ⟨x, hx, hid⟩ := h.owned b hb
    have hin : x.id ∈ (s.updateHost B f).hosts.map CaseHost.id :=
      hsame ▸ List.mem_map_of_mem hx
    obtain ⟨y, hy, hyid⟩ := List.mem_map.1 hin
    exact ⟨y, hy, hyid.trans hid⟩
  · intro y hy _
    obtain ⟨x, hx, hyid, ⟨hne, rfl⟩ | ⟨hid, hname, -⟩⟩ := hmem hy
    · exact h.primary y hx fun heq => hne (Option.some.inj heq).symm
    · exact ⟨a, ha, howner.trans (hid.symm.trans hyid.symm), hprimary, hname.symm⟩
  · intro y hy
    obtain ⟨x, hx, hid, -⟩ := hmem hy
    rw [hid]
    exact h.host_lt x hx
  · intro y hy
    obtain ⟨x, hx, -, ⟨-, rfl⟩ | ⟨-, -, hdisplay⟩⟩ := hmem hy
    · exact h.display y hx
    · rw [hdisplay]
      exact h.text a ha

/-- A host goes, and its aliases with it. -/
theorem SoundBut.dropHost {B : ℕ} (h : SoundBut lower (some B) s) : Sound lower (s.dropHost B) := by
  have hhost : ∀ {x}, x ∈ (s.dropHost B).hosts ↔ x ∈ s.hosts ∧ x.id ≠ B := by
    intro x
    show x ∈ s.hosts.filter _ ↔ _
    rw [List.mem_filter, decide_eq_true_iff]
  have halias : ∀ {b}, b ∈ (s.dropHost B).aliases ↔ b ∈ s.aliases ∧ b.caseHostId ≠ B := by
    intro b
    show b ∈ s.aliases.filter _ ↔ _
    rw [List.mem_filter, decide_eq_true_iff]
  refine ⟨(List.filter_sublist.map _).nodup h.hosts, (List.filter_sublist.map _).nodup h.ids,
    (List.filter_sublist.map _).nodup h.names, ?_, ?_, ?_, ?_, ?_, ?_, ?_, ?_, ?_⟩
  · intro b hb
    obtain ⟨hb, hne⟩ := halias.1 hb
    obtain ⟨x, hx, hid⟩ := h.owned b hb
    exact ⟨x, hhost.2 ⟨hx, hid ▸ hne⟩, hid⟩
  · intro x hx _
    obtain ⟨hx, hne⟩ := hhost.1 hx
    obtain ⟨b, hb, howner, hrest⟩ := h.primary x hx fun heq => hne (Option.some.inj heq).symm
    exact ⟨b, halias.2 ⟨hb, howner ▸ hne⟩, howner, hrest⟩
  · exact fun b hb c hc => h.onePrimary b (halias.1 hb).1 c (halias.1 hc).1
  · exact fun x hx => h.host_lt x (hhost.1 hx).1
  · exact fun b hb => h.alias_lt b (halias.1 hb).1
  · exact fun x hx => h.display x (hhost.1 hx).1
  · exact fun b hb => h.text b (halias.1 hb).1
  · exact fun b hb => h.fits b (halias.1 hb).1
  · exact fun b hb => h.named b (halias.1 hb).1

/-! ### The primary alias -/

theorem mem_aliasesOf {B : ℕ} : a ∈ s.aliasesOf B ↔ a ∈ s.aliases ∧ a.caseHostId = B := by
  rw [Directory.aliasesOf, List.mem_filter, decide_eq_true_iff]

theorem SoundBut.ensurePrimaryAlias {B : ℕ} (h : SoundBut lower (some B) s)
    (hne : s.aliasesOf B ≠ []) : Sound lower (s.ensurePrimaryAlias B) := by
  rw [Directory.ensurePrimaryAlias]
  rcases hfind : (s.aliasesOf B).find? CaseHostAlias.isPrimary with - | p
  · -- the first alias is made the primary one
    obtain ⟨first, rest, hrest⟩ := List.exists_cons_of_ne_nil hne
    obtain ⟨hfirst, howner⟩ := mem_aliasesOf.1 (hrest ▸ List.mem_cons_self : first ∈ _)
    have hnone : ∀ b ∈ s.aliases, b.caseHostId = B → b.isPrimary ≠ true := fun b hb hb' =>
      List.find?_eq_none.1 hfind b (mem_aliasesOf.2 ⟨hb, hb'⟩)
    have hnext : SoundBut lower (some B)
        (s.updateAlias first.id fun a => { a with isPrimary := true }) :=
      h.updateAlias hfirst rfl rfl
        (fun b hb hne hname => hne (h.alias_eq_of_name hb hfirst hname)) (h.owned first hfirst)
        (fun _ b hb hb' hbp => absurd hbp (hnone b hb (hb'.trans howner)))
        (fun host _ hskip => ⟨hskip, fun _ hp => absurd hp (hnone first hfirst howner)⟩)
        (h.text first hfirst) (h.fits first hfirst) (h.named first hfirst)
    rw [hrest]
    exact hnext.updateHost ((h.mem_updateAlias hfirst).2 (.inl rfl)) howner rfl fun _ => rfl
  · obtain ⟨hp, howner⟩ := mem_aliasesOf.1 (List.mem_of_find?_eq_some hfind)
    exact h.updateHost hp howner (List.find?_some hfind) fun _ => rfl

theorem ensurePrimaryAlias_nil {B : ℕ} (h : s.aliasesOf B = []) : s.ensurePrimaryAlias B = s := by
  rw [Directory.ensurePrimaryAlias, h]
  rfl

theorem Sound.ensurePrimaryAlias (h : Sound lower s) (B : ℕ) :
    Sound lower (s.ensurePrimaryAlias B) := by
  by_cases hB : s.aliasesOf B = []
  · rw [ensurePrimaryAlias_nil hB]
    exact h
  · exact (h.but B).ensurePrimaryAlias hB

/-- The hosts, and the hosts of the aliases, stay the same. -/
theorem ids_ensurePrimaryAlias (s : Directory) (B : ℕ) :
    (s.ensurePrimaryAlias B).hosts.map CaseHost.id = s.hosts.map CaseHost.id ∧
      (s.ensurePrimaryAlias B).aliases.map CaseHostAlias.caseHostId =
        s.aliases.map CaseHostAlias.caseHostId := by
  rw [Directory.ensurePrimaryAlias]
  rcases (s.aliasesOf B).find? CaseHostAlias.isPrimary with - | p
  · rcases s.aliasesOf B with - | ⟨first, rest⟩
    · exact ⟨rfl, rfl⟩
    · refine ⟨ids_updateHost _ B fun _ => rfl, ?_⟩
      show (s.aliases.map _).map _ = _
      rw [List.map_map]
      refine List.map_congr_left fun x _ => ?_
      rw [Function.comp_apply]
      split_ifs <;> rfl
  · exact ⟨ids_updateHost s B fun _ => rfl, rfl⟩

/-! ### What the database checks -/

/-- Two hosts with one canonical name would share their primary alias. -/
theorem Sound.canonicalNames (h : Sound lower s) : (s.hosts.map CaseHost.canonicalName).Nodup := by
  refine List.Nodup.map_on (fun x hx y hy hxy => ?_) (List.Nodup.of_map _ h.hosts)
  obtain ⟨p, hp, hpx, -, hpname⟩ := h.primary x hx nofun
  obtain ⟨q, hq, hqy, -, hqname⟩ := h.primary y hy nofun
  have hpq : p = q := h.alias_eq_of_name hp hq (by rw [hpname, hqname, hxy])
  exact h.host_eq_of_id hx hy (by rw [← hpx, ← hqy, hpq])

theorem Sound.stored_host (h : Sound lower s) {x : CaseHost} (hx : x ∈ s.hosts) : x.Stored := by
  obtain ⟨p, hp, -, -, hname⟩ := h.primary x hx nofun
  exact ⟨hname ▸ (h.fits p hp).1, h.display x hx⟩

theorem flush_ok (hhosts : ∀ x ∈ s.hosts, x.Stored) (haliases : ∀ a ∈ s.aliases, a.Stored)
    (hcanonical : (s.hosts.map CaseHost.canonicalName).Nodup)
    (hnames : (s.aliases.map CaseHostAlias.normalizedAlias).Nodup) : flush s = (.ok (), s) := by
  rw [flush, if_neg (not_not.2 ⟨hhosts, haliases⟩), if_neg (not_not.2 ⟨hcanonical, hnames⟩)]

/-- Sound tables are committed. -/
theorem Sound.flush_eq (h : Sound lower s) : flush s = (.ok (), s) :=
  flush_ok (fun _ hx => h.stored_host hx) (fun a ha => ⟨h.text a ha, (h.fits a ha).1⟩)
    h.canonicalNames h.names

/-- A new host may be flushed before it has an alias, under a name that no primary
alias has. -/
theorem Sound.flush_addHost (h : Sound lower s) {canonicalName displayName : Text}
    (hcanonical : Storable canonicalName) (hdisplay : Storable displayName)
    (hname : ∀ a ∈ s.aliases, a.isPrimary = true → a.normalizedAlias ≠ canonicalName) :
    flush (s.addHost canonicalName displayName).2 =
      (.ok (), (s.addHost canonicalName displayName).2) := by
  refine flush_ok (fun x hx => ?_) (fun a ha => ⟨h.text a ha, (h.fits a ha).1⟩) ?_ h.names
  · rcases List.mem_append.1 hx with hx | hx
    · exact h.stored_host hx
    · rw [List.mem_singleton.1 hx]
      exact ⟨hcanonical, hdisplay⟩
  · show (List.map _ (s.hosts ++ [_])).Nodup
    rw [List.map_append, List.map_singleton, List.nodup_append_comm, List.singleton_append,
      List.nodup_cons]
    refine ⟨fun hin => ?_, h.canonicalNames⟩
    obtain ⟨x, hx, hx'⟩ := List.mem_map.1 hin
    obtain ⟨p, hp, -, hprimary, hpname⟩ := h.primary x hx nofun
    exact hname p hp hprimary (hpname.trans hx')

/-! ### New hosts -/

variable {normalized : Text}

theorem aliasNamed_eq_none :
    s.aliasNamed normalized = none ↔ ∀ a ∈ s.aliases, a.normalizedAlias ≠ normalized := by
  rw [Directory.aliasNamed, List.find?_eq_none]
  simp

theorem aliasNamed_some (ha : s.aliasNamed normalized = some a) :
    a ∈ s.aliases ∧ a.normalizedAlias = normalized := by
  rw [Directory.aliasNamed] at ha
  have hname := List.find?_some ha
  exact ⟨List.mem_of_find?_eq_some ha, of_decide_eq_true hname⟩

theorem SoundBut.aliasNamed_eq (h : SoundBut lower skip s) (ha : a ∈ s.aliases) :
    s.aliasNamed a.normalizedAlias = some a := by
  rcases hb : s.aliasNamed a.normalizedAlias with - | b
  · exact absurd rfl (aliasNamed_eq_none.1 hb a ha)
  · obtain ⟨hmem, hname⟩ := aliasNamed_some hb
    rw [h.alias_eq_of_name hmem ha hname]

theorem host?_eq_none {B : ℕ} : s.host? B = none ↔ ¬ ∃ x ∈ s.hosts, x.id = B := by
  rw [Directory.host?, List.find?_eq_none]
  simp

theorem host?_some {B : ℕ} {x : CaseHost} (hx : s.host? B = some x) : x ∈ s.hosts ∧ x.id = B := by
  rw [Directory.host?] at hx
  have hid := List.find?_some hx
  exact ⟨List.mem_of_find?_eq_some hx, of_decide_eq_true hid⟩

/-- No host is called by a name that is nobody's alias. -/
theorem Sound.canonical_free (h : Sound lower s)
    (hname : ∀ a ∈ s.aliases, a.normalizedAlias ≠ normalized) :
    (s.hosts.find? fun x => x.canonicalName = normalized) = none := by
  rw [List.find?_eq_none]
  intro x hx hx'
  obtain ⟨p, hp, -, -, hpname⟩ := h.primary x hx nofun
  exact hname p hp (hpname.trans (of_decide_eq_true hx'))

theorem Sound.newHost (h : Sound lower s) {text normalized : Text}
    (hname : ∀ a ∈ s.aliases, a.normalizedAlias ≠ normalized) (htext : Storable text)
    (hfits : Fits lower normalized) (hnamed : normalizeHostAlias lower text = some normalized) :
    Sound lower ((s.addHost normalized text).2.addAlias s.nextId text normalized true) := by
  have hnew : SoundBut lower (some s.nextId) (s.addHost normalized text).2 := h.addHost htext
  have hnone : ∀ b ∈ s.aliases, b.caseHostId ≠ s.nextId := by
    intro b hb hid
    obtain ⟨x, hx, hx'⟩ := h.owned b hb
    exact (h.host_lt x hx).ne (hx'.trans hid)
  refine (hnew.addAlias ⟨_, List.mem_append_right _ (List.mem_singleton_self _), rfl⟩ hname
    (fun _ b hb hb' => absurd hb' (hnone b hb)) htext hfits hnamed).close fun host hhost hid => ?_
  refine ⟨_, List.mem_append_right _ (List.mem_singleton_self _), rfl, rfl, ?_⟩
  rcases List.mem_append.1 hhost with hold | hnew
  · exact absurd hid (h.host_lt host hold).ne
  · rw [List.mem_singleton.1 hnew]

/-! ### Observed hosts -/

theorem SoundBut.updateAlias_self (h : SoundBut lower skip s) (ha : a ∈ s.aliases) (hf : f a = a) :
    s.updateAlias a.id f = s := by
  have hsame : s.aliases.map (fun x => if x.id = a.id then f x else x) = s.aliases := by
    refine (List.map_congr_left fun x hx => ?_).trans (List.map_id _)
    by_cases hid : x.id = a.id
    · rw [if_pos hid, h.alias_eq_of_id hx ha hid, hf]
      rfl
    · rw [if_neg hid]
      rfl
  rw [Directory.updateAlias, hsame]

/-- The text of an alias that is seen again is the name it was seen under, or stays. -/
theorem mergeAliasValues_text (hfits : Fits lower normalized) :
    (mergeAliasValues normalized a).aliasText = strip normalized ∨
      (mergeAliasValues normalized a).aliasText = a.aliasText := by
  have hne : normalized ≠ [] := normalizeHostAlias_ne_nil hfits.2
  rw [mergeAliasValues, if_neg hne]
  show (if strip normalized = [] then a.aliasText else strip normalized) = _ ∨ _
  split_ifs
  · exact .inr rfl
  · exact .inl rfl

theorem Sound.upsertObservedCaseHost (h : Sound lower s) (hfits : Fits lower normalized) :
    Sound lower (upsertObservedCaseHost s normalized) := by
  rw [Identity.upsertObservedCaseHost]
  rcases hnamed : s.aliasNamed normalized with - | a
  · have hfree := aliasNamed_eq_none.1 hnamed
    show Sound lower ((caseHostUpsert s normalized).2.addAlias _ _ _ _)
    rw [caseHostUpsert, h.canonical_free hfree]
    exact h.newHost hfree hfits.1 hfits hfits.2
  · obtain ⟨ha, rfl⟩ := aliasNamed_some hnamed
    have htext := mergeAliasValues_text (a := a) hfits
    refine h.updateAlias ha rfl rfl
      (fun b hb hne hname => hne (h.alias_eq_of_name hb ha hname)) (h.owned a ha)
      (fun hp b hb howner hbp => h.onePrimary b hb a ha howner hbp hp)
      (fun host _ hskip => ⟨hskip, fun howner hp => ⟨howner, hp, rfl⟩⟩) ?_ hfits ?_
    · rcases htext with htext | htext
      · rw [htext]
        exact hfits.1.strip
      · rw [htext]
        exact h.text a ha
    · rcases htext with htext | htext
      · rw [htext, normalizeHostAlias_strip]
        exact hfits.2
      · rw [htext]
        exact h.named a ha

/-- What an upsert leaves as it was: the hosts there were, and whose an alias is. -/
structure Extends (s t : Directory) : Prop where
  host : ∀ x ∈ s.hosts, ∃ y ∈ t.hosts, y.id = x.id
  owner : ∀ a ∈ s.aliases, ∃ b ∈ t.aliases,
    b.normalizedAlias = a.normalizedAlias ∧ b.caseHostId = a.caseHostId

theorem Extends.refl (s : Directory) : Extends s s :=
  ⟨fun x hx => ⟨x, hx, rfl⟩, fun a ha => ⟨a, ha, rfl, rfl⟩⟩

theorem Extends.trans {s t u : Directory} (hst : Extends s t) (htu : Extends t u) :
    Extends s u := by
  refine ⟨fun x hx => ?_, fun a ha => ?_⟩
  · obtain ⟨y, hy, hyx⟩ := hst.host x hx
    obtain ⟨z, hz, hzy⟩ := htu.host y hy
    exact ⟨z, hz, hzy.trans hyx⟩
  · obtain ⟨b, hb, hname, howner⟩ := hst.owner a ha
    obtain ⟨c, hc, hname', howner'⟩ := htu.owner b hb
    exact ⟨c, hc, hname'.trans hname, howner'.trans howner⟩

theorem Sound.upsert_extends (h : Sound lower s) (normalized : Text) :
    Extends s (Identity.upsertObservedCaseHost s normalized) := by
  rw [Identity.upsertObservedCaseHost]
  rcases hnamed : s.aliasNamed normalized with - | a
  · have hfree := aliasNamed_eq_none.1 hnamed
    show Extends s ((caseHostUpsert s normalized).2.addAlias _ _ _ _)
    rw [caseHostUpsert, h.canonical_free hfree]
    exact ⟨fun x hx => ⟨x, List.mem_append_left _ hx, rfl⟩,
      fun a ha => ⟨a, List.mem_append_left _ ha, rfl, rfl⟩⟩
  · obtain ⟨ha, -⟩ := aliasNamed_some hnamed
    refine ⟨fun x hx => ⟨x, hx, rfl⟩, fun b hb => ?_⟩
    by_cases hba : b = a
    · subst hba
      exact ⟨_, (h.mem_updateAlias hb).2 (.inl rfl), rfl, rfl⟩
    · exact ⟨b, (h.mem_updateAlias ha).2 (.inr ⟨hb, hba⟩), rfl, rfl⟩

theorem Sound.foldl_upsert (h : Sound lower s) {keys : List Text}
    (hfits : ∀ key ∈ keys, Fits lower key) :
    Sound lower (keys.foldl Identity.upsertObservedCaseHost s) ∧
      Extends s (keys.foldl Identity.upsertObservedCaseHost s) := by
  induction keys generalizing s with
  | nil => exact ⟨h, .refl s⟩
  | cons key keys ih =>
    obtain ⟨hkey, hkeys⟩ := List.forall_mem_cons.1 hfits
    obtain ⟨hsound, hext⟩ := ih (h.upsertObservedCaseHost hkey) hkeys
    exact ⟨hsound, (h.upsert_extends key).trans hext⟩

/-- Every observed name that is not known yet fits. -/
def NewNamesFit (lower : Text → Text) (s : Directory) (observed : List Text) : Prop :=
  ∀ key ∈ observedHostCounts lower observed,
    (∀ a ∈ s.aliases, a.normalizedAlias ≠ key) → Fits lower key

instance (lower : Text → Text) (s : Directory) (observed : List Text) :
    Decidable (NewNamesFit lower s observed) :=
  inferInstanceAs (Decidable (∀ key ∈ observedHostCounts lower observed,
    (∀ a ∈ s.aliases, a.normalizedAlias ≠ key) → Fits lower key))

/-- Every observed name is known, and its alias is written as it was observed. -/
def NothingNew (lower : Text → Text) (s : Directory) (observed : List Text) : Prop :=
  ∀ key ∈ observedHostCounts lower observed,
    ∃ a ∈ s.aliases, a.normalizedAlias = key ∧ a.aliasText = strip key

variable {observed : List Text}

theorem Sound.ensureDefault_ok (h : Sound lower s) (hnew : NewNamesFit lower s observed) :
    ∃ t, ensureDefaultCaseHosts lower observed s = (.ok (), t) ∧ Sound lower t ∧ Extends s t := by
  by_cases hnil : observedHostCounts lower observed = []
  · refine ⟨s, atomically_ok ?_, h, .refl s⟩
    rw [if_pos hnil]
  · have hfits : ∀ key ∈ observedHostCounts lower observed, Fits lower key := by
      intro key hkey
      by_cases hfree : ∀ a ∈ s.aliases, a.normalizedAlias ≠ key
      · exact hnew key hkey hfree
      · push Not at hfree
        obtain ⟨a, ha, rfl⟩ := hfree
        exact h.fits a ha
    obtain ⟨hsound, hext⟩ := h.foldl_upsert hfits
    refine ⟨_, atomically_ok ?_, hsound, hext⟩
    rw [if_neg hnil, hsound.flush_eq]

/-- Nothing is written when nothing is new. -/
theorem Sound.ensureDefault_nothing (h : Sound lower s) (hnothing : NothingNew lower s observed) :
    ensureDefaultCaseHosts lower observed s = (.ok (), s) := by
  have hsame : ∀ keys : List Text, (∀ key ∈ keys,
      ∃ a ∈ s.aliases, a.normalizedAlias = key ∧ a.aliasText = strip key) →
      keys.foldl Identity.upsertObservedCaseHost s = s := by
    intro keys hkeys
    induction keys with
    | nil => rfl
    | cons key keys ih =>
      obtain ⟨⟨a, ha, rfl, htext⟩, hrest⟩ := List.forall_mem_cons.1 hkeys
      have hself : mergeAliasValues a.normalizedAlias a = a := by
        have hmerged := mergeAliasValues_text (a := a) (h.fits a ha)
        rw [← htext, or_self] at hmerged
        show { a with aliasText := (mergeAliasValues a.normalizedAlias a).aliasText } = a
        rw [hmerged]
      rw [List.foldl_cons, Identity.upsertObservedCaseHost, h.aliasNamed_eq ha]
      show keys.foldl _ (s.updateAlias a.id _) = s
      rw [h.updateAlias_self ha hself]
      exact ih hrest
  refine atomically_ok ?_
  split_ifs
  · rfl
  · rw [hsame _ hnothing, h.flush_eq]

/-! ### Merging -/

/-- An alias is given to another host, before the host it came from is looked at. -/
theorem Sound.reassign (h : Sound lower s) (ha : a ∈ s.aliases) {B : ℕ}
    (hB : ∃ x ∈ s.hosts, x.id = B) :
    SoundBut lower (some a.caseHostId)
      (s.updateAlias a.id fun b => { b with caseHostId := B, isPrimary := false }) :=
  h.updateAlias ha rfl rfl (fun _ hb hne hname => hne (h.alias_eq_of_name hb ha hname)) hB
    nofun (fun _ _ hskip => ⟨nofun, fun howner _ => absurd (congrArg some howner) hskip⟩)
    (h.text a ha) (h.fits a ha) (h.named a ha)

theorem aliasesOf_eq_nil {B : ℕ} :
    s.aliasesOf B = [] ↔ B ∉ s.aliases.map CaseHostAlias.caseHostId := by
  rw [Directory.aliasesOf, List.filter_eq_nil_iff, List.mem_map]
  simp

theorem moveAlias_of_named {B : ℕ} {unflushed : List ℕ} {aliasName : Text}
    (hnamed : (normalizeHostAlias lower aliasName).bind s.aliasNamed = some a) {t : Directory}
    (ht : (s.updateAlias a.id fun b => { b with caseHostId := B, isPrimary := false }) = t) :
    moveAlias lower B (s, unflushed) aliasName =
      if a.caseHostId = B ∧ a.id ∉ unflushed then (s, unflushed)
      else if (t.ensurePrimaryAlias a.caseHostId).aliasesOf a.caseHostId = [] then
        ((t.ensurePrimaryAlias a.caseHostId).dropHost a.caseHostId, [])
      else (t.ensurePrimaryAlias a.caseHostId, a.id :: unflushed) := by
  rw [moveAlias, hnamed, ← ht]

variable {st : Directory × List ℕ}

theorem Sound.moveAlias {B : ℕ} (h : Sound lower st.1)
    (hB : B ∈ st.1.hosts.map CaseHost.id) (aliasName : Text) :
    Sound lower (moveAlias lower B st aliasName).1 ∧
      B ∈ (Identity.moveAlias lower B st aliasName).1.hosts.map CaseHost.id := by
  obtain ⟨s, unflushed⟩ := st
  rcases hnamed : (normalizeHostAlias lower aliasName).bind s.aliasNamed with - | a
  · rw [Identity.moveAlias, hnamed]
    exact ⟨h, hB⟩
  obtain ⟨normalized, -, hfound⟩ := Option.bind_eq_some_iff.1 hnamed
  obtain ⟨ha, -⟩ := aliasNamed_some hfound
  obtain ⟨t, ht⟩ : ∃ t, (s.updateAlias a.id fun b =>
    { b with caseHostId := B, isPrimary := false }) = t := ⟨_, rfl⟩
  have hmoved : SoundBut lower (some a.caseHostId) t :=
    ht ▸ Sound.reassign h ha (List.mem_map.1 hB)
  -- the moved alias itself is one of the aliases of `B`
  have hself : B ∈ t.aliases.map CaseHostAlias.caseHostId :=
    ht ▸ List.mem_map.2 ⟨_, (SoundBut.mem_updateAlias h ha).2 (.inl rfl), rfl⟩
  have hids : t.hosts = s.hosts := ht ▸ rfl
  obtain ⟨hhosts, howners⟩ := ids_ensurePrimaryAlias t a.caseHostId
  rw [moveAlias_of_named hnamed ht]
  by_cases hskip : a.caseHostId = B ∧ a.id ∉ unflushed
  · rw [if_pos hskip]
    exact ⟨h, hB⟩
  rw [if_neg hskip]
  by_cases hnil : t.aliasesOf a.caseHostId = []
  · -- the host it came from goes
    rw [ensurePrimaryAlias_nil hnil, if_pos hnil]
    refine ⟨hmoved.dropHost, ?_⟩
    obtain ⟨x, hx, rfl⟩ := List.mem_map.1 hB
    refine List.mem_map_of_mem (List.mem_filter.2 ⟨hids ▸ hx, decide_eq_true fun heq => ?_⟩)
    exact aliasesOf_eq_nil.1 hnil (heq ▸ hself)
  · rw [if_neg fun hnil' => hnil (aliasesOf_eq_nil.2 (howners ▸ aliasesOf_eq_nil.1 hnil'))]
    refine ⟨hmoved.ensurePrimaryAlias hnil, ?_⟩
    show B ∈ (t.ensurePrimaryAlias a.caseHostId).hosts.map CaseHost.id
    rw [hhosts, hids]
    exact hB

theorem Sound.foldl_moveAlias {B : ℕ} (h : Sound lower st.1)
    (hB : B ∈ st.1.hosts.map CaseHost.id) (names : List Text) :
    Sound lower (names.foldl (Identity.moveAlias lower B) st).1 := by
  induction names generalizing st with
  | nil => exact h
  | cons name names ih =>
    obtain ⟨hsound, hmem⟩ := Sound.moveAlias h hB name
    exact ih hsound hmem

theorem Sound.mergeHosts_ok (h : Sound lower s) {B : ℕ}
    (hnew : NewNamesFit lower s observed) (hB : ∃ x ∈ s.hosts, x.id = B)
    (names : List Text) :
    ∃ t, mergeHosts lower observed B names s = (.ok (), t) ∧ Sound lower t := by
  obtain ⟨t, hensure, ht, hext⟩ := h.ensureDefault_ok hnew
  obtain ⟨x, hx, rfl⟩ := hB
  obtain ⟨y, hy, hyx⟩ := hext.host x hx
  rcases hfound : t.host? x.id with - | z
  · exact absurd ⟨y, hy, hyx⟩ (host?_eq_none.1 hfound)
  obtain ⟨hz, hzx⟩ := host?_some hfound
  have hstart : Sound lower (t, ([] : List ℕ)).1 := ht
  have hmoved := Sound.foldl_moveAlias hstart (List.mem_map_of_mem hz) names
  have hfinal := Sound.ensurePrimaryAlias hmoved z.id
  refine ⟨_, (andThen_ok hensure).trans (atomically_ok ?_), hfinal⟩
  rw [hfound]
  exact hfinal.flush_eq

theorem Sound.mergeHosts_missing (h : Sound lower s) {B : ℕ}
    (hnothing : NothingNew lower s observed) (hB : ¬ ∃ x ∈ s.hosts, x.id = B)
    (names : List Text) :
    mergeHosts lower observed B names s = (.error (.valueError "Canonical host not found"), s) := by
  refine (andThen_ok (h.ensureDefault_nothing hnothing)).trans (atomically_error (t := s) ?_)
  rw [host?_eq_none.2 hB]
  rfl

/-! ### Splitting, renaming, deleting, creating -/

theorem Sound.splitAlias_ok (h : Sound lower s) {aliasId : ℕ}
    (hfound : (s.aliases.find? fun a => a.id = aliasId) = some a) (hsecond : a.isPrimary = false) :
    ∃ t, splitAlias aliasId s = (.ok (), t) ∧ Sound lower t := by
  have ha : a ∈ s.aliases := List.mem_of_find?_eq_some hfound
  have hflush : flush (s.addHost a.normalizedAlias a.aliasText).2 =
      (.ok (), (s.addHost a.normalizedAlias a.aliasText).2) := by
    refine h.flush_addHost (h.fits a ha).1 (h.text a ha) fun b hb hprimary hname => ?_
    rw [h.alias_eq_of_name hb ha hname, hsecond] at hprimary
    cases hprimary
  have hnew : SoundBut lower (some s.nextId) (s.addHost a.normalizedAlias a.aliasText).2 :=
    h.addHost (h.text a ha)
  have hnone : ∀ b ∈ s.aliases, b.caseHostId ≠ s.nextId := by
    intro b hb hid
    obtain ⟨x, hx, hx'⟩ := h.owned b hb
    exact (h.host_lt x hx).ne (hx'.trans hid)
  have hgiven : SoundBut lower (some s.nextId)
      ((s.addHost a.normalizedAlias a.aliasText).2.updateAlias a.id fun b =>
        { b with caseHostId := s.nextId, isPrimary := true }) := by
    refine hnew.updateAlias ha rfl rfl
      (fun _ hb hne hname => hne (h.alias_eq_of_name hb ha hname))
      ⟨_, List.mem_append_right _ (List.mem_singleton_self _), rfl⟩
      (fun _ b hb hb' => absurd hb' (hnone b hb)) (fun _ _ hskip => ⟨hskip, fun _ hp => ?_⟩)
      (h.text a ha) (h.fits a ha) (h.named a ha)
    rw [hsecond] at hp
    cases hp
  have hclosed := hgiven.close fun x hx hid => by
    refine ⟨_, (hnew.mem_updateAlias ha).2 (.inl rfl), rfl, rfl, ?_⟩
    rcases List.mem_append.1 hx with hold | hx
    · exact absurd hid (h.host_lt x hold).ne
    · rw [List.mem_singleton.1 hx]
  have hfinal := Sound.ensurePrimaryAlias hclosed a.caseHostId
  refine ⟨_, atomically_ok ?_, hfinal⟩
  rw [hfound]
  show (if a.isPrimary = true then _ else _) = _
  rw [hsecond, if_neg nofun]
  exact (andThen_ok hflush).trans hfinal.flush_eq

/-- The aliases of a host after a rename, before the host is called by the new name. -/
theorem Sound.renamePrimary (h : Sound lower s) {B : ℕ} (hB : ∃ x ∈ s.hosts, x.id = B)
    {newName normalized : Text} (htext : Storable newName) (hfits : Fits lower normalized)
    (hnamed : normalizeHostAlias lower newName = some normalized)
    (hfree : ∀ a ∈ s.aliases, a.normalizedAlias = normalized →
      a.caseHostId = B ∧ a.isPrimary = true) :
    SoundBut lower (some B) (renamePrimary s B newName normalized) ∧
      ∃ a ∈ (renamePrimary s B newName normalized).aliases, a.caseHostId = B ∧
        a.isPrimary = true ∧ a.normalizedAlias = normalized ∧ a.aliasText = newName := by
  obtain ⟨x, hx, rfl⟩ := hB
  rw [Identity.renamePrimary]
  rcases hfind : (s.aliasesOf x.id).find? CaseHostAlias.isPrimary with - | p
  · obtain ⟨q, hq, howner, hprimary, -⟩ := h.primary x hx nofun
    exact absurd hprimary (List.find?_eq_none.1 hfind q (mem_aliasesOf.2 ⟨hq, howner⟩))
  have hprimary : p.isPrimary = true := List.find?_some hfind
  obtain ⟨hp, howner⟩ := mem_aliasesOf.1 (List.mem_of_find?_eq_some hfind)
  obtain ⟨t, ht⟩ : ∃ t, (s.updateAlias p.id fun a =>
    { a with aliasText := newName, normalizedAlias := normalized }) = t := ⟨_, rfl⟩
  have hmem : ∀ {b}, b ∈ t.aliases ↔
      b = { p with aliasText := newName, normalizedAlias := normalized } ∨
        (b ∈ s.aliases ∧ b ≠ p) := ht ▸ h.mem_updateAlias hp
  have hsound : SoundBut lower (some x.id) t := by
    rw [← ht]
    refine h.updateAlias hp rfl rfl (fun b hb hne hname => ?_) (h.owned p hp)
      (fun _ b hb hb' hbp => h.onePrimary b hb p hp hb' hbp hprimary)
      (fun y _ hskip => ⟨nofun, fun hy _ => ?_⟩) htext hfits hnamed
    · obtain ⟨hb', hbp⟩ := hfree b hb hname
      exact hne (h.onePrimary b hb p hp (hb'.trans howner.symm) hbp hprimary)
    · exact absurd (congrArg some (howner.symm.trans hy)) hskip
  have hself : ∃ a ∈ t.aliases, a.caseHostId = x.id ∧ a.isPrimary = true ∧
      a.normalizedAlias = normalized ∧ a.aliasText = newName :=
    ⟨_, hmem.2 (.inl rfl), howner, hprimary, rfl, rfl⟩
  show SoundBut lower _ (ite _ _ _) ∧ ∃ a ∈ (ite _ _ _ : Directory).aliases, _
  rw [ht]
  split_ifs with hold
  · -- the name it had becomes a second alias
    refine ⟨hsound.addAlias ⟨x, ht ▸ hx, rfl⟩ (fun b hb hname => ?_) nofun (h.text p hp)
      (h.fits p hp) (h.named p hp), ?_⟩
    · rcases hmem.1 hb with rfl | ⟨hb, hne⟩
      · exact hold.1 hname.symm
      · exact hne (h.alias_eq_of_name hb hp hname)
    · obtain ⟨a, ha, hrest⟩ := hself
      exact ⟨a, List.mem_append_left _ ha, hrest⟩
  · exact ⟨hsound, hself⟩

theorem Sound.renameCanonicalHost_ok (h : Sound lower s) {B : ℕ} (hB : ∃ x ∈ s.hosts, x.id = B)
    {newName normalized : Text} (htext : Storable (strip newName)) (hfits : Fits lower normalized)
    (hnamed : normalizeHostAlias lower newName = some normalized)
    (hfree : ∀ a ∈ s.aliases, a.normalizedAlias = normalized →
      a.caseHostId = B ∧ a.isPrimary = true) :
    ∃ t, renameCanonicalHost lower B newName s = (.ok (), t) ∧ Sound lower t := by
  rcases hfound : s.host? B with - | x
  · exact absurd hB (host?_eq_none.1 hfound)
  obtain ⟨-, rfl⟩ := host?_some hfound
  obtain ⟨hrenamed, a, ha, howner, hprimary, hname, htext'⟩ :=
    h.renamePrimary hB htext hfits (by rw [normalizeHostAlias_strip, hnamed]) hfree
  have hfinal := hrenamed.updateHost ha howner hprimary (f := fun x =>
    { x with canonicalName := normalized, displayName := strip newName }) fun y => by
      rw [hname, htext']
  refine ⟨_, atomically_ok ?_, hfinal⟩
  rw [hnamed, hfound]
  show (if _ then _ else _) = _
  rw [if_neg fun ⟨b, hb, hbname, hbowner⟩ => hbowner (hfree b hb hbname).1]
  exact hfinal.flush_eq

theorem Sound.dropHost_ok (h : Sound lower s) (B : ℕ) :
    Sound lower (s.dropHost B) ∧ flush (s.dropHost B) = (.ok (), s.dropHost B) :=
  ⟨(h.but B).dropHost, ((h.but B).dropHost).flush_eq⟩

variable {isAlnum : Char → Bool} {hostName displayName normalized : Text}

theorem manualName_ok (h : manualName lower isAlnum hostName = .ok (displayName, normalized)) :
    normalizeHostAlias lower displayName = some normalized := by
  rw [manualName] at h
  rcases hname : normalizeHostAlias lower (strip hostName) with - | k
  · rw [hname] at h
    cases h
  · rw [hname] at h
    simp only at h
    split_ifs at h
    obtain ⟨rfl, rfl⟩ := Prod.mk.inj (Except.ok.inj h)
    exact hname

theorem manualName_error {hostName : Text} {message : String}
    (h : manualName lower isAlnum hostName = .error message) :
    message ∈ ["Host name is required", "Host name is too long",
      "Host name contains unsupported characters"] := by
  rw [manualName] at h
  rcases hname : normalizeHostAlias lower (strip hostName) with - | k
  · rw [hname] at h
    rw [← Except.error.inj h]
    exact .head _
  · rw [hname] at h
    simp only at h
    split_ifs at h
    all_goals
      rw [← Except.error.inj h]
      simp

theorem Sound.createManualCaseHost_ok (h : Sound lower s)
    (hname : manualName lower isAlnum hostName = .ok (displayName, normalized))
    (hfits : (∀ a ∈ s.aliases, a.normalizedAlias ≠ normalized) →
      Storable displayName ∧ Fits lower normalized) :
    ∃ r t, createManualCaseHost lower isAlnum hostName s = (.ok r, t) ∧ Sound lower t := by
  rcases hnamed : s.aliasNamed normalized with - | a
  · have hfree := aliasNamed_eq_none.1 hnamed
    obtain ⟨hdisplay, hfits⟩ := hfits hfree
    have hfinal := h.newHost hfree hdisplay hfits (manualName_ok hname)
    have hflush := h.flush_addHost hfits.1 hdisplay fun a ha _ => hfree a ha
    refine ⟨(s.nextId, true), _, atomically_ok ?_, hfinal⟩
    rw [hname]
    show (match s.aliasNamed normalized with | some a => _ | none => _) = _
    rw [hnamed, h.canonical_free hfree]
    exact (andThen_ok hflush).trans (andThen_ok hfinal.flush_eq)
  · refine ⟨(a.caseHostId, false), s, atomically_ok ?_, h⟩
    rw [hname]
    show (match s.aliasNamed normalized with | some a => _ | none => _) = _
    rw [hnamed]

/-- The order of the rows says nothing. -/
theorem Sound.reorder (h : Sound lower s) {t : Directory} (hhosts : t.hosts.Perm s.hosts)
    (haliases : t.aliases.Perm s.aliases) (hnext : t.nextId = s.nextId) : Sound lower t where
  hosts := (hhosts.map _).nodup_iff.2 h.hosts
  ids := (haliases.map _).nodup_iff.2 h.ids
  names := (haliases.map _).nodup_iff.2 h.names
  owned a ha := by
    obtain ⟨x, hx, hid⟩ := h.owned a (haliases.mem_iff.1 ha)
    exact ⟨x, hhosts.mem_iff.2 hx, hid⟩
  primary x hx _ := by
    obtain ⟨a, ha, hrest⟩ := h.primary x (hhosts.mem_iff.1 hx) nofun
    exact ⟨a, haliases.mem_iff.2 ha, hrest⟩
  onePrimary a ha b hb := h.onePrimary a (haliases.mem_iff.1 ha) b (haliases.mem_iff.1 hb)
  host_lt x hx := hnext ▸ h.host_lt x (hhosts.mem_iff.1 hx)
  alias_lt a ha := hnext ▸ h.alias_lt a (haliases.mem_iff.1 ha)
  display x hx := h.display x (hhosts.mem_iff.1 hx)
  text a ha := h.text a (haliases.mem_iff.1 ha)
  fits a ha := h.fits a (haliases.mem_iff.1 ha)
  named a ha := h.named a (haliases.mem_iff.1 ha)

end Invariant

/-! ### Runs -/

/-- The operations on a case.  Every lookup stores what was observed until then. -/
inductive Op
  | observe (observed : List Text)
  | create (hostName : Text)
  | merge (observed : List Text) (canonicalHostId : ℕ) (aliases : List Text)
  | split (aliasId : ℕ)
  | rename (hostId : ℕ) (newName : Text)
  | delete (hostId : ℕ) (evidences : List Text) (targetHostId : Option ℕ)

/-- The `ValueError`s of an operation. -/
def Op.documented : Op → List String
  | .observe _ => []
  | .create _ => ["Host name is required", "Host name is too long",
      "Host name contains unsupported characters"]
  | .merge .. => ["Canonical host not found"]
  | .split _ => ["Alias not found", "Primary alias cannot be split from its own host"]
  | .rename .. => ["New canonical host name is empty", "Host not found",
      "New canonical host name already belongs to another host"]
  | .delete .. => ["Host not found", "This host has evidence assigned. " ++
      "Move its evidence to another host before deleting, or cancel.",
      "Target host not found in this case",
      "Target host must be different from the host being deleted"]

section Runs

variable (lower : Text → Text) (isAlnum : Char → Bool)

def Op.work : Op → Work Directory Failure Unit
  | .observe observed => ensureDefaultCaseHosts lower observed
  | .create hostName =>
    andThen (createManualCaseHost lower isAlnum hostName) fun _ s => (.ok (), s)
  | .merge observed canonicalHostId aliases => mergeHosts lower observed canonicalHostId aliases
  | .split aliasId => splitAlias aliasId
  | .rename hostId newName => renameCanonicalHost lower hostId newName
  | .delete hostId evidences targetHostId => deleteCaseHost hostId evidences targetHostId

/-- What an operation promises: it leaves a partition, or raises one of its errors and
changes nothing; and a rename to a name that is no other host's alias succeeds. -/
structure Promised (s : Directory) (op : Op) : Prop where
  outcome : (∃ t, op.work lower isAlnum s = (.ok (), t) ∧ Partition t) ∨
    ∃ message ∈ op.documented, op.work lower isAlnum s = (.error (.valueError message), s)
  rename : ∀ hostId newName normalized, op = .rename hostId newName →
    normalizeHostAlias lower newName = some normalized → (∃ x ∈ s.hosts, x.id = hostId) →
    (∀ a ∈ s.aliases, a.normalizedAlias = normalized → a.caseHostId = hostId) →
    ∃ t, op.work lower isAlnum s = (.ok (), t)

/-- Whatever was observed since, an alias is resolved to its host: the alias as it is
shown, its normalized form, and everything that normalizes to it. -/
def Resolves (s : Directory) : Prop :=
  ∀ observed, NewNamesFit lower s observed → ∀ a ∈ s.aliases, ∀ name,
    name = a.aliasText ∨ name = a.normalizedAlias ∨
      normalizeHostAlias lower name = some a.normalizedAlias →
    ∃ x t, resolveCanonicalHost lower observed name s = (.ok (some x), t) ∧
      x ∈ t.hosts ∧ x.id = a.caseHostId

/-- New names fit, a merge without its host has nothing to store, and no host is
renamed to a second alias of its own. -/
def Careful (s : Directory) : Op → Prop
  | .observe observed => NewNamesFit lower s observed
  | .create hostName => ∀ displayName normalized,
      manualName lower isAlnum hostName = .ok (displayName, normalized) →
      (∀ a ∈ s.aliases, a.normalizedAlias ≠ normalized) →
      Storable displayName ∧ Fits lower normalized
  | .merge observed canonicalHostId _ => NewNamesFit lower s observed ∧
      ((∃ x ∈ s.hosts, x.id = canonicalHostId) ∨ NothingNew lower s observed)
  | .split _ => True
  | .rename hostId newName => ∀ normalized, normalizeHostAlias lower newName = some normalized →
      (∃ x ∈ s.hosts, x.id = hostId) →
      (∀ a ∈ s.aliases, a.normalizedAlias = normalized → a.caseHostId = hostId) →
      Storable (strip newName) ∧ Fits lower normalized ∧
        ∀ a ∈ s.aliases, a.normalizedAlias = normalized → a.isPrimary = true
  | .delete .. => True

/-- The tables after a run of such operations; between them the database may return
its rows in any order. -/
inductive Reached : Directory → Prop
  | empty : Reached ⟨[], [], 0⟩
  | step {s : Directory} (h : Reached s) (op : Op) (hcareful : Careful lower isAlnum s op) :
      Reached (op.work lower isAlnum s).2
  | reorder {s t : Directory} (h : Reached s) (hhosts : t.hosts.Perm s.hosts)
      (haliases : t.aliases.Perm s.aliases) (hnext : t.nextId = s.nextId) : Reached t

end Runs

section Main

variable {lower : Text → Text} {isAlnum : Char → Bool} {s : Directory}

theorem Sound.rename_ok (h : Sound lower s) {hostId : ℕ} {newName normalized : Text}
    (hcareful : Careful lower isAlnum s (.rename hostId newName))
    (hname : normalizeHostAlias lower newName = some normalized)
    (hhost : ∃ x ∈ s.hosts, x.id = hostId)
    (hfree : ∀ a ∈ s.aliases, a.normalizedAlias = normalized → a.caseHostId = hostId) :
    ∃ t, renameCanonicalHost lower hostId newName s = (.ok (), t) ∧ Sound lower t := by
  obtain ⟨htext, hfits, hprimary⟩ := hcareful normalized hname hhost hfree
  exact h.renameCanonicalHost_ok hhost htext hfits hname fun a ha hname' =>
    ⟨hfree a ha hname', hprimary a ha hname'⟩

theorem raises {w : Work Directory Failure Unit} {message : String}
    (h : w s = raise message s) :
    atomically w s = (.error (.valueError message), s) :=
  atomically_error h

theorem Sound.split_outcome (h : Sound lower s) (aliasId : ℕ) :
    (∃ t, splitAlias aliasId s = (.ok (), t) ∧ Sound lower t) ∨
      ∃ message ∈ (Op.split aliasId).documented,
        splitAlias aliasId s = (.error (.valueError message), s) := by
  rw [Op.documented]
  rcases hfound : s.aliases.find? fun a => a.id = aliasId with - | a
  · refine .inr ⟨"Alias not found", by simp, raises ?_⟩
    rw [hfound]
  by_cases hprimary : a.isPrimary = true
  · refine .inr ⟨"Primary alias cannot be split from its own host", by simp, raises ?_⟩
    rw [hfound]
    exact if_pos hprimary
  · exact .inl (h.splitAlias_ok hfound (Bool.eq_false_of_not_eq_true hprimary))

theorem Sound.rename_outcome (h : Sound lower s) {hostId : ℕ} {newName : Text}
    (hcareful : Careful lower isAlnum s (.rename hostId newName)) :
    (∃ t, renameCanonicalHost lower hostId newName s = (.ok (), t) ∧ Sound lower t) ∨
      ∃ message ∈ (Op.rename hostId newName).documented,
        renameCanonicalHost lower hostId newName s = (.error (.valueError message), s) := by
  rw [Op.documented]
  rcases hname : normalizeHostAlias lower newName with - | normalized
  · refine .inr ⟨"New canonical host name is empty", by simp, raises ?_⟩
    rw [hname]
  rcases hfound : s.host? hostId with - | x
  · refine .inr ⟨"Host not found", by simp, raises ?_⟩
    rw [hname, hfound]
  obtain ⟨hx, hid⟩ := host?_some hfound
  by_cases hfree : ∀ a ∈ s.aliases, a.normalizedAlias = normalized → a.caseHostId = hostId
  · exact .inl (h.rename_ok hcareful hname ⟨x, hx, hid⟩ hfree)
  · push Not at hfree
    obtain ⟨a, ha, hname', howner⟩ := hfree
    refine .inr ⟨"New canonical host name already belongs to another host", by simp, raises ?_⟩
    rw [hname, hfound]
    exact if_pos ⟨a, ha, hname', hid ▸ howner⟩

theorem Sound.delete_outcome (h : Sound lower s) (hostId : ℕ) (evidences : List Text)
    (targetHostId : Option ℕ) :
    (∃ t, deleteCaseHost hostId evidences targetHostId s = (.ok (), t) ∧ Sound lower t) ∨
      ∃ message ∈ (Op.delete hostId evidences targetHostId).documented,
        deleteCaseHost hostId evidences targetHostId s = (.error (.valueError message), s) := by
  rw [Op.documented]
  rcases hfound : s.host? hostId with - | x
  · refine .inr ⟨"Host not found", by simp, raises ?_⟩
    rw [hfound]
  obtain ⟨hsound, hflush⟩ := h.dropHost_ok x.id
  by_cases hnil : evidences = []
  · refine .inl ⟨_, atomically_ok ?_, hsound⟩
    rw [hfound]
    exact (if_pos hnil).trans hflush
  rcases targetHostId with - | targetId
  · refine .inr ⟨_, .tail _ (.head _), raises ?_⟩
    rw [hfound]
    exact if_neg hnil
  rcases htarget : s.host? targetId with - | target
  · refine .inr ⟨"Target host not found in this case", by simp, raises ?_⟩
    rw [hfound]
    refine (if_neg hnil).trans ?_
    show (match s.host? targetId with | none => _ | some target => _) = _
    rw [htarget]
  by_cases hsame : target.id = x.id
  · refine .inr ⟨"Target host must be different from the host being deleted", by simp, raises ?_⟩
    rw [hfound]
    refine (if_neg hnil).trans ?_
    show (match s.host? targetId with | none => _ | some target => _) = _
    rw [htarget]
    exact if_pos hsame
  · refine .inl ⟨_, atomically_ok ?_, hsound⟩
    rw [hfound]
    refine (if_neg hnil).trans ?_
    show (match s.host? targetId with | none => _ | some target => _) = _
    rw [htarget]
    exact (if_neg hsame).trans hflush

/-- One operation. -/
theorem Sound.outcome (h : Sound lower s) (op : Op) (hcareful : Careful lower isAlnum s op) :
    (∃ t, op.work lower isAlnum s = (.ok (), t) ∧ Sound lower t) ∨
      ∃ message ∈ op.documented, op.work lower isAlnum s = (.error (.valueError message), s) := by
  cases op with
  | observe observed =>
    obtain ⟨t, hrun, ht, -⟩ := h.ensureDefault_ok hcareful
    exact .inl ⟨t, hrun, ht⟩
  | create hostName =>
    rcases hname : manualName lower isAlnum hostName with message | ⟨displayName, normalized⟩
    · refine .inr ⟨message, manualName_error hname, andThen_error (atomically_error (t := s) ?_)⟩
      rw [hname]
      rfl
    · obtain ⟨r, t, hrun, ht⟩ :=
        h.createManualCaseHost_ok hname (hcareful displayName normalized hname)
      exact .inl ⟨t, andThen_ok hrun, ht⟩
  | merge observed canonicalHostId aliases =>
    obtain ⟨hnew, hhost⟩ := hcareful
    by_cases hB : ∃ x ∈ s.hosts, x.id = canonicalHostId
    · exact .inl (h.mergeHosts_ok hnew hB aliases)
    · exact .inr ⟨_, List.mem_singleton_self _,
        h.mergeHosts_missing (hhost.resolve_left hB) hB aliases⟩
  | split aliasId => exact h.split_outcome aliasId
  | rename hostId newName => exact h.rename_outcome hcareful
  | delete hostId evidences targetHostId => exact h.delete_outcome hostId evidences targetHostId

theorem Sound.promised (h : Sound lower s) (op : Op) (hcareful : Careful lower isAlnum s op) :
    Promised lower isAlnum s op := by
  refine ⟨(h.outcome op hcareful).imp_left fun ⟨t, hrun, ht⟩ => ⟨t, hrun, ht.isPartition⟩, ?_⟩
  rintro hostId newName normalized rfl hname hhost hfree
  obtain ⟨t, hrun, -⟩ := h.rename_ok hcareful hname hhost hfree
  exact ⟨t, hrun⟩

theorem Sound.resolves (h : Sound lower s) : Resolves lower s := by
  intro observed hnew a ha name hname
  have hnormal : normalizeHostAlias lower name = some a.normalizedAlias := by
    rcases hname with rfl | rfl | hname
    · exact h.named a ha
    · exact (h.fits a ha).2
    · exact hname
  obtain ⟨t, hensure, ht, hext⟩ := h.ensureDefault_ok hnew
  obtain ⟨b, hb, hbname, hbowner⟩ := hext.owner a ha
  obtain ⟨y, hy, hyid⟩ := ht.owned b hb
  rcases hfound : t.host? b.caseHostId with - | x
  · exact absurd ⟨y, hy, hyid⟩ (host?_eq_none.1 hfound)
  obtain ⟨hx, hxid⟩ := host?_some hfound
  refine ⟨x, t, ?_, hx, hxid.trans hbowner⟩
  rw [resolveCanonicalHost, hnormal]
  refine (andThen_ok hensure).trans ?_
  rw [← hbname, ht.aliasNamed_eq hb, Option.bind_some, hfound]

theorem sound_empty : Sound lower ⟨[], [], 0⟩ := by
  refine ⟨List.nodup_nil, List.nodup_nil, List.nodup_nil, ?_, ?_, ?_, ?_, ?_, ?_, ?_, ?_, ?_⟩
  all_goals exact fun _ h => absurd h List.not_mem_nil

theorem Reached.sound (h : Reached lower isAlnum s) : Sound lower s := by
  induction h with
  | empty => exact sound_empty
  | step _ op hcareful ih =>
    rcases ih.outcome op hcareful with ⟨t, hrun, ht⟩ | ⟨message, -, hrun⟩
    · rw [hrun]
      exact ht
    · rw [hrun]
      exact ih
  | reorder _ hhosts haliases hnext ih => exact ih.reorder hhosts haliases hnext

/-- **The names stay a partition along every careful run**: in each state it reaches
the tables are a partition, every alias is resolved to its host, and the next careful
operation does what it promises. -/
theorem Reached.partition (h : Reached lower isAlnum s) : Partition s ∧ Resolves lower s ∧
      ∀ op, Careful lower isAlnum s op → Promised lower isAlnum s op :=
  ⟨h.sound.isPartition, h.sound.resolves, fun op => h.sound.promised op⟩

/-! #### Two names of one machine -/

/-- `str.lower` of an ASCII text. -/
def lowerAscii (text : Text) : Text := text.map Char.toLower

def pc01 : Text := ['p', 'c', '0', '1']

def pc02 : Text := ['p', 'c', '0', '2']

def twoSeen : Op := .observe [pc01, pc02]

def together : Op := .merge [pc01, pc02] 0 [pc02]

/-- The tables after two observed hosts were merged. -/
def mergedTables : Directory :=
  (together.work lowerAscii Char.isAlphanum
    (twoSeen.work lowerAscii Char.isAlphanum ⟨[], [], 0⟩).2).2

theorem reached_mergedTables : Reached lowerAscii Char.isAlphanum mergedTables := by
  refine .step (.step .empty twoSeen ?_) together ?_
  · show NewNamesFit lowerAscii _ _
    decide +kernel
  · refine ⟨?_, .inl ?_⟩
    · decide +kernel
    · decide +kernel

/-- The merge is kept, and the host may be renamed to a third name. -/
theorem merged_and_renamed : Partition mergedTables ∧ Resolves lowerAscii mergedTables ∧
    Promised lowerAscii Char.isAlphanum mergedTables (.rename 0 ['p', 'c']) := by
  have h := reached_mergedTables
  obtain ⟨hpartition, hresolves, hpromised⟩ := Reached.partition h
  refine ⟨hpartition, hresolves, hpromised _ ?_⟩
  intro normalized hname _ _
  have hnormal : normalizeHostAlias lowerAscii ['p', 'c'] = some ['p', 'c'] := by decide +kernel
  obtain rfl := Option.some.inj (hnormal.symm.trans hname)
  decide +kernel

/-- **The host cannot be renamed to its own second alias**: no other host has the
name, and the database refuses it. -/
theorem second_alias_refused : Reached lowerAscii Char.isAlphanum mergedTables ∧
    ¬ Promised lowerAscii Char.isAlphanum mergedTables (.rename 0 pc02) := by
  refine ⟨reached_mergedTables, fun h => ?_⟩
  obtain ⟨t, ht⟩ := h.rename 0 pc02 pc02 rfl (by decide +kernel) (by decide +kernel)
    (by decide +kernel)
  have hfails : (Op.rename 0 pc02).work lowerAscii Char.isAlphanum mergedTables =
      (.error .integrityError, mergedTables) := by decide +kernel
  rw [hfails] at ht
  cases ht

end Main

end Kairon.Identity
