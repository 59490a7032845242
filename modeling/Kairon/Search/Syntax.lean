/-
Kairon/Search/Syntax.lean

The data of the event search language (`search/query_syntax.py`): the fields
that can be searched, the tokens, the syntax tree, and the errors.

Text is a list of characters, so that the scanner can be read as the source
has it.  Field names are resolved through two tables, aliases first; an alias
stands for one or more indexed fields.
-/
import Mathlib.Data.List.Basic
import Mathlib.Data.List.DropRight

namespace Kairon.Search

abbrev Text := List Char

instance : LawfulBEq Text := inferInstanceAs (LawfulBEq (List Char))

/-- `str.isspace` of one character. -/
def isSpace (c : Char) : Bool :=
  (9 ≤ c.toNat && c.toNat ≤ 13) || (28 ≤ c.toNat && c.toNat ≤ 32) ||
  (8192 ≤ c.toNat && c.toNat ≤ 8202) ||
  c.toNat ∈ [133, 160, 5760, 8232, 8233, 8239, 8287, 12288]

/-- `str.strip`. -/
def strip (s : Text) : Text :=
  ((s.dropWhile isSpace).reverse.dropWhile isSpace).reverse

theorem strip_sublist (s : Text) : (strip s).Sublist s := by
  have hreverse := List.reverse_sublist.2
    (List.dropWhile_sublist isSpace (l := (s.dropWhile isSpace).reverse))
  rw [List.reverse_reverse] at hreverse
  exact hreverse.trans (List.dropWhile_sublist isSpace)

theorem dropWhile_of_prefix {p : Char → Bool} {l t : Text} (hl : l.dropWhile p = l)
    (ht : t <+: l) : t.dropWhile p = t := by
  rw [List.dropWhile_eq_self_iff] at hl ⊢
  intro hpos
  rw [ht.getElem hpos]
  exact hl (hpos.trans_le ht.length_le)

theorem strip_eq (s : Text) : strip s = (s.dropWhile isSpace).rdropWhile isSpace := rfl

/-- Stripping twice is stripping once. -/
theorem strip_strip (s : Text) : strip (strip s) = strip s := by
  have hfirst : (strip s).dropWhile isSpace = strip s :=
    dropWhile_of_prefix (List.dropWhile_idempotent ..) (List.rdropWhile_prefix ..)
  rw [strip_eq (strip s), hfirst, strip_eq]
  exact List.rdropWhile_idempotent ..

theorem mem_intercalate {separator c : Char} {parts : List Text}
    (h : c ∈ List.intercalate [separator] parts) : c = separator ∨ ∃ part ∈ parts, c ∈ part := by
  induction parts with
  | nil => cases h
  | cons part parts ih =>
    rcases parts with - | ⟨next, parts⟩
    · rw [List.intercalate_singleton] at h
      exact .inr ⟨part, .head _, h⟩
    · rw [List.intercalate_cons_cons, List.mem_append, List.mem_append, List.mem_singleton] at h
      rcases h with (hhere | rfl) | hlater
      · exact .inr ⟨part, .head _, hhere⟩
      · exact .inl rfl
      · refine (ih hlater).imp_right ?_
        rintro ⟨other, hother, hc⟩
        exact ⟨other, .tail _ hother, hc⟩

/-! ### Fields -/

inductive FieldKind
  | keyword | text | numeric | date
  deriving DecidableEq

/-- `FieldSpec`. -/
structure FieldSpec where
  path : Text
  kind : FieldKind
  wildcard : Bool
  leadingWildcard : Bool

/-- `ParsedField`. -/
structure ParsedField where
  name : Text
  specs : List FieldSpec

section Tables

/-- A keyword field with wildcards, none of them leading. -/
def keyword (path : String) : FieldSpec := ⟨path.toList, .keyword, true, false⟩

/-- A keyword field with wildcards. -/
def leading (path : String) : FieldSpec := ⟨path.toList, .keyword, true, true⟩

/-- A keyword field without wildcards. -/
def literal (path : String) : FieldSpec := ⟨path.toList, .keyword, false, false⟩

def numeric (path : String) : FieldSpec := ⟨path.toList, .numeric, false, false⟩

def text (path : String) : FieldSpec := ⟨path.toList, .text, true, true⟩

def date (path : String) : FieldSpec := ⟨path.toList, .date, false, false⟩

/-- `FIELD_SPECS`, each under its path. -/
def fieldSpecs : List FieldSpec :=
  [date "@timestamp", keyword "case_id", keyword "evidence_id", literal "event_id",
   keyword "stable_event_id", keyword "event_fingerprint", keyword "host.name",
   keyword "user.name", keyword "user.sid", keyword "artifact.type", keyword "artifact.parser",
   keyword "event.type", keyword "event.action", numeric "risk_score",
   numeric "windows.event_id", leading "windows.channel", leading "windows.provider",
   keyword "windows.logon_type", leading "windows.service_name", leading "windows.task_name",
   keyword "severity", keyword "status", keyword "process.name", text "process.path",
   text "process.command_line", keyword "process.parent.name", text "process.parent.path",
   leading "file.name", text "file.path", leading "file.extension", numeric "file.size",
   text "folder.path", text "registry.key_path", keyword "registry.value_name",
   text "registry.value_data", leading "dns.domain", text "url.full", leading "url.domain",
   literal "source.ip", literal "destination.ip", keyword "network.direction",
   text "email.message_id", text "email.subject", leading "email.from.address",
   leading "email.from.domain", leading "email.to.addresses",
   leading "email.attachments.file_name", text "ntfs.reason", numeric "ntfs.zone_id",
   text "ntfs.host_url", text "ntfs.referrer_url", text "windows_search.indexed_path",
   text "notification.title", text "notification.body_preview", text "office.alert_text",
   text "office.document_path", keyword "rule.id", text "rule.name", text "rule.title",
   keyword "detection.source", keyword "finding.type", keyword "finding.status",
   keyword "finding.severity", literal "network.source_ip", literal "network.destination_ip",
   numeric "network.source_port", numeric "network.destination_port",
   keyword "network.protocol", keyword "linux.process", keyword "linux.username",
   keyword "linux.hostname", literal "linux.source_ip", literal "linux.destination_ip",
   text "linux.command", keyword "linux.event_action", keyword "linux.jail",
   keyword "linux.firewall_action", keyword "linux.network_protocol",
   keyword "linux.interface_in", keyword "linux.interface_out", keyword "linux.web_server",
   literal "linux.x_forwarded_for", leading "linux.http_host",
   keyword "linux.suspicious_indicators", keyword "linux.suspicious_url_indicators",
   keyword "linux.run_as", leading "linux.package", keyword "linux.package_action",
   leading "linux.package_version", keyword "linux.terminal", leading "linux.library_path",
   leading "linux.pam_module", leading "linux.exe", leading "linux.cwd",
   keyword "linux.audit_type", keyword "linux.audit_key", keyword "linux.syscall",
   keyword "linux.timestamp_status", keyword "linux.log_format", keyword "linux.db_engine",
   leading "linux.db_name", keyword "linux.db_command", text "linux.db_statement",
   keyword "linux.db_status", keyword "linux.db_error_code", numeric "linux.db_query_time",
   numeric "linux.db_rows_examined", keyword "linux.vpn_software", keyword "linux.vpn_status",
   keyword "linux.vpn_assigned_ip", leading "linux.vpn_connection",
   keyword "linux.vpn_component", leading "linux.sender", leading "linux.recipient",
   keyword "linux.queue_id", numeric "linux.smtp_status", leading "linux.helo",
   leading "linux.message_id", keyword "linux.authentication", keyword "linux.mail_service",
   keyword "linux.mail_component", keyword "linux.mail_status",
   leading "linux.mail_client_host", leading "linux.mail_relay", keyword "linux.k8s_verb",
   keyword "linux.k8s_resource", keyword "linux.k8s_subresource",
   keyword "linux.k8s_namespace", leading "linux.k8s_object", keyword "linux.k8s_decision",
   keyword "linux.k8s_groups", keyword "linux.k8s_impersonated",
   numeric "linux.sysmon_event_id", keyword "linux.sysmon_event", leading "linux.container_id",
   leading "linux.container_name", leading "linux.container_image",
   keyword "linux.container_state", keyword "linux.container_stream",
   keyword "linux.container_privileged", keyword "linux.container_env_names",
   leading "linux.container_mounts", keyword "linux.network_mode", keyword "linux.pid_mode",
   leading "linux.k8s_pod", literal "file.sha256", literal "file.sha1", literal "file.md5"]

/-- `FIELD_ALIASES`. -/
def fieldAliases : List (String × List String) :=
  [("host", ["host.name", "linux.hostname"]), ("user", ["user.name", "linux.username"]),
   ("artifact", ["artifact.type"]), ("type", ["event.type"]), ("event", ["event.type"]),
   ("process", ["process.name", "linux.process"]), ("command", ["process.command_line"]),
   ("file", ["file.path", "file.name"]),
   ("path", ["file.path", "folder.path", "process.path"]),
   ("domain", ["dns.domain", "url.domain", "email.from.domain"]),
   ("ip", ["source.ip", "destination.ip", "network.source_ip", "network.destination_ip", "linux.source_ip", "linux.destination_ip"]),
   ("port", ["network.source_port", "network.destination_port"]),
   ("proto", ["network.protocol", "linux.network_protocol"]),
   ("action", ["event.action", "linux.event_action"]), ("verdict", ["linux.firewall_action"]),
   ("jail", ["linux.jail"]), ("xff", ["linux.x_forwarded_for"]),
   ("webserver", ["linux.web_server"]),
   ("indicator", ["linux.suspicious_indicators", "linux.suspicious_url_indicators"]),
   ("runas", ["linux.run_as"]), ("eventid", ["windows.event_id"]),
   ("channel", ["windows.channel"]), ("provider", ["windows.provider"]),
   ("logontype", ["windows.logon_type"]), ("service", ["windows.service_name"]),
   ("task", ["windows.task_name"]), ("package", ["linux.package"]),
   ("pkgaction", ["linux.package_action"]), ("library", ["linux.library_path"]),
   ("pam", ["linux.pam_module"]), ("exe", ["linux.exe", "process.path"]),
   ("audit", ["linux.audit_type"]), ("auditkey", ["linux.audit_key"]),
   ("timequality", ["linux.timestamp_status"]), ("logformat", ["linux.log_format"]),
   ("verb", ["linux.k8s_verb"]), ("resource", ["linux.k8s_resource"]),
   ("subresource", ["linux.k8s_subresource"]), ("namespace", ["linux.k8s_namespace"]),
   ("k8sobject", ["linux.k8s_object"]), ("decision", ["linux.k8s_decision"]),
   ("sysmon", ["linux.sysmon_event_id"]), ("dbengine", ["linux.db_engine"]),
   ("database", ["linux.db_name"]), ("dbcommand", ["linux.db_command"]),
   ("sql", ["linux.db_statement"]), ("dbstatus", ["linux.db_status"]),
   ("dberror", ["linux.db_error_code"]), ("vpn", ["linux.vpn_software"]),
   ("vpnstatus", ["linux.vpn_status"]), ("vpnip", ["linux.vpn_assigned_ip"]),
   ("vpnconn", ["linux.vpn_connection"]), ("sender", ["linux.sender", "email.from.address"]),
   ("recipient", ["linux.recipient", "email.to.addresses"]), ("queue", ["linux.queue_id"]),
   ("mailstatus", ["linux.mail_status"]), ("mailservice", ["linux.mail_service"]),
   ("relay", ["linux.mail_relay"]),
   ("container", ["linux.container_name", "linux.container_id"]),
   ("image", ["linux.container_image"]), ("pod", ["linux.k8s_pod"]),
   ("stream", ["linux.container_stream"]), ("url", ["url.full"]),
   ("hash", ["file.sha256", "file.sha1", "file.md5"]),
   ("rule", ["rule.name", "rule.title", "rule.id"]),
   ("source", ["detection.source", "artifact.parser"]), ("parser", ["artifact.parser"]),
   ("risk", ["risk_score"]), ("severity", ["severity", "finding.severity"]),
   ("status", ["status", "finding.status"]), ("stable", ["stable_event_id"])]

end Tables

/-- `FIELD_SPECS.get`. -/
def specOf (name : Text) : Option FieldSpec := fieldSpecs.find? fun spec => spec.path = name

/-- `FIELD_ALIASES.get(name, [name])`. -/
def actualsOf (name : Text) : List Text :=
  match fieldAliases.find? fun entry => entry.1.toList = name with
  | some entry => entry.2.map String.toList
  | none => [name]

/-! ### Errors -/

/-- `QuerySyntaxError`, by place. -/
inductive QuerySyntaxError
  | unclosedQuote (position : ℕ)
  | tooManyTokens (count : ℕ)
  | unsupportedField (name : Text)
  | near (value : Text) (position : ℕ)
  | tooManyOr (count : ℕ)
  | tooManyWildcards (count : ℕ)
  | tooManyClauses (count : ℕ)
  | unexpectedEnd
  | unclosedParenthesis
  | missingExpression
  | expectedColonAfterHas
  | expectedFieldAfterHas
  | notNumeric (value path : Text)
  | notTimestamp (value path : Text)
  | operatorUnsupportedFor (operator path : Text)
  | operatorUnsupported (operator : Text)
  | wildcardsUnsupported (path : Text)
  | leadingWildcardsUnsupported (path : Text)
  deriving DecidableEq

def maxTokens : ℕ := 128
def maxOrTerms : ℕ := 20
def maxWildcardClauses : ℕ := 10
def maxQueryTerms : ℕ := 64

/-! ### Tokens and trees -/

inductive TokenKind
  | lparen | rparen | op | string | word | and | or | not
  deriving DecidableEq

/-- `Token`. -/
structure Token where
  kind : TokenKind
  value : Text
  position : ℕ
  deriving DecidableEq

inductive BoolOp
  | and | or
  deriving DecidableEq

/-- `TextNode`, `PredicateNode`, `ExistsNode`, `NotNode` and `BoolNode`. -/
inductive Node
  | text (value : Text)
  | predicate (field : ParsedField) (operator value : Text)
  | exists (field : ParsedField)
  | not (child : Node)
  | bool (operator : BoolOp) (children : List Node)

/-- `_resolve_field`. -/
def resolveField (name : Text) : Except QuerySyntaxError ParsedField :=
  match (actualsOf (strip name)).mapM specOf with
  | some specs => .ok ⟨strip name, specs⟩
  | none => .error (.unsupportedField name)

/-- `_WILDCARD_RE.search`. -/
def hasWildcard (value : Text) : Bool := value.any fun c => c = '*' || c = '?'

end Kairon.Search
