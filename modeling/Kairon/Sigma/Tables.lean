/-
Kairon/Sigma/Tables.lean

The tables of the Sigma engine (`rules_engine/sigma.py`): which indexed fields
a Sigma field stands for, and which records a log source covers.
-/
import Kairon.Search.Value

namespace Kairon.Sigma

open Search (Text)

/-- A table of the source: an entry per key. -/
abbrev Table (α : Type) := List (String × List α)

/-- `dict.get`. -/
def Table.get {α : Type} (table : Table α) (key : Text) : Option (List α) :=
  (table.find? fun entry => entry.1.toList = key).map Prod.snd

/-- `SIGMA_FIELD_MAP`. -/
def sigmaFieldMap : Table String :=
  [("EventID", ["windows.event_id"]), ("EventId", ["windows.event_id"]),
   ("Channel", ["windows.channel"]), ("Provider_Name", ["windows.provider"]),
   ("Computer", ["host.name"]), ("User", ["user.name", "linux.username"]),
   ("TargetUserName", ["user.name"]), ("SubjectUserName", ["user.name"]),
   ("Image", ["process.executable", "process.path", "process.name", "linux.process"]),
   ("NewProcessName", ["process.executable", "process.path", "process.name"]),
   ("ProcessName", ["process.name", "process.executable", "process.path", "linux.process"]),
   ("CommandLine", ["process.command_line", "linux.command"]),
   ("ParentImage", ["process.parent.executable", "process.parent.path", "process.parent_path", "process.parent_name", "parent.process.executable", "parent.process.path", "parent.process.name"]),
   ("ParentProcessName", ["process.parent.name", "process.parent.path", "process.parent_name", "process.parent_path", "parent.process.name", "parent.process.path"]),
   ("ParentCommandLine", ["process.parent.command_line", "process.parent_command_line", "parent.process.command_line"]),
   ("TargetFilename", ["file.path", "target.filename"]),
   ("ImageLoaded", ["image.loaded.path", "module.path", "file.path"]),
   ("DestinationIp", ["destination.ip", "network.destination_ip"]),
   ("DestinationPort", ["destination.port", "network.destination_port"]),
   ("SourceIp", ["source.ip", "network.source_ip"]),
   ("SourcePort", ["source.port", "network.source_port"]),
   ("DestinationHostname", ["destination.hostname", "url.domain", "dns.domain"]),
   ("QueryName", ["dns.question.name", "dns.query", "dns.domain", "dns.name"]),
   ("Hashes", ["process.hash.sha256", "process.hash.sha1", "process.hash.md5", "process.hashes.sha256", "process.hashes.sha1", "process.hashes.md5", "file.hash.sha256", "file.hash.sha1", "file.hash.md5", "file.sha256", "file.sha1", "file.md5"]),
   ("TargetObject", ["registry.path", "registry.key_path"]),
   ("Details", ["registry.data", "registry.value_data"]),
   ("EventType", ["registry.event_type", "event.action", "event.type"]),
   ("GrantedAccess", ["process.granted_access", "windows.event_data.GrantedAccess", "winlog.event_data.GrantedAccess"]),
   ("ScriptBlockText", ["powershell.script_block_text", "search_text"]),
   ("Url", ["url.full", "download.url"]), ("_keywords", ["message", "search_text"]),
   ("cs-method", ["http.request.method", "linux.http_method"]),
   ("sc-status", ["http.response.status_code", "linux.http_status"]),
   ("cs-uri-stem", ["linux.url_stem"]), ("cs-uri-query", ["linux.url_query"]),
   ("cs-uri", ["linux.url_path", "url.path"]), ("c-uri", ["linux.url_path", "url.path"]),
   ("cs-user-agent", ["user_agent.original", "linux.http_user_agent"]),
   ("c-useragent", ["user_agent.original", "linux.http_user_agent"]),
   ("cs-referer", ["linux.http_referrer"]), ("cs-referrer", ["linux.http_referrer"]),
   ("cs-host", ["linux.http_host"]), ("cs-username", ["user.name", "linux.username"]),
   ("c-ip", ["network.source_ip", "source.ip", "linux.source_ip"]),
   ("cs-version", ["linux.http_protocol"]), ("sc-bytes", ["linux.bytes_sent"]),
   ("type", ["linux.audit_type"]), ("exe", ["process.executable", "linux.exe"]),
   ("key", ["linux.audit_key"]), ("euid", ["linux.euid"]), ("SYSCALL", ["linux.syscall"]),
   ("name", ["linux.audit_name"]), ("cwd", ["process.working_directory", "linux.cwd"]),
   ("CurrentDirectory", ["process.working_directory", "linux.cwd"]), ("a0", ["linux.audit_a0"]),
   ("a1", ["linux.audit_a1"]), ("a2", ["linux.audit_a2"]), ("a3", ["linux.audit_a3"]),
   ("a4", ["linux.audit_a4"]), ("a5", ["linux.audit_a5"]), ("a6", ["linux.audit_a6"]),
   ("a7", ["linux.audit_a7"]), ("ServiceName", ["service.name", "service.display_name"]),
   ("ServiceFileName", ["service.image_path"]),
   ("ImagePath", ["service.image_path", "process.executable"]),
   ("ObjectName", ["object.name", "registry.path"]), ("ObjectType", ["object.type"]),
   ("EventLog", ["windows.channel", "event.channel"]),
   ("OriginalFileName", ["process.original_file_name"]),
   ("IntegrityLevel", ["process.integrity_level_name"]),
   ("Description", ["process.description"]), ("Product", ["process.product"]),
   ("Company", ["process.company"])]

/-- `SEARCH_TEXT_FALLBACK_FIELDS`. -/
def searchTextFallbackFields : List String :=
  ["ScriptBlockText", "Details", "CommandLine", "ParentCommandLine"]

/-- `_NON_QUERYABLE_FIELD_PREFIXES`. -/
def nonQueryableFieldPrefixes : List String := ["windows.event_data.", "winlog.event_data."]

/-- `WINDOWS_EVENT_LOG_ARTIFACT_TYPES`. -/
def windowsEventLogArtifactTypes : List String :=
  ["windows_event", "evtx_raw", "memprocfs_eventlog"]

/-- `SIGMA_EVENT_ID_HINTS`. -/
def sigmaEventIdHints : Table ℤ :=
  [("process_creation", [1, 4688]), ("registry_set", [12, 13, 14]),
   ("file_event", [11, 15, 23, 26]), ("network_connection", [3]), ("image_load", [7]),
   ("pipe_created", [17, 18]), ("powershell", [400, 403, 4103, 4104, 600, 800])]

/-- `SIGMA_CATEGORY_EVENT_TYPE_HINTS`. -/
def sigmaCategoryEventTypeHints : Table String :=
  [("process_creation", ["process_creation", "process_created", "sysmon_process_created", "security_process_created", "linux_shell_history", "execve", "user_cmd"]),
   ("webserver", ["apache_access", "web_access"]),
   ("registry_set", ["registry_set", "registry_value_set", "sysmon_registry_set"]),
   ("file_event", ["file_event", "file_create", "file_created", "sysmon_file_created"]),
   ("network_connection", ["network_connection", "network_connected", "sysmon_network_connection"]),
   ("image_load", ["image_load", "image_loaded", "sysmon_image_loaded"]),
   ("pipe_created", ["pipe_created", "named_pipe_created", "sysmon_pipe_created"]),
   ("powershell", ["powershell", "script_block", "powershell_script_block"])]

/-- `LINUX_SERVICE_ARTIFACT_TYPES`. -/
def linuxServiceArtifactTypes : Table String :=
  [("auth", ["linux_auth", "linux_syslog", "linux_journal", "linux_generic_log"]),
   ("sshd", ["linux_auth", "linux_syslog", "linux_journal", "linux_generic_log"]),
   ("sudo", ["linux_auth", "linux_syslog", "linux_journal", "linux_generic_log"]),
   ("syslog", ["linux_syslog", "linux_journal", "linux_generic_log"]),
   ("cron", ["linux_cron", "linux_syslog", "linux_journal", "linux_generic_log"]),
   ("auditd", ["linux_audit"])]

/-- `SIGMA_SERVICE_CHANNEL_HINTS`; a trailing star is a prefix. -/
def sigmaServiceChannelHints : Table String :=
  [("sysmon", ["microsoft-windows-sysmon/operational"]), ("security", ["security"]),
   ("system", ["system"]), ("application", ["application"]),
   ("powershell", ["microsoft-windows-powershell/operational", "powershellcore/operational", "windows powershell"]),
   ("powershell-classic", ["windows powershell"]),
   ("powershell-operational", ["microsoft-windows-powershell/operational", "powershellcore/operational"]),
   ("defender", ["microsoft-windows-windows defender/operational"]),
   ("windefend", ["microsoft-windows-windows defender/operational"]),
   ("taskscheduler", ["microsoft-windows-taskscheduler/operational"]),
   ("wmi", ["microsoft-windows-wmi-activity/operational"]),
   ("applocker", ["microsoft-windows-applocker/*"]), ("dns-server", ["dns server"]),
   ("dns-server-analytic", ["microsoft-windows-dns-server/analytical"]),
   ("dns-client", ["microsoft-windows-dns-client/operational", "microsoft-windows-dns client events/operational"]),
   ("driver-framework", ["microsoft-windows-driverframeworks-usermode/operational"]),
   ("ntlm", ["microsoft-windows-ntlm/operational"]),
   ("codeintegrity-operational", ["microsoft-windows-codeintegrity/operational"]),
   ("firewall-as", ["microsoft-windows-windows firewall with advanced security/firewall"]),
   ("bits-client", ["microsoft-windows-bits-client/operational"]),
   ("terminalservices-localsessionmanager", ["microsoft-windows-terminalservices-localsessionmanager/operational"]),
   ("smbclient-security", ["microsoft-windows-smbclient/security"]),
   ("smbclient-connectivity", ["microsoft-windows-smbclient/connectivity"]),
   ("printservice-admin", ["microsoft-windows-printservice/admin"]),
   ("printservice-operational", ["microsoft-windows-printservice/operational"]),
   ("shell-core", ["microsoft-windows-shell-core/operational"]),
   ("openssh", ["openssh/operational"]), ("lsa-server", ["microsoft-windows-lsa/operational"]),
   ("capi2", ["microsoft-windows-capi2/operational"]),
   ("appxpackaging-om", ["microsoft-windows-appxpackaging/operational"]),
   ("appxdeployment-server", ["microsoft-windows-appxdeploymentserver/operational"]),
   ("appmodel-runtime", ["microsoft-windows-appmodel-runtime/admin"]),
   ("security-mitigations", ["microsoft-windows-security-mitigations/*"]),
   ("diagnosis-scripted", ["microsoft-windows-diagnosis-scripted/operational"]),
   ("dhcp", ["microsoft-windows-dhcp-server/operational"]),
   ("msexchange-management", ["msexchange management"]),
   ("certificateservicesclient-lifecycle-system", ["microsoft-windows-certificateservicesclient-lifecycle-system/operational"]),
   ("kernel-shimengine", ["microsoft-windows-kernel-shimengine/*"]),
   ("ldap", ["microsoft-windows-ldap-client/debug"])]

/-- `SIGMA_CATEGORY_SERVICE_HINTS`. -/
def sigmaCategoryServiceHints : Table String :=
  [("registry_set", ["sysmon"]), ("registry_add", ["sysmon"]), ("registry_delete", ["sysmon"]),
   ("registry_event", ["sysmon"]), ("registry_rename", ["sysmon"]), ("file_event", ["sysmon"]),
   ("file_delete", ["sysmon"]), ("file_change", ["sysmon"]), ("file_access", ["sysmon"]),
   ("file_rename", ["sysmon"]), ("file_block_executable", ["sysmon"]),
   ("file_block_shredding", ["sysmon"]), ("file_executable_detected", ["sysmon"]),
   ("network_connection", ["sysmon"]), ("image_load", ["sysmon"]), ("pipe_created", ["sysmon"]),
   ("process_access", ["sysmon"]), ("create_remote_thread", ["sysmon"]),
   ("driver_load", ["sysmon"]), ("dns_query", ["sysmon"]), ("wmi_event", ["sysmon"]),
   ("raw_access_thread", ["sysmon"]), ("create_stream_hash", ["sysmon"]),
   ("process_tampering", ["sysmon"]), ("clipboard_capture", ["sysmon"]),
   ("process_termination", ["sysmon"]), ("sysmon_status", ["sysmon"]),
   ("sysmon_error", ["sysmon"]), ("process_creation", ["sysmon", "security"]),
   ("powershell", ["powershell"]), ("ps_script", ["powershell-operational"]),
   ("ps_module", ["powershell-operational"]), ("ps_classic_start", ["powershell-classic"]),
   ("ps_classic_provider_start", ["powershell-classic"]),
   ("ps_classic_script", ["powershell-classic"])]

/-- `_BASENAME_ALTERNATE_FIELDS`. -/
def basenameAlternateFields : List (String × String) :=
  [("Image", "process.name"), ("ProcessName", "process.name"),
   ("ParentImage", "process.parent_name")]

end Kairon.Sigma
