/-
Kairon/Ingest/ShellLink.lean

The reader for the shell links of jump lists.

`parse_shell_link_bytes` goes through sections whose sizes and offsets come from the file.  A
number is read with `struct.unpack_from`, which raises where bytes are missing; a slice takes
what there is.  So every number needs a check before it, and every number has one: each part of
the reader gives a result for all bytes (`yields_parseLinkInfo`, `yields_readSizedString`,
`yields_parseExtraDataBlocks`), and what it says is decoded from a part of them (`FromPart`).
-/
import Kairon.Ingest.Ad1
import Kairon.Ingest.Encoding
import Kairon.Lib.Parts
import Kairon.Lvm.Metadata

namespace Kairon.Ingest

open Parts
open Search (Text strip)
open Wire (big cut unsigned)

/-! ### Numbers and texts -/

/-- What reading a link could raise. -/
inductive LinkFault
  | structError

/-- `struct.unpack_from` of one number: `_u16`, `_u32` and `_u64`. -/
def unpackLittle (data : Bytes) (offset width : ℕ) : Except LinkFault ℕ :=
  if offset + width ≤ data.length then pure (unsigned (cut data offset (offset + width)))
  else throw .structError

/-- What is taken from the Python library: `str.lower`, and the ISO text of a FILETIME after
1601 (nothing where `datetime` raises, since all of that is caught). -/
structure LinkPlatform where
  lower : Text → Text
  isoFileTime : ℕ → Option Text

/-- `… or None`. -/
def orNone (text : Text) : Option Text := if text = [] then none else some text

/-- `_parse_filetime`. -/
def LinkPlatform.parseFiletime (py : LinkPlatform) (value : ℕ) : Option Text :=
  if value = 0 then none else py.isoFileTime value

/-- The character that bytes begin with, and how many more bytes it takes. -/
def utf8Char : Bytes → Option (Char × ℕ)
  | b₀ :: rest =>
    if b₀.toNat < 0x80 then some (Char.ofNat b₀.toNat, 0)
    else
      ((rest[0]?.bind (Lvm.utf8Two b₀)).map (·, 1)).or
        ((((rest[0]?.bind fun b₁ => rest[1]?.bind (Lvm.utf8Three b₀ b₁))).map (·, 2)).or
          ((rest[0]?.bind fun b₁ => rest[1]?.bind fun b₂ =>
            rest[2]?.bind (Lvm.utf8Four b₀ b₁ b₂)).map (·, 3)))
  | [] => none

/-- The loop of the decoder; the first argument is how many bytes the last character still has.
A byte that begins no character is left out; so are those behind it that belong to no other. -/
def decodeUtf8From : ℕ → Bytes → Text
  | _, [] => []
  | more + 1, _ :: rest => decodeUtf8From more rest
  | 0, b :: rest =>
    match utf8Char (b :: rest) with
    | some (c, more) => c :: decodeUtf8From more rest
    | none => decodeUtf8From 0 rest

/-- The encodings of the texts of a link. -/
inductive LinkCodec
  | utf8 | utf16le | ascii

/-- `chunk.decode(codec, errors="ignore")`: what is no character is left out, and nothing is
raised. -/
def LinkCodec.decode : LinkCodec → Bytes → Text
  | .utf8, chunk => decodeUtf8From 0 chunk
  | .utf16le, chunk => decodeUtf16 [] chunk
  | .ascii, chunk => (chunk.filter fun b => b.toNat < 128).map fun b => Char.ofNat b.toNat

/-- `chunk.decode(…).strip() or None`. -/
def LinkCodec.text (codec : LinkCodec) (chunk : Bytes) : Option Text :=
  orNone (strip (codec.decode chunk))

/-- Two digits for each byte, highest first. -/
def hexBytes (bytes : Bytes) : Text :=
  bytes.flatMap fun b => [Nat.digitChar (b.toNat / 16), Nat.digitChar (b.toNat % 16)]

/-- `_guid_from_le`: the first three groups are numbers, lowest byte first. -/
def guidFromLe (data : Bytes) : Option Text :=
  if data.length ≠ 16 then none
  else some (List.intercalate ['-'] [hexBytes (cut data 0 4).reverse, hexBytes (cut data 4 6).reverse,
    hexBytes (cut data 6 8).reverse, hexBytes (cut data 8 10), hexBytes (cut data 10 16)])

/-- The first zero byte from an offset on, or the end. -/
def findNul (data : Bytes) (offset : ℕ) : ℕ :=
  offset + ((data.drop offset).takeWhile fun b => b ≠ 0).length

/-- `_read_c_string`. -/
def readCString (data : Bytes) (offset : ℕ) : Option Text :=
  if offset = 0 ∨ data.length ≤ offset then none
  else
    let chunk := cut data offset (findNul data offset)
    if chunk = [] then none else LinkCodec.utf8.text chunk

/-- The loop of `_read_utf16z`. -/
def utf16Stop (data : Bytes) (stop : ℕ) : ℕ :=
  if stop + 1 < data.length then
    if cut data stop (stop + 2) = [0, 0] then stop else utf16Stop data (stop + 2)
  else stop
termination_by data.length - stop

/-- `_read_utf16z`. -/
def readUtf16z (data : Bytes) (offset : ℕ) : Option Text :=
  if offset = 0 ∨ data.length ≤ offset then none
  else
    let chunk := cut data offset (utf16Stop data offset)
    if chunk = [] then none else LinkCodec.utf16le.text chunk

/-- `_read_sized_string`: the text, and where the next section begins, which may be behind the
end. -/
def readSizedString (data : Bytes) (offset : ℕ) (isUnicode : Bool) :
    Except LinkFault (Option Text × ℕ) :=
  if data.length < offset + 2 then pure (none, offset)
  else do
    let count ← unpackLittle data offset 2
    let size := if isUnicode then count * 2 else count
    let codec := if isUnicode then LinkCodec.utf16le else .utf8
    pure (codec.text (cut data (offset + 2) (offset + 2 + size)), offset + 2 + size)

/-! ### The link info -/

structure LinkVolume where
  driveType : Option Text
  driveSerialNumber : Option Text
  volumeLabel : Option Text

def noVolume : LinkVolume := ⟨none, none, none⟩

/-- The names of the drive types; others are their number. -/
def driveType (value : ℕ) : Option Text :=
  if value = 2 then some "removable".toList
  else if value = 3 then some "fixed".toList
  else if value = 4 then some "remote".toList
  else if value = 5 then some "cdrom".toList
  else if value = 6 then some "ramdisk".toList
  else if value = 0 then none
  else some (Nat.toDigits 10 value)

/-- `f"{drive_serial:08X}"`. -/
def driveSerial (value : ℕ) : Option Text :=
  if value = 0 then none else some ((hexBytes (big 4 value)).map Char.toUpper)

/-- A text at an offset from another one, if there is any. -/
def readRelative (data : Bytes) (offset relative : ℕ) : Option Text :=
  if relative = 0 then none else readCString data (offset + relative)

/-- `_parse_volume_id`. -/
def parseVolumeId (data : Bytes) (offset : ℕ) : Except LinkFault LinkVolume :=
  if offset = 0 ∨ data.length < offset + 16 then pure noVolume
  else do
    let size ← unpackLittle data offset 4
    if size < 16 ∨ data.length < offset + size then pure noVolume
    else do
      let driveTypeValue ← unpackLittle data (offset + 4) 4
      let serial ← unpackLittle data (offset + 8) 4
      let labelOffset ← unpackLittle data (offset + 12) 4
      pure ⟨driveType driveTypeValue, driveSerial serial, readRelative data offset labelOffset⟩

structure LinkNetwork where
  networkPath : Option Text
  shareName : Option Text
  deviceName : Option Text

def noNetwork : LinkNetwork := ⟨none, none, none⟩

/-- `_parse_common_network_relative`. -/
def parseCommonNetworkRelative (data : Bytes) (offset : ℕ) : Except LinkFault LinkNetwork :=
  if offset = 0 ∨ data.length < offset + 20 then pure noNetwork
  else do
    let size ← unpackLittle data offset 4
    if size < 20 ∨ data.length < offset + size then pure noNetwork
    else do
      let netNameOffset ← unpackLittle data (offset + 8) 4
      let deviceNameOffset ← unpackLittle data (offset + 12) 4
      let shareName := readRelative data offset netNameOffset
      pure ⟨shareName, shareName, readRelative data offset deviceNameOffset⟩

/-- What the link info says, with the warnings. -/
structure LinkInfo where
  localBasePath : Option Text
  commonPathSuffix : Option Text
  network : LinkNetwork
  volume : LinkVolume
  warnings : List String

def noLinkInfo (warnings : List String) : LinkInfo := ⟨none, none, noNetwork, noVolume, warnings⟩

/-- A path of the link info: the Unicode one if there is any. -/
def readInfoPath (info : Bytes) (offset unicodeOffset : ℕ) : Option Text :=
  (if unicodeOffset = 0 then none else readUtf16z info unicodeOffset).or
    (if offset = 0 then none else readCString info offset)

/-- The volume and the local path. -/
def readLocalInfo (info : Bytes) (infoFlags volumeIdOffset pathOffset unicodeOffset : ℕ) :
    Except LinkFault (LinkVolume × Option Text × List String) :=
  if infoFlags &&& 1 = 0 then pure (noVolume, none, [])
  else do
    let volume ← parseVolumeId info volumeIdOffset
    let path := readInfoPath info pathOffset unicodeOffset
    pure (volume, path, if path = none then ["linkinfo_present_no_local_path"] else [])

def readNetworkInfo (info : Bytes) (infoFlags networkOffset : ℕ) : Except LinkFault LinkNetwork :=
  if infoFlags &&& 2 = 0 ∨ networkOffset = 0 then pure noNetwork
  else parseCommonNetworkRelative info networkOffset

/-- An offset that only a long header has. -/
def readLong (data : Bytes) (headerSize start offset : ℕ) : Except LinkFault ℕ :=
  if 0x24 ≤ headerSize ∧ start + 36 ≤ data.length then unpackLittle data (start + offset) 4
  else pure 0

/-- The link info at an offset, and where the next section begins; nothing if it is truncated. -/
def parseLinkInfo (data : Bytes) (flags offset : ℕ) : Except LinkFault (Option (LinkInfo × ℕ)) :=
  if flags &&& 2 = 0 then pure (some (noLinkInfo [], offset))
  else if data.length < offset + 0x1C then pure none
  else do
    let size ← unpackLittle data offset 4
    let headerSize ← unpackLittle data (offset + 4) 4
    let infoFlags ← unpackLittle data (offset + 8) 4
    let volumeIdOffset ← unpackLittle data (offset + 12) 4
    let localOffset ← unpackLittle data (offset + 16) 4
    let networkOffset ← unpackLittle data (offset + 20) 4
    let suffixOffset ← unpackLittle data (offset + 24) 4
    let localUnicodeOffset ← readLong data headerSize offset 28
    let suffixUnicodeOffset ← readLong data headerSize offset 32
    if 0 < size ∧ size ≤ data.length - offset then do
      let info := cut data offset (offset + size)
      let found ← readLocalInfo info infoFlags volumeIdOffset localOffset localUnicodeOffset
      let suffix := if suffixOffset = 0 then none
        else readInfoPath info suffixOffset suffixUnicodeOffset
      let network ← readNetworkInfo info infoFlags networkOffset
      pure (some (⟨found.2.1, suffix, network, found.1, found.2.2⟩, offset + size))
    else pure (some (noLinkInfo ["linkinfo_parse_failed"], offset))

/-! ### The extra data -/

/-- `parsed` of `_parse_extra_data_blocks`. -/
structure ExtraData where
  machineId : Option Text
  droid : Option Text
  birthDroid : Option Text
  trackerDroid : Option Text
  trackerBirthDroid : Option Text
  environmentTarget : Option Text
  knownFolderGuid : Option Text
  darwinId : Option Text
  hasEnvironmentDataBlock : Bool
  hasKnownFolderDataBlock : Bool
  hasPropertyStoreDataBlock : Bool

def noExtraData : ExtraData := ⟨none, none, none, none, none, none, none, none, false, false, false⟩

/-- `_decode_machine_id`. -/
def decodeMachineId (data : Bytes) : Option Text :=
  let raw := data.takeWhile fun b => b ≠ 0
  if raw = [] then none else LinkCodec.ascii.text raw

/-- The volume and the file of a droid. -/
def droidOf (volume file : Bytes) : Option Text := do
  let volume ← guidFromLe volume
  let file ← guidFromLe file
  some (volume ++ ':' :: file)

def noteTracker (block : Bytes) (parsed : ExtraData) : ExtraData :=
  let droid := droidOf (cut block 0x20 0x30) (cut block 0x30 0x40)
  let birth := droidOf (cut block 0x40 0x50) (cut block 0x50 0x60)
  { parsed with
    machineId := decodeMachineId (cut block 0x10 0x20)
    droid := droid.or parsed.droid
    trackerDroid := droid.or parsed.trackerDroid
    birthDroid := birth.or parsed.birthDroid
    trackerBirthDroid := birth.or parsed.trackerBirthDroid }

def noteEnvironment (block : Bytes) (blockSize : ℕ) (parsed : ExtraData) : ExtraData :=
  { parsed with
    hasEnvironmentDataBlock := true
    environmentTarget := (if 0x314 ≤ blockSize then readUtf16z block 0x108 else none).or
      (readCString block 8) }

/-- What a block adds, by its signature. -/
def noteBlock (signature blockSize : ℕ) (block : Bytes) (parsed : ExtraData) : ExtraData :=
  if signature = 0xA0000003 ∧ 0x60 ≤ blockSize then noteTracker block parsed
  else if signature = 0xA0000001 then noteEnvironment block blockSize parsed
  else if signature = 0xA000000B ∧ 0x1C ≤ blockSize then
    { parsed with
      hasKnownFolderDataBlock := true
      knownFolderGuid := guidFromLe (cut block 8 24) }
  else if signature = 0xA0000009 then { parsed with hasPropertyStoreDataBlock := true }
  else if signature = 0xA0000006 then { parsed with darwinId := readCString block 8 }
  else parsed

/-- `_parse_extra_data_blocks`.  A block has eight bytes at least, so the loop ends. -/
def parseExtraDataBlocks (data : Bytes) (cursor : ℕ) (parsed : ExtraData) :
    Except LinkFault (ExtraData × List String) :=
  if hcursor : cursor + 4 ≤ data.length then do
    let blockSize ← unpackLittle data cursor 4
    if blockSize = 0 then pure (parsed, [])
    else if hblock : blockSize < 8 ∨ data.length < cursor + blockSize then
      pure (parsed, ["ShellLink ExtraData block is truncated or invalid"])
    else do
      let signature ← unpackLittle data (cursor + 4) 4
      parseExtraDataBlocks data (cursor + blockSize)
        (noteBlock signature blockSize (cut data cursor (cursor + blockSize)) parsed)
  else pure (parsed, [])
termination_by data.length - cursor

/-! ### The link -/

/-- `SHELL_LINK_CLSID`. -/
def shellLinkClsid : Bytes := [0x01, 0x14, 0x02, 0, 0, 0, 0, 0, 0xC0, 0, 0, 0, 0, 0, 0, 0x46]

/-- `is_shell_link_bytes`. -/
def isShellLinkBytes (data : Bytes) : Except LinkFault Bool :=
  if data.length < 0x4C then pure false
  else do
    let size ← unpackLittle data 0 4
    pure (size = 0x4C && cut data 4 20 = shellLinkClsid)

/-- The numbers of the header. -/
structure LinkHeader where
  flags : ℕ
  fileAttributes : ℕ
  created : Option Text
  accessed : Option Text
  modified : Option Text
  fileSize : ℕ
  iconIndex : ℕ
  showCommand : ℕ
  hotKey : ℕ

/-- The texts behind the link info. -/
structure StringData where
  description : Option Text
  relativePath : Option Text
  workingDirectory : Option Text
  arguments : Option Text
  iconLocation : Option Text

/-- What `parse_shell_link_bytes` returns for a link. -/
structure ShellLink where
  streamName : Option Text
  flags : ℕ
  targetPath : Option Text
  targetIdAbsolutePath : Option Text
  localPath : Option Text
  commonPath : Option Text
  relativePath : Option Text
  networkPath : Option Text
  shareName : Option Text
  deviceName : Option Text
  workingDirectory : Option Text
  arguments : Option Text
  description : Option Text
  iconLocation : Option Text
  iconIndex : Option ℕ
  showCommand : Option ℕ
  hotKey : Option ℕ
  targetCreated : Option Text
  targetModified : Option Text
  targetAccessed : Option Text
  creationTime : Option Text
  modifiedTime : Option Text
  accessedTime : Option Text
  fileSize : Option ℕ
  fileAttributes : Option ℕ
  isDirectory : Bool
  driveType : Option Text
  volumeSerialNumber : Option Text
  volumeLabel : Option Text
  machineId : Option Text
  trackerDroid : Option Text
  trackerBirthDroid : Option Text
  droid : Option Text
  birthDroid : Option Text
  environmentTarget : Option Text
  knownFolderGuid : Option Text
  darwinId : Option Text
  hasLinkTargetIdList : Bool
  hasLinkInfo : Bool
  hasKnownFolderDataBlock : Bool
  hasPropertyStoreDataBlock : Bool
  hasEnvironmentVariableDataBlock : Bool
  isShellTarget : Bool

/-- What is returned: no link where the bytes are rejected, and the warnings. -/
structure ParsedLink where
  link : Option ShellLink
  warnings : List String

section

variable (py : LinkPlatform) (data : Bytes)

def LinkPlatform.readHeader : Except LinkFault LinkHeader := do
  let flags ← unpackLittle data 0x14 4
  let fileAttributes ← unpackLittle data 0x18 4
  let created ← unpackLittle data 0x1C 8
  let accessed ← unpackLittle data 0x24 8
  let modified ← unpackLittle data 0x2C 8
  let fileSize ← unpackLittle data 0x34 4
  let iconIndex ← unpackLittle data 0x38 4
  let showCommand ← unpackLittle data 0x3C 4
  let hotKey ← unpackLittle data 0x40 2
  pure ⟨flags, fileAttributes, py.parseFiletime created, py.parseFiletime accessed,
    py.parseFiletime modified, fileSize, iconIndex, showCommand, hotKey⟩

/-- Where the link info begins: behind the list of ids, nothing if that is truncated. -/
def skipIdList (flags : ℕ) : Except LinkFault (Option ℕ) :=
  if flags &&& 1 = 0 then pure (some 0x4C)
  else if data.length < 0x4C + 2 then pure none
  else do
    let size ← unpackLittle data 0x4C 2
    pure (some (0x4C + (2 + size)))

/-- A text that is there if its flag is set. -/
def readFlagged (flags bit offset : ℕ) : Except LinkFault (Option Text × ℕ) :=
  if flags &&& bit = 0 then pure (none, offset)
  else readSizedString data offset (flags &&& 0x80 ≠ 0)

def readStringData (flags offset : ℕ) : Except LinkFault (StringData × ℕ) := do
  let description ← readFlagged data flags 0x4 offset
  let relativePath ← readFlagged data flags 0x8 description.2
  let workingDirectory ← readFlagged data flags 0x10 relativePath.2
  let arguments ← readFlagged data flags 0x20 workingDirectory.2
  let iconLocation ← readFlagged data flags 0x40 arguments.2
  pure (⟨description.1, relativePath.1, workingDirectory.1, arguments.1, iconLocation.1⟩,
    iconLocation.2)

/-- `text.rstrip("\\")`. -/
def rstripBackslash (text : Text) : Text := text.rdropWhile (· = '\\')

/-- `_merge_local_path`. -/
def LinkPlatform.mergeLocalPath (base suffix : Option Text) : Option Text :=
  let here := strip (base.getD [])
  let more := strip (suffix.getD [])
  if here ≠ [] ∧ more ≠ [] then
    if py.lower more <:+ py.lower here then some here
    else if ['\\'] <+: more ∨ ['\\'] <:+ here then some (rstripBackslash here ++ more)
    else some (rstripBackslash here ++ '\\' :: more)
  else (orNone here).or (orNone more)

/-- The warnings about a target path that was not found. -/
def targetWarnings (flags : ℕ) (extra : ExtraData) : Option Text → List String
  | some _ => []
  | none =>
    (if flags &&& 2 = 0 then ["linkinfo_absent"] else []) ++
    ((if flags &&& 1 = 0 then [] else ["target_id_list_present_unresolved"]) ++
    ((if extra.knownFolderGuid = none then [] else ["known_folder_unresolved"]) ++
    ((if extra.hasPropertyStoreDataBlock then ["property_store_present_unparsed"] else []) ++
      ["no_resolved_target_path"])))

/-- `number or None`. -/
def numberOrNone (number : ℕ) : Option ℕ := if number = 0 then none else some number

/-- What is returned at the end. -/
def LinkPlatform.assemble (streamName : Option Text) (header : LinkHeader) (info : LinkInfo)
    (strings : StringData) (extra : ExtraData) (extraWarnings : List String) : ParsedLink :=
  let localPath := py.mergeLocalPath info.localBasePath info.commonPathSuffix
  let targetPath := localPath.or (info.network.networkPath.or (info.commonPathSuffix.or
    (strings.relativePath.or extra.environmentTarget)))
  let link : ShellLink :=
    { streamName := streamName
      flags := header.flags
      targetPath := targetPath
      targetIdAbsolutePath := none
      localPath := localPath
      commonPath := info.commonPathSuffix
      relativePath := strings.relativePath
      networkPath := info.network.networkPath
      shareName := info.network.shareName
      deviceName := info.network.deviceName
      workingDirectory := strings.workingDirectory
      arguments := strings.arguments
      description := strings.description
      iconLocation := strings.iconLocation
      iconIndex := numberOrNone header.iconIndex
      showCommand := numberOrNone header.showCommand
      hotKey := numberOrNone header.hotKey
      targetCreated := header.created
      targetModified := header.modified
      targetAccessed := header.accessed
      creationTime := header.created
      modifiedTime := header.modified
      accessedTime := header.accessed
      fileSize := numberOrNone header.fileSize
      fileAttributes := numberOrNone header.fileAttributes
      isDirectory := header.fileAttributes &&& 0x10 ≠ 0
      driveType := info.volume.driveType
      volumeSerialNumber := info.volume.driveSerialNumber
      volumeLabel := info.volume.volumeLabel
      machineId := extra.machineId
      trackerDroid := extra.trackerDroid
      trackerBirthDroid := extra.trackerBirthDroid
      droid := extra.droid
      birthDroid := extra.birthDroid
      environmentTarget := extra.environmentTarget
      knownFolderGuid := extra.knownFolderGuid
      darwinId := extra.darwinId
      hasLinkTargetIdList := header.flags &&& 1 ≠ 0
      hasLinkInfo := header.flags &&& 2 ≠ 0
      hasKnownFolderDataBlock := extra.hasKnownFolderDataBlock
      hasPropertyStoreDataBlock := extra.hasPropertyStoreDataBlock
      hasEnvironmentVariableDataBlock := extra.hasEnvironmentDataBlock
      isShellTarget := targetPath = none }
  ⟨some link, info.warnings ++ (extraWarnings ++ targetWarnings header.flags extra targetPath)⟩

def rejected (warning : String) : ParsedLink := ⟨none, [warning]⟩

/-- `parse_shell_link_bytes`. -/
def LinkPlatform.parseShellLinkBytes (streamName : Option Text) : Except LinkFault ParsedLink := do
  let isLink ← isShellLinkBytes data
  if isLink = false then pure (rejected "ShellLink header not found")
  else do
    let header ← py.readHeader data
    let start ← skipIdList data header.flags
    match start with
    | none => pure (rejected "ShellLink IDList flag set but list is truncated")
    | some start => do
        let info ← parseLinkInfo data header.flags start
        match info with
        | none => pure (rejected "ShellLink LinkInfo flag set but block is truncated")
        | some info => do
            let strings ← readStringData data header.flags info.2
            let extra ← parseExtraDataBlocks data strings.2 noExtraData
            pure (py.assemble streamName header info.1 strings.1 extra.1 extra.2)

end

/-! ### What is promised -/

/-- A text that a part of the bytes stands for, or none. -/
def TextWithin (data : Bytes) (value : Option Text) : Prop :=
  ∃ codec : LinkCodec, FromPart codec.text data value

/-- What is said of a number of four bytes. -/
def ofNumber (say : ℕ → Option Text) (chunk : Bytes) : Option Text :=
  if chunk.length = 4 then say (unsigned chunk) else none

/-- A droid whose volume and file are parts of the bytes, or none. -/
def DroidWithin (data : Bytes) (value : Option Text) : Prop :=
  value = none ∨ ∃ volume file, volume <:+: data ∧ file <:+: data ∧ value = droidOf volume file

/-- Every field of a link that is taken from the link info, the texts or the extra data is decoded
from a part of the bytes. -/
structure FieldsWithin (py : LinkPlatform) (data : Bytes) (link : ShellLink) : Prop where
  localPath : ∃ base suffix, TextWithin data base ∧ TextWithin data suffix ∧
    link.localPath = py.mergeLocalPath base suffix
  commonPath : TextWithin data link.commonPath
  networkPath : TextWithin data link.networkPath
  shareName : TextWithin data link.shareName
  deviceName : TextWithin data link.deviceName
  driveType : FromPart (ofNumber driveType) data link.driveType
  volumeSerialNumber : FromPart (ofNumber driveSerial) data link.volumeSerialNumber
  volumeLabel : TextWithin data link.volumeLabel
  description : TextWithin data link.description
  relativePath : TextWithin data link.relativePath
  workingDirectory : TextWithin data link.workingDirectory
  arguments : TextWithin data link.arguments
  iconLocation : TextWithin data link.iconLocation
  machineId : TextWithin data link.machineId
  droid : DroidWithin data link.droid
  birthDroid : DroidWithin data link.birthDroid
  trackerDroid : DroidWithin data link.trackerDroid
  trackerBirthDroid : DroidWithin data link.trackerBirthDroid
  environmentTarget : TextWithin data link.environmentTarget
  knownFolderGuid : FromPart guidFromLe data link.knownFolderGuid
  darwinId : TextWithin data link.darwinId

/-- One of the three rejections, or a link whose fields are within the bytes. -/
structure Documented (py : LinkPlatform) (data : Bytes) (parsed : ParsedLink) : Prop where
  rejection : parsed.link = none → parsed ∈ [rejected "ShellLink header not found",
    rejected "ShellLink IDList flag set but list is truncated",
    rejected "ShellLink LinkInfo flag set but block is truncated"]
  within : ∀ link ∈ parsed.link, FieldsWithin py data link

/-! ### Texts and numbers are within the bytes -/

section Within

variable {data part : Bytes} {value first second : Option Text}

theorem textWithin_none : TextWithin data none := ⟨.utf8, fromPart_none⟩

theorem TextWithin.within (h : TextWithin part value) (hpart : part <:+: data) :
    TextWithin data value :=
  h.imp fun _ hvalue => hvalue.within hpart

theorem TextWithin.or (hfirst : TextWithin data first) (hsecond : TextWithin data second) :
    TextWithin data (first.or second) := by
  rcases first with - | text
  · exact hsecond
  · exact hfirst

theorem textWithin_readCString (data : Bytes) (offset : ℕ) :
    TextWithin data (readCString data offset) := by
  rw [readCString]
  dsimp only
  split_ifs
  · exact textWithin_none
  · exact textWithin_none
  · exact ⟨.utf8, fromPart_cut _ _⟩

theorem textWithin_readUtf16z (data : Bytes) (offset : ℕ) :
    TextWithin data (readUtf16z data offset) := by
  rw [readUtf16z]
  dsimp only
  split_ifs
  · exact textWithin_none
  · exact textWithin_none
  · exact ⟨.utf16le, fromPart_cut _ _⟩

theorem textWithin_readRelative (data : Bytes) (offset relative : ℕ) :
    TextWithin data (readRelative data offset relative) := by
  rw [readRelative]
  split_ifs
  · exact textWithin_none
  · exact textWithin_readCString data _

theorem textWithin_readInfoPath (info : Bytes) (offset unicodeOffset : ℕ) :
    TextWithin info (readInfoPath info offset unicodeOffset) := by
  refine TextWithin.or ?_ ?_
  · split_ifs
    · exact textWithin_none
    · exact textWithin_readUtf16z info _
  · split_ifs
    · exact textWithin_none
    · exact textWithin_readCString info _

theorem textWithin_decodeMachineId (part : Bytes) : TextWithin part (decodeMachineId part) := by
  rw [decodeMachineId]
  split_ifs
  · exact textWithin_none
  · exact ⟨.ascii, .inr ⟨_, (List.takeWhile_prefix _).isInfix, rfl⟩⟩

theorem DroidWithin.within (h : DroidWithin part value) (hpart : part <:+: data) :
    DroidWithin data value :=
  h.imp_right fun ⟨volume, file, hvolume, hfile, heq⟩ =>
    ⟨volume, file, hvolume.trans hpart, hfile.trans hpart, heq⟩

theorem DroidWithin.or (hfirst : DroidWithin data first) (hsecond : DroidWithin data second) :
    DroidWithin data (first.or second) := by
  rcases first with - | text
  · exact hsecond
  · exact hfirst

/-- A number that has a check before it is read. -/
theorem yields_unpackLittle {offset width : ℕ} (h : offset + width ≤ data.length) :
    Yields (unpackLittle data offset width) fun n => n = unsigned (cut data offset (offset + width)) := by
  rw [unpackLittle, if_pos h]
  exact yields_pure rfl

theorem fromPart_ofNumber {say : ℕ → Option Text} {offset : ℕ} (h : offset + 4 ≤ data.length) :
    FromPart (ofNumber say) data (say (unsigned (cut data offset (offset + 4)))) := by
  have hlength : (cut data offset (offset + 4)).length = 4 := by
    rw [cut, List.length_take, List.length_drop]
    omega
  have hsay : ofNumber say (cut data offset (offset + 4)) =
      say (unsigned (cut data offset (offset + 4))) := if_pos hlength
  rw [← hsay]
  exact fromPart_cut _ _

end Within

/-! ### The parts of the reader -/

section Reader

variable {data part : Bytes}

/-- What the volume of a link says is within the bytes. -/
structure VolumeWithin (data : Bytes) (volume : LinkVolume) : Prop where
  driveType : FromPart (ofNumber driveType) data volume.driveType
  driveSerialNumber : FromPart (ofNumber driveSerial) data volume.driveSerialNumber
  volumeLabel : TextWithin data volume.volumeLabel

theorem volumeWithin_none : VolumeWithin data noVolume :=
  ⟨fromPart_none, fromPart_none, textWithin_none⟩

theorem VolumeWithin.within {volume : LinkVolume} (h : VolumeWithin part volume)
    (hpart : part <:+: data) : VolumeWithin data volume :=
  ⟨h.driveType.within hpart, h.driveSerialNumber.within hpart, h.volumeLabel.within hpart⟩

theorem yields_parseVolumeId (data : Bytes) (offset : ℕ) :
    Yields (parseVolumeId data offset) (VolumeWithin data) := by
  rw [parseVolumeId]
  split_ifs with hend
  · exact yields_pure volumeWithin_none
  · refine (yields_unpackLittle (by omega)).bind fun size _ => ?_
    split_ifs with hsize
    · exact yields_pure volumeWithin_none
    · refine (yields_unpackLittle (by omega)).bind ?_
      rintro driveTypeValue rfl
      refine (yields_unpackLittle (by omega)).bind ?_
      rintro serial rfl
      refine (yields_unpackLittle (by omega)).bind fun labelOffset _ => yields_pure ?_
      exact ⟨fromPart_ofNumber (by omega), fromPart_ofNumber (by omega),
        textWithin_readRelative data _ _⟩

structure NetworkWithin (data : Bytes) (network : LinkNetwork) : Prop where
  networkPath : TextWithin data network.networkPath
  shareName : TextWithin data network.shareName
  deviceName : TextWithin data network.deviceName

theorem networkWithin_none : NetworkWithin data noNetwork :=
  ⟨textWithin_none, textWithin_none, textWithin_none⟩

theorem NetworkWithin.within {network : LinkNetwork} (h : NetworkWithin part network)
    (hpart : part <:+: data) : NetworkWithin data network :=
  ⟨h.networkPath.within hpart, h.shareName.within hpart, h.deviceName.within hpart⟩

theorem yields_parseCommonNetworkRelative (data : Bytes) (offset : ℕ) :
    Yields (parseCommonNetworkRelative data offset) (NetworkWithin data) := by
  rw [parseCommonNetworkRelative]
  split_ifs with hend
  · exact yields_pure networkWithin_none
  · refine (yields_unpackLittle (by omega)).bind fun size _ => ?_
    split_ifs with hsize
    · exact yields_pure networkWithin_none
    · refine (yields_unpackLittle (by omega)).bind fun netNameOffset _ => ?_
      refine (yields_unpackLittle (by omega)).bind fun deviceNameOffset _ => yields_pure ?_
      exact ⟨textWithin_readRelative data _ _, textWithin_readRelative data _ _,
        textWithin_readRelative data _ _⟩

theorem yields_readLocalInfo (info : Bytes) (infoFlags volumeIdOffset pathOffset unicodeOffset : ℕ) :
    Yields (readLocalInfo info infoFlags volumeIdOffset pathOffset unicodeOffset) fun found =>
      VolumeWithin info found.1 ∧ TextWithin info found.2.1 := by
  rw [readLocalInfo]
  split_ifs
  · exact yields_pure ⟨volumeWithin_none, textWithin_none⟩
  · exact (yields_parseVolumeId info _).bind fun volume hvolume =>
      yields_pure ⟨hvolume, textWithin_readInfoPath info _ _⟩

theorem yields_readNetworkInfo (info : Bytes) (infoFlags networkOffset : ℕ) :
    Yields (readNetworkInfo info infoFlags networkOffset) (NetworkWithin info) := by
  rw [readNetworkInfo]
  split_ifs
  · exact yields_pure networkWithin_none
  · exact yields_parseCommonNetworkRelative info _

structure InfoWithin (data : Bytes) (info : LinkInfo) : Prop where
  localBasePath : TextWithin data info.localBasePath
  commonPathSuffix : TextWithin data info.commonPathSuffix
  network : NetworkWithin data info.network
  volume : VolumeWithin data info.volume

theorem infoWithin_none (warnings : List String) : InfoWithin data (noLinkInfo warnings) :=
  ⟨textWithin_none, textWithin_none, networkWithin_none, volumeWithin_none⟩

theorem yields_readLong (data : Bytes) (headerSize start : ℕ) {offset : ℕ} (h : offset + 4 ≤ 36) :
    Yields (readLong data headerSize start offset) fun _ => True := by
  rw [readLong]
  split_ifs with hlong
  · exact (yields_unpackLittle (by omega)).mono fun _ _ => trivial
  · exact yields_pure trivial

/-- **The link info is read from any bytes, and what it says is within them.** -/
theorem yields_parseLinkInfo (data : Bytes) (flags offset : ℕ) :
    Yields (parseLinkInfo data flags offset) fun found => ∀ info ∈ found, InfoWithin data info.1 := by
  rw [parseLinkInfo]
  split_ifs with hflag hend
  · refine yields_pure fun info hinfo => ?_
    cases hinfo
    exact infoWithin_none _
  · exact yields_pure fun info hinfo => by cases hinfo
  · refine (yields_unpackLittle (by omega)).bind fun size _ => ?_
    refine (yields_unpackLittle (by omega)).bind fun headerSize _ => ?_
    refine (yields_unpackLittle (by omega)).bind fun infoFlags _ => ?_
    refine (yields_unpackLittle (by omega)).bind fun volumeIdOffset _ => ?_
    refine (yields_unpackLittle (by omega)).bind fun localOffset _ => ?_
    refine (yields_unpackLittle (by omega)).bind fun networkOffset _ => ?_
    refine (yields_unpackLittle (by omega)).bind fun suffixOffset _ => ?_
    refine (yields_readLong data _ _ (by decide)).bind fun localUnicodeOffset _ => ?_
    refine (yields_readLong data _ _ (by decide)).bind fun suffixUnicodeOffset _ => ?_
    by_cases hsize : 0 < size ∧ size ≤ data.length - offset
    · -- What is read from the slice is within the bytes.
      rw [if_pos hsize]
      have hpart := cut_within data offset (offset + size)
      refine (yields_readLocalInfo _ _ _ _ _).bind fun found hfound => ?_
      refine (yields_readNetworkInfo _ _ _).bind fun network hnetwork => yields_pure fun info hinfo => ?_
      cases hinfo
      refine ⟨hfound.2.within hpart, ?_, hnetwork.within hpart, hfound.1.within hpart⟩
      dsimp only
      split_ifs
      · exact textWithin_none
      · exact (textWithin_readInfoPath _ _ _).within hpart
    · rw [if_neg hsize]
      refine yields_pure fun info hinfo => ?_
      cases hinfo
      exact infoWithin_none _

theorem yields_readSizedString (data : Bytes) (offset : ℕ) (isUnicode : Bool) :
    Yields (readSizedString data offset isUnicode) fun found => TextWithin data found.1 := by
  rw [readSizedString]
  by_cases hend : data.length < offset + 2
  · rw [if_pos hend]
    exact yields_pure textWithin_none
  · rw [if_neg hend]
    exact (yields_unpackLittle (by omega)).bind fun count _ => yields_pure ⟨_, fromPart_cut _ _⟩

theorem yields_readFlagged (data : Bytes) (flags bit offset : ℕ) :
    Yields (readFlagged data flags bit offset) fun found => TextWithin data found.1 := by
  rw [readFlagged]
  split_ifs
  · exact yields_pure textWithin_none
  · exact yields_readSizedString data _ _

structure StringsWithin (data : Bytes) (strings : StringData) : Prop where
  description : TextWithin data strings.description
  relativePath : TextWithin data strings.relativePath
  workingDirectory : TextWithin data strings.workingDirectory
  arguments : TextWithin data strings.arguments
  iconLocation : TextWithin data strings.iconLocation

/-- **The texts are read from any bytes, wherever they would begin.** -/
theorem yields_readStringData (data : Bytes) (flags offset : ℕ) :
    Yields (readStringData data flags offset) fun found => StringsWithin data found.1 := by
  refine (yields_readFlagged data _ _ _).bind fun description hdescription => ?_
  refine (yields_readFlagged data _ _ _).bind fun relativePath hrelative => ?_
  refine (yields_readFlagged data _ _ _).bind fun workingDirectory hworking => ?_
  refine (yields_readFlagged data _ _ _).bind fun arguments harguments => ?_
  refine (yields_readFlagged data _ _ _).bind fun iconLocation hicon => ?_
  exact yields_pure ⟨hdescription, hrelative, hworking, harguments, hicon⟩

structure ExtraWithin (data : Bytes) (extra : ExtraData) : Prop where
  machineId : TextWithin data extra.machineId
  droid : DroidWithin data extra.droid
  birthDroid : DroidWithin data extra.birthDroid
  trackerDroid : DroidWithin data extra.trackerDroid
  trackerBirthDroid : DroidWithin data extra.trackerBirthDroid
  environmentTarget : TextWithin data extra.environmentTarget
  knownFolderGuid : FromPart guidFromLe data extra.knownFolderGuid
  darwinId : TextWithin data extra.darwinId

theorem extraWithin_none : ExtraWithin data noExtraData :=
  ⟨textWithin_none, .inl rfl, .inl rfl, .inl rfl, .inl rfl, textWithin_none, fromPart_none,
    textWithin_none⟩

theorem droidWithin_cut (block : Bytes) (a b c d : ℕ) :
    DroidWithin block (droidOf (cut block a b) (cut block c d)) :=
  .inr ⟨_, _, cut_within block a b, cut_within block c d, rfl⟩

/-- What a block adds is within the block. -/
theorem ExtraWithin.noteBlock {parsed : ExtraData} (h : ExtraWithin data parsed) {block : Bytes}
    (hblock : block <:+: data) (signature blockSize : ℕ) :
    ExtraWithin data (noteBlock signature blockSize block parsed) := by
  rw [Ingest.noteBlock]
  split_ifs
  · -- The tracker.
    have hdroid := (droidWithin_cut block 0x20 0x30 0x30 0x40).within hblock
    have hbirth := (droidWithin_cut block 0x40 0x50 0x50 0x60).within hblock
    exact { h with
      machineId := (textWithin_decodeMachineId _).within ((cut_within block _ _).trans hblock)
      droid := hdroid.or h.droid
      birthDroid := hbirth.or h.birthDroid
      trackerDroid := hdroid.or h.trackerDroid
      trackerBirthDroid := hbirth.or h.trackerBirthDroid }
  · -- The environment.
    refine { h with environmentTarget := TextWithin.or ?_ ((textWithin_readCString block 8).within hblock) }
    split_ifs
    · exact (textWithin_readUtf16z block _).within hblock
    · exact textWithin_none
  · exact { h with knownFolderGuid := (fromPart_cut 8 24).within hblock }
  · exact { h with }
  · exact { h with darwinId := (textWithin_readCString block 8).within hblock }
  · exact h

/-- **The chain of extra data ends in any bytes.**  By induction on the bytes behind the cursor: a
block that is passed has eight of them at least. -/
theorem yields_parseExtraDataBlocks (data : Bytes) (cursor : ℕ) {parsed : ExtraData}
    (h : ExtraWithin data parsed) :
    Yields (parseExtraDataBlocks data cursor parsed) fun found => ExtraWithin data found.1 := by
  induction hleft : data.length - cursor using Nat.strong_induction_on generalizing cursor parsed with
  | _ left ih =>
    rw [parseExtraDataBlocks]
    split_ifs with hcursor
    · refine (yields_unpackLittle hcursor).bind fun blockSize _ => ?_
      split_ifs with hzero hbad
      · exact yields_pure h
      · exact yields_pure h
      · refine (yields_unpackLittle (by omega)).bind fun signature _ => ?_
        exact ih _ (by omega) _ (h.noteBlock (cut_within data _ _) signature blockSize) rfl
    · exact yields_pure h

theorem yields_isShellLinkBytes (data : Bytes) :
    Yields (isShellLinkBytes data) fun isLink => isLink = true → 0x4C ≤ data.length := by
  rw [isShellLinkBytes]
  split_ifs with hlength
  · exact yields_pure fun h => by cases h
  · exact (yields_unpackLittle (by omega)).bind fun size _ => yields_pure fun _ => not_lt.mp hlength

theorem yields_readHeader (py : LinkPlatform) (h : 0x4C ≤ data.length) :
    Yields (py.readHeader data) fun _ => True := by
  refine (yields_unpackLittle (by omega)).bind fun flags _ => ?_
  refine (yields_unpackLittle (by omega)).bind fun fileAttributes _ => ?_
  refine (yields_unpackLittle (by omega)).bind fun created _ => ?_
  refine (yields_unpackLittle (by omega)).bind fun accessed _ => ?_
  refine (yields_unpackLittle (by omega)).bind fun modified _ => ?_
  refine (yields_unpackLittle (by omega)).bind fun fileSize _ => ?_
  refine (yields_unpackLittle (by omega)).bind fun iconIndex _ => ?_
  refine (yields_unpackLittle (by omega)).bind fun showCommand _ => ?_
  exact (yields_unpackLittle (by omega)).bind fun hotKey _ => yields_pure trivial

theorem yields_skipIdList (data : Bytes) (flags : ℕ) :
    Yields (skipIdList data flags) fun _ => True := by
  rw [skipIdList]
  split_ifs with hflag hend
  · exact yields_pure trivial
  · exact yields_pure trivial
  · exact (yields_unpackLittle (by omega)).bind fun size _ => yields_pure trivial

end Reader

/-! ### The main result -/

theorem documented_rejected {py : LinkPlatform} {data : Bytes} {warning : String}
    (h : warning = "ShellLink header not found" ∨
      warning = "ShellLink IDList flag set but list is truncated" ∨
        warning = "ShellLink LinkInfo flag set but block is truncated") :
    Documented py data (rejected warning) := by
  refine ⟨fun _ => ?_, fun link hlink => by cases hlink⟩
  rcases h with rfl | rfl | rfl <;> simp

theorem documented_assemble (py : LinkPlatform) {data : Bytes} (streamName : Option Text)
    (header : LinkHeader) {info : LinkInfo} {strings : StringData} {extra : ExtraData}
    (extraWarnings : List String) (hinfo : InfoWithin data info)
    (hstrings : StringsWithin data strings) (hextra : ExtraWithin data extra) :
    Documented py data (py.assemble streamName header info strings extra extraWarnings) := by
  refine ⟨fun h => (by cases h), fun link hlink => ?_⟩
  cases hlink
  exact {
    localPath := ⟨_, _, hinfo.localBasePath, hinfo.commonPathSuffix, rfl⟩
    commonPath := hinfo.commonPathSuffix
    networkPath := hinfo.network.networkPath
    shareName := hinfo.network.shareName
    deviceName := hinfo.network.deviceName
    driveType := hinfo.volume.driveType
    volumeSerialNumber := hinfo.volume.driveSerialNumber
    volumeLabel := hinfo.volume.volumeLabel
    description := hstrings.description
    relativePath := hstrings.relativePath
    workingDirectory := hstrings.workingDirectory
    arguments := hstrings.arguments
    iconLocation := hstrings.iconLocation
    machineId := hextra.machineId
    droid := hextra.droid
    birthDroid := hextra.birthDroid
    trackerDroid := hextra.trackerDroid
    trackerBirthDroid := hextra.trackerBirthDroid
    environmentTarget := hextra.environmentTarget
    knownFolderGuid := hextra.knownFolderGuid
    darwinId := hextra.darwinId }

/-- **Any bytes are parsed: what comes back is one of the three rejections, or a link whose fields
are decoded from parts of the bytes.** -/
theorem parseShellLinkBytes_total (py : LinkPlatform) (data : Bytes) (streamName : Option Text) :
    ∃ parsed, py.parseShellLinkBytes data streamName = .ok parsed ∧ Documented py data parsed := by
  refine (yields_isShellLinkBytes data).bind fun isLink hisLink => ?_
  split_ifs with hlink
  · exact yields_pure (documented_rejected (.inl rfl))
  · rw [Bool.not_eq_false] at hlink
    refine (yields_readHeader py (hisLink hlink)).bind fun header _ => ?_
    refine (yields_skipIdList data header.flags).bind fun start _ => ?_
    rcases start with - | start
    · exact yields_pure (documented_rejected (.inr (.inl rfl)))
    · refine (yields_parseLinkInfo data header.flags start).bind fun info hinfo => ?_
      rcases info with - | info
      · exact yields_pure (documented_rejected (.inr (.inr rfl)))
      · refine (yields_readStringData data header.flags info.2).bind fun strings hstrings => ?_
        refine (yields_parseExtraDataBlocks data strings.2 extraWithin_none).bind fun extra hextra => ?_
        exact yields_pure (documented_assemble py streamName header extra.2 (hinfo info rfl) hstrings
          hextra)

end Kairon.Ingest
