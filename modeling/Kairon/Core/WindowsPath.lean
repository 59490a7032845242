/-
Kairon/Core/WindowsPath.lean

`normalize_windows_path_for_classification` (`suspicious.py`): a path without the
prefixes of the Win32 and NT namespaces.
-/
import Mathlib.Data.Char
import Kairon.Search.Syntax

namespace Kairon.WindowsPath

open Search (Text strip)

/-- What follows a prefix, `str.removeprefix` after `str.startswith`. -/
def after (start text : Text) : Option Text :=
  if start <+: text then some (text.drop start.length) else none

/-- `path.replace("/", "\\")`. -/
def slashes (path : Text) : Text := path.map fun c => if c = '/' then '\\' else c

/-- The pattern `^[A-Za-z]:\\`. -/
def driveRooted : Text → Bool
  | letter :: ':' :: '\\' :: _ => letter.isAlpha
  | _ => false

/-- What follows a prefix, if it begins with a drive. -/
def afterDrive (start text : Text) : Option Text := (after start text).filter driveRooted

/-- `normalize_windows_path_for_classification`; no path is the empty text. -/
def normalizeForClassification (path : Text) : Option Text :=
  let normalized := slashes (strip path)
  if normalized = [] then none
  else
    ((after "\\\\?\\UNC\\".toList normalized).map fun rest => "\\\\".toList ++ rest)
      <|> ((after "\\??\\UNC\\".toList normalized).map fun rest => "\\\\".toList ++ rest)
      <|> (if "\\\\?\\Volume\x7b".toList <+: normalized then
          (after "\\\\?\\".toList normalized).map fun rest => '\\' :: rest
        else none)
      <|> afterDrive "\\\\?\\".toList normalized
      <|> afterDrive "\\??\\".toList normalized
      <|> afterDrive "\\\\.\\".toList normalized
      <|> some normalized

example : normalizeForClassification "\\??\\C:/Windows/cmd.exe".toList =
    some "C:\\Windows\\cmd.exe".toList := by decide +kernel

end Kairon.WindowsPath
