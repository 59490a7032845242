/-
Kairon/Lib/Url.lean

URLs as `urllib.parse` takes them apart.

`urlsplit` cuts a text into scheme, network location, path, query and fragment; the
host, the port and the user are then read off the network location.  What depends on
Unicode tables is gathered in `Conventions`.  `urlsplit_https` and the lemmas after it
say what a plain `https` URL is split into.
-/
import Mathlib

namespace Kairon.Url

/-! ### Cutting texts -/

/-- `str.partition`: what stands before the first separator, and what after it. -/
def cut (sep : Char) : List Char → List Char × Option (List Char)
  | [] => ([], none)
  | c :: text => if c = sep then ([], some text) else (c :: (cut sep text).1, (cut sep text).2)

/-- `str.rpartition`: what stands before the last separator, and what after it. -/
def cutLast (sep : Char) : List Char → Option (List Char) × List Char
  | [] => (none, [])
  | c :: text =>
    match cutLast sep text with
    | (some before, after) => (some (c :: before), after)
    | (none, after) => if c = sep then (some [], after) else (none, c :: after)

variable {sep c : Char} {text before after : List Char}

theorem cut_of_notMem (h : sep ∉ text) : cut sep text = (text, none) := by
  induction text with
  | nil => rfl
  | cons c text ih =>
    obtain ⟨hhead, htail⟩ := List.ne_and_not_mem_of_not_mem_cons h
    rw [cut, if_neg hhead.symm, ih htail]

theorem cut_append (h : sep ∉ before) : cut sep (before ++ sep :: after) = (before, some after) := by
  induction before with
  | nil => exact if_pos rfl
  | cons c before ih =>
    obtain ⟨hhead, htail⟩ := List.ne_and_not_mem_of_not_mem_cons h
    rw [List.cons_append, cut, if_neg hhead.symm, ih htail]

theorem cutLast_of_notMem (h : sep ∉ text) : cutLast sep text = (none, text) := by
  induction text with
  | nil => rfl
  | cons c text ih =>
    obtain ⟨hhead, htail⟩ := List.ne_and_not_mem_of_not_mem_cons h
    rw [cutLast, ih htail]
    exact if_neg hhead.symm

/-! ### ASCII letters -/

theorem toLower_eq {c d : Char} (h : c.toLower = d) :
    c = d ∨ 65 ≤ c.toNat ∧ c.toNat ≤ 90 ∧ d.toNat = c.toNat + 32 := by
  rw [Char.toLower] at h
  split_ifs at h with hupper
  · obtain ⟨hlow, hhigh⟩ := hupper
    rw [ge_iff_le, UInt32.le_iff_toNat_le] at hlow
    rw [UInt32.le_iff_toNat_le] at hhigh
    have hlow : 65 ≤ c.toNat := hlow
    have hhigh : c.toNat ≤ 90 := hhigh
    refine .inr ⟨hlow, hhigh, ?_⟩
    rw [← h]
    show (c.val + 32).toNat = c.val.toNat + 32
    have : c.val.toNat ≤ 90 := hhigh
    rw [UInt32.toNat_add]
    show (c.val.toNat + 32) % 2 ^ 32 = _
    omega
  · exact .inl h

theorem toLower_eq_plain {c d : Char} (h : c.toLower = d) (hd : d.toNat < 97) : c = d := by
  rcases toLower_eq h with heq | ⟨hlow, -, hshift⟩
  · exact heq
  · omega

theorem isAlphanum_of_toLower {a c : Char} (h : a.toLower = c.toLower)
    (ha : a.isAlphanum = true) : c.isAlphanum = true := by
  unfold Char.isAlphanum at ha ⊢
  rcases Bool.or_eq_true_iff.mp ha with halpha | hdigit
  · rw [← Char.isAlpha_toLower_eq_isAlpha, ← h, Char.isAlpha_toLower_eq_isAlpha, halpha,
      Bool.true_or]
  · -- a digit is no letter, so the two are the same
    simp only [Char.isDigit, Bool.and_eq_true, decide_eq_true_eq, UInt32.le_iff_toNat_le] at hdigit
    have hupper : ¬ a.isUpper = true := by
      simp only [Char.isUpper, decide_eq_true_eq, UInt32.le_iff_toNat_le]
      have := hdigit.2
      simp at this ⊢
      omega
    rw [Char.toLower_eq_of_not_isUpper hupper] at h
    have hca : c = a := toLower_eq_plain h.symm (by
      have := hdigit.2
      simp at this
      omega)
    rw [hca]
    exact ha

/-! ### `urlsplit` -/

/-- What the library takes from Unicode: `str.lower`, and whether
`_check_bracketed_netloc` and `_checknetloc` let a network location pass. -/
structure Conventions where
  lower : List Char → List Char
  lower_ascii : ∀ text, (∀ c ∈ text, c.toNat < 128) → lower text = text.map Char.toLower
  bracketed : List Char → Bool
  normal : List Char → Bool

structure SplitResult where
  scheme : List Char
  netloc : List Char
  path : List Char
  query : List Char
  fragment : List Char

/-- Control characters and spaces before the URL, and tabs and line breaks within it,
are dropped. -/
def clean (url : List Char) : List Char :=
  (url.dropWhile fun c => c.toNat ≤ 32).filter fun c => c ∉ ['\t', '\r', '\n']

def isSchemeChar (c : Char) : Bool := c.isAlphanum || c ∈ ['+', '-', '.']

def splitScheme (url : List Char) : List Char × List Char :=
  match cut ':' url with
  | (head, some rest) =>
    if (head.head?.any Char.isAlpha && head.all isSchemeChar) = true then
      (head.map Char.toLower, rest)
    else ([], url)
  | (_, none) => ([], url)

/-- `_splitnetloc`, for a rest that starts with two slashes. -/
def splitNetloc : List Char → List Char × List Char
  | '/' :: '/' :: rest => rest.span fun c => c ∉ ['/', '?', '#']
  | rest => ([], rest)

/-- `urlsplit`; `none` where it raises a `ValueError`. -/
def urlsplit (conv : Conventions) (url : List Char) : Option SplitResult :=
  let scheme := splitScheme (clean url)
  let netloc := splitNetloc scheme.2
  if ('[' ∈ netloc.1 ↔ ']' ∉ netloc.1) then none
  else if '[' ∈ netloc.1 ∧ ¬ conv.bracketed netloc.1 then none
  else
    let fragment := cut '#' netloc.2
    let query := cut '?' fragment.1
    if conv.normal netloc.1 then
      some ⟨scheme.1, netloc.1, query.1, query.2.getD [], fragment.2.getD []⟩
    else none

namespace SplitResult

/-- `_hostinfo`: the host, and the port where there is one. -/
def hostInfo (parsed : SplitResult) : List Char × Option (List Char) :=
  let hostInfo := (cutLast '@' parsed.netloc).2
  let found := match cut '[' hostInfo with
    | (_, some bracketed) =>
      ((cut ']' bracketed).1, (cut ':' ((cut ']' bracketed).2.getD [])).2)
    | (_, none) => cut ':' hostInfo
  (found.1, found.2.filter (· ≠ []))

/-- `hostname`: a zone after `%` keeps its case. -/
def hostname (conv : Conventions) (parsed : SplitResult) : Option (List Char) :=
  if parsed.hostInfo.1 = [] then none
  else match cut '%' parsed.hostInfo.1 with
    | (host, none) => some (conv.lower host)
    | (host, some zone) => some (conv.lower host ++ '%' :: zone)

/-- `port`; `none` where it raises a `ValueError`. -/
def port (parsed : SplitResult) : Option (Option ℕ) :=
  match parsed.hostInfo.2 with
  | none => some none
  | some digits =>
    if digits.all Char.isDigit ∧ Nat.ofDigitChars 10 digits 0 ≤ 65535 then
      some (some (Nat.ofDigitChars 10 digits 0))
    else none

def username (parsed : SplitResult) : Option (List Char) :=
  (cutLast '@' parsed.netloc).1.map fun userInfo => (cut ':' userInfo).1

def password (parsed : SplitResult) : Option (List Char) :=
  (cutLast '@' parsed.netloc).1.bind fun userInfo => (cut ':' userInfo).2

end SplitResult

/-! ### A plain `https` URL -/

theorem clean_of_forall (h : ∀ c ∈ text, 32 < c.toNat) : clean text = text := by
  have hdrop : (text.dropWhile fun c => c.toNat ≤ 32) = text := by
    rcases text with - | ⟨c, text⟩
    · rfl
    · refine List.dropWhile_cons_of_neg ?_
      have := h c (.head _)
      rw [decide_eq_true_iff]
      omega
  rw [clean, hdrop, List.filter_eq_self]
  intro c hc
  have hlow := h c hc
  rw [decide_eq_true_iff]
  intro hmem
  simp only [List.mem_cons, List.not_mem_nil, or_false] at hmem
  rcases hmem with rfl | rfl | rfl
  · exact absurd hlow (by decide)
  · exact absurd hlow (by decide)
  · exact absurd hlow (by decide)

/-- A network location without user, port, brackets and zone. -/
structure PlainHost (host : List Char) : Prop where
  nonempty : host ≠ []
  plain : ∀ c ∈ host, 32 < c.toNat ∧ c ∉ ['/', '?', '#', '[', ']', '@', ':', '%']

/-- A path that goes up to the end of the URL. -/
structure PlainPath (path : List Char) : Prop where
  absolute : path.head? = some '/'
  plain : ∀ c ∈ path, 32 < c.toNat ∧ c ∉ ['?', '#']

variable {conv : Conventions} {host path : List Char}

theorem PlainHost.notMem (h : PlainHost host) (hc : c ∈ ['/', '?', '#', '[', ']', '@', ':', '%']) :
    c ∉ host := fun hmem => (h.plain c hmem).2 hc

theorem PlainPath.notMem (h : PlainPath path) (hc : c ∈ ['?', '#']) : c ∉ path :=
  fun hmem => (h.plain c hmem).2 hc

theorem splitNetloc_append (hhost : PlainHost host) (hpath : PlainPath path) :
    splitNetloc ('/' :: '/' :: (host ++ path)) = (host, path) := by
  rw [splitNetloc, List.span_eq_takeWhile_dropWhile]
  obtain ⟨rest, rfl⟩ : ∃ rest, path = '/' :: rest := by
    rcases path with - | ⟨c, rest⟩
    · exact absurd hpath.absolute nofun
    · exact ⟨rest, by rw [Option.some.inj hpath.absolute]⟩
  have hstop : ∀ c ∈ host, (decide (c ∉ ['/', '?', '#'])) = true := by
    intro c hc
    rw [decide_eq_true_iff]
    intro hmem
    refine (hhost.plain c hc).2 ?_
    simp only [List.mem_cons, List.not_mem_nil, or_false] at hmem ⊢
    tauto
  rw [List.takeWhile_append_of_pos hstop, List.dropWhile_append_of_pos hstop]
  exact Prod.ext (List.append_nil host) rfl

/-- **What a plain `https` URL is split into.** -/
theorem urlsplit_https (hhost : PlainHost host) (hpath : PlainPath path) :
    urlsplit conv ("https://".toList ++ (host ++ path)) =
      if conv.normal host then some ⟨"https".toList, host, path, [], []⟩ else none := by
  have htext : "https://".toList ++ (host ++ path) =
      "https".toList ++ ':' :: ('/' :: '/' :: (host ++ path)) := rfl
  have hclean : clean ("https://".toList ++ (host ++ path)) =
      "https://".toList ++ (host ++ path) := by
    refine clean_of_forall fun c hc => ?_
    rcases List.mem_append.1 hc with hscheme | hrest
    · exact (by simp : ∀ c ∈ "https://".toList, 32 < c.toNat) c hscheme
    · rcases List.mem_append.1 hrest with hc | hc
      · exact (hhost.plain c hc).1
      · exact (hpath.plain c hc).1
  have hscheme : splitScheme ("https".toList ++ ':' :: ('/' :: '/' :: (host ++ path))) =
      ("https".toList, '/' :: '/' :: (host ++ path)) := by
    rw [splitScheme, cut_append (by decide)]
    rfl
  have hbrackets : ¬ ('[' ∈ host ↔ ']' ∉ host) := by
    rw [iff_true_right (hhost.notMem (by decide))]
    exact hhost.notMem (by decide)
  rw [urlsplit, hclean, htext, hscheme]
  simp only [splitNetloc_append hhost hpath]
  rw [if_neg hbrackets, if_neg (fun h => hhost.notMem (by decide) h.1),
    cut_of_notMem (hpath.notMem (by decide))]
  simp only [cut_of_notMem (hpath.notMem (by decide : '?' ∈ ['?', '#'])), Option.getD_none]

section

variable {parsed : SplitResult}

theorem hostInfo_of_plain (h : PlainHost parsed.netloc) :
    parsed.hostInfo = (parsed.netloc, none) := by
  rw [SplitResult.hostInfo, cutLast_of_notMem (h.notMem (by decide)),
    cut_of_notMem (h.notMem (by decide)), cut_of_notMem (h.notMem (by decide))]
  rfl

theorem hostname_of_plain (h : PlainHost parsed.netloc) :
    parsed.hostname conv = some (conv.lower parsed.netloc) := by
  rw [SplitResult.hostname, hostInfo_of_plain h, if_neg h.nonempty,
    cut_of_notMem (h.notMem (by decide))]

end

end Kairon.Url
