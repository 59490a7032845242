/-
Kairon/Search/Print.lean

Printing a syntax tree with explicit parentheses and quoted values, and
parsing it again.  A tree may hold an AND or OR with a single operand; the
parser returns the operand itself then, so that what comes back is the tree
with such nodes collapsed (`Node.collapse`), which has the same leaves and
the same boolean meaning.

The scanner's result on a printed tree is described up to the positions of
the tokens (`Scans`); positions are only used in error messages.
-/
import Kairon.Search.Grammar

namespace Kairon.Search

/-! ### Printing -/

/-- The inside of a quoted string. -/
def escape : Text → Text
  | [] => []
  | c :: cs => if c = '"' ∨ c = '\\' then '\\' :: c :: escape cs else c :: escape cs

def quote (value : Text) : Text := '"' :: (escape value ++ ['"'])

/-- The keyword between two operands, with its spaces. -/
def BoolOp.separator : BoolOp → Text
  | .and => " AND ".toList
  | .or => " OR ".toList

mutual

def Node.print : Node → Text
  | .text value => quote value
  | .predicate field operator value => field.name ++ operator ++ quote value
  | .exists field => "has:".toList ++ field.name
  | .not child => "NOT ".toList ++ child.print
  | .bool op children => '(' :: (printAll op children ++ [')'])

def printAll (op : BoolOp) : List Node → Text
  | [] => []
  | [n] => n.print
  | n :: ns => n.print ++ op.separator ++ printAll op ns

end

/-- The names a query can use. -/
def supportedNames : List Text :=
  fieldAliases.map (fun entry => entry.1.toList) ++ fieldSpecs.map FieldSpec.path

/-- A field as the parser resolves it. -/
structure ParsedField.Supported (f : ParsedField) : Prop where
  name : f.name ∈ supportedNames
  resolves : resolveField f.name = .ok f

/-- The operators of the language. -/
def operators : List Text := [[':'], ['>'], ['>', '='], ['<'], ['<', '=']]

mutual

/-- Leaves are over supported fields, and every AND and OR has an operand. -/
def Node.Printable : Node → Prop
  | .text _ => True
  | .predicate field operator _ => field.Supported ∧ operator ∈ operators
  | .exists field => field.Supported
  | .not child => child.Printable
  | .bool _ children => children ≠ [] ∧ AllPrintable children

def AllPrintable : List Node → Prop
  | [] => True
  | n :: ns => n.Printable ∧ AllPrintable ns

end

/-! ### What comes back -/

mutual

/-- The tree without single-operand ANDs and ORs. -/
def Node.collapse : Node → Node
  | .text value => .text value
  | .predicate field operator value => .predicate field operator value
  | .exists field => .exists field
  | .not child => .not child.collapse
  | .bool .and children => conj (collapseAll children)
  | .bool .or children => orNode (collapseAll children)

def collapseAll : List Node → List Node
  | [] => []
  | n :: ns => n.collapse :: collapseAll ns

end

mutual

/-- The leaves, from left to right. -/
def Node.leaves : Node → List Node
  | .text value => [.text value]
  | .predicate field operator value => [.predicate field operator value]
  | .exists field => [.exists field]
  | .not child => child.leaves
  | .bool _ children => leavesOf children

def leavesOf : List Node → List Node
  | [] => []
  | n :: ns => n.leaves ++ leavesOf ns

end

mutual

/-- The boolean meaning, given that of the leaves. -/
def Node.meaning (v : Node → Bool) : Node → Bool
  | .text value => v (.text value)
  | .predicate field operator value => v (.predicate field operator value)
  | .exists field => v (.exists field)
  | .not child => !child.meaning v
  | .bool .and children => meaningAll v children
  | .bool .or children => meaningAny v children

def meaningAll (v : Node → Bool) : List Node → Bool
  | [] => true
  | n :: ns => n.meaning v && meaningAll v ns

def meaningAny (v : Node → Bool) : List Node → Bool
  | [] => false
  | n :: ns => n.meaning v || meaningAny v ns

end

mutual

/-- The number of OR operators. -/
def Node.orTerms : Node → ℕ
  | .not child => child.orTerms
  | .bool .and children => orTermsOf children
  | .bool .or children => (children.length - 1) + orTermsOf children
  | .text _ => 0
  | .predicate _ _ _ => 0
  | .exists _ => 0

def orTermsOf : List Node → ℕ
  | [] => 0
  | n :: ns => n.orTerms + orTermsOf ns

end

/-- The keyword between two operands, as a token. -/
def BoolOp.key : BoolOp → TokenKind × Text
  | .and => (.and, "AND".toList)
  | .or => (.or, "OR".toList)

mutual

/-- The kinds and values of the printed tokens. -/
def Node.keys : Node → List (TokenKind × Text)
  | .text value => [(.string, value)]
  | .predicate field operator value => [(.word, field.name), (.op, operator), (.string, value)]
  | .exists field => [(.word, "has".toList), (.op, [':']), (.word, field.name)]
  | .not child => (.not, "NOT".toList) :: child.keys
  | .bool op children => (.lparen, ['(']) :: (keysOf op children ++ [(.rparen, [')'])])

def keysOf (op : BoolOp) : List Node → List (TokenKind × Text)
  | [] => []
  | [n] => n.keys
  | n :: ns => n.keys ++ op.key :: keysOf op ns

end

/-- A tree that the limits of scanner and parser allow. -/
structure Node.Within (n : Node) : Prop where
  tokens : n.keys.length ≤ maxTokens
  ors : n.orTerms ≤ maxOrTerms
  wildcards : n.wildcardClauses ≤ maxWildcardClauses
  ands : n.andsWithin = true

/-! ### Collapsing keeps leaves, meaning and limits -/

theorem leaves_orNode (ns : List Node) : (orNode ns).leaves = leavesOf ns := by
  rcases ns with - | ⟨n, - | ⟨m, ns⟩⟩ <;> simp [orNode, Node.leaves, leavesOf]

theorem leaves_conj (ns : List Node) : (conj ns).leaves = leavesOf ns := by
  rcases ns with - | ⟨n, - | ⟨m, ns⟩⟩ <;> simp [conj, Node.leaves, leavesOf]

theorem meaning_orNode (v : Node → Bool) (ns : List Node) :
    (orNode ns).meaning v = meaningAny v ns := by
  rcases ns with - | ⟨n, - | ⟨m, ns⟩⟩ <;> simp [orNode, Node.meaning, meaningAny]

theorem meaning_conj (v : Node → Bool) (ns : List Node) :
    (conj ns).meaning v = meaningAll v ns := by
  rcases ns with - | ⟨n, - | ⟨m, ns⟩⟩ <;> simp [conj, Node.meaning, meaningAll]

theorem length_collapseAll (ns : List Node) : (collapseAll ns).length = ns.length := by
  induction ns with
  | nil => rfl
  | cons n ns ih => simp [collapseAll, ih]

mutual

theorem leaves_collapse : ∀ n : Node, n.collapse.leaves = n.leaves
  | .text _ => rfl
  | .predicate _ _ _ => rfl
  | .exists _ => rfl
  | .not child => leaves_collapse child
  | .bool .and children => (leaves_conj _).trans (leaves_collapseAll children)
  | .bool .or children => (leaves_orNode _).trans (leaves_collapseAll children)

theorem leaves_collapseAll : ∀ ns : List Node, leavesOf (collapseAll ns) = leavesOf ns
  | [] => rfl
  | n :: ns => by rw [collapseAll, leavesOf, leavesOf, leaves_collapse n, leaves_collapseAll ns]

end

mutual

theorem meaning_collapse (v : Node → Bool) : ∀ n : Node, n.collapse.meaning v = n.meaning v
  | .text _ => rfl
  | .predicate _ _ _ => rfl
  | .exists _ => rfl
  | .not child => congrArg not (meaning_collapse v child)
  | .bool .and children => (meaning_conj v _).trans (meaning_collapseAll v children).1
  | .bool .or children => (meaning_orNode v _).trans (meaning_collapseAll v children).2

theorem meaning_collapseAll (v : Node → Bool) : ∀ ns : List Node,
    meaningAll v (collapseAll ns) = meaningAll v ns ∧
    meaningAny v (collapseAll ns) = meaningAny v ns
  | [] => ⟨rfl, rfl⟩
  | n :: ns => by
      obtain ⟨hall, hany⟩ := meaning_collapseAll v ns
      rw [collapseAll, meaningAll, meaningAll, meaningAny, meaningAny, meaning_collapse v n,
        hall, hany]
      exact ⟨rfl, rfl⟩

end

mutual

theorem wildcardClauses_collapse : ∀ n : Node, n.collapse.wildcardClauses = n.wildcardClauses
  | .text _ => rfl
  | .predicate _ _ _ => rfl
  | .exists _ => rfl
  | .not child => wildcardClauses_collapse child
  | .bool .and children => (wildcardClauses_conj _).trans (wildcardClauses_collapseAll children)
  | .bool .or children => (wildcardClauses_orNode _).trans (wildcardClauses_collapseAll children)

theorem wildcardClauses_collapseAll : ∀ ns : List Node,
    wildcardClausesOf (collapseAll ns) = wildcardClausesOf ns
  | [] => rfl
  | n :: ns => by
      rw [collapseAll, wildcardClausesOf, wildcardClausesOf, wildcardClauses_collapse n,
        wildcardClauses_collapseAll ns]

end

mutual

theorem andsWithin_collapse : ∀ n : Node, n.andsWithin = true → n.collapse.andsWithin = true
  | .text _, _ => rfl
  | .predicate _ _ _, _ => rfl
  | .exists _, _ => rfl
  | .not child, h => andsWithin_collapse child h
  | .bool .and children, h => by
      simp only [Node.andsWithin, Bool.and_eq_true] at h
      rw [Node.collapse, andsWithin_conj, length_collapseAll, andsWithin_collapseAll children h.2]
      simpa using h.1
  | .bool .or children, h => by
      simp only [Node.andsWithin, Bool.and_eq_true] at h
      rw [Node.collapse, andsWithin_orNode, andsWithin_collapseAll children h.2]

theorem andsWithin_collapseAll : ∀ ns : List Node,
    andsWithinAll ns = true → andsWithinAll (collapseAll ns) = true
  | [], _ => rfl
  | n :: ns, h => by
      simp only [andsWithinAll, Bool.and_eq_true] at h
      rw [collapseAll, andsWithinAll, andsWithin_collapse n h.1, andsWithin_collapseAll ns h.2]
      rfl

end

/-! ### The printed tokens are derivable -/

/-- The kind and the value of a token. -/
def Token.key (t : Token) : TokenKind × Text := (t.kind, t.value)

/-- The names that can be used stand for themselves in a query. -/
theorem supportedNames_words : ∀ name ∈ supportedNames,
    name ≠ [] ∧ name.head? ≠ some '=' ∧ (name.all isWordChar) = true ∧
      keywordOf name = none ∧ isHas name = false := by
  -- spelled out as characters first: the kernel is slow at decoding strings
  simp only [supportedNames, fieldAliases, fieldSpecs, keyword, leading, literal, numeric, text,
    date, List.map_cons, List.map_nil, List.cons_append, List.nil_append, String.reduceToList]
  decide +kernel

mutual

theorem derives_keys : ∀ n : Node, n.Printable → ∀ ts : List Token, ts.map Token.key = n.keys →
    Derives .unary ts [n.collapse]
  | .text value, _, ts, h => by
      obtain ⟨t, rfl, ht⟩ := List.map_eq_singleton_iff.mp h
      obtain ⟨hk, rfl⟩ := Prod.mk.inj ht
      exact .atom (.string hk)
  | .predicate field operator value, hp, ts, h => by
      obtain ⟨t₁, ts, rfl, h₁, h⟩ := List.map_eq_cons_iff.mp h
      obtain ⟨t₂, ts, rfl, h₂, h⟩ := List.map_eq_cons_iff.mp h
      obtain ⟨t₃, rfl, h₃⟩ := List.map_eq_singleton_iff.mp h
      obtain ⟨hk₁, hv₁⟩ := Prod.mk.inj h₁
      obtain ⟨hk₂, rfl⟩ := Prod.mk.inj h₂
      obtain ⟨hk₃, rfl⟩ := Prod.mk.inj h₃
      obtain ⟨-, -, -, -, hhas⟩ := supportedNames_words _ hp.1.name
      exact .atom (.predicate hk₁ (hv₁ ▸ hhas) (hv₁ ▸ hp.1.resolves) hk₂ (.inr hk₃))
  | .exists field, hp, ts, h => by
      obtain ⟨t₁, ts, rfl, h₁, h⟩ := List.map_eq_cons_iff.mp h
      obtain ⟨t₂, ts, rfl, h₂, h⟩ := List.map_eq_cons_iff.mp h
      obtain ⟨t₃, rfl, h₃⟩ := List.map_eq_singleton_iff.mp h
      obtain ⟨hk₁, hv₁⟩ := Prod.mk.inj h₁
      obtain ⟨hk₂, hv₂⟩ := Prod.mk.inj h₂
      obtain ⟨hk₃, hv₃⟩ := Prod.mk.inj h₃
      exact .atom (.exists hk₁ (by rw [hv₁]; rfl) ⟨hk₂, hv₂⟩ hk₃ (hv₃ ▸ hp.resolves))
  | .not child, hp, ts, h => by
      obtain ⟨t, ts, rfl, ht, h⟩ := List.map_eq_cons_iff.mp h
      exact .not (Prod.mk.inj ht).1 (derives_keys child hp ts h)
  | .bool op children, hp, ts, h => by
      obtain ⟨l, ts, rfl, hl, h⟩ := List.map_eq_cons_iff.mp h
      obtain ⟨ts, ts', rfl, hin, hout⟩ := List.map_eq_append_iff.mp h
      obtain ⟨r, rfl, hr⟩ := List.map_eq_singleton_iff.mp hout
      obtain ⟨hand, hor⟩ := derives_keysOf children hp.1 hp.2 ts
      cases op with
      | and => exact .group (Prod.mk.inj hl).1 (Prod.mk.inj hr).1 (.orLast (hand hin))
      | or => exact .group (Prod.mk.inj hl).1 (Prod.mk.inj hr).1 (hor hin)

theorem derives_keysOf : ∀ ns : List Node, ns ≠ [] → AllPrintable ns → ∀ ts : List Token,
    (ts.map Token.key = keysOf .and ns → Derives .ands ts (collapseAll ns)) ∧
    (ts.map Token.key = keysOf .or ns → Derives .ors ts (collapseAll ns))
  | [], h, _, _ => absurd rfl h
  | [n], _, hp, ts => by
      have hn := derives_keys n hp.1 ts
      exact ⟨fun h => .andLast (hn h), fun h => .orLast (.andLast (hn h))⟩
  | n :: m :: ns, _, hp, ts => by
      refine ⟨fun h => ?_, fun h => ?_⟩
      · obtain ⟨ts, ts', rfl, hn, hns⟩ := List.map_eq_append_iff.mp h
        obtain ⟨t, ts', rfl, ht, hns⟩ := List.map_eq_cons_iff.mp hns
        have hrest := derives_keysOf (m :: ns) (List.cons_ne_nil m ns) hp.2 ts'
        exact .andCons (derives_keys n hp.1 ts hn) (Prod.mk.inj ht).1 (hrest.1 hns)
      · obtain ⟨ts, ts', rfl, hn, hns⟩ := List.map_eq_append_iff.mp h
        obtain ⟨t, ts', rfl, ht, hns⟩ := List.map_eq_cons_iff.mp hns
        have hrest := derives_keysOf (m :: ns) (List.cons_ne_nil m ns) hp.2 ts'
        exact .orCons (.andLast (derives_keys n hp.1 ts hn)) (Prod.mk.inj ht).1 (hrest.2 hns)

end

/-- OR tokens among kinds and values. -/
def orCountKeys (ks : List (TokenKind × Text)) : ℕ := ks.countP fun k => k.1 = .or

theorem orCount_eq_keys (ts : List Token) : orCount ts = orCountKeys (ts.map Token.key) := by
  rw [orCount, orCountKeys, List.countP_map]
  rfl

mutual

theorem orCountKeys_keys : ∀ n : Node, orCountKeys n.keys = n.orTerms
  | .text _ => rfl
  | .predicate _ _ _ => rfl
  | .exists _ => rfl
  | .not child => by
      have ih := orCountKeys_keys child
      simpa [Node.keys, Node.orTerms, orCountKeys] using ih
  | .bool .and children => by
      have ih := (orCountKeys_keysOf children).1
      simpa [Node.keys, Node.orTerms, orCountKeys] using ih
  | .bool .or children => by
      have ih := (orCountKeys_keysOf children).2
      simpa [Node.keys, Node.orTerms, orCountKeys] using ih

theorem orCountKeys_keysOf : ∀ ns : List Node, orCountKeys (keysOf .and ns) = orTermsOf ns ∧
    orCountKeys (keysOf .or ns) = (ns.length - 1) + orTermsOf ns
  | [] => ⟨rfl, rfl⟩
  | [n] => by
      have ih := orCountKeys_keys n
      simp [keysOf, orTermsOf, ih]
  | n :: m :: ns => by
      have ihn := orCountKeys_keys n
      obtain ⟨hand, hor⟩ := orCountKeys_keysOf (m :: ns)
      simp only [orCountKeys] at ihn hand hor
      rw [orTermsOf]
      simp only [keysOf, orCountKeys, List.countP_append, List.countP_cons, ihn, hand, hor]
      refine ⟨by simp [BoolOp.key], ?_⟩
      simp [BoolOp.key]
      omega

end

/-! ### Scanning -/

/-- The scanner turns `s`, with `rest` after it, into tokens with these kinds
and values, and goes on with `rest`. -/
def Scans (s : Text) (ks : List (TokenKind × Text)) (rest : Text) : Prop :=
  ∀ n i, (s ++ rest).length ≤ n → ∃ ts m j, ts.map Token.key = ks ∧ rest.length ≤ m ∧
    tokenizeFrom n i (s ++ rest) = (ts ++ ·) <$> tokenizeFrom m j rest

theorem Scans.append {s s' rest : Text} {ks ks' : List (TokenKind × Text)}
    (h : Scans s ks (s' ++ rest)) (h' : Scans s' ks' rest) : Scans (s ++ s') (ks ++ ks') rest := by
  intro n i hn
  rw [List.append_assoc] at hn ⊢
  obtain ⟨ts, m, j, hts, hm, h⟩ := h n i hn
  obtain ⟨ts', m', j', hts', hm', h'⟩ := h' m j hm
  refine ⟨ts ++ ts', m', j', by rw [List.map_append, hts, hts'], hm', ?_⟩
  rw [h, h']
  cases tokenizeFrom m' j' rest with
  | error e => rfl
  | ok us =>
    change Except.ok (ts ++ (ts' ++ us)) = Except.ok (ts ++ ts' ++ us)
    rw [List.append_assoc]

/-- One token, and on with the rest. -/
theorem Scans.token {c : Char} {cs rest : Text} {k : TokenKind × Text}
    (h : ∀ n i, ∃ t j, t.key = k ∧
      tokenizeFrom (n + 1) i (c :: (cs ++ rest)) = (t :: ·) <$> tokenizeFrom n j rest) :
    Scans (c :: cs) [k] rest := by
  intro n i hn
  obtain ⟨n, rfl⟩ : ∃ m, n = m + 1 := ⟨n - 1, by simp at hn; omega⟩
  obtain ⟨t, j, ht, heq⟩ := h n i
  refine ⟨[t], n, j, by simp [ht], by simp at hn; omega, heq⟩

theorem scans_space (rest : Text) : Scans [' '] [] rest := by
  intro n i hn
  obtain ⟨n, rfl⟩ : ∃ m, n = m + 1 := ⟨n - 1, by simp at hn; omega⟩
  refine ⟨[], n, i + 1, rfl, by simpa using hn, ?_⟩
  have hspace : isSpace ' ' = true := by decide
  simp only [List.singleton_append, tokenizeFrom, hspace, if_true]
  cases tokenizeFrom n (i + 1) rest <;> rfl

theorem scans_lparen (rest : Text) : Scans ['('] [(.lparen, ['('])] rest := by
  refine Scans.token fun n i => ⟨⟨.lparen, ['('], i⟩, i + 1, rfl, ?_⟩
  simp [tokenizeFrom, show isSpace '(' = false by decide]

theorem scans_rparen (rest : Text) : Scans [')'] [(.rparen, [')'])] rest := by
  refine Scans.token fun n i => ⟨⟨.rparen, [')'], i⟩, i + 1, rfl, ?_⟩
  simp [tokenizeFrom, show isSpace ')' = false by decide]

/-- An operator that is not followed by `=`. -/
theorem scans_op {op : Text} (hop : op ∈ operators) {rest : Text}
    (hrest : rest.head? ≠ some '=') : Scans op [(.op, op)] rest := by
  have hspace : isSpace ':' = false ∧ isSpace '<' = false ∧ isSpace '>' = false := by decide
  simp only [operators, List.mem_cons, List.not_mem_nil, or_false] at hop
  rcases hop with rfl | rfl | rfl | rfl | rfl
  · refine Scans.token fun n i => ⟨⟨.op, [':'], i⟩, i + 1, rfl, ?_⟩
    simp [tokenizeFrom, hspace]
  · refine Scans.token fun n i => ⟨⟨.op, ['>'], i⟩, i + 1, rfl, ?_⟩
    simp [tokenizeFrom, hspace, hrest]
  · refine Scans.token fun n i => ⟨⟨.op, ['>', '='], i⟩, i + 2, rfl, ?_⟩
    simp [tokenizeFrom, hspace]
  · refine Scans.token fun n i => ⟨⟨.op, ['<'], i⟩, i + 1, rfl, ?_⟩
    simp [tokenizeFrom, hspace, hrest]
  · refine Scans.token fun n i => ⟨⟨.op, ['<', '='], i⟩, i + 2, rfl, ?_⟩
    simp [tokenizeFrom, hspace]

/-- A quoted string is read back as its content. -/
theorem quoted_escape (value rest : Text) :
    quoted (escape value ++ '"' :: rest) = some (value, rest) := by
  induction value with
  | nil => rfl
  | cons c cs ih =>
    unfold escape
    split
    · simp [quoted, ih]
    · next hc =>
        push Not at hc
        rw [List.cons_append, quoted, ih]
        · rfl
        · intro c' rest' hbackslash
          exact absurd hbackslash hc.2
        · exact hc.1

theorem scans_quote (value rest : Text) : Scans (quote value) [(.string, value)] rest := by
  refine Scans.token fun n i => ⟨⟨.string, value, i⟩,
    i + 1 + ((escape value ++ '"' :: rest).length - rest.length), rfl, ?_⟩
  have hspace : isSpace '"' = false := by decide
  have hq := quoted_escape value rest
  rw [List.append_assoc, List.singleton_append]
  simp only [tokenizeFrom, hspace, hq]
  rfl

theorem isWordChar_iff {c : Char} : isWordChar c = true ↔
    isSpace c = false ∧ c ∉ ['(', ')', '<', '>', ':', '"'] := by
  simp [isWordChar]

/-- A bare word ends where a character follows that is none of a word. -/
theorem scans_word {w rest : Text} (hne : w ≠ []) (hw : w.all isWordChar = true)
    (hrest : (rest.head?.any isWordChar) = false) :
    Scans w [(wordToken w 0).key] rest := by
  cases w with
  | nil => exact absurd rfl hne
  | cons c cs =>
    simp only [List.all_cons, Bool.and_eq_true] at hw
    have htake : (cs ++ rest).takeWhile isWordChar = cs := by
      rw [List.takeWhile_append_of_pos (List.all_eq_true.mp hw.2)]
      cases rest with
      | nil => simp
      | cons d ds => simp_all
    have hdrop : (cs ++ rest).dropWhile isWordChar = rest := by
      rw [List.dropWhile_append_of_pos (List.all_eq_true.mp hw.2)]
      cases rest with
      | nil => simp
      | cons d ds => simp_all
    refine Scans.token fun n i => ⟨wordToken (c :: cs) i, i + (c :: cs).length, ?_, ?_⟩
    · unfold wordToken
      split <;> rfl
    · obtain ⟨hspace, hc⟩ := isWordChar_iff.mp hw.1
      simp only [List.mem_cons, List.not_mem_nil, or_false, not_or] at hc
      obtain ⟨h₁, h₂, h₃, h₄, h₅, h₆⟩ := hc
      simp [tokenizeFrom, hspace, h₁, h₂, h₃, h₄, h₅, h₆, htake, hdrop]

/-- The name of a field is one word. -/
theorem scans_name {f : ParsedField} (hf : f.Supported) {rest : Text}
    (hrest : (rest.head?.any isWordChar) = false) : Scans f.name [(.word, f.name)] rest := by
  obtain ⟨hne, -, hall, hkey, -⟩ := supportedNames_words _ hf.name
  have h := scans_word hne hall hrest
  rwa [wordToken, hkey] at h

theorem scans_separator (op : BoolOp) (rest : Text) : Scans op.separator [op.key] rest := by
  have hspace : ∀ s : Text, ((' ' :: s).head?.any isWordChar) = false := by
    intro s
    simp only [List.head?_cons, Option.any_some]
    decide
  cases op with
  | and =>
    have hword : Scans "AND".toList [BoolOp.and.key] (' ' :: rest) :=
      scans_word (by decide) (by decide) (hspace rest)
    exact ((scans_space _).append hword).append (scans_space rest)
  | or =>
    have hword : Scans "OR".toList [BoolOp.or.key] (' ' :: rest) :=
      scans_word (by decide) (by decide) (hspace rest)
    exact ((scans_space _).append hword).append (scans_space rest)

/-- What comes after an operand inside a group. -/
theorem separator_head (op : BoolOp) (s : Text) :
    ((op.separator ++ s).head?.any isWordChar) = false := by
  cases op <;> rfl

mutual

theorem scans_print : ∀ n : Node, n.Printable → ∀ rest : Text,
    (rest.head?.any isWordChar) = false → Scans n.print n.keys rest
  | .text value, _, rest, _ => scans_quote value rest
  | .predicate field operator value, hp, rest, _ => by
      have hop : ∀ s : Text, ((operator ++ s).head?.any isWordChar) = false := by
        intro s
        have := hp.2
        simp only [operators, List.mem_cons, List.not_mem_nil, or_false] at this
        rcases this with rfl | rfl | rfl | rfl | rfl <;> rfl
      have hname := scans_name hp.1 (hop (quote value ++ rest))
      have hoperator : Scans operator [(.op, operator)] (quote value ++ rest) :=
        scans_op hp.2 (by simp [quote])
      exact (hname.append hoperator).append (scans_quote value rest)
  | .exists field, hp, rest, hrest => by
      have hhas : Scans "has".toList [(.word, "has".toList)] ([':'] ++ (field.name ++ rest)) :=
        scans_word (by decide) (by decide) rfl
      have hcolon : Scans [':'] [(.op, [':'])] (field.name ++ rest) := by
        obtain ⟨hne, hhead, -⟩ := supportedNames_words _ hp.name
        refine scans_op (by decide) ?_
        rwa [List.head?_append_of_ne_nil _ hne]
      exact (hhas.append hcolon).append (scans_name hp hrest)
  | .not child, hp, rest, hrest => by
      have hnot : Scans "NOT".toList [(.not, "NOT".toList)] ([' '] ++ (child.print ++ rest)) :=
        scans_word (by decide) (by decide) rfl
      exact (hnot.append (scans_space _)).append (scans_print child hp rest hrest)
  | .bool op children, hp, rest, _ => by
      have hin := scans_printAll op children hp.1 hp.2 ([')'] ++ rest) rfl
      exact (scans_lparen _).append (hin.append (scans_rparen rest))

theorem scans_printAll (op : BoolOp) : ∀ ns : List Node, ns ≠ [] → AllPrintable ns →
    ∀ rest : Text, (rest.head?.any isWordChar) = false → Scans (printAll op ns) (keysOf op ns) rest
  | [], h, _, _, _ => absurd rfl h
  | [n], _, hp, rest, hrest => scans_print n hp.1 rest hrest
  | n :: m :: ns, _, hp, rest, hrest => by
      have htail := scans_printAll op (m :: ns) (List.cons_ne_nil m ns) hp.2 rest hrest
      have hhead := scans_print n hp.1 (op.separator ++ (printAll op (m :: ns) ++ rest))
        (separator_head op _)
      have := (hhead.append (scans_separator op _)).append htail
      simpa [printAll, keysOf] using this

end

/-! ### The round trip -/

/-- The scanner reads a printed tree as its tokens. -/
theorem tokenize_print {n : Node} (hp : n.Printable) (hlen : n.keys.length ≤ maxTokens) :
    ∃ ts, tokenize n.print = .ok ts ∧ ts.map Token.key = n.keys := by
  obtain ⟨ts, m, j, hts, -, h⟩ := scans_print n hp [] rfl n.print.length 0 (by simp)
  have hnil : tokenizeFrom m j [] = .ok [] := by cases m <;> rfl
  rw [List.append_nil, hnil] at h
  have hlength : ts.length = n.keys.length := by rw [← hts, List.length_map]
  refine ⟨ts, ?_, hts⟩
  have h : tokenizeFrom n.print.length 0 n.print = .ok ts := by
    rw [h]
    exact congrArg Except.ok (List.append_nil ts)
  simp only [tokenize, h, bind, Except.bind]
  rw [if_neg (by omega)]
  rfl

/-- Printing and parsing gives the tree with single operands collapsed. -/
theorem parse_print {n : Node} (hp : n.Printable) (hw : n.Within) :
    ∃ ts, tokenize n.print = .ok ts ∧ parse ts = .ok n.collapse := by
  obtain ⟨ts, hts, hkeys⟩ := tokenize_print hp hw.tokens
  refine ⟨ts, hts, parse_eq_ok_iff.mpr ⟨⟨[n.collapse], ?_, rfl⟩, ?_, ?_, ?_⟩⟩
  · exact .orLast (.andLast (derives_keys n hp ts hkeys))
  · rw [orCount_eq_keys, hkeys, orCountKeys_keys]
    exact hw.ors
  · rw [wildcardClauses_collapse]
    exact hw.wildcards
  · exact andsWithin_collapse n hw.ands

/-- **The parser undoes printing and accepts exactly its grammar**, within the
limits; whatever else it is given, it raises `QuerySyntaxError`. -/
theorem parser_decides_grammar :
    (∀ n : Node, n.Printable → n.Within → ∃ ts n', tokenize n.print = .ok ts ∧
      parse ts = .ok n' ∧ n'.leaves = n.leaves ∧ ∀ v, n'.meaning v = n.meaning v) ∧
    (∀ ts n, parse ts = .ok n ↔ Query ts n ∧ WithinLimits ts n) ∧
    (∀ ts, (∃ n, parse ts = .ok n) ∨ ∃ e, parse ts = .error (.query e)) := by
  refine ⟨?_, fun ts n => parse_eq_ok_iff, ?_⟩
  · intro n hp hw
    obtain ⟨ts, hts, hparse⟩ := parse_print hp hw
    exact ⟨ts, _, hts, hparse, leaves_collapse n, fun v => meaning_collapse v n⟩
  · intro ts
    cases h : parse ts with
    | ok n => exact .inl ⟨n, rfl⟩
    | error e =>
      cases e with
      | query e => exact .inr ⟨e, rfl⟩
      | outOfFuel => exact absurd h (parse_ne_outOfFuel ts)

/-- `risk_score >= 70`, negated, beside a value with a quote. -/
def sampleTree : Node :=
  .bool .and
    [.not (.predicate ⟨"risk_score".toList, [numeric "risk_score"]⟩ ['>', '='] "70".toList),
      .predicate ⟨"file.name".toList, [leading "file.name"]⟩ [':'] ['"']]

theorem sampleTree_round_trip : ∃ ts n', tokenize sampleTree.print = .ok ts ∧
    parse ts = .ok n' ∧ n'.leaves = sampleTree.leaves ∧
    ∀ v, n'.meaning v = sampleTree.meaning v := by
  refine parser_decides_grammar.1 sampleTree ⟨by simp, ?_, ?_, trivial⟩ ⟨?_, ?_, ?_, ?_⟩
  · exact ⟨⟨by decide +kernel, rfl⟩, by decide⟩
  · exact ⟨⟨by decide +kernel, rfl⟩, by decide⟩
  · decide
  · decide
  · decide
  · decide

/-! ### A derivable query that is refused -/

/-- The word `a`, and `n` times `OR a`. -/
def orChain : ℕ → List Token
  | 0 => [⟨.word, ['a'], 0⟩]
  | n + 1 => ⟨.word, ['a'], 0⟩ :: ⟨.or, "OR".toList, 0⟩ :: orChain n

theorem derives_orChain (n : ℕ) : ∃ ns, Derives .ors (orChain n) ns := by
  have hword : Derives .ands [⟨.word, ['a'], 0⟩] [.text ['a']] :=
    .andLast (.atom (.word rfl (by decide)))
  induction n with
  | zero => exact ⟨_, .orLast hword⟩
  | succ n ih =>
    obtain ⟨ns, hns⟩ := ih
    exact ⟨_, .orCons hword rfl hns⟩

/-- Twenty-one ORs are derivable and refused. -/
theorem orChain_refused : ¬ ∀ ts, (∃ n, parse ts = .ok n) ↔ ∃ n, Query ts n := by
  intro h
  obtain ⟨ns, hns⟩ := derives_orChain 21
  obtain ⟨n, hn⟩ := (h (orChain 21)).mpr ⟨_, ns, hns, rfl⟩
  have hors := (parse_eq_ok_iff.mp hn).2.ors
  revert hors
  decide

end Kairon.Search
