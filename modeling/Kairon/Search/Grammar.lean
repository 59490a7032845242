/-
Kairon/Search/Grammar.lean

The grammar of the search language, and that the parser decides it.

    ors    ::=  ands  |  ands OR ors
    ands   ::=  unary  |  unary AND ands  |  unary ands
    unary  ::=  NOT unary  |  ( ors )  |  atom
    atom   ::=  has : field  |  field op value  |  word  |  string

`Derives` is this grammar with the syntax tree each derivation gives.  The
parser succeeds on a token sequence exactly if the sequence is derivable and
stays within the limits (`parse_eq_ok_iff`), and it never runs out of fuel
(`parse_ne_outOfFuel`).
-/
import Kairon.Lib.Settle
import Kairon.Search.Parser

namespace Kairon.Search

open Settle

/-! ### The grammar -/

/-- The operands of AND as one node. -/
def conj : List Node → Node
  | [node] => node
  | nodes => .bool .and nodes

/-- The atoms. -/
inductive Atom : List Token → Node → Prop
  | exists {keyword colon field : Token} {f : ParsedField} (hkeyword : keyword.kind = .word)
      (hhas : isHas keyword.value = true) (hcolon : colon.kind = .op ∧ colon.value = [':'])
      (hfield : field.kind = .word) (hf : resolveField field.value = .ok f) :
      Atom [keyword, colon, field] (.exists f)
  | predicate {name op value : Token} {f : ParsedField} (hname : name.kind = .word)
      (hhas : isHas name.value = false) (hf : resolveField name.value = .ok f)
      (hop : op.kind = .op) (hvalue : value.kind = .word ∨ value.kind = .string) :
      Atom [name, op, value] (.predicate f op.value value.value)
  | word {t : Token} (ht : t.kind = .word) (hhas : isHas t.value = false) :
      Atom [t] (.text t.value)
  | string {t : Token} (ht : t.kind = .string) : Atom [t] (.text t.value)

/-- What is derived: the operands of an OR, those of an AND, or one operand. -/
inductive Level
  | ors | ands | unary

inductive Derives : Level → List Token → List Node → Prop
  | orLast {ts : List Token} {ns : List Node} (h : Derives .ands ts ns) :
      Derives .ors ts [conj ns]
  | orCons {ts ts' : List Token} {ns ms : List Node} {t : Token} (h : Derives .ands ts ns)
      (ht : t.kind = .or) (h' : Derives .ors ts' ms) :
      Derives .ors (ts ++ t :: ts') (conj ns :: ms)
  | andLast {ts : List Token} {n : Node} (h : Derives .unary ts [n]) : Derives .ands ts [n]
  | andCons {ts ts' : List Token} {n : Node} {ns : List Node} {t : Token}
      (h : Derives .unary ts [n]) (ht : t.kind = .and) (h' : Derives .ands ts' ns) :
      Derives .ands (ts ++ t :: ts') (n :: ns)
  | adjacent {ts ts' : List Token} {n : Node} {ns : List Node} (h : Derives .unary ts [n])
      (h' : Derives .ands ts' ns) : Derives .ands (ts ++ ts') (n :: ns)
  | not {ts : List Token} {n : Node} {t : Token} (ht : t.kind = .not)
      (h : Derives .unary ts [n]) : Derives .unary (t :: ts) [.not n]
  | group {ts : List Token} {ns : List Node} {l r : Token} (hl : l.kind = .lparen)
      (hr : r.kind = .rparen) (h : Derives .ors ts ns) :
      Derives .unary (l :: (ts ++ [r])) [orNode ns]
  | atom {ts : List Token} {n : Node} (h : Atom ts n) : Derives .unary ts [n]

/-- The sequence is a query with this tree. -/
def Query (ts : List Token) (n : Node) : Prop := ∃ ns, Derives .ors ts ns ∧ n = orNode ns

/-! ### The limits -/

/-- The number of OR tokens. -/
def orCount (ts : List Token) : ℕ := ts.countP fun t => t.kind = .or

mutual

/-- The number of values with a wildcard. -/
def Node.wildcardClauses : Node → ℕ
  | .predicate _ _ value => if hasWildcard value then 1 else 0
  | .not child => child.wildcardClauses
  | .bool _ children => wildcardClausesOf children
  | .text _ => 0
  | .exists _ => 0

def wildcardClausesOf : List Node → ℕ
  | [] => 0
  | n :: ns => n.wildcardClauses + wildcardClausesOf ns

end

mutual

/-- No AND has too many operands. -/
def Node.andsWithin : Node → Bool
  | .not child => child.andsWithin
  | .bool op children =>
    (op = .or || decide (children.length ≤ maxQueryTerms)) && andsWithinAll children
  | _ => true

def andsWithinAll : List Node → Bool
  | [] => true
  | n :: ns => n.andsWithin && andsWithinAll ns

end

/-- The limits of the parser. -/
structure WithinLimits (ts : List Token) (n : Node) : Prop where
  ors : orCount ts ≤ maxOrTerms
  wildcards : n.wildcardClauses ≤ maxWildcardClauses
  ands : n.andsWithin = true

theorem wildcardClauses_orNode (ns : List Node) :
    (orNode ns).wildcardClauses = wildcardClausesOf ns := by
  rcases ns with - | ⟨n, - | ⟨m, ns⟩⟩ <;> simp [orNode, Node.wildcardClauses, wildcardClausesOf]

theorem wildcardClauses_conj (ns : List Node) :
    (conj ns).wildcardClauses = wildcardClausesOf ns := by
  rcases ns with - | ⟨n, - | ⟨m, ns⟩⟩ <;> simp [conj, Node.wildcardClauses, wildcardClausesOf]

theorem andsWithin_orNode (ns : List Node) : (orNode ns).andsWithin = andsWithinAll ns := by
  rcases ns with - | ⟨n, - | ⟨m, ns⟩⟩ <;> simp [orNode, Node.andsWithin, andsWithinAll]

theorem andsWithin_conj (ns : List Node) :
    (conj ns).andsWithin = (decide (ns.length ≤ maxQueryTerms) && andsWithinAll ns) := by
  rcases ns with - | ⟨n, - | ⟨m, ns⟩⟩ <;>
    simp [conj, Node.andsWithin, andsWithinAll, maxQueryTerms]

variable {ns : List Node}

theorem andNode_eq_ok {n : Node} :
    andNode ns = .ok n ↔ n = conj ns ∧ ns.length ≤ maxQueryTerms := by
  rcases ns with - | ⟨m, - | ⟨m', ns⟩⟩
  · simp [andNode, conj, maxQueryTerms, eq_comm]
  · simp [andNode, conj, maxQueryTerms, eq_comm]
  · by_cases h : (m :: m' :: ns).length > maxQueryTerms
    · rw [andNode, if_pos h]
      · refine ⟨fun hn => (by cases hn), fun hn => absurd hn.2 (Nat.not_le.mpr h)⟩
      · simp
    · rw [andNode, if_neg h]
      · rw [Except.ok.injEq, eq_comm]
        exact ⟨fun hn => ⟨hn, Nat.not_lt.mp h⟩, fun hn => hn.1⟩
      · simp

/-! ### Soundness -/

variable {kind : TokenKind}

theorem Cursor.accept_eq_some {c c' : Cursor} : c.accept kind = some c' ↔
      ∃ t rest, c.rest = t :: rest ∧ t.kind = kind ∧ c' = { c with rest := rest } := by
  unfold Cursor.accept
  split
  · next t rest h =>
      split
      · next hk => simp [h, hk, eq_comm]
      · next hk =>
          refine ⟨fun h => (by cases h), ?_⟩
          rintro ⟨t', rest', h', hk', -⟩
          rw [h] at h'
          obtain ⟨rfl, -⟩ := List.cons.inj h'
          exact absurd hk' hk
  · next h => simp [h]

/-- What was read between two positions of the parser. -/
structure Reads (c : Cursor) (ts : List Token) (wildcards : ℕ) (c' : Cursor) : Prop where
  rest : c.rest = ts ++ c'.rest
  ors : c'.orTerms = c.orTerms + orCount ts
  wild : c'.wildcards = c.wildcards + wildcards

/-- An atom is read as the grammar has it. -/
theorem parseAtom_sound {c c' : Cursor} {n : Node} (h : parseAtom c = .ok (n, c')) :
    ∃ ts, Atom ts n ∧ Reads c ts n.wildcardClauses c' := by
  unfold parseAtom at h
  split at h
  · cases h
  · next token rest hc =>
      split at h
      · next hhas =>
          unfold parseExists at h
          split at h
          · next colon rest' hrest =>
              simp only at hrest
              split at h
              · next hcolon =>
                  split at h
                  · next field rest'' =>
                      split at h
                      · cases h
                      · next hfield =>
                          split at h
                          · cases h
                          · next f hf =>
                              obtain ⟨rfl, rfl⟩ := Prod.mk.inj (Except.ok.inj h)
                              refine ⟨_, .exists hhas.1 hhas.2 hcolon (not_not.mp hfield) hf, ?_⟩
                              refine ⟨?_, ?_, rfl⟩
                              · rw [hc, hrest]
                                rfl
                              · simp [orCount, hhas.1, hcolon.1, not_not.mp hfield]
                  · cases h
              · cases h
          · cases h
      · next hhas =>
          split at h
          · next hop =>
              unfold parsePredicate at h
              split at h
              · cases h
              · next f hf =>
                  split at h
                  · next op value rest' hrest =>
                      simp only at hrest
                      split at h
                      · next hvalue =>
                          obtain ⟨rfl, rfl⟩ := Prod.mk.inj (Except.ok.inj h)
                          have hopk : op.kind = .op := by simpa [hrest] using hop.2
                          have hname : isHas token.value = false := by
                            simpa [hop.1] using hhas
                          refine ⟨_, .predicate hop.1 hname hf hopk hvalue, ?_⟩
                          refine ⟨?_, ?_, ?_⟩
                          · rw [hc, hrest]
                            rfl
                          · rcases hvalue with hv | hv <;> simp [orCount, hop.1, hopk, hv]
                          · simp [Node.wildcardClauses]
                      · cases h
                  · cases h
          · split at h
            · next htext =>
                obtain ⟨rfl, rfl⟩ := Prod.mk.inj (Except.ok.inj h)
                rcases htext with ht | ht
                · have hname : isHas token.value = false := by simpa [ht] using hhas
                  refine ⟨_, .word ht hname, hc, ?_, rfl⟩
                  simp [orCount, ht]
                · refine ⟨_, .string ht, hc, ?_, rfl⟩
                  simp [orCount, ht]
            · cases h

theorem orCount_append (ts ts' : List Token) : orCount (ts ++ ts') = orCount ts + orCount ts' := by
  simp [orCount]

theorem orCount_cons (t : Token) (ts : List Token) :
    orCount (t :: ts) = orCount ts + if t.kind = .or then 1 else 0 := by
  simp [orCount, List.countP_cons]

/-- The three functions read what the grammar derives, on any fuel. -/
theorem parse_sound (fuel : ℕ) :
    (∀ c ns c', parseOrs fuel c = .ok (ns, c') → andsWithinAll ns = true ∧
      ∃ ts, Derives .ors ts ns ∧ Reads c ts (wildcardClausesOf ns) c') ∧
    (∀ c ns c', parseAnds fuel c = .ok (ns, c') → andsWithinAll ns = true ∧
      ∃ ts, Derives .ands ts ns ∧ Reads c ts (wildcardClausesOf ns) c') ∧
    (∀ c n c', parseUnary fuel c = .ok (n, c') → n.andsWithin = true ∧
      ∃ ts, Derives .unary ts [n] ∧ Reads c ts n.wildcardClauses c') := by
  induction fuel with
  | zero =>
    refine ⟨?_, ?_, ?_⟩ <;> intro _ _ _ h <;> cases h
  | succ fuel ih =>
    obtain ⟨ihOrs, ihAnds, ihUnary⟩ := ih
    refine ⟨?_, ?_, ?_⟩
    · intro c ns c' h
      simp only [parseOrs, bind_eq_ok, Prod.exists] at h
      obtain ⟨operands, c₁, hands, n, hnode, h⟩ := h
      obtain ⟨hwithin, ts, hts, hreads⟩ := ihAnds _ _ _ hands
      obtain ⟨rfl, hlen⟩ := andNode_eq_ok.mp hnode
      have hconj : (conj operands).andsWithin = true := by
        rw [andsWithin_conj, hwithin, decide_eq_true hlen]
        rfl
      split at h
      · next c₂ hor =>
          obtain ⟨t, rest, hrest, hk, rfl⟩ := Cursor.accept_eq_some.mp hor
          simp only [bind_eq_ok, Prod.exists] at h
          obtain ⟨ms, c₃, hors, h⟩ := h
          obtain ⟨rfl, rfl⟩ := Prod.mk.inj (Except.ok.inj h)
          obtain ⟨hwithin', ts', hts', hreads'⟩ := ihOrs _ _ _ hors
          refine ⟨by simp [andsWithinAll, hconj, hwithin'], _, .orCons hts hk hts', ?_, ?_, ?_⟩
          · rw [hreads.rest, hrest, List.append_assoc, List.cons_append, ← hreads'.rest]
          · rw [hreads'.ors, orCount_append, orCount_cons, if_pos hk]
            simp only [hreads.ors]
            omega
          · rw [hreads'.wild, hreads.wild, wildcardClausesOf, wildcardClauses_conj]
            omega
      · obtain ⟨rfl, rfl⟩ := Prod.mk.inj (Except.ok.inj h)
        refine ⟨by simp [andsWithinAll, hconj], ts, .orLast hts, hreads.rest, hreads.ors, ?_⟩
        rw [hreads.wild, wildcardClausesOf, wildcardClauses_conj, wildcardClausesOf]
        rfl
    · intro c ns c' h
      simp only [parseAnds, bind_eq_ok, Prod.exists] at h
      obtain ⟨n, c₁, hunary, h⟩ := h
      obtain ⟨hwithin, ts, hts, hreads⟩ := ihUnary _ _ _ hunary
      split at h
      · next c₂ hand =>
          obtain ⟨t, rest, hrest, hk, rfl⟩ := Cursor.accept_eq_some.mp hand
          simp only [bind_eq_ok, Prod.exists] at h
          obtain ⟨ms, c₃, hands, h⟩ := h
          obtain ⟨rfl, rfl⟩ := Prod.mk.inj (Except.ok.inj h)
          obtain ⟨hwithin', ts', hts', hreads'⟩ := ihAnds _ _ _ hands
          refine ⟨by simp [andsWithinAll, hwithin, hwithin'], _, .andCons hts hk hts', ?_, ?_, ?_⟩
          · rw [hreads.rest, hrest, List.append_assoc, List.cons_append, ← hreads'.rest]
          · rw [hreads'.ors, hreads.ors, orCount_append, orCount_cons, if_neg (by simp [hk])]
            omega
          · rw [hreads'.wild, hreads.wild, wildcardClausesOf]
            omega
      · split at h
        · simp only [bind_eq_ok, Prod.exists] at h
          obtain ⟨ms, c₃, hands, h⟩ := h
          obtain ⟨rfl, rfl⟩ := Prod.mk.inj (Except.ok.inj h)
          obtain ⟨hwithin', ts', hts', hreads'⟩ := ihAnds _ _ _ hands
          refine ⟨by simp [andsWithinAll, hwithin, hwithin'], _, .adjacent hts hts', ?_, ?_, ?_⟩
          · rw [hreads.rest, List.append_assoc, ← hreads'.rest]
          · rw [hreads'.ors, hreads.ors, orCount_append]
            omega
          · rw [hreads'.wild, hreads.wild, wildcardClausesOf]
            omega
        · obtain ⟨rfl, rfl⟩ := Prod.mk.inj (Except.ok.inj h)
          refine ⟨by simp [andsWithinAll, hwithin], ts, .andLast hts, hreads.rest, hreads.ors, ?_⟩
          rw [hreads.wild, wildcardClausesOf, wildcardClausesOf]
          rfl
    · intro c n c' h
      simp only [parseUnary] at h
      split at h
      · next c₁ hnot =>
          obtain ⟨t, rest, hrest, hk, rfl⟩ := Cursor.accept_eq_some.mp hnot
          simp only [bind_eq_ok, Prod.exists] at h
          obtain ⟨m, c₂, hunary, h⟩ := h
          obtain ⟨rfl, rfl⟩ := Prod.mk.inj (Except.ok.inj h)
          obtain ⟨hwithin, ts, hts, hreads⟩ := ihUnary _ _ _ hunary
          refine ⟨hwithin, _, .not hk hts, ?_, ?_, hreads.wild⟩
          · rw [hrest, List.cons_append, ← hreads.rest]
          · rw [hreads.ors, orCount_cons, if_neg (by simp [hk])]
            rfl
      · split at h
        · next c₁ hopen =>
            obtain ⟨l, rest, hrest, hl, rfl⟩ := Cursor.accept_eq_some.mp hopen
            simp only [bind_eq_ok, Prod.exists] at h
            obtain ⟨ns, c₂, hors, h⟩ := h
            obtain ⟨hwithin, ts, hts, hreads⟩ := ihOrs _ _ _ hors
            split at h
            · next c₃ hclose =>
                obtain ⟨r, rest', hrest', hr, rfl⟩ := Cursor.accept_eq_some.mp hclose
                obtain ⟨rfl, rfl⟩ := Prod.mk.inj (Except.ok.inj h)
                refine ⟨by rw [andsWithin_orNode, hwithin], _, .group hl hr hts, ?_, ?_, ?_⟩
                · have := hreads.rest
                  simp only at this
                  rw [hrest, this, hrest']
                  simp
                · have hcount : orCount (l :: (ts ++ [r])) = orCount ts := by
                    simp [orCount, hl, hr]
                  rw [hcount]
                  exact hreads.ors
                · rw [wildcardClauses_orNode]
                  exact hreads.wild
            · cases h
        · obtain ⟨ts, hatom, hreads⟩ := parseAtom_sound h
          refine ⟨?_, ts, .atom hatom, hreads⟩
          cases hatom <;> rfl

/-! ### Completeness -/

/-- The tokens an operand begins with. -/
def TokenKind.startsOperand (k : TokenKind) : Bool := k ∈ [.word, .string, .not, .lparen]

variable {ts : List Token}

theorem Atom.head {n : Node} (h : Atom ts n) :
    ∃ t rest, ts = t :: rest ∧ t.kind.startsOperand = true := by
  cases h with
  | «exists» hk | predicate hk | word hk | string hk => exact ⟨_, _, rfl, by rw [hk]; rfl⟩

/-- Whatever is derived begins like an operand. -/
theorem Derives.head {l : Level} (h : Derives l ts ns) :
    ∃ t rest, ts = t :: rest ∧ t.kind.startsOperand = true := by
  induction h with
  | orLast _ ih => exact ih
  | orCons _ _ _ ih _ =>
    obtain ⟨t, rest, rfl, ht⟩ := ih
    exact ⟨t, _, rfl, ht⟩
  | andLast _ ih => exact ih
  | andCons _ _ _ ih _ | adjacent _ _ ih _ =>
    obtain ⟨t, rest, rfl, ht⟩ := ih
    exact ⟨t, _, rfl, ht⟩
  | not ht _ _ => exact ⟨_, _, rfl, by rw [ht]; rfl⟩
  | group hl _ _ _ => exact ⟨_, _, rfl, by rw [hl]; rfl⟩
  | atom h => exact h.head

/-- What may follow a phrase: at the outer levels nothing that would be read
as part of it. -/
def Level.follow : Level → Option TokenKind → Prop
  | _, none => True
  | _, some .rparen => True
  | .ors, _ => False
  | _, some .or => True
  | .ands, _ => False
  | .unary, some .op => False
  | .unary, _ => True

/-- The position after a phrase. -/
def Cursor.after (c : Cursor) (ts : List Token) (wildcards : ℕ) (rest : List Token) : Cursor :=
  ⟨rest, c.orTerms + orCount ts, c.wildcards + wildcards⟩

variable {rest : List Token}

theorem Level.follow_ne_op (h : Level.unary.follow (rest.head?.map Token.kind)) :
    (rest.head?.any fun t => decide (t.kind = .op)) = false := by
  cases rest with
  | nil => rfl
  | cons t rest =>
    simp only [List.head?_cons, Option.map_some, Option.any_some, decide_eq_false_iff_not] at *
    intro ht
    rw [ht] at h
    exact h

theorem parseAtom_complete {n : Node} (h : Atom ts n) {c : Cursor} (hc : c.rest = ts ++ rest)
    (hrest : Level.unary.follow (rest.head?.map Token.kind)) :
    parseAtom c = .ok (n, c.after ts n.wildcardClauses rest) := by
  cases h with
  | «exists» hk hhas hcolon hfield hf =>
    simp [parseAtom, parseExists, hc, hk, hhas, hcolon, hfield, hf, Cursor.after, orCount,
      Node.wildcardClauses]
  | predicate hk hhas hf hop hvalue =>
    have hor : ∀ t : Token, t.kind = .word ∨ t.kind = .string → t.kind ≠ .or := by
      rintro t (ht | ht) <;> simp [ht]
    simp [parseAtom, parsePredicate, hc, hk, hhas, hf, hop, hvalue, Cursor.after, orCount,
      Node.wildcardClauses, hor _ hvalue]
  | word hk hhas =>
    simp [parseAtom, hc, hk, hhas, Level.follow_ne_op hrest, Cursor.after, orCount,
      Node.wildcardClauses]
  | string hk =>
    simp [parseAtom, hc, hk, Cursor.after, orCount, Node.wildcardClauses]

theorem Cursor.accept_cons {c : Cursor} {t : Token} (hc : c.rest = t :: rest) (ht : t.kind = kind) :
    c.accept kind = some { c with rest := rest } :=
  Cursor.accept_eq_some.mpr ⟨t, rest, hc, ht, rfl⟩

theorem Cursor.accept_none {c : Cursor}
    (h : c.rest.head?.map Token.kind ≠ some kind) : c.accept kind = none := by
  cases hc : c.accept kind with
  | none => rfl
  | some c' =>
    obtain ⟨t, rest, hrest, ht, -⟩ := Cursor.accept_eq_some.mp hc
    rw [hrest] at h
    exact absurd (congrArg some ht) h

/-- What the parser does on a phrase with something after it. -/
def Level.Reads (l : Level) (fuel : ℕ) (c : Cursor) (ns : List Node) (c' : Cursor) : Prop :=
  match l with
  | .ors => parseOrs fuel c = .ok (ns, c')
  | .ands => parseAnds fuel c = .ok (ns, c')
  | .unary => ∀ n, ns = [n] → parseUnary fuel c = .ok (n, c')

/-- The fuel a phrase of this length needs. -/
def Level.fuel (l : Level) (length : ℕ) : ℕ :=
  match l with
  | .ors => 3 * length + 3
  | .ands => 3 * length + 2
  | .unary => 3 * length + 1

variable {k : Option TokenKind}

theorem Level.follow_ands (h : Level.ors.follow k) : Level.ands.follow k := by
  rcases k with - | k
  · trivial
  · cases k <;> trivial

theorem Level.follow_unary (h : Level.ands.follow k) : Level.unary.follow k := by
  rcases k with - | k
  · trivial
  · cases k <;> trivial

theorem Level.follow_ors_ne (h : Level.ors.follow k) : k ≠ some .or := by
  rintro rfl
  exact h

theorem Level.follow_ands_ne (h : Level.ands.follow k) : k ≠ some .and := by
  rintro rfl
  exact h

theorem Level.follow_ands_atOperand {c : Cursor}
    (h : Level.ands.follow (c.rest.head?.map Token.kind)) : c.atOperand = false := by
  unfold Cursor.atOperand
  cases hc : c.rest with
  | nil => rfl
  | cons t rest =>
    rw [hc] at h
    simp only [List.head?_cons, Option.map_some, Option.any_some] at h ⊢
    cases hk : t.kind <;> rw [hk] at h <;> first | rfl | exact absurd h id

/-- Two phrases with one token between them. -/
theorem Cursor.after_cons (c : Cursor) (ts ts' : List Token) (t : Token) (w w' : ℕ)
    (rest : List Token) :
    Cursor.after ⟨ts' ++ rest, c.orTerms + orCount ts + (if t.kind = .or then 1 else 0),
      c.wildcards + w⟩ ts' w' rest = c.after (ts ++ t :: ts') (w + w') rest := by
  simp only [Cursor.after, orCount_append, orCount_cons, Cursor.mk.injEq, true_and]
  omega

/-- **Every derivable phrase is read**, whatever may follow it. -/
theorem parse_complete {l : Level} (h : Derives l ts ns) :
    andsWithinAll ns = true → ∀ (c : Cursor) (rest : List Token) (fuel : ℕ),
      c.rest = ts ++ rest → l.follow (rest.head?.map Token.kind) → l.fuel ts.length ≤ fuel →
      l.Reads fuel c ns (c.after ts (wildcardClausesOf ns) rest) := by
  induction h with
  | @orLast ts ms h ih =>
    intro hw c rest fuel hc hrest hfuel
    obtain ⟨fuel, rfl⟩ : ∃ f, fuel = f + 1 := ⟨fuel - 1, by simp [Level.fuel] at hfuel; omega⟩
    simp only [andsWithinAll, andsWithin_conj, Bool.and_eq_true, decide_eq_true_eq] at hw
    have hands : parseAnds fuel c = .ok (ms, c.after ts (wildcardClausesOf ms) rest) :=
      ih hw.1.2 c rest fuel hc (Level.follow_ands hrest) (by simp [Level.fuel] at *; omega)
    have hor : (c.after ts (wildcardClausesOf ms) rest).accept .or = none :=
      Cursor.accept_none (Level.follow_ors_ne hrest)
    change parseOrs (fuel + 1) c = _
    simp only [parseOrs, hands, andNode_eq_ok.mpr ⟨rfl, hw.1.1⟩, bind, Except.bind, hor]
    simp [wildcardClausesOf, wildcardClauses_conj, pure, Except.pure]
  | @orCons ts ts' ns ms t h ht h' ih ih' =>
    intro hw c rest fuel hc hrest hfuel
    obtain ⟨fuel, rfl⟩ : ∃ f, fuel = f + 1 := ⟨fuel - 1, by simp [Level.fuel] at hfuel; omega⟩
    simp only [andsWithinAll, andsWithin_conj, Bool.and_eq_true, decide_eq_true_eq] at hw
    have hands : parseAnds fuel c
        = .ok (ns, c.after ts (wildcardClausesOf ns) (t :: (ts' ++ rest))) := by
      refine ih hw.1.2 c _ fuel (by rw [hc]; simp) ?_ (by simp [Level.fuel] at *; omega)
      simp only [List.head?_cons, Option.map_some, ht]
      trivial
    have hor : (c.after ts (wildcardClausesOf ns) (t :: (ts' ++ rest))).accept .or = some _ :=
      Cursor.accept_cons rfl ht
    have hors : parseOrs fuel ⟨ts' ++ rest, c.orTerms + orCount ts + 1,
        c.wildcards + wildcardClausesOf ns⟩ = .ok (ms, _) :=
      ih' hw.2 _ rest fuel rfl hrest (by simp [Level.fuel] at *; omega)
    change parseOrs (fuel + 1) c = _
    have hafter := Cursor.after_cons c ts ts' t (wildcardClausesOf ns) (wildcardClausesOf ms) rest
    rw [if_pos ht] at hafter
    simp only [parseOrs, hands, andNode_eq_ok.mpr ⟨rfl, hw.1.1⟩, bind, Except.bind, hor]
    simp only [Cursor.after] at hors hafter ⊢
    simp only [hors, pure, Except.pure, wildcardClausesOf, wildcardClauses_conj, hafter]
  | @andLast ts n h ih =>
    intro hw c rest fuel hc hrest hfuel
    obtain ⟨fuel, rfl⟩ : ∃ f, fuel = f + 1 := ⟨fuel - 1, by simp [Level.fuel] at hfuel; omega⟩
    have hunary : parseUnary fuel c = .ok (n, _) :=
      ih hw c rest fuel hc (Level.follow_unary hrest) (by simp [Level.fuel] at *; omega) n rfl
    have hand : (c.after ts (wildcardClausesOf [n]) rest).accept .and = none :=
      Cursor.accept_none (Level.follow_ands_ne hrest)
    have hnext : (c.after ts (wildcardClausesOf [n]) rest).atOperand = false :=
      Level.follow_ands_atOperand hrest
    change parseAnds (fuel + 1) c = _
    simp only [parseAnds, hunary, bind, Except.bind, hand, hnext]
    rfl
  | @andCons ts ts' n ns t h ht h' ih ih' =>
    intro hw c rest fuel hc hrest hfuel
    obtain ⟨fuel, rfl⟩ : ∃ f, fuel = f + 1 := ⟨fuel - 1, by simp [Level.fuel] at hfuel; omega⟩
    simp only [andsWithinAll, Bool.and_eq_true] at hw
    have hunary : parseUnary fuel c
        = .ok (n, c.after ts (wildcardClausesOf [n]) (t :: (ts' ++ rest))) := by
      refine ih (by simp [andsWithinAll, hw.1]) c _ fuel (by rw [hc]; simp) ?_
        (by simp [Level.fuel] at *; omega) n rfl
      simp only [List.head?_cons, Option.map_some, ht]
      trivial
    have hand : (c.after ts (wildcardClausesOf [n]) (t :: (ts' ++ rest))).accept .and = some _ :=
      Cursor.accept_cons rfl ht
    have hands : parseAnds fuel ⟨ts' ++ rest, c.orTerms + orCount ts,
        c.wildcards + wildcardClausesOf [n]⟩ = .ok (ns, _) :=
      ih' hw.2 _ rest fuel rfl hrest (by simp [Level.fuel] at *; omega)
    have hafter := Cursor.after_cons c ts ts' t (wildcardClausesOf [n]) (wildcardClausesOf ns) rest
    rw [if_neg (by simp [ht])] at hafter
    change parseAnds (fuel + 1) c = _
    simp only [parseAnds, hunary, bind, Except.bind, hand]
    simp only [Cursor.after] at hands hafter ⊢
    simp only [hands, pure, Except.pure]
    simp only [Nat.add_zero, wildcardClausesOf] at hafter ⊢
    rw [hafter]
  | @adjacent ts ts' n ns h h' ih ih' =>
    intro hw c rest fuel hc hrest hfuel
    obtain ⟨fuel, rfl⟩ : ∃ f, fuel = f + 1 := ⟨fuel - 1, by simp [Level.fuel] at hfuel; omega⟩
    simp only [andsWithinAll, Bool.and_eq_true] at hw
    obtain ⟨t, ts', rfl, ht⟩ := h'.head
    obtain ⟨t₀, ts₀, hts, -⟩ := h.head
    have hpos : 0 < ts.length := by rw [hts]; simp
    have hunary : parseUnary fuel c
        = .ok (n, c.after ts (wildcardClausesOf [n]) (t :: (ts' ++ rest))) := by
      refine ih (by simp [andsWithinAll, hw.1]) c _ fuel (by rw [hc]; simp) ?_
        (by simp [Level.fuel] at *; omega) n rfl
      simp only [List.head?_cons, Option.map_some]
      cases hk : t.kind <;> rw [hk] at ht <;> trivial
    have hand : (c.after ts (wildcardClausesOf [n]) (t :: (ts' ++ rest))).accept .and = none := by
      refine Cursor.accept_none ?_
      simp only [Cursor.after, List.head?_cons, Option.map_some]
      intro hk
      rw [Option.some.inj hk] at ht
      cases ht
    have hnext : (c.after ts (wildcardClausesOf [n]) (t :: (ts' ++ rest))).atOperand = true := ht
    have hands : parseAnds fuel (c.after ts (wildcardClausesOf [n]) (t :: (ts' ++ rest)))
        = .ok (ns, _) :=
      ih' hw.2 _ rest fuel rfl hrest (by simp [Level.fuel] at *; omega)
    change parseAnds (fuel + 1) c = _
    simp only [parseAnds, hunary, bind, Except.bind, hand, hnext, if_true, hands]
    simp only [Cursor.after, pure, Except.pure, orCount_append, wildcardClausesOf]
    simp only [Nat.add_zero, Nat.add_assoc]
  | @not ts n t ht h ih =>
    intro hw c rest fuel hc hrest hfuel m hm
    obtain rfl : Node.not n = m := List.head_eq_of_cons_eq hm
    obtain ⟨fuel, rfl⟩ : ∃ f, fuel = f + 1 := ⟨fuel - 1, by simp [Level.fuel] at hfuel; omega⟩
    have hnot : c.accept .not = some { c with rest := ts ++ rest } :=
      Cursor.accept_cons hc ht
    have hunary : parseUnary fuel { c with rest := ts ++ rest } = .ok (n, _) :=
      ih hw _ rest fuel rfl hrest (by simp [Level.fuel] at *; omega) n rfl
    simp only [parseUnary, hnot, hunary, bind, Except.bind, pure, Except.pure]
    simp [Cursor.after, orCount_cons, ht, wildcardClausesOf, Node.wildcardClauses]
  | @group ts ns l r hl hr h ih =>
    intro hw c rest fuel hc hrest hfuel m hm
    obtain rfl : orNode ns = m := List.head_eq_of_cons_eq hm
    obtain ⟨fuel, rfl⟩ : ∃ f, fuel = f + 1 := ⟨fuel - 1, by simp [Level.fuel] at hfuel; omega⟩
    have hnot : c.accept .not = none := by
      refine Cursor.accept_none ?_
      rw [hc]
      simp [hl]
    have hopen : c.accept .lparen = some { c with rest := ts ++ [r] ++ rest } :=
      Cursor.accept_cons hc hl
    have hors : parseOrs fuel { c with rest := ts ++ [r] ++ rest } = .ok (ns,
        Cursor.after { c with rest := ts ++ [r] ++ rest } ts (wildcardClausesOf ns)
          (r :: rest)) := by
      refine ih ?_ _ (r :: rest) fuel (by simp) ?_ (by simp [Level.fuel] at *; omega)
      · rw [← andsWithin_orNode]
        simpa [andsWithinAll] using hw
      · simp only [List.head?_cons, Option.map_some, hr]
        trivial
    have hclose : (Cursor.after { c with rest := ts ++ [r] ++ rest } ts (wildcardClausesOf ns)
        (r :: rest)).accept .rparen = some _ := Cursor.accept_cons rfl hr
    simp only [parseUnary, hnot, hopen, hors, bind, Except.bind, hclose, pure, Except.pure]
    simp [Cursor.after, orCount, hl, hr, wildcardClausesOf, wildcardClauses_orNode]
  | @atom ts n h =>
    intro hw c rest fuel hc hrest hfuel m hm
    obtain rfl : n = m := List.head_eq_of_cons_eq hm
    obtain ⟨fuel, rfl⟩ : ∃ f, fuel = f + 1 := ⟨fuel - 1, by simp [Level.fuel] at hfuel; omega⟩
    have hnone : ∀ k ∈ [TokenKind.not, .lparen], c.accept k = none := by
      intro k hk
      refine Cursor.accept_none ?_
      rw [hc]
      cases h <;> simp_all <;> rcases hk with rfl | rfl <;> simp
    simp only [parseUnary, hnone .not (by simp), hnone .lparen (by simp)]
    rw [parseAtom_complete h hc hrest]
    simp [wildcardClausesOf]

/-! ### The parser decides the grammar -/

theorem parse_eq_ok_iff {n : Node} : parse ts = .ok n ↔ Query ts n ∧ WithinLimits ts n := by
  constructor
  · intro h
    simp only [parse, bind_eq_ok, Prod.exists] at h
    obtain ⟨ns, c, hors, h⟩ := h
    obtain ⟨hands, ts', hts', hreads⟩ := (parse_sound _).1 _ _ _ hors
    split at h
    · cases h
    · next hrest =>
        have hts : ts = ts' := by simpa [hrest] using hreads.rest
        subst hts
        split_ifs at h with hor hwild
        obtain rfl := Except.ok.inj h
        have hors' := hreads.ors
        have hwild' := hreads.wild
        simp only [Nat.zero_add] at hors' hwild'
        refine ⟨⟨ns, hts', rfl⟩, ?_, ?_, ?_⟩
        · rw [← hors']
          omega
        · rw [wildcardClauses_orNode, ← hwild']
          omega
        · rw [andsWithin_orNode, hands]
  · rintro ⟨⟨ns, hts, rfl⟩, hlim⟩
    have hors : parseOrs (3 * ts.length + 3) ⟨ts, 0, 0⟩ = .ok (ns, _) :=
      parse_complete hts (by rw [← andsWithin_orNode, hlim.ands]) ⟨ts, 0, 0⟩ []
        (3 * ts.length + 3) (List.append_nil ts).symm trivial (Nat.le_refl _)
    have h₁ := hlim.ors
    have h₂ := hlim.wildcards
    rw [wildcardClauses_orNode] at h₂
    simp only [parse, hors, bind, Except.bind, Cursor.after, Nat.zero_add]
    rw [if_neg (by omega), if_neg (by omega)]
    rfl

/-! ### Enough fuel -/

theorem parseAtom_ne_outOfFuel (c : Cursor) : parseAtom c ≠ .error .outOfFuel := by
  unfold parseAtom parseExists parsePredicate
  repeat' split
  all_goals simp

theorem andNode_ne_outOfFuel (ns : List Node) : andNode ns ≠ .error .outOfFuel := by
  unfold andNode
  repeat' split
  all_goals simp

/-- Reading a phrase takes a token. -/
theorem Reads.length_lt {l : Level} {c c' : Cursor} {w : ℕ}
    (h : Reads c ts w c') (hts : Derives l ts ns) : c'.rest.length < c.rest.length := by
  obtain ⟨t, rest, rfl, -⟩ := hts.head
  rw [h.rest, List.length_append, List.length_cons]
  omega

theorem parse_fuel (fuel : ℕ) :
    (∀ c, parseOrs fuel c = .error .outOfFuel → fuel < 3 * c.rest.length + 3) ∧
    (∀ c, parseAnds fuel c = .error .outOfFuel → fuel < 3 * c.rest.length + 2) ∧
    (∀ c, parseUnary fuel c = .error .outOfFuel → fuel < 3 * c.rest.length + 1) := by
  induction fuel with
  | zero => refine ⟨?_, ?_, ?_⟩ <;> intro c _ <;> omega
  | succ fuel ih =>
    obtain ⟨ihOrs, ihAnds, ihUnary⟩ := ih
    obtain ⟨-, soundAnds, soundUnary⟩ := parse_sound fuel
    refine ⟨?_, ?_, ?_⟩
    · intro c h
      simp only [parseOrs, bind_eq_error, Prod.exists] at h
      rcases h with h | ⟨ns, c₁, hands, h | ⟨n, -, h⟩⟩
      · have := ihAnds c h
        omega
      · exact absurd h (andNode_ne_outOfFuel ns)
      · obtain ⟨-, ts, hts, hreads⟩ := soundAnds _ _ _ hands
        have hlt := hreads.length_lt hts
        split at h
        · next c₂ hor =>
            obtain ⟨t, rest, hrest, -, rfl⟩ := Cursor.accept_eq_some.mp hor
            simp only [bind_eq_error, Prod.exists] at h
            rcases h with h | ⟨_, _, _, h⟩
            · have := ihOrs _ h
              rw [hrest] at hlt
              simp only [List.length_cons] at hlt this
              omega
            · cases h
        · cases h
    · intro c h
      simp only [parseAnds, bind_eq_error, Prod.exists] at h
      rcases h with h | ⟨n, c₁, hunary, h⟩
      · have := ihUnary c h
        omega
      · obtain ⟨-, ts, hts, hreads⟩ := soundUnary _ _ _ hunary
        have hlt := hreads.length_lt hts
        split at h
        · next c₂ hand =>
            obtain ⟨t, rest, hrest, -, rfl⟩ := Cursor.accept_eq_some.mp hand
            simp only [bind_eq_error, Prod.exists] at h
            rcases h with h | ⟨_, _, _, h⟩
            · have := ihAnds _ h
              rw [hrest] at hlt
              simp only [List.length_cons] at hlt this
              omega
            · cases h
        · split at h
          · simp only [bind_eq_error, Prod.exists] at h
            rcases h with h | ⟨_, _, _, h⟩
            · have := ihAnds _ h
              omega
            · cases h
          · cases h
    · intro c h
      simp only [parseUnary] at h
      split at h
      · next c₁ hnot =>
          obtain ⟨t, rest, hrest, -, rfl⟩ := Cursor.accept_eq_some.mp hnot
          simp only [bind_eq_error, Prod.exists] at h
          rcases h with h | ⟨_, _, _, h⟩
          · have := ihUnary _ h
            rw [hrest, List.length_cons]
            simp only at this
            omega
          · cases h
      · split at h
        · next c₁ hopen =>
            obtain ⟨l, rest, hrest, -, rfl⟩ := Cursor.accept_eq_some.mp hopen
            simp only [bind_eq_error, Prod.exists] at h
            rcases h with h | ⟨ns, c₂, -, h⟩
            · have := ihOrs _ h
              rw [hrest, List.length_cons]
              simp only at this
              omega
            · split at h <;> cases h
        · exact absurd h (parseAtom_ne_outOfFuel c)

/-- Every failure of the parser is a `QuerySyntaxError`. -/
theorem parse_ne_outOfFuel (ts : List Token) : parse ts ≠ .error .outOfFuel := by
  intro h
  simp only [parse, bind_eq_error, Prod.exists] at h
  rcases h with h | ⟨ns, c, -, h⟩
  · have := (parse_fuel _).1 _ h
    simp at this
  · split at h
    · cases h
    · split_ifs at h <;> cases h

end Kairon.Search
