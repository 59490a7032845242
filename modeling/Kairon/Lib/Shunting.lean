/-
Kairon/Lib/Shunting.lean

What the shunting-yard conversion reads.

`Cond` is the grammar of conditions, with a run of negations in front of a name or a
group.  A negation is popped like a binary operator, so that of a run only the last one
waits for its operand; the others are put out at once and come to act on the value below:
the left operand of the operator before them, or nothing (`convert_tokens`, `run_code`).

`lead` counts the negations that a condition puts out before its first name, and `reading`
is the value it comes to.  Over all names and values the reading is the meaning exactly for
the conditions that are `Straight`: nothing is put out before the first name, and what is
put out elsewhere cancels in pairs (`reading_eq_iff`).
-/
import Mathlib
import Kairon.Lib.Rpn

namespace Kairon.Rpn

/-- A token with another name. -/
def Tok.map {α β : Type} (f : α → β) : Tok α → Tok β
  | .lparen => .lparen
  | .rparen => .rparen
  | .op o => .op o
  | .name a => .name (f a)

/-! ### Conditions -/

inductive Level
  | atom | factor | term | sum

/-- Conditions by the operators they may have outside of parentheses. -/
inductive Cond (α : Type) : Level → Type
  | name (a : α) : Cond α .atom
  | group (c : Cond α .sum) : Cond α .atom
  /-- So many negations. -/
  | nots (count : ℕ) (c : Cond α .atom) : Cond α .factor
  | factor (c : Cond α .factor) : Cond α .term
  | and (left : Cond α .term) (right : Cond α .factor) : Cond α .term
  | term (c : Cond α .term) : Cond α .sum
  | or (left : Cond α .sum) (right : Cond α .term) : Cond α .sum

namespace Cond

variable {α β V ε : Type} {l : Level}

def tokens : {l : Level} → Cond α l → List (Tok α)
  | _, name a => [.name a]
  | _, group c => .lparen :: (tokens c ++ [.rparen])
  | _, nots count c => List.replicate count (.op .not) ++ tokens c
  | _, factor c => tokens c
  | _, and left right => tokens left ++ .op .and :: tokens right
  | _, term c => tokens c
  | _, or left right => tokens left ++ .op .or :: tokens right

def map (f : α → β) : {l : Level} → Cond α l → Cond β l
  | _, name a => name (f a)
  | _, group c => group (map f c)
  | _, nots count c => nots count (map f c)
  | _, factor c => factor (map f c)
  | _, and left right => and (map f left) (map f right)
  | _, term c => term (map f c)
  | _, or left right => or (map f left) (map f right)

/-- The operators and parentheses. -/
def shape (c : Cond α l) : Cond Unit l := c.map fun _ => ()

/-- The meaning: a negation binds tighter than `and`, `and` tighter than `or`. -/
def value (alg : Algebra V) (v : α → V) : {l : Level} → Cond α l → V
  | _, name a => v a
  | _, group c => value alg v c
  | _, nots count c => alg.neg^[count] (value alg v c)
  | _, factor c => value alg v c
  | _, and left right => alg.conj (value alg v left) (value alg v right)
  | _, term c => value alg v c
  | _, or left right => alg.disj (value alg v left) (value alg v right)

/-! ### What is read -/

/-- The negations that are put out before the first name. -/
def lead : {l : Level} → Cond α l → ℕ
  | _, name _ => 0
  | _, group c => lead c
  | _, nots count c => (count - 1) + lead c
  | _, factor c => lead c
  | _, and left _ => lead left
  | _, term c => lead c
  | _, or left _ => lead left

/-- The value that is read: a run of negations is one, and what the right operand puts out
acts on the left one. -/
def reading (alg : Algebra V) (v : α → V) : {l : Level} → Cond α l → V
  | _, name a => v a
  | _, group c => reading alg v c
  | _, nots count c => if count = 0 then reading alg v c else alg.neg (reading alg v c)
  | _, factor c => reading alg v c
  | _, and left right =>
    alg.conj (alg.neg^[lead right] (reading alg v left)) (reading alg v right)
  | _, term c => reading alg v c
  | _, or left right =>
    alg.disj (alg.neg^[lead right] (reading alg v left)) (reading alg v right)

/-- The operators that wait behind a condition, the last one first. -/
def pending : {l : Level} → Cond α l → List Op
  | _, name _ => []
  | _, group _ => []
  | _, nots count _ => if count = 0 then [] else [.not]
  | _, factor c => pending c
  | _, and _ right => pending right ++ [.and]
  | _, term c => pending c
  | _, or _ right => pending right ++ [.or]

/-- What has been put out behind a condition. -/
def out : {l : Level} → Cond α l → List (Item α)
  | _, name a => [.name a]
  | _, group c => out c ++ (pending c).map .op
  | _, nots count c => List.replicate (count - 1) (.op .not) ++ out c
  | _, factor c => out c
  | _, and left right => out left ++ (pending left).map .op ++ out right
  | _, term c => out c
  | _, or left right => out left ++ (pending left).map .op ++ out right

/-- The row of a condition. -/
def code (c : Cond α l) : List (Item α) := c.out ++ c.pending.map .op

end Cond

/-! ### The conversion -/

section Convert

variable {α : Type} {l : Level} {rest : List (Tok α)} {stack : List Pending}
  {output : List (Item α)}

/-- Operators that may stand below a condition: none that it would pop. -/
def Below : Level → List Pending → Prop
  | .atom, _ => True
  | .factor, stack => ∀ o ∈ stack.head?, o ≠ some .not
  | .term, stack => ∀ o ∈ stack.head?, o = none ∨ o = some .or
  | .sum, stack => ∀ o ∈ stack.head?, o = none

theorem below_not (hstack : Below .factor stack) :
    ∀ o ∈ stack.head?, ∀ o' ∈ o, o'.precedence < Op.not.precedence := by
  rintro o ho o' rfl
  rcases o' with - | - | -
  · decide
  · decide
  · exact absurd rfl (hstack _ ho)

theorem below_and (hstack : Below .term stack) :
    ∀ o ∈ stack.head?, ∀ o' ∈ o, o'.precedence < Op.and.precedence := by
  rintro o ho o' rfl
  rcases hstack _ ho with h | h
  · exact absurd h nofun
  · rw [Option.some.inj h]
    decide

theorem below_or (hstack : Below .sum stack) :
    ∀ o ∈ stack.head?, ∀ o' ∈ o, o'.precedence < Op.or.precedence := by
  rintro o ho o' rfl
  exact absurd (hstack _ ho) nofun

theorem popTighter_pending {o : Op} {ops : List Op} (hops : ∀ o' ∈ ops, o.precedence ≤ o'.precedence)
    (hstack : ∀ o' ∈ stack.head?, ∀ o'' ∈ o', o''.precedence < o.precedence) :
    popTighter o (ops.map some ++ stack) output = (stack, output ++ ops.map .op) := by
  induction ops generalizing output with
  | nil =>
    rw [List.map_nil, List.map_nil, List.append_nil, List.nil_append]
    rcases stack with - | ⟨- | o', stack⟩
    · rfl
    · rfl
    · have hlt := hstack (some o') rfl o' rfl
      rw [popTighter, if_neg (not_le.2 hlt)]
  | cons o' ops ih =>
    rw [List.map_cons, List.cons_append, popTighter, if_pos (hops o' (.head _)),
      ih fun o'' h => hops o'' (.tail _ h), List.map_cons, List.append_assoc]
    rfl

theorem closeParen_pending {ops : List Op} :
    closeParen (ops.map some ++ none :: stack) output = some (stack, output ++ ops.map .op) := by
  induction ops generalizing output with
  | nil =>
    rw [List.map_nil, List.map_nil, List.append_nil]
    rfl
  | cons o ops ih =>
    rw [List.map_cons, List.cons_append, closeParen, ih, List.map_cons, List.append_assoc]
    rfl

theorem popAll_pending {ops : List Op} :
    popAll (ops.map some) output = some (output ++ ops.map .op) := by
  induction ops generalizing output with
  | nil =>
    rw [List.map_nil, List.map_nil, List.append_nil]
    rfl
  | cons o ops ih =>
    rw [List.map_cons, popAll, ih, List.map_cons, List.append_assoc]
    rfl

/-- A negation behind a negation puts the first one out. -/
theorem convert_more_nots (count : ℕ) (hstack : Below .factor stack) :
    convert (List.replicate count (.op .not) ++ rest) (some .not :: stack) output =
      convert rest (some .not :: stack) (output ++ List.replicate count (.op .not)) := by
  induction count generalizing output with
  | zero => rw [List.replicate_zero, List.replicate_zero, List.nil_append, List.append_nil]
  | succ count ih =>
    have hpop : popTighter .not (some .not :: stack) output =
        (stack, output ++ [(.op .not : Item α)]) :=
      @popTighter_pending α stack output .not [.not] (by decide) (below_not hstack)
    rw [List.replicate_succ, List.cons_append, convert, hpop, ih, List.replicate_succ,
      List.append_assoc, List.singleton_append]

theorem convert_nots (count : ℕ) (hstack : Below .factor stack) :
    convert (List.replicate count (.op .not) ++ rest) stack output =
      convert rest ((if count = 0 then [] else [some .not]) ++ stack)
        (output ++ List.replicate (count - 1) (.op .not)) := by
  rcases count with - | count
  · rw [if_pos rfl, List.replicate_zero, List.nil_append, List.nil_append, Nat.zero_sub,
      List.replicate_zero, List.append_nil]
  · have hpop : popTighter .not stack output = (stack, output) := by
      have hnone := @popTighter_pending α stack output .not [] (fun _ h => nomatch h)
        (below_not hstack)
      rwa [List.map_nil, List.map_nil, List.nil_append, List.append_nil] at hnone
    rw [List.replicate_succ, List.cons_append, convert, hpop, convert_more_nots count hstack,
      if_neg (Nat.succ_ne_zero count), Nat.add_sub_cancel]
    rfl

theorem pending_atom (c : Cond α .atom) : c.pending = [] := by
  rcases c with - | - <;> rfl

theorem pending_factor (c : Cond α .factor) : ∀ o ∈ c.pending, o = .not := by
  rcases c with - | - | ⟨count, c⟩
  rw [Cond.pending]
  split_ifs
  · exact fun _ h => nomatch h
  · exact fun o h => List.mem_singleton.1 h

theorem pending_term (c : Cond α .term) : ∀ o ∈ c.pending, Op.and.precedence ≤ o.precedence := by
  intro o ho
  rcases c with - | - | - | c | ⟨left, right⟩
  · rw [pending_factor c o ho]
    decide
  · rcases List.mem_append.1 ho with ho | ho
    · rw [pending_factor right o ho]
      decide
    · rw [List.mem_singleton.1 ho]

theorem or_precedence_le (o : Op) : Op.or.precedence ≤ o.precedence := by
  rcases o with - | - | - <;> decide

/-- **The conversion of a condition**: what is put out, and what waits on the stack. -/
theorem convert_tokens (c : Cond α l) (hstack : Below l stack) :
    convert (c.tokens ++ rest) stack output =
      convert rest (c.pending.map some ++ stack) (output ++ c.out) := by
  induction c generalizing rest stack output with
  | name a => rfl
  | group c ih =>
    have hopen : Below .sum (none :: stack) := fun o ho => (Option.some.inj ho).symm
    rw [Cond.tokens, List.cons_append, List.append_assoc, convert, ih hopen,
      List.singleton_append, convert, closeParen_pending, Cond.pending, Cond.out,
      List.append_assoc]
    rfl
  | nots count c ih =>
    rw [Cond.tokens, List.append_assoc, convert_nots count hstack, ih trivial, pending_atom c,
      Cond.pending, Cond.out, List.append_assoc]
    split_ifs <;> rfl
  | factor c ih =>
    refine ih fun o ho => ?_
    rcases hstack o ho with rfl | rfl
    · exact nofun
    · exact nofun
  | and left right ihLeft ihRight =>
    have hright : Below .factor (some .and :: stack) := fun o ho => by
      rw [← Option.some.inj ho]
      exact nofun
    rw [Cond.tokens, List.append_assoc, ihLeft hstack, List.cons_append, convert,
      popTighter_pending (pending_term left) (below_and hstack), ihRight hright, Cond.pending,
      Cond.out, List.map_append]
    simp only [List.append_assoc, List.map_cons, List.map_nil, List.singleton_append]
  | term c ih =>
    refine ih fun o ho => ?_
    exact .inl (hstack o ho)
  | or left right ihLeft ihRight =>
    have hright : Below .term (some .or :: stack) := fun o ho => .inr (Option.some.inj ho).symm
    rw [Cond.tokens, List.append_assoc, ihLeft hstack, List.cons_append, convert,
      popTighter_pending (fun o (_ : o ∈ left.pending) => or_precedence_le o) (below_or hstack),
      ihRight hright, Cond.pending, Cond.out, List.map_append]
    simp only [List.append_assoc, List.map_cons, List.map_nil, List.singleton_append]

theorem toRpn_tokens (c : Cond α .sum) : toRpn c.tokens = some c.code := by
  have hconvert : convert (c.tokens ++ []) [] [] =
      convert [] (c.pending.map some ++ []) ([] ++ c.out) := convert_tokens c fun _ ho => nomatch ho
  rw [List.append_nil, List.append_nil, List.nil_append] at hconvert
  rw [toRpn, hconvert, convert, popAll_pending, Cond.code]

end Convert

/-! ### The machine -/

section Machine

variable {α V ε : Type} {l : Level} {alg : Algebra V} {underflow leftover : ε} {v : α → V}

theorem run_append (is js : List (Item α)) (operand : α → Except ε V) (stack : List V) :
    run alg underflow operand (is ++ js) stack =
      (run alg underflow operand is stack).bind (run alg underflow operand js) := by
  induction is generalizing stack with
  | nil => rfl
  | cons i is ih =>
    rw [List.cons_append, run, run]
    rcases step alg underflow operand i stack with e | stack'
    · rfl
    · exact ih stack'

/-- What negations do to the value on top; there has to be one. -/
def negateTop (alg : Algebra V) (underflow : ε) : ℕ → List V → Except ε (List V)
  | 0, stack => .ok stack
  | _ + 1, [] => .error underflow
  | count + 1, x :: stack => .ok (alg.neg^[count + 1] x :: stack)

theorem run_nots (operand : α → Except ε V) (count : ℕ) (stack : List V) :
    run alg underflow operand (List.replicate count (.op .not)) stack =
      negateTop alg underflow count stack := by
  induction count generalizing stack with
  | zero => rfl
  | succ count ih =>
    rcases stack with - | ⟨x, stack⟩
    · rfl
    · have hstep : run alg underflow operand (List.replicate (count + 1) (.op .not)) (x :: stack) =
          run alg underflow operand (List.replicate count (.op .not)) (alg.neg x :: stack) := rfl
      rw [hstep, ih]
      rcases count with - | count <;> rfl

theorem negateTop_add (first second : ℕ) (stack : List V) :
    (negateTop alg underflow first stack).bind (negateTop alg underflow second) =
      negateTop alg underflow (first + second) stack := by
  rcases first with - | first
  · rw [Nat.zero_add]
    rfl
  · rcases stack with - | ⟨x, stack⟩
    · rw [Nat.succ_add]
      rfl
    · rcases second with - | second
      · rfl
      · have hiterate : alg.neg^[second + 1] (alg.neg^[first + 1] x) =
            alg.neg^[first + (second + 1) + 1] x := by
          rw [← Function.iterate_add_apply,
            show second + 1 + (first + 1) = first + (second + 1) + 1 by omega]
        rw [Nat.succ_add, negateTop, negateTop, ← hiterate]
        rfl

theorem code_nots (count : ℕ) (c : Cond α .atom) : (Cond.nots count c).code =
    List.replicate (count - 1) (.op .not) ++ (c.code ++ if count = 0 then [] else [.op .not]) := by
  rw [Cond.code, Cond.code, Cond.out, Cond.pending, pending_atom, List.map_nil, List.append_nil,
    List.append_assoc]
  split_ifs <;> rfl

theorem code_and (left : Cond α .term) (right : Cond α .factor) :
    (Cond.and left right).code = left.code ++ (right.code ++ [.op .and]) := by
  rw [Cond.code, Cond.code, Cond.code, Cond.out, Cond.pending, List.map_append]
  simp only [List.append_assoc, List.map_cons, List.map_nil]

theorem code_or (left : Cond α .sum) (right : Cond α .term) :
    (Cond.or left right).code = left.code ++ (right.code ++ [.op .or]) := by
  rw [Cond.code, Cond.code, Cond.code, Cond.out, Cond.pending, List.map_append]
  simp only [List.append_assoc, List.map_cons, List.map_nil]

/-- **The run of a condition**: what it puts out first acts on the stack, and its reading
comes on top. -/
theorem run_code (c : Cond α l) (stack : List V) :
    run alg underflow (fun a => .ok (v a)) c.code stack =
      (negateTop alg underflow c.lead stack).map (c.reading alg v :: ·) := by
  induction c generalizing stack with
  | name a => rfl
  | group c ih =>
    have hcode : (Cond.group c).code = c.code := by
      rw [Cond.code, Cond.out, Cond.pending, List.map_nil, List.append_nil, Cond.code]
    rw [hcode]
    exact ih stack
  | nots count c ih =>
    rw [code_nots, run_append, run_nots, Cond.lead, ← negateTop_add]
    rcases negateTop alg underflow (count - 1) stack with e | stack'
    · rfl
    · have hih := ih stack'
      rw [Except.bind, run_append, hih, Except.bind, Cond.reading]
      rcases negateTop alg underflow c.lead stack' with e | stack''
      · rfl
      · split_ifs <;> rfl
  | factor c ih => exact ih stack
  | and left right ihLeft ihRight =>
    rw [code_and, run_append, ihLeft, Cond.lead]
    rcases negateTop alg underflow left.lead stack with e | stack'
    · rfl
    · rw [Except.map, Except.bind, run_append, ihRight, Cond.reading]
      rcases right.lead with - | lead <;> rfl
  | term c ih => exact ih stack
  | or left right ihLeft ihRight =>
    rw [code_or, run_append, ihLeft, Cond.lead]
    rcases negateTop alg underflow left.lead stack with e | stack'
    · rfl
    · rw [Except.map, Except.bind, run_append, ihRight, Cond.reading]
      rcases right.lead with - | lead <;> rfl

theorem eval_code (c : Cond α l) : eval alg underflow leftover (fun a => .ok (v a)) c.code =
      if c.lead = 0 then .ok (c.reading alg v) else .error underflow := by
  rw [eval, run_code]
  rcases c.lead with - | lead <;> rfl

end Machine

/-! ### Straight conditions -/

namespace Cond

variable {α β : Type} {l : Level}

/-- The negations of a name or a group that its reading lacks. -/
def spare : {l : Level} → Cond α l → ℕ
  | _, name _ => 0
  | _, group c => spare c
  | _, nots count c => (count - 1) + spare c
  | _, factor c => spare c
  | _, and _ _ => 0
  | _, term c => spare c
  | _, or _ _ => 0

/-- Under every operator, what the left operand lacks comes back from the right one, and
the right operand lacks nothing. -/
def Balanced : {l : Level} → Cond α l → Prop
  | _, name _ => True
  | _, group c => Balanced c
  | _, nots _ c => Balanced c
  | _, factor c => Balanced c
  | _, and left right =>
    Balanced left ∧ Balanced right ∧ Even (spare left + lead right) ∧ Even (spare right)
  | _, term c => Balanced c
  | _, or left right =>
    Balanced left ∧ Balanced right ∧ Even (spare left + lead right) ∧ Even (spare right)

/-- Nothing is put out before the first name, and the rest cancels. -/
structure Straight (c : Cond α l) : Prop where
  lead : c.lead = 0
  balanced : c.Balanced
  spare : Even c.spare

/-- No negation stands in front of a negation. -/
def Single : {l : Level} → Cond α l → Prop
  | _, name _ => True
  | _, group c => Single c
  | _, nots count c => count ≤ 1 ∧ Single c
  | _, factor c => Single c
  | _, and left right => Single left ∧ Single right
  | _, term c => Single c
  | _, or left right => Single left ∧ Single right

variable {c : Cond α l}

theorem Single.lead_eq (h : c.Single) : c.lead = 0 ∧ c.spare = 0 := by
  induction c with
  | name a => exact ⟨rfl, rfl⟩
  | group c ih => exact ih h
  | nots count c ih =>
    obtain ⟨hlead, hspare⟩ := ih h.2
    rw [lead, spare, hlead, hspare]
    have hcount := h.1
    omega
  | factor c ih => exact ih h
  | and left right ihLeft _ => exact ⟨(ihLeft h.1).1, rfl⟩
  | term c ih => exact ih h
  | or left right ihLeft _ => exact ⟨(ihLeft h.1).1, rfl⟩

theorem Single.balanced (h : c.Single) : c.Balanced := by
  induction c with
  | name a => trivial
  | group c ih => exact ih h
  | nots count c ih => exact ih h.2
  | factor c ih => exact ih h
  | and left right ihLeft ihRight =>
    refine ⟨ihLeft h.1, ihRight h.2, ?_, ?_⟩
    · rw [h.1.lead_eq.2, h.2.lead_eq.1]
      exact Even.zero
    · rw [h.2.lead_eq.2]
      exact Even.zero
  | term c ih => exact ih h
  | or left right ihLeft ihRight =>
    refine ⟨ihLeft h.1, ihRight h.2, ?_, ?_⟩
    · rw [h.1.lead_eq.2, h.2.lead_eq.1]
      exact Even.zero
    · rw [h.2.lead_eq.2]
      exact Even.zero

/-- Conditions without repeated negations are straight. -/
theorem Single.straight (h : c.Single) : c.Straight :=
  ⟨h.lead_eq.1, h.balanced, by rw [h.lead_eq.2]; exact Even.zero⟩

theorem lead_map (f : α → β) (c : Cond α l) : (c.map f).lead = c.lead := by
  induction c with
  | name a => rfl
  | group c ih => exact ih
  | nots count c ih => rw [map, lead, lead, ih]
  | factor c ih => exact ih
  | and left right ihLeft _ => exact ihLeft
  | term c ih => exact ih
  | or left right ihLeft _ => exact ihLeft

theorem lead_eq_of_shape {d : Cond β l} (h : d.shape = c.shape) : d.lead = c.lead := by
  rw [← lead_map (fun _ => ()) d, ← lead_map (fun _ => ()) c]
  exact congrArg lead h

theorem shape_map (f : α → β) (c : Cond α l) : (c.map f).shape = c.shape := by
  induction c with
  | name a => rfl
  | group c ih => exact congrArg group ih
  | nots count c ih => exact congrArg (nots count) ih
  | factor c ih => exact congrArg factor ih
  | and left right ihLeft ihRight => exact congrArg₂ and ihLeft ihRight
  | term c ih => exact congrArg term ih
  | or left right ihLeft ihRight => exact congrArg₂ or ihLeft ihRight

theorem value_map {V : Type} (alg : Algebra V) (f : α → β) (v : β → V) (c : Cond α l) :
    (c.map f).value alg v = c.value alg fun a => v (f a) := by
  induction c with
  | name a => rfl
  | group c ih => exact ih
  | nots count c ih => rw [map, value, value, ih]
  | factor c ih => exact ih
  | and left right ihLeft ihRight => rw [map, value, value, ihLeft, ihRight]
  | term c ih => exact ih
  | or left right ihLeft ihRight => rw [map, value, value, ihLeft, ihRight]

theorem reading_map {V : Type} (alg : Algebra V) (f : α → β) (v : β → V) (c : Cond α l) :
    (c.map f).reading alg v = c.reading alg fun a => v (f a) := by
  induction c with
  | name a => rfl
  | group c ih => exact ih
  | nots count c ih => rw [map, reading, reading, ih]
  | factor c ih => exact ih
  | and left right ihLeft ihRight => rw [map, reading, reading, ihLeft, ihRight, lead_map]
  | term c ih => exact ih
  | or left right ihLeft ihRight => rw [map, reading, reading, ihLeft, ihRight, lead_map]

theorem spare_map (f : α → β) (c : Cond α l) : (c.map f).spare = c.spare := by
  induction c with
  | name a => rfl
  | group c ih => exact ih
  | nots count c ih => rw [map, spare, spare, ih]
  | factor c ih => exact ih
  | and left right _ _ => rfl
  | term c ih => exact ih
  | or left right _ _ => rfl

theorem balanced_map (f : α → β) (c : Cond α l) : (c.map f).Balanced ↔ c.Balanced := by
  induction c with
  | name a => rfl
  | group c ih => exact ih
  | nots count c ih => exact ih
  | factor c ih => exact ih
  | and left right ihLeft ihRight =>
    rw [map, Balanced, Balanced, ihLeft, ihRight, spare_map, spare_map, lead_map]
  | term c ih => exact ih
  | or left right ihLeft ihRight =>
    rw [map, Balanced, Balanced, ihLeft, ihRight, spare_map, spare_map, lead_map]

theorem straight_map (f : α → β) (c : Cond α l) : (c.map f).Straight ↔ c.Straight := by
  constructor
  · rintro ⟨hlead, hbalanced, hspare⟩
    rw [lead_map] at hlead
    rw [balanced_map] at hbalanced
    rw [spare_map] at hspare
    exact ⟨hlead, hbalanced, hspare⟩
  · rintro ⟨hlead, hbalanced, hspare⟩
    rw [← lead_map f] at hlead
    rw [← balanced_map f] at hbalanced
    rw [← spare_map f] at hspare
    exact ⟨hlead, hbalanced, hspare⟩

theorem Straight.of_shape {d : Cond β l} (h : c.Straight)
    (hshape : d.shape = c.shape) : d.Straight := by
  rw [← straight_map fun _ => ()]
  show d.shape.Straight
  rw [hshape]
  exact (straight_map _ c).2 h

theorem iterate_not_even {n : ℕ} (h : Even n) (x : Bool) : not^[n] x = x := by
  have hid := Function.Involutive.iterate_even (f := not) Bool.not_not h
  rw [hid]
  rfl

theorem iterate_not_congr {m n : ℕ} (h : Even (m + n)) (x : Bool) : not^[m] x = not^[n] x := by
  have hboth := iterate_not_even h (not^[n] x)
  have htwice := iterate_not_even (show Even (n + n) from ⟨n, rfl⟩) x
  rw [Function.iterate_add_apply, ← Function.iterate_add_apply not n n, htwice] at hboth
  exact hboth

theorem even_of_iterate_not {n : ℕ} {x : Bool} (h : not^[n] x = x) : Even n := by
  by_contra hodd
  rw [Nat.not_even_iff_odd] at hodd
  have hflip := Function.Involutive.iterate_odd (f := not) Bool.not_not hodd
  rw [hflip] at h
  exact Bool.not_ne_self x h

/-- What is read of a balanced condition. -/
theorem Balanced.reading_eq (h : c.Balanced) (v : α → Bool) :
    c.reading boolAlgebra v = not^[c.spare] (c.value boolAlgebra v) := by
  induction c with
  | name a => rfl
  | group c ih => exact ih h
  | nots count c ih =>
    rw [reading, value, spare, ih h]
    generalize c.value boolAlgebra v = x
    rcases count with - | count
    · rw [if_pos rfl, Nat.zero_sub, Nat.zero_add]
      rfl
    · have hparity : Even (c.spare + 1 + (count + c.spare + (count + 1))) :=
        ⟨count + c.spare + 1, by omega⟩
      rw [if_neg (Nat.succ_ne_zero count), Nat.add_sub_cancel]
      show (!(not^[c.spare] x)) = not^[count + c.spare] (not^[count + 1] x)
      rw [← Function.iterate_add_apply, ← iterate_not_congr hparity, Nat.add_comm c.spare 1,
        Function.iterate_add_apply]
      rfl
  | factor c ih => exact ih h
  | and left right ihLeft ihRight =>
    obtain ⟨hleft, hright, hlead, hspare⟩ := h
    rw [reading, value, spare, ihLeft hleft, ihRight hright, iterate_not_even hspare]
    show (not^[right.lead] (not^[left.spare] _) && _) = _
    rw [← Function.iterate_add_apply, iterate_not_even (by rwa [Nat.add_comm])]
    rfl
  | term c ih => exact ih h
  | or left right ihLeft ihRight =>
    obtain ⟨hleft, hright, hlead, hspare⟩ := h
    rw [reading, value, spare, ihLeft hleft, ihRight hright, iterate_not_even hspare]
    show (not^[right.lead] (not^[left.spare] _) || _) = _
    rw [← Function.iterate_add_apply, iterate_not_even (by rwa [Nat.add_comm])]
    rfl

/-! ### Conditions that are not straight -/

/-- A straight condition is read as it is meant. -/
theorem Straight.reading_eq (h : c.Straight) (v : α → Bool) :
    c.reading boolAlgebra v = c.value boolAlgebra v := by
  rw [h.balanced.reading_eq, iterate_not_even h.spare]

theorem iterate_not_twice (n : ℕ) (x : Bool) : not^[n] (not^[n] x) = x := by
  rw [← Function.iterate_add_apply]
  exact iterate_not_even ⟨n, rfl⟩ x

/-- The names of a condition can be given values so that it has a given one. -/
theorem exists_value (c : Cond α l) (b : Bool) :
    ∃ d : Cond Bool l, d.shape = c.shape ∧ d.value boolAlgebra id = b := by
  induction c generalizing b with
  | name a => exact ⟨name b, rfl, rfl⟩
  | group c ih =>
    obtain ⟨d, hshape, hvalue⟩ := ih b
    exact ⟨group d, congrArg group hshape, hvalue⟩
  | nots count c ih =>
    obtain ⟨d, hshape, hvalue⟩ := ih (not^[count] b)
    refine ⟨nots count d, congrArg (nots count) hshape, ?_⟩
    rw [value, hvalue]
    exact iterate_not_twice count b
  | factor c ih =>
    obtain ⟨d, hshape, hvalue⟩ := ih b
    exact ⟨factor d, congrArg factor hshape, hvalue⟩
  | and left right ihLeft ihRight =>
    obtain ⟨d, hshape, hvalue⟩ := ihLeft b
    obtain ⟨e, hshape', hvalue'⟩ := ihRight b
    refine ⟨and d e, congrArg₂ and hshape hshape', ?_⟩
    rw [value, hvalue, hvalue']
    exact Bool.and_self b
  | term c ih =>
    obtain ⟨d, hshape, hvalue⟩ := ih b
    exact ⟨term d, congrArg term hshape, hvalue⟩
  | or left right ihLeft ihRight =>
    obtain ⟨d, hshape, hvalue⟩ := ihLeft b
    obtain ⟨e, hshape', hvalue'⟩ := ihRight b
    refine ⟨or d e, congrArg₂ or hshape hshape', ?_⟩
    rw [value, hvalue, hvalue']
    exact Bool.or_self b

theorem exists_reading (c : Cond α l) (b : Bool) :
    ∃ d : Cond Bool l, d.shape = c.shape ∧ d.reading boolAlgebra id = b := by
  induction c generalizing b with
  | name a => exact ⟨name b, rfl, rfl⟩
  | group c ih =>
    obtain ⟨d, hshape, hreading⟩ := ih b
    exact ⟨group d, congrArg group hshape, hreading⟩
  | nots count c ih =>
    obtain ⟨d, hshape, hreading⟩ := ih (if count = 0 then b else !b)
    refine ⟨nots count d, congrArg (nots count) hshape, ?_⟩
    rw [reading, hreading]
    split_ifs
    · rfl
    · exact Bool.not_not b
  | factor c ih =>
    obtain ⟨d, hshape, hreading⟩ := ih b
    exact ⟨factor d, congrArg factor hshape, hreading⟩
  | and left right ihLeft ihRight =>
    obtain ⟨d, hshape, hreading⟩ := ihLeft (not^[right.lead] b)
    obtain ⟨e, hshape', hreading'⟩ := ihRight b
    refine ⟨and d e, congrArg₂ and hshape hshape', ?_⟩
    rw [reading, hreading, hreading', lead_eq_of_shape hshape']
    show (not^[right.lead] (not^[right.lead] b) && b) = b
    rw [iterate_not_twice, Bool.and_self]
  | term c ih =>
    obtain ⟨d, hshape, hreading⟩ := ih b
    exact ⟨term d, congrArg term hshape, hreading⟩
  | or left right ihLeft ihRight =>
    obtain ⟨d, hshape, hreading⟩ := ihLeft (not^[right.lead] b)
    obtain ⟨e, hshape', hreading'⟩ := ihRight b
    refine ⟨or d e, congrArg₂ or hshape hshape', ?_⟩
    rw [reading, hreading, hreading', lead_eq_of_shape hshape']
    show (not^[right.lead] (not^[right.lead] b) || b) = b
    rw [iterate_not_twice, Bool.or_self]

/-- A reading that is the value up to a fixed number of negations is balanced. -/
theorem balanced_of_reading (c : Cond α l) (n : ℕ) (h : ∀ d : Cond Bool l, d.shape = c.shape →
    d.reading boolAlgebra id = not^[n] (d.value boolAlgebra id)) :
    c.Balanced ∧ Even (c.spare + n) := by
  induction c generalizing n with
  | name a =>
    refine ⟨trivial, ?_⟩
    rw [spare, Nat.zero_add]
    exact even_of_iterate_not (h (name true) rfl).symm
  | group c ih => exact ih n fun d hshape => h (group d) (congrArg group hshape)
  | nots count c ih =>
    have hinner : ∀ d : Cond Bool .atom, d.shape = c.shape →
        d.reading boolAlgebra id = not^[(count - 1) + n] (d.value boolAlgebra id) := by
      intro d hshape
      have hnots := h (nots count d) (congrArg (nots count) hshape)
      rw [reading, value] at hnots
      rcases count with - | count
      · rw [if_pos rfl] at hnots
        rw [Nat.zero_sub, Nat.zero_add]
        exact hnots
      · have hflip : (!(d.reading boolAlgebra id)) =
            not^[n] (not^[count + 1] (d.value boolAlgebra id)) := by
          rwa [if_neg (Nat.succ_ne_zero count)] at hnots
        rw [← Function.iterate_add_apply, ← Nat.add_assoc, Function.iterate_succ_apply'] at hflip
        rw [Nat.add_sub_cancel, Nat.add_comm]
        exact Bool.not_inj hflip
    obtain ⟨hbalanced, heven⟩ := ih _ hinner
    refine ⟨hbalanced, ?_⟩
    rw [spare, Nat.add_comm (count - 1), Nat.add_assoc]
    exact heven
  | factor c ih => exact ih n fun d hshape => h (factor d) (congrArg factor hshape)
  | and left right ihLeft ihRight =>
    have hand : ∀ (d : Cond Bool .term) (e : Cond Bool .factor), d.shape = left.shape →
        e.shape = right.shape →
          (not^[right.lead] (d.reading boolAlgebra id) && e.reading boolAlgebra id) =
            not^[n] (d.value boolAlgebra id && e.value boolAlgebra id) := by
      intro d e hshape hshape'
      rw [← lead_eq_of_shape hshape']
      exact h (and d e) (congrArg₂ and hshape hshape')
    -- A false left operand makes the whole false.
    have heven : Even n := by
      obtain ⟨d, hshape, hvalue⟩ := exists_value left false
      obtain ⟨e, hshape', hreading⟩ := exists_reading right false
      have hfalse := hand d e hshape hshape'
      rw [hvalue, hreading, Bool.and_false, Bool.false_and] at hfalse
      exact even_of_iterate_not hfalse.symm
    simp only [iterate_not_even heven] at hand
    -- A true left operand leaves the right one, and the other way round.
    obtain ⟨d, hshapeLeft, htrueLeft⟩ := exists_value left true
    obtain ⟨e, hshapeRight, htrueRight⟩ := exists_value right true
    have hboth := hand d e hshapeLeft hshapeRight
    rw [htrueLeft, htrueRight, Bool.and_self, Bool.and_eq_true] at hboth
    obtain ⟨hbalancedRight, hspareRight⟩ := ihRight 0 fun e' hshape => by
      have hright := hand d e' hshapeLeft hshape
      rwa [hboth.1, htrueLeft, Bool.true_and, Bool.true_and] at hright
    obtain ⟨hbalancedLeft, hspareLeft⟩ := ihLeft right.lead fun d' hshape => by
      have hleft := hand d' e hshape hshapeRight
      rw [hboth.2, htrueRight, Bool.and_true, Bool.and_true] at hleft
      rw [← hleft, iterate_not_twice]
    refine ⟨⟨hbalancedLeft, hbalancedRight, hspareLeft, hspareRight⟩, ?_⟩
    rwa [spare, Nat.zero_add]
  | term c ih => exact ih n fun d hshape => h (term d) (congrArg term hshape)
  | or left right ihLeft ihRight =>
    have hor : ∀ (d : Cond Bool .sum) (e : Cond Bool .term), d.shape = left.shape →
        e.shape = right.shape →
          (not^[right.lead] (d.reading boolAlgebra id) || e.reading boolAlgebra id) =
            not^[n] (d.value boolAlgebra id || e.value boolAlgebra id) := by
      intro d e hshape hshape'
      rw [← lead_eq_of_shape hshape']
      exact h (or d e) (congrArg₂ or hshape hshape')
    -- A true left operand makes the whole true.
    have heven : Even n := by
      obtain ⟨d, hshape, hvalue⟩ := exists_value left true
      obtain ⟨e, hshape', hreading⟩ := exists_reading right true
      have htrue := hor d e hshape hshape'
      rw [hvalue, hreading, Bool.or_true, Bool.true_or] at htrue
      exact even_of_iterate_not htrue.symm
    simp only [iterate_not_even heven] at hor
    -- A false left operand leaves the right one, and the other way round.
    obtain ⟨d, hshapeLeft, hfalseLeft⟩ := exists_value left false
    obtain ⟨e, hshapeRight, hfalseRight⟩ := exists_value right false
    have hboth := hor d e hshapeLeft hshapeRight
    rw [hfalseLeft, hfalseRight, Bool.or_self, Bool.or_eq_false_iff] at hboth
    obtain ⟨hbalancedRight, hspareRight⟩ := ihRight 0 fun e' hshape => by
      have hright := hor d e' hshapeLeft hshape
      rwa [hboth.1, hfalseLeft, Bool.false_or, Bool.false_or] at hright
    obtain ⟨hbalancedLeft, hspareLeft⟩ := ihLeft right.lead fun d' hshape => by
      have hleft := hor d' e hshape hshapeRight
      rw [hboth.2, hfalseRight, Bool.or_false, Bool.or_false] at hleft
      rw [← hleft, iterate_not_twice]
    refine ⟨⟨hbalancedLeft, hbalancedRight, hspareLeft, hspareRight⟩, ?_⟩
    rwa [spare, Nat.zero_add]

/-- **The reading of a condition and of every one of its shape is the meaning exactly if
the condition is straight.** -/
theorem straight_iff (c : Cond α l) : c.Straight ↔ c.lead = 0 ∧
    ∀ d : Cond Bool l, d.shape = c.shape → d.reading boolAlgebra id = d.value boolAlgebra id := by
  constructor
  · exact fun h => ⟨h.lead, fun d hshape => (h.of_shape hshape).reading_eq id⟩
  · rintro ⟨hlead, hreading⟩
    obtain ⟨hbalanced, hspare⟩ := balanced_of_reading c 0 hreading
    exact ⟨hlead, hbalanced, hspare⟩

/-! ### Substitution -/

theorem tokens_map (f : α → β) (c : Cond α l) : (c.map f).tokens = c.tokens.map (Tok.map f) := by
  induction c with
  | name a => rfl
  | group c ih | nots count c ih => simp [map, tokens, Tok.map, ih]
  | factor c ih => exact ih
  | and left right ihLeft ihRight => simp [map, tokens, Tok.map, ihLeft, ihRight]
  | term c ih => exact ih
  | or left right ihLeft ihRight => simp [map, tokens, Tok.map, ihLeft, ihRight]

/-- Names and groups in place of the names. -/
def subst (f : α → Cond β .atom) : {l : Level} → Cond α l → Cond β l
  | _, name a => f a
  | _, group c => group (subst f c)
  | _, nots count c => nots count (subst f c)
  | _, factor c => factor (subst f c)
  | _, and left right => and (subst f left) (subst f right)
  | _, term c => term (subst f c)
  | _, or left right => or (subst f left) (subst f right)

/-- The same for tokens. -/
def substToken (f : α → Cond β .atom) : Tok α → List (Tok β)
  | .lparen => [.lparen]
  | .rparen => [.rparen]
  | .op o => [.op o]
  | .name a => (f a).tokens

theorem tokens_subst (f : α → Cond β .atom) (c : Cond α l) :
    (c.subst f).tokens = c.tokens.flatMap (substToken f) := by
  induction c with
  | name a => simp [subst, tokens, substToken]
  | group c ih => simp [subst, tokens, substToken, ih]
  | nots count c ih =>
    have hnots : (List.replicate count (.op .not : Tok α)).flatMap (substToken f) =
        List.replicate count (.op .not) := by
      induction count with
      | zero => rfl
      | succ count ih => rw [List.replicate_succ, List.flatMap_cons, ih, List.replicate_succ]; rfl
    rw [subst, tokens, tokens, List.flatMap_append, hnots, ih]
  | factor c ih => exact ih
  | and left right ihLeft ihRight => simp [subst, tokens, substToken, ihLeft, ihRight]
  | term c ih => exact ih
  | or left right ihLeft ihRight => simp [subst, tokens, substToken, ihLeft, ihRight]

theorem value_subst (alg : Algebra V) (f : α → Cond β .atom) (v : β → V) (c : Cond α l) :
    (c.subst f).value alg v = c.value alg fun a => (f a).value alg v := by
  induction c with
  | name a => rfl
  | group c ih => exact ih
  | nots count c ih => rw [subst, value, value, ih]
  | factor c ih => exact ih
  | and left right ihLeft ihRight => rw [subst, value, value, ihLeft, ihRight]
  | term c ih => exact ih
  | or left right ihLeft ihRight => rw [subst, value, value, ihLeft, ihRight]

/-- The value depends on the values of the names in it. -/
theorem value_congr (alg : Algebra V) {v w : α → V}
    (h : ∀ a, .name a ∈ c.tokens → v a = w a) : c.value alg v = c.value alg w := by
  induction c with
  | name a => exact h a (List.mem_singleton.mpr rfl)
  | group c ih => exact ih fun a ha => h a (by simp [tokens, ha])
  | nots count c ih => rw [value, value, ih fun a ha => h a (by simp [tokens, ha])]
  | factor c ih => exact ih h
  | and left right ihLeft ihRight =>
    rw [value, value, ihLeft fun a ha => h a (by simp [tokens, ha]),
      ihRight fun a ha => h a (by simp [tokens, ha])]
  | term c ih => exact ih h
  | or left right ihLeft ihRight =>
    rw [value, value, ihLeft fun a ha => h a (by simp [tokens, ha]),
      ihRight fun a ha => h a (by simp [tokens, ha])]

theorem tokens_ne_nil (c : Cond α l) : c.tokens ≠ [] := by
  induction c with
  | name a | group c ih => exact List.cons_ne_nil _ _
  | nots count c ih => exact List.append_ne_nil_of_right_ne_nil _ ih
  | factor c ih => exact ih
  | and left right ihLeft _ => exact List.append_ne_nil_of_left_ne_nil ihLeft _
  | term c ih => exact ih
  | or left right ihLeft _ => exact List.append_ne_nil_of_left_ne_nil ihLeft _

section

variable {f : α → Cond β .atom} (hf : ∀ a, (f a).Single)
include hf

theorem lead_subst (c : Cond α l) : (c.subst f).lead = c.lead := by
  induction c with
  | name a => exact (hf a).lead_eq.1
  | group c ih => exact ih
  | nots count c ih => rw [subst, lead, lead, ih]
  | factor c ih => exact ih
  | and left right ihLeft _ => exact ihLeft
  | term c ih => exact ih
  | or left right ihLeft _ => exact ihLeft

theorem spare_subst (c : Cond α l) : (c.subst f).spare = c.spare := by
  induction c with
  | name a => exact (hf a).lead_eq.2
  | group c ih => exact ih
  | nots count c ih => rw [subst, spare, spare, ih]
  | factor c ih => exact ih
  | and => rfl
  | term c ih => exact ih
  | or => rfl

/-- Names and groups without double negations in place of the names change nothing about the
negations. -/
theorem Straight.subst {c : Cond α l} (h : c.Straight) : (c.subst f).Straight := by
  obtain ⟨hlead, hbalanced, hspare⟩ := h
  refine ⟨by rw [lead_subst hf, hlead], ?_, by rwa [spare_subst hf]⟩
  clear hlead hspare
  induction c with
  | name a => exact (hf a).balanced
  | group c ih | nots count c ih | factor c ih => exact ih hbalanced
  | and left right ihLeft ihRight =>
    obtain ⟨hleft, hright, hlead, hspare⟩ := hbalanced
    refine ⟨ihLeft hleft, ihRight hright, ?_, ?_⟩
    · rwa [spare_subst hf, lead_subst hf]
    · rwa [spare_subst hf]
  | term c ih => exact ih hbalanced
  | or left right ihLeft ihRight =>
    obtain ⟨hleft, hright, hlead, hspare⟩ := hbalanced
    refine ⟨ihLeft hleft, ihRight hright, ?_, ?_⟩
    · rwa [spare_subst hf, lead_subst hf]
    · rwa [spare_subst hf]

end

/-! ### Names joined by one connective -/

/-- The condition or one of the names. -/
def anyOf : Cond α .sum → List α → Cond α .sum
  | c, [] => c
  | c, a :: as => anyOf (or c (factor (nots 0 (name a)))) as

/-- The condition and all of the names. -/
def allOf : Cond α .term → List α → Cond α .term
  | c, [] => c
  | c, a :: as => allOf (and c (nots 0 (name a))) as

theorem tokens_anyOf (c : Cond α .sum) (as : List α) :
    (anyOf c as).tokens = c.tokens ++ as.flatMap fun a => [.op .or, .name a] := by
  induction as generalizing c with
  | nil => simp [anyOf]
  | cons a as ih => simp [anyOf, ih, tokens]

theorem tokens_allOf (c : Cond α .term) (as : List α) :
    (allOf c as).tokens = c.tokens ++ as.flatMap fun a => [.op .and, .name a] := by
  induction as generalizing c with
  | nil => simp [allOf]
  | cons a as ih => simp [allOf, ih, tokens]

theorem value_anyOf (v : α → Bool) (c : Cond α .sum) (as : List α) :
    (anyOf c as).value boolAlgebra v = (c.value boolAlgebra v || as.any v) := by
  induction as generalizing c with
  | nil => simp [anyOf]
  | cons a as ih =>
    rw [anyOf, ih, List.any_cons, ← Bool.or_assoc]
    rfl

theorem value_allOf (v : α → Bool) (c : Cond α .term) (as : List α) :
    (allOf c as).value boolAlgebra v = (c.value boolAlgebra v && as.all v) := by
  induction as generalizing c with
  | nil => simp [allOf]
  | cons a as ih =>
    rw [allOf, ih, List.all_cons, ← Bool.and_assoc]
    rfl

theorem Single.anyOf {c : Cond α .sum} (h : c.Single) (as : List α) : (anyOf c as).Single := by
  induction as generalizing c with
  | nil => exact h
  | cons a as ih => exact ih ⟨h, Nat.zero_le 1, trivial⟩

theorem Single.allOf {c : Cond α .term} (h : c.Single) (as : List α) : (allOf c as).Single := by
  induction as generalizing c with
  | nil => exact h
  | cons a as ih => exact ih ⟨h, Nat.zero_le 1, trivial⟩

end Cond

end Kairon.Rpn
