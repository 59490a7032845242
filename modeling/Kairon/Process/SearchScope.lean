/-
Kairon/Process/SearchScope.lean

What a search of the process tree keeps.

`searchScope` is meant to have the processes that are found, all above them and all
below them.  Its one set is the result, the stop of the walks upward and the visited
set of the search downward, so that a process which is in it as an ancestor of one
match is not entered from another match above it.  `mem_searchScope` says what is in
the scope: what is found or above it (`mem_foldl_addMatch`), and what is reached from
a match downward without passing through that.

`search_keeps_subtrees_iff`: the scope is what it is meant to be, exactly when every
child of a process between two matches is found itself or above a match.
-/
import Kairon.Lib.Worklist
import Kairon.Process.View

namespace Kairon.Process

open Search (Text)
open Worklist

variable {Id : Type} [LinearOrder Id]

/-! ### Above and below -/

/-- `x` is above `y`. -/
def Above (nodes : List (Node Id)) (x y : Id) : Prop :=
  ∃ n, climb (parentAmong nodes) (n + 1) y = some x

def AtOrAbove (nodes : List (Node Id)) (x y : Id) : Prop :=
  ∃ n, climb (parentAmong nodes) n y = some x

/-- What a search should keep: a match, or what is above or below one. -/
def Related (nodes hits : List (Node Id)) (id : Id) : Prop :=
  ∃ hit ∈ hits, hit.entity.id = id ∨ Above nodes id hit.entity.id ∨ Above nodes hit.entity.id id

/-- A process that is not found, with a match above it and one below it. -/
structure Between (nodes hits : List (Node Id)) (id : Id) : Prop where
  missed : ∀ hit ∈ hits, hit.entity.id ≠ id
  below : ∃ hit ∈ hits, Above nodes hit.entity.id id
  above : ∃ hit ∈ hits, Above nodes id hit.entity.id

variable {nodes hits : List (Node Id)} {ids queue : List Id}

theorem atOrAbove_iff {x y : Id} : AtOrAbove nodes x y ↔ y = x ∨ Above nodes x y := by
  constructor
  · rintro ⟨n, hn⟩
    rcases n with - | n
    · exact .inl (Option.some.inj hn)
    · exact .inr ⟨n, hn⟩
  · rintro (rfl | ⟨n, hn⟩)
    · exact ⟨0, rfl⟩
    · exact ⟨n + 1, hn⟩

theorem nodeOf_mem (hdistinct : (nodes.map fun node => node.entity.id).Nodup) {node : Node Id}
    (h : node ∈ nodes) : nodeOf nodes node.entity.id = some node := by
  rcases hfind : nodeOf nodes node.entity.id with - | other
  · rw [nodeOf, List.find?_eq_none] at hfind
    exact absurd (decide_eq_true rfl) (hfind node h)
  · obtain ⟨hmem, hid⟩ := mem_of_nodeOf hfind
    rw [List.inj_on_of_nodup_map hdistinct hmem h hid]

/-! ### The walk upward -/

/-- The parents of the ids are among them, but for the one that is looked at next. -/
def Rising (nodes : List (Node Id)) (ids : List Id) (cursor : Option Id) : Prop :=
  ∀ x ∈ ids, ∀ parent ∈ nodes, parentAmong nodes x = some parent.entity.id →
    parent.entity.id ∈ ids ∨ cursor = some parent.entity.id

theorem Rising.atOrAbove_mem (h : Rising nodes ids none) {x y : Id} (hy : y ∈ ids)
    (habove : AtOrAbove nodes x y) (hx : ∃ node ∈ nodes, node.entity.id = x) : x ∈ ids := by
  obtain ⟨n, hn⟩ := habove
  induction n generalizing x with
  | zero => exact Option.some.inj hn ▸ hy
  | succ n ih =>
    obtain ⟨z, hz, hparent⟩ := Option.bind_eq_some_iff.1 hn
    obtain ⟨node, hnode, -⟩ := Option.bind_eq_some_iff.1 hparent
    obtain ⟨other, hother, rfl⟩ := hx
    have hmem := ih ⟨node, mem_of_nodeOf hnode⟩ hz
    exact (h z hmem other hother hparent).resolve_right nofun

theorem addAncestors_spec (hdistinct : (nodes.map fun node => node.entity.id).Nodup)
    {cursor : Option Id} (h : Rising nodes ids cursor) :
    Rising nodes (addAncestors nodes ids cursor) none ∧
      (∀ x ∈ ids, x ∈ addAncestors nodes ids cursor) ∧
      (∀ c ∈ cursor, (∃ node ∈ nodes, node.entity.id = c) → c ∈ addAncestors nodes ids cursor) ∧
      ∀ x ∈ addAncestors nodes ids cursor, x ∈ ids ∨
        (∃ node ∈ nodes, node.entity.id = x) ∧ ∃ c ∈ cursor, AtOrAbove nodes x c := by
  induction ids, cursor using addAncestors.induct nodes with
  | case1 ids cursor hcursor =>
    have hunknown : ∀ c ∈ cursor, ¬ ∃ node ∈ nodes, node.entity.id = c := by
      rintro c rfl ⟨node, hnode, rfl⟩
      rw [Option.bind_some, nodeOf_mem hdistinct hnode] at hcursor
      cases hcursor
    rw [addAncestors.eq_def]
    split
    · refine ⟨?_, fun x hx => hx, fun c hc hknown => absurd hknown (hunknown c hc),
        fun x hx => .inl hx⟩
      intro x hx parent hparent hup
      refine (h x hx parent hparent hup).imp_right fun hc => ?_
      exact absurd ⟨parent, hparent, rfl⟩ (hunknown _ hc)
    · next hsome =>
      rw [hcursor] at hsome
      cases hsome
  | case2 ids cursor node hcursor hmem =>
    obtain ⟨c, rfl, hnode⟩ := Option.bind_eq_some_iff.1 hcursor
    obtain ⟨-, rfl⟩ := mem_of_nodeOf hnode
    rw [addAncestors.eq_def]
    split
    · next hnone =>
      rw [hcursor] at hnone
      cases hnone
    next hsome =>
    rw [hcursor] at hsome
    obtain rfl := Option.some.inj hsome
    rw [dif_pos hmem]
    refine ⟨?_, fun x hx => hx, ?_, fun x hx => .inl hx⟩
    · intro x hx parent hparent hup
      rcases h x hx parent hparent hup with hin | hc
      · exact .inl hin
      · exact .inl (Option.some.inj hc ▸ hmem)
    · rintro c hc -
      exact Option.some.inj hc ▸ hmem
  | case3 ids cursor node hcursor hnew ih =>
    obtain ⟨c, rfl, hnode⟩ := Option.bind_eq_some_iff.1 hcursor
    obtain ⟨hin, rfl⟩ := mem_of_nodeOf hnode
    have hrising : Rising nodes (node.entity.id :: ids) node.parentEntityId := by
      intro x hx parent hparent hup
      rcases List.mem_cons.1 hx with rfl | hx
      · rw [parentAmong_id hdistinct hin] at hup
        exact .inr hup
      · rcases h x hx parent hparent hup with hmem | hc
        · exact .inl (.tail _ hmem)
        · rw [Option.some.inj hc]
          exact .inl (.head _)
    obtain ⟨hclosed, hkeeps, -, hsound⟩ := ih hrising
    rw [addAncestors.eq_def]
    split
    · next hnone =>
      rw [hcursor] at hnone
      cases hnone
    next hsome =>
    rw [hcursor] at hsome
    obtain rfl := Option.some.inj hsome
    rw [dif_neg hnew]
    refine ⟨hclosed, fun x hx => hkeeps x (.tail _ hx), ?_, ?_⟩
    · rintro c hc -
      exact hkeeps c (Option.some.inj hc ▸ List.mem_cons_self)
    · intro x hx
      rcases hsound x hx with hx | ⟨hknown, up, hup, n, hn⟩
      · rcases List.mem_cons.1 hx with rfl | hx
        · exact .inr ⟨⟨node, hin, rfl⟩, _, rfl, 0, rfl⟩
        · exact .inl hx
      · refine .inr ⟨hknown, _, rfl, n + 1, ?_⟩
        rw [climb_succ, parentAmong_id hdistinct hin, Option.mem_def.1 hup]
        exact hn

/-- The matches with what is above them. -/
theorem mem_foldl_addMatch (hdistinct : (nodes.map fun node => node.entity.id).Nodup)
    (hhits : ∀ hit ∈ hits, hit ∈ nodes) (hids : Rising nodes ids none) :
    Rising nodes (hits.foldl (addMatch nodes) ids) none ∧
      ∀ x, x ∈ hits.foldl (addMatch nodes) ids ↔ x ∈ ids ∨
        (∃ node ∈ nodes, node.entity.id = x) ∧ ∃ hit ∈ hits, AtOrAbove nodes x hit.entity.id := by
  induction hits generalizing ids with
  | nil => exact ⟨hids, by simp⟩
  | cons hit hits ih =>
    have hhit : hit ∈ nodes := hhits hit (.head _)
    have hstart : Rising nodes ids hit.parentEntityId :=
      fun x hx parent hparent hup => .inl ((hids x hx parent hparent hup).resolve_right nofun)
    obtain ⟨hclosed, hkeeps, hparent, hsound⟩ := addAncestors_spec hdistinct hstart
    have hrising : Rising nodes (addMatch nodes ids hit) none := by
      intro x hx up hup hx'
      rw [addMatch] at hx ⊢
      refine .inl (.tail _ ?_)
      rcases List.mem_cons.1 hx with rfl | hx
      · rw [parentAmong_id hdistinct hhit] at hx'
        exact hparent _ hx' ⟨up, hup, rfl⟩
      · exact (hclosed x hx up hup hx').resolve_right nofun
    obtain ⟨hend, hmem⟩ := ih (fun other hother => hhits other (.tail _ hother))
      hrising
    refine ⟨hend, fun x => ?_⟩
    rw [List.foldl_cons, hmem x]
    constructor
    · rintro (hx | ⟨hknown, other, hother, habove⟩)
      · rcases List.mem_cons.1 hx with rfl | hx
        · exact .inr ⟨⟨hit, hhit, rfl⟩, hit, .head _, 0, rfl⟩
        rcases hsound x hx with hx | ⟨hknown, up, hup, n, hn⟩
        · exact .inl hx
        · refine .inr ⟨hknown, hit, .head _, n + 1, ?_⟩
          rw [climb_succ, parentAmong_id hdistinct hhit, Option.mem_def.1 hup]
          exact hn
      · exact .inr ⟨hknown, other, .tail _ hother, habove⟩
    · rintro (hx | ⟨hknown, other, hother, habove⟩)
      · exact .inl (.tail _ (hkeeps x hx))
      · rcases List.mem_cons.1 hother with rfl | hother
        · exact .inl (hrising.atOrAbove_mem (.head _) habove hknown)
        · exact .inr ⟨hknown, other, hother, habove⟩

/-! ### The search downward -/

/-- The ids of the children. -/
def childIds (nodes : List (Node Id)) (id : Id) : Set Id :=
  {x | ∃ child ∈ childrenOf nodes id, child.entity.id = x}

theorem mem_childIds (hdistinct : (nodes.map fun node => node.entity.id).Nodup) {x y : Id} :
    y ∈ childIds nodes x ↔ (∃ node ∈ nodes, node.entity.id = x) ∧
      (∃ node ∈ nodes, node.entity.id = y) ∧ parentAmong nodes y = some x := by
  constructor
  · rintro ⟨child, hchild, rfl⟩
    obtain ⟨hin, hlink⟩ := List.mem_filter.1 hchild
    obtain ⟨hid, hany⟩ := Bool.and_eq_true_iff.1 hlink
    obtain ⟨parent, hparent, heq⟩ := List.any_eq_true.1 hany
    rw [parentAmong_id hdistinct hin]
    exact ⟨⟨parent, hparent, of_decide_eq_true heq⟩, ⟨child, hin, rfl⟩, of_decide_eq_true hid⟩
  · rintro ⟨⟨parent, hparent, rfl⟩, ⟨child, hchild, rfl⟩, hlink⟩
    exact ⟨child, (mem_childrenOf hdistinct hparent).2 ⟨hchild, hlink⟩, rfl⟩

theorem mem_foldl_enqueue (children : List (Node Id)) (state : List Id × List Id) (x : Id) :
    (x ∈ (children.foldl enqueue state).1 ↔ x ∈ state.1 ∨ ∃ child ∈ children, child.entity.id = x) ∧
      (x ∈ (children.foldl enqueue state).2 ↔
        x ∈ state.2 ∨ (∃ child ∈ children, child.entity.id = x) ∧ x ∉ state.1) := by
  induction children generalizing state with
  | nil => simp
  | cons child children ih =>
    obtain ⟨hfirst, hsecond⟩ := ih (enqueue state child)
    rw [List.foldl_cons, hfirst, hsecond, enqueue]
    split
    · next hin =>
      constructor
      · simp only [List.mem_cons, exists_eq_or_imp]
        constructor
        · tauto
        · rintro (hx | rfl | hx)
          · exact .inl hx
          · exact .inl hin
          · exact .inr hx
      · simp only [List.mem_cons, exists_eq_or_imp]
        constructor
        · tauto
        · rintro (hx | ⟨rfl | hx, hnot⟩)
          · exact .inl hx
          · exact absurd hin hnot
          · exact .inr ⟨hx, hnot⟩
    · next hnew =>
      simp only [List.mem_cons, List.mem_append, List.not_mem_nil, or_false, exists_eq_or_imp, not_or]
      constructor
      · constructor
        · rintro ((rfl | hx) | hx) <;> tauto
        · rintro (hx | rfl | hx) <;> tauto
      · constructor
        · rintro ((hx | rfl) | ⟨hx, hne, hnot⟩) <;> tauto
        · rintro (hx | ⟨rfl | hx, hnot⟩)
          · exact .inl (.inl hx)
          · exact .inl (.inr rfl)
          · by_cases heq : x = child.entity.id
            · exact .inl (.inr heq)
            · exact .inr ⟨hx, heq, hnot⟩

theorem visit_enqueue (cur : Id) : Visit (childIds nodes) {x | x ∈ ids} {x | x ∈ cur :: queue}
      {x | x ∈ ((childrenOf nodes cur).foldl enqueue (ids, queue)).1}
      {x | x ∈ ((childrenOf nodes cur).foldl enqueue (ids, queue)).2} cur where
  waits := .head _
  seen_eq := by
    ext x
    exact (mem_foldl_enqueue _ _ x).1
  kept := by
    intro x hx
    exact (List.mem_cons.1 hx).imp_right fun hx => (mem_foldl_enqueue _ _ x).2.2 (.inl hx)
  queued := fun x hx hnew => (mem_foldl_enqueue _ _ x).2.2 (.inr ⟨hx, hnew⟩)
  origin := by
    intro x hx
    exact ((mem_foldl_enqueue _ _ x).2.1 hx).imp_left fun hx => .tail _ hx

theorem search_addDescendants {known start : Set Id}
    (h : Search (childIds nodes) known start {x | x ∈ ids} {x | x ∈ queue}) :
    Search (childIds nodes) known start {x | x ∈ addDescendants nodes ids queue} ∅ := by
  induction ids, queue using addDescendants.induct nodes with
  | case1 ids =>
    rwa [addDescendants, ← List.setOfPred_mem_eq_empty_iff.2 rfl]
  | case2 ids cur queue ih =>
    rw [addDescendants]
    exact ih (h.visit (visit_enqueue cur))

/-! ### The scope -/

/-- What is found or above it. -/
def upward (nodes hits : List (Node Id)) : Set Id := {x | x ∈ hits.foldl (addMatch nodes) []}

theorem mem_upward (hdistinct : (nodes.map fun node => node.entity.id).Nodup)
    (hhits : ∀ hit ∈ hits, hit ∈ nodes) {x : Id} :
    x ∈ upward nodes hits ↔
      (∃ node ∈ nodes, node.entity.id = x) ∧ ∃ hit ∈ hits, AtOrAbove nodes x hit.entity.id := by
  have hnone : Rising nodes [] none := fun x hx => absurd hx List.not_mem_nil
  refine ((mem_foldl_addMatch hdistinct hhits hnone).2 x).trans (or_iff_right List.not_mem_nil)

/-- The scope of a search. -/
theorem mem_searchScope (x : Id) : x ∈ searchScope nodes hits ↔ x ∈ upward nodes hits ∨
      ∃ q ∈ {id | ∃ hit ∈ hits, hit.entity.id = id},
        Relation.TransGen (Enters (childIds nodes) (upward nodes hits)) q x := by
  have hstart : {id | ∃ hit ∈ hits, hit.entity.id = id} =
      {x | x ∈ hits.map fun node : Node Id => node.entity.id} := by
    ext id
    exact List.mem_map.symm
  rw [hstart]
  exact (search_addDescendants search_start).seen_iff x

/-- What is below a process is reached from it. -/
theorem above_iff_path (hdistinct : (nodes.map fun node => node.entity.id).Nodup) {x y : Id}
    (hx : ∃ node ∈ nodes, node.entity.id = x) (hy : ∃ node ∈ nodes, node.entity.id = y) :
    Above nodes x y ↔ Relation.TransGen (fun a b => b ∈ childIds nodes a) x y := by
  constructor
  · rintro ⟨n, hn⟩
    induction n generalizing x with
    | zero => exact Relation.TransGen.single ((mem_childIds hdistinct).2 ⟨hx, hy, hn⟩)
    | succ n ih =>
      obtain ⟨z, hz, hparent⟩ := Option.bind_eq_some_iff.1 hn
      obtain ⟨node, hnode, -⟩ := Option.bind_eq_some_iff.1 hparent
      have hknown : ∃ node ∈ nodes, node.entity.id = z := ⟨node, mem_of_nodeOf hnode⟩
      exact Relation.TransGen.head ((mem_childIds hdistinct).2 ⟨hx, hknown, hparent⟩)
        (ih hknown hz)
  · intro hpath
    clear hx hy
    induction hpath with
    | single hstep => exact ⟨0, ((mem_childIds hdistinct).1 hstep).2.2⟩
    | tail _ hstep ih =>
      obtain ⟨n, hn⟩ := ih
      refine ⟨n + 1, ?_⟩
      rw [climb_succ, ((mem_childIds hdistinct).1 hstep).2.2]
      exact hn

theorem searchScope_subset (hdistinct : (nodes.map fun node => node.entity.id).Nodup)
    (hhits : ∀ hit ∈ hits, hit ∈ nodes) {x : Id} (hx : x ∈ searchScope nodes hits) :
    Related nodes hits x := by
  rcases (mem_searchScope x).1 hx with hup | ⟨-, ⟨hit, hhit, rfl⟩, hpath⟩
  · obtain ⟨-, hit, hhit, habove⟩ := (mem_upward hdistinct hhits).1 hup
    exact ⟨hit, hhit, (atOrAbove_iff.1 habove).imp_right .inl⟩
  · have hle : Enters (childIds nodes) (upward nodes hits) ≤ fun a b => b ∈ childIds nodes a :=
      fun _ _ hstep => hstep.1
    have hsteps := Relation.TransGen.mono hle _ _ hpath
    have hknown : ∃ node ∈ nodes, node.entity.id = x := by
      rcases hsteps with hstep | ⟨-, hstep⟩
      · exact ((mem_childIds hdistinct).1 hstep).2.1
      · exact ((mem_childIds hdistinct).1 hstep).2.1
    exact ⟨hit, hhit, .inr (.inr
      ((above_iff_path hdistinct ⟨hit, hhits hit hhit, rfl⟩ hknown).2 hsteps))⟩

/-- The scope is what it is meant to be, exactly when the search is not stopped between two
matches. -/
theorem searchScope_exact_iff (hdistinct : (nodes.map fun node => node.entity.id).Nodup)
    (hhits : ∀ hit ∈ hits, hit ∈ nodes) :
    (∀ node ∈ nodes, node.entity.id ∈ searchScope nodes hits ↔ Related nodes hits node.entity.id) ↔
      ∀ node ∈ nodes, Between nodes hits node.entity.id → ∀ child ∈ childrenOf nodes node.entity.id,
          ∃ hit ∈ hits, AtOrAbove nodes child.entity.id hit.entity.id := by
  constructor
  · intro hexact node hnode hbetween child hchild
    obtain ⟨hin, hlink⟩ := (mem_childrenOf hdistinct hnode).1 hchild
    obtain ⟨top, htop, n, hn⟩ := hbetween.below
    have hrelated : Related nodes hits child.entity.id := by
      refine ⟨top, htop, .inr (.inr ⟨n + 1, ?_⟩)⟩
      rw [climb_succ, hlink]
      exact hn
    rcases (mem_searchScope _).1 ((hexact child hin).2 hrelated) with hup | ⟨q, hq, hpath⟩
    · exact ((mem_upward hdistinct hhits).1 hup).2
    · -- the last step of the path is from the process between
      exfalso
      obtain ⟨bottom, hbottom, habove⟩ := hbetween.above
      have hstopped : node.entity.id ∈ upward nodes hits :=
        (mem_upward hdistinct hhits).2
          ⟨⟨node, hnode, rfl⟩, bottom, hbottom, atOrAbove_iff.2 (.inr habove)⟩
      have hfrom : ∀ y, child.entity.id ∈ childIds nodes y → y = node.entity.id := by
        intro y hy
        exact Option.some.inj (((mem_childIds hdistinct).1 hy).2.2.symm.trans hlink)
      rcases hpath with hstep | ⟨hbefore, hstep⟩
      · obtain ⟨hit, hhit, heq⟩ := hq
        exact hbetween.missed hit hhit (heq.trans (hfrom q hstep.1))
      · obtain rfl := hfrom _ hstep.1
        rcases hbefore with hlast | ⟨-, hlast⟩
        · exact hlast.2 hstopped
        · exact hlast.2 hstopped
  · intro hcond node hnode
    refine ⟨searchScope_subset hdistinct hhits, ?_⟩
    rintro ⟨hit, hhit, heq | habove | hbelow⟩
    · exact (mem_searchScope _).2 (.inl ((mem_upward hdistinct hhits).2
        ⟨⟨node, hnode, rfl⟩, hit, hhit, atOrAbove_iff.2 (.inl heq)⟩))
    · exact (mem_searchScope _).2 (.inl ((mem_upward hdistinct hhits).2
        ⟨⟨node, hnode, rfl⟩, hit, hhit, atOrAbove_iff.2 (.inr habove)⟩))
    have hpath := (above_iff_path hdistinct ⟨hit, hhits hit hhit, rfl⟩ ⟨node, hnode, rfl⟩).1 hbelow
    have hmatch : hit.entity.id ∈ {id | ∃ hit ∈ hits, hit.entity.id = id} := ⟨hit, hhit, rfl⟩
    -- every process on the way down is in the scope
    clear hbelow
    generalize node.entity.id = id at hpath ⊢
    induction hpath with
    | @single x hstep =>
      rw [mem_searchScope]
      by_cases hup : x ∈ upward nodes hits
      · exact .inl hup
      · exact .inr ⟨_, hmatch, Relation.TransGen.single ⟨hstep, hup⟩⟩
    | @tail y x hbefore hstep ih =>
      rw [mem_searchScope]
      by_cases hup : x ∈ upward nodes hits
      · exact .inl hup
      obtain ⟨⟨middle, hmiddle, rfl⟩, ⟨child, hchild, rfl⟩, hlink⟩ := (mem_childIds hdistinct).1 hstep
      rcases (mem_searchScope _).1 ih with hstopped | ⟨q, hq, hreached⟩
      · by_cases hfound : ∃ hit ∈ hits, hit.entity.id = middle.entity.id
        · exact .inr ⟨_, hfound, Relation.TransGen.single ⟨hstep, hup⟩⟩
        · obtain ⟨-, bottom, hbottom, habove⟩ := (mem_upward hdistinct hhits).1 hstopped
          have hbetween : Between nodes hits middle.entity.id := by
            refine ⟨fun other hother heq => hfound ⟨other, hother, heq⟩, ⟨hit, hhit, ?_⟩,
              bottom, hbottom, ?_⟩
            · exact (above_iff_path hdistinct ⟨hit, hhits hit hhit, rfl⟩ ⟨middle, hmiddle, rfl⟩).2
                hbefore
            · exact (atOrAbove_iff.1 habove).resolve_left fun heq =>
                hfound ⟨bottom, hbottom, heq⟩
          have hkept := hcond middle hmiddle hbetween child
            ((mem_childrenOf hdistinct hmiddle).2 ⟨hchild, hlink⟩)
          exact absurd ((mem_upward hdistinct hhits).2 ⟨⟨child, hchild, rfl⟩, hkept⟩) hup
      · exact .inr ⟨q, hq, hreached.tail ⟨hstep, hup⟩⟩

/-! ### Searches -/

section

variable (lower : Text → Text) (isDigit : Text → Bool)

/-- **A search keeps exactly the matches with all that is above and below them, if and only
if every child of a process between two matches is a match or above one.** -/
theorem search_keeps_subtrees_iff (nodes : List (Node Id))
    (hdistinct : (nodes.map fun node => node.entity.id).Nodup) (needle : Text) :
    (∀ node ∈ nodes, node.entity.id ∈ searchScope nodes (searchHits lower isDigit nodes needle) ↔
          Related nodes (searchHits lower isDigit nodes needle) node.entity.id) ↔
      ∀ node ∈ nodes, Between nodes (searchHits lower isDigit nodes needle) node.entity.id →
        ∀ child ∈ childrenOf nodes node.entity.id, ∃ hit ∈ searchHits lower isDigit nodes needle,
            AtOrAbove nodes child.entity.id hit.entity.id :=
  searchScope_exact_iff hdistinct fun _ hhit => List.mem_of_mem_filter hhit

end

/-- A process of which the PIDs and the name are known. -/
def namedProcess (id : ℕ) (pid ppid : ℤ) (name : String) : Entity ℕ :=
  { bareProcess id pid ppid with
    process := { (bareProcess id pid ppid).process with name := some name.toList } }

/-- A shell that started an installer, which started a shell and a calculator. -/
def installed : List (Node ℕ) :=
  buildTreeMetrics (fun _ => none) [namedProcess 1 100 0 "cmd.exe",
    namedProcess 2 200 100 "setup.exe", namedProcess 3 300 200 "cmd.exe",
    namedProcess 4 400 200 "calc.exe"]

/-- A search for the shells loses the calculator, which is below the first. -/
theorem installed_loses_calculator : ¬ ∀ node ∈ installed, node.entity.id ∈ searchScope installed
          (searchHits (fun text => text) (fun _ => false) installed "cmd".toList) ↔
        Related installed (searchHits (fun text => text) (fun _ => false) installed "cmd".toList)
          node.entity.id := by
  have hout : 4 ∉ searchScope installed
      (searchHits (fun text => text) (fun _ => false) installed "cmd".toList) := by
    decide +kernel
  have hin : ∃ node ∈ installed, node.entity.id = 4 := by decide +kernel
  have hmatch : ∃ hit ∈ searchHits (fun text => text) (fun _ => false) installed "cmd".toList,
      hit.entity.id = 1 := by decide +kernel
  have hbelow : climb (parentAmong installed) 2 4 = some 1 := by decide +kernel
  intro hexact
  obtain ⟨node, hnode, hid⟩ := hin
  obtain ⟨hit, hhit, hfirst⟩ := hmatch
  have hnode := hexact node hnode
  rw [hid] at hnode
  exact hout (hnode.2 ⟨hit, hhit, .inr (.inr ⟨1, by rw [hfirst]; exact hbelow⟩)⟩)

/-- A search for the calculator keeps it with all that is above it. -/
theorem installed_keeps_calculator : (installed.map fun node => node.entity.id).Nodup ∧
    ∀ node ∈ installed, node.entity.id ∈ searchScope installed
          (searchHits (fun text => text) (fun _ => false) installed "calc".toList) ↔
        Related installed (searchHits (fun text => text) (fun _ => false) installed "calc".toList)
          node.entity.id := by
  have hdistinct : (installed.map fun node => node.entity.id).Nodup := by decide +kernel
  refine ⟨hdistinct, (search_keeps_subtrees_iff (fun text => text) (fun _ => false) installed
    hdistinct "calc".toList).2 ?_⟩
  have honly : ∀ hit ∈ searchHits (fun text => text) (fun _ => false) installed "calc".toList,
      hit.entity.id = 4 := by decide +kernel
  have hbelow : ∀ node ∈ installed, parentAmong installed node.entity.id ≠ some 4 := by
    decide +kernel
  rintro node - ⟨-, ⟨hit, hhit, n, hn⟩, -⟩
  obtain ⟨z, -, hlast⟩ := Option.bind_eq_some_iff.1 hn
  obtain ⟨below, hfind, -⟩ := Option.bind_eq_some_iff.1 hlast
  obtain ⟨hmem, rfl⟩ := mem_of_nodeOf hfind
  exact absurd (honly hit hhit ▸ hlast) (hbelow below hmem)

end Kairon.Process
