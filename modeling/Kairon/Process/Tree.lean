/-
Kairon/Process/Tree.lean

`build_tree_metrics`: the parent of every process.

A process is linked to the holder of its PPID that existed when it was created.
Where times are missing the links can form cycles; each is cut at its oldest
member.  `tree_parent` says which link is left: the chosen one, unless the process
is the oldest of a cycle.
-/
import Kairon.Lib.Dict
import Kairon.Lib.Orbit
import Kairon.Process.Entity

namespace Kairon.Process

open Search (Text)

variable {Id : Type} [LinearOrder Id]

/-! ### Choosing a parent -/

section

-- `_parse_time`: the time in microseconds since the first that there is
variable (parseTime : Text → Option ℤ)

def Entity.created (ent : Entity Id) : Option ℤ := ent.process.createTime.bind parseTime

def Entity.exited (ent : Entity Id) : Option ℤ := ent.process.exitTime.bind parseTime

/-- `datetime.min`. -/
def floor : ℤ := 0

/-- The time by which candidates are compared. -/
def Entity.since (ent : Entity Id) : ℤ := (ent.created parseTime).getD floor

/-- A running root, which has held its PID since boot. -/
def Entity.bootRoot (ent : Entity Id) : Bool :=
  ent.process.ppid = some 0 && ent.process.exitTime.isNone

/-- The first time is there, and after the second, which is there too. -/
def later (first second : Option ℤ) : Bool :=
  first.any fun x => second.any fun y => y < x

/-- Whether the candidate existed when the child was created. -/
def plausibleFor (child cand : Entity Id) : Bool :=
  cand.id ≠ child.id &&
    !(later (cand.created parseTime) (child.created parseTime) && !cand.bootRoot) &&
    !later (child.created parseTime) (cand.exited parseTime)

/-- `_choose_parent`: the last created of the plausible candidates, and of those
created at one time the one with the lowest id. -/
def chooseParent (child : Entity Id) (candidates : List (Entity Id)) : Option (Entity Id) :=
  let byId := (candidates.filter (plausibleFor parseTime child)).insertionSort
    fun a b => a.id ≤ b.id
  (byId.insertionSort fun a b => b.since parseTime ≤ a.since parseTime).head?

/-! ### Cycles -/

/-- The loop of `_find_parent_cycles` from one start: the path it takes, and the
cycle if it comes back to the path. -/
def followParents (parentMap : List (Id × Option Id)) (done : List Id) :
    ℕ → Option Id → List Id → List Id × Option (List Id)
  | 0, _, path => (path, none)
  | _, none, path => (path, none)
  | fuel + 1, some cur, path =>
    if cur ∈ done then (path, none)
    else
      match Dict.get parentMap cur with
      | none => (path, none)
      | some parent =>
        if cur ∈ path then (path, some (path.dropWhile fun x => x ≠ cur))
        else followParents parentMap done fuel parent (path ++ [cur])

/-- The ids that are done and the cycles so far, with those from one more start.  A
path has each id at most once, so that the loop ends. -/
def exploreFrom (parentMap : List (Id × Option Id)) (state : List Id × List (List Id))
    (start : Id) : List Id × List (List Id) :=
  let followed := followParents parentMap state.1 (parentMap.length + 1) (some start) []
  (state.1 ++ followed.1, state.2 ++ followed.2.toList)

/-- `_find_parent_cycles`. -/
def findParentCycles (parentMap : List (Id × Option Id)) : List (List Id) :=
  ((parentMap.map Prod.fst).foldl (exploreFrom parentMap) ([], [])).2

/-- `_creation_sort_key`. -/
def creationSortKey (ent : Entity Id) : Bool ×ₗ ℤ ×ₗ ℤ ×ₗ Id :=
  toLex ((ent.created parseTime).isNone, toLex (ent.since parseTime,
    toLex (ent.process.pid, ent.id)))

/-- `min(.., key=..)`: the first with the least key. -/
def minBy {α β : Type} [LinearOrder β] (key : α → β) : List α → Option α
  | [] => none
  | x :: xs => some (xs.foldl (fun best y => if key y < key best then y else best) x)

/-! ### Metrics -/

structure Flags where
  isRoot : Bool := false
  isOrphan : Bool := false
  isUnknownParent : Bool := false
  isCycle : Bool := false
  isSelfParent : Bool := false
  isPidZero : Bool

/-- An entity with what `build_tree_metrics` sets on it. -/
structure Node (Id : Type) where
  entity : Entity Id
  tree : Flags
  parentEntityId : Option Id
  childCount : ℕ

/-- The holders of the PPID, `by_pid.get(ppid, [])`. -/
def holders (entities : List (Entity Id)) (pid : ℤ) : List (Entity Id) :=
  entities.filter fun ent => ent.process.pid = pid

/-- The parent of an entity before cycles are cut. -/
def chosenParent (entities : List (Entity Id)) (ent : Entity Id) : Option (Entity Id) :=
  match ent.process.ppid with
  | none => none
  | some ppid =>
    if ppid = ent.process.pid then none
    else chooseParent parseTime ent (holders entities ppid)

/-- The flags of an entity before cycles are cut. -/
def firstFlags (entities : List (Entity Id)) (ent : Entity Id) : Flags :=
  let flags : Flags := { isPidZero := ent.process.pid = 0 }
  match ent.process.ppid with
  | none => { flags with isUnknownParent := true }
  | some ppid =>
    if ppid = ent.process.pid then { flags with isSelfParent := true }
    else
      match chooseParent parseTime ent (holders entities ppid) with
      | some parent =>
        if parent.process.pid = 0 ∧ ent.process.pid ≠ 0 then { flags with isRoot := true }
        else flags
      | none =>
        if ppid = 0 then { flags with isRoot := ent.process.pid ≠ 0 }
        else { flags with isOrphan := true }

/-- The parent map before cycles are cut. -/
def firstParents (entities : List (Entity Id)) : List (Id × Option Id) :=
  entities.foldl
    (fun parents ent =>
      Dict.set ent.id ((chosenParent parseTime entities ent).map Entity.id) parents) []

/-- The entity of an id; of several, the last. -/
def entityOf (entities : List (Entity Id)) (id : Id) : Option (Entity Id) :=
  entities.reverse.find? fun ent => ent.id = id

/-- The member of a cycle at which it is cut. -/
def oldest (entities : List (Entity Id)) (cycle : List Id) : Option Id :=
  (minBy (creationSortKey parseTime) (cycle.filterMap (entityOf entities))).map Entity.id

/-- The parent map that is left. -/
def finalParents (entities : List (Entity Id)) : List (Id × Option Id) :=
  let parents := firstParents parseTime entities
  ((findParentCycles parents).filterMap (oldest parseTime entities)).foldl
    (fun parents id => Dict.set id none parents) parents

/-- An entity with what is set on it.  A cycle is flagged on the last entity of each of
its ids. -/
def annotate (entities : List (Entity Id)) (ent : Entity Id) : Node Id where
  entity := ent
  tree := { firstFlags parseTime entities ent with
    isCycle := entityOf entities ent.id = some ent &&
      (findParentCycles (firstParents parseTime entities)).any fun cycle => ent.id ∈ cycle }
  parentEntityId := (Dict.get (finalParents parseTime entities) ent.id).join
  childCount := (finalParents parseTime entities).countP fun entry => entry.2 = some ent.id

/-- `build_tree_metrics`, what it sets on the entities. -/
def buildTreeMetrics (entities : List (Entity Id)) : List (Node Id) :=
  entities.map (annotate parseTime entities)

end

/-! ### The cycles that are found -/

section

/-- The parent that a map has for an id. -/
def parentIn (parentMap : List (Id × Option Id)) (id : Id) : Option Id :=
  (Dict.get parentMap id).join

variable {parentMap : List (Id × Option Id)} {done path : List Id} {cur : Option Id}

theorem mem_keys_iff {id : Id} :
    id ∈ parentMap.map Prod.fst ↔ ∃ parent, Dict.get parentMap id = some parent := by
  rw [← not_iff_not, ← Dict.get_eq_none]
  simp [Option.eq_none_iff_forall_ne_some]

theorem head?_dropWhile_ne {x : Id} {row : List Id} (h : x ∈ row) :
    (row.dropWhile fun y => decide (y ≠ x)).head? = some x := by
  induction row with
  | nil => cases h
  | cons y row ih =>
    by_cases heq : y = x
    · rw [heq, List.dropWhile_cons_of_neg (by simp)]
      rfl
    · rw [List.dropWhile_cons_of_pos (by simpa using heq)]
      exact ih ((List.mem_cons.1 h).resolve_left fun hx => heq hx.symm)

/-- The path of the loop so far, and the id it looks at next. -/
structure OnTheWay (parentMap : List (Id × Option Id)) (done path : List Id) (cur : Option Id) :
    Prop where
  chain : path.IsChain fun a b => parentIn parentMap a = some b
  next : ∀ last ∈ path.getLast?, parentIn parentMap last = cur
  nodup : path.Nodup
  known : ∀ x ∈ path, x ∈ parentMap.map Prod.fst
  fresh : ∀ x ∈ path, x ∉ done

/-- What the loop comes to. -/
structure Followed (parentMap : List (Id × Option Id)) (done : List Id) (cur : Option Id)
    (path : List Id) (cycle : Option (List Id)) : Prop where
  chain : path.IsChain fun a b => parentIn parentMap a = some b
  fresh : ∀ x ∈ path, x ∉ done
  reached : ∀ x, cur = some x → x ∈ parentMap.map Prod.fst → x ∈ done ∨ x ∈ path
  loop : ∀ c ∈ cycle, Loop (parentIn parentMap) c ∧ c <:+ path
  leaves : cycle = none → ∀ last ∈ path.getLast?, ∀ x, parentIn parentMap last = some x →
    x ∈ parentMap.map Prod.fst → x ∈ done

theorem followParents_spec {fuel : ℕ} (h : OnTheWay parentMap done path cur)
    (hfuel : parentMap.length < fuel + path.length) :
    Followed parentMap done cur (followParents parentMap done fuel cur path).1
        (followParents parentMap done fuel cur path).2 ∧
      path <+: (followParents parentMap done fuel cur path).1 := by
  induction fuel generalizing path cur with
  | zero =>
    -- a path without repetitions is not longer than the map
    have hle : path.length ≤ (parentMap.map Prod.fst).length :=
      (h.nodup.subperm h.known).length_le
    rw [List.length_map] at hle
    omega
  | succ fuel ih =>
    rcases cur with - | cur
    · refine ⟨⟨h.chain, h.fresh, ?_, ?_, ?_⟩, List.prefix_rfl⟩
      · intro x hx
        cases hx
      · intro c hc
        cases hc
      · intro _ last hlast x hx
        rw [h.next last hlast] at hx
        cases hx
    rw [followParents]
    by_cases hdone : cur ∈ done
    · rw [if_pos hdone]
      refine ⟨⟨h.chain, h.fresh, ?_, ?_, ?_⟩, List.prefix_rfl⟩
      · rintro x ⟨⟩ -
        exact .inl hdone
      · intro c hc
        cases hc
      · intro _ last hlast x hx _
        rw [h.next last hlast] at hx
        exact Option.some.inj hx ▸ hdone
    rw [if_neg hdone]
    rcases hget : Dict.get parentMap cur with - | parent
    · have hnot : cur ∉ parentMap.map Prod.fst := Dict.get_eq_none.1 hget
      refine ⟨⟨h.chain, h.fresh, ?_, ?_, ?_⟩, List.prefix_rfl⟩
      · rintro x ⟨⟩ hx
        exact absurd hx hnot
      · intro c hc
        cases hc
      · intro _ last hlast x hx hknown
        rw [h.next last hlast] at hx
        exact absurd (Option.some.inj hx ▸ hknown) hnot
    dsimp only
    have hparent : parentIn parentMap cur = parent := by
      rw [parentIn, hget]
      rfl
    by_cases hmem : cur ∈ path
    · rw [if_pos hmem]
      refine ⟨⟨h.chain, h.fresh, ?_, ?_, ?_⟩, List.prefix_rfl⟩
      · rintro x ⟨⟩ -
        exact .inr hmem
      · rintro c hc
        obtain rfl := Option.some.inj hc
        have hsuffix : (path.dropWhile fun x => decide (x ≠ cur)) <:+ path :=
          List.dropWhile_suffix _
        have hfirst := head?_dropWhile_ne hmem
        refine ⟨⟨h.chain.suffix hsuffix, cur, hfirst, ?_⟩, hsuffix⟩
        -- the last id of the path is the last of the cycle
        have hne : (path.dropWhile fun x => decide (x ≠ cur)) ≠ [] := by
          intro hnil
          rw [hnil] at hfirst
          cases hfirst
        obtain ⟨before, hbefore⟩ := hsuffix
        obtain ⟨last, hlast⟩ : ∃ last, last ∈ path.getLast? :=
          Option.ne_none_iff_exists'.1 (mt List.getLast?_eq_none_iff.1 (List.ne_nil_of_mem hmem))
        refine ⟨last, ?_, h.next last hlast⟩
        rw [← hbefore, List.getLast?_append_of_ne_nil _ hne] at hlast
        exact hlast
      · intro hnone
        cases hnone
    · rw [if_neg hmem]
      have hway : OnTheWay parentMap done (path ++ [cur]) parent := by
        refine ⟨?_, ?_, ?_, ?_, ?_⟩
        · refine List.isChain_append.2 ⟨h.chain, List.isChain_singleton _, ?_⟩
          intro last hlast x hx
          obtain rfl := Option.some.inj hx
          exact h.next last hlast
        · intro last hlast
          rw [List.getLast?_append_of_ne_nil _ (List.cons_ne_nil _ _)] at hlast
          obtain rfl := Option.some.inj hlast
          exact hparent
        · exact List.nodup_append.2 ⟨h.nodup, List.nodup_singleton _, by
            rintro x hx y hy rfl
            exact hmem (List.mem_singleton.1 hy ▸ hx)⟩
        · intro x hx
          rcases List.mem_append.1 hx with hx | hx
          · exact h.known x hx
          · rw [List.mem_singleton.1 hx]
            exact mem_keys_iff.2 ⟨parent, hget⟩
        · intro x hx
          rcases List.mem_append.1 hx with hx | hx
          · exact h.fresh x hx
          · rw [List.mem_singleton.1 hx]
            exact hdone
      obtain ⟨hfollowed, hgrows⟩ := ih hway (by rw [List.length_append]; simp; omega)
      have hlonger := (List.prefix_append path [cur]).trans hgrows
      refine ⟨⟨hfollowed.chain, hfollowed.fresh, ?_, hfollowed.loop, hfollowed.leaves⟩, hlonger⟩
      rintro x ⟨⟩ -
      exact .inr (hgrows.subset (by simp))

/-- What is known once some ids are done. -/
structure Explored (parentMap : List (Id × Option Id)) (done : List Id)
    (cycles : List (List Id)) : Prop where
  closed : ∀ x ∈ done, ∀ y, parentIn parentMap x = some y → y ∈ parentMap.map Prod.fst → y ∈ done
  loops : ∀ c ∈ cycles, Loop (parentIn parentMap) c
  found : ∀ x ∈ done, Cyclic (parentIn parentMap) x → ∃ c ∈ cycles, x ∈ c

theorem known_of_cyclic {x : Id} (h : Cyclic (parentIn parentMap) x) :
    x ∈ parentMap.map Prod.fst := by
  obtain ⟨y, hy⟩ := h.isSome
  exact mem_keys_iff.2 ⟨_, Option.join_eq_some_iff.1 hy⟩

variable {cycles : List (List Id)}

/-- What is above a cyclic id that is done is done. -/
theorem Explored.climb_mem (h : Explored parentMap done cycles) {n : ℕ}
    {x y : Id} (hx : x ∈ done) (hcyclic : Cyclic (parentIn parentMap) x)
    (hy : climb (parentIn parentMap) n x = some y) : y ∈ done := by
  induction n generalizing y with
  | zero => exact Option.some.inj hy ▸ hx
  | succ n ih =>
    obtain ⟨z, hz, hzy⟩ := Option.bind_eq_some_iff.1 hy
    exact h.closed z (ih hz) y hzy (known_of_cyclic (hcyclic.of_climb hy))

theorem Followed.last_mem {cycle : List Id} (h : Followed parentMap done cur path (some cycle))
    {last : Id} (hlast : last ∈ path.getLast?) : last ∈ cycle := by
  obtain ⟨hloop, before, hbefore⟩ := h.loop cycle rfl
  have hne : cycle ≠ [] := by
    rintro rfl
    obtain ⟨first, hfirst, -⟩ := hloop.closes
    cases hfirst
  rw [← hbefore, List.getLast?_append_of_ne_nil _ hne] at hlast
  exact List.mem_of_mem_getLast? hlast

/-- Following the parents of one more id. -/
theorem Explored.follow {cycle : Option (List Id)}
    (h : Explored parentMap done cycles) (hfollowed : Followed parentMap done cur path cycle) :
    Explored parentMap (done ++ path) (cycles ++ cycle.toList) := by
  refine ⟨?_, ?_, ?_⟩
  · intro x hx y hy hknown
    rw [List.mem_append] at hx ⊢
    rcases hx with hx | hx
    · exact .inl (h.closed x hx y hy hknown)
    rcases chain_parent hfollowed.chain hx with hlast | ⟨z, hz, hparent⟩
    · rcases cycle with - | cycle
      · exact .inl (hfollowed.leaves rfl x hlast y hy hknown)
      · obtain ⟨hloop, hsuffix⟩ := hfollowed.loop cycle rfl
        exact .inr (hsuffix.subset (hloop.parent_mem (hfollowed.last_mem hlast) hy))
    · obtain rfl := Option.some.inj (hy.symm.trans hparent)
      exact .inr hz
  · intro c hc
    rcases List.mem_append.1 hc with hc | hc
    · exact h.loops c hc
    · exact (hfollowed.loop c (Option.mem_toList.1 hc)).1
  · intro x hx hcyclic
    rcases List.mem_append.1 hx with hx | hx
    · obtain ⟨c, hc, hmem⟩ := h.found x hx hcyclic
      exact ⟨c, List.mem_append_left _ hc, hmem⟩
    obtain ⟨last, hlast⟩ : ∃ last, last ∈ path.getLast? :=
      Option.ne_none_iff_exists'.1 (mt List.getLast?_eq_none_iff.1 (List.ne_nil_of_mem hx))
    obtain ⟨n, hn⟩ := chain_climbs_last hfollowed.chain hx hlast
    rcases cycle with - | cycle
    · -- the path ends in what is done, which a cyclic id does not come back from
      exfalso
      obtain ⟨y, hy⟩ := (hcyclic.of_climb hn).isSome
      have hclimb : climb (parentIn parentMap) (n + 1) x = some y := by
        rw [climb, hn]
        exact hy
      have hdone := hfollowed.leaves rfl last hlast y hy
        (known_of_cyclic (hcyclic.of_climb hclimb))
      obtain ⟨m, hm⟩ := hcyclic.returns hclimb
      exact hfollowed.fresh x hx (h.climb_mem hdone (hcyclic.of_climb hclimb) hm)
    · obtain ⟨m, hm⟩ := hcyclic.returns hn
      refine ⟨cycle, List.mem_append_right _ (Option.mem_toList.2 rfl), ?_⟩
      exact (hfollowed.loop cycle rfl).1.climb_mem (hfollowed.last_mem hlast) hm

theorem foldl_exploreFrom {starts : List Id} {state : List Id × List (List Id)}
    (hknown : ∀ x ∈ starts, x ∈ parentMap.map Prod.fst)
    (h : Explored parentMap state.1 state.2) :
    Explored parentMap (starts.foldl (exploreFrom parentMap) state).1
        (starts.foldl (exploreFrom parentMap) state).2 ∧
      (∀ x ∈ state.1, x ∈ (starts.foldl (exploreFrom parentMap) state).1) ∧
      ∀ x ∈ starts, x ∈ (starts.foldl (exploreFrom parentMap) state).1 := by
  induction starts generalizing state with
  | nil => exact ⟨h, fun _ hx => hx, by simp⟩
  | cons start starts ih =>
    have hway : OnTheWay parentMap state.1 [] (some start) :=
      ⟨List.isChain_nil, by simp, List.nodup_nil, by simp, by simp⟩
    obtain ⟨hfollowed, -⟩ := followParents_spec hway
      (show parentMap.length < parentMap.length + 1 + 0 by omega)
    have hnext : Explored parentMap (exploreFrom parentMap state start).1
        (exploreFrom parentMap state start).2 := h.follow hfollowed
    obtain ⟨hend, hkept, hall⟩ := ih (fun x hx => hknown x (.tail _ hx)) hnext
    refine ⟨hend, fun x hx => hkept x (List.mem_append_left _ hx), ?_⟩
    intro x hx
    rcases List.mem_cons.1 hx with rfl | hx
    · apply hkept
      rw [exploreFrom, List.mem_append]
      exact hfollowed.reached x rfl (hknown x (.head _))
    · exact hall x hx

/-- The cycles that are found are cycles, and all there are. -/
theorem findParentCycles_spec (parentMap : List (Id × Option Id)) :
    (∀ c ∈ findParentCycles parentMap, Loop (parentIn parentMap) c) ∧
      ∀ x, Cyclic (parentIn parentMap) x → ∃ c ∈ findParentCycles parentMap, x ∈ c := by
  have hstart : Explored parentMap (([], []) : List Id × List (List Id)).1
      (([], []) : List Id × List (List Id)).2 := ⟨by simp, by simp, by simp⟩
  obtain ⟨hexplored, -, hall⟩ := foldl_exploreFrom (fun _ hx => hx) hstart
  exact ⟨hexplored.loops, fun x hx => hexplored.found x (hall x (known_of_cyclic hx)) hx⟩

end

/-! ### The parents that are left -/

theorem minBy_spec {α β : Type} [LinearOrder β] (key : α → β) {row : List α} {x : α}
    (h : minBy key row = some x) : x ∈ row ∧ ∀ y ∈ row, key x ≤ key y := by
  rcases row with - | ⟨first, row⟩
  · cases h
  obtain rfl := Option.some.inj h
  clear h
  induction row generalizing first with
  | nil => simp
  | cons y row ih =>
    rw [List.foldl_cons]
    split
    · next hlt =>
        obtain ⟨hmem, hle⟩ := ih y
        refine ⟨.tail _ hmem, fun z hz => ?_⟩
        rcases List.mem_cons.1 hz with rfl | hz
        · exact (hle y (.head _)).trans hlt.le
        · exact hle z hz
    · next hnot =>
        obtain ⟨hmem, hle⟩ := ih first
        refine ⟨?_, fun z hz => ?_⟩
        · rcases List.mem_cons.1 hmem with hmem | hmem
          · rw [hmem]
            exact .head _
          · exact .tail _ (.tail _ hmem)
        · rcases List.mem_cons.1 hz with rfl | hz
          · exact hle z (.head _)
          rcases List.mem_cons.1 hz with rfl | hz
          · exact (hle first (.head _)).trans (not_lt.1 hnot)
          · exact hle z (.tail _ hz)

theorem sum_indicator {x : Id} {ids : List Id} (hnodup : ids.Nodup) (h : x ∈ ids) :
    (ids.map fun id => if x = id then 1 else 0).sum = 1 := by
  induction ids with
  | nil => cases h
  | cons id ids ih =>
    rw [List.nodup_cons] at hnodup
    rw [List.map_cons, List.sum_cons]
    by_cases heq : x = id
    · have hzero : (ids.map fun id => if x = id then 1 else 0).sum = 0 := by
        refine List.sum_eq_zero fun n hn => ?_
        obtain ⟨y, hy, rfl⟩ := List.mem_map.1 hn
        refine if_neg fun hxy => hnodup.1 ?_
        rw [← heq, hxy]
        exact hy
      rw [if_pos heq, hzero]
    · rw [if_neg heq, ih hnodup.2 ((List.mem_cons.1 h).resolve_left heq)]

/-- Entries counted by their value, for all values together. -/
theorem sum_countP_eq {entries : List (Id × Option Id)} {ids : List Id} (hnodup : ids.Nodup)
    (hvalues : ∀ entry ∈ entries, ∀ id, entry.2 = some id → id ∈ ids) :
    (ids.map fun id => entries.countP fun entry => entry.2 = some id).sum =
      entries.countP fun entry => entry.2.isSome := by
  induction entries with
  | nil => simp
  | cons entry entries ih =>
    simp only [List.countP_cons]
    rw [List.sum_map_add, ih fun e he => hvalues e (.tail _ he)]
    congr 1
    rcases hvalue : entry.2 with - | x
    · simp
    · simpa using sum_indicator hnodup (hvalues entry (.head _) x hvalue)

section

variable {parseTime : Text → Option ℤ} {entities : List (Entity Id)}

/-- The parent function before cycles are cut. -/
def unbroken (parseTime : Text → Option ℤ) (entities : List (Entity Id)) (id : Id) : Option Id :=
  (entityOf entities id).bind fun ent => (chosenParent parseTime entities ent).map Entity.id

/-- The id is the oldest of a cycle. -/
def IsOldest (parseTime : Text → Option ℤ) (entities : List (Entity Id)) (ent : Entity Id) :
    Prop :=
  Cyclic (unbroken parseTime entities) ent.id ∧
    ∀ n, ∀ other ∈ entities, climb (unbroken parseTime entities) n ent.id = some other.id →
      creationSortKey parseTime ent ≤ creationSortKey parseTime other

variable {child parent : Entity Id} {candidates : List (Entity Id)}

theorem chooseParent_mem (h : chooseParent parseTime child candidates = some parent) :
    parent ∈ candidates ∧ plausibleFor parseTime child parent = true := by
  have hmem := List.mem_of_mem_head? h
  rw [List.mem_insertionSort, List.mem_insertionSort] at hmem
  exact List.mem_filter.1 hmem

/-- The first is a better parent than the second: created later, or with a lower id. -/
def Better (parseTime : Text → Option ℤ) (first second : Entity Id) : Prop :=
  second.since parseTime < first.since parseTime ∨
    second.since parseTime = first.since parseTime ∧ first.id ≤ second.id

/-- Sorted by time, a row that is sorted by id begins with the best. -/
theorem best_of_sorted {row : List (Entity Id)} (hrow : row.Pairwise fun a b => a.id ≤ b.id)
    {best : Entity Id}
    (h : (row.insertionSort fun a b => b.since parseTime ≤ a.since parseTime).head? = some best) :
    ∀ other ∈ row, Better parseTime best other := by
  induction row generalizing best with
  | nil =>
    intro other hother
    cases hother
  | cons first row ih =>
    rw [List.pairwise_cons] at hrow
    rw [List.insertionSort_cons] at h
    have hself : Better parseTime first first := .inr ⟨rfl, le_rfl⟩
    rcases hsorted : row.insertionSort fun a b => b.since parseTime ≤ a.since parseTime with
      - | ⟨second, rest⟩
    · -- nothing else is in the row
      have hnil : row = [] := by
        have hlength := congrArg List.length hsorted
        rw [List.length_insertionSort] at hlength
        exact List.length_eq_zero_iff.1 hlength
      rw [hsorted] at h
      obtain rfl := Option.some.inj h
      intro other hother
      rw [hnil, List.mem_singleton] at hother
      rw [hother]
      exact hself
    have hbest := ih hrow.2 (by rw [hsorted]; rfl)
    rw [hsorted, List.orderedInsert_cons] at h
    split at h
    · next hle =>
        obtain rfl := Option.some.inj h
        intro other hother
        rcases List.mem_cons.1 hother with rfl | hother
        · exact hself
        · rcases hbest other hother with hlt | ⟨heq, -⟩
          · exact .inl (hlt.trans_le hle)
          · rcases (heq.le.trans hle).lt_or_eq with hlt | heq
            · exact .inl hlt
            · exact .inr ⟨heq, hrow.1 other hother⟩
    · next hnot =>
        obtain rfl := Option.some.inj h
        intro other hother
        rcases List.mem_cons.1 hother with rfl | hother
        · exact .inl (not_le.1 hnot)
        · exact hbest other hother

instance : Std.Total fun a b : Entity Id => a.id ≤ b.id := ⟨fun a b => le_total a.id b.id⟩

instance : IsTrans (Entity Id) fun a b => a.id ≤ b.id := ⟨fun _ _ _ => le_trans⟩

/-- The chosen parent is the best of the plausible candidates. -/
theorem chooseParent_best (h : chooseParent parseTime child candidates = some parent) :
    ∀ other ∈ candidates, plausibleFor parseTime child other = true →
      Better parseTime parent other := by
  intro other hother hexisted
  refine best_of_sorted (List.pairwise_insertionSort _ _) h other ?_
  rw [List.mem_insertionSort]
  exact List.mem_filter.2 ⟨hother, hexisted⟩

theorem exists_chooseParent {child other : Entity Id}
    (hother : other ∈ candidates) (hexisted : plausibleFor parseTime child other = true) :
    ∃ parent, chooseParent parseTime child candidates = some parent := by
  refine Option.ne_none_iff_exists'.1 fun hnone => ?_
  have hmem : other ∈ ((candidates.filter (plausibleFor parseTime child)).insertionSort
      fun a b => a.id ≤ b.id).insertionSort
        fun a b => b.since parseTime ≤ a.since parseTime := by
    rw [List.mem_insertionSort, List.mem_insertionSort]
    exact List.mem_filter.2 ⟨hother, hexisted⟩
  rw [List.head?_eq_none_iff.1 hnone] at hmem
  cases hmem

theorem chosenParent_mem (h : chosenParent parseTime entities child = some parent) :
    parent ∈ entities ∧ child.process.ppid = some parent.process.pid ∧
      child.process.ppid ≠ some child.process.pid ∧ parent.id ≠ child.id := by
  rw [chosenParent] at h
  split at h
  · cases h
  · next ppid hppid =>
      split at h
      · cases h
      · next hne =>
          obtain ⟨hmem, hexisted⟩ := chooseParent_mem h
          obtain ⟨hmem, hpid⟩ := List.mem_filter.1 hmem
          refine ⟨hmem, ?_, ?_, ?_⟩
          · rw [hppid, of_decide_eq_true hpid]
          · rw [hppid]
            exact fun heq => hne (Option.some.inj heq)
          · rw [plausibleFor, Bool.and_eq_true, Bool.and_eq_true] at hexisted
            exact of_decide_eq_true hexisted.1.1

theorem mem_of_entityOf {id : Id} {ent : Entity Id} (h : entityOf entities id = some ent) :
    ent ∈ entities ∧ ent.id = id := by
  rw [entityOf] at h
  exact ⟨List.mem_reverse.1 (List.mem_of_find?_eq_some h), by simpa using List.find?_some h⟩

section

variable (hdistinct : (entities.map Entity.id).Nodup)

include hdistinct

theorem entityOf_id {ent : Entity Id} (h : ent ∈ entities) :
    entityOf entities ent.id = some ent := by
  rcases hfind : entityOf entities ent.id with - | other
  · rw [entityOf, List.find?_eq_none] at hfind
    exact absurd (decide_eq_true rfl) (hfind ent (List.mem_reverse.2 h))
  · obtain ⟨hmem, hid⟩ := mem_of_entityOf hfind
    rw [List.inj_on_of_nodup_map hdistinct hmem h hid]

theorem unbroken_id {ent : Entity Id} (h : ent ∈ entities) : unbroken parseTime entities ent.id =
      (chosenParent parseTime entities ent).map Entity.id := by
  rw [unbroken, entityOf_id hdistinct h]
  rfl

end

/-- The ids at which cycles are cut. -/
def cuts (parseTime : Text → Option ℤ) (entities : List (Entity Id)) : List Id :=
  (findParentCycles (firstParents parseTime entities)).filterMap (oldest parseTime entities)

theorem parentIn_firstParents :
    parentIn (firstParents parseTime entities) = unbroken parseTime entities := by
  funext id
  rw [parentIn, firstParents, Dict.get_foldl_set, unbroken]
  show (((entityOf entities id).map _).or none).join = _
  rcases entityOf entities id with - | ent
  · rfl
  · rfl

theorem parentIn_finalParents : parentIn (finalParents parseTime entities) =
      cutAt (unbroken parseTime entities) (cuts parseTime entities) := by
  funext id
  rw [← parentIn_firstParents, finalParents]
  show parentIn ((cuts parseTime entities).foldl _ _) id = _
  generalize firstParents parseTime entities = parents
  rw [parentIn, Dict.get_foldl_set (fun x => x) (fun _ => (none : Option Id)), cutAt]
  by_cases hmem : id ∈ cuts parseTime entities
  · obtain ⟨x, hx⟩ : ∃ x, (cuts parseTime entities).reverse.find? (fun x => x = id) = some x := by
      rw [← Option.isSome_iff_exists, List.find?_isSome]
      exact ⟨id, List.mem_reverse.2 hmem, decide_eq_true rfl⟩
    rw [if_pos hmem, hx]
    rfl
  · have hx : (cuts parseTime entities).reverse.find? (fun x => x = id) = none := by
      rw [List.find?_eq_none]
      intro x hx heq
      exact hmem (of_decide_eq_true heq ▸ List.mem_reverse.1 hx)
    rw [if_neg hmem, hx]
    rfl

section

variable (hdistinct : (entities.map Entity.id).Nodup)

include hdistinct

/-- The member at which a cycle is cut. -/
theorem oldest_spec {cycle : List Id} (hloop : Loop (unbroken parseTime entities) cycle) :
    ∃ ent ∈ entities, oldest parseTime entities cycle = some ent.id ∧ ent.id ∈ cycle ∧
      ∀ other ∈ entities, other.id ∈ cycle →
        creationSortKey parseTime ent ≤ creationSortKey parseTime other := by
  have hmembers : ∀ x ∈ cycle, ∃ ent, entityOf entities x = some ent := by
    intro x hx
    obtain ⟨y, hy⟩ := (hloop.cyclic hx).isSome
    obtain ⟨ent, hent, -⟩ := Option.bind_eq_some_iff.1 hy
    exact ⟨ent, hent⟩
  have hsome : ∃ ent, minBy (creationSortKey parseTime) (cycle.filterMap (entityOf entities)) =
      some ent := by
    obtain ⟨first, hfirst, -⟩ := hloop.closes
    obtain ⟨ent, hent⟩ := hmembers first (List.mem_of_mem_head? hfirst)
    have hmem : ent ∈ cycle.filterMap (entityOf entities) :=
      List.mem_filterMap.2 ⟨first, List.mem_of_mem_head? hfirst, hent⟩
    rcases hrow : cycle.filterMap (entityOf entities) with - | ⟨head, tail⟩
    · rw [hrow] at hmem
      cases hmem
    · exact ⟨_, rfl⟩
  obtain ⟨ent, hent⟩ := hsome
  obtain ⟨hmem, hle⟩ := minBy_spec _ hent
  obtain ⟨x, hx, hof⟩ := List.mem_filterMap.1 hmem
  obtain ⟨hin, rfl⟩ := mem_of_entityOf hof
  refine ⟨ent, hin, ?_, hx, ?_⟩
  · rw [oldest, hent]
    rfl
  · intro other hother hcycle
    exact hle other (List.mem_filterMap.2 ⟨other.id, hcycle, entityOf_id hdistinct hother⟩)

theorem creationSortKey_injective {first second : Entity Id} (hfirst : first ∈ entities)
    (hsecond : second ∈ entities)
    (h : creationSortKey parseTime first = creationSortKey parseTime second) : first = second := by
  have hid : first.id = second.id := congrArg (fun key => (ofLex (ofLex (ofLex key).2).2).2) h
  exact List.inj_on_of_nodup_map hdistinct hfirst hsecond hid

variable {ent : Entity Id}

/-- Cycles are cut at the oldest of their members, and nowhere else. -/
theorem mem_cuts_iff (hent : ent ∈ entities) :
    ent.id ∈ cuts parseTime entities ↔ IsOldest parseTime entities ent := by
  obtain ⟨hloops, hfound⟩ := findParentCycles_spec (firstParents parseTime entities)
  rw [parentIn_firstParents] at hloops hfound
  constructor
  · intro hcut
    obtain ⟨cycle, hcycle, hold⟩ := List.mem_filterMap.1 hcut
    have hloop := hloops cycle hcycle
    obtain ⟨other, hother, hold', hmem, hle⟩ := oldest_spec hdistinct hloop
    obtain rfl : other = ent := List.inj_on_of_nodup_map hdistinct hother hent
      (Option.some.inj (hold'.symm.trans hold))
    refine ⟨hloop.cyclic hmem, fun n above habove hclimb => ?_⟩
    exact hle above habove (hloop.climb_mem hmem hclimb)
  · rintro ⟨hcyclic, hleast⟩
    obtain ⟨cycle, hcycle, hmem⟩ := hfound ent.id hcyclic
    have hloop := hloops cycle hcycle
    obtain ⟨other, hother, hold, hmem', hle⟩ := oldest_spec hdistinct hloop
    obtain ⟨n, hn⟩ := hloop.climbs hmem hmem'
    have hkey := le_antisymm (hleast (n + 1) other hother hn) (hle ent hent hmem)
    obtain rfl := creationSortKey_injective hdistinct hent hother hkey
    exact List.mem_filterMap.2 ⟨cycle, hcycle, hold⟩

theorem acyclic_finalParents : Acyclic (parentIn (finalParents parseTime entities)) := by
  obtain ⟨hloops, hfound⟩ := findParentCycles_spec (firstParents parseTime entities)
  rw [parentIn_firstParents] at hloops hfound
  rw [parentIn_finalParents]
  refine acyclic_cutAt fun x hx => ?_
  obtain ⟨cycle, hcycle, hmem⟩ := hfound x hx
  obtain ⟨ent, -, hold, hmem', -⟩ := oldest_spec hdistinct (hloops cycle hcycle)
  obtain ⟨n, hn⟩ := (hloops cycle hcycle).climbs hmem hmem'
  exact ⟨n + 1, ent.id, List.mem_filterMap.2 ⟨cycle, hcycle, hold⟩, hn⟩

/-- The link that is left of an entity is the chosen one, unless it is the oldest of a
cycle. -/
theorem tree_parent (hent : ent ∈ entities) (id : Id) :
    parentIn (finalParents parseTime entities) ent.id = some id ↔
      ¬ IsOldest parseTime entities ent ∧
        ∃ parent, chosenParent parseTime entities ent = some parent ∧ parent.id = id := by
  rw [parentIn_finalParents, cutAt, ← mem_cuts_iff hdistinct hent, unbroken_id hdistinct hent]
  split
  · next hcut => simp [hcut]
  · next hcut => simp [hcut]

/-- The maps have the ids of the entities as their keys. -/
theorem keys_firstParents :
    (firstParents parseTime entities).map Prod.fst = entities.map Entity.id := by
  rw [firstParents, Dict.keys_foldl_set Entity.id _ hdistinct [] (by simp)]
  rfl

omit hdistinct in
theorem cuts_subset {id : Id} (h : id ∈ cuts parseTime entities) : id ∈ entities.map Entity.id := by
  obtain ⟨cycle, -, hold⟩ := List.mem_filterMap.1 h
  obtain ⟨ent, hent, rfl⟩ := Option.map_eq_some_iff.1 hold
  obtain ⟨x, -, hof⟩ := List.mem_filterMap.1 (minBy_spec _ hent).1
  exact List.mem_map_of_mem (mem_of_entityOf hof).1

theorem keys_finalParents :
    (finalParents parseTime entities).map Prod.fst = entities.map Entity.id := by
  have hkeys : (firstParents parseTime entities).map Prod.fst = entities.map Entity.id :=
    keys_firstParents hdistinct
  rw [← hkeys, finalParents]
  refine Dict.keys_foldl_set_of_mem (fun id => id) (fun _ => none) fun id hid => ?_
  rw [hkeys]
  exact cuts_subset hid

theorem finalParents_eq : finalParents parseTime entities = entities.map fun ent =>
      (ent.id, parentIn (finalParents parseTime entities) ent.id) := by
  have hkeys : (finalParents parseTime entities).map Prod.fst = entities.map Entity.id :=
    keys_finalParents hdistinct
  have hmap := Dict.eq_map_keys (hkeys.symm ▸ hdistinct)
  rw [hkeys, List.map_map] at hmap
  exact hmap

/-! ### The forest -/

/-- Every parent is an entity that holds the child's PPID. -/
theorem parent_holds_ppid (hent : ent ∈ entities) {id : Id}
    (h : parentIn (finalParents parseTime entities) ent.id = some id) :
    ∃ parent ∈ entities, parent.id = id ∧ ent.process.ppid = some parent.process.pid := by
  obtain ⟨-, parent, hchosen, hid⟩ := (tree_parent hdistinct hent id).1 h
  obtain ⟨hmem, hppid, -⟩ := chosenParent_mem hchosen
  exact ⟨parent, hmem, hid, hppid⟩

/-- The child counts add up to the number of entities with a parent. -/
theorem sum_childCount : ((buildTreeMetrics parseTime entities).map Node.childCount).sum =
      (buildTreeMetrics parseTime entities).countP fun node => node.parentEntityId.isSome := by
  have hvalues : ∀ entry ∈ finalParents parseTime entities, ∀ id, entry.2 = some id →
      id ∈ entities.map Entity.id := by
    intro entry hentry id hid
    rw [finalParents_eq hdistinct] at hentry
    obtain ⟨ent, hent, rfl⟩ := List.mem_map.1 hentry
    obtain ⟨parent, hparent, rfl, -⟩ := parent_holds_ppid hdistinct hent hid
    exact List.mem_map_of_mem hparent
  calc ((buildTreeMetrics parseTime entities).map Node.childCount).sum
      = ((entities.map Entity.id).map fun id =>
          (finalParents parseTime entities).countP fun entry => entry.2 = some id).sum := by
        rw [buildTreeMetrics, List.map_map, List.map_map]
        rfl
    _ = (finalParents parseTime entities).countP fun entry => entry.2.isSome :=
        sum_countP_eq hdistinct hvalues
    _ = (buildTreeMetrics parseTime entities).countP fun node => node.parentEntityId.isSome := by
        rw [finalParents_eq hdistinct, List.countP_map, buildTreeMetrics, List.countP_map]
        rfl

/-- Exactly the members of cycles are flagged. -/
theorem isCycle_iff (hent : ent ∈ entities) :
    (annotate parseTime entities ent).tree.isCycle = true ↔
      Cyclic (unbroken parseTime entities) ent.id := by
  obtain ⟨hloops, hfound⟩ := findParentCycles_spec (firstParents parseTime entities)
  rw [parentIn_firstParents] at hloops hfound
  show (decide (entityOf entities ent.id = some ent) && _) = true ↔ _
  rw [entityOf_id hdistinct hent, decide_eq_true rfl, Bool.true_and, List.any_eq_true]
  constructor
  · rintro ⟨cycle, hcycle, hmem⟩
    exact (hloops cycle hcycle).cyclic (of_decide_eq_true hmem)
  · intro hcyclic
    obtain ⟨cycle, hcycle, hmem⟩ := hfound ent.id hcyclic
    exact ⟨cycle, hcycle, decide_eq_true hmem⟩

end

/-- A child of PID 0 is a root. -/
theorem isRoot_of_parent {ent parent : Entity Id}
    (hparent : chosenParent parseTime entities ent = some parent)
    (hzero : parent.process.pid = 0) (hpid : ent.process.pid ≠ 0) :
    (annotate parseTime entities ent).tree.isRoot = true := by
  show (firstFlags parseTime entities ent).isRoot = true
  rw [chosenParent] at hparent
  rw [firstFlags]
  split at hparent
  · cases hparent
  · next ppid hppid =>
      split at hparent
      · cases hparent
      · next hne =>
          simp only [if_neg hne, hparent, hzero, hpid, ne_eq, not_false_eq_true, and_self, if_true]

/-- A root is not PID 0, and its parent, if it has one, is. -/
theorem parent_of_isRoot {ent : Entity Id}
    (h : (annotate parseTime entities ent).tree.isRoot = true) :
    ent.process.pid ≠ 0 ∧
      ∀ parent, chosenParent parseTime entities ent = some parent → parent.process.pid = 0 := by
  have h : (firstFlags parseTime entities ent).isRoot = true := h
  rw [firstFlags] at h
  rw [chosenParent]
  split at h
  · cases h
  · next ppid hppid =>
      split at h
      · cases h
      · next hne =>
          simp only [if_neg hne]
          split at h
          · next parent hchosen =>
              split at h
              · next hzero =>
                  refine ⟨hzero.2, fun other hother => ?_⟩
                  obtain rfl := Option.some.inj (hchosen.symm.trans hother)
                  exact hzero.1
              · cases h
          · next hnone =>
              split at h
              · refine ⟨of_decide_eq_true h, fun other hother => ?_⟩
                rw [hnone] at hother
                cases hother
              · cases h

end

end Kairon.Process
