/-
Kairon/Linux/Carriers.lean

The login picture with and without copies of auth.log lines in the journal.

Of a login the second pass looks at the user, the host, the time and the source only
(`Login.seen`).  A record that has been taken up leaves a login that takes up its copy
and does not change by it (`Holds`), and this stays so until the copy is read, since only
records of the same time come between.  An opened session written twice is therefore
harmless if it has a time; a login of `auth` written twice is two logins.
-/
import Kairon.Linux.Copies
import Kairon.Linux.Sessions

namespace Kairon.Linux

open Search Gather

variable {rename : Text → Text} {events : List Event} {o x : Event} {t : ℤ}

/-! ### What is seen of a login -/

/-- What `_matching_login` reads of a login. -/
structure Seen where
  username : Text
  evidenceId : Option Text
  dt : Option ℤ
  sourceIp : Text

def Login.seen (login : Login) : Seen where
  username := login.username
  evidenceId := login.evidenceId
  dt := login.dt
  sourceIp := login.sourceIp

/-- The user, the host and the time match. -/
def Seen.Near (seen : Seen) (event : Event) : Prop :=
  seen.username = event.username ∧ seen.evidenceId = event.evidenceId ∧
    ∃ s u, seen.dt = some s ∧ event.dt = some u ∧ (s - u).natAbs ≤ loginMergeWindow

/-- The sources do not contradict each other. -/
def Seen.Compatible (seen : Seen) (event : Event) : Prop :=
  seen.sourceIp = [] ∨ event.sourceIp = [] ∨ seen.sourceIp = event.sourceIp

theorem matchedBy_iff {login : Login} {event : Event} :
    login.matchedBy event ↔ login.seen.Near event ∧ login.seen.Compatible event := by
  unfold Login.matchedBy Seen.Near Seen.Compatible Login.seen
  rcases hlogin : login.dt with - | s
  · simp
  · rcases hevent : event.dt with - | u
    · simp
    · simp only [Bool.and_eq_true, Bool.or_eq_true, decide_eq_true_eq, Option.some.injEq,
        exists_and_left, exists_eq_left']
      tauto

/-- What a record leaves to be seen of a login that takes it up. -/
def Seen.fill (seen : Seen) (event : Event) : Seen :=
  { seen with sourceIp := orText seen.sourceIp event.sourceIp }

theorem seen_absorb (login : Login) (event : Event) :
    (login.absorb event).seen = login.seen.fill event := rfl

/-- A record goes to the first login that matches it, or is a login of its own. -/
theorem takeUp_cases (logins : List Login) (event : Event) :
    (∃ newer login older, logins = newer ++ login :: older ∧ login.matchedBy event ∧
      (∀ other ∈ newer, ¬ other.matchedBy event) ∧
      takeUp logins event = newer ++ login.absorb event :: older) ∨
    (∀ login ∈ logins, ¬ login.matchedBy event) ∧
      takeUp logins event = secondaryLogin event :: logins := by
  rcases hfind : logins.findIdx? (·.matchedBy event) with - | i
  · refine .inr ⟨fun login hlogin hmatch => ?_, by rw [takeUp, hfind]⟩
    have h := List.findIdx?_eq_none_iff.1 hfind login hlogin
    rw [h] at hmatch
    cases hmatch
  · obtain ⟨hi, hmatch, hbefore⟩ := List.findIdx?_eq_some_iff_getElem.1 hfind
    refine .inl ⟨logins.take i, logins[i], logins.drop (i + 1), ?_, hmatch, ?_, ?_⟩
    · rw [List.getElem_cons_drop, List.take_append_drop]
    · intro other hother hmatch
      obtain ⟨j, hj, rfl⟩ := List.getElem_of_mem hother
      rw [List.length_take] at hj
      rw [List.getElem_take] at hmatch
      exact hbefore j (by omega) hmatch
    · rw [takeUp, hfind]
      exact List.modify_eq_take_cons_drop hi

theorem map_modify {α β : Type} {f : α → α} {g : α → β} {h : β → β}
    (hfg : ∀ a, g (f a) = h (g a)) (as : List α) (i : ℕ) :
    (as.modify i f).map g = (as.map g).modify i h := by
  induction as generalizing i with
  | nil => simp
  | cons a as ih =>
    rcases i with - | i
    · rw [List.modify_zero_cons, List.map_cons, List.map_cons, List.modify_zero_cons, hfg]
    · rw [List.modify_succ_cons, List.map_cons, List.map_cons, List.modify_succ_cons, ih]

/-- The pass sees no more of the logins than what is seen of them. -/
theorem seen_takeUp {logins others : List Login}
    (h : logins.map Login.seen = others.map Login.seen) (event : Event) :
    (takeUp logins event).map Login.seen = (takeUp others event).map Login.seen := by
  classical
  have hmatched : (fun login : Login => login.matchedBy event) =
      (fun seen => decide (seen.Near event ∧ seen.Compatible event)) ∘ Login.seen := by
    funext login
    rw [Function.comp_apply, Bool.eq_iff_iff, decide_eq_true_eq, matchedBy_iff]
  have hfind : logins.findIdx? (·.matchedBy event) = others.findIdx? (·.matchedBy event) := by
    rw [hmatched, ← List.findIdx?_map, ← List.findIdx?_map, h]
  rw [takeUp, takeUp, hfind]
  split
  · rw [map_modify (h := (·.fill event)) fun login => seen_absorb login event,
      map_modify (h := (·.fill event)) fun login => seen_absorb login event, h]
  · rw [List.map_cons, List.map_cons, h]

theorem seen_foldl_takeUp {logins others : List Login}
    (h : logins.map Login.seen = others.map Login.seen) (items : List Event) :
    (items.foldl takeUp logins).map Login.seen = (items.foldl takeUp others).map Login.seen := by
  induction items generalizing logins others with
  | nil => exact h
  | cons item items ih => exact ih (seen_takeUp h item)

/-! ### A record that has been taken up -/

/-- The latest login that matches a record does not change by it. -/
def Holds (logins : List Login) (event : Event) : Prop :=
  ∃ newer login older, logins = newer ++ login :: older ∧ login.matchedBy event ∧
    (∀ other ∈ newer, ¬ other.matchedBy event) ∧
    (event.sourceIp = [] ∨ login.sourceIp = event.sourceIp)

/-- A login that takes up a record matches it as before, unless it had no source. -/
theorem absorb_matchedBy {login : Login} (h : ¬ login.matchedBy o) :
    ¬ (login.absorb x).matchedBy o := by
  rw [matchedBy_iff] at h ⊢
  rintro ⟨hnear, hcompatible⟩
  refine h ⟨hnear, ?_⟩
  by_cases hsource : login.sourceIp = []
  · exact .inl hsource
  · have hkeep : orText login.sourceIp x.sourceIp = login.sourceIp := if_neg hsource
    rw [Seen.Compatible, seen_absorb, Seen.fill, Login.seen, hkeep] at hcompatible
    exact hcompatible

theorem orText_nil (text : Text) : orText text [] = text := by
  unfold orText
  split_ifs with h
  · exact h.symm
  · rfl

/-- After a record has been taken up, it holds. -/
theorem holds_takeUp (logins : List Login) (hdt : o.dt ≠ none) : Holds (takeUp logins o) o := by
  rcases takeUp_cases logins o with ⟨newer, login, older, rfl, hmatch, hnewer, htake⟩ |
    ⟨-, htake⟩
  · rw [htake]
    obtain ⟨hnear, hcompatible⟩ := matchedBy_iff.1 hmatch
    have hsource : o.sourceIp = [] ∨ (login.absorb o).sourceIp = o.sourceIp := by
      by_cases ho : o.sourceIp = []
      · exact .inl ho
      · refine .inr ?_
        show orText login.sourceIp o.sourceIp = o.sourceIp
        unfold orText
        split_ifs with hlogin
        · rfl
        · exact (hcompatible.resolve_left hlogin).resolve_left ho
    refine ⟨newer, login.absorb o, older, rfl, matchedBy_iff.2 ⟨hnear, ?_⟩, hnewer, hsource⟩
    exact hsource.elim (fun h => .inr (.inl h)) fun h => .inr (.inr h)
  · rw [htake]
    obtain ⟨u, hu⟩ := Option.ne_none_iff_exists'.1 hdt
    refine ⟨[], secondaryLogin o, logins, rfl, matchedBy_iff.2 ⟨⟨rfl, rfl, u, u, hu, hu, ?_⟩,
      .inr (.inr rfl)⟩, fun _ h => absurd h List.not_mem_nil, .inr rfl⟩
    rw [sub_self]
    decide

/-- The login that holds a record may take up another one. -/
theorem holds_absorb {newer older : List Login} {login : Login} (hmatch : login.matchedBy o)
    (hnewer : ∀ other ∈ newer, ¬ other.matchedBy o)
    (hsource : o.sourceIp = [] ∨ login.sourceIp = o.sourceIp) (x : Event) :
    Holds (newer ++ login.absorb x :: older) o := by
  have hkeep : o.sourceIp = [] ∨ (login.absorb x).sourceIp = o.sourceIp := by
    by_cases ho : o.sourceIp = []
    · exact .inl ho
    · refine .inr ?_
      have hlogin := hsource.resolve_left ho
      show orText login.sourceIp x.sourceIp = o.sourceIp
      rw [orText, if_neg (hlogin ▸ ho), hlogin]
  refine ⟨newer, login.absorb x, older, rfl, ?_, hnewer, hkeep⟩
  refine matchedBy_iff.2 ⟨(matchedBy_iff.1 hmatch).1, ?_⟩
  exact hkeep.elim (fun h => .inr (.inl h)) fun h => .inr (.inr h)

/-- **Step lemma**: a record of the same time leaves it so. -/
theorem Holds.takeUp {logins : List Login} (h : Holds logins o)
    (hsame : x.dt = none ∨ x.dt = o.dt) : Holds (takeUp logins x) o := by
  obtain ⟨newer, login, older, rfl, hmatch, hnewer, hsource⟩ := h
  obtain ⟨hnear, hcompatible⟩ := matchedBy_iff.1 hmatch
  rcases takeUp_cases (newer ++ login :: older) x with
    ⟨ns, other, os, hsplit, -, -, htake⟩ | ⟨hnone, htake⟩
  · rw [htake]
    rcases List.append_eq_append_iff.1 hsplit with ⟨as, rfl, has⟩ | ⟨as, rfl, has⟩
    · rcases as with - | ⟨a, as⟩
      · obtain ⟨rfl, rfl⟩ := List.cons.inj has
        rw [List.append_nil]
        exact holds_absorb hmatch hnewer hsource x
      · -- an older login takes the record up
        obtain ⟨rfl, rfl⟩ := List.cons.inj has
        exact ⟨newer, login, as ++ other.absorb x :: os,
          List.append_assoc newer (login :: as) _, hmatch, hnewer, hsource⟩
    · rcases as with - | ⟨a, as⟩
      · obtain ⟨rfl, rfl⟩ := List.cons.inj has
        rw [List.append_nil] at hnewer
        exact holds_absorb hmatch hnewer hsource x
      · -- a newer login takes the record up, and still does not match
        obtain ⟨rfl, rfl⟩ := List.cons.inj has
        refine ⟨ns ++ other.absorb x :: as, login, older,
          (List.append_assoc ns (other.absorb x :: as) _).symm, hmatch, ?_, hsource⟩
        intro n hn
        rcases List.mem_append.1 hn with hn | hn
        · exact hnewer n (List.mem_append_left _ hn)
        · rcases List.mem_cons.1 hn with rfl | hn
          · exact absorb_matchedBy (hnewer other (by simp))
          · exact hnewer n (by simp [hn])
  · rw [htake]
    by_cases hown : (secondaryLogin x).matchedBy o
    · -- a login of its own that matches has a source against that of the first one
      obtain ⟨⟨huser, hevidence, s, u, hs, hu, hclose⟩, hown'⟩ := matchedBy_iff.1 hown
      have hxdt : x.dt = some u := by
        rcases hsame with hnone | hsame
        · have hnone' : x.dt = some s := hs
          rw [hnone] at hnone'
          cases hnone'
        · rw [hsame, hu]
      have hagainst : ¬ login.seen.Compatible x := by
        intro hcompat
        refine hnone login (by simp) (matchedBy_iff.2 ⟨?_, hcompat⟩)
        obtain ⟨hluser, hlevidence, r, v, hr, hv, hlclose⟩ := hnear
        obtain rfl := Option.some.inj (hu.symm.trans hv)
        exact ⟨hluser.trans huser.symm, hlevidence.trans hevidence.symm, r, u, hr, hxdt, hlclose⟩
      unfold Seen.Compatible at hagainst
      push Not at hagainst
      obtain ⟨hlogin, hx, hne⟩ := hagainst
      refine ⟨[], secondaryLogin x, newer ++ login :: older, rfl, hown,
        fun _ h => absurd h List.not_mem_nil, ?_⟩
      rcases hsource with hempty | hsource
      · exact .inl hempty
      · rcases hown' with hempty | hempty | heq
        · exact absurd hempty hx
        · exact .inl hempty
        · exact absurd (hsource.trans heq.symm) hne
    · refine ⟨secondaryLogin x :: newer, login, older, rfl, hmatch, ?_, hsource⟩
      exact List.forall_mem_cons.2 ⟨hown, hnewer⟩

/-- A record that holds is taken up once more without a trace. -/
theorem Holds.seen_takeUp {logins : List Login} (h : Holds logins o) :
    (Linux.takeUp logins (asJournal rename o)).map Login.seen = logins.map Login.seen := by
  obtain ⟨newer, login, older, rfl, hmatch, hnewer, hsource⟩ := h
  have hkeep : (login.absorb (asJournal rename o)).seen = login.seen := by
    rw [seen_absorb]
    have hfill : orText login.sourceIp o.sourceIp = login.sourceIp := by
      rcases hsource with hempty | hsource
      · rw [hempty, orText_nil]
      · rw [hsource]
        unfold orText
        split_ifs <;> rfl
    show Seen.mk _ _ _ (orText login.sourceIp o.sourceIp) = Seen.mk _ _ _ _
    rw [hfill]
    rfl
  rcases takeUp_cases (newer ++ login :: older) (asJournal rename o) with
    ⟨ns, other, os, hsplit, hother, hns, htake⟩ | ⟨hnone, -⟩
  · rw [htake]
    -- the first login that matches the copy is the one that holds the record
    have hsame : ns = newer ∧ other = login ∧ os = older := by
      rcases List.append_eq_append_iff.1 hsplit with ⟨as, rfl, has⟩ | ⟨as, rfl, has⟩
      · rcases as with - | ⟨a, as⟩
        · obtain ⟨rfl, rfl⟩ := List.cons.inj has
          exact ⟨List.append_nil _, rfl, rfl⟩
        · obtain ⟨rfl, rfl⟩ := List.cons.inj has
          exact absurd hmatch (hns login (by simp))
      · rcases as with - | ⟨a, as⟩
        · obtain ⟨rfl, rfl⟩ := List.cons.inj has
          exact ⟨(List.append_nil _).symm, rfl, rfl⟩
        · obtain ⟨rfl, rfl⟩ := List.cons.inj has
          exact absurd hother (hnewer other (by simp))
    obtain ⟨rfl, rfl, rfl⟩ := hsame
    rw [List.map_append, List.map_append, List.map_cons, List.map_cons, hkeep]
  · exact absurd hmatch (hnone login (by simp))

/-! ### The pass with a copy -/

/-- **Run lemma**: between a record and its copy there are only records of the same
time. -/
theorem holds_foldl {items : List Event} {logins : List Login} (h : Holds logins o)
    (hsame : ∀ item ∈ items, item.dt = none ∨ item.dt = o.dt) :
    Holds (items.foldl takeUp logins) o := by
  induction items generalizing logins with
  | nil => exact h
  | cons item items ih =>
    obtain ⟨hitem, hitems⟩ := List.forall_mem_cons.1 hsame
    exact ih (h.takeUp hitem) hitems

theorem sortKey_eq {s : ℤ} (hx : sortKey x.dt = s) (ho : o.dt = some s) :
    x.dt = none ∨ x.dt = o.dt := by
  rcases hdt : x.dt with - | u
  · exact .inl rfl
  · rw [hdt] at hx
    exact .inr (by rw [ho, ← hx]; rfl)

/-- `byTime` as the order of dated records. -/
theorem byTime_eq_ordered (items : List Event) :
    byTime (·.dt) items = ordered (fun event => some (sortKey event.dt)) items := by
  have hall : items.filter (fun event => (some (sortKey event.dt)).isSome) = items :=
    List.filter_eq_self.2 fun _ _ => rfl
  rw [ordered, hall]
  rfl

/-- The copy of a dated record makes no login. -/
theorem length_foldl_concat {items : List Event} {logins : List Login} (ho : o ∈ items)
    (hdt : o.dt = some t) :
    ((byTime (·.dt) (items ++ [asJournal rename o])).foldl takeUp logins).length =
      ((byTime (·.dt) items).foldl takeUp logins).length := by
  have hsorted := byTime_sorted (fun event : Event => event.dt) items
  have hmem : o ∈ byTime (·.dt) items := (byTime_perm _ _).mem_iff.2 ho
  have hkey : some (sortKey (asJournal rename o).dt) = some t := congrArg some (by
    show sortKey o.dt = t
    rw [hdt]
    rfl)
  have hconcat := @ordered_concat Event (fun event => some (sortKey event.dt)) items _ t hkey
  have hsplit := @sorted_eq_append Event (fun event => some (sortKey event.dt)) _ hsorted t
  rw [← byTime_eq_ordered, ← byTime_eq_ordered] at hconcat
  have hpre : o ∈ (byTime (·.dt) items).filter
      (fun a => (some (sortKey a.dt)).getD 0 ≤ t) := by
    refine List.mem_filter.2 ⟨hmem, decide_eq_true ?_⟩
    rw [hdt]
    exact le_rfl
  have hle : ∀ a ∈ (byTime (·.dt) items).filter (fun a => (some (sortKey a.dt)).getD 0 ≤ t),
      sortKey a.dt ≤ t := fun a ha => of_decide_eq_true (List.mem_filter.1 ha).2
  generalize (byTime (·.dt) items).filter (fun a => (some (sortKey a.dt)).getD 0 ≤ t) = pre
    at hconcat hsplit hpre hle
  generalize (byTime (·.dt) items).filter (fun a => ¬ (some (sortKey a.dt)).getD 0 ≤ t) = post
    at hconcat hsplit
  obtain ⟨first, between, rfl⟩ := List.append_of_mem hpre
  have hbetween : ∀ item ∈ between, item.dt = none ∨ item.dt = o.dt := by
    intro item hitem
    refine sortKey_eq (le_antisymm (hle item (by simp [hitem])) ?_) hdt
    rw [hsplit, List.append_assoc] at hsorted
    have hafter := (List.pairwise_cons.1 (List.pairwise_append.1 hsorted).2.1).1 item
      (List.mem_append_left _ hitem)
    rwa [hdt] at hafter
  have hholds : Holds ((first ++ o :: between).foldl takeUp logins) o := by
    rw [List.foldl_append, List.foldl_cons]
    exact holds_foldl (holds_takeUp _ (by simp [hdt])) hbetween
  generalize first ++ o :: between = pre at hconcat hsplit hholds
  rw [hconcat, hsplit, List.foldl_append, List.foldl_append, List.foldl_cons]
  have hseen := seen_foldl_takeUp (@Holds.seen_takeUp rename o _ hholds) post
  have hlength := congrArg List.length hseen
  rwa [List.length_map, List.length_map] at hlength

/-! ### Logins and sessions -/

/-- A session that is a login. -/
def Event.isOpen (event : Event) : Prop :=
  event.kind = .sessionOpen ∧ event.service ∉ nonLoginSessionServices

/-- No copied record is a login, or an opened session without a time. -/
def NoLogin (subset : List Event) : Prop :=
  ∀ event ∈ subset, event.kind ≠ .login ∧ (event.isOpen → event.dt ≠ none)

/-- A copy that is no login makes no login. -/
theorem length_logins_concat (ho : o ∈ events) (hkind : o.kind ≠ .login)
    (hopen : o.isOpen → o.dt ≠ none) :
    (logins (events ++ [asJournal rename o])).length = (logins events).length := by
  have hk : (asJournal rename o).kind ≠ .login := hkind
  have hprimary : primary (events ++ [asJournal rename o]) = primary events := by
    rw [primary, List.filter_append, List.filter_cons_of_neg (by simp [hk]), List.filter_nil,
      List.append_nil]
    rfl
  have hsecondary : secondary (events ++ [asJournal rename o]) = secondary events := by
    rw [secondary, List.filter_append, List.filter_cons_of_neg (by simp [hk]), List.filter_nil,
      List.append_nil]
    rfl
  have hopens : opens (events ++ [asJournal rename o]) =
      opens events ++ opens [asJournal rename o] := List.filter_append _ _
  rw [logins, logins, hprimary, hsecondary, List.length_reverse, List.length_reverse, hopens]
  by_cases hown : o.isOpen
  · obtain ⟨t, hdt⟩ := Option.ne_none_iff_exists'.1 (hopen hown)
    have hself : opens [asJournal rename o] = [asJournal rename o] := by
      refine List.filter_eq_self.2 fun event hevent => ?_
      rw [List.mem_singleton.1 hevent, Bool.and_eq_true_iff]
      exact ⟨decide_eq_true hown.1, decide_eq_true hown.2⟩
    rw [hself, ← List.append_assoc]
    refine length_foldl_concat (List.mem_append_right _ (List.mem_filter.2 ⟨ho, ?_⟩)) hdt
    exact Bool.and_eq_true_iff.2 ⟨decide_eq_true hown.1, decide_eq_true hown.2⟩
  · have hnone : opens [asJournal rename o] = [] := by
      refine List.filter_eq_nil_iff.2 fun event hevent h => hown ?_
      rw [List.mem_singleton.1 hevent, Bool.and_eq_true_iff] at h
      exact ⟨of_decide_eq_true h.1, of_decide_eq_true h.2⟩
    rw [hnone, List.append_nil]

theorem length_logins_copies {subset : List Event} (hsubset : subset ⊆ events)
    (h : NoLogin subset) :
    (logins (events ++ subset.map (asJournal rename))).length = (logins events).length := by
  induction subset using List.reverseRecOn with
  | nil => rw [List.map_nil, List.append_nil]
  | append_singleton subset o ih =>
    obtain ⟨hkind, hopen⟩ := h o (by simp)
    have hmem : o ∈ events ++ subset.map (asJournal rename) :=
      List.mem_append_left _ (hsubset (by simp))
    rw [List.map_append, List.map_singleton, ← List.append_assoc,
      length_logins_concat hmem hkind hopen]
    exact ih (fun event hevent => hsubset (List.mem_append_left _ hevent))
      fun event hevent => h event (List.mem_append_left _ hevent)

theorem length_closeUp (events : List Event) (used : List Text) (logins : List Login) :
    (closeUp events used logins).length = logins.length := by
  rw [← map_login_closeUp events used logins, List.length_map, map_login_closeUp]

theorem length_sessions (logins : List Login) (events : List Event) :
    (sessions logins events).length = logins.length := by
  rw [sessions, List.length_insertionSort, List.length_map, endings, length_closeUp,
    (byTime_perm _ _).length_eq]

/-! ### The picture -/

/-- The login picture of the whole is that of the events. -/
structure SamePicture (events whole : List Event) : Prop where
  attempts : (attempts (inferPamUsers whole)).map Attempt.shown =
    (attempts (inferPamUsers events)).map Attempt.shown
  successes : (logins (inferPamUsers whole)).length = (logins (inferPamUsers events)).length
  sessions : (sessions (logins (inferPamUsers whole)) (inferPamUsers whole)).length =
    (sessions (logins (inferPamUsers events)) (inferPamUsers events)).length

def toJournal (id : Text) : Text := id ++ "-journal".toList

def openedSession : Event :=
  bareEvent "a".toList .authLog "700".toList .sessionOpen (some 1000000)

end Kairon.Linux
