/-
Kairon/Linux/Copies.lean

Failures of auth.log that the journal has too.

A line of auth.log and the same line in the journal are events of one channel, so that a
failure written by both counts twice in its channel.  The copies join the connections of
their originals (`connections_copies`), one copy at a time: it comes right behind a
record of its own time.  The attempts therefore stay as they are exactly when no channel
gets above the largest one and no other name is named most (`shown_attempts_iff`).
-/
import Kairon.Lib.Clusters
import Kairon.Linux.Restart
import Kairon.Linux.Rollups

namespace Kairon.Linux

open Search Gather

/-! ### Copies -/

section

variable (rename : Text → Text)

/-- The same line as an event of the journal, under an identifier of its own. -/
def asJournal (event : Event) : Event :=
  { event with id := rename event.id, carrier := .journal }

/-- A function that sees neither the carrier nor the identifier. -/
def Blind {β : Type} (f : Event → β) : Prop := ∀ event, f (asJournal rename event) = f event

end

variable {rename : Text → Text} {events xs : List Event} {event o : Event}

variable {subset : List Event}

theorem reference_append_copies (hsubset : subset ⊆ events)
    (evidenceId : Option Text) (pid : Text) :
    reference (events ++ subset.map (asJournal rename)) evidenceId pid =
      reference events evidenceId pid := by
  rw [reference, List.find?_append]
  rcases hfind : reference events evidenceId pid with - | ref
  · have hnone : (subset.map (asJournal rename)).find? (fun event => event.isReference &&
        event.evidenceId = evidenceId && event.pid = pid) = none := by
      refine List.find?_eq_none.2 fun copy hcopy => ?_
      obtain ⟨source, hsource, rfl⟩ := List.mem_map.1 hcopy
      exact List.find?_eq_none.1 hfind source (hsubset hsource)
    rw [reference] at hfind
    rw [hfind, hnone]
    rfl
  · rw [reference] at hfind
    rw [hfind, Option.some_or]

/-- Inference gives a copy what it gives the original. -/
theorem inferPamUsers_copies (hsubset : subset ⊆ events) :
    inferPamUsers (events ++ subset.map (asJournal rename)) =
      inferPamUsers events ++ (subset.map (inferPamUser events)).map (asJournal rename) := by
  have hsame (event : Event) :
      inferPamUser (events ++ subset.map (asJournal rename)) event = inferPamUser events event := by
    unfold inferPamUser
    rw [reference_append_copies hsubset]
  have hcopy (event : Event) :
      inferPamUser events (asJournal rename event) =
        asJournal rename (inferPamUser events event) := by
    rw [inferPamUser_eq, inferPamUser_eq]
    by_cases hfailure : event.kind = .failure ∧ event.pid ≠ []
    · rw [if_pos hfailure]
      exact if_pos hfailure
    · rw [if_neg hfailure]
      exact if_neg hfailure
  rw [inferPamUsers, List.map_append, List.map_map, List.map_map]
  refine congrArg₂ _ (List.map_congr_left fun event _ => hsame event)
    (List.map_congr_left fun event _ => ?_)
  rw [Function.comp_apply, hsame, hcopy]
  rfl

/-! ### One more failure -/

/-- A failure behind a failure like it: it joins the connection of that failure right
behind it, or it is lost because that one is. -/
def Joins (o k : Event) (before after : List (List Event)) : Prop :=
  (after = before ∧ ∀ connection ∈ before, o ∉ connection) ∨
  ∃ groups left p right rest, o ∈ left ++ [p] ∧ before = groups ++ (left ++ p :: right) :: rest ∧
    after = groups ++ (left ++ p :: k :: right) :: rest

theorem Joins.append {k : Event} {before after : List (List Event)}
    (h : Joins o k before after) {groups rest : List (List Event)}
    (hgroups : ∀ connection ∈ groups, o ∉ connection)
    (hrest : ∀ connection ∈ rest, o ∉ connection) :
    Joins o k (groups ++ before ++ rest) (groups ++ after ++ rest) := by
  rcases h with ⟨rfl, hlost⟩ | ⟨gs, left, p, right, rs, ho, rfl, rfl⟩
  · refine .inl ⟨rfl, fun connection hconnection => ?_⟩
    rcases List.mem_append.1 hconnection with h | h
    · rcases List.mem_append.1 h with h | h
      · exact hgroups connection h
      · exact hlost connection h
    · exact hrest connection h
  · refine .inr ⟨groups ++ gs, left, p, right, rs ++ rest, ho, ?_, ?_⟩
    · simp
    · simp

theorem connectionsOf_concat {k : Event} (ho : o ∈ xs) (hdt : k.dt = o.dt) :
    Joins o k (connectionsOf xs) (connectionsOf (xs ++ [k])) := by
  have hgap : (0 : ℤ) ≤ connectionGap := by decide
  rcases hot : o.dt with - | t
  · rw [hot] at hdt
    have hclusters : clusters (·.dt) connectionGap (xs ++ [k]) =
        clusters (·.dt) connectionGap xs := by
      have hone : [k].filter (fun a => a.dt.isSome) = [] := by simp [hdt]
      rw [clusters, clusters, ordered, ordered, List.filter_append, hone, List.append_nil]
    unfold connectionsOf
    rw [hclusters]
    split_ifs with hnil
    · obtain ⟨pre, p, rfl⟩ := xs.eq_nil_or_concat'.resolve_left (List.ne_nil_of_mem ho)
      refine .inr ⟨[], pre, p, [], [], ho, rfl, ?_⟩
      rw [List.append_assoc]
      rfl
    · refine .inl ⟨rfl, fun connection hconnection hmem => ?_⟩
      have hflat : o ∈ (clusters (·.dt) connectionGap xs).flatten :=
        List.mem_flatten.2 ⟨connection, hconnection, hmem⟩
      rw [(flatten_clusters connectionGap xs).mem_iff, List.mem_filter, hot] at hflat
      exact absurd hflat.2 (by decide)
  · obtain ⟨groups, left, p, right, rest, hmem, hbefore, hafter⟩ :=
      clusters_concat hgap ho hot (hdt.trans hot)
    have hne : clusters (·.dt) connectionGap xs ≠ [] := by rw [hbefore]; simp
    have hne' : clusters (·.dt) connectionGap (xs ++ [k]) ≠ [] := by rw [hafter]; simp
    rw [connectionsOf, connectionsOf, if_neg hne, if_neg hne']
    exact .inr ⟨groups, left, p, right, rest, hmem, hbefore, hafter⟩

theorem mem_of_mem_connectionsOf {connection : List Event} (h : connection ∈ connectionsOf xs)
    (hevent : event ∈ connection) : event ∈ xs :=
  (mem_connectionsOf (List.mem_flatten.2 ⟨connection, h, hevent⟩)).1

/-- The connections of different failures have no failure in common. -/
theorem connections_disjoint (events : List Event) :
    (connections events).Pairwise fun c d => ∀ event ∈ c, event ∉ d := by
  have hgap : (0 : ℤ) ≤ connectionGap := by decide
  rw [connections, groups, List.flatMap_map, List.pairwise_flatMap]
  constructor
  · intro key _
    unfold connectionsOf
    split_ifs with hnil
    · exact List.pairwise_singleton _ _
    · refine (clusters_strict hgap _).imp fun h event hevent hmem => ?_
      exact lt_irrefl _ (h event hevent event hmem)
  · refine (nodup_firstKeys _).imp fun hne c hc d hd event hevent hmem => hne ?_
    have hleft := (List.mem_filter.1 (mem_of_mem_connectionsOf hc hevent)).2
    have hright := (List.mem_filter.1 (mem_of_mem_connectionsOf hd hmem)).2
    rw [← of_decide_eq_true hleft, of_decide_eq_true hright]

theorem firstKeys_append_of_mem {α κ : Type} [DecidableEq κ] {key : α → κ} {as : List α} {k : α}
    (h : ∃ a ∈ as, key a = key k) (bs : List α) :
    firstKeys key (as ++ k :: bs) = firstKeys key (as ++ bs) := by
  -- once its key is left out, a record is not seen
  have hhidden (as bs : List α) : (firstKeys key (as ++ k :: bs)).filter (· ≠ key k) =
      (firstKeys key (as ++ bs)).filter (· ≠ key k) := by
    induction as with
    | nil =>
      rw [List.nil_append, List.nil_append, firstKeys, List.filter_cons_of_neg (by simp),
        List.filter_filter]
      simp
    | cons a as ih =>
      rw [List.cons_append, List.cons_append, firstKeys, firstKeys, List.filter_cons, List.filter_cons,
        List.filter_comm, ih, List.filter_comm]
  induction as with
  | nil => exact absurd h (by simp)
  | cons a as ih =>
    rw [List.cons_append, List.cons_append, firstKeys, firstKeys]
    by_cases hak : key a = key k
    · rw [hak, hhidden]
    · obtain ⟨b, hb, hbk⟩ := h
      rcases List.mem_cons.1 hb with rfl | hb
      · exact absurd hbk hak
      · rw [ih ⟨b, hb, hbk⟩]

/-- **A failure like another one joins its connection.** -/
theorem connections_concat {k : Event} (ho : o ∈ failures events) (hkind : k.kind = .failure)
    (hkey : k.connection = o.connection) (hdt : k.dt = o.dt) :
    Joins o k (connections events) (connections (events ++ [k])) := by
  have hfailures : failures (events ++ [k]) = failures events ++ [k] := by
    rw [failures, failures, List.filter_append]
    simp [hkind]
  have hkeys : firstKeys Event.connection (failures events ++ [k]) =
      firstKeys Event.connection (failures events) := by
    have h := firstKeys_append_of_mem ⟨o, ho, hkey.symm⟩ []
    rwa [List.append_nil] at h
  obtain ⟨before, rest, hsplit⟩ := List.append_of_mem
    (mem_firstKeys.2 ⟨o, ho, rfl⟩ : o.connection ∈ firstKeys Event.connection (failures events))
  have hnodup := @nodup_firstKeys Event Connection _ Event.connection (failures events)
  rw [hsplit] at hnodup
  have hother : ∀ key, key ≠ o.connection → (failures events ++ [k]).filter (·.connection = key) =
        (failures events).filter (·.connection = key) := by
    intro key hne
    have hone : [k].filter (·.connection = key) = [] := by simp [hkey, hne.symm]
    rw [List.filter_append, hone, List.append_nil]
  have hself : (failures events ++ [k]).filter (·.connection = o.connection) =
      (failures events).filter (·.connection = o.connection) ++ [k] := by
    rw [List.filter_append]
    simp [hkey]
  have hnotMem : ∀ keys : List Connection, o.connection ∉ keys → ∀ connection ∈ (keys.map fun key =>
        (failures events).filter (·.connection = key)).flatMap connectionsOf,
        o ∉ connection := by
    intro keys hkeys connection hconnection hmem
    rw [List.flatMap_map, List.mem_flatMap] at hconnection
    obtain ⟨key, hkey, hconnection⟩ := hconnection
    have h := (List.mem_filter.1 (mem_of_mem_connectionsOf hconnection hmem)).2
    exact hkeys (of_decide_eq_true h ▸ hkey)
  have hsame : ∀ keys : List Connection, o.connection ∉ keys →
      (keys.map fun key => (failures events ++ [k]).filter (·.connection = key)) =
        keys.map fun key => (failures events).filter (·.connection = key) :=
    fun keys hkeys => List.map_congr_left fun key hmem =>
      hother key fun h => hkeys (h ▸ hmem)
  obtain ⟨-, hnodup', hdisjoint⟩ := List.nodup_append.1 hnodup
  have hbefore : o.connection ∉ before := fun hmem =>
    hdisjoint _ hmem _ (.head _) rfl
  have hrest : o.connection ∉ rest := (List.nodup_cons.1 hnodup').1
  have hmem : o ∈ (failures events).filter (·.connection = o.connection) :=
    List.mem_filter.2 ⟨ho, by simp⟩
  have hjoins := (connectionsOf_concat (k := k) hmem hdt).append (hnotMem before hbefore)
    (hnotMem rest hrest)
  rw [connections, connections, hfailures, groups, groups, hkeys, hsplit]
  rw [List.map_append, List.map_append, List.map_cons, List.map_cons, hsame before hbefore,
    hsame rest hrest, hself, List.flatMap_append, List.flatMap_append, List.flatMap_cons,
    List.flatMap_cons, ← List.append_assoc, ← List.append_assoc]
  exact hjoins

/-! ### All copies -/

/-- The failures of a connection that are copied, as copies. -/
def copied (rename : Text → Text) (subset connection : List Event) : List Event :=
  (subset.filter (· ∈ connection)).map (asJournal rename)

/-- A connection with its copies: they are mixed in behind their originals, so that
whatever does not see the carrier is first met in the same order. -/
structure WithCopies (rename : Text → Text) (subset connection whole : List Event) : Prop where
  perm : whole.Perm (connection ++ copied rename subset connection)
  order : ∀ (p : Event → Bool) (f : Event → Text), Blind rename p → Blind rename f →
    firstKeys f (whole.filter p) = firstKeys f (connection.filter p)

variable {subset connection whole : List Event}

theorem WithCopies.mem (h : WithCopies rename subset connection whole) (ho : o ∈ whole)
    (hcarrier : o.carrier = .authLog) : o ∈ connection := by
  rcases List.mem_append.1 (h.perm.mem_iff.1 ho) with hmem | hmem
  · exact hmem
  · obtain ⟨source, -, rfl⟩ := List.mem_map.1 hmem
    exact absurd hcarrier (by simp [asJournal])

theorem copied_concat_of_notMem {subset connection : List Event} (ho : o ∉ connection) :
    copied rename (subset ++ [o]) connection = copied rename subset connection := by
  rw [copied, copied, List.filter_append, List.filter_cons_of_neg (by simpa using ho),
    List.filter_nil, List.append_nil]

theorem copied_concat_of_mem {subset connection : List Event} (ho : o ∈ connection) :
    copied rename (subset ++ [o]) connection =
      copied rename subset connection ++ [asJournal rename o] := by
  rw [copied, copied, List.filter_append, List.filter_cons_of_pos (by simpa using ho),
    List.filter_nil, List.map_append]
  rfl

/-- A connection without the failure is not touched by its copy. -/
theorem WithCopies.concat_of_notMem
    (h : WithCopies rename subset connection whole) (ho : o ∉ connection) :
    WithCopies rename (subset ++ [o]) connection whole :=
  ⟨by rw [copied_concat_of_notMem ho]; exact h.perm, h.order⟩

/-- The connection of the failure takes its copy up. -/
theorem WithCopies.concat_of_mem {subset connection left right : List Event} {p : Event}
    (h : WithCopies rename subset connection (left ++ p :: right)) (ho : o ∈ connection)
    (hbefore : o ∈ left ++ [p]) :
    WithCopies rename (subset ++ [o]) connection
      (left ++ p :: asJournal rename o :: right) := by
  constructor
  · rw [copied_concat_of_mem ho, ← List.append_assoc]
    refine List.Perm.trans ?_ (h.perm.append_right [asJournal rename o])
    have hmiddle : (left ++ p :: asJournal rename o :: right).Perm
        (asJournal rename o :: (left ++ p :: right)) := by
      rw [List.append_cons, List.append_cons left p right]
      exact List.perm_middle
    exact hmiddle.trans (List.perm_append_singleton _ _).symm
  · intro q f hq hf
    rw [← h.order q f hq hf, List.append_cons, List.append_cons left p right,
      List.filter_append (left ++ [p]), List.filter_append (left ++ [p])]
    by_cases hqo : q o
    · rw [List.filter_cons_of_pos ((hq o).trans hqo)]
      exact @firstKeys_append_of_mem Event Text _ f _ (asJournal rename o)
        ⟨o, List.mem_filter.2 ⟨hbefore, hqo⟩, (hf o).symm⟩ _
    · have hqk : ¬ q (asJournal rename o) = true := by rwa [hq o]
      rw [List.filter_cons_of_neg hqk]

theorem forall₂_of_mem_right {α β : Type} {R S : α → β → Prop} {P : β → Prop} {as : List α}
    {bs : List β} (h : List.Forall₂ R as bs) (hP : ∀ b ∈ bs, P b)
    (hS : ∀ a b, R a b → P b → S a b) : List.Forall₂ S as bs := by
  induction h with
  | nil => exact List.Forall₂.nil
  | cons hab _ ih =>
    obtain ⟨hb, hP⟩ := List.forall_mem_cons.1 hP
    exact List.Forall₂.cons (hS _ _ hab hb) (ih hP)

theorem forall₂_split {α β : Type} {R : α → β → Prop} {as : List α} {b : β} {bs cs : List β}
    (h : List.Forall₂ R as (bs ++ b :: cs)) :
    ∃ before a after, as = before ++ a :: after ∧ List.Forall₂ R before bs ∧ R a b ∧
      List.Forall₂ R after cs := by
  induction bs generalizing as with
  | nil =>
    rcases h with - | ⟨ha, hrest⟩
    exact ⟨[], _, _, rfl, List.Forall₂.nil, ha, hrest⟩
  | cons c bs ih =>
    rcases h with - | ⟨ha, hrest⟩
    obtain ⟨before, a, after, rfl, hbefore, hab, hafter⟩ := ih hrest
    exact ⟨_ :: before, a, after, rfl, List.Forall₂.cons ha hbefore, hab, hafter⟩

/-- **The copies of failures join the connections of their originals**, and every
connection with its copies is one of the whole. -/
theorem connections_copies
    (hsubset : ∀ event ∈ subset, event ∈ failures events ∧ event.carrier = .authLog) :
    List.Forall₂ (WithCopies rename subset) (connections events)
      (connections (events ++ subset.map (asJournal rename))) := by
  induction subset using List.reverseRecOn with
  | nil =>
    rw [List.map_nil, List.append_nil]
    refine List.forall₂_same.2 fun connection _ => ⟨?_, fun _ _ _ _ => rfl⟩
    simp [copied]
  | append_singleton subset o ih =>
    obtain ⟨ho, hcarrier⟩ := hsubset o (by simp)
    have ih := ih fun event hevent => hsubset event (List.mem_append_left _ hevent)
    have hmem : o ∈ failures (events ++ subset.map (asJournal rename)) := by
      rw [failures, List.filter_append]
      exact List.mem_append_left _ ho
    have hkind : (asJournal rename o).kind = .failure :=
      of_decide_eq_true (List.mem_filter.1 ho).2
    have hjoins := connections_concat hmem hkind rfl rfl
    rw [List.map_append, List.map_singleton, ← List.append_assoc]
    rcases hjoins with ⟨hsame, hlost⟩ | ⟨groups, left, p, right, rest, hbefore, hone, hall⟩
    · rw [hsame]
      refine forall₂_of_mem_right ih hlost fun connection whole h hwhole => ?_
      exact h.concat_of_notMem fun hmem =>
        hwhole (h.perm.mem_iff.2 (List.mem_append_left _ hmem))
    · rw [hone] at ih
      rw [hall]
      obtain ⟨before, connection, after, hsplit, hbefores, hself, hafters⟩ := forall₂_split ih
      have hdisjoint := connections_disjoint events
      rw [hsplit] at hdisjoint ⊢
      obtain ⟨-, hafter, hcross⟩ := List.pairwise_append.1 hdisjoint
      have hoconnection : o ∈ connection := by
        refine hself.mem ?_ hcarrier
        rw [List.append_cons]
        exact List.mem_append_left _ hbefore
      have hleft : ∀ other ∈ before, o ∉ other := fun other hother hmem =>
        hcross other hother connection (.head _) o hmem hoconnection
      have hright : ∀ other ∈ after, o ∉ other := fun other hother =>
        (List.pairwise_cons.1 hafter).1 other hother o hoconnection
      refine List.rel_append ?_ (List.Forall₂.cons (hself.concat_of_mem hoconnection hbefore) ?_)
      · exact ((List.forall₂_and_left _ _).2 ⟨hleft, hbefores⟩).imp
          fun _ _ h => h.2.concat_of_notMem h.1
      · exact ((List.forall₂_and_left _ _).2 ⟨hright, hafters⟩).imp
          fun _ _ h => h.2.concat_of_notMem h.1

/-! ### What an attempt shows -/

/-- The count, the user and the source of an attempt. -/
def Attempt.shown (attempt : Attempt) : ℕ × Text × Text :=
  (attempt.count, attempt.username, attempt.sourceIp)

/-- What the records of one channel count. -/
def channelCount (items : List Event) (channel : Channel) : ℕ :=
  ((items.filter (·.channel = channel)).map Event.weight).sum

variable {ys : List Event}

theorem channelCount_perm (h : xs.Perm ys) (channel : Channel) :
    channelCount xs channel = channelCount ys channel :=
  ((h.filter _).map _).sum_eq

theorem channelCount_append (xs ys : List Event) (channel : Channel) :
    channelCount (xs ++ ys) channel = channelCount xs channel + channelCount ys channel := by
  rw [channelCount, List.filter_append, List.map_append, List.sum_append]
  rfl

theorem foldl_max_le {values : List ℕ} {b n : ℕ} :
    values.foldl max b ≤ n ↔ b ≤ n ∧ ∀ value ∈ values, value ≤ n := by
  induction values generalizing b with
  | nil => simp
  | cons value values ih =>
    rw [List.foldl_cons, ih, max_le_iff, List.forall_mem_cons, and_assoc]

theorem foldl_max_mem (values : List ℕ) (b : ℕ) :
    values.foldl max b = b ∨ values.foldl max b ∈ values := by
  induction values generalizing b with
  | nil => exact .inl rfl
  | cons value values ih =>
    rw [List.foldl_cons]
    rcases ih (max b value) with h | h
    · rcases max_choice b value with hmax | hmax
      · exact .inl (h.trans hmax)
      · exact .inr (by rw [h, hmax]; exact .head _)
    · exact .inr (List.mem_cons_of_mem value h)

/-- The count of an attempt is the largest of the channels. -/
theorem count_le_iff {items : List Event} {n : ℕ} :
    (attemptOf items).count ≤ n ↔ ∀ channel, channelCount items channel ≤ n := by
  show ((tally (·.channel) Event.weight items).map Prod.snd).foldl max 0 ≤ n ↔ _
  rw [foldl_max_le, tally, List.map_map]
  constructor
  · rintro ⟨-, h⟩ channel
    by_cases hchannel : channel ∈ firstKeys (·.channel) items
    · exact h _ (List.mem_map.2 ⟨channel, hchannel, rfl⟩)
    · have hnil : items.filter (·.channel = channel) = [] := by
        refine List.filter_eq_nil_iff.2 fun item hitem hkey => hchannel ?_
        exact mem_firstKeys.2 ⟨item, hitem, of_decide_eq_true hkey⟩
      rw [channelCount, hnil]
      exact Nat.zero_le n
  · intro h
    refine ⟨Nat.zero_le n, fun value hvalue => ?_⟩
    obtain ⟨channel, -, rfl⟩ := List.mem_map.1 hvalue
    exact h channel

theorem exists_channelCount (items : List Event) :
    ∃ channel, (attemptOf items).count ≤ channelCount items channel := by
  rcases foldl_max_mem ((tally (·.channel) Event.weight items).map Prod.snd) 0 with h | h
  · exact ⟨.unset, (Nat.le_of_eq h).trans (Nat.zero_le _)⟩
  · obtain ⟨row, hrow, hcount⟩ := List.mem_map.1 h
    obtain ⟨channel, -, rfl⟩ := List.mem_map.1 hrow
    exact ⟨channel, Nat.le_of_eq hcount.symm⟩

theorem count_perm (h : xs.Perm ys) : (attemptOf xs).count = (attemptOf ys).count := by
  refine le_antisymm (count_le_iff.2 fun channel => ?_) (count_le_iff.2 fun channel => ?_)
  · rw [channelCount_perm h]
    exact count_le_iff.1 le_rfl channel
  · rw [← channelCount_perm h]
    exact count_le_iff.1 le_rfl channel

theorem firstKeys_map {α β κ : Type} [DecidableEq κ] (key : β → κ) (f : α → β) (as : List α) :
    firstKeys key (as.map f) = firstKeys (key ∘ f) as := by
  induction as with
  | nil => rfl
  | cons a as ih => rw [List.map_cons, firstKeys, firstKeys, ih]; rfl

theorem firstKeys_append_of_subset {α κ : Type} [DecidableEq κ] {key : α → κ} {as bs : List α}
    (h : ∀ b ∈ bs, ∃ a ∈ as, key a = key b) : firstKeys key (as ++ bs) = firstKeys key as := by
  induction bs with
  | nil => rw [List.append_nil]
  | cons b bs ih =>
    obtain ⟨hb, hbs⟩ := List.forall_mem_cons.1 h
    rw [firstKeys_append_of_mem hb, ih hbs]

/-- The text named most depends on how often each is named and which is named first. -/
theorem mostCommon_congr (f : Event → Text) (hperm : xs.Perm ys)
    (horder : firstKeys f (xs.filter (f · ≠ [])) = firstKeys f (ys.filter (f · ≠ []))) :
    mostCommon (xs.map f) = mostCommon (ys.map f) := by
  have htally : tally id (fun _ => 1) ((xs.map f).filter (· ≠ [])) =
      tally id (fun _ => 1) ((ys.map f).filter (· ≠ [])) := by
    have hkeys : firstKeys id ((xs.map f).filter (· ≠ [])) =
        firstKeys id ((ys.map f).filter (· ≠ [])) := by
      rw [List.filter_map, List.filter_map, firstKeys_map, firstKeys_map]
      exact horder
    rw [tally, tally, hkeys]
    refine List.map_congr_left fun text _ => ?_
    rw [((((hperm.map f).filter _).filter _).map _).sum_eq]
  rw [mostCommon, mostCommon, htally]

section

variable {subset connection whole : List Event}

theorem mem_copied {k : Event} (h : k ∈ copied rename subset connection) :
    ∃ source ∈ connection, k = asJournal rename source := by
  obtain ⟨source, hsource, rfl⟩ := List.mem_map.1 h
  exact ⟨source, of_decide_eq_true (List.mem_filter.1 hsource).2, rfl⟩

/-- The copies behind the connection are first met in the same order too. -/
theorem WithCopies.order_append (h : WithCopies rename subset connection whole)
    {p : Event → Bool} {f : Event → Text} (hp : Blind rename p) (hf : Blind rename f) :
    firstKeys f (whole.filter p) =
      firstKeys f ((connection ++ copied rename subset connection).filter p) := by
  rw [h.order p f hp hf, List.filter_append]
  refine (firstKeys_append_of_subset fun k hk => ?_).symm
  obtain ⟨hk, hpk⟩ := List.mem_filter.1 hk
  obtain ⟨source, hsource, rfl⟩ := mem_copied hk
  exact ⟨source, List.mem_filter.2 ⟨hsource, (hp source).symm.trans hpk⟩, (hf source).symm⟩

theorem WithCopies.named (h : WithCopies rename subset connection whole)
    {p : Event → Bool} {f : Event → Text} (hp : Blind rename p) (hf : Blind rename f) :
    mostCommon ((whole.filter p).map f) =
      mostCommon (((connection ++ copied rename subset connection).filter p).map f) := by
  refine mostCommon_congr f (h.perm.filter p) ?_
  rw [List.filter_filter, List.filter_filter]
  refine h.order_append (fun event => ?_) hf
  rw [hp event, hf event]

/-- An attempt shows what its failures and their copies show. -/
theorem WithCopies.shown (h : WithCopies rename subset connection whole) : (attemptOf whole).shown =
      (attemptOf (connection ++ copied rename subset connection)).shown := by
  have hall {items : List Event} : items.filter (fun _ => true) = items :=
    List.filter_eq_self.2 fun _ _ => rfl
  have husers := h.named (p := fun _ => true) (f := (·.username)) (fun _ => rfl) fun _ => rfl
  have hsources := h.named (p := fun _ => true) (f := (·.sourceIp)) (fun _ => rfl)
    fun _ => rfl
  have hexplicit := h.named (p := fun event => event.channel = .explicit)
    (f := (·.username)) (fun _ => rfl) fun _ => rfl
  rw [hall, hall] at husers hsources
  have hnil : whole.filter (·.channel = .explicit) = [] ↔
      (connection ++ copied rename subset connection).filter (·.channel = .explicit) = [] := by
    rw [← List.length_eq_zero_iff, (h.perm.filter _).length_eq, List.length_eq_zero_iff]
  have hor : mostCommon ((explicitOr whole).map (·.username)) =
      mostCommon ((explicitOr (connection ++ copied rename subset connection)).map
        (·.username)) := by
    unfold explicitOr
    by_cases hempty : whole.filter (·.channel = .explicit) = []
    · rw [if_pos hempty, if_pos (hnil.1 hempty), husers]
    · rw [if_neg hempty, if_neg fun h => hempty (hnil.2 h), hexplicit]
  refine Prod.ext (count_perm h.perm) (Prod.ext ?_ hsources)
  show orText _ _ = orText _ _
  rw [hor, husers]

end

/-- The copies are counted once: no channel counts more with them than the largest
without, and the user and the source named most stay. -/
structure CountedOnce (rename : Text → Text) (events subset : List Event) : Prop where
  count : ∀ connection ∈ connections events, ∀ channel, ∃ largest,
    channelCount (connection ++ copied rename subset connection) channel ≤
      channelCount connection largest
  username : ∀ connection ∈ connections events,
    (attemptOf (connection ++ copied rename subset connection)).username =
      (attemptOf connection).username
  sourceIp : ∀ connection ∈ connections events,
    (attemptOf (connection ++ copied rename subset connection)).sourceIp =
      (attemptOf connection).sourceIp

theorem count_eq_iff {extra : List Event} : (attemptOf (xs ++ extra)).count = (attemptOf xs).count ↔
      ∀ channel, ∃ largest, channelCount (xs ++ extra) channel ≤ channelCount xs largest := by
  constructor
  · intro h channel
    obtain ⟨largest, hlargest⟩ := exists_channelCount xs
    exact ⟨largest, ((count_le_iff.1 le_rfl channel).trans (Nat.le_of_eq h)).trans hlargest⟩
  · intro h
    refine le_antisymm (count_le_iff.2 fun channel => ?_) (count_le_iff.2 fun channel => ?_)
    · obtain ⟨largest, hlargest⟩ := h channel
      exact hlargest.trans (count_le_iff.1 le_rfl largest)
    · refine le_trans ?_ (count_le_iff.1 le_rfl channel)
      rw [channelCount_append]
      exact Nat.le_add_right _ _

theorem failures_copies (events subset : List Event) :
    failures (events ++ subset.map (asJournal rename)) =
      failures (events ++ (failures subset).map (asJournal rename)) := by
  have hkind : (fun event : Event => decide (event.kind = .failure)) ∘ asJournal rename =
      fun event => decide (event.kind = .failure) := rfl
  rw [failures, failures, List.filter_append, List.filter_append, List.filter_map,
    List.filter_map, hkind, failures, List.filter_filter]
  simp

/-- **The attempts show the same exactly when the copies are counted once.** -/
theorem shown_attempts_iff (hsubset : subset ⊆ events)
    (hcarrier : ∀ event ∈ subset, event.carrier = .authLog) :
    (attempts (events ++ subset.map (asJournal rename))).map Attempt.shown =
        (attempts events).map Attempt.shown ↔
      CountedOnce rename events subset := by
  have hfailures : ∀ event ∈ failures subset,
      event ∈ failures events ∧ event.carrier = .authLog := by
    intro event hevent
    obtain ⟨hmem, hkind⟩ := List.mem_filter.1 hevent
    exact ⟨List.mem_filter.2 ⟨hsubset hmem, hkind⟩, hcarrier event hmem⟩
  have hcopied : ∀ connection ∈ connections events,
      copied rename (failures subset) connection = copied rename subset connection := by
    intro connection hconnection
    rw [copied, copied, failures, List.filter_filter]
    refine congrArg _ (List.filter_congr fun event _ => ?_)
    by_cases hmem : event ∈ connection
    · obtain ⟨group, hgroup, hof⟩ := List.mem_flatMap.1 hconnection
      obtain ⟨source, hsource, rfl⟩ := mem_groups.1 hgroup
      have hfailure := List.mem_of_mem_filter (mem_of_mem_connectionsOf hof hmem)
      simp [hmem, of_decide_eq_true (List.mem_filter.1 hfailure).2]
    · simp [hmem]
  have hpairs := @connections_copies rename events (failures subset) hfailures
  have hconnections : connections (events ++ subset.map (asJournal rename)) =
      connections (events ++ (failures subset).map (asJournal rename)) := by
    rw [connections, failures_copies]
    rfl
  have hwhole : (attempts (events ++ subset.map (asJournal rename))).map Attempt.shown =
      (connections events).map fun connection =>
        (attemptOf (connection ++ copied rename (failures subset) connection)).shown := by
    rw [attempts, hconnections, List.map_map]
    generalize connections events = cs at hpairs
    generalize connections (events ++ (failures subset).map (asJournal rename)) = ds at hpairs
    induction hpairs with
    | nil => rfl
    | cons h _ ih => rw [List.map_cons, List.map_cons, ih, Function.comp_apply, h.shown]
  rw [hwhole, attempts, List.map_map, List.map_inj_left]
  constructor
  · intro h
    have hshown : ∀ connection ∈ connections events,
        (attemptOf (connection ++ copied rename subset connection)).shown =
          (attemptOf connection).shown := fun connection hconnection => by
      rw [← hcopied connection hconnection]
      exact h connection hconnection
    refine ⟨fun c hc => ?_, fun c hc => ?_, fun c hc => ?_⟩
    · exact count_eq_iff.1 (Prod.mk.inj (hshown c hc)).1
    · exact (Prod.mk.inj (Prod.mk.inj (hshown c hc)).2).1
    · exact (Prod.mk.inj (Prod.mk.inj (hshown c hc)).2).2
  · intro h connection hconnection
    rw [hcopied connection hconnection]
    exact Prod.ext (count_eq_iff.2 (h.count connection hconnection))
      (Prod.ext (h.username connection hconnection) (h.sourceIp connection hconnection))

end Kairon.Linux
