/-
Kairon/Linux/Restart.lean

The failed attempts and the rows of sudo and su over the events on both sides of a boot.

The rollups use the process identifier as the name of a process and forget it at
different times: the connections after a pause of ten minutes, the inferred users and
the rows of sudo and su never.  `Apart` says that nothing on the two sides meets under a
common name, `Agrees` that each side completes its failures from its own records.  Both
together make the rollups of the whole those of the parts (`separated_of_apart`), and
without the first the whole has fewer attempts or rows than the parts
(`apart_of_separated`).

The connections of a list are counted key by key (`connections_perm`): what one key holds
is what it holds on the two sides, one connection fewer where the sides are near.
-/
import Kairon.Linux.Privilege

namespace Kairon.Linux

open Search Gather

variable {before after events xs ys : List Event} {boot event : Event}

/-! ### The two sides of a boot -/

/-- A boot with the events before it and after it; those without a time may stand on
either side. -/
structure Split (before : List Event) (boot : Event) (after : List Event) : Prop where
  kind : boot.kind = .systemBoot
  time : ∃ t, boot.dt = some t ∧ (∀ e ∈ before, ∀ u, e.dt = some u → u ≤ t) ∧
    ∀ e ∈ after, ∀ u, e.dt = some u → t ≤ u

/-- The rollups of the whole are those of the two parts. -/
structure Separated (before : List Event) (boot : Event) (after : List Event) : Prop where
  attempts : (attempts (inferPamUsers (before ++ boot :: after))).Perm
    (attempts (inferPamUsers before) ++ attempts (inferPamUsers after))
  privilege : (privilege (inferPamUsers (before ++ boot :: after))).Perm
    (privilege (inferPamUsers before) ++ privilege (inferPamUsers after))

/-- No common name: a connection with failures on both sides has a pause of more than
ten minutes between them, and no row of sudo or su gets records from both. -/
structure Apart (before after : List Event) : Prop where
  failures : ∀ a ∈ failures before, ∀ b ∈ failures after, a.connection = b.connection →
    (∃ c ∈ failures before, c.connection = a.connection ∧ c.dt ≠ none) ∧
    (∃ c ∈ failures after, c.connection = a.connection ∧ c.dt ≠ none) ∧
    ∀ s t, a.dt = some s → b.dt = some t → connectionGap < t - s
  rows : ∀ a ∈ before.filter isPrivileged, ∀ b ∈ after.filter isPrivileged,
    rowKey a = rowKey b → rowKey a = none

/-- The user and the source that the records of a process name. -/
def namedUser (events : List Event) (event : Event) : Text :=
  ((reference events event.evidenceId event.pid).map (·.username)).getD []

def namedSource (events : List Event) (event : Event) : Text :=
  ((reference events event.evidenceId event.pid).map (·.sourceIp)).getD []

/-- For the failures of a part that lack their user or source, the part names the same
as all events. -/
def Agrees (events part : List Event) : Prop :=
  ∀ event ∈ part, event.kind = .failure → event.pid ≠ [] →
    (event.username = [] → namedUser events event = namedUser part event) ∧
    (event.sourceIp = [] → namedSource events event = namedSource part event)

/-! ### Inferred users -/

/-- A failure of a process takes what it lacks from the record that its process names. -/
theorem inferPamUser_eq (events : List Event) (event : Event) : inferPamUser events event =
      if event.kind = .failure ∧ event.pid ≠ [] then
        { event with
          username := orText event.username (namedUser events event)
          sourceIp := orText event.sourceIp (namedSource events event) }
      else event := by
  unfold inferPamUser namedUser namedSource
  by_cases hfailure : event.kind = .failure ∧ event.pid ≠ []
  · rw [if_pos hfailure]
    by_cases hlacks : event.username = [] ∨ event.sourceIp = []
    · rw [if_pos ⟨hfailure.1, hfailure.2, hlacks⟩]
      rcases reference events event.evidenceId event.pid with - | ref
      · have hself (text : Text) : orText text [] = text := by
          unfold orText
          split_ifs with h
          · exact h.symm
          · rfl
        simp only [Option.map_none, Option.getD_none, hself]
      · rfl
    · rw [if_neg fun h => hlacks h.2.2]
      obtain ⟨huser, hsource⟩ := not_or.1 hlacks
      simp only [orText, if_neg huser, if_neg hsource]
  · rw [if_neg fun h => hfailure ⟨h.1, h.2.1⟩, if_neg hfailure]

theorem inferPamUser_kind (events : List Event) (event : Event) :
    (inferPamUser events event).kind = event.kind := by
  rw [inferPamUser_eq]
  split_ifs <;> rfl

theorem inferPamUser_dt (events : List Event) (event : Event) :
    (inferPamUser events event).dt = event.dt := by
  rw [inferPamUser_eq]
  split_ifs <;> rfl

/-- Inference looks at processes only and leaves them as they are. -/
theorem inferPamUser_connection (events : List Event) (event : Event) :
    (inferPamUser events event).connection = event.connection := by
  rw [inferPamUser_eq]
  split_ifs with h
  · rw [Event.connection, Event.connection, if_pos h.2, if_pos h.2]
  · rfl

theorem inferPamUser_of_kind (events : List Event) (h : event.kind ≠ .failure) :
    inferPamUser events event = event := by
  rw [inferPamUser_eq, if_neg fun hfailure => h hfailure.1]

theorem inferPamUser_of_agrees (h : Agrees events xs) (hevent : event ∈ xs) :
    inferPamUser events event = inferPamUser xs event := by
  rw [inferPamUser_eq, inferPamUser_eq]
  split_ifs with hfailure
  · obtain ⟨huser, hsource⟩ := h event hevent hfailure.1 hfailure.2
    have hor {text a b : Text} (hab : text = [] → a = b) : orText text a = orText text b := by
      unfold orText
      split_ifs with htext
      · exact hab htext
      · rfl
    rw [hor huser, hor hsource]
  · rfl

theorem map_inferPamUser_of_agrees (h : Agrees events xs) :
    xs.map (inferPamUser events) = inferPamUsers xs :=
  List.map_congr_left fun _ hevent => inferPamUser_of_agrees h hevent

/-! ### Connections key by key -/

/-- The failures of one connection. -/
def held (events : List Event) (key : Connection) : List Event :=
  (failures events).filter (·.connection = key)

/-- The connections of some failures; those of no failures are none. -/
def connect (items : List Event) : List (List Event) :=
  if items = [] then [] else connectionsOf items

theorem held_append (xs ys : List Event) (key : Connection) :
    held (xs ++ ys) key = held xs key ++ held ys key := by
  rw [held, failures, List.filter_append, List.filter_append]
  rfl

theorem flatMap_eq_filter {α β : Type} {ks : List α} {p : α → Bool} {g : α → List β}
    (h : ∀ k ∈ ks, ¬ p k → g k = []) : ks.flatMap g = (ks.filter p).flatMap g := by
  induction ks with
  | nil => rfl
  | cons k ks ih =>
    obtain ⟨hk, hks⟩ := List.forall_mem_cons.1 h
    rw [List.flatMap_cons, ih hks]
    by_cases hp : p k
    · rw [List.filter_cons_of_pos hp, List.flatMap_cons]
    · rw [List.filter_cons_of_neg hp, hk hp, List.nil_append]

/-- The connections are those of the keys, for any keys that cover the failures. -/
theorem connections_perm {keys : List Connection} (hkeys : keys.Nodup)
    (hcover : ∀ event ∈ failures events, event.connection ∈ keys) :
    (connections events).Perm (keys.flatMap fun key => connect (held events key)) := by
  have hmem {key : Connection} :
      key ∈ firstKeys Event.connection (failures events) ↔ held events key ≠ [] := by
    rw [mem_firstKeys, held, Ne, List.filter_eq_nil_iff]
    simp
  have hown : connections events = (firstKeys Event.connection (failures events)).flatMap fun key =>
        connect (held events key) := by
    rw [connections, groups, List.flatMap_map]
    refine List.flatMap_congr fun key hkey => ?_
    rw [connect, if_neg (hmem.1 hkey)]
    rfl
  have hrest : ∀ key ∈ keys, ¬ decide (held events key ≠ []) = true →
      connect (held events key) = [] := by
    intro key _ hempty
    rw [decide_eq_true_eq, not_not] at hempty
    rw [connect, if_pos hempty]
  rw [hown, flatMap_eq_filter hrest]
  refine List.Perm.flatMap_right _ ?_
  refine (List.perm_ext_iff_of_nodup (nodup_firstKeys _) (hkeys.filter _)).2 fun key => ?_
  rw [List.mem_filter, decide_eq_true_eq, hmem]
  refine ⟨fun hheld => ⟨?_, hheld⟩, fun h => h.2⟩
  obtain ⟨event, hevent⟩ := List.exists_mem_of_ne_nil _ hheld
  obtain ⟨hfailure, hkey⟩ := List.mem_filter.1 hevent
  rw [← of_decide_eq_true hkey]
  exact hcover event hfailure

theorem connections_perm_self (events : List Event) : (connections events).Perm
    ((firstKeys Event.connection (failures events)).flatMap fun key => connect (held events key)) :=
  connections_perm (nodup_firstKeys _) fun event hevent => mem_firstKeys.2 ⟨event, hevent, rfl⟩

/-! ### One key on both sides -/

/-- The failures of one key that do not meet: one side has none, or both have a time
and are far apart. -/
def Meetless (xs ys : List Event) : Prop :=
  xs = [] ∨ ys = [] ∨ (∃ a ∈ xs, a.dt ≠ none) ∧ (∃ b ∈ ys, b.dt ≠ none) ∧
    FarApart (·.dt) connectionGap xs ys

theorem clusters_ne_nil_iff {items : List Event} :
    clusters (·.dt) connectionGap items ≠ [] ↔ ∃ item ∈ items, item.dt ≠ none := by
  rw [Ne, clusters_eq_nil]
  push Not
  rfl

theorem connect_append (hprecedes : Precedes (·.dt) xs ys) (h : Meetless xs ys) :
    connect (xs ++ ys) = connect xs ++ connect ys := by
  rcases h with rfl | rfl | ⟨hxs, hys, hfar⟩
  · rfl
  · rw [List.append_nil, connect, connect, if_pos rfl, List.append_nil]
  · have hnil {items : List Event} (hdated : ∃ item ∈ items, item.dt ≠ none) : items ≠ [] :=
      fun h => by simp [h] at hdated
    have hcx := clusters_ne_nil_iff.2 hxs
    have hcy := clusters_ne_nil_iff.2 hys
    have hall : xs ++ ys ≠ [] := fun h => hnil hxs (List.append_eq_nil_iff.1 h).1
    have hjoint := clusters_append hprecedes hfar
    have hcall : clusters (·.dt) connectionGap (xs ++ ys) ≠ [] := by
      rw [hjoint]
      exact fun h => hcx (List.append_eq_nil_iff.1 h).1
    rw [connect, connect, connect, if_neg hall, if_neg (hnil hxs), if_neg (hnil hys),
      connectionsOf, connectionsOf, connectionsOf, if_neg hcall, if_neg hcx, if_neg hcy, hjoint]

theorem length_connect {items : List Event} (h : items ≠ []) :
    (connect items).length = max 1 (clusters (·.dt) connectionGap items).length := by
  rw [connect, if_neg h, connectionsOf]
  split_ifs with hnil
  · rw [hnil]
    rfl
  · have hpos := List.length_pos_of_ne_nil hnil
    omega

/-- Failures that meet are in fewer connections than on the two sides. -/
theorem length_connect_append_lt (hprecedes : Precedes (·.dt) xs ys) (h : ¬ Meetless xs ys) :
    (connect (xs ++ ys)).length < (connect xs).length + (connect ys).length := by
  unfold Meetless at h
  push Not at h
  obtain ⟨hxs, hys, hmeet⟩ := h
  have hall : xs ++ ys ≠ [] := fun h => hxs (List.append_eq_nil_iff.1 h).1
  rw [length_connect hall, length_connect hxs, length_connect hys]
  by_cases hfar : FarApart (·.dt) connectionGap xs ys
  · rw [clusters_append hprecedes hfar, List.length_append]
    by_cases hcx : clusters (·.dt) connectionGap xs = []
    · simp [hcx]
    · by_cases hcy : clusters (·.dt) connectionGap ys = []
      · simp [hcy]
      · exact absurd hfar (hmeet (clusters_ne_nil_iff.1 hcx) (clusters_ne_nil_iff.1 hcy))
  · unfold FarApart at hfar
    push Not at hfar
    obtain ⟨a, ha, b, hb, s, t, hs, ht, hnear⟩ := hfar
    have hjoin := length_clusters_append hprecedes ha hb hs ht hnear
    have hposx := List.length_pos_of_ne_nil
      (clusters_ne_nil_iff.2 ⟨a, ha, by simp [hs]⟩)
    have hposy := List.length_pos_of_ne_nil
      (clusters_ne_nil_iff.2 ⟨b, hb, by simp [ht]⟩)
    omega

theorem length_connect_append_le (hprecedes : Precedes (·.dt) xs ys) :
    (connect (xs ++ ys)).length ≤ (connect xs).length + (connect ys).length := by
  by_cases h : Meetless xs ys
  · rw [connect_append hprecedes h, List.length_append]
  · exact (length_connect_append_lt hprecedes h).le

/-! ### The failures of the two sides -/

theorem mem_held {key : Connection} :
    event ∈ held events key ↔ event ∈ failures events ∧ event.connection = key := by
  rw [held, List.mem_filter, decide_eq_true_eq]

/-- The failures of the two sides are apart when those of no connection meet. -/
theorem apart_failures_iff :
    (∀ a ∈ failures before, ∀ b ∈ failures after, a.connection = b.connection →
      (∃ c ∈ failures before, c.connection = a.connection ∧ c.dt ≠ none) ∧
      (∃ c ∈ failures after, c.connection = a.connection ∧ c.dt ≠ none) ∧
      ∀ s t, a.dt = some s → b.dt = some t → connectionGap < t - s) ↔
    ∀ key, Meetless (held before key) (held after key) := by
  constructor
  · intro h key
    by_cases hbefore : held before key = []
    · exact .inl hbefore
    by_cases hafter : held after key = []
    · exact .inr (.inl hafter)
    obtain ⟨a, ha⟩ := List.exists_mem_of_ne_nil _ hbefore
    obtain ⟨b, hb⟩ := List.exists_mem_of_ne_nil _ hafter
    obtain ⟨hfa, rfl⟩ := mem_held.1 ha
    obtain ⟨hfb, hkey⟩ := mem_held.1 hb
    obtain ⟨⟨c, hc, hck, hcd⟩, ⟨d, hd, hdk, hdd⟩, -⟩ := h a hfa b hfb hkey.symm
    refine .inr (.inr ⟨⟨c, mem_held.2 ⟨hc, hck⟩, hcd⟩, ⟨d, mem_held.2 ⟨hd, hdk⟩, hdd⟩, ?_⟩)
    intro x hx y hy s t hs ht
    obtain ⟨hfx, hxk⟩ := mem_held.1 hx
    obtain ⟨hfy, hyk⟩ := mem_held.1 hy
    exact (h x hfx y hfy (hxk.trans hyk.symm)).2.2 s t hs ht
  · intro h a ha b hb hkey
    have hma : a ∈ held before a.connection := mem_held.2 ⟨ha, rfl⟩
    have hmb : b ∈ held after a.connection := mem_held.2 ⟨hb, hkey.symm⟩
    rcases h a.connection with hnil | hnil | ⟨⟨c, hc, hcd⟩, ⟨d, hd, hdd⟩, hfar⟩
    · exact absurd hma (hnil ▸ List.not_mem_nil)
    · exact absurd hmb (hnil ▸ List.not_mem_nil)
    · obtain ⟨hc, hck⟩ := mem_held.1 hc
      obtain ⟨hd, hdk⟩ := mem_held.1 hd
      exact ⟨⟨c, hc, hck, hcd⟩, ⟨d, hd, hdk, hdd⟩, fun s t => hfar a hma b hmb s t⟩

theorem precedes_held (h : Precedes (·.dt) xs ys) (key : Connection) :
    Precedes (·.dt) (held xs key) (held ys key) := fun a ha b hb =>
  h a (List.mem_of_mem_filter (List.mem_of_mem_filter ha))
    b (List.mem_of_mem_filter (List.mem_of_mem_filter hb))

/-- The keys of the failures of two lists. -/
def firstKeysBoth (xs ys : List Event) : List Connection :=
  firstKeys Event.connection (failures (xs ++ ys))

theorem mem_firstKeysBoth {key : Connection} :
    key ∈ firstKeysBoth xs ys ↔ held xs key ≠ [] ∨ held ys key ≠ [] := by
  rw [firstKeysBoth, mem_firstKeys, ← not_and_or, ← List.append_eq_nil_iff, ← held_append, held,
    List.filter_eq_nil_iff]
  simp

theorem connections_perm_left (xs ys : List Event) : (connections xs).Perm
    ((firstKeysBoth xs ys).flatMap fun key => connect (held xs key)) := by
  refine connections_perm (nodup_firstKeys _) fun event hevent => ?_
  exact mem_firstKeysBoth.2 (.inl (List.ne_nil_of_mem (mem_held.2 ⟨hevent, rfl⟩)))

theorem connections_perm_right (xs ys : List Event) : (connections ys).Perm
    ((firstKeysBoth xs ys).flatMap fun key => connect (held ys key)) := by
  refine connections_perm (nodup_firstKeys _) fun event hevent => ?_
  exact mem_firstKeysBoth.2 (.inr (List.ne_nil_of_mem (mem_held.2 ⟨hevent, rfl⟩)))

theorem connections_perm_both (xs ys : List Event) : (connections (xs ++ ys)).Perm
    ((firstKeysBoth xs ys).flatMap fun key => connect (held xs key ++ held ys key)) := by
  have hperm := connections_perm_self (xs ++ ys)
  simp only [held_append] at hperm
  exact hperm

/-- **Failures that do not meet are in the connections of their sides.** -/
theorem connections_append (hprecedes : Precedes (·.dt) xs ys)
    (h : ∀ key, Meetless (held xs key) (held ys key)) :
    (connections (xs ++ ys)).Perm (connections xs ++ connections ys) := by
  refine (connections_perm_both xs ys).trans (List.Perm.trans ?_
    ((connections_perm_left xs ys).append (connections_perm_right xs ys)).symm)
  have hkey (key : Connection) : connect (held xs key ++ held ys key) =
      connect (held xs key) ++ connect (held ys key) :=
    connect_append (precedes_held hprecedes key) (h key)
  simp only [hkey]
  exact (List.flatMap_append_perm _ _ _).symm

/-- **Failures that meet are in fewer connections than on their sides.** -/
theorem meetless_of_length (hprecedes : Precedes (·.dt) xs ys)
    (h : (connections (xs ++ ys)).length = (connections xs).length + (connections ys).length)
    (key : Connection) : Meetless (held xs key) (held ys key) := by
  by_contra hmeet
  have hkey : key ∈ firstKeysBoth xs ys :=
    mem_firstKeysBoth.2 (.inl fun hnil => hmeet (.inl hnil))
  have hlt := List.sum_lt_sum
    (fun k => (connect (held xs k ++ held ys k)).length)
    (fun k => (connect (held xs k)).length + (connect (held ys k)).length)
    (fun k _ => length_connect_append_le (precedes_held hprecedes k))
    ⟨key, hkey, length_connect_append_lt (precedes_held hprecedes key) hmeet⟩
  rw [(connections_perm_both xs ys).length_eq, (connections_perm_left xs ys).length_eq,
    (connections_perm_right xs ys).length_eq, List.length_flatMap, List.length_flatMap,
    List.length_flatMap, ← List.sum_map_add] at h
  exact absurd h hlt.ne

/-- The connections are as many after inference as before. -/
theorem length_connections_map {f : Event → Event} (hkind : ∀ e, (f e).kind = e.kind)
    (hdt : ∀ e, (f e).dt = e.dt) (hconnection : ∀ e, (f e).connection = e.connection)
    (events : List Event) : (connections (events.map f)).length = (connections events).length := by
  have hheld (key : Connection) : held (events.map f) key = (held events key).map f := by
    simp only [held, failures, List.filter_map, Function.comp_def, hkind, hconnection]
  have hconnect (items : List Event) : (connect (items.map f)).length = (connect items).length := by
    by_cases hnil : items = []
    · rw [hnil]
      rfl
    · rw [length_connect (by simpa using hnil), length_connect hnil, length_clusters_map hdt]
  have hcover : ∀ event ∈ failures (events.map f),
      event.connection ∈ firstKeys Event.connection (failures events) := by
    intro event hevent
    have hmem : event ∈ held (events.map f) event.connection := mem_held.2 ⟨hevent, rfl⟩
    rw [hheld] at hmem
    obtain ⟨source, hsource, -⟩ := List.mem_map.1 hmem
    obtain ⟨hfailure, hkey⟩ := mem_held.1 hsource
    exact mem_firstKeys.2 ⟨source, hfailure, hkey⟩
  rw [(connections_perm (nodup_firstKeys _) hcover).length_eq,
    (connections_perm_self events).length_eq, List.length_flatMap, List.length_flatMap]
  simp only [hheld, hconnect]

/-! ### The rows of sudo and su -/

theorem filter_isPrivileged_infer (all xs : List Event) :
    (xs.map (inferPamUser all)).filter isPrivileged = xs.filter isPrivileged := by
  induction xs with
  | nil => rfl
  | cons e es ih =>
    rw [List.map_cons]
    by_cases hkind : e.kind = .failure
    · have hleft : ¬ isPrivileged (inferPamUser all e) = true := by
        simp [isPrivileged, inferPamUser_kind, hkind]
      have hright : ¬ isPrivileged e = true := by simp [isPrivileged, hkind]
      rw [List.filter_cons_of_neg hleft, List.filter_cons_of_neg hright, ih]
    · rw [inferPamUser_of_kind all hkind, List.filter_cons, List.filter_cons, ih]

/-- Inference changes no record of sudo or su. -/
theorem privilegeRows_infer (events : List Event) :
    privilegeRows (inferPamUsers events) = privilegeRows events := by
  rw [privilegeRows, inferPamUsers, filter_isPrivileged_infer]
  rfl

theorem filter_byTime (p : Event → Bool) (items : List Event) :
    (byTime (·.dt) items).filter p = byTime (·.dt) (items.filter p) := by
  have htotal : Std.Total fun a b : Event => sortKey a.dt ≤ sortKey b.dt :=
    ⟨fun a b => le_total _ _⟩
  have htrans : IsTrans Event fun a b => sortKey a.dt ≤ sortKey b.dt :=
    ⟨fun _ _ _ hab hbc => hab.trans hbc⟩
  exact filter_insertionSort p items

theorem byTime_append_perm (xs ys : List Event) :
    (byTime (·.dt) (xs ++ ys)).Perm (byTime (·.dt) xs ++ byTime (·.dt) ys) :=
  (byTime_perm _ _).trans ((byTime_perm _ xs).append (byTime_perm _ ys)).symm

/-- Records that share no row make the rows of the two sides. -/
theorem privilegeRows_append
    (h : ∀ a ∈ xs.filter isPrivileged, ∀ b ∈ ys.filter isPrivileged,
      rowKey a = rowKey b → rowKey a = none) :
    (privilegeRows (xs ++ ys)).Perm (privilegeRows xs ++ privilegeRows ys) := by
  rw [privilegeRows, List.filter_append]
  refine rows_perm (byTime_append_perm _ _) (fun a ha b hb => ?_) (fun k hk => ?_)
    fun k hk => ?_
  · exact h a ((byTime_perm _ _).mem_iff.1 ha) b ((byTime_perm _ _).mem_iff.1 hb)
  · obtain ⟨a, ha, hak⟩ := hk
    have hnone : (ys.filter isPrivileged).filter (fun b => rowKey b = some k) = [] := by
      refine List.filter_eq_nil_iff.2 fun b hb hbk => ?_
      have hkey := h a ((byTime_perm _ _).mem_iff.1 ha) b hb
        (hak.trans (of_decide_eq_true hbk).symm)
      exact absurd (hak.symm.trans hkey) (Option.some_ne_none k)
    rw [filter_byTime, filter_byTime, List.filter_append, hnone, List.append_nil]
  · obtain ⟨b, hb, hbk⟩ := hk
    have hnone : (xs.filter isPrivileged).filter (fun a => rowKey a = some k) = [] := by
      refine List.filter_eq_nil_iff.2 fun a ha hak => ?_
      have hak := of_decide_eq_true hak
      have hkey := h a ha b ((byTime_perm _ _).mem_iff.1 hb) (hak.trans hbk.symm)
      exact absurd (hak.symm.trans hkey) (Option.some_ne_none k)
    rw [filter_byTime, filter_byTime, List.filter_append, hnone, List.nil_append]

theorem length_privilege (events : List Event) :
    (privilege events).length = (privilegeRows events).length := by
  rw [privilege, List.length_insertionSort, List.length_map]

/-! ### Restarts -/

theorem Split.failures (h : Split before boot after) :
    failures (before ++ boot :: after) = failures (before ++ after) := by
  have hboot : (boot :: after).filter (·.kind = .failure) = after.filter (·.kind = .failure) :=
    List.filter_cons_of_neg (by simp [h.kind])
  rw [Linux.failures, Linux.failures, List.filter_append, List.filter_append, hboot]

theorem Split.isPrivileged (h : Split before boot after) :
    (before ++ boot :: after).filter isPrivileged = (before ++ after).filter isPrivileged := by
  have hboot : ¬ Linux.isPrivileged boot = true := by simp [Linux.isPrivileged, h.kind]
  rw [List.filter_append, List.filter_append, List.filter_cons_of_neg hboot]

theorem Split.privilegeRows (h : Split before boot after) :
    privilegeRows (before ++ boot :: after) = privilegeRows (before ++ after) := by
  rw [Linux.privilegeRows, h.isPrivileged]
  rfl

/-- The boot has no failures: the connections are those of the two sides together. -/
theorem Split.connections (h : Split before boot after) :
    connections (before ++ boot :: after) = connections (before ++ after) := by
  rw [Linux.connections, h.failures]
  rfl

theorem Split.precedes (h : Split before boot after) : Precedes (·.dt) before after := by
  obtain ⟨t, -, hbefore, hafter⟩ := h.time
  exact fun a ha b hb s u hs hu => (hbefore a ha s hs).trans (hafter b hb u hu)

/-- The two sides after inference from all events are split like the events. -/
theorem Split.infer (h : Split before boot after) (events : List Event) :
    Split (before.map (inferPamUser events)) boot (after.map (inferPamUser events)) := by
  obtain ⟨t, ht, hbefore, hafter⟩ := h.time
  refine ⟨h.kind, t, ht, ?_, ?_⟩
  · intro e he u hu
    obtain ⟨source, hsource, rfl⟩ := List.mem_map.1 he
    exact hbefore source hsource u ((inferPamUser_dt events source).symm.trans hu)
  · intro e he u hu
    obtain ⟨source, hsource, rfl⟩ := List.mem_map.1 he
    exact hafter source hsource u ((inferPamUser_dt events source).symm.trans hu)

theorem Split.inferPamUsers (h : Split before boot after) :
    inferPamUsers (before ++ boot :: after) = before.map (inferPamUser (before ++ boot :: after)) ++
        boot :: after.map (inferPamUser (before ++ boot :: after)) := by
  have hboot : boot.kind ≠ .failure := by simp [h.kind]
  rw [Linux.inferPamUsers, List.map_append, List.map_cons, inferPamUser_of_kind _ hboot]

theorem held_map_infer (events xs : List Event) (key : Connection) :
    held (xs.map (inferPamUser events)) key = (held xs key).map (inferPamUser events) := by
  simp only [held, failures, List.filter_map, Function.comp_def, inferPamUser_kind,
    inferPamUser_connection]

/-- Meeting is a matter of the times, which inference leaves. -/
theorem Meetless.infer (events : List Event) (h : Meetless xs ys) :
    Meetless (xs.map (inferPamUser events)) (ys.map (inferPamUser events)) := by
  rcases h with rfl | rfl | ⟨⟨a, ha, hadt⟩, ⟨b, hb, hbdt⟩, hfar⟩
  · exact .inl rfl
  · exact .inr (.inl rfl)
  · refine .inr (.inr ⟨⟨_, List.mem_map_of_mem ha, ?_⟩, ⟨_, List.mem_map_of_mem hb, ?_⟩, ?_⟩)
    · rwa [inferPamUser_dt]
    · rwa [inferPamUser_dt]
    · intro x hx y hy s t hs ht
      obtain ⟨c, hc, rfl⟩ := List.mem_map.1 hx
      obtain ⟨d, hd, rfl⟩ := List.mem_map.1 hy
      exact hfar c hc d hd s t ((inferPamUser_dt events c).symm.trans hs)
        ((inferPamUser_dt events d).symm.trans ht)

theorem separated_of_apart (h : Split before boot after) (hapart : Apart before after)
    (hbefore : Agrees (before ++ boot :: after) before)
    (hafter : Agrees (before ++ boot :: after) after) : Separated before boot after := by
  constructor
  · have hsplit := h.infer (before ++ boot :: after)
    rw [attempts, h.inferPamUsers, hsplit.connections]
    have hmeet (key : Connection) :
        Meetless (held (before.map (inferPamUser (before ++ boot :: after))) key)
          (held (after.map (inferPamUser (before ++ boot :: after))) key) := by
      rw [held_map_infer, held_map_infer]
      exact (apart_failures_iff.1 hapart.failures key).infer _
    have hperm := connections_append hsplit.precedes hmeet
    rw [map_inferPamUser_of_agrees hbefore, map_inferPamUser_of_agrees hafter] at hperm ⊢
    exact (hperm.map attemptOf).trans (List.Perm.of_eq List.map_append)
  · have hrows := privilegeRows_append hapart.rows
    unfold privilege
    refine (List.perm_insertionSort _ _).trans (List.Perm.trans ?_
      ((List.perm_insertionSort _ _).append (List.perm_insertionSort _ _)).symm)
    rw [privilegeRows_infer, privilegeRows_infer, privilegeRows_infer, h.privilegeRows,
      ← List.map_append]
    exact hrows.map Prod.snd

theorem apart_of_separated (h : Split before boot after) (hsep : Separated before boot after) :
    Apart before after := by
  constructor
  · refine apart_failures_iff.2 (meetless_of_length h.precedes ?_)
    have hlength := hsep.attempts.length_eq
    have hsame (events : List Event) :
        (attempts (inferPamUsers events)).length = (connections events).length := by
      rw [attempts, List.length_map]
      exact length_connections_map (inferPamUser_kind events) (inferPamUser_dt events)
        (inferPamUser_connection events) events
    rwa [List.length_append, hsame, hsame, hsame, h.connections] at hlength
  · have hlength := hsep.privilege.length_eq
    rw [List.length_append, length_privilege, length_privilege, length_privilege,
      privilegeRows_infer, privilegeRows_infer, privilegeRows_infer, h.privilegeRows,
      privilegeRows, List.filter_append] at hlength
    intro a ha b hb
    refine disjoint_of_length_rows (byTime_append_perm _ _) hlength a ?_ b ?_
    · exact (byTime_perm _ _).mem_iff.2 ha
    · exact (byTime_perm _ _).mem_iff.2 hb

/-- **A restart separates the processes when nothing on its two sides has a common name
and each side completes its failures from its own records**; the first of the two is
needed. -/
theorem restart_separates (h : Split before boot after) :
    (Apart before after ∧ Agrees (before ++ boot :: after) before ∧
      Agrees (before ++ boot :: after) after → Separated before boot after) ∧
    (Separated before boot after → Apart before after) :=
  ⟨fun ⟨hapart, hbefore, hafter⟩ => separated_of_apart h hapart hbefore hafter,
    apart_of_separated h⟩

def failureAt (id pid : Text) (t : ℤ) : Event :=
  { bareEvent id .authLog pid .failure (some t) with result := .failure, channel := .explicit }

def bootAt (t : ℤ) : Event := bareEvent "boot".toList .wtmp [] .systemBoot (some t)

theorem split_at_boot (pid other : Text) :
    Split [failureAt "a".toList pid 100000000] (bootAt 160000000)
      [failureAt "b".toList other 220000000] := by
  refine ⟨rfl, 160000000, rfl, ?_, ?_⟩
  · intro e he u hu
    obtain rfl := List.mem_singleton.1 he
    obtain rfl := Option.some.inj hu
    decide
  · intro e he u hu
    obtain rfl := List.mem_singleton.1 he
    obtain rfl := Option.some.inj hu
    decide

/-- Two processes of different identifiers, one before the boot and one after it. -/
theorem separated_processes :
    Separated [failureAt "a".toList "700".toList 100000000] (bootAt 160000000)
      [failureAt "b".toList "701".toList 220000000] := by
  have hagrees (id pid : Text) (t : ℤ) (events : List Event) (hsource :
      namedSource events (failureAt id pid t) = namedSource [failureAt id pid t]
        (failureAt id pid t)) : Agrees events [failureAt id pid t] := by
    intro e he _ _
    obtain rfl := List.mem_singleton.1 he
    refine ⟨fun huser => ?_, fun _ => hsource⟩
    exact absurd huser (by decide : "alice".toList ≠ [])
  refine (restart_separates (split_at_boot _ _)).1 ⟨⟨?_, ?_⟩, hagrees _ _ _ _ (by decide +kernel),
    hagrees _ _ _ _ (by decide +kernel)⟩
  · intro a ha b hb hkey
    obtain rfl := List.mem_singleton.1 (List.mem_of_mem_filter ha)
    obtain rfl := List.mem_singleton.1 (List.mem_of_mem_filter hb)
    exact absurd hkey (by decide +kernel)
  · intro a ha
    obtain rfl := List.mem_singleton.1 (List.mem_of_mem_filter ha)
    exact absurd ha (by decide +kernel)

/-- One process identifier on both sides of a boot: two failures, one attempt. -/
theorem restart_merged :
    ¬ Separated [failureAt "a".toList "700".toList 100000000] (bootAt 160000000)
      [failureAt "b".toList "700".toList 220000000] := by
  intro h
  refine absurd h.attempts.length_eq ?_
  decide +kernel

end Kairon.Linux
